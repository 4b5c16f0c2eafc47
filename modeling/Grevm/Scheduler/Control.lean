/-
Grevm.Scheduler.Control — the execution of a block from call to return.

`src/scheduler/control.rs`, `src/scheduler/fallback.rs` and
`parallel_execute_inner`: when every thread has ended, the outcomes of the
commit loop are installed, and the reason of an abort decides whether the
rest of the block is replayed sequentially or an error is returned. The
main result is that on every exit the outcomes, the applied change sets
and the index of an error describe one prefix of the block.
-/
import Grevm.Applied
import Grevm.ParallelState
import Grevm.Scheduler.Results

namespace Grevm

variable {Err W R : Type} {B : Backing Err}

/-! ## Sequential replay -/

/-- A state read of the sequential executor. -/
def Backing.readNow (B : Backing Err) (s : B.State) : Call → B.State × Except Err Value
  | .basic address =>
    match B.basicNow s address with
    | (s, .error e) => (s, .error e)
    | (s, .ok none) => (s, .ok (.account none))
    | (s, .ok (some info)) =>
      if !info.isEmptyCodeHash && info.code.isNone then
        match B.codeNow s info.codeHash with
        | (s, .ok code) => (s, withCode info code)
        | (s, .error e) => (s, .error e)
      else (s, .ok (.account (some info.view)))
  | .storage address index =>
    let (s, result) := B.storageNow s address index
    (s, result.map .word)

/-- The program executed on the backing state alone. -/
def Prog.runOn (B : Backing Err) (s : B.State) :
    Prog Err R → B.State × Except (EVMError Err) (SpeculativeResult R)
  | .read call continuation =>
    let (s', answer) := B.readNow s call
    runOn B s' (continuation answer)
  | .done result => (s, result)

/-- `reject_nonce_overflow`: whether the transaction is refused, or the
error of the look-up. -/
def rejectNonceOverflow (blk : Block Err R) (s : B.State) (txid : Nat) :
    B.State × Except (EVMError Err) Unit :=
  if !blk.disableNonceCheck && blk.nonce txid == BitVec.allOnes 64 then
    match B.basicNow s (blk.caller txid) with
    | (s, .error e) => (s, .error (.database e))
    | (s, .ok info) =>
      (s, if (info.map AccountInfo.nonce).getD 0 == BitVec.allOnes 64 then
        .error (.transaction .nonceOverflowInTransaction) else .ok ())
  else (s, .ok ())

/-- The closure that replays one transaction. Its change set is committed
exactly when the transaction succeeds; `none` is a panic of the commit. -/
def transact (blk : Block Err R) (s : B.State) (txid : Nat) :
    Option (B.State × Except (EVMError Err) (R × EvmState)) :=
  match rejectNonceOverflow blk s txid with
  | (s, .error e) => some (s, .error e)
  | (s, .ok ()) =>
    match (blk.immediate txid).runOn B s with
    | (s, .error e) => some (s, .error e)
    | (s, .ok output) =>
      (B.commitNow s output.state).map fun s => (s, .ok (output.result, output.state))

/-- What an execution of the block leaves: the value returned, the
outcomes, the calls of `commit` in their order, and the state. -/
structure Report {Err : Type} (R : Type) (B : Backing Err) where
  result : Except (GrevmError Err) Unit
  outcomes : List (TxExecutionOutcome R)
  applied : List (Applied R)
  state : B.State

/-- `execute_sequential_suffix` over the next `count` transactions. -/
def executeSequentialSuffix (blk : Block Err R) :
    Nat → Nat → B.State → Option (Report R B)
  | 0, _, s => some { result := .ok (), outcomes := [], applied := [], state := s }
  | count + 1, txid, s =>
    match transact blk s txid with
    | none => none
    | some (s, .ok (result, state)) =>
      (executeSequentialSuffix blk count (txid + 1) s).map fun rest =>
        { rest with
          outcomes := .executed result :: rest.outcomes
          applied := ⟨txid, result, state⟩ :: rest.applied }
    | some (s, .error (.transaction error)) =>
      (executeSequentialSuffix blk count (txid + 1) s).map fun rest =>
        { rest with outcomes := .skipped error :: rest.outcomes }
    | some (s, .error error) =>
      some { result := .error { txid, error }, outcomes := [], applied := [], state := s }

/-- `replay_uncommitted_suffix` from a committed boundary. -/
def replayUncommittedSuffix (blk : Block Err R) (start : Nat)
    (outcomes : List (TxExecutionOutcome R)) (applied : List (Applied R)) (s : B.State) :
    Option (Report R B) :=
  if blk.size < start ∨ outcomes.length ≠ start then
    let message := "committed prefix mismatch: boundary=" ++ toString start ++ ", outcomes=" ++
      toString outcomes.length ++ ", block_size=" ++ toString blk.size
    some { result := .error ⟨min start (blk.size - 1), .custom message⟩,
           outcomes, applied, state := s }
  else if start = blk.size then some { result := .ok (), outcomes, applied, state := s }
  else
    (executeSequentialSuffix blk (blk.size - start) start s).map fun replay =>
      { replay with
        outcomes := outcomes ++ replay.outcomes
        applied := applied ++ replay.applied }

/-! ## The end of a parallel execution -/

/-- `post_execute` after the threads have been joined. -/
def postExecute (blk : Block Err R) (σ : SchedulerState W R B) (committed : Nat) :
    Option (Report R B) :=
  let replay :=
    replayUncommittedSuffix blk committed σ.commit.output σ.commit.applied σ.shared.backing
  let leave (result : Except (GrevmError Err) Unit) : Report R B :=
    { result, outcomes := σ.commit.output, applied := σ.commit.applied, state := σ.shared.backing }
  if σ.shared.abort then
    match σ.shared.abortReason with
    | some (.fatalEvmError txid) =>
      match (σ.shared.txResults txid).map TransactionResult.executeResult with
      | some (.error error) => some (leave (.error { txid, error }))
      | _ => replay
    | some (.commitError error) => some (leave (.error error))
    | some (.parallelError _ _) | some .fallbackSequential | none => replay
  else some (leave (.ok ()))

/-- `install_commit_loop_result`, then `post_execute`. The assertion on
the committed cursor panics. -/
def finishParallel (blk : Block Err R) (σ : SchedulerState W R B)
    (error : Option (GrevmError Err)) : Option (Report R B) :=
  let committed := σ.commit.output.length
  if committed ≠ σ.shared.ctx.committed then none
  else
    match error with
    | some error =>
      some { result := .error error, outcomes := σ.commit.output, applied := σ.commit.applied,
             state := σ.shared.backing }
    | none => postExecute blk σ committed

/-- The settings `parallel_execute_inner` reads. -/
structure GrevmConfig where
  forceSequential : Bool
  minParallelTxs : Nat

/-- `fallback_sequential`, the first call of a scheduler. -/
def FallbackSequential (blk : Block Err R) (s : B.State) (report : Report R B) : Prop :=
  replayUncommittedSuffix blk 0 [] [] s = some report

/-- `parallel_execute`, the first call of a scheduler: the reports with
which it can return. -/
inductive ParallelExecute (W : Type) [DecidableEq W] (config : GrevmConfig) (blk : Block Err R)
    (s : B.State) : Report R B → Prop where
  | sequential {report : Report R B}
      (hcfg : config.forceSequential = true ∨ blk.size < config.minParallelTxs)
      (h : replayUncommittedSuffix blk 0 [] [] s = some report) :
      ParallelExecute W config blk s report
  | preloadFailed {s' : B.State} {e : Err}
      (hcfg : config.forceSequential = false ∧ config.minParallelTxs ≤ blk.size)
      (h : B.basicNow s blk.beneficiary = (s', .error e)) :
      ParallelExecute W config blk s
        { result := .error ⟨0, .database e⟩, outcomes := [], applied := [], state := s' }
  | parallel {s' : B.State} {σ : SchedulerState W R B} {error : Option (GrevmError Err)}
      {report : Report R B}
      (hcfg : config.forceSequential = false ∧ config.minParallelTxs ≤ blk.size)
      (hanchor : B.basicNow s blk.beneficiary = (s', .ok blk.anchor))
      (hrun : Reachable blk s' σ) (hworkers : ∀ w, σ.workers w = .finished)
      (hfinality : σ.finality.pc = .finished) (hcommit : σ.commit.pc = .finished error)
      (h : finishParallel blk σ error = some report) :
      ParallelExecute W config blk s report

def WorkerPc.isFinished : WorkerPc R B → Bool
  | .finished => true
  | _ => false

/-- Every thread has ended, the commit loop without an error. -/
def SchedulerState.isJoined (workers : List W) (σ : SchedulerState W R B) : Bool :=
  (workers.all fun w => (σ.workers w).isFinished) && σ.finality.pc == .finished &&
    match σ.commit.pc with
    | .finished none => true
    | _ => false

theorem SchedulerState.of_isJoined {workers : List W} {σ : SchedulerState W R B}
    (h : σ.isJoined workers = true) (hall : ∀ w, w ∈ workers) :
    (∀ w, σ.workers w = .finished) ∧ σ.finality.pc = .finished ∧ σ.commit.pc = .finished none := by
  simp only [isJoined, Bool.and_eq_true, List.all_eq_true, beq_iff_eq] at h
  obtain ⟨⟨hworkers, hfinality⟩, hcommit⟩ := h
  refine ⟨fun w => ?_, hfinality, ?_⟩
  · have hw := hworkers w (hall w)
    cases hpc : σ.workers w <;> rw [hpc] at hw <;> first | rfl | cases hw
  · split at hcommit
    · assumption
    · cases hcommit

/-! ## Where the change sets come from -/

/-- The program ends with the result when its reads are answered in some
way. -/
def Prog.EndsWith (p : Prog Err R) (x : SpeculativeResult R) : Prop :=
  ∃ log, p.follow log = some (.done (.ok x))

/-- How the change set of a transaction came about after exactly `before`
had been applied: it is the one of a speculative execution, with the
reward paid on the account the commit loop found, or the one of a
sequential execution. -/
inductive Block.Produces (blk : Block Err R) (s : B.State) (before : List EvmState)
    (txid : Nat) : R → EvmState → Prop where
  | speculative {x : SpeculativeResult R} (h : (blk.spec txid).EndsWith x)
      (hreward : x.deferredReward = none) : Produces blk s before txid x.result x.state
  | rewarded {x : SpeculativeResult R} {amount : DeferredBeneficiaryReward}
      {info : Option AccountInfo} (h : (blk.spec txid).EndsWith x)
      (hreward : x.deferredReward = some amount)
      (hinfo : B.Finds s before blk.beneficiary info) :
      Produces blk s before txid x.result (withReward blk.beneficiary amount info x.state)
  | replayed {x : SpeculativeResult R} {s₁ s₂ : B.State} (hs : B.Applies s before none s₁)
      (h : (blk.immediate txid).runOn B s₁ = (s₂, .ok x)) :
      Produces blk s before txid x.result x.state

/-- Every change set was produced with exactly those before it applied. -/
inductive Block.Produced (blk : Block Err R) (s : B.State) : List (Applied R) → Prop where
  | nil : Produced blk s []
  | snoc {before : List (Applied R)} {a : Applied R} (h : Produced blk s before)
      (ha : blk.Produces s (before.map Applied.state) a.txid a.result a.state) :
      Produced blk s (before ++ [a])

/-- The list is what has been applied on the way from `s` to `s'`. -/
structure Block.Leaves (blk : Block Err R) (s : B.State) (applied : List (Applied R))
    (pc : Option B.CommitPc) (s' : B.State) : Prop where
  produced : blk.Produced s applied
  applies : B.Applies s (applied.map Applied.state) pc s'

section

variable {blk : Block Err R} {s s₁ s₂ : B.State} {applied : List (Applied R)}
  {pc : Option B.CommitPc}

theorem Block.Leaves.of_reads (h : blk.Leaves s applied pc s₁)
    (hs : s₂ = s₁ ∨ B.Reads s₁ s₂) : blk.Leaves s applied pc s₂ :=
  ⟨h.produced, h.applies.of_reads hs⟩

/-! ### Sequential executions -/

theorem Backing.Applies.readNow {states : List EvmState} (h : B.Applies s states pc s₁)
    (call : Call) : B.Applies s states pc (B.readNow s₁ call).1 := by
  cases call with
  | basic address =>
    have hbasic := h.read (.basicNow address)
    simp only [Backing.readNow]
    split
    case h_1 heq | h_2 heq => rwa [heq] at hbasic
    case h_3 info heq =>
      rw [heq] at hbasic
      split
      · have hcode := hbasic.read (.codeNow info.codeHash)
        split
        case h_1 heq | h_2 heq => rwa [heq] at hcode
      · exact hbasic
  | storage address index => exact h.read (.storageNow address index)

theorem Backing.Applies.runOn {states : List EvmState} (h : B.Applies s states pc s₁)
    (p : Prog Err R) : B.Applies s states pc (p.runOn B s₁).1 := by
  induction p generalizing s₁ with
  | done result => exact h
  | read call continuation ih => exact ih _ (h.readNow call)

theorem Backing.Applies.rejectNonceOverflow {states : List EvmState}
    (h : B.Applies s states pc s₁) (txid : Nat) :
    B.Applies s states pc (rejectNonceOverflow blk s₁ txid).1 := by
  have hbasic := h.read (.basicNow (blk.caller txid))
  unfold Grevm.rejectNonceOverflow
  split
  · split
    case h_1 heq | h_2 heq => rwa [heq] at hbasic
  · exact h

/-- A transaction that is replayed adds the change set of its execution, or
nothing when it fails. -/
theorem Block.Leaves.transact (h : blk.Leaves s applied none s₁) {txid : Nat}
    {result : Except (EVMError Err) (R × EvmState)}
    (ht : transact blk s₁ txid = some (s₂, result)) :
    (∀ r state, result = .ok (r, state) →
      blk.Leaves s (applied ++ [⟨txid, r, state⟩]) none s₂) ∧
    (∀ e, result = .error e → blk.Leaves s applied none s₂) := by
  have hreject : B.Applies s (applied.map Applied.state) none
      (rejectNonceOverflow blk s₁ txid).1 := h.applies.rejectNonceOverflow txid
  unfold Grevm.transact at ht
  split at ht
  case h_1 s' e heq =>
    cases ht
    rw [heq] at hreject
    exact ⟨fun _ _ hok => (by cases hok), fun _ _ => ⟨h.produced, hreject⟩⟩
  case h_2 s' heq =>
    rw [heq] at hreject
    have hrun := hreject.runOn (blk.immediate txid)
    split at ht
    case h_1 s'' e hexec =>
      cases ht
      rw [hexec] at hrun
      exact ⟨fun _ _ hok => (by cases hok), fun _ _ => ⟨h.produced, hrun⟩⟩
    case h_2 s'' output hexec =>
      rw [hexec] at hrun
      obtain ⟨s₃, hcommit, heq⟩ := Option.map_eq_some_iff.mp ht
      cases heq
      refine ⟨fun r state hok => ?_, fun _ herror => (by cases herror)⟩
      cases hok
      refine ⟨.snoc h.produced (.replayed hreject hexec), ?_⟩
      rw [List.map_append]
      exact hrun.now hcommit

/-- The suffix continues the list. -/
theorem Block.Leaves.executeSequentialSuffix {count start : Nat} {report : Report R B}
    (h : blk.Leaves s applied none s₁)
    (hr : executeSequentialSuffix blk count start s₁ = some report) :
    blk.Leaves s (applied ++ report.applied) none report.state := by
  induction count generalizing start s₁ applied report with
  | zero =>
    cases hr
    simpa using h
  | succ count ih =>
    simp only [Grevm.executeSequentialSuffix] at hr
    split at hr
    case h_1 => cases hr
    case h_2 s₂ result state ht =>
      obtain ⟨rest, hrest, rfl⟩ := Option.map_eq_some_iff.mp hr
      have hnext := (h.transact ht).1 result state rfl
      simpa using ih hnext hrest
    case h_3 s₂ error ht =>
      obtain ⟨rest, hrest, rfl⟩ := Option.map_eq_some_iff.mp hr
      have hrest : blk.Leaves s (applied ++ rest.applied) none rest.state :=
        ih ((h.transact ht).2 _ rfl) hrest
      exact hrest
    case h_4 s₂ error _ ht =>
      cases hr
      simpa using (h.transact ht).2 _ rfl

theorem Block.Leaves.replayUncommittedSuffix {start : Nat}
    {outcomes : List (TxExecutionOutcome R)} {report : Report R B}
    (h : blk.Leaves s applied none s₁)
    (hr : replayUncommittedSuffix blk start outcomes applied s₁ = some report) :
    blk.Leaves s report.applied none report.state := by
  unfold Grevm.replayUncommittedSuffix at hr
  split at hr
  · cases hr
    exact h
  · split at hr
    · cases hr
      exact h
    · obtain ⟨replay, hreplay, rfl⟩ := Option.map_eq_some_iff.mp hr
      exact h.executeSequentialSuffix hreplay

end

/-! ### Runs -/

/-- The commit that is under way. -/
def CommitLoopPc.committing : CommitLoopPc R B → Option B.CommitPc
  | .applying _ _ pc => some pc
  | _ => none

/-- No commit is under way and no reward is being paid. -/
def CommitLoopPc.isBetween : CommitLoopPc R B → Bool
  | .reward _ _ _ _ | .applying _ _ _ => false
  | _ => true

/-- What the commit loop has applied, and the look-up of the beneficiary it
makes before the next change set. -/
structure CommitLeaves (blk : Block Err R) (start s : B.State) (t : CommitThread R B) :
    Prop where
  leaves : blk.Leaves start t.applied t.pc.committing s
  looking : ∀ previous x amount pc, t.pc = .reward previous x amount pc →
    x.deferredReward = some amount ∧
      B.Looking start (t.applied.map Applied.state) blk.beneficiary pc

section

variable {blk : Block Err R} {s s' : Shared W R B} {v : TxVersion} {start : B.State}

theorem Prog.Yields.imp {P Q : SpeculativeResult R → Prop} {p : Prog Err R} (h : p.Yields P)
    (himp : ∀ x, P x → Q x) : p.Yields Q := by
  induction p with
  | read call continuation ih => exact fun answer => ih answer (h answer)
  | done result =>
    cases result with
    | ok x => exact himp x h
    | error e => trivial

theorem ExecStep.reads {pc : ExecPc R B} {p' : WorkerPc R B} (h : ExecStep blk s v pc s' p') :
    s'.backing = s.backing ∨ B.Reads s.backing s'.backing := by
  cases h
  case read h | answer h => exact callStep_reads h
  case frontierFinish tail _ _ _ _ _ | rewindFinish tail _ _ _ => cases tail <;> exact .inl rfl
  all_goals exact .inl rfl

theorem WorkerStep.reads {w : W} {p p' : WorkerPc R B} (h : WorkerStep blk w s p s' p') :
    s'.backing = s.backing ∨ B.Reads s.backing s'.backing := by
  cases h
  case exec h => exact h.reads
  case val h =>
    cases h
    all_goals exact .inl rfl
  all_goals exact .inl rfl

theorem CommitLoopPc.committing_of_isBetween {pc : CommitLoopPc R B}
    (h : pc.isBetween = true) : pc.committing = none := by
  cases pc <;> first | rfl | cases h

theorem CommitLoopPc.isBetween_of_isWaiting {pc : CommitLoopPc R B}
    (h : pc.isWaiting = true) : pc.isBetween = true := by
  cases pc <;> first | rfl | cases h

theorem CommitLeaves.of_isBetween {t : CommitThread R B} {s : B.State}
    (h : blk.Leaves start t.applied none s) (hpc : t.pc.isBetween = true) :
    CommitLeaves blk start s t where
  leaves := CommitLoopPc.committing_of_isBetween hpc ▸ h
  looking _ _ _ _ heq := by
    rw [heq] at hpc
    cases hpc

theorem CommitLeaves.between {t : CommitThread R B} {s : B.State}
    (h : CommitLeaves blk start s t) (hpc : t.pc.isBetween = true) :
    blk.Leaves start t.applied none s :=
  CommitLoopPc.committing_of_isBetween hpc ▸ h.leaves

theorem CommitLeaves.startApply {t : CommitThread R B} {s : B.State} {previous : Nat}
    {result : R} {state : EvmState} (h : blk.Leaves start t.applied none s)
    (hnew : blk.Produces start (t.applied.map Applied.state) t.idx result state) :
    CommitLeaves blk start s (startApply t previous result state) := by
  refine ⟨⟨.snoc h.produced hnew, ?_⟩, fun _ _ _ _ heq => (by cases heq)⟩
  simp only [Grevm.startApply, List.map_append]
  exact h.applies.start state

theorem CommitLeaves.startReward {t t' : CommitThread R B} {s : B.State} {previous : Nat}
    {x : SpeculativeResult R} (h : blk.Leaves start t.applied none s)
    (hx : (blk.spec t.idx).EndsWith x) (ht : startReward blk t previous x = some t') :
    CommitLeaves blk start s t' := by
  rcases startReward_cases ht with ⟨amount, hreward, rfl⟩ | ⟨hreward, rfl⟩
  · refine ⟨h, fun _ _ _ _ heq => ?_⟩
    cases heq
    exact ⟨hreward, .start⟩
  · exact .startApply h (.speculative hx hreward)

theorem CommitLeaves.commit {t t' : CommitThread R B} (h : CommitLeaves blk start s.backing t)
    (hresults : ∀ t r x, s.txResults t = some r → r.executeResult = .ok x →
      (blk.spec t).EndsWith x)
    (htaken : t.pc.Yields (blk.spec t.idx).EndsWith) (hs : CommitStep blk s t s' t') :
    CommitLeaves blk start s'.backing t' := by
  have hleaves := h.leaves
  cases hs
  case wait hpc hpc' =>
    exact .of_isBetween (h.between (CommitLoopPc.isBetween_of_isWaiting hpc))
      (CommitLoopPc.isBetween_of_isWaiting hpc')
  case drained hpc _ hpc' =>
    exact .of_isBetween (h.between (by rw [hpc]; rfl)) (CommitLoopPc.isBetween_of_isWaiting hpc')
  case take hpc hr hx _ ht =>
    exact .startReward (h.between (by rw [hpc]; rfl)) (hresults _ _ _ hr hx) ht
  case nonceMatch hpc hb _ ht =>
    rw [hpc] at hleaves htaken
    exact .startReward (hleaves.of_reads (.inr (B.reads_basicStep hb))) htaken ht
  case reward previous x amount pc backing pc' hpc hb =>
    obtain ⟨hreward, hlooking⟩ := h.looking _ _ _ _ hpc
    rw [hpc] at hleaves
    refine ⟨hleaves.of_reads (.inr (B.reads_basicStep hb)), fun _ _ _ _ heq => ?_⟩
    cases heq
    exact ⟨hreward, hlooking.step hleaves.applies hb⟩
  case rewarded previous x amount pc backing info hpc hb =>
    obtain ⟨hreward, hlooking⟩ := h.looking _ _ _ _ hpc
    rw [hpc] at hleaves htaken
    exact .startApply (hleaves.of_reads (.inr (B.reads_basicStep hb)))
      (.rewarded htaken hreward ⟨_, _, _, hlooking, hleaves.applies, hb⟩)
  case apply hpc hstep =>
    rw [hpc] at hleaves
    exact ⟨⟨hleaves.produced, hleaves.applies.step hstep⟩, fun _ _ _ _ heq => (by cases heq)⟩
  case applied hpc hstep =>
    rw [hpc] at hleaves
    exact .of_isBetween ⟨hleaves.produced, hleaves.applies.step hstep⟩ rfl
  case nonce hpc hb | nonceError hpc hb | nonceMismatch hpc hb _ =>
    exact .of_isBetween ((h.between (by rw [hpc]; rfl)).of_reads (.inr (B.reads_basicStep hb))) rfl
  case rewardError hpc hb =>
    rw [hpc] at hleaves
    exact .of_isBetween (hleaves.of_reads (.inr (B.reads_basicStep hb))) rfl
  all_goals exact .of_isBetween (h.between (by simp [*, CommitLoopPc.isBetween])) rfl

end

/-! ## The replay extends its prefix -/

section

variable {blk : Block Err R}

/-- The commit loop ends after an abort or with the block. -/
structure CommitEnd (blk : Block Err R) (σ : SchedulerState W R B) : Prop where
  flagged : ∀ reason error pc, σ.commit.pc = .aborting reason error pc →
    pc = .wakeFinality ∨ pc = .wakeCommit → σ.shared.abort = true
  ended : ∀ error, σ.commit.pc = .finished error →
    σ.shared.abort = true ∨ blk.size ≤ σ.commit.idx

theorem Shared.abortStep_flag {s s' : Shared W R B} {reason : AbortReason Err} {pc : AbortPc}
    {next : Option AbortPc} (h : s.abortStep reason pc = (s', next)) :
    (s.abort = true → s'.abort = true) ∧ (next = some .wakeFinality → s'.abort = true) ∧
      (next = none → pc = .wakeCommit) := by
  cases pc <;> cases h <;> simp

theorem WorkerStep.abort_mono {s s' : Shared W R B} {w : W} {p p' : WorkerPc R B}
    (hs : WorkerStep blk w s p s' p') (h : s.abort = true) : s'.abort = true := by
  cases hs with
  | exec hs =>
    cases hs
    case errAbort ha | errAborted ha | parallelError ha | parallelErrorEnd ha =>
      exact (Shared.abortStep_flag ha).1 h
    case frontierFinish tail _ _ _ _ _ | rewindFinish tail _ _ _ => cases tail <;> exact h
    all_goals exact h
  | val hs =>
    cases hs
    case parallelError ha | parallelErrorEnd ha => exact (Shared.abortStep_flag ha).1 h
    all_goals exact h
  | _ => exact h

theorem startReward_pc_eq {t t' : CommitThread R B} {previous : Nat} {x : SpeculativeResult R}
    (h : startReward blk t previous x = some t') :
    (∃ amount pc, t'.pc = .reward previous x amount pc) ∨
      ∃ pc, t'.pc = .applying previous x.result pc := by
  unfold startReward at h
  split at h
  · split at h <;> cases h
    exact .inl ⟨_, _, rfl⟩
  · cases h
    exact .inr ⟨_, rfl⟩

/-- The commit loop is on its way out. -/
def CommitLoopPc.isEnding : CommitLoopPc R B → Bool
  | .aborting _ _ _ | .finished _ => true
  | _ => false

theorem CommitEnd.of_not_ending {σ : SchedulerState W R B} (h : σ.commit.pc.isEnding = false) :
    CommitEnd blk σ where
  flagged _ _ _ hpc := by rw [hpc] at h; cases h
  ended _ hpc := by rw [hpc] at h; cases h

/-- An abort begins without the flag. -/
theorem CommitEnd.of_reason {σ : SchedulerState W R B} {reason : AbortReason Err}
    {error : Option (GrevmError Err)} (h : σ.commit.pc = .aborting reason error .reason) :
    CommitEnd blk σ where
  flagged _ _ _ hpc hor := by
    rw [hpc] at h
    cases h
    rcases hor with hor | hor <;> cases hor
  ended _ hpc := by rw [hpc] at h; cases h

theorem CommitEnd.commit {σ : SchedulerState W R B} {s' : Shared W R B} {t' : CommitThread R B}
    (h : CommitEnd blk σ) (hs : CommitStep blk σ.shared σ.commit s' t') :
    CommitEnd blk { σ with shared := s', commit := t' } := by
  have hstart : ∀ {previous : Nat} {x : SpeculativeResult R} {t : CommitThread R B},
      startReward blk t previous x = some t' →
        CommitEnd blk { σ with shared := s', commit := t' } := by
    intro previous x t ht
    rcases startReward_pc_eq ht with ⟨amount, pc, hpc⟩ | ⟨pc, hpc⟩
    · exact .of_not_ending (by simp only [hpc]; rfl)
    · exact .of_not_ending (by simp only [hpc]; rfl)
  cases hs
  case wait pc' _ hw | drained pc' _ _ hw =>
    cases pc' <;> first | exact .of_not_ending rfl | cases hw
  case leave hpc hend => exact ⟨fun _ _ _ hq => (by cases hq), fun _ _ => hend⟩
  case take ht | nonceMatch ht => exact hstart ht
  case abort reason error pc pc' _ _ _ _ hpc ha =>
    refine ⟨fun r e q hq hor => ?_, fun _ hq => (by cases hq)⟩
    cases hq
    rcases hor with rfl | rfl
    · exact (Shared.abortStep_flag ha).2.1 rfl
    · cases pc <;> cases ha
      exact h.flagged _ _ _ hpc (.inl rfl)
  case aborted reason error pc _ _ _ _ hpc ha =>
    obtain ⟨hmono, -, hlast⟩ := Shared.abortStep_flag ha
    exact ⟨fun _ _ _ hq => (by cases hq),
      fun _ _ => .inl (hmono (h.flagged _ _ _ hpc (.inr (hlast rfl))))⟩
  case takeFailed | nonceError | nonceMismatch | rewardError => exact .of_reason rfl
  all_goals exact .of_not_ending rfl

theorem commitEnd_of_reach [DecidableEq W] {σ : SchedulerState W R B} {backing : B.State}
    {ok : SchedulerState W R B → Action W → Prop} (h : ReachableWhen blk backing ok σ) :
    CommitEnd blk σ := by
  refine Runs.Reach.invariant h (.of_not_ending rfl) fun σ a σ' _ ih _ hs => ?_
  rcases step_cases hs with ⟨w, shared, pc, hw, rfl⟩ | ⟨shared, t', hf, rfl⟩ | ⟨shared, t', hc, rfl⟩
  · exact ⟨fun r e pc hpc hor => hw.abort_mono (ih.flagged r e pc hpc hor),
      fun e hpc => (ih.ended e hpc).imp_left hw.abort_mono⟩
  · have habort : shared.abort = σ.shared.abort := by cases hf <;> rfl
    exact ⟨fun r e pc hpc hor => habort ▸ ih.flagged r e pc hpc hor,
      fun e hpc => habort ▸ ih.ended e hpc⟩
  · exact ih.commit hc

/-! ## Every exit describes one prefix -/

/-- After the threads have been joined the state is left as it is or the
rest of the block is replayed on it. -/
theorem Block.Leaves.finishParallel {σ : SchedulerState W R B} {start : B.State}
    {error : Option (GrevmError Err)} {report : Report R B}
    (h : blk.Leaves start σ.commit.applied none σ.shared.backing)
    (hr : finishParallel blk σ error = some report) :
    blk.Leaves start report.applied none report.state := by
  unfold Grevm.finishParallel at hr
  dsimp only at hr
  split at hr
  · cases hr
  · cases error with
    | some error =>
      cases hr
      exact h
    | none =>
      simp only [postExecute] at hr
      split at hr
      · split at hr
        · split at hr
          · cases hr
            exact h
          · exact h.replayUncommittedSuffix hr
        · cases hr
          exact h
        all_goals exact h.replayUncommittedSuffix hr
      · cases hr
        exact h

end

end Grevm
