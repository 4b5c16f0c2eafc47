/-
Grevm.Scheduler.ErrorAgreement — errors of the parallel execution.

`parallel_execute` returns an error when a worker has failed at the
committed cursor, when the ordered commit cannot read an account, or when
the replay of the rest of the block ends in one. Each of them is compared
with the execution of the block from its start by `fallback_sequential`:
`HeadInv` gives the error of a worker, `CommitErrors` that of the ordered
commit together with the nonces it has checked, and `Replay` that of the
replay. They agree as long as no execution of a transaction is under way
when the cursor reaches it (`fatal_errors_are_sequential`). Otherwise an
execution that has read the state before its predecessor ends the block
with an error that the sequential execution does not have
(`stale_error_ends_the_block`).
-/
import Grevm.Scheduler.HeadErrors
import Grevm.Scheduler.Replay

namespace Grevm

variable {Err W R : Type} {B : Backing Err}

/-! ## The committed accounts -/

section

variable {blk : Block Err R} {base : Base Err} {codeOf : B256 → Bytecode}
  {results results' : List (SpeculativeResult R)} {p : Address → Plain Err}
  {t : CommitThread R B}

/-- What is applied leaves the accounts of the sequential execution, after
every prefix. -/
theorem SerialCommits.alike_take (h : SerialCommits blk codeOf base results t) {n : Nat}
    (hn : n ≤ t.applied.length)
    (hseq : blk.sequential codeOf base.plain n = some (results', p)) :
    Plain.Alike codeOf (committedPlain base (t.applied.take n)) p := by
  induction n generalizing results' p with
  | zero =>
    cases hseq
    exact .refl _
  | succ n ih =>
    obtain ⟨results₀, p₀, result, hprev, hrun, -, rfl⟩ := Block.sequential_succ_iff.mp hseq
    have hlook : t.applied[n]? = some t.applied[n] := List.getElem?_eq_getElem hn
    have htxid := h.txids n _ hlook
    obtain ⟨results₁, p₁, result₁, account, hseq₁, hrun₁, -, haccount, hstate⟩ :=
      h.applied _ (List.getElem_mem hn)
    rw [htxid, hprev] at hseq₁
    cases hseq₁
    rw [htxid, hrun] at hrun₁
    cases hrun₁
    rw [List.take_succ_eq_append_getElem hn, committedPlain, List.map_append, List.map_singleton,
      Plain.overlay_append, hstate]
    exact (ih (Nat.le_of_succ_le hn) hprev).settled result haccount

theorem SerialCommits.alike (h : SerialCommits blk codeOf base results t)
    (hseq : blk.sequential codeOf base.plain t.applied.length = some (results', p)) :
    Plain.Alike codeOf (committedPlain base t.applied) p := by
  have halike := h.alike_take (Nat.le_refl _) hseq
  rwa [List.take_length] at halike

/-- The account of the beneficiary has been read at the start of the
block. -/
theorem basic_committedPlain (base : Base Err) (applied : List (Applied R)) :
    ∃ info, (committedPlain base applied base.beneficiary).basic = .ok info := by
  unfold committedPlain
  have hoverlay : ∀ (states : List EvmState) (q : Address → Plain Err),
      (∃ info, (q base.beneficiary).basic = .ok info) →
      ∃ info, (Plain.overlay q states base.beneficiary).basic = .ok info := by
    intro states
    induction states with
    | nil => exact fun q hq => hq
    | cons state states ih =>
      intro q hq
      refine ih (Plain.applyState q state) ?_
      unfold Plain.applyState
      cases state.lookup base.beneficiary with
      | none => exact hq
      | some account =>
        simp only [Plain.apply]
        cases FinalizedAccount.ofAccount account with
        | unchanged => exact hq
        | _ => exact ⟨_, rfl⟩
  exact hoverlay _ _ ⟨base.anchor, if_pos rfl⟩

end

/-! ## The ordered commit -/

/-- The account the ordered commit is reading. -/
def CommitThread.reading (blk : Block Err R) (t : CommitThread R B) :
    Option (Address × B.BasicPc) :=
  match t.pc with
  | .nonce _ _ pc => some (blk.caller t.idx, pc)
  | .reward _ _ _ pc => some (blk.beneficiary, pc)
  | _ => none

/-- The ordered commit finds the accounts it has committed, or the error
of the database. -/
def CommitsRead (blk : Block Err R) (base : Base Err) (σ : SchedulerState W R B) (a : Action W) :
    Prop :=
  ∀ address pc backing found, a.thread = .commit → σ.commit.reading blk = some (address, pc) →
    B.basicStep σ.shared.backing pc = (backing, .inr found) →
    found.map (Option.map AccountInfo.bare) =
      (committedPlain base σ.commit.applied address).basic.map (Option.map AccountInfo.bare)

/-- The nonce of the current transaction has been checked. -/
def CommitLoopPc.checked : CommitLoopPc R B → Nat
  | .reward _ _ _ _ | .applying _ _ _ | .publish _ | .release _ => 1
  | _ => 0

/-- The error the commit loop ends with. -/
def CommitLoopPc.error : CommitLoopPc R B → Option (GrevmError Err)
  | .aborting _ error _ | .finished error => error
  | _ => none

/-- The nonces of the committed transactions are valid, and an error of
the commit loop is that of a caller the sequential execution cannot load
either. -/
structure CommitErrors (blk : Block Err R) (codeOf : B256 → Bytecode) (base : Base Err)
    (t : CommitThread R B) : Prop where
  nonces : ∀ u results p, u < t.idx + t.pc.checked →
    blk.sequential codeOf base.plain u = some (results, p) → blk.NonceOk p u
  failed : ∀ e, t.pc.error = some e → e.txid < blk.size ∧
    ∃ results p err, blk.sequential codeOf base.plain e.txid = some (results, p) ∧
      (p (blk.caller e.txid)).basic = .error err

section

variable {blk : Block Err R} {base : Base Err} {codeOf : B256 → Bytecode}
  {σ : SchedulerState W R B} {s' : Shared W R B} {t t' : CommitThread R B}

/-- A step that checks no nonce and meets no error. -/
theorem CommitErrors.move (h : CommitErrors blk codeOf base t)
    (hidx : t'.idx + t'.pc.checked ≤ t.idx + t.pc.checked) (herror : t'.pc.error = none) :
    CommitErrors blk codeOf base t' where
  nonces u results p hu := h.nonces u results p (by omega)
  failed e he := by
    rw [herror] at he
    cases he

/-- The nonce of the next transaction is valid. -/
theorem CommitErrors.startReward (h : CommitErrors blk codeOf base t) {previous : Nat}
    {x : SpeculativeResult R} (hchecked : t.pc.checked = 0)
    (hnonce : ∀ results p, blk.sequential codeOf base.plain t.idx = some (results, p) →
      blk.NonceOk p t.idx)
    (hstart : Grevm.startReward blk t previous x = some t') :
    CommitErrors blk codeOf base t' := by
  have hnew : t'.idx = t.idx ∧ t'.pc.checked = 1 ∧ t'.pc.error = none := by
    rcases startReward_cases hstart with ⟨amount, -, rfl⟩ | ⟨-, rfl⟩
    · exact ⟨rfl, rfl, rfl⟩
    · exact ⟨rfl, rfl, rfl⟩
  obtain ⟨hidx, hnew, herror⟩ := hnew
  refine ⟨fun u results p hu hseq => ?_, fun e he => ?_⟩
  · rw [hidx, hnew] at hu
    rcases Nat.lt_succ_iff_lt_or_eq.mp hu with hlt | rfl
    · exact h.nonces u results p (by omega) hseq
    · exact hnonce results p hseq
  · rw [herror] at he
    cases he

theorem CommitLoopPc.checked_of_isWaiting {pc : CommitLoopPc R B} (h : pc.isWaiting = true) :
    pc.checked = 0 ∧ pc.error = none := by
  cases pc <;> first | exact ⟨rfl, rfl⟩ | cases h

theorem nonceMatches_congr {nonce : BitVec 64} {info info' : Option AccountInfo}
    (h : info.map AccountInfo.nonce = info'.map AccountInfo.nonce) :
    nonceMatches nonce info = nonceMatches nonce info' := by
  simp only [nonceMatches, h]

/-- What a read that agrees with the account has found. -/
theorem Plain.account_of_read {q : Plain Err} {info : Option AccountInfo}
    (h : (Except.ok info : Except Err _).map (Option.map AccountInfo.bare) =
      q.basic.map (Option.map AccountInfo.bare)) :
    info.map AccountInfo.bare = q.account.map AccountInfo.bare := by
  unfold Plain.account
  cases hq : q.basic with
  | error e =>
    rw [hq] at h
    cases h
  | ok info' =>
    rw [hq] at h
    exact Except.ok.inj h

theorem Plain.error_of_read {q : Plain Err} {e : Err}
    (h : (Except.error e : Except Err _).map (Option.map AccountInfo.bare) =
      q.basic.map (Option.map AccountInfo.bare)) : q.basic = .error e := by
  cases hq : q.basic with
  | error e' =>
    rw [hq] at h
    exact congrArg Except.error (Except.error.inj h).symm
  | ok info =>
    rw [hq] at h
    cases h

theorem CommitErrors.commit {a : Action W} (h : CommitErrors blk codeOf base σ.commit)
    (hcore : Core σ) (hinv : CommitInv blk σ) (hserial : Serial blk codeOf base σ)
    (hstart : base.StartOf blk) (ha : a.thread = .commit) (hreads : CommitsRead blk base σ a)
    (hstep : CommitStep blk σ.shared σ.commit s' t') : CommitErrors blk codeOf base t' := by
  obtain ⟨results, p, hpre, hcommits⟩ := hserial
  -- before its change set is passed on, the accounts are those before the transaction
  have hcurrent : ∀ {results' p'}, σ.commit.pc.passed = 0 →
      blk.sequential codeOf base.plain σ.commit.idx = some (results', p') →
      Plain.Alike codeOf (committedPlain base σ.commit.applied) p' := by
    intro results' p' hpassed hseq
    have hlen : σ.commit.applied.length = σ.commit.idx := by
      rw [hcommits.length, hpassed, Nat.add_zero]
    exact hcommits.alike (hlen ▸ hseq)
  cases hstep with
  | wait hpc hpc' =>
    obtain ⟨hchecked, -⟩ := CommitLoopPc.checked_of_isWaiting hpc
    obtain ⟨hchecked', herror⟩ := CommitLoopPc.checked_of_isWaiting hpc'
    exact h.move (by simp only [hchecked, hchecked', Nat.le_refl]) herror
  | drained hpc _ hpc' =>
    obtain ⟨hchecked', herror⟩ := CommitLoopPc.checked_of_isWaiting hpc'
    exact h.move (by rw [hpc, hchecked']; exact Nat.le_refl _) herror
  | take hpc hr hx hn ht =>
    exact h.startReward (by rw [hpc]; rfl) (fun _ _ _ => .inl hn) ht
  | @nonceMatch previous x pc backing info t' hpc hb hn ht =>
    refine h.startReward (by rw [hpc]; rfl) (fun results' p' hseq => .inr ?_) ht
    have hread := Plain.account_of_read (hreads _ _ _ _ ha (by rw [CommitThread.reading, hpc]) hb)
    have hnonce := (AccountInfo.nonce_of_bare hread).trans
      ((hcurrent (by rw [hpc]; rfl) hseq).nonce (blk.caller σ.commit.idx))
    rw [← nonceMatches_congr hnonce]
    exact hn
  | @nonceError previous x pc backing e hpc hb =>
    have hread := Plain.error_of_read (hreads _ _ _ _ ha (by rw [CommitThread.reading, hpc]) hb)
    have hlt : σ.commit.idx < σ.finality.idx := by
      have hinner := hinv.inner_le hcore
      rw [hpc] at hinner
      exact hinner
    obtain ⟨results', p', hseq⟩ := Block.sequential_of_le hpre.sequential (Nat.le_of_lt hlt)
    refine ⟨fun u results p hu => h.nonces u results p (by rw [hpc]; exact hu),
      fun error herror => ?_⟩
    cases herror
    exact ⟨Nat.lt_of_lt_of_le hlt hinv.size, results', p', e, hseq,
      (hcurrent (by rw [hpc]; rfl) hseq).basic_error hread⟩
  | @rewardError previous x amount pc backing e hpc hb =>
    have hread := Plain.error_of_read (hreads _ _ _ _ ha (by rw [CommitThread.reading, hpc]) hb)
    obtain ⟨info, hinfo⟩ := basic_committedPlain base σ.commit.applied
    rw [hstart.beneficiary, hread] at hinfo
    cases hinfo
  | release hpc =>
    have hout := hinv.output
    rw [hpc] at hout
    refine h.move ?_ rfl
    rw [hpc]
    exact Nat.le_of_eq hout
  | abort hpc | aborted hpc =>
    refine ⟨fun u results p hu => h.nonces u results p (by rw [hpc]; exact hu), fun e he => ?_⟩
    exact h.failed e (by rw [hpc]; exact he)
  | leave hpc | enter hpc | ready hpc | takeFailed hpc | takeNonce hpc | nonce hpc
  | nonceMismatch hpc | reward hpc | rewarded hpc | apply hpc | applied hpc | publish hpc =>
    exact h.move (by rw [hpc]; exact Nat.le_refl _) rfl

/-- Reads are fixed and stable, the ordered commit finds what it has
committed, and no execution of a transaction is under way when the cursor
reaches it. -/
structure HeadReads (blk : Block Err R) (base : Base Err) (σ : SchedulerState W R B)
    (a : Action W) : Prop where
  fixed : FixedReads base σ a
  stable : StableReads blk σ a
  commits : CommitsRead blk base σ a
  head : HeadStarts σ a

/-- The ordered commit finds the beneficiary account in particular. -/
theorem CommitsRead.committedReads {a : Action W} (h : CommitsRead blk base σ a) :
    CommittedReads blk base σ a :=
  fun _ _ _ _ _ _ ha hpc hb =>
    Plain.account_of_read (h _ _ _ _ ha (by rw [CommitThread.reading, hpc]) hb)

theorem HeadReads.served {a : Action W} (h : HeadReads blk base σ a)
    (hbook : base.CodeBook codeOf) : ServedReads blk codeOf base base σ a :=
  ⟨accessesOk_of_fixedReads hbook h.fixed h.stable, h.commits.committedReads⟩

theorem commitErrors_initial (backing : B.State) :
    CommitErrors blk codeOf base (initial backing : SchedulerState W R B).commit where
  nonces u _ _ hu := absurd hu (Nat.not_lt_zero u)
  failed _ he := by cases he

theorem commitErrors_of_reach [DecidableEq W] {backing : B.State} (hstart : base.StartOf blk)
    (hbook : base.CodeBook codeOf) (hfinalizes : ∀ t, (blk.spec t).Finalizes codeOf)
    (hprop : ∀ t, (blk.spec t).Propagates base)
    (h : ReachableWhen blk backing (HeadReads blk base) σ) :
    CommitErrors blk codeOf base σ.commit := by
  refine Runs.Reach.invariant (I := fun σ => CommitErrors blk codeOf base σ.commit) h
    (commitErrors_initial backing) fun σ a σ' hr ih hok hs => ?_
  rcases step_threads hs with ⟨w, shared, pc, -, hw, rfl⟩ | ⟨shared, t', hf, rfl⟩ |
    ⟨shared, t', ha, hc, rfl⟩
  · exact ih
  · exact ih
  · have hserial := serial_of_reach hstart hbook hfinalizes hprop 
      (hr.mono fun _ _ h => h.served hbook)
    exact ih.commit (core_of_reach hr) (commitInv_of_reach hr) hserial.2 hstart ha hok.commits hc

end

/-! ## Errors of the parallel execution -/

/-- `parallel_execute` in runs whose steps satisfy `ok` and that leave a
state which satisfies `joined`. -/
inductive ParallelExecuteWhen (W : Type) [DecidableEq W] (config : GrevmConfig)
    (blk : Block Err R) (s : B.State) (ok : SchedulerState W R B → Action W → Prop)
    (joined : SchedulerState W R B → Prop) : Report R B → Prop where
  | sequential {report : Report R B}
      (hcfg : config.forceSequential = true ∨ blk.size < config.minParallelTxs)
      (h : replayUncommittedSuffix blk 0 [] [] s = some report) :
      ParallelExecuteWhen W config blk s ok joined report
  | preloadFailed {s' : B.State} {e : Err}
      (hcfg : config.forceSequential = false ∧ config.minParallelTxs ≤ blk.size)
      (h : B.basicNow s blk.beneficiary = (s', .error e)) :
      ParallelExecuteWhen W config blk s ok joined
        { result := .error ⟨0, .database e⟩, outcomes := [], applied := [], state := s' }
  | parallel {s' : B.State} {σ : SchedulerState W R B} {error : Option (GrevmError Err)}
      {report : Report R B}
      (hcfg : config.forceSequential = false ∧ config.minParallelTxs ≤ blk.size)
      (hanchor : B.basicNow s blk.beneficiary = (s', .ok blk.anchor))
      (hrun : ReachableWhen blk s' ok σ) (hworkers : ∀ w, σ.workers w = .finished)
      (hfinality : σ.finality.pc = .finished) (hcommit : σ.commit.pc = .finished error)
      (hjoined : joined σ) (h : finishParallel blk σ error = some report) :
      ParallelExecuteWhen W config blk s ok joined report

theorem ParallelExecuteWhen.parallelExecute [DecidableEq W] {config : GrevmConfig}
    {blk : Block Err R} {s : B.State} {ok : SchedulerState W R B → Action W → Prop}
    {joined : SchedulerState W R B → Prop} {report : Report R B}
    (h : ParallelExecuteWhen W config blk s ok joined report) :
    ParallelExecute W config blk s report := by
  cases h with
  | sequential hcfg h => exact .sequential hcfg h
  | preloadFailed hcfg h => exact .preloadFailed hcfg h
  | parallel hcfg hanchor hrun hworkers hfinality hcommit _ h =>
    exact .parallel hcfg hanchor hrun.free hworkers hfinality hcommit h

section

variable [DecidableEq W] {blk : Block Err R} {base : Base Err} {codeOf : B256 → Bytecode}
  {σ : SchedulerState W R B} {s : B.State} {Stands : B.State → (Address → Plain Err) → Prop}
  {report : Report R B}

/-- The replay of the rest of the block. -/
theorem replayUncommittedSuffix_stops (h : blk.ReplaysOn B codeOf Stands) {n : Nat}
    (outcomes : List (TxExecutionOutcome R)) (applied : List (Applied R))
    {p : Address → Plain Err} (hs : Stands s p) (hlen : outcomes.length = n) (hn : n ≤ blk.size) :
    ∃ report, replayUncommittedSuffix blk n outcomes applied s = some report ∧
      report.result = Block.replayResult (blk.stops codeOf (blk.size - n) n p) := by
  unfold replayUncommittedSuffix
  rw [if_neg (by omega)]
  split
  · rename_i heq
    subst heq
    rw [Nat.sub_self]
    exact ⟨_, rfl, rfl⟩
  · obtain ⟨replay, hreplay, hresult⟩ :=
      executeSequentialSuffix_stops h (blk.size - n) n hs
    rw [hreplay]
    exact ⟨_, rfl, hresult⟩

/-- The sequential execution of the block ends at the transaction an
error of the parallel execution names. -/
theorem stops_of_parallel {backing : B.State} {error : Option (GrevmError Err)}
    (hstart : base.StartOf blk) (hbook : base.CodeBook codeOf)
    (hfinalizes : ∀ t, (blk.spec t).Finalizes codeOf) (hprop : ∀ t, (blk.spec t).Propagates base)
    (hreplays : blk.Replays codeOf base.plain) (hon : blk.ReplaysOn B codeOf Stands)
    (hrun : ReachableWhen blk backing (HeadReads blk base) σ)
    (hcommit : σ.commit.pc = .finished error)
    (hjoined : Stands σ.shared.backing (committedPlain base σ.commit.applied))
    (h : finishParallel blk σ error = some report) {e : GrevmError Err}
    (herror : report.result = .error e) :
    ∃ e', blk.stops codeOf blk.size 0 base.plain = some e' ∧ e'.txid = e.txid := by
  have hcore := core_of_reach hrun
  have hinv := commitInv_of_reach hrun
  have hserial := (serial_of_reach hstart hbook hfinalizes hprop
    (hrun.mono fun _ _ h => h.served hbook)).2
  have hhead := headInv_of_reach hstart (fun _ _ h => h.fixed) (fun _ _ h => h.head) hrun
  have herrors := commitErrors_of_reach hstart hbook hfinalizes hprop hrun
  have hlen : σ.commit.output.length = σ.commit.idx := by
    simpa [hcommit, CommitLoopPc.pushed] using hinv.output
  have hcommitted : σ.shared.ctx.committed = σ.commit.idx := by
    simpa [hcommit, CommitLoopPc.published] using hinv.committed
  have hnonces : ∀ n, n ≤ σ.commit.idx → ∀ t results p, t < n →
      blk.sequential codeOf base.plain t = some (results, p) → blk.NonceOk p t :=
    fun n hn t results p ht => herrors.nonces t results p (by omega)
  have hle : σ.commit.idx ≤ σ.finality.idx := hcommitted ▸ hinv.committed_le hcore
  -- the rest of the block is replayed
  have hreplay : replayUncommittedSuffix blk σ.commit.output.length σ.commit.output
      σ.commit.applied σ.shared.backing = some report →
      ∃ e', blk.stops codeOf blk.size 0 base.plain = some e' ∧ e'.txid = e.txid := by
    intro hreport
    obtain ⟨results, p, hpre, hcommits⟩ := hserial
    obtain ⟨results', p', hseq⟩ := Block.sequential_of_le hpre.sequential hle
    have hsize : σ.commit.idx ≤ blk.size := Nat.le_trans hle hinv.size
    have happlied : σ.commit.applied.length = σ.commit.idx := by
      rw [hcommits.length, hcommit]
      rfl
    obtain ⟨report', hreport', hresult⟩ := replayUncommittedSuffix_stops hon σ.commit.output
      σ.commit.applied hjoined hlen hsize
    rw [hlen, hreport'] at hreport
    cases hreport
    rw [Block.stops_congr (hcommits.alike (happlied ▸ hseq)),
      ← hreplays.stops hsize hseq (hnonces _ (Nat.le_refl _)), herror] at hresult
    cases hstops : blk.stops codeOf blk.size 0 base.plain with
    | none =>
      rw [hstops] at hresult
      cases hresult
    | some e' =>
      rw [hstops] at hresult
      cases hresult
      exact ⟨e, rfl, rfl⟩
  unfold finishParallel at h
  dsimp only at h
  split at h
  · cases h
  cases error with
  | some error =>
    cases h
    cases herror
    obtain ⟨hlt, results, p, err, hseq, hbasic⟩ := herrors.failed e (by rw [hcommit]; rfl)
    obtain ⟨error', hrun', hfatal⟩ := hreplays.loaded hseq hbasic
    refine ⟨_, hreplays.stops_of_fatal hlt hseq (hnonces _ ?_) hrun' hfatal, rfl⟩
    exact Nat.le_of_eq (hinv.failed e hcommit)
  | none =>
    unfold postExecute at h
    dsimp only at h
    split at h
    · split at h
      · rename_i t hreason
        split at h
        · rename_i error hresult
          cases h
          cases herror
          obtain ⟨r, hr, he⟩ := Option.map_eq_some_iff.mp hresult
          obtain ⟨hhere, hlt, hkind, results, p, hseq, hspec⟩ :=
            hhead.sequential hcore hinv hserial hreason hr he
          obtain ⟨error', hrun', hfatal⟩ := hreplays.failed hseq hspec hkind
          exact ⟨_, hreplays.stops_of_fatal hlt hseq (hnonces _ (by omega)) hrun' hfatal, rfl⟩
        · exact hreplay h
      · rename_i reason hreason
        obtain ⟨-, hended⟩ := hinv.reason _ hreason
        rcases hended with ⟨_, _, hpc⟩ | hpc <;> rw [hcommit] at hpc <;> cases hpc
      · exact hreplay h
      · exact hreplay h
      · exact hreplay h
    · cases h
      cases herror

end

/-! ## A block whose last transaction fails -/

/-- The first transaction loads the contract and changes nothing, the
others find it frozen. -/
def frozenProgram : Nat → Prog Unit U256
  | 0 => .read (.basic 1) (Prog.onOk fun _ => .done (.ok ⟨0, ∅, none⟩))
  | _ => .read (.basic 1) (Prog.onOk fun _ => .done (.error (.custom "frozen")))

def Block.frozen : Block Unit U256 where
  size := 2
  beneficiary := 9
  anchor := none
  spec := frozenProgram
  immediate := frozenProgram
  caller _ := 1
  nonce _ := 1
  disableNonceCheck := true

theorem run_frozenProgram {t : Nat} {answer : Call → Except Unit Value}
    {result : SpeculativeResult U256} (h : (frozenProgram t).run answer = .ok result) :
    result = ⟨0, ∅, none⟩ := by
  rcases t with _ | t
  · obtain ⟨_, hdone⟩ := Prog.run_of_onOk h
    exact (Except.ok.inj hdone).symm
  · obtain ⟨_, hdone⟩ := Prog.run_of_onOk h
    cases hdone

theorem frozen_finalizes (t : Nat) : (Block.frozen.spec t).Finalizes contractCode := by
  refine Prog.finalizes_of_carried fun answer result address account info hrun hlook _ => ?_
  rw [run_frozenProgram hrun] at hlook
  cases hlook

theorem frozen_propagates (t : Nat) : (Block.frozen.spec t).Propagates Base.contract := by
  rcases t with _ | t
  · exact Prog.propagates_onOk fun _ => trivial
  · exact Prog.propagates_onOk fun _ => trivial

theorem frozen_replays : Block.frozen.Replays contractCode Base.contract.plain where
  executed _ _ hrun := by
    refine ⟨_, hrun, ?_⟩
    rw [run_frozenProgram hrun]
    exact .refl _
  failed _ hrun hfatal := ⟨_, hrun, hfatal⟩
  loaded := by
    intro t results p e _ he
    have hanswer : Plain.answer contractCode p (.basic 1) = .error e := by
      have he : (p 1).basic = .error e := he
      rw [Plain.answer, he]
      rfl
    refine ⟨.database e, ?_, rfl⟩
    show (frozenProgram t).run (Plain.answer contractCode p) = _
    rcases t with _ | t <;> simp only [frozenProgram, Prog.run, hanswer, Prog.onOk]

theorem contract_plain (address : Address) :
    (Base.contract.plain address).basic = Base.contract.basic address := by
  unfold Base.plain
  dsimp only
  split
  · rename_i hb
    subst hb
    rfl
  · rfl

/-- The accounts of the block are those of the base throughout. -/
theorem frozen_replaysOn : Block.frozen.ReplaysOn Base.contract.backing contractCode
    fun _ p => p = Base.contract.plain where
  read := by
    rintro s p rfl call
    refine ⟨?_, rfl⟩
    cases call with
    | basic address =>
      rw [Plain.answer, contract_plain]
      by_cases h1 : address = 1
      · subst h1
        rfl
      · simp only [Backing.readNow, Base.backing, Base.contract, if_neg h1]
        rfl
    | storage address index => rfl
  basic := by
    rintro s p rfl address
    rw [contract_plain]
    exact ⟨rfl, rfl⟩
  commit := by
    rintro s s' p t result rfl hrun -
    refine ⟨(), rfl, ?_⟩
    rcases t with _ | t
    · cases hrun
      rfl
    · cases hrun

/-! ## Checks of a run -/

/-- The ordered commit reads no account, and the one worker is not inside
an execution of the transaction the cursor reaches. -/
def headRead (σ : SchedulerState Unit R B) (a : Action Unit) : Bool :=
  match a.thread, σ.commit.pc with
  | .commit, .nonce _ _ _ | .commit, .reward _ _ _ _ => false
  | .commit, .publish _ =>
    match σ.workers () with
    | .exec v pc => !(v.txid == σ.commit.output.length && pc.undecided)
    | _ => true
  | _, _ => true

theorem headReads_of_checks {blk : Block Err R} {base : Base Err}
    {σ : SchedulerState Unit R base.backing} {a : Action Unit}
    (h : (fixedRead σ a && keptRead blk σ a && headRead σ a) = true) :
    HeadReads blk base σ a := by
  simp only [Bool.and_eq_true] at h
  obtain ⟨⟨hfixed, hkept⟩, hhead⟩ := h
  refine ⟨fixedReads_of_fixedRead hfixed, stableReads_of_keptRead hkept,
    fun address pc backing found ha hreading => ?_, fun previous w v pc ha hpc hw hv => ?_⟩
  · unfold CommitThread.reading at hreading
    split at hreading
    · rename_i hpc
      simp only [headRead, ha, hpc] at hhead
      cases hhead
    · rename_i hpc
      simp only [headRead, ha, hpc] at hhead
      cases hhead
    · cases hreading
  · cases w
    simp only [headRead, ha, hpc, hw, hv, beq_self_eq_true, Bool.true_and,
      Bool.not_eq_true'] at hhead
    exact hhead

/-! ## The errors agree -/

section

variable [DecidableEq W] {blk : Block Err R} {base : Base Err} {codeOf : B256 → Bytecode}
  {s : B.State} {Stands : B.State → (Address → Plain Err) → Prop} {report : Report R B}

/-- **An error of the parallel execution is one of the block.** When
`parallel_execute` returns an error at `txid`, the execution of the block
by `fallback_sequential` from the same state ends with a fatal error at
`txid` too; when the latter succeeds, so does the former. -/
theorem fatal_errors_are_sequential {config : GrevmConfig} (hstart : base.StartOf blk)
    (hbook : base.CodeBook codeOf) (hfinalizes : ∀ t, (blk.spec t).Finalizes codeOf)
    (hprop : ∀ t, (blk.spec t).Propagates base) (hreplays : blk.Replays codeOf base.plain)
    (hon : blk.ReplaysOn B codeOf Stands) (hs : Stands s base.plain)
    (hload : (B.basicNow s blk.beneficiary).2 = .ok blk.anchor)
    (h : ParallelExecuteWhen W config blk s (HeadReads blk base)
      (fun σ => Stands σ.shared.backing (committedPlain base σ.commit.applied)) report) :
    (∀ e, report.result = .error e → ∃ sequential error, FallbackSequential blk s sequential ∧
      sequential.result = .error ⟨e.txid, error⟩ ∧ error.isTransaction = false) ∧
    ∀ sequential, FallbackSequential blk s sequential → sequential.result = .ok () →
      report.result = .ok () := by
  obtain ⟨whole, hwhole, hresult⟩ := replayUncommittedSuffix_stops hon [] [] hs
    List.length_nil (Nat.zero_le blk.size)
  have hstops : ∀ e, report.result = .error e →
      ∃ e', blk.stops codeOf blk.size 0 base.plain = some e' ∧ e'.txid = e.txid := by
    intro e herror
    cases h with
    | sequential hcfg h =>
      rw [hwhole] at h
      cases h
      rw [hresult] at herror
      cases hstops : blk.stops codeOf blk.size 0 base.plain with
      | none =>
        rw [Nat.sub_zero, hstops] at herror
        cases herror
      | some e' =>
        rw [Nat.sub_zero, hstops] at herror
        cases herror
        exact ⟨e, rfl, rfl⟩
    | preloadFailed hcfg h =>
      rw [h] at hload
      cases hload
    | parallel hcfg hanchor hrun hworkers hfinality hcommit hjoined h =>
      exact stops_of_parallel hstart hbook hfinalizes hprop hreplays hon hrun hcommit hjoined h
        herror
  have hfails : ∀ e, report.result = .error e → ∃ error,
      whole.result = .error ⟨e.txid, error⟩ ∧ error.isTransaction = false := by
    intro e herror
    obtain ⟨e', hstop, htxid⟩ := hstops e herror
    have hfatal := Block.fatal_of_stops hstop
    rw [Nat.sub_zero, hstop] at hresult
    refine ⟨e'.error, ?_, hfatal⟩
    rw [hresult, ← htxid]
    rfl
  refine ⟨fun e herror => ?_, fun sequential hseq hok => ?_⟩
  · obtain ⟨error, hend, hfatal⟩ := hfails e herror
    exact ⟨whole, error, hwhole, hend, hfatal⟩
  · cases hreport : report.result with
    | ok value => rfl
    | error e =>
      obtain ⟨error, hend, -⟩ := hfails e hreport
      rw [FallbackSequential, hwhole] at hseq
      cases hseq
      rw [hend] at hok
      cases hok

end

/-- One worker: the first transaction is committed, and the second fails
at the cursor. -/
theorem fatal_errors_are_sequential_frozen :
    ∃ (report sequential : Report U256 Base.contract.backing) (error : EVMError Unit),
      ParallelExecute Unit ⟨false, 0⟩ Block.frozen () report ∧
      report.result = .error ⟨1, .custom "frozen"⟩ ∧
      FallbackSequential (B := Base.contract.backing) Block.frozen () sequential ∧
      sequential.result = .error ⟨1, error⟩ ∧ error.isTransaction = false := by
  have hrun : (Runs.exec (Runs.guarded (step Block.frozen) fun σ a =>
      fixedRead σ a && keptRead Block.frozen σ a && headRead σ a)
      (initial () : SchedulerState Unit U256 Base.contract.backing)
      (stepsOf (.worker ()) 80 ++ stepsOf .finality 9 ++
        stepsOf .commit 10 ++ stepsOf (.worker ()) 24 ++
        stepsOf .finality 2 ++ stepsOf .commit 2)).map
      (fun σ => (σ.isJoined [()], σ.commit.applied.map fun a => a.state.entries.length,
        (finishParallel Block.frozen σ none).map Report.result)) =
      some (true, [0], some (.error ⟨1, .custom "frozen"⟩)) := by decide +kernel
  obtain ⟨σ, hexec, hend⟩ := Option.map_eq_some_iff.mp hrun
  simp only [Prod.mk.injEq] at hend
  obtain ⟨hjoined, happlied, hresult⟩ := hend
  obtain ⟨report, hreport, hresult⟩ := Option.map_eq_some_iff.mp hresult
  obtain ⟨hworkers, hfinality, hcommit⟩ := SchedulerState.of_isJoined hjoined (by simp)
  have hreach : ReachableWhen Block.frozen () (HeadReads Block.frozen Base.contract) σ :=
    (Runs.reach_of_exec hexec).of_guarded.mono fun _ _ hcheck => headReads_of_checks hcheck
  have hsame : committedPlain Base.contract σ.commit.applied = Base.contract.plain := by
    obtain ⟨a, ha, hempty⟩ := List.map_eq_singleton_iff.mp happlied
    have hstate : a.state = ∅ := AList.ext (List.length_eq_zero_iff.mp hempty)
    rw [ha, committedPlain, List.map_singleton, hstate]
    rfl
  have hexecute : ParallelExecuteWhen Unit ⟨false, 0⟩ Block.frozen () (HeadReads Block.frozen
      Base.contract) (fun σ => committedPlain Base.contract σ.commit.applied = Base.contract.plain)
      report :=
    .parallel ⟨rfl, Nat.zero_le _⟩ rfl hreach hworkers hfinality hcommit hsame hreport
  obtain ⟨sequential, error, hseq, hfails, hfatal⟩ :=
    (fatal_errors_are_sequential ⟨rfl, rfl⟩ contract_codeBook frozen_finalizes frozen_propagates
      frozen_replays frozen_replaysOn rfl rfl hexecute).1 _ hresult
  exact ⟨report, sequential, error, hexecute.parallelExecute, hresult, hseq, hfails, hfatal⟩

/-- Transaction 0 creates an account, and the others fail without it. -/
def fundedProgram : Nat → Prog Unit Unit
  | 0 => .read (.basic 1) fun
    | .ok _ => .done (.ok ⟨(), AList.singleton 1
        (Account.ofInfo { AccountInfo.empty with nonce := 1 }).markTouch, none⟩)
    | .error e => .done (.error (.database e))
  | _ => .read (.basic 1) fun
    | .ok (.account (some _)) => .done (.ok ⟨(), ∅, none⟩)
    | .ok _ => .done (.error (.custom "unfunded"))
    | .error e => .done (.error (.database e))

def Block.funded : Block Unit Unit where
  size := 2
  beneficiary := 0
  anchor := none
  spec := fundedProgram
  immediate := fundedProgram
  caller _ := 1
  nonce _ := 0
  disableNonceCheck := true

/-- Transaction 1 looks for the account before transaction 0 has published
it. Transaction 0 is then validated, made final and committed, and the
execution of transaction 1 ends: it finds the cursor at its transaction
and aborts the block with an error that is due to its old read. The
sequential execution has no error. -/
theorem stale_error_ends_the_block :
    ∃ report sequential : Report Unit (parallelState Database.absent),
      ParallelExecute (B := parallelState Database.absent) (Fin 2) ⟨false, 0⟩ Block.funded
        ({} : ParallelCacheState) report ∧
      report.result = .error ⟨1, .custom "unfunded"⟩ ∧
      FallbackSequential (B := parallelState Database.absent) Block.funded
        ({} : ParallelCacheState) sequential ∧
      sequential.result = .ok () := by
  have hrun : (Runs.exec (step Block.funded) (initial
      (ParallelCacheState.dbBasic Database.absent {} 0).1 :
        SchedulerState (Fin 2) Unit (parallelState Database.absent))
      (List.replicate 12 { thread := .worker 0 } ++ List.replicate 21 { thread := .worker 1 } ++
        List.replicate 41 { thread := .worker 0 } ++ List.replicate 9 { thread := .finality } ++
        List.replicate 10 { thread := .commit } ++ List.replicate 16 { thread := .worker 1 } ++
        [{ thread := .worker 0 }] ++ List.replicate 2 { thread := .finality } ++
        List.replicate 2 { thread := .commit })).map
      (fun σ => (σ.isJoined [0, 1], (finishParallel Block.funded σ none).map Report.result)) =
      some (true, some (.error ⟨1, .custom "unfunded"⟩)) := by decide +kernel
  obtain ⟨σ, hexec, hend⟩ := Option.map_eq_some_iff.mp hrun
  simp only [Prod.mk.injEq] at hend
  obtain ⟨hjoined, hresult⟩ := hend
  obtain ⟨report, hreport, hresult⟩ := Option.map_eq_some_iff.mp hresult
  obtain ⟨hworkers, hfinality, hcommit⟩ := SchedulerState.of_isJoined hjoined (by decide)
  have hsequential : (replayUncommittedSuffix (B := parallelState Database.absent) Block.funded 0
      [] [] ({} : ParallelCacheState)).map Report.result = some (.ok ()) := by decide +kernel
  obtain ⟨sequential, hseq, hok⟩ := Option.map_eq_some_iff.mp hsequential
  exact ⟨report, sequential, .parallel ⟨rfl, Nat.zero_le _⟩ rfl (Runs.reach_of_exec hexec)
    hworkers hfinality hcommit hreport, hresult, hseq, hok⟩

end Grevm
