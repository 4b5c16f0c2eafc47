/-
Grevm.Scheduler.Agreement — a successful parallel execution is the
sequential one.

`parallel_execute` has committed a prefix of the block from the results of
its workers, and replayed the rest where a nonce did not match or an
assumption of the parallel execution failed. `Block.replay` is the
sequential execution over plain accounts with its outcomes, its error and
the accounts it leaves. Over the committed prefix it has the outcomes of
the workers' programs, since their rewards are settled alike
(`EvmBlock.replay_sequential`), and over the rest it is what the code
executes (`replayUncommittedSuffix_replay`). Two conditions are put on a
run over the `ParallelState` (`UndisturbedReads`): no execution reads a
location again under another version, and no load of a slot races with the
removal of its slot map. That the reads of such a run agree with the
committed prefix, and that the state its threads leave stands for it, is
`Grevm.Scheduler.SharedCache`.
-/
import Grevm.Scheduler.SharedCache
import Grevm.Settlement

namespace Grevm

variable {Err W R : Type} {B : Backing Err}

/-! ## The replay with its outcomes -/

/-- What a sequential execution over plain accounts leaves. -/
structure Replayed (Err R : Type) where
  outcomes : List (TxExecutionOutcome R)
  error : Option (GrevmError Err)
  accounts : Address → Plain Err

/-- The execution after a prefix with the given outcomes. -/
def Replayed.after (outcomes : List (TxExecutionOutcome R)) (replayed : Replayed Err R) :
    Replayed Err R :=
  { replayed with outcomes := outcomes ++ replayed.outcomes }

/-- `execute_sequential_suffix` over plain accounts. -/
def Block.replay (blk : Block Err R) (codeOf : B256 → Bytecode) :
    Nat → Nat → (Address → Plain Err) → Replayed Err R
  | 0, _, p => { outcomes := [], error := none, accounts := p }
  | count + 1, txid, p =>
    match blk.transactOn (Plain.answer codeOf p) txid with
    | .ok result =>
      (blk.replay codeOf count (txid + 1) (Plain.applyState p result.state)).after
        [.executed result.result]
    | .error (.transaction error) =>
      (blk.replay codeOf count (txid + 1) p).after [.skipped error]
    | .error error => { outcomes := [], error := some { txid, error }, accounts := p }

/-- Two executions that cannot be told apart. -/
structure Replayed.Alike (codeOf : B256 → Bytecode) (r r' : Replayed Err R) : Prop where
  outcomes : r.outcomes = r'.outcomes
  error : r.error = r'.error
  accounts : Plain.Alike codeOf r.accounts r'.accounts

/-- A report describes an execution over the accounts its state stands
for. -/
structure Report.Shows (Stands : B.State → (Address → Plain Err) → Prop) (report : Report R B)
    (replayed : Replayed Err R) : Prop where
  result : report.result = Block.replayResult replayed.error
  outcomes : report.outcomes = replayed.outcomes
  state : Stands report.state replayed.accounts

section

variable {blk : Block Err R} {codeOf : B256 → Bytecode} {p q : Address → Plain Err}
  {r r' : Replayed Err R} {Stands : B.State → (Address → Plain Err) → Prop} {s : B.State}

theorem Replayed.Alike.after (h : r.Alike codeOf r') (outcomes : List (TxExecutionOutcome R)) :
    (r.after outcomes).Alike codeOf (r'.after outcomes) :=
  ⟨congrArg (outcomes ++ ·) h.outcomes, h.error, h.accounts⟩

theorem Replayed.after_after (outcomes outcomes' : List (TxExecutionOutcome R)) :
    (r.after outcomes').after outcomes = r.after (outcomes ++ outcomes') := by
  simp [Replayed.after]

/-- Alike accounts are replayed alike. -/
theorem Block.replay_congr (blk : Block Err R) (count txid : Nat) (h : Plain.Alike codeOf p q) :
    (blk.replay codeOf count txid p).Alike codeOf (blk.replay codeOf count txid q) := by
  induction count generalizing txid p q with
  | zero => exact ⟨rfl, rfl, h⟩
  | succ count ih =>
    simp only [replay, h.answer]
    cases blk.transactOn (Plain.answer codeOf q) txid with
    | ok result => exact (ih _ (h.applyState result.state)).after _
    | error error =>
      cases error with
      | transaction error => exact (ih _ h).after _
      | _ => exact ⟨rfl, rfl, h⟩

/-- **The replay on a backing state is the one over the accounts it stands
for.** -/
theorem executeSequentialSuffix_replay (h : blk.ReplaysOn B codeOf Stands) (count t : Nat)
    (hs : Stands s p) :
    ∃ report, executeSequentialSuffix blk count t s = some report ∧
      report.Shows Stands (blk.replay codeOf count t p) := by
  induction count generalizing t s p with
  | zero => exact ⟨_, rfl, rfl, rfl, hs⟩
  | succ count ih =>
    obtain ⟨s', htransact, hs'⟩ := h.transact hs t
    simp only [executeSequentialSuffix, Block.replay, htransact]
    cases hon : blk.transactOn (Plain.answer codeOf p) t with
    | ok result =>
      rw [hon] at hs'
      obtain ⟨report, hreport, hshows⟩ := ih (t + 1) hs'
      simp only [Except.map, hreport, Option.map_some]
      exact ⟨_, rfl, hshows.result, congrArg (_ :: ·) hshows.outcomes, hshows.state⟩
    | error error =>
      rw [hon] at hs'
      cases error with
      | transaction error =>
        obtain ⟨report, hreport, hshows⟩ := ih (t + 1) hs'
        simp only [Except.map, hreport, Option.map_some]
        exact ⟨_, rfl, hshows.result, congrArg (_ :: ·) hshows.outcomes, hshows.state⟩
      | _ => exact ⟨_, rfl, rfl, rfl, hs'⟩

/-- The rest of the block is replayed after the outcomes of its prefix. -/
theorem replayUncommittedSuffix_replay (h : blk.ReplaysOn B codeOf Stands) {n : Nat}
    (outcomes : List (TxExecutionOutcome R)) (applied : List (Applied R)) (hs : Stands s p)
    (hlen : outcomes.length = n) (hn : n ≤ blk.size) :
    ∃ report, replayUncommittedSuffix blk n outcomes applied s = some report ∧
      report.Shows Stands ((blk.replay codeOf (blk.size - n) n p).after outcomes) := by
  unfold replayUncommittedSuffix
  rw [if_neg (by omega)]
  split
  · rename_i heq
    rw [heq, Nat.sub_self]
    exact ⟨_, rfl, rfl, (List.append_nil outcomes).symm, hs⟩
  · obtain ⟨replay, hreplay, hshows⟩ := executeSequentialSuffix_replay h (blk.size - n) n hs
    rw [hreplay]
    exact ⟨_, rfl, hshows.result, congrArg (outcomes ++ ·) hshows.outcomes, hshows.state⟩

end

/-! ## The replay of an executed prefix -/

/-- An account that has been read stays readable. -/
theorem Plain.basic_applyState {p : Address → Plain Err} {address : Address} (state : EvmState)
    (h : ∃ info, (p address).basic = .ok info) :
    ∃ info, (Plain.applyState p state address).basic = .ok info := by
  unfold Plain.applyState
  cases state.lookup address with
  | none => exact h
  | some account =>
    simp only [Plain.apply]
    cases FinalizedAccount.ofAccount account with
    | unchanged => exact h
    | _ => exact ⟨_, rfl⟩

/-- The beneficiary has been read at the start of the block. -/
theorem Block.basic_sequential {blk : Block Err R} {codeOf : B256 → Bytecode}
    {start p : Address → Plain Err} {n : Nat} {results : List (SpeculativeResult R)}
    (hstart : ∃ info, (start blk.beneficiary).basic = .ok info)
    (h : blk.sequential codeOf start n = some (results, p)) :
    ∃ info, (p blk.beneficiary).basic = .ok info := by
  induction n generalizing results p with
  | zero =>
    cases h
    exact hstart
  | succ n ih =>
    obtain ⟨results', p', result, hprev, -, -, rfl⟩ := Block.sequential_succ_iff.mp h
    exact Plain.basic_applyState _ (ih hprev)

/-- The outcome of a result. -/
def SpeculativeResult.outcome (result : SpeculativeResult R) : TxExecutionOutcome R :=
  .executed result.result

/-- **The replay of the block begins with the results of the workers'
programs**, over a prefix whose nonces are valid, and goes on from
accounts that answer as theirs. -/
theorem EvmBlock.replay_sequential (blk : EvmBlock Err R) {codeOf : B256 → Bytecode}
    {start p : Address → Plain Err} {n : Nat} {results : List (SpeculativeResult R)}
    (hn : n ≤ blk.size) (hstart : ∃ info, (start blk.env.beneficiary).basic = .ok info)
    (hseq : blk.block.sequential codeOf start n = some (results, p))
    (hnonces : ∀ t results p, t < n → blk.block.sequential codeOf start t = some (results, p) →
      blk.block.NonceOk p t) :
    ((blk.block.replay codeOf blk.size 0 start)).Alike codeOf
      ((blk.block.replay codeOf (blk.size - n) n p).after
        (results.map SpeculativeResult.outcome)) := by
  induction n generalizing results p with
  | zero =>
    cases hseq
    exact ⟨rfl, rfl, .refl _⟩
  | succ n ih =>
    obtain ⟨results', p', result, hprev, hrun, rfl, rfl⟩ := Block.sequential_succ_iff.mp hseq
    have hbefore := ih (by omega) hprev fun t results p ht => hnonces t results p (by omega)
    have hok := hnonces n results' p' (Nat.lt_succ_self n) hprev
    obtain ⟨info, hinfo⟩ := Block.basic_sequential hstart hprev
    have hmodes := blk.settledAlike codeOf hok hinfo
    rw [hrun] at hmodes
    have hcount : blk.size - n = blk.size - (n + 1) + 1 := by omega
    rw [hcount, Block.replay, hok.transactOn] at hbefore
    cases himmediate : (blk.block.immediate n).run (Plain.answer codeOf p') with
    | error e =>
      rw [himmediate] at hmodes
      cases hmodes
    | ok output =>
      rw [himmediate] at hmodes hbefore
      cases hmodes with
      | ok _ _ hresult _ _ halike =>
        rw [Replayed.after_after, hresult] at hbefore
        rw [List.map_append]
        have hrest := (blk.block.replay_congr (blk.size - (n + 1)) (n + 1) halike).after
          (results'.map SpeculativeResult.outcome ++ [.executed result.result])
        exact ⟨hbefore.outcomes.trans hrest.outcomes, hbefore.error.trans hrest.error,
          hbefore.accounts.trans hrest.accounts⟩

/-! ## The committed prefix -/

/-- When every outcome is an execution, the outcomes are the results that
were passed on. -/
theorem eq_map_executed {start : Nat} {outcomes : List (TxExecutionOutcome R)} {results : List R}
    (h : (executedFrom start outcomes).map Prod.snd = results)
    (hlen : outcomes.length = results.length) : outcomes = results.map .executed := by
  have hle : ∀ (start : Nat) (outcomes : List (TxExecutionOutcome R)),
      (executedFrom start outcomes).length ≤ outcomes.length := by
    intro start outcomes
    induction outcomes generalizing start with
    | nil => exact Nat.le_refl _
    | cons outcome outcomes ih =>
      have := ih (start + 1)
      cases outcome <;> simp only [executedFrom, List.length_cons] <;> omega
  induction outcomes generalizing start results with
  | nil =>
    obtain rfl := List.length_eq_zero_iff.mp hlen.symm
    rfl
  | cons outcome outcomes ih =>
    cases outcome with
    | executed result =>
      subst h
      simp only [executedFrom, List.map_cons, List.length_cons, Nat.add_right_cancel_iff] at hlen
      simp only [executedFrom, List.map_cons]
      exact congrArg (_ :: ·) (ih rfl hlen)
    | skipped error =>
      subst h
      have := hle (start + 1) outcomes
      simp only [executedFrom, List.length_map, List.length_cons] at hlen
      omega

/-- The reads of the workers are served up to final writes and stable, and
the ordered commit finds what it has committed. -/
structure AgreedReads (blk : Block Err R) (codeOf : B256 → Bytecode) (base faults : Base Err)
    (σ : SchedulerState W R B) (a : Action W) : Prop where
  accesses : AccessesOk blk codeOf base faults σ a
  commits : CommitsRead blk base σ a

section

variable {blk : Block Err R} {base faults : Base Err} {codeOf : B256 → Bytecode}
  {σ : SchedulerState W R B}

theorem AgreedReads.served {a : Action W} (h : AgreedReads blk codeOf base faults σ a) :
    ServedReads blk codeOf base faults σ a :=
  ⟨h.accesses, h.commits.committedReads⟩

variable [DecidableEq W] {backing : B.State}

theorem commitErrors_of_agreedReads (hstart : base.StartOf blk) (hbook : base.CodeBook codeOf)
    (hfinalizes : ∀ t, (blk.spec t).Finalizes codeOf)
    (hprop : ∀ t, (blk.spec t).Propagates faults)
    (h : ReachableWhen blk backing (AgreedReads blk codeOf base faults) σ) :
    CommitErrors blk codeOf base σ.commit := by
  refine Runs.Reach.invariant (I := fun σ => CommitErrors blk codeOf base σ.commit) h
    (commitErrors_initial backing) fun σ a σ' hr ih hok hs => ?_
  rcases step_threads hs with ⟨w, shared, pc, -, hw, rfl⟩ | ⟨shared, t', hf, rfl⟩ |
    ⟨shared, t', ha, hc, rfl⟩
  · exact ih
  · exact ih
  · have hserial := serial_of_reach hstart hbook hfinalizes hprop (hr.mono fun _ _ h => h.served)
    exact ih.commit (core_of_reach hr) (commitInv_of_reach hr) hserial.2 hstart ha hok.commits hc

/-- A commit loop that has ended: as many transactions as it has committed
are executed sequentially, their outcomes are its outcomes, their nonces
are valid, and the accounts it has committed answer as theirs. -/
theorem sequential_of_finished {error : Option (GrevmError Err)} (hstart : base.StartOf blk)
    (hbook : base.CodeBook codeOf) (hfinalizes : ∀ t, (blk.spec t).Finalizes codeOf)
    (hprop : ∀ t, (blk.spec t).Propagates faults)
    (h : ReachableWhen blk backing (AgreedReads blk codeOf base faults) σ)
    (hcommit : σ.commit.pc = .finished error) :
    ∃ results p, σ.commit.idx ≤ blk.size ∧
      blk.sequential codeOf base.plain σ.commit.idx = some (results, p) ∧
      σ.commit.output = results.map SpeculativeResult.outcome ∧
      (∀ t results p, t < σ.commit.idx →
        blk.sequential codeOf base.plain t = some (results, p) → blk.NonceOk p t) ∧
      Plain.Alike codeOf (committedPlain base σ.commit.applied) p := by
  have hinv := commitInv_of_reach h
  have hinner := hinv.inner_le (core_of_reach h)
  obtain ⟨-, results, p, hpre, hcommits⟩ := serial_of_reach hstart hbook hfinalizes hprop
    (h.mono fun _ _ h => h.served)
  have hle : σ.commit.idx ≤ σ.finality.idx := Nat.le_trans (Nat.le_add_right _ _) hinner
  obtain ⟨results', p', hseq⟩ := Block.sequential_of_le hpre.sequential hle
  have happlied : σ.commit.applied.length = σ.commit.idx := by
    rw [hcommits.length, hcommit]
    rfl
  have hlog : σ.commit.applied.map Applied.key = executedFrom 0 σ.commit.output := by
    simpa [hcommit, CommitLoopPc.applyingResult] using hinv.log
  -- each result passed on is the one of its transaction
  have hresults : (executedFrom 0 σ.commit.output).map Prod.snd =
      results'.map SpeculativeResult.result := by
    rw [← hlog, List.map_map]
    refine List.ext_getElem (by simp [happlied, Block.length_sequential hseq]) ?_
    intro i hi hi'
    rw [List.length_map] at hi hi'
    have htxid := hcommits.txids i _ (List.getElem?_eq_getElem hi)
    obtain ⟨_, q, result, account, hseqa, hrun, hresult, -⟩ :=
      hcommits.applied _ (List.getElem_mem hi)
    obtain ⟨_, q', hseqx, hrunx⟩ := Block.sequential_at hseq (List.getElem?_eq_getElem hi')
    rw [htxid, hseqx] at hseqa
    cases hseqa
    rw [htxid, hrunx] at hrun
    rw [List.getElem_map, List.getElem_map, Except.ok.inj hrun]
    exact hresult
  refine ⟨results', p', Nat.le_trans hle hinv.size, hseq, ?_, fun t results p ht => ?_,
    hcommits.alike (happlied ▸ hseq)⟩
  · have houtput : σ.commit.output.length = σ.commit.idx := by
      simpa [hcommit, CommitLoopPc.pushed] using hinv.output
    rw [eq_map_executed hresults (by simp [houtput, Block.length_sequential hseq]),
      List.map_map]
    rfl
  · have herrors := commitErrors_of_agreedReads hstart hbook hfinalizes hprop h
    exact herrors.nonces t results p (Nat.lt_add_right _ ht)

end

/-! ## The whole block -/

section

variable [DecidableEq W] {base : Base Err} {codeOf : B256 → Bytecode} {s : B.State}
  {Stands : B.State → (Address → Plain Err) → Prop} {report : Report R B}

/-- What a parallel execution without an error returns is the committed
prefix followed by the replay of the rest. -/
theorem shows_of_finishParallel {blk : Block Err R} {σ : SchedulerState W R B}
    {error : Option (GrevmError Err)} {backing : B.State} (hon : blk.ReplaysOn B codeOf Stands)
    (hrun : Reachable blk backing σ) (hcommit : σ.commit.pc = .finished error)
    {p : Address → Plain Err} (hjoined : Stands σ.shared.backing p)
    (hsize : σ.commit.idx ≤ blk.size) (h : finishParallel blk σ error = some report)
    (hok : report.result = .ok ()) :
    report.Shows Stands ((blk.replay codeOf (blk.size - σ.commit.idx) σ.commit.idx p).after
      σ.commit.output) := by
  have hlen : σ.commit.output.length = σ.commit.idx := by
    simpa [hcommit, CommitLoopPc.pushed] using (commitInv_of_reach hrun).output
  have hreplay : replayUncommittedSuffix blk σ.commit.output.length σ.commit.output
      σ.commit.applied σ.shared.backing = some report →
      report.Shows Stands ((blk.replay codeOf (blk.size - σ.commit.idx) σ.commit.idx p).after
        σ.commit.output) := by
    intro hreport
    obtain ⟨report', hreport', hshows⟩ := replayUncommittedSuffix_replay hon σ.commit.output
      σ.commit.applied hjoined hlen hsize
    rw [hlen, hreport'] at hreport
    cases hreport
    exact hshows
  unfold finishParallel at h
  dsimp only at h
  split at h
  · cases h
  cases error with
  | some error =>
    cases h
    cases hok
  | none =>
    unfold postExecute at h
    dsimp only at h
    split at h
    · split at h
      · split at h
        · cases h
          cases hok
        · exact hreplay h
      · cases h
        cases hok
      · exact hreplay h
      · exact hreplay h
      · exact hreplay h
    · rename_i habort
      cases h
      -- without an abort every transaction is committed
      have hend := ((commitEnd_of_reach hrun).ended none hcommit).resolve_left habort
      rw [Nat.sub_eq_zero_of_le hend]
      exact ⟨rfl, (List.append_nil _).symm, hjoined⟩

/-- The replay of the whole block is that of the rest after the committed
prefix. -/
theorem replay_of_finished (blk : EvmBlock Err R) {faults : Base Err}
    {σ : SchedulerState W R B} {error : Option (GrevmError Err)} {backing : B.State}
    (hstart : base.StartOf blk.block) (hbook : base.CodeBook codeOf)
    (hfinalizes : ∀ t, (blk.block.spec t).Finalizes codeOf)
    (hprop : ∀ t, (blk.block.spec t).Propagates faults)
    (h : ReachableWhen blk.block backing (AgreedReads blk.block codeOf base faults) σ)
    (hcommit : σ.commit.pc = .finished error) :
    σ.commit.idx ≤ blk.size ∧ (blk.block.replay codeOf blk.size 0 base.plain).Alike codeOf
      ((blk.block.replay codeOf (blk.size - σ.commit.idx) σ.commit.idx
        (committedPlain base σ.commit.applied)).after σ.commit.output) := by
  obtain ⟨results, p, hsize, hseq, houtput, hnonces, halike⟩ :=
    sequential_of_finished hstart hbook hfinalizes hprop h hcommit
  have hbeneficiary : ∃ info, (base.plain blk.env.beneficiary).basic = .ok info :=
    ⟨base.anchor, if_pos hstart.beneficiary.symm⟩
  have hcommitted := blk.replay_sequential hsize hbeneficiary hseq hnonces
  have hrest := (blk.block.replay_congr (blk.size - σ.commit.idx) σ.commit.idx
    halike.symm).after σ.commit.output
  rw [← houtput] at hcommitted
  exact ⟨hsize, hcommitted.outcomes.trans hrest.outcomes, hcommitted.error.trans hrest.error,
    hcommitted.accounts.trans hrest.accounts⟩

end

/-! ## Runs over the shared cache -/

/-- No execution reads a location again under another version, and no load
of a slot races with the removal of its slot map. -/
structure UndisturbedReads {db : Database Err} [DecidableEq W] (blk : Block Err R)
    (σ : SchedulerState W R (parallelState db)) (a : Action W) : Prop where
  stable : StableReads blk σ a
  raceFree : RaceFreeReads blk σ a

section

variable [DecidableEq W] {db : Database Err} {codeOf : B256 → Bytecode} {base : Base Err}
  {s cache : ParallelCacheState} {previous : List EvmState} {report : Report R (parallelState db)}

/-- In such a run the cache serves every caller, and so the reads agree
with the sequential execution. -/
theorem agreedReads_of_undisturbed {blk : Block Err R} {σ : SchedulerState W R (parallelState db)}
    (hdb : db.StorageNeedsCode) (hstart : base.StartOf blk) (hbook : base.CodeBook codeOf)
    (hfinalizes : ∀ t, (blk.spec t).Finalizes codeOf)
    (hprop : ∀ t, (blk.spec t).Propagates (Base.ofState blk.beneficiary blk.anchor db {}))
    (hstands : cache.StandsFor db codeOf base.code base.plain) (hreadable : cache.Readable db)
    (h : ReachableWhen (B := parallelState db) blk cache (UndisturbedReads blk) σ) :
    ReachableWhen (B := parallelState db) blk cache (AgreedReads blk codeOf base
        (Base.ofState blk.beneficiary blk.anchor db {})) σ ∧
      SharedCache blk codeOf base σ := by
  refine Runs.Reach.invariant (I := fun σ => ReachableWhen (B := parallelState db) blk cache
    (AgreedReads blk codeOf base (Base.ofState blk.beneficiary blk.anchor db {})) σ ∧
      SharedCache blk codeOf base σ) h ⟨.refl, sharedCache_initial hstands hreadable⟩ ?_
  rintro σ a σ' hr ⟨hagreed, hshared⟩ hok hs
  obtain ⟨-, hserial⟩ := serial_of_reach hstart hbook hfinalizes hprop
    (hagreed.mono fun _ _ h => h.served)
  have hcore := core_of_reach hr
  have haccesses := hshared.accessesOk hserial hcore (commitInv_of_reach hr) hok.stable
  exact ⟨.tail a hagreed ⟨haccesses, hshared.commitsRead⟩ hs,
    hshared.step hdb hserial hcore hfinalizes hok.raceFree hs⟩

/-- The cache at the start of the block answers with the overlay, when the
beneficiary has been loaded as the anchor. -/
theorem plain_ofState {beneficiary : Address} {anchor : Option AccountInfo}
    (hdb : db.StorageNeedsCode) (hs : Commits db s previous)
    (hanchor : (s.dbBasic db beneficiary).2 = .ok anchor) :
    (Base.ofState beneficiary anchor db s).plain =
      Plain.overlay (Plain.ofDatabase db) previous := by
  funext address
  have hcoherent := hs.coherent hdb address
  refine Plain.ext ?_ (funext fun index => hcoherent.dbStorage)
  rw [← hcoherent.dbBasic]
  by_cases ha : address = beneficiary
  · rw [ha, hanchor]
    exact if_pos rfl
  · exact if_neg ha

theorem codeBook_ofState {beneficiary : Address} {anchor : Option AccountInfo}
    (hbook : s.CodeBook db codeOf) (hanchor : (s.dbBasic db beneficiary).2 = .ok anchor) :
    (Base.ofState beneficiary anchor db s).CodeBook codeOf := by
  intro address info hinfo he
  refine hbook address info ?_ he
  by_cases ha : address = beneficiary
  · rw [ha, hanchor, ← hinfo]
    exact (if_pos ha).symm
  · exact (if_neg ha).symm.trans hinfo

/-- **A successful parallel execution is the sequential one.** When
`parallel_execute` returns without an error, `fallback_sequential` from
the same state does so too; the outcomes of the two are the same, those of
skipped transactions included, and the states they leave answer every
read alike. -/
theorem parallel_execution_is_sequential (blk : EvmBlock Err R) {config : GrevmConfig}
    (hdb : db.StorageNeedsCode) (hs : Commits db s previous) (hbook : s.CodeBook db codeOf)
    (hfinalizes : ∀ t, (blk.block.spec t).Finalizes codeOf)
    (hcommits : ∀ t, (blk.block.immediate t).Committable codeOf)
    (hprop : ∀ t, (blk.block.spec t).Propagates
      (Base.ofState blk.env.beneficiary blk.anchor db {}))
    (h : ParallelExecuteWhen W config blk.block s (UndisturbedReads blk.block) (fun _ => True)
      report) (hok : report.result = .ok ()) :
    ∃ sequential, FallbackSequential blk.block s sequential ∧ sequential.result = .ok () ∧
      sequential.outcomes = report.outcomes ∧ ∀ call,
        ((parallelState db).readNow sequential.state call).2 =
          ((parallelState db).readNow report.state call).2 := by
  cases h with
  | sequential hcfg h => exact ⟨report, h, hok, rfl, fun _ => rfl⟩
  | preloadFailed hcfg h => cases hok
  | @parallel s' σ error report hcfg hanchor hrun hworkers hfinality hcommit _ h =>
    have hpreload : s.dbBasic db blk.env.beneficiary = (s', .ok blk.anchor) := hanchor
    have hloaded : (s.dbBasic db blk.env.beneficiary).2 = .ok blk.anchor := by rw [hpreload]
    have hs' : (s.dbBasic db blk.env.beneficiary).1 = s' := by rw [hpreload]
    -- the cache that the threads start over, and what it stands for
    let base := Base.ofState blk.env.beneficiary blk.anchor db s
    have hstands : s.StandsFor db codeOf base.code base.plain := by
      rw [show base.plain = _ from plain_ofState hdb hs hloaded]
      exact hs.standsFor hdb hbook
    have hstands' := hstands.loadBasic hdb blk.env.beneficiary
    have hreadable := (hs.basic blk.env.beneficiary).readable
    rw [hs'] at hstands' hreadable
    have hstart : base.StartOf blk.block := ⟨rfl, rfl⟩
    have hbook' : base.CodeBook codeOf := codeBook_ofState hbook hloaded
    obtain ⟨hagreed, hshared⟩ := agreedReads_of_undisturbed hdb hstart hbook' hfinalizes hprop
      hstands' hreadable hrun
    -- the joined threads leave the committed prefix, and the rest is replayed
    have hjoined := hshared.standsFor (by rw [hcommit]; rfl)
    have hon : blk.block.ReplaysOn (parallelState db) codeOf
        (ParallelCacheState.StandsFor db codeOf base.code) :=
      replaysOn_parallelState hdb hcommits
    obtain ⟨sequential, hwhole, hshows⟩ := replayUncommittedSuffix_replay hon [] [] hstands
      List.length_nil (Nat.zero_le blk.block.size)
    obtain ⟨hsize, hsame⟩ := replay_of_finished blk hstart hbook' hfinalizes hprop hagreed hcommit
    have hshows' := shows_of_finishParallel hon hrun.free hcommit hjoined hsize h hok
    refine ⟨sequential, hwhole, ?_, ?_, fun call => ?_⟩
    · rw [hshows.result, ← hok, hshows'.result]
      exact congrArg Block.replayResult hsame.error
    · rw [hshows.outcomes, hshows'.outcomes]
      exact hsame.outcomes
    · rw [(hshows.state.readNow hdb call).1, (hshows'.state.readNow hdb call).1]
      exact congrFun hsame.accounts.answer call

end

/-! ## A block with a conflict and a gap in its nonces -/

/-- The contract with its nonce and its slot raised. -/
def Account.counted (view : AccountView) (value : U256) : Account :=
  { Account.ofInfo { view.info with nonce := view.nonce + 1 } with
    storage := AList.singleton 0 ⟨value, value + 1⟩
    touched := true }

/-- A transaction of the contract of `Database.oneContract` that raises its
first slot, at a gas price of one. -/
def countTransaction (nonce : BitVec 64) : EvmTransaction Unit U256 where
  caller := 1
  nonce
  effectiveGasPrice _ := 1
  invalid := none
  rejectsCaller _ := none
  body
    | none => .done (.error (.custom "no account"))
    | some view => .read (.storage 1 0) fun
      | .ok (.word value) =>
        .done (.ok ⟨value, ⟨1, 0⟩, AList.singleton 1 (Account.counted view value)⟩)
      | .ok (.account _) => .done (.error (.custom "no slot"))
      | .error e => .done (.error (.database e))

theorem countTransaction_keepsCode (nonce : BitVec 64) (value : Value) :
    ((countTransaction nonce).body value.loaded).KeepsCode [(.basic 1, .ok value)] := by
  cases hview : value.loaded with
  | none => trivial
  | some view =>
    rintro (e | slot)
    · trivial
    · cases slot with
      | account _ => trivial
      | word slot =>
        intro address account hlook
        obtain ⟨rfl, rfl⟩ := eq_of_lookup_singleton hlook
        exact ⟨rfl, value, by simp, by rw [hview]; rfl, by rw [hview]; rfl⟩

/-- Three such transactions; the nonce of the last is too high. -/
def EvmBlock.counter : EvmBlock Unit U256 where
  size := 3
  env := { beneficiary := 9, basefee := 0, feeChargeDisabled := false, london := true }
  anchor := none
  transactions t := countTransaction (if t = 2 then 5 else BitVec.ofNat 64 (t + 1))
  disableNonceCheck := false
  normalize account := account
  normalize_of_not_empty _ _ := rfl

theorem counter_keepsCode (t : Nat) (disableNonceCheck : Bool) (mode : BeneficiaryMode) :
    ((EvmBlock.counter.transactions t).run disableNonceCheck mode EvmBlock.counter.env
      EvmBlock.counter.normalize).KeepsCode [] :=
  EvmTransaction.keepsCode_run (fun _ => rfl) (countTransaction_keepsCode _) disableNonceCheck mode

theorem Database.oneContract_answers (beneficiary : Address) (anchor : Option AccountInfo)
    (e : Unit) : ¬(Base.ofState beneficiary anchor .oneContract {}).Fails e := by
  rintro (⟨address, h⟩ | ⟨codeHash, h⟩ | ⟨address, index, h⟩)
  · cases h
  · cases h
  · cases h

/-- The accounts of an empty cache are those of the database. -/
theorem Database.CodeBook.fresh {db : Database Err} {codeOf : B256 → Bytecode}
    (hdb : db.StorageNeedsCode) (h : db.CodeBook codeOf) :
    ({} : ParallelCacheState).CodeBook db codeOf := by
  intro address info hinfo he
  rw [(Commits.fresh.coherent hdb address).dbBasic] at hinfo
  have hbasic := Plain.ofDatabase_info hinfo he
  refine ⟨?_, fun code => h.carried address info code hbasic he⟩
  rw [ParallelCacheState.dbCodeByHash_eq]
  exact h.code address info hbasic he

/-- While the slot map of an account is removed, no worker is on its way
with one of its slots. -/
def SchedulerState.raceFree {db : Database Err} (workers : List W)
    (σ : SchedulerState W R (parallelState db)) : Bool :=
  match σ.commit.pc with
  | .applying _ _ (ApplyPc.change address account _) =>
    !account.clears || workers.all fun w =>
      match (σ.workers w).calling with
      | some (_, .storage pc) => !pc.fetches db address
      | _ => true
  | _ => true

theorem SchedulerState.of_raceFree {db : Database Err} {workers : List W}
    {σ : SchedulerState W R (parallelState db)} (h : σ.raceFree workers = true)
    (hall : ∀ w, w ∈ workers) : σ.RaceFree := by
  intro previous result address account accounts hpc hclears w call pc hcalling
  simp only [raceFree, hpc, hclears, Bool.not_true, Bool.false_or, List.all_eq_true] at h
  have hw := h w (hall w)
  rw [hcalling] at hw
  simpa using hw

/-- The check of one step of two workers. -/
def undisturbed {db : Database Err} (blk : Block Err R)
    (σ : SchedulerState Bool R (parallelState db)) (a : Action Bool) : Bool :=
  keptRead blk σ a && (step blk σ a).all (SchedulerState.raceFree [false, true])

theorem undisturbedReads_of_undisturbed {db : Database Err} {blk : Block Err R}
    {σ : SchedulerState Bool R (parallelState db)} {a : Action Bool}
    (h : undisturbed blk σ a = true) : UndisturbedReads blk σ a := by
  obtain ⟨hkept, hrace⟩ := (Bool.and_eq_true _ _).mp h
  refine ⟨stableReads_of_keptRead hkept, fun σ' hs => ?_⟩
  rw [hs] at hrace
  exact SchedulerState.of_raceFree hrace (by decide)

/-- Two workers and the coordinators. The transaction `1` is executed
before `0` has published; `0` is committed and its reward paid while `1`
is in conflict and retried, and `1` while `2` is executed. At `2` the
ordered commit falls back. -/
def counterRun : List (Action Bool) :=
  stepsOf (.worker false) 12 ++ stepsOf (.worker true) 42 ++ stepsOf (.worker false) 55 ++
    stepsOf .finality 8 ++ stepsOf .commit 19 ++ stepsOf (.worker true) 83 ++
    stepsOf .finality 6 ++ stepsOf .commit 20 ++ stepsOf (.worker true) 45 ++
    stepsOf .finality 11 ++ stepsOf .commit 10 ++ stepsOf (.worker true) 7 ++
    stepsOf (.worker false) 11

/-- The second transaction returns the slot as the first has left it, the
third is skipped, and both rewards have been paid. -/
theorem parallel_execution_is_sequential_counter :
    ∃ report sequential : Report U256 (parallelState .oneContract),
      ParallelExecuteWhen Bool ⟨false, 0⟩ EvmBlock.counter.block ({} : ParallelCacheState)
        (UndisturbedReads EvmBlock.counter.block) (fun _ => True) report ∧
      report.outcomes = [.executed 7, .executed 8, .skipped (.nonceTooHigh 5 3)] ∧
      FallbackSequential (B := parallelState .oneContract) EvmBlock.counter.block
        ({} : ParallelCacheState) sequential ∧
      sequential.result = .ok () ∧ sequential.outcomes = report.outcomes ∧
      ((parallelState .oneContract).readNow sequential.state (.storage 1 0)).2 = .ok (.word 9) ∧
      ((parallelState .oneContract).readNow sequential.state (.basic 9)).2 =
        .ok (.account (some ⟨2, 0, keccakEmpty, []⟩)) := by
  have hrun : (Runs.exec (Runs.guarded (step EvmBlock.counter.block)
      (undisturbed EvmBlock.counter.block))
      (initial (ParallelCacheState.dbBasic .oneContract {} 9).1 :
        SchedulerState Bool U256 (parallelState .oneContract)) counterRun).map
      (fun σ => (σ.isJoined [false, true],
        (finishParallel EvmBlock.counter.block σ none).map fun report => decide
          (report.result = .ok () ∧
            report.outcomes = [.executed 7, .executed 8, .skipped (.nonceTooHigh 5 3)] ∧
            ((parallelState .oneContract).readNow report.state (.storage 1 0)).2 = .ok (.word 9) ∧
            ((parallelState .oneContract).readNow report.state (.basic 9)).2 =
              .ok (.account (some ⟨2, 0, keccakEmpty, []⟩))))) =
      some (true, some true) := by decide +kernel
  obtain ⟨σ, hexec, hend⟩ := Option.map_eq_some_iff.mp hrun
  obtain ⟨hjoined, hleft⟩ := Prod.mk.inj hend
  obtain ⟨report, hreport, hleft⟩ := Option.map_eq_some_iff.mp hleft
  obtain ⟨hresult, houtcomes, hslot, hbeneficiary⟩ := of_decide_eq_true hleft
  obtain ⟨hworkers, hfinality, hcommit⟩ := SchedulerState.of_isJoined hjoined (by decide)
  have hreach : ReachableWhen (B := parallelState .oneContract) EvmBlock.counter.block
      (ParallelCacheState.dbBasic .oneContract {} 9).1
      (UndisturbedReads EvmBlock.counter.block) σ :=
    (Runs.reach_of_exec hexec).of_guarded.mono fun _ _ h => undisturbedReads_of_undisturbed h
  have hexecute : ParallelExecuteWhen Bool ⟨false, 0⟩ EvmBlock.counter.block
      ({} : ParallelCacheState) (UndisturbedReads EvmBlock.counter.block) (fun _ => True) report :=
    .parallel ⟨rfl, Nat.zero_le _⟩ rfl hreach hworkers hfinality hcommit trivial hreport
  obtain ⟨sequential, hseq, hok, hsame, hreads⟩ := parallel_execution_is_sequential
    EvmBlock.counter Database.oneContract_storageNeedsCode .fresh
    (Database.oneContract_codeBook.fresh Database.oneContract_storageNeedsCode)
    (fun t => (counter_keepsCode t true .deferred).finalizes)
    (fun t => (counter_keepsCode t false .immediate).committable)
    (fun t => Prog.propagates_of_answers (Database.oneContract_answers _ _) _) hexecute hresult
  exact ⟨report, sequential, hexecute, houtcomes, hseq, hok, hsame, (hreads _).trans hslot,
    (hreads _).trans hbeneficiary⟩

end Grevm
