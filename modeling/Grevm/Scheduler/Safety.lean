/-
Grevm.Scheduler.Safety — published versions and internal consistency.

Consequences of ownership for every reachable state. What a transaction
has published agrees with its status whenever its lock is free, and none
of the exits that report an internal inconsistency can be taken: no
version mismatch, no missing or failed result, no stale history
publication, no blocker that does not precede its transaction, no
published cursor that moves backwards, no second task for a transaction.
-/
import Grevm.Scheduler.CommitPrefix

namespace Grevm

variable {Err W R : Type} {B : Backing Err}

/-! ## Blockers precede -/

/-- Every blocker of the incarnation precedes `t`. -/
def IncarnationDb.BlockedBelow (db : IncarnationDb) (t : Nat) : Prop :=
  ∀ d, d ∈ db.blockingTxs → d < t

def DependencyBelow (dependency : Option Nat) (t : Nat) : Prop :=
  ∀ d, dependency = some d → d < t

/-- A walk over the history stays below its reader. -/
def ScanState.Below (scan : ScanState) (t : Nat) : Prop :=
  scan.writer ≤ t ∧ ∀ o, o ∈ scan.origins → o.txid < t

def CallPc.Below (t : Nat) : CallPc B → Prop
  | .basicScan _ scan => scan.Below t
  | _ => True

def ExecBelow (t : Nat) : ExecPc R B → Prop
  | .running db _ pc => db.BlockedBelow t ∧ pc.Below t
  | .publishing db _ _ | .errMarking db _ _ | .errRecording db _ | .errBlockerLoad db =>
    db.BlockedBelow t
  | .removing e _ | .recording e | .blockerLoad e | .releasing e _ | .settling e _ =>
    e.db.BlockedBelow t
  | .adding e blocker _ => e.db.BlockedBelow t ∧ DependencyBelow blocker t
  | .errAdding blocker _ => DependencyBelow blocker t
  | _ => True

def ValBelow (t : Nat) : ValPc → Prop
  | .scanning _ _ _ dependency | .marking dependency _ | .invalidating dependency
  | .rewinding dependency _ | .blockerLoad dependency | .adding dependency _
  | .unconfirming _ dependency => DependencyBelow dependency t
  | .scanningHistory _ _ _ dependency _ scan => DependencyBelow dependency t ∧ scan.Below t
  | .parallelError _ _ => True

def PcBelow : WorkerPc R B → Prop
  | .exec v pc => ExecBelow v.txid pc
  | .val v pc => ValBelow v.txid pc
  | _ => True

section

variable {t : Nat} {db : IncarnationDb}

theorem IncarnationDb.BlockedBelow.blockOn {d : Nat} {estimate : Bool} (h : db.BlockedBelow t)
    (hd : d < t) : (db.blockOn d estimate).BlockedBelow t := by
  intro d' hd'
  unfold IncarnationDb.blockOn at hd'
  split at hd'
  · rcases List.mem_insert_iff.mp hd' with rfl | hd'
    · exact hd
    · exact h d' hd'
  · exact h d' hd'

theorem IncarnationDb.BlockedBelow.snapshot {address : Address} {account : Option AccountInfo}
    (h : db.BlockedBelow t) : (db.snapshot address account).BlockedBelow t := by
  cases account <;> exact h

theorem lookup_lt {mv : MVMemory} {location : LocationAndType} {found : Nat × MemoryEntry}
    (h : lookup mv t location = some found) : found.1 < t := by
  obtain ⟨h, -⟩ := Option.filter_eq_some_iff.mp h
  exact MVMemory.latestBefore_lt h

theorem IncarnationDb.BlockedBelow.look {location : LocationAndType}
    {found : Option (Nat × MemoryEntry)} (h : db.BlockedBelow t)
    (hf : ∀ x, found = some x → x.1 < t) : (db.look location found).BlockedBelow t := by
  cases found with
  | none => exact h
  | some x =>
    have hb : (db.blockOn x.1 x.2.estimate).BlockedBelow t := h.blockOn (hf x rfl)
    exact hb

theorem ScanState.Below.step {scan : ScanState} (h : scan.Below t)
    (anchor : Option AccountInfo) (history : Nat → EntryState) :
    match scan.step anchor history with
    | .more scan' => scan'.Below t
    | .done found => ∀ o, o ∈ found.version.origins → o.txid < t
    | .blocked writer => writer < t := by
  obtain ⟨hw, ho⟩ := h
  unfold ScanState.step
  cases hn : scan.writer with
  | zero => exact ho
  | succ n =>
    have hlt : n < t := by omega
    have horigins : ∀ o, o ∈ scan.origins ++ [⟨n, (history n).incarnation⟩] → o.txid < t := by
      intro o hmem
      rcases List.mem_append.mp hmem with hmem | hmem
      · exact ho o hmem
      · rw [List.mem_singleton.mp hmem]
        exact hlt
    cases hv : (history n).value with
    | estimate =>
      simp only [hv]
      exact hlt
    | exact effect =>
      simp only [hv]
      cases effect with
      | unchanged | reward r => exact ⟨Nat.le_of_lt hlt, horigins⟩
      | snapshot account => exact horigins

theorem finishBasic_below {address : Address} {account : Option AccountInfo} {pc : CallPc B}
    (h : finishBasic address account = .inl pc) : pc.Below t := by
  unfold finishBasic at h
  split at h
  · split at h <;> cases h
    trivial
  · cases h

/-- A state read blocks only on predecessors. -/
theorem callStep_below {anchor : Option AccountInfo} {mv : MVMemory} {history : Nat → EntryState}
    {backing backing' : B.State} {pc : CallPc B} {db' : IncarnationDb}
    {next : CallPc B ⊕ Except Err Value}
    (h : callStep anchor t mv history backing db pc = (backing', db', next))
    (hdb : db.BlockedBelow t) (hpc : pc.Below t) :
    db'.BlockedBelow t ∧ ∀ pc', next = .inl pc' → pc'.Below t := by
  have point : ∀ {point : CallPc B}, point.Below t → ∀ pc',
      (.inl point : CallPc B ⊕ Except Err Value) = .inl pc' → pc'.Below t := by
    intro point hpoint pc' heq
    cases heq
    exact hpoint
  have hfound : ∀ {l : LocationAndType} {found : Option (Nat × MemoryEntry)},
      lookup mv t l = found → (db.look l found).BlockedBelow t :=
    fun hl => hdb.look fun x hx => lookup_lt (hl.trans hx)
  cases callStep_sound h with
  | visit hs =>
    have hscan := ScanState.Below.step hpc anchor history
    rw [hs] at hscan
    exact ⟨hdb, point hscan⟩
  | resolve _ hnext =>
    refine ⟨IncarnationDb.BlockedBelow.snapshot hdb, fun pc' hpc' => ?_⟩
    exact finishBasic_below (hnext.trans hpc')
  | block hs =>
    have hscan := ScanState.Below.step hpc anchor history
    rw [hs] at hscan
    have hb : (db.blockOn _ true).BlockedBelow t := hdb.blockOn hscan
    exact ⟨hb, by simp⟩
  | basicHit hl _ hnext =>
    exact ⟨(hfound hl).snapshot, fun pc' hpc' => finishBasic_below (hnext.trans hpc')⟩
  | basicMiss | basicMore | codeMiss | codeMore | storageMore => exact ⟨hdb, point trivial⟩
  | basicFails | codeFails | storageFails | storageLoads => exact ⟨hdb, by simp⟩
  | @basicLoads address _ _ account _ _ hnext =>
    have hs : (db.snapshot address account).BlockedBelow t := hdb.snapshot
    exact ⟨hs, fun pc' hpc' => finishBasic_below (hnext.trans hpc')⟩
  | codeHit hl => exact ⟨hfound hl, by simp⟩
  | codeLoads => exact ⟨hdb, by simp⟩
  | reset | slotMiss => exact ⟨hfound rfl, point trivial⟩
  | slotHit | slotCleared => exact ⟨hfound rfl, by simp⟩

theorem latestUnfinalizedBlocker_below {finality : Nat} (h : db.BlockedBelow t) :
    DependencyBelow (latestUnfinalizedBlocker finality db.blockingTxs) t := by
  intro d hd
  have hmem := List.max?_mem hd
  exact h d (List.mem_of_mem_filter hmem)

theorem DependencyBelow.later {dependency previousId : Option Nat}
    (h : DependencyBelow dependency t) (h' : DependencyBelow previousId t) :
    DependencyBelow (laterDependency dependency previousId) t := by
  intro d hd
  unfold laterDependency at hd
  split at hd
  · cases hd
    exact Nat.max_lt.mpr ⟨h _ rfl, h' _ rfl⟩
  · exact h' d hd
  · exact h d hd

theorem checkRead_below {mv : MVMemory} {location : LocationAndType} {version : ReadVersion} :
    DependencyBelow (checkRead mv t location version).2 t := by
  intro d hd
  unfold checkRead at hd
  split at hd
  · rename_i hl
    cases hd
    exact MVMemory.latestBefore_lt hl
  · cases hd

theorem validate_below {found : HistoryScan} {expected : BeneficiaryReadVersion}
    (h : ∀ o, o ∈ found.version.origins → o.txid < t) :
    DependencyBelow (found.validate expected).dependency t := by
  intro d hd
  obtain ⟨o, ho, rfl⟩ := Option.map_eq_some_iff.mp hd
  exact h o (List.mem_of_mem_head? ho)

end

section

variable {blk : Block Err R} {s s' : Shared W R B} {v : TxVersion} {p' : WorkerPc R B}

theorem execBelow_enterExec {db : IncarnationDb} {prog : Prog Err R}
    (h : db.BlockedBelow v.txid) : ExecBelow v.txid (enterExec blk s v.txid db prog) := by
  cases prog with
  | read call k =>
    refine ⟨h, ?_⟩
    cases call with
    | basic address =>
      by_cases ha : address = blk.beneficiary
      · simp only [Call.start, if_pos ha]
        exact ⟨Nat.le_refl _, fun o ho => absurd ho List.not_mem_nil⟩
      · simp only [Call.start, if_neg ha]
        trivial
    | storage address index => trivial
  | done result => cases result <;> exact h

theorem ExecStep.below {pc : ExecPc R B} (h : ExecStep blk s v pc s' p')
    (hpc : ExecBelow v.txid pc) : PcBelow p' := by
  cases h with
  | read h =>
    obtain ⟨h1, h2⟩ := callStep_below h hpc.1 hpc.2
    exact ⟨h1, h2 _ rfl⟩
  | answer h => exact execBelow_enterExec (callStep_below h hpc.1 hpc.2).1
  | loadBlocker => exact ⟨hpc, latestUnfinalizedBlocker_below hpc⟩
  | addBlocker h => exact hpc.1
  | settle => trivial
  | errRecord h =>
    simp only [PcBelow]
    split
    · exact hpc
    · trivial
  | errLoadBlocker => exact latestUnfinalizedBlocker_below hpc
  | frontierFinish h ht =>
    rename_i tail _ _ _
    cases tail <;> trivial
  | rewindFinish h =>
    rename_i tail _ _
    cases tail <;> trivial
  | _ => first | exact hpc | trivial

theorem ValStep.below {pc : ValPc} (h : ValStep blk s v pc s' p')
    (hpc : ValBelow v.txid pc) : PcBelow p' := by
  cases h with
  | @scanned ts conflict dependency => cases conflict <;> exact hpc
  | scanHistory h => exact ⟨hpc, Nat.le_refl _, fun o ho => absurd ho List.not_mem_nil⟩
  | scan h hv => exact hpc.later checkRead_below
  | walk h =>
    have hscan := hpc.2.step blk.anchor s.history
    rw [h] at hscan
    exact ⟨hpc.1, hscan⟩
  | walked h =>
    have hscan := hpc.2.step blk.anchor s.history
    rw [h] at hscan
    exact hpc.1.later (validate_below hscan)
  | walkBlocked h =>
    have hscan := hpc.2.step blk.anchor s.history
    rw [h] at hscan
    refine hpc.1.later fun d hd => ?_
    cases hd
    exact hscan
  | loadBlocker =>
    intro d hd
    exact hpc d (Option.filter_eq_some_iff.mp hd).1
  | _ => first | exact hpc | trivial

theorem WorkerStep.below {w : W} {p : WorkerPc R B} (h : WorkerStep blk w s p s' p')
    (hp : PcBelow p) : PcBelow p' := by
  cases h with
  | idle _ hp' | frontier _ _ hp' =>
    cases p' <;> trivial
  | @busy t fromNext | @uselessRemoved t fromNext => cases fromNext <;> trivial
  | execute =>
    exact execBelow_enterExec fun d hd => absurd hd List.not_mem_nil
  | validate => exact nofun
  | exec h | val h => exact h.below hp
  | _ => trivial

end

section

variable [DecidableEq W] {blk : Block Err R} {backing : B.State} {σ : SchedulerState W R B}

/-- Blockers precede in every run. -/
theorem pcBelow_of_reach {ok : SchedulerState W R B → Action W → Prop}
    (h : ReachableWhen blk backing ok σ) (w : W) : PcBelow (σ.workers w) := by
  refine Runs.Reach.invariant (I := fun σ : SchedulerState W R B => ∀ w, PcBelow (σ.workers w)) h
    (fun _ => trivial) (fun σ a σ' _ ih _ hs => ?_) w
  rcases step_cases hs with ⟨w, shared, pc, hw, rfl⟩ | ⟨shared, t', hf, rfl⟩ | ⟨shared, t', hc, rfl⟩
  · intro w'
    by_cases hww : w' = w
    · subst hww
      simp only [Function.update_self]
      exact hw.below (ih w')
    · simp only [Function.update_of_ne hww]
      exact ih w'
  · exact ih
  · exact ih

/-! ## Published versions match the status -/

/-- **Published versions match the status.** While the lock of a
transaction is free, its entries are at the locations of the write set of
its last result (which a final transaction keeps until the commit loop
takes it); they and its beneficiary entry are estimates while it is in
conflict or waits to be executed, and exact with its current incarnation
from `Executed` to `Finality`. -/
theorem published_versions_match_status (h : Reachable blk backing σ) (t : Nat)
    (hl : σ.shared.txLocks t = none) :
    ((σ.shared.txStates t).status ≠ .finality ∨ (σ.shared.txResults t).isSome →
      ∀ l, (σ.shared.mvMemory l t).isSome ↔ l ∈ σ.shared.lastWriteSet t) ∧
    ((σ.shared.txStates t).status = .finality → σ.commit.idx + σ.commit.pc.taken ≤ t →
      (σ.shared.txResults t).isSome) ∧
    ((σ.shared.txStates t).status = .conflict ∨ (σ.shared.txStates t).status = .executing →
      (∀ l e, σ.shared.mvMemory l t = some e → e.estimate = true) ∧
        (σ.shared.history t).value = .estimate) ∧
    ((σ.shared.txStates t).status = .executed ∨ (σ.shared.txStates t).status = .validating ∨
      (σ.shared.txStates t).status = .unconfirmed ∨ (σ.shared.txStates t).status = .finality →
      (∀ l e, σ.shared.mvMemory l t = some e → e.estimate = false ∧
        e.incarnation = (σ.shared.txStates t).incarnation) ∧
      ∃ effect, σ.shared.history t = ⟨(σ.shared.txStates t).incarnation, .exact effect⟩) := by
  have hcore := core_of_reach h
  have hfree := hcore.free t (by simp [hl])
  have hpresent : (σ.shared.txStates t).status = .finality →
      σ.commit.idx + σ.commit.pc.taken ≤ t → (σ.shared.txResults t).isSome := fun hst ht =>
    (commitInv_of_reach h).present t ht ((hcore.final t).mp hst)
  have hdom : (σ.shared.column t).Published → (σ.shared.txResults t).isSome →
      ∀ l, (σ.shared.mvMemory l t).isSome ↔ l ∈ σ.shared.lastWriteSet t := by
    intro hpub hres l
    obtain ⟨r, hr⟩ := Option.isSome_iff_exists.mp hres
    simpa [Shared.lastWriteSet, hr, Shared.column] using (hpub.result r hr).2 l
  cases hst : (σ.shared.txStates t).status with
  | initial =>
    simp only [Column.FreeOk, Shared.column, hst] at hfree
    obtain ⟨h1, h2, -, -⟩ := hfree
    refine ⟨fun _ l => ?_, by simp, by simp, by simp⟩
    simp [h2, Shared.lastWriteSet, h1]
  | executing =>
    have hstale : (σ.shared.column t).Stale (σ.shared.txStates t).incarnation := by
      simpa only [Column.FreeOk, Shared.column, hst] using hfree
    exact ⟨fun _ => hstale.dom, by simp, fun _ => ⟨fun l e he => (hstale.est l e he).1, hstale.value⟩,
      by simp⟩
  | conflict =>
    have hstale : (σ.shared.column t).Stale ((σ.shared.txStates t).incarnation + 1) := by
      simpa only [Column.FreeOk, Shared.column, hst] using hfree
    exact ⟨fun _ => hstale.dom, by simp, fun _ => ⟨fun l e he => (hstale.est l e he).1, hstale.value⟩,
      by simp⟩
  | finality =>
    have hpub : (σ.shared.column t).Published := by
      simpa only [Column.FreeOk, Shared.column, hst] using hfree
    exact ⟨fun hres => hdom hpub (hres.resolve_left (by simp)), fun _ => hpresent hst, by simp,
      fun _ => ⟨hpub.exact, hpub.entry⟩⟩
  | executed | validating | unconfirmed =>
    obtain ⟨hpub, hres⟩ : (σ.shared.column t).Published ∧ _ := by
      simpa only [Column.FreeOk, Shared.column, hst] using hfree
    exact ⟨fun _ => hdom hpub hres, by simp, by simp, fun _ => ⟨hpub.exact, hpub.entry⟩⟩

/-- A transaction that lost to the one before it is left in conflict, with
an estimate at the account it has written; retried, it publishes that
account again with its second incarnation. -/
theorem published_versions_match_status_conflict :
    ∃ σ σ' : SchedulerState Bool Unit (Backing.emptyDB Unit),
      Reachable (Block.paying 2) () σ ∧ (σ.shared.txStates 1).status = .conflict ∧
      .basic 1 ∈ σ.shared.lastWriteSet 1 ∧
      (∃ e, σ.shared.mvMemory (.basic 1) 1 = some e ∧ e.estimate = true) ∧
      (σ.shared.history 1).value = .estimate ∧
      Reachable (Block.paying 2) () σ' ∧ (σ'.shared.txStates 1).status = .unconfirmed ∧
      ∃ e, σ'.shared.mvMemory (.basic 1) 1 = some e ∧ e.estimate = false ∧ e.incarnation = 2 := by
  have hcheck : (Block.runPaying (overtaken 20)).map (fun σ =>
      ((σ.shared.txLocks 1).isNone, (σ.shared.txStates 1).status,
        (σ.shared.mvMemory (.basic 1) 1).isSome)) = some (true, .conflict, true) := by
    decide +kernel
  have hcheck' : (Block.runPaying (overtaken 62)).map (fun σ =>
      ((σ.shared.txLocks 1).isNone, (σ.shared.txStates 1).status,
        (σ.shared.txStates 1).incarnation, (σ.shared.mvMemory (.basic 1) 1).isSome)) =
      some (true, .unconfirmed, 2, true) := by decide +kernel
  obtain ⟨σ, hrun, heq⟩ := Option.map_eq_some_iff.mp hcheck
  obtain ⟨σ', hrun', heq'⟩ := Option.map_eq_some_iff.mp hcheck'
  simp only [Prod.mk.injEq, Option.isNone_iff_eq_none] at heq heq'
  obtain ⟨hlock, hstatus, hsome⟩ := heq
  obtain ⟨hlock', hstatus', hincarnation, hsome'⟩ := heq'
  have hreach : Reachable (Block.paying 2) () σ := Runs.reach_of_exec hrun
  have hreach' : Reachable (Block.paying 2) () σ' := Runs.reach_of_exec hrun'
  obtain ⟨hdom, -, hestimate, -⟩ := published_versions_match_status hreach 1 hlock
  obtain ⟨-, -, -, hexact⟩ := published_versions_match_status hreach' 1 hlock'
  obtain ⟨e, he⟩ := Option.isSome_iff_exists.mp hsome
  obtain ⟨e', he'⟩ := Option.isSome_iff_exists.mp hsome'
  rw [hstatus', hincarnation] at hexact
  refine ⟨σ, σ', hreach, hstatus, (hdom (.inl (by simp [hstatus])) _).mp hsome, ⟨e, he, ?_⟩,
    (hestimate (.inl hstatus)).2, hreach', hstatus', e', he', ?_⟩
  · exact (hestimate (.inl hstatus)).1 _ _ he
  · exact (hexact (.inr (.inr (.inl rfl)))).1 _ _ he'

/-! ## Internal consistency -/

/-- A thread is reporting an internal inconsistency, or one is stored as
the reason to abort. -/
def RaisesParallelError (σ : SchedulerState W R B) : Prop :=
  (∃ w v message pc, σ.workers w = .exec v (.parallelError message pc)) ∨
  (∃ w v message pc, σ.workers w = .val v (.parallelError message pc)) ∨
  (∃ w v t message pc, σ.workers w = .exec v (.errAbort (.parallelError t message) pc)) ∨
  (∃ t message error pc, σ.commit.pc = .aborting (.parallelError t message) error pc) ∨
  ∃ t message, σ.shared.abortReason = some (.parallelError t message)

/-- The call of `TxDependency::add` a worker is in, or about to make. -/
def WorkerPc.addCall : WorkerPc R B → Option (Nat × Option Nat)
  | .exec v (.adding _ blocker _) | .exec v (.errAdding blocker _)
  | .val v (.adding blocker _) => some (v.txid, blocker)
  | _ => none

omit [DecidableEq W] in
theorem not_raisesParallelError (hcore : Core σ) (hinv : CommitInv blk σ) :
    ¬ RaisesParallelError σ := by
  rintro (⟨w, v, message, pc, hw⟩ | ⟨w, v, message, pc, hw⟩ | ⟨w, v, t, message, pc, hw⟩ |
    ⟨t, message, error, pc, hc⟩ | ⟨t, message, hr⟩)
  · have hok := (hcore.owned w v (by rw [hw]; rfl)).2
    rw [hw] at hok
    exact hok
  · have hok := (hcore.owned w v (by rw [hw]; rfl)).2
    rw [hw] at hok
    exact hok
  · exact hinv.raising w v _ pc hw
  · rcases hinv.aborting _ error pc hc with ⟨h, -⟩ | ⟨e, h, -⟩ <;> cases h
  · exact hinv.reason _ hr

/-- The only blockers ever added precede. -/
theorem addCall_below {p : WorkerPc R B} (h : PcBelow p) {t d : Nat}
    (hadd : p.addCall = some (t, some d)) : d < t := by
  cases p with
  | exec v pc => cases pc <;> cases hadd <;> first | exact h.2 _ rfl | exact h _ rfl
  | val v pc => cases pc <;> cases hadd; exact h _ rfl
  | _ => cases hadd

/-- Published cursors only move forwards. -/
theorem step_cursors_mono {a : Action W} {σ' : SchedulerState W R B} (hcore : Core σ)
    (hinv : CommitInv blk σ) (hs : step blk σ a = some σ') :
    σ.shared.ctx.finality ≤ σ'.shared.ctx.finality ∧
      σ.shared.ctx.committed ≤ σ'.shared.ctx.committed := by
  rcases step_cases hs with ⟨w, shared, pc, hw, rfl⟩ | ⟨shared, t', hf, rfl⟩ | ⟨shared, t', hc, rfl⟩
  · exact ⟨Nat.le_of_eq hw.cursors.1.symm, Nat.le_of_eq hw.cursors.2.symm⟩
  · cases hf
    case publish => exact ⟨hcore.finality_le, le_rfl⟩
    all_goals exact ⟨le_rfl, le_rfl⟩
  · cases hc
    case publish hpc =>
      refine ⟨le_rfl, ?_⟩
      have h₁ := hinv.output
      have h₂ := hinv.committed
      simp only [hpc, CommitLoopPc.pushed, CommitLoopPc.published] at h₁ h₂
      show σ.shared.ctx.committed ≤ σ.commit.output.length
      omega
    all_goals exact ⟨le_rfl, le_rfl⟩

/-- **The inconsistency exits are unreachable.** In every run no thread
reports an internal inconsistency, a blocker given to `TxDependency::add`
precedes its transaction, no step moves a published cursor backwards, and
no transaction has two tasks. -/
theorem inconsistency_exits_unreachable (h : Reachable blk backing σ) :
    ¬ RaisesParallelError σ ∧
    (∀ w t d, (σ.workers w).addCall = some (t, some d) → d < t) ∧
    (∀ a σ', step blk σ a = some σ' →
      σ.shared.ctx.finality ≤ σ'.shared.ctx.finality ∧
        σ.shared.ctx.committed ≤ σ'.shared.ctx.committed) ∧
    (∀ w w' v v', (σ.workers w).owned = some v → (σ.workers w').owned = some v' →
      v.txid = v'.txid → w = w') := by
  have hcore := core_of_reach h
  have hinv := commitInv_of_reach h
  exact ⟨not_raisesParallelError hcore hinv, fun w _ _ => addCall_below (pcBelow_of_reach h w),
    fun _ _ => step_cursors_mono hcore hinv, hcore.unique⟩

/-- One worker adds the transaction in conflict behind the one before it
while the finality thread publishes its cursor. -/
theorem inconsistency_exits_unreachable_conflict :
    ∃ σ σ' : SchedulerState Bool Unit (Backing.emptyDB Unit),
      Reachable (Block.paying 2) () σ ∧ ¬ RaisesParallelError σ ∧
      (σ.workers true).addCall = some (1, some 0) ∧ 0 < 1 ∧
      step (Block.paying 2) σ { thread := .finality } = some σ' ∧
      σ'.shared.ctx.finality = 1 ∧ σ.shared.ctx.finality ≤ 1 := by
  have hcheck : (Block.runPaying (overtaken 19 ++ stepsOf .finality 6)).map (fun σ =>
      ((σ.workers true).addCall,
        (step (Block.paying 2) σ { thread := .finality }).map (·.shared.ctx.finality))) =
      some (some (1, some 0), some 1) := by decide +kernel
  obtain ⟨σ, hrun, heq⟩ := Option.map_eq_some_iff.mp hcheck
  obtain ⟨hadd, hnext⟩ := Prod.mk.inj heq
  obtain ⟨σ', hstep, hcursor⟩ := Option.map_eq_some_iff.mp hnext
  have hreach : Reachable (Block.paying 2) () σ := Runs.reach_of_exec hrun
  obtain ⟨hnone, hbelow, hmono, -⟩ := inconsistency_exits_unreachable hreach
  exact ⟨σ, σ', hreach, hnone, hadd, hbelow true 1 0 hadd, hstep, hcursor,
    hcursor ▸ (hmono _ _ hstep).1⟩

end

end Grevm
