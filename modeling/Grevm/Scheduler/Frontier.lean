/-
Grevm.Scheduler.Frontier — the execution frontier flags what has run.

A finished execution flags its transaction and moves the frontier over
the flagged prefix, in several accesses that any other thread may
interrupt. `Flags` says that the frontier only ever covers flagged
transactions and that a transaction past its execution is flagged, or
its worker is about to flag it; hence the frontier `current` returns is
past every prefix of transactions that have run.
-/
import Grevm.Scheduler.ExecutionFrontier
import Grevm.Scheduler.Ownership

namespace Grevm

variable {Err W R : Type} {B : Backing Err}

/-! ## The frontier under the steps of a worker -/

/-- The access to the frontier a worker is at, scheduling or at the end
of an execution. -/
def WorkerPc.frontierAccess : WorkerPc R B → Option FrontierPc
  | .exec _ (.frontier _ pc) => some pc
  | p => p.frontierPc

/-- The worker is about to flag `t`. -/
def WorkerPc.Flagging (t : Nat) : WorkerPc R B → Prop
  | .exec _ (.frontier _ pc) => pc = .publishLoad t ∨ pc = .publishStore t
  | _ => False

/-- The transaction has run. -/
def TransactionStatus.hasRun (status : TransactionStatus) : Prop :=
  status ≠ .initial ∧ status ≠ .executing

section

variable {blk : Block Err R} {s s' : Shared W R B} {v : TxVersion} {p p' : WorkerPc R B} {w : W}
  {t : Nat}

theorem frontierAccess_enterExec {s : Shared W R B} {db : IncarnationDb} {prog : Prog Err R} :
    (WorkerPc.exec v (enterExec blk s t db prog) : WorkerPc R B).frontierAccess = none := by
  cases prog with
  | read => rfl
  | done result => cases result <;> rfl

theorem not_flagging_of_isIdle (h : p.isIdle = true) : ¬ p.Flagging t := by
  intro hf
  cases p with
  | exec v pc => cases h
  | _ => exact hf

theorem frontierAccess_of_isIdle (h : p.isIdle = true) : p.frontierAccess = p.frontierPc := by
  cases p with
  | exec v pc => cases h
  | _ => rfl

/-- The flags and the frontier change by the access the worker is at, or
they stay and the worker starts a new access or none. -/
def FrontierMove (blk : Block Err R) (s : Shared W R B) (p : WorkerPc R B) (s' : Shared W R B)
    (p' : WorkerPc R B) : Prop :=
  (∃ pc next, p.frontierAccess = some pc ∧
      s.ctx.frontierStep blk.size pc = (s'.ctx, next) ∧
      ∀ pc', p'.frontierAccess = some pc' → next = .inl pc') ∨
    s'.ctx.executed = s.ctx.executed ∧ s'.ctx.frontier = s.ctx.frontier ∧
      (∀ t, ¬ p.Flagging t) ∧
      ∀ pc', p'.frontierAccess = some pc' → pc' = .currentLoad ∨ ∃ t, pc' = .publishLoad t

theorem frontierAccess_finishExec {tail : ExecTail} :
    (finishExec s v tail).2.frontierAccess = none := by
  cases tail <;> rfl

/-- A step away from the frontier. -/
theorem FrontierMove.away (hexec : s'.ctx.executed = s.ctx.executed)
    (hfrontier : s'.ctx.frontier = s.ctx.frontier) (hp : ∀ t, ¬ p.Flagging t)
    (hp' : p'.frontierAccess = none) : FrontierMove blk s p s' p' :=
  .inr ⟨hexec, hfrontier, hp, fun pc' hpc' => by rw [hp'] at hpc'; cases hpc'⟩

theorem ExecStep.frontierMove {pc : ExecPc R B} (h : ExecStep blk s v pc s' p') :
    FrontierMove blk s (.exec v pc) s' p' := by
  cases h
  case frontier h => exact .inl ⟨_, _, rfl, h, fun pc' hpc' => by cases hpc'; rfl⟩
  case frontierFinish h _ =>
    refine .inl ⟨_, _, rfl, by rw [finishExec_ctx, h], fun pc' hpc' => ?_⟩
    rw [frontierAccess_finishExec] at hpc'
    cases hpc'
  case frontierRewind h _ _ => exact .inl ⟨_, _, rfl, h, fun pc' hpc' => by cases hpc'⟩
  case settle | errSettle =>
    exact .inr ⟨rfl, rfl, fun _ hf => hf, fun pc' hpc' => by cases hpc'; exact .inr ⟨_, rfl⟩⟩
  case answer => exact .away rfl rfl (fun _ hf => hf) frontierAccess_enterExec
  case errRecord db _ _ _ =>
    refine .away rfl rfl (fun _ hf => hf) ?_
    generalize db.isBlocked = blocked
    cases blocked <;> rfl
  case rewind h => rw [rewindStep_eq h]; exact .away rfl rfl (fun _ hf => hf) rfl
  case rewindFinish h =>
    rw [rewindStep_eq h]
    exact .away (by rw [finishExec_ctx]) (by rw [finishExec_ctx]) (fun _ hf => hf)
      frontierAccess_finishExec
  all_goals exact .away rfl rfl (fun _ hf => hf) rfl

theorem ValStep.frontierMove {pc : ValPc} (h : ValStep blk s v pc s' p') :
    FrontierMove blk s (.val v pc) s' p' := by
  cases h
  case rewind h | rewound h => rw [rewindStep_eq h]; exact .away rfl rfl (fun _ hf => hf) rfl
  all_goals exact .away rfl rfl (fun _ hf => hf) rfl

theorem WorkerStep.frontierMove (h : WorkerStep blk w s p s' p') : FrontierMove blk s p s' p' := by
  cases h with
  | idle hp hp' hload =>
    refine .inr ⟨rfl, rfl, fun _ => not_flagging_of_isIdle hp, fun pc' hpc' => .inl ?_⟩
    rw [frontierAccess_of_isIdle hp'] at hpc'
    exact hload pc' hpc'
  | frontier hstep hp hp' hpc hnext =>
    refine .inl ⟨_, _, (frontierAccess_of_isIdle hp).trans hpc, hstep, fun pc' hpc' => ?_⟩
    rw [frontierAccess_of_isIdle hp'] at hpc'
    exact hnext pc' hpc'
  | exec hs | val hs => exact hs.frontierMove
  | execute => exact .away rfl rfl (fun _ hf => hf) frontierAccess_enterExec
  | @busy t fromNext | @uselessRemoved t fromNext =>
    cases fromNext <;> exact .away rfl rfl (fun _ hf => hf) rfl
  | _ => exact .away rfl rfl (fun _ hf => hf) rfl

theorem TailOk.hasRun {c : Column Err R} {tail : ExecTail} (h : TailOk c tail) :
    c.state.status.hasRun := by
  cases tail <;> simp [TransactionStatus.hasRun, h.1]

/-- An execution that settles is about to flag its transaction. -/
theorem ExecStep.flagging {pc : ExecPc R B} (h : ExecStep blk s v pc s' p')
    (hok : ExecOk v.incarnation (s.column v.txid) pc) (hrun : (s'.txStates v.txid).status.hasRun) :
    p'.Flagging v.txid ∨ (s.txStates v.txid).status.hasRun := by
  cases h
  case settle | errSettle => exact .inl (.inl rfl)
  case frontierFinish | rewindFinish => exact .inr hok.hasRun
  all_goals exact .inr hrun

theorem ValOk.hasRun {n : Nat} {c : Column Err R} {pc : ValPc} (h : ValOk n c pc) :
    c.state.status.hasRun := by
  cases pc <;> first | exact h.elim | simp [TransactionStatus.hasRun, h.1]

/-- Whoever makes a transaction one that has run is about to flag it. -/
theorem WorkerStep.flagging (h : WorkerStep blk w s p s' p') (hv : p.owned = some v)
    (hok : PcOk (s.column v.txid) p) (hrun : (s'.txStates v.txid).status.hasRun) :
    p'.Flagging v.txid ∨ (s.txStates v.txid).status.hasRun := by
  cases h with
  | exec hs =>
    cases hv
    exact hs.flagging hok hrun
  | val hs =>
    cases hv
    exact .inr hok.hasRun
  | idle hidle | frontier _ hidle => rw [(owned_of_isIdle hidle).1] at hv; cases hv
  | _ => cases hv <;> exact .inr hrun

end

/-! ## The flags in every run -/

structure Flags (σ : SchedulerState W R B) : Prop where
  prefixed : ∀ j, j < σ.shared.ctx.frontier → σ.shared.ctx.executed j = true
  sound : ∀ w pc, (σ.workers w).frontierAccess = some pc → pc.Sound σ.shared.ctx
  /-- What has run is flagged, or about to be. -/
  flagged : ∀ t, (σ.shared.txStates t).status.hasRun →
    σ.shared.ctx.executed t = true ∨ ∃ w, (σ.workers w).Flagging t

section

variable {blk : Block Err R} {σ : SchedulerState W R B} {s' : Shared W R B} {p' : WorkerPc R B}
  {w : W}

theorem Flags.executed_mono (h : WorkerStep blk w σ.shared (σ.workers w) s' p') (j : Nat)
    (hj : σ.shared.ctx.executed j = true) : s'.ctx.executed j = true := by
  rcases h.frontierMove with ⟨pc, next, -, hstep, -⟩ | ⟨hexec, -⟩
  · exact SchedulerContext.executed_mono_of_frontierStep hstep j hj
  · rw [hexec]
    exact hj

/-- The worker that was about to flag a transaction has flagged it, or
still is about to. -/
theorem Flags.flagging {t : Nat} (h : Flags σ)
    (hstep : WorkerStep blk w σ.shared (σ.workers w) s' p') (hf : (σ.workers w).Flagging t) :
    s'.ctx.executed t = true ∨ p'.Flagging t := by
  generalize hp : σ.workers w = p at hstep hf
  cases hstep with
  | exec hs =>
    cases hs
    case frontier hmove =>
      rcases SchedulerContext.publish_of_frontierStep hmove h.prefixed hf with hj | heq
      · exact .inl hj
      · cases heq
        exact .inr (.inr rfl)
    case frontierFinish hmove _ =>
      rcases SchedulerContext.publish_of_frontierStep hmove h.prefixed hf with hj | heq
      · exact .inl (by rw [finishExec_ctx]; exact hj)
      · cases heq
    case frontierRewind hmove _ _ =>
      rcases SchedulerContext.publish_of_frontierStep hmove h.prefixed hf with hj | heq
      · exact .inl hj
      · cases heq
    all_goals exact hf.elim
  | idle hidle | frontier _ hidle => exact absurd hf (not_flagging_of_isIdle hidle)
  | _ => exact hf.elim

variable [DecidableEq W]

theorem Flags.worker (h : Flags σ) (hcore : Core σ)
    (hstep : WorkerStep blk w σ.shared (σ.workers w) s' p') :
    Flags { σ with shared := s', workers := Function.update σ.workers w p' } := by
  have hmono := Flags.executed_mono hstep
  refine ⟨?_, fun w' pc hpc => ?_, fun t hrun => ?_⟩
  · rcases hstep.frontierMove with ⟨pc, next, hpc, hmove, -⟩ | ⟨hexec, hfrontier, -⟩
    · exact (SchedulerContext.sound_of_frontierStep hmove h.prefixed (h.sound w pc hpc)).1
    · simp only [hexec, hfrontier]
      exact h.prefixed
  · by_cases hw : w' = w
    · subst hw
      simp only [Function.update_self] at hpc
      rcases hstep.frontierMove with ⟨pc₀, next, hpc₀, hmove, hnext⟩ | ⟨-, -, -, hnext⟩
      · exact (SchedulerContext.sound_of_frontierStep hmove h.prefixed (h.sound w' pc₀ hpc₀)).2 pc
          (hnext pc hpc)
      · rcases hnext pc hpc with rfl | ⟨t, rfl⟩ <;> trivial
    · simp only [Function.update_of_ne hw] at hpc
      exact (h.sound w' pc hpc).mono hmono
  · have hbefore : (σ.shared.txStates t).status.hasRun →
        s'.ctx.executed t = true ∨ ∃ w', (Function.update σ.workers w p' w').Flagging t := by
      intro hrun₀
      rcases h.flagged t hrun₀ with hj | ⟨w', hf⟩
      · exact .inl (hmono t hj)
      · by_cases hw : w' = w
        · subst hw
          rcases h.flagging hstep hf with hj | hf
          · exact .inl hj
          · exact .inr ⟨w', by simpa using hf⟩
        · exact .inr ⟨w', by simpa [hw] using hf⟩
    by_cases hown : ∃ v, (σ.workers w).owned = some v ∧ v.txid = t
    · obtain ⟨v, hv, rfl⟩ := hown
      rcases hstep.flagging hv (hcore.owned w v hv).2 hrun with hf | hrun₀
      · exact .inr ⟨w, by simpa using hf⟩
      · exact hbefore hrun₀
    · have hne : ∀ v, (σ.workers w).owned = some v → t ≠ v.txid :=
        fun v hv ht => hown ⟨v, hv, ht.symm⟩
      rcases hstep.sameAt_or_claimed hne with hsame | ⟨-, ⟨hs | hs, -⟩ | ⟨-, hs⟩⟩
      · exact hbefore (hsame.state_eq ▸ hrun)
      · exact hbefore (by simp [TransactionStatus.hasRun, hs])
      · exact hbefore (by simp [TransactionStatus.hasRun, hs])
      · simp [TransactionStatus.hasRun, hs] at hrun

omit [DecidableEq W] in
theorem Flags.finality {t' : FinalityThread} (h : Flags σ) (hcore : Core σ)
    (hstep : FinalityStep blk σ.shared σ.finality s' t') :
    Flags { σ with shared := s', finality := t' } := by
  have hframe : s'.ctx.executed = σ.shared.ctx.executed ∧
      s'.ctx.frontier = σ.shared.ctx.frontier ∧
      ∀ t, (s'.txStates t).status.hasRun → (σ.shared.txStates t).status.hasRun := by
    cases hstep
    case finalize hpc _ =>
      refine ⟨rfl, rfl, fun t hrun => ?_⟩
      by_cases ht : t = σ.finality.idx
      · subst ht
        simp [TransactionStatus.hasRun, hcore.candidate (by rw [hpc]; rfl)]
      · simpa [ht] using hrun
    all_goals exact ⟨rfl, rfl, fun _ hrun => hrun⟩
  obtain ⟨hexec, hfrontier, hstates⟩ := hframe
  refine ⟨?_, fun w pc hpc => (h.sound w pc hpc).mono fun j hj => ?_, fun t hrun => ?_⟩ <;>
    simp only [hexec, hfrontier]
  · exact h.prefixed
  · exact hj
  · exact h.flagged t (hstates t hrun)

omit [DecidableEq W] in
theorem Flags.commit {t' : CommitThread R B} (h : Flags σ)
    (hstep : CommitStep blk σ.shared σ.commit s' t') :
    Flags { σ with shared := s', commit := t' } := by
  have hstates := hstep.columns.2.1
  have hexec : s'.ctx.executed = σ.shared.ctx.executed := by rw [hstep.ctx_eq]
  have hfrontier : s'.ctx.frontier = σ.shared.ctx.frontier := by rw [hstep.ctx_eq]
  refine ⟨?_, fun w pc hpc => (h.sound w pc hpc).mono fun j hj => ?_, ?_⟩ <;>
    simp only [hexec, hfrontier, hstates]
  · exact h.prefixed
  · exact hj
  · exact h.flagged

omit [DecidableEq W] in
theorem flags_initial (backing : B.State) : Flags (initial backing : SchedulerState W R B) where
  prefixed j hj := absurd hj (Nat.not_lt_zero j)
  sound w pc hpc := by cases hpc
  flagged t hrun := absurd rfl hrun.1

theorem flags_of_reach {ok : SchedulerState W R B → Action W → Prop} {backing : B.State}
    (h : ReachableWhen blk backing ok σ) : Flags σ := by
  refine Runs.Reach.invariant h (flags_initial backing) fun σ a σ' hr ih _ hs => ?_
  rcases step_cases hs with ⟨w, shared, pc, hw, rfl⟩ | ⟨shared, t', hf, rfl⟩ | ⟨shared, t', hc, rfl⟩
  · exact ih.worker (core_of_reach hr) hw
  · exact ih.finality (core_of_reach hr) hf
  · exact ih.commit hc

omit [DecidableEq W] in
/-- The frontier passes every prefix of transactions that have run, once
no worker is about to flag one. -/
theorem Flags.le_executionFrontier {f : Nat} (h : Flags σ)
    (hidle : ∀ w, (σ.workers w).isIdle = true)
    (hf : f ≤ blk.size) (hrun : ∀ j, j < f → (σ.shared.txStates j).status.hasRun) :
    f ≤ σ.shared.ctx.executionFrontier blk.size := by
  refine SchedulerContext.le_executionFrontier hf fun j hj => ?_
  rcases h.flagged j (hrun j hj) with hflag | ⟨w, hf⟩
  · exact hflag
  · exact absurd hf (not_flagging_of_isIdle (hidle w))

end

end Grevm
