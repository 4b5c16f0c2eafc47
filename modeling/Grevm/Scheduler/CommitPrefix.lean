/-
Grevm.Scheduler.CommitPrefix — the ordered commit and the abort reasons.

`CommitInv` ties the local state of the commit loop to what it shares:
the outcomes, the committed cursor and the calls of
`ParallelStateCommit::commit` describe one prefix, the results of that
prefix are gone for ever, those of every other final transaction are
present, and an abort reason names a transaction the prefix has reached.
-/
import Grevm.Scheduler.Ownership

namespace Grevm

variable {Err W R : Type} {B : Backing Err}

/-! ## Stages of the commit loop -/

namespace CommitLoopPc

/-- A transaction below the finality cursor is being committed. -/
def inner : CommitLoopPc R B → Nat
  | .take _ | .nonce _ _ _ | .reward _ _ _ _ | .applying _ _ _ | .publish _ | .release _ => 1
  | _ => 0

/-- Its result may have been taken. -/
def taken : CommitLoopPc R B → Nat
  | .nonce _ _ _ | .reward _ _ _ _ | .applying _ _ _ | .publish _ | .release _
  | .aborting _ _ _ | .finished _ => 1
  | _ => 0

/-- Its result has been taken. -/
def gone : CommitLoopPc R B → Nat
  | .nonce _ _ _ | .reward _ _ _ _ | .applying _ _ _ | .publish _ | .release _ => 1
  | _ => 0

/-- Its outcome is in the output. -/
def pushed : CommitLoopPc R B → Nat
  | .publish _ | .release _ => 1
  | _ => 0

/-- The committed cursor counts it. -/
def published : CommitLoopPc R B → Nat
  | .release _ => 1
  | _ => 0

/-- Its change set is being applied. -/
def applyingResult : CommitLoopPc R B → Option R
  | .applying _ result _ => some result
  | _ => none

theorem stages_of_isWaiting {pc : CommitLoopPc R B} (h : pc.isWaiting = true) :
    pc.inner = 0 ∧ pc.taken = 0 ∧ pc.gone = 0 ∧ pc.pushed = 0 ∧ pc.published = 0 ∧
      pc.applyingResult = none := by
  cases pc <;> first | exact ⟨rfl, rfl, rfl, rfl, rfl, rfl⟩ | cases h

/-! The stages are passed in this order. -/

theorem gone_le_inner (pc : CommitLoopPc R B) : pc.gone ≤ pc.inner := by
  cases pc <;> simp [gone, inner]

theorem gone_le_taken (pc : CommitLoopPc R B) : pc.gone ≤ pc.taken := by
  cases pc <;> simp [gone, taken]

theorem published_le_gone (pc : CommitLoopPc R B) : pc.published ≤ pc.gone := by
  cases pc <;> simp [published, gone]

end CommitLoopPc

/-- The positions and results of the executed transactions of a list of
outcomes that starts at position `start`. -/
def executedFrom (start : Nat) : List (TxExecutionOutcome R) → List (Nat × R)
  | [] => []
  | .executed result :: outcomes => (start, result) :: executedFrom (start + 1) outcomes
  | .skipped _ :: outcomes => executedFrom (start + 1) outcomes

theorem executedFrom_append {start : Nat} {xs ys : List (TxExecutionOutcome R)} :
    executedFrom start (xs ++ ys)
      = executedFrom start xs ++ executedFrom (start + xs.length) ys := by
  induction xs generalizing start with
  | nil => rfl
  | cons x xs ih =>
    have hlen : start + (xs.length + 1) = start + 1 + xs.length := by omega
    cases x <;> simp [executedFrom, ih, hlen]

/-- The calls of `commit` as positions and results. -/
def Applied.key (a : Applied R) : Nat × R := (a.txid, a.result)

/-! ## The invariant -/

/-- What an abort reason says about the committed prefix. -/
def ReasonOk (committed : Nat) (commit : CommitThread R B) : AbortReason Err → Prop
  | .fatalEvmError t => t ≤ committed
  | .commitError e => e.txid = commit.idx ∧
      ((∃ reason pc, commit.pc = .aborting reason (some e) pc) ∨ commit.pc = .finished (some e))
  | .parallelError _ _ => False
  | .fallbackSequential => True

structure CommitInv (blk : Block Err R) (σ : SchedulerState W R B) : Prop where
  size : σ.finality.idx ≤ blk.size
  candidate : (∃ use, σ.finality.pc = .candidateLock use) ∨ σ.finality.pc.locks = true →
    σ.finality.idx < blk.size
  behind : σ.commit.idx + σ.commit.pc.inner ≤ σ.shared.ctx.finality
  output : σ.commit.output.length = σ.commit.idx + σ.commit.pc.pushed
  committed : σ.shared.ctx.committed = σ.commit.idx + σ.commit.pc.published
  present : ∀ t, σ.commit.idx + σ.commit.pc.taken ≤ t → t < σ.finality.idx →
    (σ.shared.txResults t).isSome
  gone : ∀ t, t < σ.commit.idx + σ.commit.pc.gone → σ.shared.txResults t = none
  log : σ.commit.applied.map Applied.key = executedFrom 0 σ.commit.output ++
    (σ.commit.pc.applyingResult.map fun result => (σ.commit.idx, result)).toList
  aborting : ∀ reason error pc, σ.commit.pc = .aborting reason error pc →
    reason = .fallbackSequential ∧ error = none ∨
      ∃ e, reason = .commitError e ∧ error = some e ∧ e.txid = σ.commit.idx
  failed : ∀ e, σ.commit.pc = .finished (some e) → e.txid = σ.commit.idx
  reason : ∀ r, σ.shared.abortReason = some r → ReasonOk σ.shared.ctx.committed σ.commit r
  raising : ∀ w v r pc, σ.workers w = .exec v (.errAbort r pc) →
    ReasonOk σ.shared.ctx.committed σ.commit r

/-- The transaction being committed is final. -/
theorem CommitInv.inner_le {blk : Block Err R} {σ : SchedulerState W R B} (h : CommitInv blk σ)
    (hcore : Core σ) : σ.commit.idx + σ.commit.pc.inner ≤ σ.finality.idx :=
  h.behind.trans hcore.finality_le

/-! ## Workers -/

section

variable {blk : Block Err R} {s s' : Shared W R B} {p' : WorkerPc R B} {σ : SchedulerState W R B}
  {w : W}

/-- `abort` keeps the first reason. -/
theorem Shared.abortStep_reason {reason : AbortReason Err} {pc : AbortPc}
    {next : Option AbortPc} (h : s.abortStep reason pc = (s', next)) :
    s'.abortReason = s.abortReason ∨ s'.abortReason = s.abortReason.or (some reason) := by
  cases pc <;> cases h <;> first | exact .inl rfl | exact .inr rfl

/-- A worker stores a reason only from the error branch of an
execution. -/
theorem Core.worker_reason (h : Core σ) (hstep : WorkerStep blk w σ.shared (σ.workers w) s' p') :
    s'.abortReason = σ.shared.abortReason ∨ ∃ v r pc, σ.workers w = .exec v (.errAbort r pc) ∧
      s'.abortReason = σ.shared.abortReason.or (some r) := by
  have hown := h.owned w
  generalize hpc : σ.workers w = p at hstep hown
  cases hstep with
  | @exec v pc s' p' hs =>
    have hok := (hown v rfl).2
    cases hs
    case errAbort h | errAborted h =>
      exact (Shared.abortStep_reason h).imp_right fun hr => ⟨_, _, _, rfl, hr⟩
    case parallelError | parallelErrorEnd => exact hok.elim
    case frontierFinish => rename_i tail _ _ _ _ _; cases tail <;> exact .inl rfl
    case rewindFinish => rename_i tail _ _ _; cases tail <;> exact .inl rfl
    all_goals exact .inl rfl
  | @val v pc s' p' hs =>
    have hok := (hown v rfl).2
    cases hs
    case parallelError | parallelErrorEnd => exact hok.elim
    all_goals exact .inl rfl
  | _ => exact .inl rfl

/-- A worker about to abort the block has seen the committed cursor at
its transaction. -/
theorem WorkerStep.raising {p : WorkerPc R B} {v : TxVersion} {r : AbortReason Err} {pc : AbortPc}
    (hstep : WorkerStep blk w s p s' (.exec v (.errAbort r pc))) :
    r = .fallbackSequential ∨ r = .fatalEvmError v.txid ∧ s.ctx.committed = v.txid ∨
      ∃ pc, p = .exec v (.errAbort r pc) := by
  generalize hp' : WorkerPc.exec v (ExecPc.errAbort r pc) = p' at hstep
  cases hstep with
  | idle _ hp | frontier _ _ hp => subst hp'; cases hp
  | @execute v' =>
    simp only [WorkerPc.exec.injEq] at hp'
    obtain ⟨-, hp'⟩ := hp'
    cases hprog : blk.spec v'.txid with
    | read call k => rw [hprog] at hp'; cases hp'
    | done res => rw [hprog] at hp'; cases res <;> cases hp'
  | busy => rename_i fromNext _ _; cases fromNext <;> cases hp'
  | uselessRemoved => rename_i fromNext _ _ _ _ _; cases fromNext <;> cases hp'
  | @exec v' pc₀ _ _ hs =>
    cases hs with
    | @answer db k _ _ _ a _ =>
      simp only [WorkerPc.exec.injEq] at hp'
      obtain ⟨-, hp'⟩ := hp'
      cases hprog : k a with
      | read call k => rw [hprog] at hp'; cases hp'
      | done res => rw [hprog] at hp'; cases res <;> cases hp'
    | errRecord =>
      rename_i db _ _ _
      simp only [WorkerPc.exec.injEq] at hp'
      obtain ⟨-, hp'⟩ := hp'
      split at hp' <;> cases hp'
    | errAtHead h =>
      simp only [WorkerPc.exec.injEq, ExecPc.errAbort.injEq] at hp'
      obtain ⟨rfl, rfl, -⟩ := hp'
      split
      · exact .inl rfl
      · exact .inr (.inl ⟨rfl, h⟩)
    | errAbort h =>
      cases hp'
      exact .inr (.inr ⟨_, rfl⟩)
    | frontierFinish => rename_i tail _ _ _ _ _; cases tail <;> cases hp'
    | rewindFinish => rename_i tail _ _ _; cases tail <;> cases hp'
    | _ => cases hp'
  | @val v' pc₀ _ _ hs =>
    cases hs <;> cases hp'
  | _ => cases hp'

theorem CommitInv.worker [DecidableEq W] (h : CommitInv blk σ) (hcore : Core σ)
    (hstep : WorkerStep blk w σ.shared (σ.workers w) s' p') :
    CommitInv blk { σ with shared := s', workers := Function.update σ.workers w p' } := by
  obtain ⟨hf, hc⟩ := hstep.cursors
  have hres : ∀ t, t < σ.finality.idx → s'.txResults t = σ.shared.txResults t := fun t ht =>
    congrArg Column.result (hcore.worker_sameAt hstep ((hcore.final t).mpr ht)).1
  refine ⟨h.size, h.candidate, hf ▸ h.behind, h.output, hc ▸ h.committed, fun t ht hlt => ?_,
    fun t ht => ?_, h.log, h.aborting, h.failed, fun r hr => ?_, fun w' v r pc hw => ?_⟩
  · rw [hres t hlt]
    exact h.present t ht hlt
  · have hgone : σ.commit.idx + σ.commit.pc.gone ≤ σ.finality.idx :=
      (Nat.add_le_add_left σ.commit.pc.gone_le_inner _).trans (h.inner_le hcore)
    rw [hres t (Nat.lt_of_lt_of_le ht hgone)]
    exact h.gone t ht
  · simp only [hc]
    rcases hcore.worker_reason hstep with heq | ⟨v, r', pc, hpc, heq⟩
    · exact h.reason r (heq ▸ hr)
    · rw [heq] at hr
      cases hold : σ.shared.abortReason with
      | some r₀ =>
        rw [hold] at hr
        cases hr
        exact h.reason _ hold
      | none =>
        rw [hold] at hr
        cases hr
        exact h.raising w v _ pc hpc
  · simp only [hc]
    by_cases hww : w' = w
    · subst hww
      simp only [Function.update_self] at hw
      subst hw
      rcases hstep.raising with rfl | ⟨rfl, hcom⟩ | ⟨pc', hp⟩
      · trivial
      · exact Nat.le_of_eq hcom.symm
      · exact h.raising w' v r pc' hp
    · simp only [Function.update_of_ne hww] at hw
      exact h.raising w' v r pc hw

/-! ## The finality thread -/

/-- Nothing of the commit loop depends on what a quiet step of the
finality thread changes. -/
theorem CommitInv.finalityMove (h : CommitInv blk σ) {t' : FinalityThread}
    (hsize : t'.idx ≤ blk.size)
    (hcand : (∃ use, t'.pc = .candidateLock use) ∨ t'.pc.locks = true → t'.idx < blk.size)
    (hfin : σ.shared.ctx.finality ≤ s'.ctx.finality)
    (hcom : s'.ctx.committed = σ.shared.ctx.committed)
    (hres : s'.txResults = σ.shared.txResults) (hab : s'.abortReason = σ.shared.abortReason)
    (hnew : ∀ t, t < t'.idx → t < σ.finality.idx ∨ (σ.shared.txResults t).isSome) :
    CommitInv blk { σ with shared := s', finality := t' } := by
  refine ⟨hsize, hcand, Nat.le_trans h.behind hfin, h.output, hcom ▸ h.committed,
    fun t ht hlt => ?_, fun t ht => ?_, h.log, h.aborting, h.failed, fun r hr => ?_,
    fun w v r pc hw => ?_⟩
  · simp only [hres]
    exact (hnew t hlt).elim (h.present t ht) id
  · simp only [hres]
    exact h.gone t ht
  · simp only [hcom]
    exact h.reason r (hab ▸ hr)
  · simp only [hcom]
    exact h.raising w v r pc hw

theorem CommitInv.finality (h : CommitInv blk σ) (hcore : Core σ) {t' : FinalityThread}
    (hstep : FinalityStep blk σ.shared σ.finality s' t') :
    CommitInv blk { σ with shared := s', finality := t' } := by
  have hcur := hcore.cursor
  cases hstep with
  | move hpc hpc' hlt =>
    obtain ⟨h3, -⟩ := FinalityPc.locks_of_isQuiet hpc'
    refine h.finalityMove h.size (fun hc => ?_) (Nat.le_refl _) rfl rfl rfl fun t ht => .inl ht
    rcases hc with ⟨use, hu⟩ | hc
    · exact hlt use hu
    · simp [h3] at hc
  | lock hpc hl hs =>
    exact h.finalityMove h.size (fun _ => h.candidate (.inl ⟨_, hpc⟩)) (Nat.le_refl _) rfl rfl rfl
      fun t ht => .inl ht
  | lower hpc =>
    exact h.finalityMove h.size (fun _ => h.candidate (.inr (by rw [hpc]; rfl))) (Nat.le_refl _)
      rfl rfl rfl fun t ht => .inl ht
  | finalize hpc hts =>
    have hlocks : σ.finality.pc.locks = true := by rw [hpc]; rfl
    have hlt := h.candidate (.inr hlocks)
    have hun := hcore.candidate hlocks
    have hk : σ.shared.txLocks σ.finality.idx = some .finality :=
      (hcore.finalityLock _).mpr ⟨hlocks, rfl⟩
    have hfree := hcore.free σ.finality.idx (by simp [hk])
    simp only [Column.FreeOk, Shared.column, hun] at hfree
    refine h.finalityMove hlt (by rintro (⟨_, hu⟩ | hu) <;> cases hu) (Nat.le_refl _) rfl rfl rfl
      fun t ht => ?_
    rcases Nat.lt_succ_iff_lt_or_eq.mp ht with ht | rfl
    · exact .inl ht
    · exact .inr hfree.2
  | unlock hpc hpc' hno =>
    obtain ⟨h3, -⟩ := FinalityPc.locks_of_isQuiet hpc'
    refine h.finalityMove h.size (fun hc => ?_) (Nat.le_refl _) rfl rfl rfl fun t ht => .inl ht
    rcases hc with ⟨use, hu⟩ | hc
    · exact absurd hu (hno use)
    · simp [h3] at hc
  | publish hpc hpc' hno =>
    obtain ⟨h3, -⟩ := FinalityPc.locks_of_isQuiet hpc'
    refine h.finalityMove h.size (fun hc => ?_) ?_ rfl rfl rfl fun t ht => .inl ht
    · rcases hc with ⟨use, hu⟩ | hc
      · exact absurd hu (hno use)
      · simp [h3] at hc
    · exact hcur ▸ Nat.le_add_right _ _

/-! ## The commit thread -/

/-- The commit loop goes on with the same transaction. -/
theorem ReasonOk.mono {committed committed' : Nat} {t t' : CommitThread R B}
    {r : AbortReason Err} (h : ReasonOk committed t r) (hle : committed ≤ committed')
    (hpc : (∀ reason e pc, t.pc ≠ .aborting reason (some e) pc) ∧ ∀ e, t.pc ≠ .finished (some e)) :
    ReasonOk committed' t' r := by
  cases r with
  | fatalEvmError t => exact Nat.le_trans h hle
  | commitError e =>
    rcases h.2 with ⟨reason, pc, hp⟩ | hp
    · exact absurd hp (hpc.1 reason e pc)
    · exact absurd hp (hpc.2 e)
  | parallelError => exact h
  | fallbackSequential => trivial

/-- The fields of the commit invariant that a step of the commit thread
has to establish again, when it stores no reason and was not aborting. -/
theorem CommitInv.commitMove (h : CommitInv blk σ) {t' : CommitThread R B}
    (hpc : (∀ reason e pc, σ.commit.pc ≠ .aborting reason (some e) pc) ∧
      ∀ e, σ.commit.pc ≠ .finished (some e))
    (hfin : s'.ctx.finality = σ.shared.ctx.finality)
    (hcom : σ.shared.ctx.committed ≤ s'.ctx.committed)
    (hab : s'.abortReason = σ.shared.abortReason)
    (behind : t'.idx + t'.pc.inner ≤ σ.shared.ctx.finality)
    (output : t'.output.length = t'.idx + t'.pc.pushed)
    (committed : s'.ctx.committed = t'.idx + t'.pc.published)
    (present : ∀ t, t'.idx + t'.pc.taken ≤ t → t < σ.finality.idx → (s'.txResults t).isSome)
    (gone : ∀ t, t < t'.idx + t'.pc.gone → s'.txResults t = none)
    (log : t'.applied.map Applied.key = executedFrom 0 t'.output ++
      (t'.pc.applyingResult.map fun result => (t'.idx, result)).toList)
    (aborting : ∀ reason error pc, t'.pc = .aborting reason error pc →
      reason = .fallbackSequential ∧ error = none ∨
        ∃ e, reason = .commitError e ∧ error = some e ∧ e.txid = t'.idx)
    (failed : ∀ e, t'.pc ≠ .finished (some e)) :
    CommitInv blk { σ with shared := s', commit := t' } where
  size := h.size
  candidate := h.candidate
  behind := hfin ▸ behind
  output := output
  committed := committed
  present := present
  gone := gone
  log := log
  aborting := aborting
  failed e he := absurd he (failed e)
  reason r hr := (h.reason r (hab ▸ hr)).mono hcom hpc
  raising w v r pc hw := (h.raising w v r pc hw).mono hcom hpc

theorem startReward_cases {t t' : CommitThread R B} {previous : Nat} {x : SpeculativeResult R}
    (h : startReward blk t previous x = some t') :
    (∃ amount, x.deferredReward = some amount ∧
      t' = { t with pc := .reward previous x amount (B.basicStart blk.beneficiary) }) ∨
    x.deferredReward = none ∧ t' = startApply t previous x.result x.state := by
  unfold startReward at h
  split at h
  · split at h <;> cases h
    exact .inl ⟨_, ‹_›, rfl⟩
  · cases h
    exact .inr ⟨‹_›, rfl⟩

/-- The result of the transaction is taken and its commit begins, or
goes on towards the change set. -/
theorem CommitInv.commitInner (h : CommitInv blk σ) {t' : CommitThread R B}
    (hpc : (∀ reason e pc, σ.commit.pc ≠ .aborting reason (some e) pc) ∧
      ∀ e, σ.commit.pc ≠ .finished (some e))
    (hin : σ.commit.pc.inner = 1) (hpushed : σ.commit.pc.pushed = 0)
    (hpub : σ.commit.pc.published = 0) (happ : σ.commit.pc.applyingResult = none)
    (hidx : t'.idx = σ.commit.idx) (hout : t'.output = σ.commit.output)
    (hin' : t'.pc.inner = 1) (htaken' : t'.pc.taken = 1) (hpushed' : t'.pc.pushed = 0)
    (hpub' : t'.pc.published = 0)
    (hctx : s'.ctx = σ.shared.ctx) (hab : s'.abortReason = σ.shared.abortReason)
    (present : ∀ t, σ.commit.idx + 1 ≤ t → t < σ.finality.idx → (s'.txResults t).isSome)
    (gone : ∀ t, t < σ.commit.idx + 1 → s'.txResults t = none)
    (happlied : t'.applied.map Applied.key = σ.commit.applied.map Applied.key ++
      (t'.pc.applyingResult.map fun result => (σ.commit.idx, result)).toList) :
    CommitInv blk { σ with shared := s', commit := t' } := by
  have hgone' := t'.pc.gone_le_taken
  have hb := h.behind
  have ho := h.output
  have hc := h.committed
  refine h.commitMove hpc (by rw [hctx]) (by rw [hctx]) hab ?_ ?_ ?_ ?_ ?_ ?_ ?_ ?_
  · omega
  · rw [hout]
    omega
  · rw [hctx]
    omega
  · rw [hidx, htaken']
    exact present
  · intro t ht
    exact gone t (by omega)
  · have hlog := h.log
    rw [happ, Option.map_none, Option.toList_none, List.append_nil] at hlog
    rw [happlied, hlog, hout, hidx]
  · intro reason error pc hp
    rw [hp] at hin'
    cases hin'
  · intro e hp
    rw [hp] at hin'
    cases hin'

/-- `OrderedCommitter::commit` from the nonce check on. -/
theorem CommitInv.startReward (h : CommitInv blk σ) {t' : CommitThread R B} {previous : Nat}
    {x : SpeculativeResult R}
    (hpc : (∀ reason e pc, σ.commit.pc ≠ .aborting reason (some e) pc) ∧
      ∀ e, σ.commit.pc ≠ .finished (some e))
    (hin : σ.commit.pc.inner = 1) (hpushed : σ.commit.pc.pushed = 0)
    (hpub : σ.commit.pc.published = 0) (happ : σ.commit.pc.applyingResult = none)
    (hctx : s'.ctx = σ.shared.ctx) (hab : s'.abortReason = σ.shared.abortReason)
    (present : ∀ t, σ.commit.idx + 1 ≤ t → t < σ.finality.idx → (s'.txResults t).isSome)
    (gone : ∀ t, t < σ.commit.idx + 1 → s'.txResults t = none)
    (ht : Grevm.startReward blk σ.commit previous x = some t') :
    CommitInv blk { σ with shared := s', commit := t' } := by
  rcases startReward_cases ht with ⟨amount, -, rfl⟩ | ⟨-, rfl⟩
  · exact h.commitInner hpc hin hpushed hpub happ rfl rfl rfl rfl rfl rfl hctx hab present gone
      (by simp [CommitLoopPc.applyingResult])
  · exact h.commitInner hpc hin hpushed hpub happ rfl rfl rfl rfl rfl rfl hctx hab present gone
      (by simp [startApply, CommitLoopPc.applyingResult, Applied.key])

/-- The commit of a taken result is given up. -/
theorem CommitInv.commitGiveUp (h : CommitInv blk σ) {backing : B.State}
    {reason : AbortReason Err} {error : Option (GrevmError Err)}
    (hpc : (∃ previous x pc, σ.commit.pc = .nonce previous x pc) ∨
      ∃ previous x amount pc, σ.commit.pc = .reward previous x amount pc)
    (hreason : reason = .fallbackSequential ∧ error = none ∨
      ∃ e, reason = .commitError e ∧ error = some e ∧ e.txid = σ.commit.idx) :
    CommitInv blk { σ with
      shared := { σ.shared with backing }
      commit := { σ.commit with pc := .aborting reason error .reason } } := by
  obtain ⟨hne, htaken, hpushed, hpub, happ⟩ :
      ((∀ reason e pc, σ.commit.pc ≠ .aborting reason (some e) pc) ∧
        ∀ e, σ.commit.pc ≠ .finished (some e)) ∧ σ.commit.pc.taken = 1 ∧
        σ.commit.pc.pushed = 0 ∧ σ.commit.pc.published = 0 ∧ σ.commit.pc.applyingResult = none := by
    rcases hpc with ⟨_, _, _, hpc⟩ | ⟨_, _, _, _, hpc⟩ <;>
      simp [hpc, CommitLoopPc.taken, CommitLoopPc.pushed, CommitLoopPc.published,
        CommitLoopPc.applyingResult]
  have ho := h.output
  have hc := h.committed
  have hp := h.present
  have hl := h.log
  rw [htaken] at hp
  rw [hpushed] at ho
  rw [hpub] at hc
  rw [happ] at hl
  refine h.commitMove hne rfl (Nat.le_refl _) rfl ((Nat.le_add_right _ _).trans h.behind) ho hc hp
    (fun t ht => h.gone t (Nat.lt_of_lt_of_le ht (Nat.le_add_right _ _))) hl ?_
    fun _ hp => by cases hp
  intro reason' error' pc hp
  cases hp
  exact hreason

/-- The commit loop stores its own reasons. -/
theorem CommitInv.commitAbort (h : CommitInv blk σ) {reason : AbortReason Err}
    {error : Option (GrevmError Err)} {pc : AbortPc} {next : Option AbortPc}
    {pc' : CommitLoopPc R B} (hpc : σ.commit.pc = .aborting reason error pc)
    (ha : σ.shared.abortStep reason pc = (s', next))
    (hpc' : (∃ pc'', pc' = .aborting reason error pc'') ∨ pc' = .finished error) :
    CommitInv blk { σ with shared := s', commit := { σ.commit with pc := pc' } } := by
  have hb := h.behind
  have ho := h.output
  have hc := h.committed
  have hp := h.present
  have hg := h.gone
  have hl := h.log
  have hkeep : ∀ r, ReasonOk σ.shared.ctx.committed σ.commit r →
      ReasonOk σ.shared.ctx.committed { σ.commit with pc := pc' } r := by
    intro r hr
    cases r with
    | commitError e =>
      obtain ⟨he, hold⟩ := hr
      have herr : error = some e := by
        rcases hold with ⟨reason', pc₀, hpc₀⟩ | hpc₀
        · rw [hpc] at hpc₀
          cases hpc₀
          rfl
        · rw [hpc] at hpc₀
          cases hpc₀
      subst herr
      refine ⟨he, ?_⟩
      rcases hpc' with ⟨pc'', rfl⟩ | rfl
      · exact .inl ⟨_, _, rfl⟩
      · exact .inr rfl
    | _ => exact hr
  have hstages : pc'.inner = 0 ∧ pc'.pushed = 0 ∧ pc'.published = 0 ∧ pc'.taken = 1 ∧
      pc'.gone = 0 ∧ pc'.applyingResult = none := by
    rcases hpc' with ⟨pc'', rfl⟩ | rfl <;> exact ⟨rfl, rfl, rfl, rfl, rfl, rfl⟩
  have hab := h.aborting reason error pc hpc
  rw [hpc] at hb ho hc hp hg hl
  obtain ⟨h1, h2, h3, h4, h5, h6⟩ := hstages
  obtain ⟨hres, hctx⟩ : s'.txResults = σ.shared.txResults ∧ s'.ctx = σ.shared.ctx := by
    obtain ⟨_, _, _, _, rfl⟩ := Shared.abortStep_eq ha
    exact ⟨rfl, rfl⟩
  refine ⟨h.size, h.candidate, ?_, ?_, ?_, ?_, ?_, ?_, ?_, ?_, ?_, ?_⟩
  · simp only [hctx, h1]
    exact hb
  · simp only [h2]
    exact ho
  · simp only [hctx, h3]
    exact hc
  · simp only [hres, h4]
    exact hp
  · simp only [hres, h5]
    exact hg
  · simp only [h6]
    exact hl
  · intro reason' error' pc₀ hpc₀
    rcases hpc' with ⟨pc'', rfl⟩ | rfl <;> cases hpc₀
    exact hab
  · intro e he
    rcases hpc' with ⟨pc'', rfl⟩ | rfl
    · cases he
    · cases he
      rcases hab with ⟨-, h0⟩ | ⟨e', -, h0, h0'⟩
      · cases h0
      · cases h0
        exact h0'
  · intro r hr
    simp only [hctx]
    refine hkeep r ?_
    rcases Shared.abortStep_reason ha with heq | heq
    · exact h.reason r (heq ▸ hr)
    · cases hold : σ.shared.abortReason with
      | some r₀ =>
        rw [heq, hold] at hr
        cases hr
        exact h.reason _ hold
      | none =>
        rw [heq, hold] at hr
        cases hr
        rcases hab with ⟨rfl, -⟩ | ⟨e, rfl, rfl, he⟩
        · trivial
        · exact ⟨he, .inl ⟨_, _, hpc⟩⟩
  · intro w v r pc₀ hw
    simp only [hctx]
    exact hkeep r (h.raising w v r pc₀ hw)

/-- Taking a result leaves the later ones. -/
theorem present_of_take {idx n : Nat}
    (h : ∀ t, idx ≤ t → t < n → (s.txResults t).isSome) (t : Nat) (ht : idx + 1 ≤ t)
    (hlt : t < n) : ((s.setResult idx none).txResults t).isSome := by
  rw [Shared.setResult_txResults, Function.update_of_ne (by omega)]
  exact h t (by omega) hlt

theorem gone_of_take {idx : Nat} (h : ∀ t, t < idx → s.txResults t = none) (t : Nat)
    (ht : t < idx + 1) : (s.setResult idx none).txResults t = none := by
  by_cases heq : t = idx
  · simp [heq]
  · rw [Shared.setResult_txResults, Function.update_of_ne heq]
    exact h t (by omega)

/-- A final transaction that was not taken has a successful result. -/
theorem CommitInv.result_ok (h : CommitInv blk σ) (hcore : Core σ) {t : Nat}
    (ht : σ.commit.idx + σ.commit.pc.taken ≤ t) (hlt : t < σ.finality.idx) :
    ∃ r x, σ.shared.txResults t = some r ∧ r.executeResult = .ok x := by
  obtain ⟨r, hr⟩ := Option.isSome_iff_exists.mp (h.present t ht hlt)
  have hpub := hcore.published_of_final ((hcore.final t).mpr hlt)
  obtain ⟨x, hx⟩ := (hpub.result r hr).1
  exact ⟨r, x, hr, hx⟩

theorem CommitInv.commit (h : CommitInv blk σ) (hcore : Core σ) {t' : CommitThread R B}
    (hstep : CommitStep blk σ.shared σ.commit s' t') :
    CommitInv blk { σ with shared := s', commit := t' } := by
  have hb := h.behind
  have ho := h.output
  have hc := h.committed
  have hp := h.present
  have hg := h.gone
  have hl := h.log
  cases hstep with
  | wait hpc hpc' =>
    obtain ⟨a1, a2, a3, a4, a5, a6⟩ := CommitLoopPc.stages_of_isWaiting hpc
    obtain ⟨b1, b2, b3, b4, b5, b6⟩ := CommitLoopPc.stages_of_isWaiting hpc'
    rw [a1] at hb; rw [a2] at hp; rw [a3] at hg; rw [a4] at ho; rw [a5] at hc; rw [a6] at hl
    refine h.commitMove ⟨fun _ _ _ hpc₀ => ?_, fun _ hpc₀ => ?_⟩ rfl (Nat.le_refl _) rfl
      (by rw [b1]; exact hb) (by rw [b4]; exact ho) (by rw [b5]; exact hc) (by rw [b2]; exact hp)
      (by rw [b3]; exact hg) (by rw [b6]; exact hl) (fun _ _ _ hpc₀ => ?_) fun _ hpc₀ => ?_
    · rw [hpc₀] at hpc; cases hpc
    · rw [hpc₀] at hpc; cases hpc
    · dsimp only at hpc₀; rw [hpc₀] at hpc'; cases hpc'
    · dsimp only at hpc₀; rw [hpc₀] at hpc'; cases hpc'
  | leave hpc hab =>
    rw [hpc] at hb ho hc hp hg hl
    exact h.commitMove ⟨by simp [hpc], by simp [hpc]⟩ rfl (Nat.le_refl _) rfl hb ho hc
      (fun t ht => hp t (Nat.le_of_succ_le ht)) hg hl (fun _ _ _ hp => by cases hp)
      fun _ hp => by cases hp
  | enter hpc hlt | apply hpc hs =>
    rw [hpc] at hb ho hc hp hg hl
    exact h.commitMove ⟨by simp [hpc], by simp [hpc]⟩ rfl (Nat.le_refl _) rfl hb ho hc hp hg hl
      (fun _ _ _ hp => by cases hp) fun _ hp => by cases hp
  | drained hpc hle hpc' =>
    obtain ⟨b1, b2, b3, b4, b5, b6⟩ := CommitLoopPc.stages_of_isWaiting hpc'
    rw [hpc] at hb ho hc hp hg hl
    refine h.commitMove ⟨by simp [hpc], by simp [hpc]⟩ rfl (Nat.le_refl _) rfl
      (by rw [b1]; exact hb) (by rw [b4]; exact ho) (by rw [b5]; exact hc) (by rw [b2]; exact hp)
      (by rw [b3]; exact hg) (by rw [b6]; exact hl) (fun _ _ _ hpc₀ => ?_) fun _ hpc₀ => ?_
    · dsimp only at hpc₀; rw [hpc₀] at hpc'; cases hpc'
    · dsimp only at hpc₀; rw [hpc₀] at hpc'; cases hpc'
  | ready hpc hlt =>
    rw [hpc] at ho hc hp hg hl
    exact h.commitMove ⟨by simp [hpc], by simp [hpc]⟩ rfl (Nat.le_refl _) rfl hlt ho hc hp hg hl
      (fun _ _ _ hp => by cases hp) fun _ hp => by cases hp
  | @takeFailed previous message hpc hbad =>
    obtain ⟨r, x, hr, hx⟩ := h.result_ok hcore (t := σ.commit.idx)
      (by rw [hpc]; exact Nat.le_refl _) (hcore.taking_lt hpc)
    obtain ⟨e, he⟩ := hbad r hr
    rw [hx] at he
    cases he
  | @takeNonce previous r x hpc hr hx hn =>
    rw [hpc] at hp hg
    exact h.commitInner ⟨by simp [hpc], by simp [hpc]⟩ (by rw [hpc]; rfl) (by rw [hpc]; rfl)
      (by rw [hpc]; rfl) (by rw [hpc]; rfl) rfl rfl rfl rfl rfl rfl rfl rfl
      (present_of_take hp) (gone_of_take hg) (by simp [CommitLoopPc.applyingResult])
  | @take previous r x t' hpc hr hx hn ht =>
    rw [hpc] at hp hg
    exact h.startReward ⟨by simp [hpc], by simp [hpc]⟩ (by rw [hpc]; rfl) (by rw [hpc]; rfl)
      (by rw [hpc]; rfl) (by rw [hpc]; rfl) rfl rfl (present_of_take hp) (gone_of_take hg) ht
  | nonce hpc hs | reward hpc hs =>
    rw [hpc] at hp hg
    exact h.commitInner ⟨by simp [hpc], by simp [hpc]⟩ (by rw [hpc]; rfl) (by rw [hpc]; rfl)
      (by rw [hpc]; rfl) (by rw [hpc]; rfl) rfl rfl rfl rfl rfl rfl rfl rfl hp hg
      (by simp [CommitLoopPc.applyingResult])
  | nonceError hpc hs =>
    exact h.commitGiveUp (.inl ⟨_, _, _, hpc⟩) (.inr ⟨_, rfl, rfl, rfl⟩)
  | @nonceMatch previous x pc backing info t' hpc hs hn ht =>
    rw [hpc] at hp hg
    exact h.startReward ⟨by simp [hpc], by simp [hpc]⟩ (by rw [hpc]; rfl) (by rw [hpc]; rfl)
      (by rw [hpc]; rfl) (by rw [hpc]; rfl) rfl rfl hp hg ht
  | nonceMismatch hpc hs hn => exact h.commitGiveUp (.inl ⟨_, _, _, hpc⟩) (.inl ⟨rfl, rfl⟩)
  | rewardError hpc hs =>
    exact h.commitGiveUp (.inr ⟨_, _, _, _, hpc⟩) (.inr ⟨_, rfl, rfl, rfl⟩)
  | rewarded hpc hs =>
    rw [hpc] at hp hg
    exact h.commitInner ⟨by simp [hpc], by simp [hpc]⟩ (by rw [hpc]; rfl) (by rw [hpc]; rfl)
      (by rw [hpc]; rfl) (by rw [hpc]; rfl) rfl rfl rfl rfl rfl rfl rfl rfl hp hg
      (by simp [startApply, CommitLoopPc.applyingResult, Applied.key])
  | @applied previous result pc c backing hpc hs =>
    rw [hpc] at hb ho hc hp hg hl
    have ho : σ.commit.output.length = σ.commit.idx := ho
    refine h.commitMove ⟨by simp [hpc], by simp [hpc]⟩ rfl (Nat.le_refl _) rfl hb ?_ hc hp hg ?_
      (fun _ _ _ hp => by cases hp) fun _ hp => by cases hp
    · simp [ho, CommitLoopPc.pushed]
    · rw [hl, executedFrom_append, ho]
      simp [CommitLoopPc.applyingResult, executedFrom]
  | publish hpc =>
    rw [hpc] at hb ho hc hp hg hl
    have ho : σ.commit.output.length = σ.commit.idx + 1 := ho
    have hc : σ.shared.ctx.committed = σ.commit.idx := hc
    refine h.commitMove ⟨by simp [hpc], by simp [hpc]⟩ rfl ?_ rfl hb ho ho hp hg hl
      (fun _ _ _ hp => by cases hp) fun _ hp => by cases hp
    simp only [ho, hc]
    exact Nat.le_succ _
  | release hpc hd =>
    rw [hpc] at hb ho hc hp hg hl
    have ho : σ.commit.output.length = σ.commit.idx + 1 := ho
    have hc : σ.shared.ctx.committed = σ.commit.idx + 1 := hc
    refine h.commitMove ⟨by simp [hpc], by simp [hpc]⟩ rfl (Nat.le_refl _) rfl ?_ ?_ ?_ ?_ ?_ ?_
      (fun _ _ _ hp => by cases hp) fun _ hp => by cases hp
    · simp only [ho]
      exact hb
    · simp [CommitLoopPc.pushed]
    · simp only [ho]
      exact hc
    · simp only [ho]
      exact hp
    · simp only [ho]
      exact hg
    · simpa [CommitLoopPc.applyingResult] using hl
  | abort hpc ha => exact h.commitAbort hpc ha (.inl ⟨_, rfl⟩)
  | aborted hpc ha => exact h.commitAbort hpc ha (.inr rfl)

end

theorem commitInv_initial (blk : Block Err R) (backing : B.State) :
    CommitInv blk (initial backing : SchedulerState W R B) where
  size := Nat.zero_le _
  candidate h := by rcases h with ⟨_, h⟩ | h <;> cases h
  behind := Nat.le_refl _
  output := rfl
  committed := rfl
  present t _ ht := absurd ht (Nat.not_lt_zero t)
  gone t ht := absurd ht (Nat.not_lt_zero t)
  log := rfl
  aborting _ _ _ h := by cases h
  failed _ h := by cases h
  reason _ h := by cases h
  raising _ _ _ _ h := by cases h

/-- The commit invariant holds in every run. -/
theorem commitInv_of_reach [DecidableEq W] {blk : Block Err R}
    {ok : SchedulerState W R B → Action W → Prop} {backing : B.State}
    {σ : SchedulerState W R B} (h : ReachableWhen blk backing ok σ) : CommitInv blk σ := by
  refine h.invariant (commitInv_initial blk backing) fun σ a σ' hr ih _ hs => ?_
  have hcore := core_of_reach hr
  rcases step_cases hs with ⟨w, shared, pc, hw, rfl⟩ | ⟨shared, t', hf, rfl⟩ | ⟨shared, t', hc, rfl⟩
  · exact ih.worker hcore hw
  · exact ih.finality hcore hf
  · exact ih.commit hcore hc

end Grevm
