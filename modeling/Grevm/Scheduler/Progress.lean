/-
Grevm.Scheduler.Progress — the scheduler never gets stuck.

The queue of retries (`Grevm.Scheduler.Requeue`), the frontier
(`Grevm.Scheduler.Frontier`) and the validation cursor
(`Grevm.Scheduler.Revalidate`) each keep their own work reachable. Put
together: when no worker holds anything, everything final is committed
and both cursors have run out, the block is final or the finality thread
can take its next transaction.
-/
import Grevm.Scheduler.Frontier
import Grevm.Scheduler.Requeue
import Grevm.Scheduler.Revalidate

namespace Grevm

variable {Err W R : Type} {B : Backing Err}

/-! ## States in which the workers have nothing to do -/

/-- `lock_finality_candidate` without interleaving: the effective lower
bound of an eligible candidate. -/
def lockFinalityCandidate (blk : Block Err R) (s : Shared W R B) (finalityIdx lowerTs : Nat) :
    Option Nat :=
  if blk.size ≤ finalityIdx ∨ s.ctx.validation ≤ finalityIdx then none
  else if (s.txStates finalityIdx).status ≠ .unconfirmed then none
  else
    let effectiveLowerTs := max lowerTs (s.ctx.lowerTimestamps finalityIdx)
    if effectiveLowerTs < s.ctx.unconfirmedTimestamps finalityIdx then some effectiveLowerTs
    else none

theorem isSome_lockFinalityCandidate {blk : Block Err R} {s : Shared W R B} {i ts : Nat} :
    (lockFinalityCandidate blk s i ts).isSome ↔
      i < blk.size ∧ i < s.ctx.validation ∧ (s.txStates i).status = .unconfirmed ∧
        max ts (s.ctx.lowerTimestamps i) < s.ctx.unconfirmedTimestamps i := by
  simp only [lockFinalityCandidate]
  split
  · simp only [Option.isSome_none, Bool.false_eq_true, false_iff]
    omega
  · split
    · simp_all
    · split <;> simp_all

/-- No worker holds a claimed index or a task, everything final is
committed and released, and neither cursor has anything left to hand
out. -/
structure Quiescent (blk : Block Err R) (σ : SchedulerState W R B) : Prop where
  idle : ∀ w, (σ.workers w).isIdle = true
  committed : σ.commit.idx = σ.finality.idx
  execution : blk.size ≤ σ.shared.txDependency.index
  validation : σ.shared.ctx.executionFrontier blk.size ≤ σ.shared.ctx.validation

section

variable {blk : Block Err R} {σ : SchedulerState W R B} {t : Nat}

theorem Requeued.onboard_of_idle (h : Requeued σ.shared.txDependency σ.tokens t)
    (hidle : ∀ w, (σ.workers w).isIdle = true) :
    (σ.shared.txDependency.dependentState t).onboard = true := by
  rcases h with hb | ⟨w, hw⟩
  · exact hb
  · rw [SchedulerState.tokens, tokens_of_isIdle (hidle w)] at hw
    cases hw

theorem Live.onboard_of_idle (h : Live σ.shared.txDependency σ.tokens t)
    (hidle : ∀ w, (σ.workers w).isIdle = true) :
    (σ.shared.txDependency.dependentState t).onboard = true := by
  rcases h with hb | ⟨w, hw⟩
  · exact hb
  · rw [SchedulerState.tokens, tokens_of_isIdle (hidle w)] at hw
    rcases hw with hw | hw <;> cases hw

theorem Reached.index_le_of_idle (h : Reached σ.shared.txDependency σ.tokens t)
    (hidle : ∀ w, (σ.workers w).isIdle = true) : σ.shared.txDependency.index ≤ t := by
  rcases h with hle | ⟨w, hw⟩
  · exact hle
  · rw [SchedulerState.tokens, tokens_of_isIdle (hidle w)] at hw
    rcases hw with hw | hw <;> cases hw

theorem Covered.validation_le_of_idle (h : Covered σ t)
    (hidle : ∀ w, (σ.workers w).isIdle = true) : σ.shared.ctx.validation ≤ t := by
  rcases h with hle | ⟨w, hw⟩ | ⟨w, n, ts, hw, -⟩
  · exact hle
  · have hw' := hidle w
    rw [hw] at hw'
    cases hw'
  · rw [rewindAt_of_isIdle (hidle w)] at hw
    cases hw

/-- What has to run is onboard. -/
theorem Queue.onboard_of_idle (h : Queue blk σ) (hidle : ∀ w, (σ.workers w).isIdle = true)
    (hm : (σ.shared.txStates t).status.mustRun) :
    (σ.shared.txDependency.dependentState t).onboard = true := by
  rcases h.requeued t hm with hq | ⟨w, v, pc, hw, -, -⟩
  · exact hq.onboard_of_idle hidle
  · have hw' := hidle w
    rw [hw] at hw'
    cases hw'

/-- A barrier holds back a transaction whose predecessor is not
committed. -/
theorem Queue.committed_lt (h : Queue blk σ) (hcore : Core σ) (hinv : CommitInv blk σ)
    (hcommitted : σ.commit.idx = σ.finality.idx) (ht : t < blk.size)
    (hd : (σ.shared.txDependency.dependentState t).dependency = some t) :
    σ.shared.ctx.committed < t := by
  rcases h.barrier t ht hd with hlt | ⟨previous, hpc, -⟩
  · exact hlt
  · -- a commit to be released would be one that is not final
    have hbehind := hinv.behind
    have hcursor := hcore.cursor
    rw [hpc] at hbehind
    simp only [CommitLoopPc.inner] at hbehind
    omega

/-- Nothing up to the finality cursor is onboard: it would have to wait
for an earlier transaction that is, or for a commit that has happened. -/
theorem Quiescent.not_onboard (hq : Quiescent blk σ) (h : Queue blk σ) (hcore : Core σ)
    (hinv : CommitInv blk σ) (hlt : σ.finality.idx < blk.size) (t : Nat)
    (ht : t ≤ σ.finality.idx) :
    (σ.shared.txDependency.dependentState t).onboard = false := by
  induction t using Nat.strong_induction_on with
  | _ t ih =>
    by_contra hb
    have hb : (σ.shared.txDependency.dependentState t).onboard = true := by simpa using hb
    have hsize : t < blk.size := by omega
    cases hd : (σ.shared.txDependency.dependentState t).dependency with
    | none =>
      have hindex := (h.dep.reached t hsize hb hd).index_le_of_idle hq.idle
      have hexecution := hq.execution
      omega
    | some d =>
      by_cases hdt : d = t
      · subst hdt
        have hcom := h.committed_lt hcore hinv hq.committed hsize hd
        have hcommitted := hinv.committed
        have hq' := hq.committed
        omega
      · have hlt' := (h.dep.edge t d hd hdt).1
        have hlive := (h.dep.live t d hd hdt).onboard_of_idle hq.idle
        rw [ih d hlt' (by omega)] at hlive
        cases hlive

/-- Up to the finality cursor everything has been executed, and nothing
is in conflict. -/
theorem Quiescent.status_cases (hq : Quiescent blk σ) (h : Queue blk σ) (hcore : Core σ)
    (hinv : CommitInv blk σ) (hlt : σ.finality.idx < blk.size) (ht : t ≤ σ.finality.idx) :
    (σ.shared.txStates t).status = .executed ∨ (σ.shared.txStates t).status = .unconfirmed ∨
      (σ.shared.txStates t).status = .finality := by
  have hnot : ¬ (σ.shared.txStates t).status.mustRun := fun hm => by
    have hb := h.onboard_of_idle hq.idle hm
    rw [hq.not_onboard h hcore hinv hlt t ht] at hb
    cases hb
  have hbusy : ¬ ((σ.shared.txStates t).status = .executing ∨
      (σ.shared.txStates t).status = .validating) := fun hb => by
    obtain ⟨w, v, hv, -⟩ := hcore.busy t hb
    rw [(owned_of_isIdle (hq.idle w)).1] at hv
    cases hv
  cases hst : (σ.shared.txStates t).status <;> simp_all [TransactionStatus.mustRun]

/-- An executed transaction is not behind the validation cursor. -/
theorem Revalidation.validation_le_of_executed (h : Revalidation blk σ) (hcore : Core σ)
    (hidle : ∀ w, (σ.workers w).isIdle = true) (ht : t < blk.size)
    (hex : (σ.shared.txStates t).status = .executed) : σ.shared.ctx.validation ≤ t := by
  rcases h.executed t ht hex with ⟨w, hw⟩ | hc
  · have hl := (hcore.locked w t).mp hw
    rw [(owned_of_isIdle (hidle w)).2] at hl
    cases hl
  · exact hc.validation_le_of_idle hidle

/-- Neither is an unconfirmed one that a rewind has overtaken. -/
theorem Revalidation.validation_le_of_unconfirmed (h : Revalidation blk σ)
    (hidle : ∀ w, (σ.workers w).isIdle = true)
    (hun : (σ.shared.txStates t).status = .unconfirmed) {k : Nat} (hk : k ≤ t)
    (hle : σ.shared.ctx.unconfirmedTimestamps t ≤ σ.shared.ctx.lowerTimestamps k) :
    σ.shared.ctx.validation ≤ t := by
  rcases (h.unconfirmed t hun).2 with hn | hc
  · exact absurd (hn k hk) (Nat.not_lt.mpr hle)
  · exact hc.validation_le_of_idle hidle

/-- A candidate behind the validation cursor is newer than the bound the
finality thread decides by. -/
theorem Revalidation.bound_lt (h : Revalidation blk σ)
    (hidle : ∀ w, (σ.workers w).isIdle = true)
    (hun : (σ.shared.txStates σ.finality.idx).status = .unconfirmed)
    (hval : σ.finality.idx < σ.shared.ctx.validation) :
    max σ.finality.lowerTs (σ.shared.ctx.lowerTimestamps σ.finality.idx)
      < σ.shared.ctx.unconfirmedTimestamps σ.finality.idx := by
  obtain ⟨hpos, hn | hc⟩ := h.unconfirmed _ hun
  · have hself := hn σ.finality.idx le_rfl
    rcases h.carried with h0 | ⟨k, hk, hle⟩
    · omega
    · have hkt := hn k (Nat.le_of_lt hk)
      omega
  · exact absurd (hc.validation_le_of_idle hidle) (Nat.not_le.mpr hval)

/-- What no quiescent state leaves behind: a transaction that has to run
is queued; one that waits, waits for a predecessor that is queued and
knows it, or for the commit of the transaction before it; and what has to
be validated again is not behind the validation cursor. -/
structure Retained (blk : Block Err R) (σ : SchedulerState W R B) (t : Nat) : Prop where
  queued : (σ.shared.txStates t).status.mustRun →
    (σ.shared.txDependency.dependentState t).onboard = true
  released : ∀ d, (σ.shared.txDependency.dependentState t).dependency = some d →
    d < t ∧ t ∈ σ.shared.txDependency.affectTxs d ∧
        (σ.shared.txDependency.dependentState d).onboard = true ∨
      d = t ∧ σ.shared.ctx.committed < t
  executed : (σ.shared.txStates t).status = .executed → σ.shared.ctx.validation ≤ t
  unconfirmed : (σ.shared.txStates t).status = .unconfirmed → ∀ k, k ≤ t →
    σ.shared.ctx.unconfirmedTimestamps t ≤ σ.shared.ctx.lowerTimestamps k →
    σ.shared.ctx.validation ≤ t

/-! ## The theorem -/

variable [DecidableEq W] {backing : B.State}

/-- When the workers hold nothing, everything final is committed and both
cursors have run out, the block is final or the next transaction is a
candidate that no worker has locked; and no transaction has been
forgotten. -/
theorem scheduler_never_stuck (h : Reachable blk backing σ) (hq : Quiescent blk σ) :
    (σ.finality.idx = blk.size ∨
      (lockFinalityCandidate blk σ.shared σ.finality.idx σ.finality.lowerTs).isSome = true ∧
        ∀ w, σ.shared.txLocks σ.finality.idx ≠ some (.worker w)) ∧
    ∀ t, t < blk.size → Retained blk σ t := by
  have hcore := core_of_reach h
  have hinv := commitInv_of_reach h
  have hqueue := queue_of_reach h
  have hflags := flags_of_reach h
  have hval := revalidation_of_reach h
  refine ⟨?_, fun t ht => ?_⟩
  · rcases Nat.lt_or_eq_of_le hinv.size with hlt | heq
    · have hstatus := fun t ht => hq.status_cases (t := t) hqueue hcore hinv hlt ht
      have hfrontier : σ.finality.idx + 1 ≤ σ.shared.ctx.executionFrontier blk.size :=
        hflags.le_executionFrontier hq.idle hlt fun j hj => by
          rcases hstatus j (Nat.lt_succ_iff.mp hj) with hs | hs | hs <;>
            simp [TransactionStatus.hasRun, hs]
      have hcursor : σ.finality.idx < σ.shared.ctx.validation :=
        Nat.lt_of_lt_of_le hfrontier hq.validation
      have hun : (σ.shared.txStates σ.finality.idx).status = .unconfirmed := by
        rcases hstatus σ.finality.idx le_rfl with hs | hs | hs
        · have hle := hval.validation_le_of_executed hcore hq.idle hlt hs
          omega
        · exact hs
        · exact absurd ((hcore.final _).mp hs) (Nat.lt_irrefl _)
      refine .inr ⟨?_, fun w hw => ?_⟩
      · exact isSome_lockFinalityCandidate.mpr
          ⟨hlt, hcursor, hun, hval.bound_lt hq.idle hun hcursor⟩
      · have hl := (hcore.locked w _).mp hw
        rw [(owned_of_isIdle (hq.idle w)).2] at hl
        cases hl
    · exact .inl heq
  · refine ⟨hqueue.onboard_of_idle hq.idle, fun d hd => ?_,
      hval.validation_le_of_executed hcore hq.idle ht,
      fun hun k hk hle => hval.validation_le_of_unconfirmed hq.idle hun hk hle⟩
    by_cases hdt : d = t
    · subst hdt
      exact .inr ⟨rfl, hqueue.committed_lt hcore hinv hq.committed ht hd⟩
    · obtain ⟨hlt, hmem⟩ := hqueue.dep.edge t d hd hdt
      exact .inl ⟨hlt, hmem, (hqueue.dep.live t d hd hdt).onboard_of_idle hq.idle⟩

/-- The first transaction is committed and the second one, retried after a
conflict, waits for the finality thread alone. -/
theorem scheduler_never_stuck_retried :
    ∃ (σ : SchedulerState Bool Unit (Backing.emptyDB Unit)),
      Reachable (Block.paying 2) () σ ∧ Quiescent (Block.paying 2) σ ∧
      σ.finality.idx = 1 ∧ (σ.shared.txStates 1).incarnation = 2 ∧
      (lockFinalityCandidate (Block.paying 2) σ.shared 1 σ.finality.lowerTs).isSome = true ∧
      Retained (Block.paying 2) σ 1 := by
  have hcheck : (Block.runPaying (overtaken 20 ++ stepsOf .finality 8 ++ stepsOf .commit 8 ++
      stepsOf (.worker true) 45)).map (fun σ =>
      ((σ.workers false).isIdle, (σ.workers true).isIdle,
        [σ.commit.idx, σ.finality.idx, (σ.shared.txStates 1).incarnation,
          σ.shared.txDependency.index, σ.shared.ctx.executionFrontier 2,
          σ.shared.ctx.validation])) =
      some (true, true, [1, 1, 2, 2, 2, 2]) := by decide +kernel
  obtain ⟨σ, hrun, heq⟩ := Option.map_eq_some_iff.mp hcheck
  simp only [Prod.mk.injEq, List.cons.injEq, and_true] at heq
  obtain ⟨hfalse, htrue, hcommit, hfinality, hincarnation, hindex, hfrontier, hvalidation⟩ := heq
  have hreach : Reachable (Block.paying 2) () σ := Runs.reach_of_exec hrun
  have hquiet : Quiescent (Block.paying 2) σ :=
    ⟨Bool.rec hfalse htrue, hcommit.trans hfinality.symm, hindex.ge,
      (hfrontier.trans hvalidation.symm).le⟩
  obtain ⟨hfinal | ⟨hcandidate, -⟩, hretained⟩ := scheduler_never_stuck hreach hquiet
  · rw [hfinality] at hfinal
    cases hfinal
  · rw [hfinality] at hcandidate
    exact ⟨σ, hreach, hquiet, hfinality, hincarnation, hcandidate, hretained 1 Nat.one_lt_two⟩

end

end Grevm
