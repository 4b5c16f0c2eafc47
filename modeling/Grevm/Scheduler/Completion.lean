/-
Grevm.Scheduler.Completion — from every state the block can be brought to
its end.

With the threads at rest, one worker alone brings the first transaction
that is not final to the point where the finality thread takes it: what is
stored for it is validated, and where that fails or nothing is stored a new
incarnation over the final prefix stores a result that no validation
overturns (`Round.brings_confirmed`). One transaction after the other the
whole block becomes final and is committed, or the run is aborted, and then
every thread returns (`leads_returned`).
-/
import Grevm.Scheduler.Deadlock
import Grevm.Scheduler.FreshReads

namespace Grevm

variable {Err W R : Type} {B : Backing Err}

/-! ## The verdict of a validation -/

/-- The worker validates `f`, or has done so. -/
def WorkerPc.Judging (f : Nat) (s : Shared W R B) : WorkerPc R B → Prop
  | .claimLock t => t = f ∧
    ((s.txStates f).status = .executed ∨ (s.txStates f).status = .unconfirmed)
  | .task (.validation v) => v.txid = f
  | .val v _ => v.txid = f
  | .wakeLoad _ | .wake | .afterTask | .nextFinished | .finished =>
    (s.txStates f).status = .unconfirmed ∨ (s.txStates f).status = .conflict
  | _ => False

section

variable {blk : Block Err R} {s s' : Shared W R B} {v : TxVersion} {p p' : WorkerPc R B} {f : Nat}

theorem WorkerPc.Judging.rewindAt_gt {n : Nat} {pc : RewindPc} (h : p.Judging f s)
    (hn : p.rewindAt = some (n, pc)) : f < n := by
  cases p with
  | val v pc =>
    cases pc <;> cases hn
    exact Nat.lt_succ_of_le (Nat.le_of_eq h.symm)
  | exec v pc => cases h
  | _ => cases hn

theorem ValStep.judging {pc : ValPc} (h : ValStep blk s v pc s' p')
    (hok : ValOk v.incarnation (s.column v.txid) pc) : p'.Judging v.txid s' := by
  cases h
  case addBlocker => exact .inr hok.1
  case unconfirm => exact .inl (by simp)
  case parallelErrorEnd => exact hok.elim
  all_goals rfl

end

namespace Round

variable [DecidableEq W] {blk : Block Err R} {backing : B.State} {σ : SchedulerState W R B}
  {s' : Shared W R B} {p' : WorkerPc R B} {w : W} {f c : Nat}

/-- The validation ends in a verdict, and the cursor stays past `f`. -/
theorem judging_step (h : Round blk backing f w σ) (hlt : f < σ.shared.ctx.validation)
    (hp : (σ.workers w).Judging f σ.shared) (hhome : (σ.workers w).isHome = false)
    (hstep : workerStep blk w σ.shared (σ.workers w) c = some (s', p')) :
    f < s'.ctx.validation ∧ p'.Judging f s' := by
  have hs := workerStep_sound hstep
  refine ⟨hs.le_validation (fun n pc hn => hp.rewindAt_gt hn) hlt, ?_⟩
  cases hpc : σ.workers w with
  | claimLock t =>
    rw [hpc] at hp hs
    obtain ⟨rfl, hstatus⟩ := hp
    cases hs with
    | claimed => rfl
    | claimMissed _ hno => exact absurd hstatus (not_or.mpr hno)
    | idle hp | frontier _ hp => cases hp
  | task task =>
    rw [hpc] at hp hs
    cases task with
    | execution v => cases hp
    | validation v =>
      have hok := (h.core.owned w v (by rw [hpc]; rfl)).2
      rw [hpc] at hok
      cases hs with
      | validate | validateInconsistent => exact hp
      | validateGone _ hgone => exact absurd hok hgone
      | idle hp | frontier _ hp => cases hp
  | val v pc =>
    have hok := (h.core.owned w v (by rw [hpc]; rfl)).2
    rw [hpc] at hp hs hok
    have hv : v.txid = f := hp
    subst hv
    cases hs with
    | val hs => exact hs.judging hok
    | idle hp | frontier _ hp => cases hp
  | wakeLoad t | afterTask =>
    rw [hpc] at hp hstep
    simp only [workerStep] at hstep
    split at hstep <;> cases hstep <;> exact hp
  | wake =>
    rw [hpc] at hp hstep
    cases hstep
    exact hp
  | nextFinished | finished => simp [hpc, WorkerPc.isHome] at hhome
  | _ => rw [hpc] at hp; cases hp

end Round

/-! ## The next transaction is confirmed -/

/-- Worker `w` is at home, and neither cursor is behind `f`. -/
structure Aligned (f : Nat) (w : W) (σ : SchedulerState W R B) : Prop where
  home : (σ.workers w).isHome = true
  index : f ≤ σ.shared.txDependency.index
  validation : f ≤ σ.shared.ctx.validation

theorem Aligned.idle {f : Nat} {w : W} {σ : SchedulerState W R B} (h : Aligned f w σ) :
    (σ.workers w).isIdle = true :=
  WorkerPc.isIdle_of_isHome h.home

/-- The transaction has a result that is not final. -/
def TransactionStatus.hasResult (status : TransactionStatus) : Prop :=
  status = .executed ∨ status = .unconfirmed

namespace Round

variable [DecidableEq W] {blk : Block Err R} {backing : B.State} {σ : SchedulerState W R B}
  {w : W} {f : Nat}

theorem not_busy (h : Round blk backing f w σ) (hidle : (σ.workers w).isIdle = true) (t : Nat) :
    (σ.shared.txStates t).status ≠ .executing ∧ (σ.shared.txStates t).status ≠ .validating := by
  refine not_or.mp fun hbusy => ?_
  obtain ⟨w', v, hv, -⟩ := h.core.busy t hbusy
  rw [(owned_of_isIdle (h.idle hidle w')).1] at hv
  cases hv

theorem status_cases (h : Round blk backing f w σ) (hidle : (σ.workers w).isIdle = true) :
    (σ.shared.txStates f).status.mustRun ∨ (σ.shared.txStates f).status.hasResult := by
  have hbusy := h.not_busy hidle f
  have hfinal := h.not_final
  cases hstatus : (σ.shared.txStates f).status <;>
    simp_all [TransactionStatus.mustRun, TransactionStatus.hasResult]

/-- Nothing final is queued: it would have to wait for an earlier
transaction that is, or for a commit that has happened. -/
theorem not_onboard (h : Round blk backing f w σ) (ha : Aligned f w σ) (hlt : f < blk.size)
    (t : Nat) (ht : t < f) : (σ.shared.txDependency.dependentState t).onboard = false := by
  have hqueue := queue_of_reach h.reach
  induction t using Nat.strong_induction_on with
  | _ t ih =>
    by_contra hb
    have hb : (σ.shared.txDependency.dependentState t).onboard = true := by simpa using hb
    cases hd : (σ.shared.txDependency.dependentState t).dependency with
    | none =>
      have hindex := (hqueue.dep.reached t (by omega) hb hd).index_le_of_idle (h.idle ha.idle)
      have hindex' := ha.index
      omega
    | some d =>
      by_cases hdt : d = t
      · subst hdt
        have hcommitted := hqueue.committed_lt h.core (commitInv_of_reach h.reach)
          (h.committed.trans h.idx.symm) (by omega) hd
        rw [h.ctx_committed] at hcommitted
        omega
      · have hlt' := (hqueue.dep.edge t d hd hdt).1
        have hlive := (hqueue.dep.live t d hd hdt).onboard_of_idle (h.idle ha.idle)
        rw [ih d hlt' (by omega)] at hlive
        cases hlive

/-- If `f` has to run, it is queued under the index and waits for nothing. -/
theorem ready (h : Round blk backing f w σ) (ha : Aligned f w σ) (hlt : f < blk.size)
    (hrun : (σ.shared.txStates f).status.mustRun) :
    σ.shared.txDependency.index = f ∧
      (σ.shared.txDependency.dependentState f).onboard = true ∧
      (σ.shared.txDependency.dependentState f).dependency = none := by
  have hqueue := queue_of_reach h.reach
  have hb := hqueue.onboard_of_idle (h.idle ha.idle) hrun
  have hd : (σ.shared.txDependency.dependentState f).dependency = none := by
    cases hd : (σ.shared.txDependency.dependentState f).dependency with
    | none => rfl
    | some d =>
      by_cases hdf : d = f
      · subst hdf
        have hcommitted := hqueue.committed_lt h.core (commitInv_of_reach h.reach)
          (h.committed.trans h.idx.symm) hlt hd
        rw [h.ctx_committed] at hcommitted
        exact absurd hcommitted (Nat.lt_irrefl d)
      · have hlt' := (hqueue.dep.edge f d hd hdf).1
        have hlive := (hqueue.dep.live f d hd hdf).onboard_of_idle (h.idle ha.idle)
        rw [h.not_onboard ha hlt d hlt'] at hlive
        cases hlive
  have hindex := (hqueue.dep.reached f hlt hb hd).index_le_of_idle (h.idle ha.idle)
  exact ⟨Nat.le_antisymm hindex ha.index, hb, hd⟩

variable (hB : Responsive B)
  (hapart : ∀ t, (blk.spec t).Yields (SpeculativeResult.RewardApart blk.beneficiary))

include hB hapart

/-- **A transaction that has to run gets a result that holds.** -/
theorem brings_rerun (h : Round blk backing f w σ) (ha : Aligned f w σ) (hlt : f < blk.size)
    (habort : σ.shared.abort = false) (hrun : (σ.shared.txStates f).status.mustRun) :
    Brings blk backing f w (fun σ' => Aligned f w σ' ∧
      (σ'.shared.txStates f).status.hasResult ∧ ReadsHold blk σ'.shared f) σ := by
  obtain ⟨hindex, hready⟩ := h.ready ha hlt hrun
  have hvalidation := ha.validation
  -- there is nothing to validate before `f`, so the worker fetches `f`
  refine (h.brings_claim hB hapart hlt habort ha.home).bind fun σ₁ h₁ _ hσ₁ => ?_
  obtain ⟨n, ⟨hw₁, hs₁, -⟩ | ⟨-, -, hclaim⟩⟩ := hσ₁
  swap
  · omega
  refine (h₁.brings_fetch hw₁ (by rw [hs₁]; exact hindex) hlt).bind fun σ₂ h₂ _ hσ₂ => ?_
  rcases hσ₂ with ⟨-, -, hno⟩ | ⟨hw₂, hs₂⟩
  · rw [hs₁] at hno
    exact absurd hready hno
  -- and starts a new incarnation
  have hstates : σ₂.shared.txStates = σ.shared.txStates := by rw [hs₂, hs₁]
  have hfree : (σ₂.shared.txLocks f).isSome = false :=
    h₂.free (.tx f) (by simp [hw₂, WorkerPc.wants])
  have hstep : workerStep blk w σ₂.shared (σ₂.workers w) 0 =
      some (σ₂.shared.setState f { σ₂.shared.txStates f with
        status := .executing, incarnation := (σ₂.shared.txStates f).incarnation + 1 },
        .task (.execution ⟨f, (σ₂.shared.txStates f).incarnation + 1⟩)) := by
    rcases hrun with hrun | hrun <;> simp [hw₂, workerStep, hfree, hstates, hrun]
  refine .of_step h₂ hstep fun σ₃ h₃ hs₃ hw₃ => ?_
  have hindex₃ : f ≤ σ₃.shared.txDependency.index := by
    rw [hs₃, Shared.setState_txDependency, hs₂]
    exact Nat.le_succ f
  have hvalidation₃ : f ≤ σ₃.shared.ctx.validation := by
    rw [hs₃, Shared.setState_ctx, hs₂, hs₁]
    exact hvalidation
  refine (h₃.brings_stored hB hapart hw₃ rfl hindex₃ hvalidation₃).bind fun σ₄ h₄ _ hσ₄ => ?_
  obtain ⟨⟨tail, pc, hw₄, htail⟩, hreads, hindex₄, hvalidation₄⟩ := hσ₄
  have hP : Renewed blk f σ₄.shared (σ₄.workers w) := by
    refine ⟨hreads, .inl ?_, by simp [hw₄]⟩
    have hok := (h₄.core.owned w _ (by rw [hw₄]; rfl)).2
    rw [hw₄] at hok
    cases tail <;> first | exact hok.1 | exact absurd rfl htail
  refine (h₄.brings_bounded hB hapart (fun _ => False) (Nat.le_refl f) (Nat.le_refl f)
    (by rw [hw₄]; trivial) hindex₄ hvalidation₄ hP
    fun σ s' p' h _ hP _ _ hstep => .inr (h.renewed_step hP hstep)).imp fun σ₅ h₅ _ hσ₅ => ?_
  obtain ⟨hrenewed, -, hindex₅, hvalidation₅, hhome⟩ := hσ₅
  have ha₅ : Aligned f w σ₅ := ⟨hhome.resolve_right id, hindex₅, hvalidation₅⟩
  refine ⟨ha₅, ?_, hrenewed.reads⟩
  rcases hrenewed.status with hstatus | hstatus | hstatus
  · exact .inl hstatus
  · exact .inr hstatus
  · exact absurd hstatus (h₅.not_busy ha₅.idle f).2

/-- With a result of `f` and nothing to validate before it, the index moves
past `f`. -/
theorem brings_past (h : Round blk backing f w σ) (ha : Aligned f w σ) (hlt : f < blk.size)
    (habort : σ.shared.abort = false) (hresult : (σ.shared.txStates f).status.hasResult)
    (hvalidation : σ.shared.ctx.validation = f) :
    Brings blk backing f w (fun σ' => (σ'.workers w).isHome = true ∧
      ∃ (dep : TxDependency) (n : Nat), σ'.shared = { σ.shared with
        txDependency := dep, ctx := { σ.shared.ctx with frontier := n } } ∧ f < dep.index) σ := by
  rcases Nat.lt_or_eq_of_le ha.index with hindex | hindex
  · exact .here h ⟨ha.home, _, _, rfl, hindex⟩
  refine (h.brings_claim hB hapart hlt habort ha.home).bind fun σ₁ h₁ _ hσ₁ => ?_
  obtain ⟨n, ⟨hw₁, hs₁, -⟩ | ⟨-, -, hclaim⟩⟩ := hσ₁
  swap
  · omega
  have hstatus : (σ₁.shared.txStates f).status = (σ.shared.txStates f).status := by rw [hs₁]
  have hrun : ¬ (σ₁.shared.txStates f).status.mustRun := by
    rcases hresult with hres | hres <;> simp [hstatus, hres, TransactionStatus.mustRun]
  have hidle : (σ₁.shared.txStates f).status ≠ .executing := by
    rcases hresult with hres | hres <;> simp [hstatus, hres]
  refine (h₁.brings_useless hB hapart hw₁ (by rw [hs₁]; exact hindex.symm) hlt hrun hidle).imp
    fun σ₂ _ _ hσ₂ => ?_
  obtain ⟨hw₂, dep, hs₂, hdep⟩ := hσ₂
  exact ⟨by rw [hw₂]; rfl, dep, n, by rw [hs₂, hs₁], hdep⟩

/-- **A result is validated**, and one that holds is confirmed. -/
theorem brings_judged (fresh : Prop) (h : Round blk backing f w σ) (ha : Aligned f w σ)
    (hlt : f < blk.size) (habort : σ.shared.abort = false)
    (hresult : (σ.shared.txStates f).status.hasResult)
    (hfresh : fresh → ReadsHold blk σ.shared f) :
    Brings blk backing f w (fun σ' => Aligned f w σ' ∧
      ((σ'.shared.txStates f).status = .unconfirmed ∧ f < σ'.shared.ctx.validation ∨
        (σ'.shared.txStates f).status = .conflict ∧ ¬ fresh)) σ := by
  by_cases hdone : (σ.shared.txStates f).status = .unconfirmed ∧ f < σ.shared.ctx.validation
  · exact .here h ⟨ha, .inl hdone⟩
  have hvalidation : σ.shared.ctx.validation = f := by
    refine Nat.le_antisymm ?_ ha.validation
    rcases hresult with hres | hres
    · exact (revalidation_of_reach h.reach).validation_le_of_executed h.core (h.idle ha.idle) hlt
        hres
    · exact Nat.le_of_not_lt fun hgt => hdone ⟨hres, hgt⟩
  refine (h.brings_past hB hapart ha hlt habort hresult hvalidation).bind
    fun σ₁ h₁ habort₁ hσ₁ => ?_
  obtain ⟨hhome₁, dep, n, hs₁, hindex₁⟩ := hσ₁
  have hidle₁ := WorkerPc.isIdle_of_isHome hhome₁
  have hresult₁ : (σ₁.shared.txStates f).status.hasResult := by rw [hs₁]; exact hresult
  -- everything up to `f` is flagged, so `f` is claimed
  refine (h₁.brings_claim hB hapart hlt habort₁ hhome₁).bind fun σ₂ h₂ _ hσ₂ => ?_
  have hflags : ∀ j, j < f + 1 → σ₁.shared.ctx.executed j = true := by
    intro j hj
    refine h₁.flagged hidle₁ ?_
    rcases Nat.lt_succ_iff_lt_or_eq.mp hj with hj | rfl
    · simp [h₁.final hj, TransactionStatus.hasRun]
    · rcases hresult₁ with hres | hres <;> simp [hres, TransactionStatus.hasRun]
  obtain ⟨m, ⟨-, -, hpass⟩ | ⟨hw₂, hs₂, -⟩⟩ := hσ₂
  · have hcursor := hpass (f + 1) hlt hflags (by rw [hs₁]; exact hindex₁)
    rw [hs₁] at hcursor
    have hcursor : f + 1 ≤ σ.shared.ctx.validation := hcursor
    omega
  have hw₂ : σ₂.workers w = .claimLock f := by rw [hw₂, hs₁]; exact congrArg _ hvalidation
  have hs₂ : σ₂.shared = { σ.shared with
      txDependency := dep, ctx := { σ.shared.ctx with frontier := m, validation := f + 1 } } := by
    rw [hs₂, hs₁]
    simp only [hvalidation]
  let P (s : Shared W R B) (p : WorkerPc R B) :=
    (f < s.ctx.validation ∧ p.Judging f s) ∧ (fresh → Renewed blk f s p)
  have hP : P σ₂.shared (σ₂.workers w) := by
    refine ⟨⟨by rw [hs₂]; exact Nat.lt_succ_self f, ?_⟩, fun hf => ⟨?_, ?_, by simp [hw₂]⟩⟩
    · rw [hw₂, hs₂]
      exact ⟨rfl, hresult⟩
    · rw [hs₂]
      exact hfresh hf
    · rw [hs₂]
      exact hresult.imp id .inl
  refine (h₂.brings_bounded hB hapart (fun _ => False) (Nat.le_refl f) (Nat.le_refl f)
    (by rw [hw₂]; trivial) (by rw [hs₂]; exact Nat.le_of_lt hindex₁)
    (by rw [hs₂]; exact Nat.le_succ f) hP ?_).imp fun σ₃ h₃ _ hσ₃ => ?_
  · intro σ s' p' h _ hPσ hhome _ hstep
    exact .inr ⟨h.judging_step hPσ.1.1 hPσ.1.2 hhome hstep,
      fun hf => h.renewed_step (hPσ.2 hf) hstep⟩
  · obtain ⟨⟨⟨hpast, hjudged⟩, hrenewed⟩, -, hindex₃, hvalidation₃, hhome₃⟩ := hσ₃
    have hhome₃ := hhome₃.resolve_right id
    refine ⟨⟨hhome₃, hindex₃, hvalidation₃⟩, ?_⟩
    have hverdict : (σ₃.shared.txStates f).status = .unconfirmed ∨
        (σ₃.shared.txStates f).status = .conflict := by
      rcases WorkerPc.eq_of_isHome hhome₃ with hw | hw <;> (rw [hw] at hjudged; exact hjudged)
    rcases hverdict with hun | hconflict
    · exact .inl ⟨hun, hpast⟩
    · refine .inr ⟨hconflict, fun hf => ?_⟩
      have hstatus := (hrenewed hf).status
      simp [hconflict] at hstatus

/-- **The first transaction that is not final is confirmed**, or the run is
aborted. -/
theorem brings_confirmed (h : Round blk backing f w σ) (hlt : f < blk.size)
    (hhome : (σ.workers w).isHome = true) :
    Brings blk backing f w (fun σ' => (σ'.workers w).isHome = true ∧
      (σ'.shared.txStates f).status = .unconfirmed ∧ f < σ'.shared.ctx.validation) σ := by
  -- a result that holds is confirmed, and one that has to be made holds
  have hconfirm : ∀ σ, Round blk backing f w σ → σ.shared.abort = false →
      Aligned f w σ ∧ (σ.shared.txStates f).status.hasResult ∧ ReadsHold blk σ.shared f →
      Brings blk backing f w (fun σ' => (σ'.workers w).isHome = true ∧
        (σ'.shared.txStates f).status = .unconfirmed ∧ f < σ'.shared.ctx.validation) σ := by
    intro σ h habort hσ
    obtain ⟨ha, hresult, hreads⟩ := hσ
    refine (h.brings_judged hB hapart True ha hlt habort hresult fun _ => hreads).imp
      fun σ' _ _ hσ' => ?_
    exact ⟨hσ'.1.home, hσ'.2.resolve_right fun hno => hno.2 trivial⟩
  refine (h.brings_cursors hB hapart hlt hhome).bind fun σ₁ h₁ habort₁ hσ₁ => ?_
  have ha₁ : Aligned f w σ₁ := ⟨hσ₁.1.1, hσ₁.1.2, hσ₁.2⟩
  rcases h₁.status_cases ha₁.idle with hrun | hresult
  · exact (h₁.brings_rerun hB hapart ha₁ hlt habort₁ hrun).bind hconfirm
  · refine (h₁.brings_judged hB hapart False ha₁ hlt habort₁ hresult False.elim).bind
      fun σ₂ h₂ habort₂ hσ₂ => ?_
    obtain ⟨ha₂, hdone | ⟨hconflict, -⟩⟩ := hσ₂
    · exact .here h₂ ⟨ha₂.home, hdone⟩
    · exact (h₂.brings_rerun hB hapart ha₂ hlt habort₂ (.inr hconflict)).bind hconfirm

end Round

/-! ## To the end of the block -/

/-- Every thread has returned, and unless the run was aborted the whole
block is committed. -/
structure SchedulerState.Completed (blk : Block Err R) (σ : SchedulerState W R B) : Prop where
  returned : ∀ th, σ.Returned th
  committed : σ.shared.abort = true ∨ σ.commit.output.length = blk.size

section

variable [DecidableEq W] {blk : Block Err R} {backing : B.State} {σ : SchedulerState W R B}

/-- The commit loop returns after an abort or with the block. -/
theorem completed_of_returned (h : Reachable blk backing σ) (hreturned : ∀ th, σ.Returned th) :
    σ.Completed blk := by
  refine ⟨hreturned, ?_⟩
  obtain ⟨error, hpc⟩ := hreturned .commit
  have hinv := commitInv_of_reach h
  refine ((commitEnd_of_reach h).ended error hpc).imp id fun hsize => ?_
  have hbehind := hinv.inner_le (core_of_reach h)
  have hle := hinv.size
  have houtput := hinv.output
  simp only [hpc, CommitLoopPc.inner, CommitLoopPc.pushed] at hbehind houtput
  omega

/-- At rest before the end of the block the coordinators wait at the heads
of their loops. -/
theorem Poised.round (h : Poised blk σ) (hreach : Reachable blk backing σ)
    (habort : σ.shared.abort = false) (hlt : σ.finality.idx < blk.size) (w : W) :
    Round blk backing σ.finality.idx w σ := by
  have hcursor := h.cursor hreach
  have hfinality : σ.finality.pc = .head := by
    refine h.finality.resolve_right fun hpc => ?_
    rcases (ended_of_reach hreach).finality hpc with ha | hge
    · simp [habort] at ha
    · omega
  have hcommit : σ.commit.pc = .head ∧ σ.commit.idx = σ.shared.ctx.finality := by
    refine h.commit.resolve_right fun hpc => ?_
    obtain ⟨error, hpc⟩ := hpc
    have hbehind := (commitInv_of_reach hreach).inner_le (core_of_reach hreach)
    rcases (commitEnd_of_reach hreach).ended error hpc with ha | hge
    · simp [habort] at ha
    · omega
  exact ⟨hreach, fun w' _ => h.home w', hfinality, rfl, hcommit.1, hcommit.2.trans hcursor⟩

/-- At home again, the threads are at rest. -/
theorem Round.poised {f : Nat} {w : W} (h : Round blk backing f w σ)
    (hhome : (σ.workers w).isHome = true) : Poised blk σ where
  home w' := by
    by_cases heq : w' = w
    · exact heq ▸ hhome
    · exact h.others w' heq
  finality := .inl h.finality
  commit := .inl ⟨h.commit, h.committed.trans h.ctx_finality.symm⟩

variable [Finite W] (hB : Responsive B)
  (hapart : ∀ t, (blk.spec t).Yields (SpeculativeResult.RewardApart blk.beneficiary))

include hB hapart

/-- After an abort every thread returns. -/
theorem leads_completed_of_abort (h : Reachable blk backing σ) (habort : σ.shared.abort = true) :
    Runs.Leads (step blk) Runs.Free (fun σ' => σ'.Completed blk ∨ ¬ σ'.CommitGoesOn) σ := by
  refine (leads_poised hB hapart h).bind fun σ₁ hrun hσ₁ => ?_
  obtain ⟨h₁, hpoised | hpanics⟩ := hσ₁
  · refine (hpoised.leads_returned h₁ (.inl (abort_mono hrun habort))).imp fun σ₂ hrun₂ hσ₂ => ?_
    exact .inl (completed_of_returned (h₁.trans hrun₂) hσ₂)
  · exact .here (.inr hpanics)

theorem leads_completed [Nonempty W] (h : Reachable blk backing σ) :
    Runs.Leads (step blk) Runs.Free (fun σ' => σ'.Completed blk ∨ ¬ σ'.CommitGoesOn) σ := by
  obtain ⟨w⟩ := ‹Nonempty W›
  -- by induction on the transactions that are not final yet
  induction hn : blk.size - σ.finality.idx using Nat.strong_induction_on generalizing σ with
  | _ n ih =>
    refine (leads_poised hB hapart h).bind fun σ₁ hrun hσ₁ => ?_
    have hmono := finality_mono hrun
    obtain ⟨h₁, hpoised | hpanics⟩ := hσ₁
    swap
    · exact .here (.inr hpanics)
    by_cases habort : σ₁.shared.abort = true
    · exact leads_completed_of_abort hB hapart h₁ habort
    have habort : σ₁.shared.abort = false := by simpa using habort
    by_cases hend : blk.size ≤ σ₁.finality.idx
    · refine (hpoised.leads_returned h₁ (.inr hend)).imp fun σ₂ hrun₂ hσ₂ => ?_
      exact .inl (completed_of_returned (h₁.trans hrun₂) hσ₂)
    have hlt := Nat.lt_of_not_le hend
    -- one worker confirms the next transaction, and the finality thread takes it
    have hround := hpoised.round h₁ habort hlt w
    refine Runs.Leads.bind (hround.brings_confirmed hB hapart hlt (hpoised.home w))
      fun σ₂ _ hσ₂ => ?_
    obtain ⟨hround₂, hσ₂⟩ := hσ₂
    by_cases habort₂ : σ₂.shared.abort = true
    · exact leads_completed_of_abort hB hapart hround₂.reach habort₂
    obtain ⟨hhome, hun, hval⟩ := hσ₂.resolve_left habort₂
    have hidx := hround₂.idx
    refine ((hround₂.poised hhome).leads_finalized hround₂.reach (by simpa using habort₂)
      (hidx.symm ▸ hlt) (hidx.symm ▸ hun) (hidx.symm ▸ hval)).bind fun σ₃ _ hσ₃ => ?_
    exact ih _ (by omega) hσ₃.1 rfl

end

/-! ## Backing states whose calls return -/

/-- The accesses that a commit has still to make for an account, at most. -/
def Account.applySteps (account : Account) : Nat := account.changedStorageSlots.length + 5

def ApplyPc.left : ApplyPc → Nat
  | .next accounts => (accounts.map fun entry => entry.2.applySteps).sum
  | .removeStorage _ account accounts =>
    account.changedStorageSlots.length + 4 + (accounts.map fun entry => entry.2.applySteps).sum
  | .change _ account accounts =>
    account.changedStorageSlots.length + 3 + (accounts.map fun entry => entry.2.applySteps).sum
  | .contract _ account accounts =>
    account.changedStorageSlots.length + 2 + (accounts.map fun entry => entry.2.applySteps).sum
  | .slots _ remaining accounts =>
    remaining.length + 1 + (accounts.map fun entry => entry.2.applySteps).sum

theorem ParallelCacheState.applyStep_left {cache cache' : ParallelCacheState} {c : Nat}
    {pc pc' : ApplyPc} (h : cache.applyStep c pc = some (cache', some pc')) :
    pc'.left < pc.left := by
  cases pc with
  | next accounts =>
    simp only [applyStep] at h
    split at h
    · cases h
    · obtain ⟨⟨⟨address, account⟩, rest⟩, hpick, heq⟩ := Option.map_eq_some_iff.mp h
      cases heq
      have hsum := ((perm_of_pick? hpick).map fun entry => entry.2.applySteps).sum_eq
      simp only [List.map_cons, List.sum_cons, Account.applySteps] at hsum
      split
      · simp only [ApplyPc.left, Account.applySteps]
        omega
      · split <;> (simp only [ApplyPc.left, Account.applySteps]; omega)
  | removeStorage address account accounts =>
    cases h
    simp only [ApplyPc.left]
    omega
  | change address account accounts =>
    obtain ⟨current, -, heq⟩ := Option.map_eq_some_iff.mp h
    cases heq
    split
    · simp only [ApplyPc.left]
      omega
    · split
      · simp only [ApplyPc.left]
        omega
      · split <;> (simp only [ApplyPc.left]; omega)
  | contract address account accounts =>
    obtain ⟨cache'', -, heq⟩ := Option.map_eq_some_iff.mp h
    cases heq
    simp only [ApplyPc.left]
    omega
  | slots address slots accounts =>
    simp only [applyStep] at h
    split at h
    · cases h
      simp only [ApplyPc.left]
      omega
    · obtain ⟨⟨⟨index, value⟩, rest⟩, hpick, heq⟩ := Option.map_eq_some_iff.mp h
      cases heq
      have hlength := length_of_pick? hpick
      simp only [ApplyPc.left]
      omega

/-- The calls of `ParallelState` return. -/
def Responsive.parallelState (db : Database Err) : Responsive (parallelState db) where
  basic pc := match pc with
    | .lookup _ => 2
    | .database _ => 1
    | .insert _ _ => 0
  code pc := match pc with
    | .lookup _ => 2
    | .database _ => 1
    | .insert _ _ => 0
  storage pc := match pc with
    | .slot _ _ => 3
    | .status _ _ => 2
    | .database _ _ => 1
    | .insert _ _ _ => 0
  commit := ApplyPc.left
  basic_lt cache pc cache' pc' h := by
    cases pc with
    | lookup address =>
      simp only [Grevm.parallelState, ParallelCacheState.basicLoadStep] at h
      split at h <;> cases h
      exact Nat.lt_succ_self 1
    | database address =>
      simp only [Grevm.parallelState, ParallelCacheState.basicLoadStep] at h
      split at h <;> cases h
      exact Nat.lt_succ_self 0
    | insert address info => cases h
  code_lt cache pc cache' pc' h := by
    cases pc with
    | lookup codeHash =>
      simp only [Grevm.parallelState, ParallelCacheState.codeLoadStep] at h
      split at h <;> cases h
      exact Nat.lt_succ_self 1
    | database codeHash =>
      simp only [Grevm.parallelState, ParallelCacheState.codeLoadStep] at h
      split at h <;> cases h
      exact Nat.lt_succ_self 0
    | insert codeHash code => cases h
  storage_lt cache pc cache' pc' h := by
    cases pc with
    | slot address index =>
      simp only [Grevm.parallelState, ParallelCacheState.storageLoadStep] at h
      split at h <;> cases h
      exact Nat.lt_succ_self 2
    | status address index =>
      simp only [Grevm.parallelState, ParallelCacheState.storageLoadStep] at h
      split at h <;> cases h
      · exact Nat.zero_lt_two
      · exact Nat.lt_succ_self 1
    | database address index =>
      simp only [Grevm.parallelState, ParallelCacheState.storageLoadStep] at h
      split at h <;> cases h
      exact Nat.lt_succ_self 0
    | insert address index value => cases h
  commit_lt cache pc c cache' pc' h := ParallelCacheState.applyStep_left h

/-- So do those of a state that never changes. -/
def Responsive.base (base : Base Err) : Responsive base.backing where
  basic _ := 0
  code _ := 0
  storage _ := 0
  commit _ := 0
  basic_lt _ _ _ _ h := by cases h
  code_lt _ _ _ _ h := by cases h
  storage_lt _ _ _ _ h := by cases h
  commit_lt _ _ _ _ _ h := by cases h

/-! ## Completion -/

/-- **The scheduler can always complete.** Over a backing state whose calls
return, some run leads from every reachable state of every block to one
where all threads have returned, with the whole block committed or the run
aborted; on the way only a panic inside `ParallelStateCommit::commit` can
stop it. -/
theorem scheduler_can_always_complete [DecidableEq W] [Finite W] [Nonempty W]
    (hB : Responsive B) (blk : EvmBlock Err R) {backing : B.State} {σ : SchedulerState W R B}
    (h : Reachable blk.block backing σ) :
    ∃ σ', Runs.Reach (step blk.block) Runs.Free σ σ' ∧
      (σ'.Completed blk.block ∨ ¬ σ'.CommitGoesOn) :=
  leads_completed hB blk.rewardApart h

/-- A transaction of the contract's address that changes nothing. -/
def numberedTransaction (nonce : BitVec 64) : EvmTransaction Unit U256 where
  caller := 1
  nonce
  effectiveGasPrice _ := 0
  invalid := none
  rejectsCaller _ := none
  body _ := .done (.ok ⟨0, ⟨0, 0⟩, ∅⟩)

/-- The second nonce is too high. -/
def EvmBlock.nonceGap : EvmBlock Unit U256 where
  size := 2
  env := { beneficiary := 9, basefee := 0, feeChargeDisabled := true, london := true }
  anchor := none
  transactions t := numberedTransaction (if t = 0 then 1 else 5)
  disableNonceCheck := false
  normalize account := account
  normalize_of_not_empty _ _ := rfl

/-- One worker in the middle of a validation over a fixed state, and a
fresh run over `ParallelState`. -/
theorem scheduler_can_always_complete_nonceGap :
    (∃ σ σ' : SchedulerState Unit U256 Base.contract.backing,
      Reachable EvmBlock.nonceGap.block () σ ∧ (σ.workers ()).locked = some 0 ∧
      Runs.Reach (step EvmBlock.nonceGap.block) Runs.Free σ σ' ∧
      σ'.Completed EvmBlock.nonceGap.block) ∧
    ∃ σ' : SchedulerState Unit U256 (parallelState Database.absent),
      Runs.Reach (step EvmBlock.nonceGap.block) Runs.Free (initial ({} : ParallelCacheState)) σ' ∧
      (σ'.Completed EvmBlock.nonceGap.block ∨ ¬ σ'.CommitGoesOn) := by
  refine ⟨?_, scheduler_can_always_complete (.parallelState _) EvmBlock.nonceGap .refl⟩
  have hrun : (Runs.exec (step EvmBlock.nonceGap.block)
      (initial () : SchedulerState Unit U256 Base.contract.backing) (stepsOf (.worker ()) 44)).map
        (fun σ => (σ.workers ()).locked) = some (some 0) := by decide +kernel
  obtain ⟨σ, hexec, hlocked⟩ := Option.map_eq_some_iff.mp hrun
  have hreach : Reachable EvmBlock.nonceGap.block () σ := Runs.reach_of_exec hexec
  obtain ⟨σ', hrun', hend⟩ :=
    scheduler_can_always_complete (.base Base.contract) EvmBlock.nonceGap hreach
  exact ⟨σ, σ', hreach, hlocked, hrun',
    hend.resolve_right fun hpanics => hpanics fun _ _ _ _ => rfl⟩

end Grevm
