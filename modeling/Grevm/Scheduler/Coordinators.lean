/-
Grevm.Scheduler.Coordinators — the coordinators while the workers rest.

With every worker at home nobody keeps the finality thread and the commit
loop from their locks. The finality thread then passes a candidate that
validation has confirmed (`leads_finalized`), and the commit loop commits
what is final (`leads_committed`), unless the block is aborted or
`ParallelStateCommit::commit` panics. A thread returns only after an abort
or with the whole block (`Ended`), and after either of them every thread
does (`leads_returned`).
-/
import Grevm.Scheduler.Control
import Grevm.Scheduler.Progress
import Grevm.Scheduler.Solo

namespace Grevm

variable {Err W R : Type} {B : Backing Err}

/-! ## What a run never takes back -/

section

variable {blk : Block Err R} {s s' : Shared W R B} {c : Nat}

theorem FinalityStep.idx_le {t t' : FinalityThread} (h : FinalityStep blk s t s' t') :
    t.idx ≤ t'.idx := by
  cases h
  case finalize => exact Nat.le_succ _
  all_goals exact Nat.le_refl _

theorem FinalityStep.abort_eq {t t' : FinalityThread} (h : FinalityStep blk s t s' t') :
    s'.abort = s.abort := by
  cases h <;> rfl

theorem FinalityStep.finality_le {t t' : FinalityThread}
    (h : FinalityStep blk s t s' t') (hle : s.ctx.finality ≤ t.idx) :
    s.ctx.finality ≤ s'.ctx.finality := by
  cases h
  case publish => exact hle
  all_goals exact Nat.le_refl _

theorem CommitStep.abort_mono {t t' : CommitThread R B} (h : CommitStep blk s t s' t')
    (ha : s.abort = true) : s'.abort = true := by
  cases h
  case abort h | aborted h => exact (Shared.abortStep_flag h).1 ha
  all_goals exact ha

/-- A worker returns after an abort, or when every transaction is
final. -/
theorem workerStep_finished {p p' : WorkerPc R B} {w : W}
    (h : workerStep blk w s p c = some (s', p')) (hp' : p' = .finished) :
    s' = s ∧ (s.abort = true ∨ blk.size ≤ s.ctx.finality) := by
  cases p with
  | nextFinished =>
    simp only [workerStep] at h
    split at h <;> cases h
    · exact ⟨rfl, .inr ‹_›⟩
    · cases hp'
  | nextAborted | afterTask =>
    simp only [workerStep] at h
    split at h <;> cases h
    · exact ⟨rfl, .inl ‹_›⟩
    · cases hp'
  | exec v pc =>
    cases execStep_sound h
    case frontierFinish tail _ _ _ _ _ | rewindFinish tail _ _ _ => cases tail <;> cases hp'
    all_goals cases hp'
  | val v pc => cases valStep_sound h <;> cases hp'
  | executionTask t fromNext =>
    simp only [workerStep] at h
    split at h
    · cases h
    · split at h <;> cases h <;> first | cases hp' | (cases fromNext <;> cases hp')
  | useless t fromNext pc =>
    simp only [workerStep] at h
    split at h <;> cases h <;> first | cases hp' | (cases fromNext <;> cases hp')
  | dependencyLock t =>
    simp only [workerStep] at h
    split at h
    · rename_i claimed _
      cases claimed <;> cases h <;> cases hp'
    · cases h
  | claimLock t =>
    simp only [workerStep] at h
    split at h
    · cases h
    · split at h <;> cases h <;> cases hp'
  | task task =>
    subst hp'
    cases task with
    | execution v =>
      have hs : WorkerStep blk w s (.task (.execution v)) s' .finished := startExecution_sound h
      cases hs with
      | idle hp _ _ | frontier _ hp _ _ => cases hp
    | validation v =>
      have hs : WorkerStep blk w s (.task (.validation v)) s' .finished := startValidation_sound h
      cases hs with
      | idle hp _ _ | frontier _ hp _ _ => cases hp
  | finished => cases h
  | scheduleIndex | claimIndex | wake => cases h; cases hp'
  | _ =>
    simp only [workerStep] at h
    split at h <;> cases h <;> cases hp'

theorem finalityStep_finished {t t' : FinalityThread}
    (h : finalityStep blk s t c = some (s', t')) (ht' : t'.pc = .finished) :
    s'.abort = true ∨ blk.size ≤ t'.idx := by
  have hno : ∀ use, (noCandidate t use).pc ≠ .finished := by
    intro use
    cases use with
    | advance previous => simp only [noCandidate]; split <;> simp
    | waitFirst | waitSecond => simp [noCandidate]
  unfold finalityStep at h
  split at h
  case h_2 =>
    cases h
    dsimp only at ht'
    split at ht'
    · rename_i hend
      simpa using hend
    · cases ht'
  case h_3 =>
    split at h <;> cases h
    · exact absurd ht' (hno _)
    · cases ht'
  case h_4 =>
    split at h
    · cases h
    · split at h <;> cases h
      · exact absurd ht' (hno _)
      · cases ht'
  case h_6 =>
    split at h
    · split at h <;> cases h <;> cases ht'
    · cases h
      exact absurd ht' (hno _)
  case h_12 =>
    split at h <;> cases h
    cases ht'
  case h_13 => cases h
  all_goals
    cases h
    dsimp only at ht'
    first | cases ht' | (split at ht' <;> cases ht')

end

section

variable [DecidableEq W] {blk : Block Err R} {σ σ' : SchedulerState W R B}
  {ok : SchedulerState W R B → Action W → Prop}

theorem finality_mono (h : Runs.Reach (step blk) ok σ σ') : σ.finality.idx ≤ σ'.finality.idx := by
  refine h.invariant (I := fun σ' => σ.finality.idx ≤ σ'.finality.idx) (Nat.le_refl _)
    fun σ₁ a σ₂ _ ih _ hs => ?_
  rcases step_cases hs with ⟨w, shared, pc, hw, rfl⟩ | ⟨shared, t', hf, rfl⟩ | ⟨shared, t', hc, rfl⟩
  · exact ih
  · exact Nat.le_trans ih hf.idx_le
  · exact ih

theorem abort_mono (h : Runs.Reach (step blk) ok σ σ') (ha : σ.shared.abort = true) :
    σ'.shared.abort = true := by
  refine h.invariant (I := fun σ' => σ'.shared.abort = true) ha fun σ₁ a σ₂ _ ih _ hs => ?_
  rcases step_cases hs with ⟨w, shared, pc, hw, rfl⟩ | ⟨shared, t', hf, rfl⟩ | ⟨shared, t', hc, rfl⟩
  · exact hw.abort_mono ih
  · exact hf.abort_eq.trans ih
  · exact hc.abort_mono ih

/-- A worker and the finality thread return for a reason, and so does the
commit loop (`CommitEnd`). -/
structure Ended (blk : Block Err R) (σ : SchedulerState W R B) : Prop where
  workers : ∀ w, σ.workers w = .finished →
    σ.shared.abort = true ∨ blk.size ≤ σ.shared.ctx.finality
  finality : σ.finality.pc = .finished → σ.shared.abort = true ∨ blk.size ≤ σ.finality.idx

theorem ended_of_reach {backing : B.State} (h : ReachableWhen blk backing ok σ) : Ended blk σ := by
  refine h.invariant (I := Ended blk) ⟨fun _ hw => (by cases hw), fun hf => (by cases hf)⟩
    fun σ a σ' hr ih _ hs => ?_
  unfold step at hs
  split at hs
  · rename_i w hw
    obtain ⟨⟨shared, pc⟩, hstep, rfl⟩ := Option.map_eq_some_iff.mp hs
    have hsound := workerStep_sound hstep
    refine ⟨fun w' hw' => ?_, fun hf => (ih.finality hf).imp_left hsound.abort_mono⟩
    have hw' : Function.update σ.workers w pc w' = .finished := hw'
    by_cases heq : w' = w
    · subst heq
      rw [Function.update_self] at hw'
      obtain ⟨rfl, hend⟩ := workerStep_finished hstep hw'
      exact hend
    · rw [Function.update_of_ne heq] at hw'
      exact (ih.workers w' hw').imp hsound.abort_mono fun hle => hsound.cursors.1 ▸ hle
  · obtain ⟨⟨shared, finality⟩, hstep, rfl⟩ := Option.map_eq_some_iff.mp hs
    have hsound := finalityStep_sound hstep
    refine ⟨fun w hw => ?_, fun hf => finalityStep_finished hstep hf⟩
    exact (ih.workers w hw).imp (fun ha => hsound.abort_eq.trans ha)
      fun hle => hle.trans (hsound.finality_le (core_of_reach hr).finality_le)
  · obtain ⟨⟨shared, commit⟩, hstep, rfl⟩ := Option.map_eq_some_iff.mp hs
    have hsound := commitLoopStep_sound hstep
    refine ⟨fun w hw => (ih.workers w hw).imp hsound.abort_mono fun hle => ?_,
      fun hf => (ih.finality hf).imp_left hsound.abort_mono⟩
    rw [hsound.ctx_eq]
    exact hle

end

/-! ## The finality thread comes back to the head of its loop -/

/-- The accesses of one turn of `run_finality_loop`. -/
def FinalityPc.stage : FinalityPc → Nat
  | .finished => 0
  | .head => 1
  | .register | .park | .notifyBatch _ => 2
  | .candidateDecide .waitSecond _ => 3
  | .candidateLower .waitSecond => 4
  | .candidateLock .waitSecond => 5
  | .candidateValidation .waitSecond => 6
  | .waitSecond => 7
  | .candidateDecide .waitFirst _ => 8
  | .candidateLower .waitFirst => 9
  | .candidateLock .waitFirst => 10
  | .candidateValidation .waitFirst => 11
  | .waitFirst => 12
  | .candidateDecide (.advance _) _ => 13
  | .candidateLower (.advance _) => 14
  | .candidateLock (.advance _) => 15
  | .candidateValidation (.advance _) => 16
  | .notifyFirst _ => 17
  | .publish _ => 18

section

variable {blk : Block Err R} {s s' : Shared W R B} {t t' : FinalityThread}

theorem noCandidate_stage (t : FinalityThread) (use : CandidateUse) :
    (noCandidate t use).idx = t.idx ∧
      ∀ ts, (noCandidate t use).pc.stage < (FinalityPc.candidateDecide use ts).stage := by
  cases use with
  | advance previous =>
    simp only [noCandidate]
    split <;> exact ⟨rfl, fun _ => by simp [FinalityPc.stage]⟩
  | waitFirst | waitSecond => exact ⟨rfl, fun _ => by simp [noCandidate, FinalityPc.stage]⟩

/-- Every access of the finality thread comes closer to the head of its
loop, or to the end of the block. -/
theorem finalityStep_stage (h : finalityStep blk s t 1 = some (s', t')) (hpc : t.pc ≠ .head)
    (hlt : t.pc.locks = true → t.idx < blk.size) :
    blk.size - t'.idx < blk.size - t.idx ∨ t'.idx = t.idx ∧ t'.pc.stage < t.pc.stage := by
  unfold finalityStep at h
  split at h
  case h_2 hhead => exact absurd hhead hpc
  case h_3 use hpc =>
    rw [hpc]
    obtain ⟨hidx, hstage⟩ := noCandidate_stage t use
    split at h <;> cases h
    · exact .inr ⟨hidx, (hstage 0).trans (by cases use <;> simp [FinalityPc.stage])⟩
    · exact .inr ⟨rfl, by cases use <;> simp [FinalityPc.stage]⟩
  case h_4 use hpc =>
    rw [hpc]
    obtain ⟨hidx, hstage⟩ := noCandidate_stage t use
    split at h
    · cases h
    · split at h <;> cases h
      · exact .inr ⟨hidx, (hstage 0).trans (by cases use <;> simp [FinalityPc.stage])⟩
      · exact .inr ⟨rfl, by cases use <;> simp [FinalityPc.stage]⟩
  case h_5 use hpc =>
    cases h
    rw [hpc]
    exact .inr ⟨rfl, by cases use <;> simp [FinalityPc.stage]⟩
  case h_6 use ts hpc =>
    have hlt := hlt (by rw [hpc]; rfl)
    rw [hpc]
    obtain ⟨hidx, hstage⟩ := noCandidate_stage t use
    split at h
    · split at h <;> cases h
      · exact .inl (by dsimp only; omega)
      · cases use with
        | advance previous => rename_i hno; exact absurd rfl (hno previous)
        | waitFirst | waitSecond => exact .inr ⟨rfl, by simp [FinalityPc.stage]⟩
    · cases h
      exact .inr ⟨hidx, hstage ts⟩
  case h_12 hpc =>
    split at h <;> cases h
    rw [hpc]
    exact .inr ⟨rfl, by simp [FinalityPc.stage]⟩
  case h_13 => cases h
  all_goals
    rename_i hpc
    cases h
    rw [hpc]
    refine .inr ⟨rfl, ?_⟩
    first
    | (dsimp only; split <;> simp [FinalityPc.stage])
    | simp [FinalityPc.stage]

end

section

variable [DecidableEq W] {blk : Block Err R} {backing : B.State} {σ σ' : SchedulerState W R B}

/-- Only the finality thread has moved. -/
structure FinalityAlone (σ σ' : SchedulerState W R B) : Prop where
  workers : σ'.workers = σ.workers
  commit : σ'.commit = σ.commit

theorem finality_can_move (h : Reachable blk backing σ) (hhome : ∀ w, (σ.workers w).isHome = true)
    (hpc : σ.finality.pc ≠ .finished) :
    ∃ s' t', finalityStep blk σ.shared σ.finality 1 = some (s', t') := by
  have hsome : (finalityStep blk σ.shared σ.finality 1).isSome = true := by
    refine finalityStep_isSome (fun use huse => ?_) hpc
    by_contra hlock
    have hheld : σ.shared.isHeld (.tx σ.finality.idx) = true := by
      simpa [Shared.isHeld, Option.isSome_iff_ne_none] using hlock
    obtain ⟨th, hholds⟩ := holder_of_isHeld h _ hheld
    cases th with
    | worker w => exact WorkerPc.not_holds_of_isHome (hhome w) (.tx σ.finality.idx) hholds
    | finality => simp [SchedulerState.Holds, huse, FinalityPc.locks] at hholds
    | commit => cases hholds
  obtain ⟨⟨s', t'⟩, hstep⟩ := Option.isSome_iff_exists.mp hsome
  exact ⟨s', t', hstep⟩

/-- The finality thread comes back to the head of its loop. -/
theorem leads_finality_head (h : Reachable blk backing σ)
    (hhome : ∀ w, (σ.workers w).isHome = true) :
    Runs.Leads (step blk) Runs.Free (fun σ' => (Reachable blk backing σ' ∧ FinalityAlone σ σ') ∧
      (σ'.finality.pc = .head ∨ σ'.finality.pc = .finished)) σ := by
  refine Runs.leads_of_variant (β := ℕ ×ₗ ℕ)
    (fun σ => toLex (blk.size - σ.finality.idx, σ.finality.pc.stage)) (fun σ' hσ' hstop => ?_)
    ⟨h, rfl, rfl⟩
  obtain ⟨hreach, hworkers, hcommit⟩ := hσ'
  rw [not_or] at hstop
  obtain ⟨s', t', hstep⟩ := finality_can_move hreach (fun w => hworkers ▸ hhome w) hstop.2
  refine .of_step ⟨.finality, 1⟩ trivial (step_finality hstep)
    ⟨⟨hreach.tail ⟨.finality, 1⟩ trivial (step_finality hstep), hworkers, hcommit⟩, .inr ?_⟩
  rw [Prod.Lex.toLex_lt_toLex]
  have hlt : σ'.finality.pc.locks = true → σ'.finality.idx < blk.size :=
    fun hl => (commitInv_of_reach hreach).candidate (.inr hl)
  rcases finalityStep_stage hstep hstop.1 hlt with hlt | ⟨hidx, hstage⟩
  · exact .inl hlt
  · exact .inr ⟨congrArg (blk.size - ·) hidx, hstage⟩

/-- The finality thread gives its lock back. -/
theorem leads_finality_unlocked (h : Reachable blk backing σ) :
    Runs.Leads (step blk) Runs.Free
      (fun σ' => Reachable blk backing σ' ∧ σ'.finality.pc.locks = false) σ := by
  refine Runs.leads_of_variant (P := Reachable blk backing)
    (fun σ => σ.finality.pc.stage) (fun σ' hreach hstop => ?_) h
  have hlocks : σ'.finality.pc.locks = true := Bool.eq_true_of_not_eq_false hstop
  have hsome : (finalityStep blk σ'.shared σ'.finality 1).isSome = true :=
    finalityStep_isSome (fun use huse => by rw [huse] at hlocks; cases hlocks)
      (fun hpc => by rw [hpc] at hlocks; cases hlocks)
  obtain ⟨⟨s', t'⟩, hstep⟩ := Option.isSome_iff_exists.mp hsome
  refine .of_step ⟨.finality, 1⟩ trivial (step_finality hstep)
    ⟨hreach.tail ⟨.finality, 1⟩ trivial (step_finality hstep), ?_⟩
  have hlt : σ'.finality.idx < blk.size := (commitInv_of_reach hreach).candidate (.inr hlocks)
  rcases finalityStep_stage hstep (fun hpc => by rw [hpc] at hlocks; cases hlocks)
    (fun _ => hlt) with hmore | ⟨-, hstage⟩
  · refine .inl ?_
    cases finalityStep_sound hstep
    case finalize => rfl
    all_goals exact absurd hmore (Nat.lt_irrefl _)
  · exact .inr hstage

end

/-! ## The commit loop catches up -/

/-- The accesses of one turn of `run_commit_loop`; `behind` says that
there is something to commit. -/
def CommitLoopPc.stage (behind : Bool) : CommitLoopPc R B → Nat
  | .finished _ => 0
  | .aborting _ _ _ => 1
  | .release _ => 2
  | .publish _ => 3
  | .applying _ _ _ => 4
  | .reward _ _ _ _ => 5
  | .nonce _ _ _ => 6
  | .take _ => 7
  | .finalityLoad _ => if behind then 8 else 15
  | .head => 9
  | .register | .park => 10
  | .waitFinality second => if second then 11 else 13
  | .waitAborted second => if second then 12 else 14

def CommitLoopPc.left (hB : Responsive B) : CommitLoopPc R B → Nat
  | .nonce _ _ pc | .reward _ _ _ pc => hB.basic pc
  | .applying _ _ pc => hB.commit pc
  | .aborting _ _ pc => pc.left
  | _ => 0

section

variable (hB : Responsive B) {blk : Block Err R} {s s' : Shared W R B} {t t' : CommitThread R B}

theorem startReward_stage {previous : Nat} {x : SpeculativeResult R} (behind : Bool)
    (h : startReward blk t previous x = some t') :
    t'.idx = t.idx ∧ t'.pc.stage behind < 6 := by
  rcases startReward_cases h with ⟨amount, -, rfl⟩ | ⟨-, rfl⟩
  · exact ⟨rfl, by simp [CommitLoopPc.stage]⟩
  · exact ⟨rfl, by simp [startApply, CommitLoopPc.stage]⟩

/-- Every access of the commit loop comes closer to the head of the loop
with everything final committed, or to its end. -/
theorem commitLoopStep_stage (h : commitLoopStep blk s t t.pc.choice = some (s', t'))
    (hpc : ¬ (t.pc = .head ∧ t.idx = s.ctx.finality))
    (hbehind : t.idx + t.pc.inner ≤ s.ctx.finality)
    (houtput : t.output.length = t.idx + t.pc.pushed) :
    s'.ctx.finality = s.ctx.finality ∧
      (s.ctx.finality - t'.idx < s.ctx.finality - t.idx ∨
        t'.idx = t.idx ∧
          (t'.pc.stage (t.idx < s.ctx.finality) < t.pc.stage (t.idx < s.ctx.finality) ∨
            t'.pc.stage (t.idx < s.ctx.finality) = t.pc.stage (t.idx < s.ctx.finality) ∧
              t'.pc.left hB < t.pc.left hB)) := by
  unfold commitLoopStep at h
  split at h
  case h_1 hpc | h_8 previous hpc =>
    cases h
    rw [hpc]
    exact ⟨rfl, .inr ⟨rfl, .inl (by simp [CommitLoopPc.stage])⟩⟩
  case h_2 hhead =>
    cases h
    rw [hhead] at hbehind ⊢
    have hlt : t.idx < s.ctx.finality :=
      Nat.lt_of_le_of_ne hbehind fun heq => hpc ⟨hhead, heq⟩
    refine ⟨rfl, .inr ⟨rfl, .inl ?_⟩⟩
    dsimp only
    split <;> simp [CommitLoopPc.stage, hlt]
  case h_3 previous hpc =>
    cases h
    rw [hpc]
    refine ⟨rfl, .inr ⟨rfl, .inl ?_⟩⟩
    dsimp only
    split
    · rename_i hlt
      simp [CommitLoopPc.stage, hlt]
    · rename_i hge
      split <;> simp [CommitLoopPc.stage, hge]
  case h_4 previous hpc =>
    rw [hpc]
    dsimp only at h
    split at h
    · cases h
      exact ⟨rfl, .inr ⟨rfl, .inl (by simp [CommitLoopPc.stage])⟩⟩
    · split at h
      · cases h
        exact ⟨rfl, .inr ⟨rfl, .inl (by simp [CommitLoopPc.stage])⟩⟩
      · split at h
        · obtain ⟨t₁, ht, heq⟩ := Option.map_eq_some_iff.mp h
          cases heq
          obtain ⟨hidx, hstage⟩ := startReward_stage (t.idx < s.ctx.finality) ht
          exact ⟨rfl, .inr ⟨hidx, .inl (hstage.trans (by simp [CommitLoopPc.stage]))⟩⟩
        · cases h
          exact ⟨rfl, .inr ⟨rfl, .inl (by simp [CommitLoopPc.stage])⟩⟩
  case h_5 previous x pc hpc =>
    rw [hpc]
    split at h
    · rename_i hstep
      cases h
      exact ⟨rfl, .inr ⟨rfl, .inr ⟨rfl, hB.basic_lt _ _ _ _ hstep⟩⟩⟩
    · cases h
      exact ⟨rfl, .inr ⟨rfl, .inl (by simp [CommitLoopPc.stage])⟩⟩
    · split at h
      · obtain ⟨t₁, ht, heq⟩ := Option.map_eq_some_iff.mp h
        cases heq
        obtain ⟨hidx, hstage⟩ := startReward_stage (t.idx < s.ctx.finality) ht
        exact ⟨rfl, .inr ⟨hidx, .inl (hstage.trans_le (by simp [CommitLoopPc.stage]))⟩⟩
      · cases h
        exact ⟨rfl, .inr ⟨rfl, .inl (by simp [CommitLoopPc.stage])⟩⟩
  case h_6 previous x amount pc hpc =>
    rw [hpc]
    split at h
    · rename_i hstep
      cases h
      exact ⟨rfl, .inr ⟨rfl, .inr ⟨rfl, hB.basic_lt _ _ _ _ hstep⟩⟩⟩
    · cases h
      exact ⟨rfl, .inr ⟨rfl, .inl (by simp [CommitLoopPc.stage])⟩⟩
    · cases h
      exact ⟨rfl, .inr ⟨rfl, .inl (by simp [startApply, CommitLoopPc.stage])⟩⟩
  case h_7 previous result pc hpc =>
    rw [hpc] at h ⊢
    split at h
    · rename_i hstep
      cases h
      exact ⟨rfl, .inr ⟨rfl, .inr ⟨rfl, hB.commit_lt _ _ _ _ _ hstep⟩⟩⟩
    · cases h
      exact ⟨rfl, .inr ⟨rfl, .inl (by simp [CommitLoopPc.stage])⟩⟩
    · cases h
  case h_9 previous hpc =>
    rw [hpc] at hbehind houtput
    split at h <;> cases h
    simp only [CommitLoopPc.inner, CommitLoopPc.pushed] at hbehind houtput
    exact ⟨rfl, .inl (by dsimp only; omega)⟩
  case h_10 second hpc =>
    cases h
    rw [hpc]
    refine ⟨rfl, .inr ⟨rfl, .inl ?_⟩⟩
    dsimp only
    split <;> cases second <;> simp [CommitLoopPc.stage]
  case h_11 second hpc =>
    cases h
    rw [hpc]
    refine ⟨rfl, .inr ⟨rfl, .inl ?_⟩⟩
    dsimp only
    split
    · cases second <;> simp [CommitLoopPc.stage]
    · cases second <;> simp [CommitLoopPc.stage]
  case h_12 hpc =>
    split at h <;> cases h
    rw [hpc]
    exact ⟨rfl, .inr ⟨rfl, .inl (by simp [CommitLoopPc.stage])⟩⟩
  case h_13 reason error pc hpc =>
    rw [hpc]
    split at h
    · rename_i habort
      cases h
      obtain ⟨_, _, _, _, rfl⟩ := Shared.abortStep_eq habort
      refine ⟨rfl, .inr ⟨rfl, .inr ⟨rfl, ?_⟩⟩⟩
      exact Shared.abortStep_left habort
    · rename_i habort
      cases h
      obtain ⟨_, _, _, _, rfl⟩ := Shared.abortStep_eq habort
      refine ⟨rfl, .inr ⟨rfl, .inl ?_⟩⟩
      simp [CommitLoopPc.stage]
  case h_14 => cases h

end

section

variable [DecidableEq W] {blk : Block Err R} {backing : B.State} {σ σ' : SchedulerState W R B}

/-- Everything final is committed, the commit loop has returned, or its
commit panics. -/
def CaughtUp (σ : SchedulerState W R B) : Prop :=
  σ.commit.pc = .head ∧ σ.commit.idx = σ.shared.ctx.finality ∨
    (∃ error, σ.commit.pc = .finished error) ∨ ¬ σ.CommitGoesOn

/-- **The commit loop catches up** with the finality thread. -/
theorem leads_caughtUp (hB : Responsive B)
    (hapart : ∀ t, (blk.spec t).Yields (SpeculativeResult.RewardApart blk.beneficiary))
    (h : Reachable blk backing σ) (hhome : ∀ w, (σ.workers w).isHome = true) :
    Runs.Leads (step blk) Runs.Free (fun σ' => (Reachable blk backing σ' ∧
      σ'.workers = σ.workers ∧ σ'.finality = σ.finality) ∧ CaughtUp σ') σ := by
  refine Runs.leads_of_variant (β := ℕ ×ₗ ℕ ×ₗ ℕ)
    (fun σ => toLex (σ.shared.ctx.finality - σ.commit.idx,
      toLex (σ.commit.pc.stage (σ.commit.idx < σ.shared.ctx.finality), σ.commit.pc.left hB)))
    (fun σ' hσ' hstop => ?_) ⟨h, rfl, rfl⟩
  obtain ⟨hreach, hworkers, hfinality⟩ := hσ'
  simp only [CaughtUp, not_or, not_not] at hstop
  obtain ⟨hhead, hfinished, hgoes⟩ := hstop
  have hfree : ∀ l ∈ σ'.wants blk .commit, σ'.shared.isHeld l = false := by
    intro l hl
    by_contra hheld
    obtain ⟨th, hholds⟩ := holder_of_isHeld hreach _ (Bool.eq_true_of_not_eq_false hheld)
    cases th with
    | worker w =>
      have hw : (σ'.workers w).Holds l := hholds
      exact WorkerPc.not_holds_of_isHome (hworkers ▸ hhome w) l hw
    | finality =>
      -- the commit loop takes no lock of a transaction
      cases l with
      | tx t =>
        simp only [SchedulerState.wants] at hl
        split at hl
        · split at hl <;> simp at hl
        · cases hl
      | dependent t | affects d => cases hholds
    | commit => cases hholds
  have hth : ¬ σ'.Returned .commit := hfinished
  obtain ⟨σ'', hstep⟩ := step_of_free hreach hapart (fun _ => hgoes) hfree hth
  obtain ⟨⟨s', t'⟩, hcommit, rfl⟩ := Option.map_eq_some_iff.mp hstep
  have hinv := commitInv_of_reach hreach
  obtain ⟨hsame, hlt⟩ := commitLoopStep_stage hB hcommit hhead hinv.behind hinv.output
  refine .of_step ⟨.commit, σ'.choice .commit⟩ trivial hstep
    ⟨⟨hreach.tail ⟨.commit, σ'.choice .commit⟩ trivial hstep, hworkers, hfinality⟩, .inr ?_⟩
  rw [Prod.Lex.toLex_lt_toLex, Prod.Lex.toLex_lt_toLex]
  dsimp only
  rw [hsame]
  rcases hlt with hlt | ⟨hidx, hlt⟩
  · exact .inl hlt
  · rw [hidx]
    exact .inr ⟨rfl, hlt⟩

end

/-! ## Between two transactions -/

/-- Every worker is home, and the coordinators are at the heads of their
loops with everything final committed, or have returned. -/
structure Poised (blk : Block Err R) (σ : SchedulerState W R B) : Prop where
  home : ∀ w, (σ.workers w).isHome = true
  finality : σ.finality.pc = .head ∨ σ.finality.pc = .finished
  commit : σ.commit.pc = .head ∧ σ.commit.idx = σ.shared.ctx.finality ∨
    ∃ error, σ.commit.pc = .finished error

section

variable [DecidableEq W] {blk : Block Err R} {backing : B.State} {σ σ' : SchedulerState W R B}

theorem Poised.cursor (h : Poised blk σ) (hreach : Reachable blk backing σ) :
    σ.shared.ctx.finality = σ.finality.idx := by
  have hcursor := (core_of_reach hreach).cursor
  rcases h.finality with hpc | hpc <;> simpa [hpc, FinalityPc.isPublish] using hcursor

/-- **From everywhere the threads come to rest**, unless the commit
panics. -/
theorem leads_poised [Finite W] (hB : Responsive B)
    (hapart : ∀ t, (blk.spec t).Yields (SpeculativeResult.RewardApart blk.beneficiary))
    (h : Reachable blk backing σ) :
    Runs.Leads (step blk) Runs.Free
      (fun σ' => Reachable blk backing σ' ∧ (Poised blk σ' ∨ ¬ σ'.CommitGoesOn)) σ := by
  refine (leads_finality_unlocked h).bind fun σ₁ _ hσ₁ => ?_
  refine (leads_resting hB hapart hσ₁.1 hσ₁.2).bind fun σ₂ _ hσ₂ => ?_
  obtain ⟨h₂, hrest⟩ := hσ₂
  refine (leads_finality_head h₂ hrest.home).bind fun σ₃ _ hσ₃ => ?_
  obtain ⟨⟨h₃, halone⟩, hhead⟩ := hσ₃
  have hhome₃ : ∀ w, (σ₃.workers w).isHome = true := fun w => halone.workers ▸ hrest.home w
  refine (leads_caughtUp hB hapart h₃ hhome₃).imp fun σ₄ _ hσ₄ => ?_
  obtain ⟨⟨h₄, hworkers, hfinality⟩, hup⟩ := hσ₄
  refine ⟨h₄, ?_⟩
  have hhome₄ : ∀ w, (σ₄.workers w).isHome = true := fun w => hworkers ▸ hhome₃ w
  rw [← hfinality] at hhead
  rcases hup with hcommit | hcommit | hpanics
  · exact .inl ⟨hhome₄, hhead, .inl hcommit⟩
  · exact .inl ⟨hhome₄, hhead, .inr hcommit⟩
  · exact .inr hpanics

/-! ## The end of a run -/

/-- Both coordinators have returned, and nothing keeps the workers. -/
structure Closing (blk : Block Err R) (σ : SchedulerState W R B) : Prop where
  home : ∀ w, (σ.workers w).isHome = true
  finality : σ.finality.pc = .finished
  commit : ∃ error, σ.commit.pc = .finished error
  ended : σ.shared.abort = true ∨ blk.size ≤ σ.shared.ctx.finality

theorem Closing.worker {w : W} {p : WorkerPc R B} (h : Closing blk σ) (hp : p.isHome = true) :
    Closing blk { σ with workers := Function.update σ.workers w p } where
  home w' := by
    by_cases heq : w' = w
    · subst heq
      simpa using hp
    · simpa [Function.update_of_ne heq] using h.home w'
  finality := h.finality
  commit := h.commit
  ended := h.ended

/-- One worker returns. -/
theorem Closing.leads_one (h : Closing blk σ) (w : W) :
    Runs.Leads (step blk) Runs.Free (fun σ' => Closing blk σ' ∧ σ'.workers w = .finished ∧
      ∀ w', w' ≠ w → σ.workers w' = .finished → σ'.workers w' = .finished) σ := by
  rcases WorkerPc.eq_of_isHome (h.home w) with hw | hw
  swap
  · exact .here ⟨h, hw, fun _ _ hw' => hw'⟩
  have hdone : Closing blk { σ with workers := Function.update σ.workers w .finished } ∧
      Function.update σ.workers w .finished w = .finished ∧ ∀ w', w' ≠ w →
        σ.workers w' = .finished → Function.update σ.workers w .finished w' = .finished :=
    ⟨h.worker rfl, Function.update_self .., fun w' hne hw' => by
      rwa [Function.update_of_ne hne]⟩
  by_cases hfinal : blk.size ≤ σ.shared.ctx.finality
  · have hstep : workerStep blk w σ.shared (σ.workers w) 0 = some (σ.shared, .finished) := by
      simp [hw, workerStep, hfinal]
    exact .of_step ⟨.worker w, 0⟩ trivial (step_worker hstep) hdone
  · -- the worker looks at the flag next
    have habort := h.ended.resolve_right hfinal
    let σ₁ : SchedulerState W R B :=
      { σ with workers := Function.update σ.workers w .nextAborted }
    have hlook : workerStep blk w σ.shared (σ.workers w) 0 = some (σ.shared, .nextAborted) := by
      simp [hw, workerStep, hfinal]
    have hstep : step blk σ ⟨.worker w, 0⟩ = some σ₁ := step_worker hlook
    have hleave : workerStep blk w σ₁.shared (σ₁.workers w) 0 = some (σ.shared, .finished) := by
      simp [σ₁, workerStep, habort]
    have hstep₁ : step blk σ₁ ⟨.worker w, 0⟩ =
        some { σ₁ with workers := Function.update σ₁.workers w .finished } := step_worker hleave
    refine ⟨_, .tail _ (.tail _ .refl trivial hstep) trivial hstep₁, ?_⟩
    simpa only [σ₁, Function.update_idem] using hdone

/-- **After an abort, or with the whole block final, every thread
returns.** -/
theorem Poised.leads_returned [Finite W] (h : Poised blk σ) (hreach : Reachable blk backing σ)
    (hend : σ.shared.abort = true ∨ blk.size ≤ σ.finality.idx) :
    Runs.Leads (step blk) Runs.Free (fun σ' => ∀ th, σ'.Returned th) σ := by
  have hcursor := h.cursor hreach
  -- the finality thread
  have hfinality : Runs.Leads (step blk) Runs.Free (fun σ' => σ'.finality.pc = .finished ∧
      σ'.workers = σ.workers ∧ σ'.shared = σ.shared ∧ σ'.commit = σ.commit) σ := by
    rcases h.finality with hpc | hpc
    · have hstep : finalityStep blk σ.shared σ.finality 0 =
          some (σ.shared, { σ.finality with pc := .finished }) := by
        rcases hend with hend | hend <;> simp [finalityStep, hpc, hend]
      exact .of_step ⟨.finality, 0⟩ trivial (step_finality hstep) ⟨rfl, rfl, rfl, rfl⟩
    · exact .here ⟨hpc, rfl, rfl, rfl⟩
  refine hfinality.bind fun σ₁ _ hσ₁ => ?_
  obtain ⟨hpc₁, hworkers₁, hshared₁, hcommit₁⟩ := hσ₁
  -- the commit loop
  have hcommit : Runs.Leads (step blk) Runs.Free (Closing blk) σ₁ := by
    have hended : σ₁.shared.abort = true ∨ blk.size ≤ σ₁.shared.ctx.finality := by
      rw [hshared₁, hcursor]
      exact hend
    have hhome : ∀ w, (σ₁.workers w).isHome = true := fun w => hworkers₁ ▸ h.home w
    rcases h.commit with ⟨hpc, hidx⟩ | hpc
    · rw [← hcommit₁] at hpc hidx
      have hstep : commitLoopStep blk σ₁.shared σ₁.commit 0 =
          some (σ₁.shared, { σ₁.commit with pc := .finished none }) := by
        rw [hshared₁, hcursor] at hended
        rw [hcursor] at hidx
        rcases hended with hend | hend <;> simp [commitLoopStep, hpc, hidx, hshared₁, hend]
      exact .of_step ⟨.commit, 0⟩ trivial (step_commit hstep)
        ⟨hhome, hpc₁, ⟨none, rfl⟩, hended⟩
    · rw [← hcommit₁] at hpc
      exact .here ⟨hhome, hpc₁, hpc, hended⟩
  refine hcommit.bind fun σ₂ _ hclosing => ?_
  refine (Runs.leads_forall (P := Closing blk) (Q := fun w σ => σ.workers w = .finished)
    (fun w σ hσ => hσ.leads_one w) hclosing).imp fun σ' _ hσ' => ?_
  intro th
  cases th with
  | worker w => exact hσ'.2 w
  | finality => exact hσ'.1.finality
  | commit => exact hσ'.1.commit

/-! ## Passing a candidate -/

/-- **A confirmed candidate becomes final.** -/
theorem Poised.leads_finalized (h : Poised blk σ) (hreach : Reachable blk backing σ)
    (habort : σ.shared.abort = false) (hlt : σ.finality.idx < blk.size)
    (hun : (σ.shared.txStates σ.finality.idx).status = .unconfirmed)
    (hval : σ.finality.idx < σ.shared.ctx.validation) :
    Runs.Leads (step blk) Runs.Free
      (fun σ' => Reachable blk backing σ' ∧ σ.finality.idx < σ'.finality.idx) σ := by
  have hpc : σ.finality.pc = .head := by
    refine h.finality.resolve_right fun hpc => ?_
    rcases (ended_of_reach hreach).finality hpc with ha | hge
    · simp [habort] at ha
    · omega
  have hbound := (revalidation_of_reach hreach).bound_lt
    (fun w => WorkerPc.isIdle_of_isHome (h.home w)) hun hval
  have hlock : σ.shared.txLocks σ.finality.idx = none := by
    by_contra hlock
    have hheld : σ.shared.isHeld (.tx σ.finality.idx) = true := by
      simpa [Shared.isHeld, Option.isSome_iff_ne_none] using hlock
    obtain ⟨th, hholds⟩ := holder_of_isHeld hreach _ hheld
    cases th with
    | worker w => exact WorkerPc.not_holds_of_isHome (h.home w) (.tx σ.finality.idx) hholds
    | finality => simp [SchedulerState.Holds, hpc, FinalityPc.locks] at hholds
    | commit => cases hholds
  obtain ⟨shared, workers, ⟨pc, idx, lowerTs⟩, commit⟩ := σ
  dsimp only at hpc habort hlt hun hval hbound hlock
  subst hpc
  let use := CandidateUse.advance idx
  let ts := max lowerTs (shared.ctx.lowerTimestamps idx)
  let locked := shared.setLock idx (some .finality)
  let at' (s : Shared W R B) (pc : FinalityPc) : SchedulerState W R B :=
    ⟨s, workers, ⟨pc, idx, lowerTs⟩, commit⟩
  have h₁ : step blk (at' shared .head) ⟨.finality, 0⟩ =
      some (at' shared (.candidateValidation use)) := by
    refine step_finality ?_
    simp [at', finalityStep, habort, Nat.not_le.mpr hlt, use]
  have h₂ : step blk (at' shared (.candidateValidation use)) ⟨.finality, 0⟩ =
      some (at' shared (.candidateLock use)) := by
    refine step_finality ?_
    simp [at', finalityStep, Nat.not_le.mpr hlt, Nat.not_le.mpr hval]
  have h₃ : step blk (at' shared (.candidateLock use)) ⟨.finality, 0⟩ =
      some (at' locked (.candidateLower use)) := by
    refine step_finality ?_
    simp [at', finalityStep, hlock, hun, locked]
  have h₄ : step blk (at' locked (.candidateLower use)) ⟨.finality, 0⟩ =
      some (at' locked (.candidateDecide use ts)) := by
    refine step_finality ?_
    simp [at', finalityStep, ts, locked]
  have h₅ : step blk (at' locked (.candidateDecide use ts)) ⟨.finality, 0⟩ =
      some ⟨(locked.setStatus idx .finality).setLock idx none, workers,
        ⟨.publish idx, idx + 1, ts⟩, commit⟩ := by
    refine step_finality ?_
    simp only [at', finalityStep]
    exact if_pos hbound
  have hrun : Runs.Reach (step blk) Runs.Free (at' shared .head)
      ⟨(locked.setStatus idx .finality).setLock idx none, workers,
        ⟨.publish idx, idx + 1, ts⟩, commit⟩ :=
    .tail _ (.tail _ (.tail _ (.tail _ (.tail _ .refl trivial h₁) trivial h₂) trivial h₃) trivial
      h₄) trivial h₅
  exact ⟨_, hrun, hreach.trans hrun, Nat.lt_succ_self idx⟩

end

end Grevm
