/-
Grevm.Scheduler.WakeUps — no wake-up of a coordinator is lost.

`src/scheduler/wait.rs`: a coordinator checks its predicate twice and then
parks, and `unpark` leaves a token that the next `park` consumes. Whoever
makes the predicate of a coordinator fail therefore has to notify it
afterwards, and the coordinator has to be registered by then.

The invariant says of each coordinator, once it is past its last check,
that what it waits for is either announced by the token or still owed to
it by some thread: by a canceller, by a worker that has claimed the
candidate or validated it, or by the finality loop in the middle of a
batch.
-/
import Grevm.Scheduler.Guards
import Grevm.Scheduler.Progress

namespace Grevm

variable {Err W R : Type} {B : Backing Err}

/-- The transaction at the finality cursor is an eligible candidate. -/
def GuardedState.Eligible (blk : Block Err R) (σ : GuardedState W R B) : Prop :=
  (lockFinalityCandidate blk σ.run.shared σ.run.finality.idx σ.run.finality.lowerTs).isSome

/-! ## What a worker does to the coordinators -/

section Workers

variable {blk : Block Err R} {s s' : Shared W R B} {p p' : WorkerPc R B} {w : W}

/-- Inside `cancel` a worker makes the steps of `cancel`. -/
theorem WorkerStep.cancel {c : CancelPc} (h : WorkerStep blk w s p s' p')
    (hc : p.cancelPc = some c) :
    (∃ txLocks, s' = { (s.cancelStep c).1 with txLocks }) ∧ p'.cancelPc = (s.cancelStep c).2 := by
  cases h with
  | exec hs =>
    cases hs <;> try cases hc
    case errAbort ha | errAborted ha | parallelError ha | parallelErrorEnd ha =>
      obtain ⟨heq, hnext⟩ := Shared.abortStep_cancel hc ha
      rw [heq]
      exact ⟨⟨_, rfl⟩, hnext⟩
  | val hs =>
    cases hs <;> try cases hc
    case parallelError ha | parallelErrorEnd ha =>
      obtain ⟨heq, hnext⟩ := Shared.abortStep_cancel hc ha
      rw [heq]
      exact ⟨⟨_, rfl⟩, hnext⟩
  | idle hp => cases p <;> first | cases hc | cases hp
  | frontier _ hp => cases p <;> first | cases hc | cases hp
  | _ => cases hc

/-- Outside `cancel` a worker touches the wait slots only to notify the
finality coordinator. -/
structure WorkerWaits (s s' : Shared W R B) (p : WorkerPc R B) : Prop where
  abort : s'.abort = s.abort
  commitWait : s'.commitWait = s.commitWait
  finalityWait : s'.finalityWait = s.finalityWait ∨
    p = .wake ∧ s'.finalityWait = s.finalityWait.notify

theorem WorkerWaits.of_reason {reason : AbortReason Err} {pc : AbortPc} {next : Option AbortPc}
    (hc : pc.cancelPc = none) (ha : s.abortStep reason pc = (s', next)) : WorkerWaits s s' p := by
  rw [Shared.abortStep_reasonOnly hc ha]
  exact ⟨rfl, rfl, .inl rfl⟩

theorem WorkerStep.waits (h : WorkerStep blk w s p s' p') (hc : p.cancelPc = none) :
    WorkerWaits s s' p := by
  cases h with
  | wake => exact ⟨rfl, rfl, .inr ⟨rfl, rfl⟩⟩
  | exec hs =>
    cases hs
    case errAbort ha | errAborted ha | parallelError ha => exact .of_reason hc ha
    case parallelErrorEnd ha =>
      rw [Shared.abortStep_reasonOnly hc ha]
      exact ⟨rfl, rfl, .inl rfl⟩
    case frontierFinish tail _ _ _ _ _ | rewindFinish tail _ _ _ =>
      cases tail <;> exact ⟨rfl, rfl, .inl rfl⟩
    all_goals exact ⟨rfl, rfl, .inl rfl⟩
  | val hs =>
    cases hs
    case parallelError ha => exact .of_reason hc ha
    case parallelErrorEnd ha =>
      rw [Shared.abortStep_reasonOnly hc ha]
      exact ⟨rfl, rfl, .inl rfl⟩
    all_goals exact ⟨rfl, rfl, .inl rfl⟩
  | _ => exact ⟨rfl, rfl, .inl rfl⟩

theorem unconfirmed_of_update {f : Nat → TxState} {t t' : Nat} {x : TxState}
    (hx : x.status ≠ .unconfirmed) (h : (Function.update f t' x t).status = .unconfirmed) :
    (f t).status = .unconfirmed := by
  by_cases ht : t = t'
  · subst ht
    rw [Function.update_self] at h
    exact absurd h hx
  · rwa [Function.update_of_ne ht] at h

/-- A transaction becomes unconfirmed only for a worker that then makes
the notify check for it. -/
theorem WorkerStep.unconfirmed_wakes {t : Nat} (h : WorkerStep blk w s p s' p')
    (hun : (s'.txStates t).status = .unconfirmed) :
    (s.txStates t).status = .unconfirmed ∨ p' = .wakeLoad t := by
  cases h with
  | claimed | startTask => exact .inl (unconfirmed_of_update (by simp) hun)
  | exec hs =>
    refine .inl ?_
    cases hs
    case settle e _ =>
      refine unconfirmed_of_update ?_ hun
      cases e.db.isBlocked <;> simp
    case errSettle => exact unconfirmed_of_update (by simp) hun
    case frontierFinish tail _ _ _ _ _ | rewindFinish tail _ _ _ =>
      cases tail
      case revalidate => exact unconfirmed_of_update (by simp) hun
      all_goals exact hun
    all_goals exact hun
  | @val v _ _ _ hs =>
    cases hs
    case invalidateLast | rewound => exact .inl (unconfirmed_of_update (by simp) hun)
    case unconfirm =>
      by_cases ht : t = v.txid
      · exact .inr (by rw [ht])
      · exact .inl (by simpa [Function.update_of_ne ht] using hun)
    all_goals exact .inl hun
  | _ => exact .inl hun

/-- A worker makes a transaction a candidate by moving the validation
cursor past it, and then holds the claim, or by validating it, and then
makes the notify check. -/
theorem WorkerStep.candidate {i ts : Nat} (h : WorkerStep blk w s p s' p')
    (hcand : (lockFinalityCandidate blk s' i ts).isSome) :
    (lockFinalityCandidate blk s i ts).isSome ∨ p' = .claimLock i ∨ p' = .wakeLoad i := by
  obtain ⟨hsize, hvalidation, hstatus, hts⟩ := isSome_lockFinalityCandidate.mp hcand
  have hlower := h.clockStep.lower i
  by_cases hclaim : p' = .claimLock i
  · exact .inr (.inl hclaim)
  by_cases hwake : p' = .wakeLoad i
  · exact .inr (.inr hwake)
  have hstatus' := (h.unconfirmed_wakes hstatus).resolve_right hwake
  have hvalidation' : i < s.ctx.validation := by
    cases h.cursorMove with
    | draw _ hv | raise _ hv | rewind _ hv | keep hv => omega
    | claim hv _ _ _ hp' =>
      have hne : s.ctx.validation ≠ i := by
        intro heq
        exact hclaim (heq ▸ hp')
      omega
  have hun : s'.ctx.unconfirmedTimestamps i = s.ctx.unconfirmedTimestamps i := by
    rcases h.unconfirmed with heq | ⟨v, ts, dependency, rfl, heq⟩
    · rw [heq]
    · rw [heq]
      refine Function.update_of_ne ?_ _ _
      intro hi
      cases h with
      | val hs =>
        cases hs
        exact hwake (by rw [hi])
      | idle hp | frontier _ hp => cases hp
  exact .inl (isSome_lockFinalityCandidate.mpr ⟨hsize, hvalidation', hstatus', by omega⟩)

end Workers

/-! ## The invariant -/

/-- Past its last look at the abort flag: a check is still to be made,
then the finality coordinator parks. -/
def FinalityPc.parking : FinalityPc → Bool
  | .candidateValidation .waitSecond | .candidateLock .waitSecond
  | .candidateLower .waitSecond | .candidateDecide .waitSecond _ | .park => true
  | _ => false

def CommitLoopPc.parking : CommitLoopPc R B → Bool
  | .waitFinality true | .park => true
  | _ => false

/-- Where the batch of the finality loop has begun. -/
def FinalityPc.batch : FinalityPc → Option Nat
  | .candidateValidation (.advance previous) | .candidateLock (.advance previous)
  | .candidateLower (.advance previous) | .candidateDecide (.advance previous) _
  | .publish previous | .notifyFirst previous | .notifyBatch previous => some previous
  | _ => none

/-- The finality loop is going to notify the commit coordinator: of the
first transaction of the batch, or of the batch once it has two. -/
def FinalityThread.owes (t : FinalityThread) : Prop :=
  (∃ previous, t.pc = .notifyFirst previous) ∨
    ∃ previous, t.pc.batch = some previous ∧ previous + 1 < t.idx

/-- The guard has set the abort flag. -/
def GuardPc.flagged : GuardPc → Bool
  | .cancelling .wakeFinality | .cancelling .wakeCommit | .released => true
  | _ => false

namespace GuardedState

/-- A canceller has still to notify the finality coordinator. -/
def OwesFinality (σ : GuardedState W R B) : Prop :=
  ∃ guard c, σ.cancelPc guard = some c ∧ c ≠ .wakeCommit

/-- A canceller has still to notify the commit coordinator. -/
def OwesCommit (σ : GuardedState W R B) : Prop := ∃ guard c, σ.cancelPc guard = some c

/-- A worker is going to validate `txid`, or to notify the finality
coordinator of it. -/
def Wakes (σ : GuardedState W R B) (w : W) (txid : Nat) : Prop :=
  σ.guards (some (.worker w)) = .armed ∧
    (σ.run.workers w = .claimLock txid ∨ σ.run.workers w = .wakeLoad txid ∨
      σ.run.workers w = .wake ∧ σ.checked w = some txid)

theorem Wakes.concerns {σ : GuardedState W R B} {w : W} {txid : Nat} (h : σ.Wakes w txid) :
    σ.Concerns w txid := by
  obtain ⟨harmed, hw | hw | ⟨hw, hchecked⟩⟩ := h
  · exact ⟨harmed, by rw [hw]; rfl⟩
  · exact ⟨harmed, by rw [hw]; rfl⟩
  · exact ⟨harmed, by rw [hw]; exact hchecked⟩

end GuardedState

/-- The coordinators are registered and their cursors describe each
other. -/
structure Coordinated (σ : GuardedState W R B) : Prop where
  finalityRegistered : σ.run.finality.pc ≠ .register →
    σ.run.shared.finalityWait.registered = true
  commitRegistered : σ.run.commit.pc ≠ .register → σ.run.shared.commitWait.registered = true
  cursor : σ.run.shared.ctx.finality + (if σ.run.finality.pc.isPublish then 1 else 0)
    = σ.run.finality.idx
  batch : ∀ previous, σ.run.finality.pc.batch = some previous →
    previous + (if σ.run.finality.pc.isPublish then 1 else 0) ≤ σ.run.finality.idx
  effective : ∀ use effectiveLowerTs, σ.run.finality.pc = .candidateDecide use effectiveLowerTs →
    effectiveLowerTs
      ≤ max σ.run.finality.lowerTs (σ.run.shared.ctx.lowerTimestamps σ.run.finality.idx)
  flagged : ∀ guard, (σ.guards guard).flagged = true → σ.run.shared.abort = true

/-- What the finality coordinator waits for is announced or owed. -/
structure FinalityAwake (blk : Block Err R) (σ : GuardedState W R B) : Prop where
  abort : σ.run.finality.pc.parking = true → σ.run.shared.abort = true →
    σ.run.shared.finalityWait.token = true ∨ σ.OwesFinality
  candidate : σ.run.finality.pc = .park → σ.Eligible blk →
    σ.run.shared.finalityWait.token = true ∨ (∃ w, σ.Wakes w σ.run.finality.idx) ∨
      σ.OwesFinality

/-- What the commit coordinator waits for is announced or owed. -/
structure CommitAwake (σ : GuardedState W R B) : Prop where
  abort : σ.run.commit.pc.parking = true → σ.run.shared.abort = true →
    σ.run.shared.commitWait.token = true ∨ σ.OwesCommit
  finality : σ.run.commit.pc = .park → σ.run.commit.idx < σ.run.shared.ctx.finality →
    σ.run.shared.commitWait.token = true ∨ σ.run.finality.owes ∨ σ.OwesCommit

section Frames

variable {blk : Block Err R} {σ σ' : GuardedState W R B}

theorem WaitSlot.token_notify {slot : WaitSlot} (h : slot.registered = true) :
    slot.notify.token = true := by
  simp [WaitSlot.notify, h]

theorem WaitSlot.token_le_notify {slot : WaitSlot} (h : slot.token = true) :
    slot.notify.token = true := by
  unfold WaitSlot.notify
  split
  · rfl
  · exact h

theorem WaitSlot.registered_notify {slot : WaitSlot} :
    slot.notify.registered = slot.registered := by
  unfold WaitSlot.notify
  split <;> rfl

/-- The finality thread has not moved. -/
theorem FinalityAwake.frame (h : FinalityAwake blk σ)
    (hfinality : σ'.run.finality = σ.run.finality)
    (htoken : σ.run.shared.finalityWait.token = true → σ'.run.shared.finalityWait.token = true)
    (habort : σ'.run.shared.abort = true → σ.run.shared.abort = true ∨ σ'.OwesFinality)
    (howes : σ.run.finality.pc.parking = true → σ.OwesFinality →
      σ'.run.shared.finalityWait.token = true ∨ σ'.OwesFinality)
    (hcandidate : σ.run.finality.pc = .park → σ'.Eligible blk →
      σ.Eligible blk ∨ ∃ w, σ'.Wakes w σ.run.finality.idx)
    (hwakes : σ.run.finality.pc = .park → σ'.Eligible blk → ∀ w, σ.Wakes w σ.run.finality.idx →
      σ'.run.shared.finalityWait.token = true ∨ σ'.Wakes w σ.run.finality.idx) :
    FinalityAwake blk σ' := by
  refine ⟨fun hpc ha => ?_, fun hpc hcand => ?_⟩
  · rw [hfinality] at hpc
    rcases habort ha with ha | ho
    · exact (h.abort hpc ha).elim (fun ht => .inl (htoken ht)) (howes hpc)
    · exact .inr ho
  · rw [hfinality] at hpc ⊢
    rcases hcandidate hpc hcand with hold | hnew
    · rcases h.candidate hpc hold with ht | ⟨w, hw⟩ | ho
      · exact .inl (htoken ht)
      · exact (hwakes hpc hcand w hw).imp_right fun hw => .inl ⟨w, hw⟩
      · exact (howes (by rw [hpc]; rfl) ho).imp_right .inr
    · exact .inr (.inl hnew)

/-- The commit thread has not moved. -/
theorem CommitAwake.frame (h : CommitAwake σ) (hcommit : σ'.run.commit = σ.run.commit)
    (htoken : σ.run.shared.commitWait.token = true → σ'.run.shared.commitWait.token = true)
    (habort : σ'.run.shared.abort = true → σ.run.shared.abort = true ∨ σ'.OwesCommit)
    (howes : σ.run.commit.pc.parking = true → σ.OwesCommit →
      σ'.run.shared.commitWait.token = true ∨ σ'.OwesCommit)
    (hfinality : σ.run.commit.pc = .park →
      σ.run.commit.idx < σ'.run.shared.ctx.finality →
        σ.run.commit.idx < σ.run.shared.ctx.finality ∨ σ'.run.finality.owes)
    (hbatch : σ.run.commit.pc = .park → σ.run.finality.owes →
      σ'.run.shared.commitWait.token = true ∨ σ'.run.finality.owes) :
    CommitAwake σ' := by
  refine ⟨fun hpc ha => ?_, fun hpc hlt => ?_⟩
  · rw [hcommit] at hpc
    rcases habort ha with ha | ho
    · exact (h.abort hpc ha).elim (fun ht => .inl (htoken ht)) (howes hpc)
    · exact .inr ho
  · rw [hcommit] at hpc hlt
    rcases hfinality hpc hlt with hold | hnew
    · rcases h.finality hpc hold with ht | hf | ho
      · exact .inl (htoken ht)
      · exact (hbatch hpc hf).imp_right .inl
      · exact (howes (by rw [hpc]; rfl) ho).imp_right .inr
    · exact .inr (.inl hnew)

end Frames

/-! ## Panics and cancellation -/

section Cancel

variable {blk : Block Err R} {σ σ' : GuardedState W R B} {guard : Option (Thread W)} {c : CancelPc}

/-- A step of `cancel`, made by `abort` or by a guard. -/
structure CancelMove (σ σ' : GuardedState W R B) (guard : Option (Thread W)) (c : CancelPc) :
    Prop where
  before : σ.cancelPc guard = some c
  after : σ'.cancelPc guard = (σ.run.shared.cancelStep c).2
  others : ∀ other, other ≠ guard → σ'.cancelPc other = σ.cancelPc other
  shared : ∃ txLocks, σ'.run.shared = { (σ.run.shared.cancelStep c).1 with txLocks }
  finality : σ'.run.finality = σ.run.finality
  wakes : ∀ w txid, σ.Wakes w txid → σ'.Wakes w txid

/-- `cancel` touches the flag and the two wait slots. -/
theorem CancelMove.frame (h : CancelMove σ σ' guard c) :
    σ'.run.shared.ctx = σ.run.shared.ctx ∧ σ'.run.shared.txStates = σ.run.shared.txStates ∧
      (σ.run.shared.finalityWait.token = true → σ'.run.shared.finalityWait.token = true) ∧
      (σ.run.shared.commitWait.token = true → σ'.run.shared.commitWait.token = true) := by
  obtain ⟨txLocks, hshared⟩ := h.shared
  rw [hshared]
  cases c with
  | flag => exact ⟨rfl, rfl, id, id⟩
  | wakeFinality => exact ⟨rfl, rfl, WaitSlot.token_le_notify, id⟩
  | wakeCommit => exact ⟨rfl, rfl, id, WaitSlot.token_le_notify⟩

/-- When the flag goes up, its canceller has both notifications before
it. -/
theorem CancelMove.abort (h : CancelMove σ σ' guard c) (ha : σ'.run.shared.abort = true) :
    σ.run.shared.abort = true ∨ σ'.OwesFinality := by
  obtain ⟨txLocks, hshared⟩ := h.shared
  rw [hshared] at ha
  cases c with
  | flag => exact .inr ⟨guard, .wakeFinality, h.after, nofun⟩
  | wakeFinality | wakeCommit => exact .inl ha

theorem CancelMove.owesFinality (h : CancelMove σ σ' guard c)
    (hregistered : σ.run.shared.finalityWait.registered = true) (ho : σ.OwesFinality) :
    σ'.run.shared.finalityWait.token = true ∨ σ'.OwesFinality := by
  obtain ⟨txLocks, hshared⟩ := h.shared
  cases c with
  | flag => exact .inr ⟨guard, .wakeFinality, h.after, nofun⟩
  | wakeFinality =>
    rw [hshared]
    exact .inl (WaitSlot.token_notify hregistered)
  | wakeCommit =>
    obtain ⟨other, c, hc, hne⟩ := ho
    have hother : other ≠ guard := by
      rintro rfl
      rw [h.before] at hc
      cases hc
      exact hne rfl
    exact .inr ⟨other, c, by rw [h.others other hother, hc], hne⟩

theorem CancelMove.owesCommit (h : CancelMove σ σ' guard c)
    (hregistered : σ.run.shared.commitWait.registered = true) :
    σ'.run.shared.commitWait.token = true ∨ σ'.OwesCommit := by
  obtain ⟨txLocks, hshared⟩ := h.shared
  cases c with
  | flag => exact .inr ⟨guard, .wakeFinality, h.after⟩
  | wakeFinality => exact .inr ⟨guard, .wakeCommit, h.after⟩
  | wakeCommit =>
    rw [hshared]
    exact .inl (WaitSlot.token_notify hregistered)

theorem GuardedState.OwesFinality.owesCommit (h : σ.OwesFinality) : σ.OwesCommit := by
  obtain ⟨other, c, hc, -⟩ := h
  exact ⟨other, c, hc⟩

theorem Coordinated.finalityRegistered_of_parking (h : Coordinated σ)
    (hpc : σ.run.finality.pc.parking = true) :
    σ.run.shared.finalityWait.registered = true := by
  refine h.finalityRegistered fun heq => ?_
  rw [heq] at hpc
  cases hpc

theorem Coordinated.commitRegistered_of_parking (h : Coordinated σ)
    (hpc : σ.run.commit.pc.parking = true) : σ.run.shared.commitWait.registered = true := by
  refine h.commitRegistered fun heq => ?_
  rw [heq] at hpc
  cases hpc

theorem eligible_of_frame (hctx : σ'.run.shared.ctx = σ.run.shared.ctx)
    (hstates : σ'.run.shared.txStates = σ.run.shared.txStates)
    (hfinality : σ'.run.finality = σ.run.finality) (h : σ'.Eligible blk) : σ.Eligible blk := by
  unfold GuardedState.Eligible at h ⊢
  rw [isSome_lockFinalityCandidate] at h ⊢
  rwa [hctx, hstates, hfinality] at h

theorem CancelMove.finalityAwake (h : CancelMove σ σ' guard c) (hco : Coordinated σ)
    (hinv : FinalityAwake blk σ) : FinalityAwake blk σ' := by
  obtain ⟨hctx, hstates, htoken, -⟩ := h.frame
  refine hinv.frame h.finality htoken h.abort ?_ ?_ ?_
  · intro hpc ho
    exact h.owesFinality (hco.finalityRegistered_of_parking hpc) ho
  · intro _ hcand
    exact .inl (eligible_of_frame hctx hstates h.finality hcand)
  · intro _ _ w hw
    exact .inr (h.wakes w _ hw)

theorem CancelMove.commitAwake (h : CancelMove σ σ' guard c) (hco : Coordinated σ)
    (hcommit : σ'.run.commit = σ.run.commit) (hinv : CommitAwake σ) : CommitAwake σ' := by
  obtain ⟨hctx, -, -, htoken⟩ := h.frame
  refine hinv.frame hcommit htoken ?_ ?_ ?_ ?_
  · intro ha
    exact (h.abort ha).imp_right GuardedState.OwesFinality.owesCommit
  · intro hpc _
    exact h.owesCommit (hco.commitRegistered_of_parking hpc)
  · intro _ hlt
    rw [hctx] at hlt
    exact .inl hlt
  · intro _ ho
    rw [h.finality]
    exact .inr ho

/-- A canceller in front of its first notification covers both
coordinators. -/
theorem awake_of_owes (h : σ.OwesFinality) : FinalityAwake blk σ ∧ CommitAwake σ :=
  ⟨⟨fun _ _ => .inr h, fun _ _ => .inr (.inr h)⟩,
    ⟨fun _ _ => .inr h.owesCommit, fun _ _ => .inr (.inr h.owesCommit)⟩⟩

/-- A thread outside `cancel` moves: the cancellers stay where they
are. -/
theorem cancelPc_of_others {other : Option (Thread W)} {c : CancelPc}
    (hnone : σ.cancelPc guard = none)
    (hothers : ∀ other, other ≠ guard → σ'.cancelPc other = σ.cancelPc other)
    (hc : σ.cancelPc other = some c) : σ'.cancelPc other = some c := by
  have hother : other ≠ guard := by
    rintro rfl
    rw [hnone] at hc
    cases hc
  rw [hothers other hother, hc]

theorem owesFinality_of_others (hnone : σ.cancelPc guard = none)
    (hothers : ∀ other, other ≠ guard → σ'.cancelPc other = σ.cancelPc other)
    (h : σ.OwesFinality) : σ'.OwesFinality := by
  obtain ⟨other, c, hc, hne⟩ := h
  exact ⟨other, c, cancelPc_of_others hnone hothers hc, hne⟩

theorem owesCommit_of_others (hnone : σ.cancelPc guard = none)
    (hothers : ∀ other, other ≠ guard → σ'.cancelPc other = σ.cancelPc other)
    (h : σ.OwesCommit) : σ'.OwesCommit := by
  obtain ⟨other, c, hc⟩ := h
  exact ⟨other, c, cancelPc_of_others hnone hothers hc⟩

end Cancel

/-! ## Steps of the workers, the guards and panics -/

section Steps

variable {blk : Block Err R} {σ σ' : GuardedState W R B}

/-- The finality thread has not moved, and nothing it relies on has gone
back. -/
theorem Coordinated.frame (h : Coordinated σ) (hfinality : σ'.run.finality = σ.run.finality)
    (hcommit : σ'.run.commit.pc ≠ .register → σ.run.commit.pc ≠ .register)
    (hfregistered : σ.run.shared.finalityWait.registered = true →
      σ'.run.shared.finalityWait.registered = true)
    (hcregistered : σ.run.shared.commitWait.registered = true →
      σ'.run.shared.commitWait.registered = true)
    (hcursor : σ'.run.shared.ctx.finality = σ.run.shared.ctx.finality)
    (hlower : ∀ t, σ.run.shared.ctx.lowerTimestamps t ≤ σ'.run.shared.ctx.lowerTimestamps t)
    (hflagged : ∀ guard, (σ'.guards guard).flagged = true → σ'.run.shared.abort = true) :
    Coordinated σ' where
  finalityRegistered hpc := hfregistered (h.finalityRegistered (by rwa [hfinality] at hpc))
  commitRegistered hpc := hcregistered (h.commitRegistered (hcommit hpc))
  cursor := by
    rw [hcursor, hfinality]
    exact h.cursor
  batch := by
    rw [hfinality]
    exact h.batch
  effective use effectiveLowerTs hpc := by
    rw [hfinality] at hpc ⊢
    have := h.effective use effectiveLowerTs hpc
    have := hlower σ.run.finality.idx
    omega
  flagged := hflagged

theorem CancelMove.coordinated {guard : Option (Thread W)} {c : CancelPc}
    (h : CancelMove σ σ' guard c) (hco : Coordinated σ)
    (hcommit : σ'.run.commit.pc ≠ .register → σ.run.commit.pc ≠ .register)
    (hflagged : ∀ other, (σ'.guards other).flagged = true →
      (σ.guards other).flagged = true ∨ σ'.run.shared.abort = true) :
    Coordinated σ' := by
  obtain ⟨txLocks, hshared⟩ := h.shared
  have hframe : σ'.run.shared.finalityWait.registered = σ.run.shared.finalityWait.registered ∧
      σ'.run.shared.commitWait.registered = σ.run.shared.commitWait.registered ∧
      (σ.run.shared.abort = true → σ'.run.shared.abort = true) := by
    rw [hshared]
    cases c with
    | flag => exact ⟨rfl, rfl, fun _ => rfl⟩
    | wakeFinality => exact ⟨WaitSlot.registered_notify, rfl, id⟩
    | wakeCommit => exact ⟨rfl, WaitSlot.registered_notify, id⟩
  obtain ⟨hf, hc, habort⟩ := hframe
  have hctx := h.frame.1
  refine hco.frame h.finality hcommit (hf ▸ id) (hc ▸ id) (by rw [hctx]) (by rw [hctx]; simp) ?_
  intro other hother
  exact (hflagged other hother).elim (fun hold => habort (hco.flagged other hold)) id

/-- No wake-up is lost, as an invariant. -/
structure WakeInv (blk : Block Err R) (σ : GuardedState W R B) : Prop where
  coordinated : Coordinated σ
  finality : FinalityAwake blk σ
  commit : CommitAwake σ

/-- The state after a step of a worker. -/
def GuardedState.moveWorker [DecidableEq W] (σ : GuardedState W R B) (w : W)
    (shared : Shared W R B) (pc : WorkerPc R B) : GuardedState W R B :=
  { σ with
    run := { σ.run with shared, workers := Function.update σ.run.workers w pc }
    checked := σ.checkedAfter (.worker w) }

section Worker

variable [DecidableEq W] {w : W} {s' : Shared W R B} {p' : WorkerPc R B}

theorem cancelPc_moveWorker_of_ne {guard : Option (Thread W)} (h : guard ≠ some (.worker w)) :
    (σ.moveWorker w s' p').cancelPc guard = σ.cancelPc guard := by
  unfold GuardedState.cancelPc GuardedState.moveWorker
  cases guard with
  | none => rfl
  | some thread =>
    cases thread with
    | worker w' =>
      have hne : w' ≠ w := fun heq => h (by rw [heq])
      simp [Function.update_of_ne hne]
    | finality | commit => rfl

theorem cancelPc_moveWorker (harmed : σ.guards (some (.worker w)) = .armed) :
    (σ.moveWorker w s' p').cancelPc (some (.worker w)) = p'.cancelPc := by
  simp [GuardedState.cancelPc, GuardedState.moveWorker, harmed]

/-- The other workers go on as before. -/
theorem wakes_moveWorker_of_ne {w' : W} {txid : Nat} (hne : w' ≠ w) (h : σ.Wakes w' txid) :
    (σ.moveWorker w s' p').Wakes w' txid := by
  obtain ⟨harmed, hpc⟩ := h
  refine ⟨harmed, ?_⟩
  have hworkers : (σ.moveWorker w s' p').run.workers w' = σ.run.workers w' :=
    Function.update_of_ne hne _ _
  have hchecked : (σ.moveWorker w s' p').checked w' = σ.checked w' := by
    simp only [GuardedState.moveWorker, GuardedState.checkedAfter]
    generalize σ.run.workers w = p
    cases p with
    | wakeLoad t => exact Function.update_of_ne hne _ _
    | _ => rfl
  rw [hworkers, hchecked]
  exact hpc

theorem worker_cancelMove {c : CancelPc} (harmed : σ.guards (some (.worker w)) = .armed)
    (hs : WorkerStep blk w σ.run.shared (σ.run.workers w) s' p')
    (hc : (σ.run.workers w).cancelPc = some c) :
    CancelMove σ (σ.moveWorker w s' p') (some (.worker w)) c where
  before := by simp [GuardedState.cancelPc, harmed, hc]
  after := by
    rw [cancelPc_moveWorker harmed]
    exact (hs.cancel hc).2
  others _ hne := cancelPc_moveWorker_of_ne hne
  shared := (hs.cancel hc).1
  finality := rfl
  wakes w' txid hw := by
    refine wakes_moveWorker_of_ne ?_ hw
    rintro rfl
    obtain ⟨-, hpc | hpc | ⟨hpc, -⟩⟩ := hw <;> simp [hpc, WorkerPc.cancelPc] at hc

/-- A worker that has claimed or validated the candidate of the parked
finality coordinator either ends its eligibility or leaves the token. -/
theorem wakes_moveWorker {choice txid : Nat} (harmed : σ.guards (some (.worker w)) = .armed)
    (hstep : workerStep blk w σ.run.shared (σ.run.workers w) choice = some (s', p'))
    (hcursor : σ.run.shared.ctx.finality = txid)
    (hregistered : σ.run.shared.finalityWait.registered = true)
    (hun : (s'.txStates txid).status = .unconfirmed) (hw : σ.Wakes w txid) :
    s'.finalityWait.token = true ∨ (σ.moveWorker w s' p').Wakes w txid := by
  obtain ⟨-, hpc | hpc | ⟨hpc, hchecked⟩⟩ := hw
  · -- The claim takes the transaction out of `Unconfirmed`.
    rw [hpc] at hstep
    cases workerStep_sound hstep with
    | claimed => simp at hun
    | claimMissed _ hs => exact absurd hun hs.2
    | idle hp | frontier _ hp => cases hp
  · rw [hpc] at hstep
    simp only [workerStep, hcursor, if_true, Option.some.injEq, Prod.mk.injEq] at hstep
    obtain ⟨rfl, rfl⟩ := hstep
    refine .inr ⟨harmed, .inr (.inr ⟨?_, ?_⟩)⟩
    · simp [GuardedState.moveWorker]
    · simp [GuardedState.moveWorker, GuardedState.checkedAfter, hpc]
  · rw [hpc] at hstep
    cases hstep
    exact .inl (WaitSlot.token_notify hregistered)

theorem WakeInv.worker {choice : Nat} (h : WakeInv blk σ)
    (harmed : σ.guards (some (.worker w)) = .armed)
    (hstep : workerStep blk w σ.run.shared (σ.run.workers w) choice = some (s', p')) :
    WakeInv blk (σ.moveWorker w s' p') := by
  have hs := workerStep_sound hstep
  cases hc : (σ.run.workers w).cancelPc with
  | some c =>
    have hmove := worker_cancelMove harmed hs hc
    exact ⟨hmove.coordinated h.coordinated id fun _ hf => .inl hf,
      hmove.finalityAwake h.coordinated h.finality, hmove.commitAwake h.coordinated rfl h.commit⟩
  | none =>
    obtain ⟨habort, hcommit, hwait⟩ := hs.waits hc
    have hcursor := hs.cursors.1
    have htoken : σ.run.shared.finalityWait.token = true → s'.finalityWait.token = true := by
      intro ht
      rcases hwait with heq | ⟨-, heq⟩ <;> rw [heq]
      · exact ht
      · exact WaitSlot.token_le_notify ht
    have hregistered : σ.run.shared.finalityWait.registered = true →
        s'.finalityWait.registered = true := by
      intro hr
      rcases hwait with heq | ⟨-, heq⟩ <;> rw [heq]
      · exact hr
      · rwa [WaitSlot.registered_notify]
    have hnone : σ.cancelPc (some (.worker w)) = none := by
      simp [GuardedState.cancelPc, harmed, hc]
    have hothers : ∀ other, other ≠ some (.worker w) →
        (σ.moveWorker w s' p').cancelPc other = σ.cancelPc other :=
      fun _ hne => cancelPc_moveWorker_of_ne hne
    refine ⟨?_, ?_, ?_⟩
    · refine h.coordinated.frame rfl id hregistered (fun hr => ?_) hcursor hs.clockStep.lower ?_
      · show s'.commitWait.registered = true
        rwa [hcommit]
      · intro guard hf
        show s'.abort = true
        rw [habort]
        exact h.coordinated.flagged guard hf
    · refine h.finality.frame rfl htoken (fun ha => .inl ?_)
        (fun _ ho => .inr (owesFinality_of_others hnone hothers ho)) ?_ ?_
      · rwa [← habort]
      · intro _ hcand
        refine (hs.candidate hcand).imp_right fun hp' => ⟨w, harmed, ?_⟩
        have hself : (σ.moveWorker w s' p').run.workers w = p' := Function.update_self _ _ _
        rw [hself]
        exact hp'.imp_right .inl
      · intro hpc hcand w' hw
        by_cases hne : w' = w
        · subst hne
          have hidx : σ.run.shared.ctx.finality = σ.run.finality.idx := by
            simpa [hpc, FinalityPc.isPublish] using h.coordinated.cursor
          have hun := (isSome_lockFinalityCandidate.mp hcand).2.2.1
          exact wakes_moveWorker harmed hstep hidx
            (h.coordinated.finalityRegistered (by simp [hpc])) hun hw
        · exact .inr (wakes_moveWorker_of_ne hne hw)
    · refine h.commit.frame rfl (fun ht => ?_) (fun ha => .inl ?_)
        (fun _ ho => .inr (owesCommit_of_others hnone hothers ho)) (fun _ hlt => .inl ?_)
        fun _ ho => .inr ho
      · show s'.commitWait.token = true
        rwa [hcommit]
      · rwa [← habort]
      · rwa [← hcursor]

end Worker

section Guards

variable [DecidableEq W] {guard : Option (Thread W)}

theorem WakeInv.panic (h : WakeInv blk σ) :
    WakeInv blk { σ with
      run := { σ.run with shared := σ.run.shared.unwind guard }
      guards := Function.update σ.guards guard (.cancelling .flag) } := by
  have howes : GuardedState.OwesFinality { σ with
      run := { σ.run with shared := σ.run.shared.unwind guard }
      guards := Function.update σ.guards guard (.cancelling .flag) } :=
    ⟨guard, .flag, by simp [GuardedState.cancelPc], nofun⟩
  obtain ⟨hfinality, hcommit⟩ := awake_of_owes howes
  refine ⟨h.coordinated.frame rfl id id id rfl (fun _ => le_rfl) fun other hf => ?_,
    hfinality, hcommit⟩
  by_cases hne : other = guard
  · subst hne
    simp [GuardPc.flagged] at hf
  · exact h.coordinated.flagged other (by simpa [Function.update_of_ne hne] using hf)

theorem WakeInv.cancel {c : CancelPc} (h : WakeInv blk σ) (hc : σ.guards guard = .cancelling c) :
    WakeInv blk { σ with
      run := { σ.run with shared := (σ.run.shared.cancelStep c).1 }
      guards := Function.update σ.guards guard
        ((σ.run.shared.cancelStep c).2.elim .released .cancelling) } := by
  have hmove : CancelMove σ { σ with
      run := { σ.run with shared := (σ.run.shared.cancelStep c).1 }
      guards := Function.update σ.guards guard
        ((σ.run.shared.cancelStep c).2.elim .released .cancelling) } guard c := by
    refine ⟨by simp [GuardedState.cancelPc, hc], ?_, fun other hne => ?_, ⟨_, rfl⟩, rfl, ?_⟩
    · cases c <;> simp [GuardedState.cancelPc, Shared.cancelStep]
    · simp [GuardedState.cancelPc, Function.update_of_ne hne]
    · intro w txid hw
      refine ⟨?_, hw.2⟩
      have hne : some (Thread.worker w) ≠ guard := by
        rintro rfl
        rw [hw.1] at hc
        cases hc
      simpa [Function.update_of_ne hne] using hw.1
  refine ⟨hmove.coordinated h.coordinated id fun other hf => ?_,
    hmove.finalityAwake h.coordinated h.finality, hmove.commitAwake h.coordinated rfl h.commit⟩
  by_cases hne : other = guard
  · subst hne
    cases c with
    | flag => exact .inr rfl
    | wakeFinality | wakeCommit => exact .inl (by simp [hc, GuardPc.flagged])
  · exact .inl (by simpa [Function.update_of_ne hne] using hf)

end Guards

section Finality

/-- The state after a step of the finality loop. -/
def GuardedState.moveFinality (σ : GuardedState W R B) (shared : Shared W R B)
    (finality : FinalityThread) : GuardedState W R B :=
  { σ with run := { σ.run with shared, finality } }

variable {s' : Shared W R B} {t' : FinalityThread}

/-- What a step of the finality loop has to keep. -/
theorem WakeInv.moveFinality (h : WakeInv blk σ) (habort : s'.abort = σ.run.shared.abort)
    (hregistered : t'.pc ≠ .register → s'.finalityWait.registered = true)
    (hcommitWait : s'.commitWait = σ.run.shared.commitWait ∨
      s'.commitWait = σ.run.shared.commitWait.notify)
    (hcursor : s'.ctx.finality + (if t'.pc.isPublish then 1 else 0) = t'.idx)
    (hbatch : ∀ previous, t'.pc.batch = some previous →
      previous + (if t'.pc.isPublish then 1 else 0) ≤ t'.idx)
    (heffective : ∀ use effectiveLowerTs, t'.pc = .candidateDecide use effectiveLowerTs →
      effectiveLowerTs ≤ max t'.lowerTs (s'.ctx.lowerTimestamps t'.idx))
    (hparking : t'.pc.parking = true → σ.run.shared.abort = true →
      σ.run.finality.pc.parking = true ∧ s'.finalityWait = σ.run.shared.finalityWait)
    (hcandidate : t'.pc = .park → ¬ (lockFinalityCandidate blk s' t'.idx t'.lowerTs).isSome)
    (hfinality : s'.ctx.finality = σ.run.shared.ctx.finality ∨ t'.owes)
    (howes : σ.run.finality.owes →
      t'.owes ∨ s'.commitWait = σ.run.shared.commitWait.notify) :
    WakeInv blk (σ.moveFinality s' t') := by
  have hcancel : ∀ guard, (σ.moveFinality s' t').cancelPc guard = σ.cancelPc guard := by
    intro guard
    rfl
  have hcregistered : s'.commitWait.registered = σ.run.shared.commitWait.registered := by
    rcases hcommitWait with heq | heq <;> rw [heq]
    exact WaitSlot.registered_notify
  refine ⟨⟨hregistered, fun hpc => ?_, hcursor, hbatch, heffective, fun guard hf => ?_⟩,
    ⟨fun hpc ha => ?_, fun hpc hcand => absurd hcand (hcandidate hpc)⟩, ?_⟩
  · exact hcregistered.trans (h.coordinated.commitRegistered hpc)
  · exact habort.trans (h.coordinated.flagged guard hf)
  · have ha : σ.run.shared.abort = true := habort ▸ ha
    obtain ⟨hpc, hwait⟩ := hparking hpc ha
    refine (h.finality.abort hpc ha).imp (fun ht => ?_) id
    show s'.finalityWait.token = true
    rwa [hwait]
  · refine h.commit.frame rfl (fun ht => ?_) (fun ha => .inl (habort ▸ ha)) (fun _ ho => .inr ho)
      (fun _ hlt => ?_) (fun hpc ho => ?_)
    · show s'.commitWait.token = true
      rcases hcommitWait with heq | heq <;> rw [heq]
      · exact ht
      · exact WaitSlot.token_le_notify ht
    · refine hfinality.imp (fun heq => ?_) id
      rwa [← heq]
    · refine (howes ho).symm.imp (fun heq => ?_) id
      show s'.commitWait.token = true
      rw [heq]
      exact WaitSlot.token_notify (h.coordinated.commitRegistered (by rw [hpc]; nofun))

/-- A step of the finality loop that only goes on to another point. -/
theorem WakeInv.finalityPoint {pc' : FinalityPc} {txLocks : Nat → Option (Holder W)}
    (h : WakeInv blk σ) (hpc : σ.run.finality.pc ≠ .register ∧
      σ.run.finality.pc.isPublish = false) (hpublish : pc'.isPublish = false)
    (hbatch : ∀ previous, pc'.batch = some previous →
      σ.run.finality.pc.batch = some previous ∨ previous = σ.run.finality.idx)
    (heffective : ∀ use effectiveLowerTs, pc' = .candidateDecide use effectiveLowerTs →
      effectiveLowerTs
        ≤ max σ.run.finality.lowerTs (σ.run.shared.ctx.lowerTimestamps σ.run.finality.idx))
    (hparking : pc'.parking = true → σ.run.shared.abort = true →
      σ.run.finality.pc.parking = true)
    (hcandidate : pc' = .park → ¬ σ.Eligible blk)
    (howes : σ.run.finality.owes → FinalityThread.owes { σ.run.finality with pc := pc' }) :
    WakeInv blk (σ.moveFinality { σ.run.shared with txLocks } { σ.run.finality with pc := pc' }) := by
  have hcursor := h.coordinated.cursor
  rw [hpc.2] at hcursor
  refine h.moveFinality rfl (fun _ => h.coordinated.finalityRegistered hpc.1) (.inl rfl) ?_ ?_
    heffective (fun hp ha => ⟨hparking hp ha, rfl⟩) (fun hp hcand => hcandidate hp ?_) (.inl rfl)
    fun ho => .inl (howes ho)
  · show _ + (if pc'.isPublish then 1 else 0) = _
    rw [hpublish]
    exact hcursor
  · intro previous hp
    show previous + (if pc'.isPublish then 1 else 0) ≤ _
    rw [hpublish]
    rcases hbatch previous hp with hold | rfl
    · have := h.coordinated.batch previous hold
      rw [hpc.2] at this
      exact this
    · exact le_rfl
  · rw [GuardedState.Eligible, isSome_lockFinalityCandidate]
    exact isSome_lockFinalityCandidate.mp hcand

theorem not_owes {t : FinalityThread} (hfirst : ∀ previous, t.pc ≠ .notifyFirst previous)
    (hbatch : t.pc.batch = none) : ¬ t.owes := by
  rintro (⟨previous, hp⟩ | ⟨previous, hp, -⟩)
  · exact hfirst previous hp
  · rw [hbatch] at hp
    cases hp

/-- The loop is between two batches and not about to park. -/
def FinalityPc.idle : FinalityPc → Bool
  | .head | .candidateValidation .waitFirst | .waitFirst | .waitSecond | .finished => true
  | _ => false

theorem FinalityPc.of_idle {pc : FinalityPc} (h : pc.idle = true) :
    pc.isPublish = false ∧ pc.batch = none ∧ pc.parking = false ∧ pc ≠ .park ∧
      ∀ use effectiveLowerTs, pc ≠ .candidateDecide use effectiveLowerTs := by
  cases pc with
  | candidateValidation use => cases use <;> simp_all [idle, isPublish, batch, parking]
  | _ => simp_all [idle, isPublish, batch, parking]

/-- A loop that owes no notification may come to rest, whatever its own
wait slot then holds. -/
theorem WakeInv.finalityIdle {pc' : FinalityPc} {txLocks : Nat → Option (Holder W)}
    {finalityWait : WaitSlot} (h : WakeInv blk σ)
    (hregistered : finalityWait.registered = true)
    (hpublish : σ.run.finality.pc.isPublish = false) (hidle : pc'.idle = true)
    (hno : ¬ σ.run.finality.owes) :
    WakeInv blk (σ.moveFinality { σ.run.shared with txLocks, finalityWait }
      { σ.run.finality with pc := pc' }) := by
  obtain ⟨hpublish', hbatch, hparking, hpark, hdecide⟩ := FinalityPc.of_idle hidle
  have hcursor := h.coordinated.cursor
  rw [hpublish] at hcursor
  refine h.moveFinality rfl (fun _ => hregistered) (.inl rfl) ?_ (fun previous hp => ?_)
    (fun use bound hp => absurd hp (hdecide use bound)) (fun hp => ?_) (fun hp => absurd hp hpark)
    (.inl rfl) fun ho => absurd ho hno
  · show _ + (if pc'.isPublish then 1 else 0) = _
    rw [hpublish']
    exact hcursor
  · rw [hbatch] at hp
    cases hp
  · rw [hparking] at hp
    cases hp

/-- Who asks for a candidate at this point. -/
def FinalityPc.asks : FinalityPc → Option CandidateUse
  | .candidateValidation use | .candidateLock use | .candidateLower use
  | .candidateDecide use _ => some use
  | _ => none

/-- The batch of the loop that asks. -/
def CandidateUse.batch : CandidateUse → Option Nat
  | .advance previous => some previous
  | _ => none

theorem FinalityPc.of_asks {pc : FinalityPc} {use : CandidateUse} (h : pc.asks = some use) :
    (pc ≠ .register ∧ pc.isPublish = false) ∧ pc.batch = use.batch ∧
      (use = .waitSecond → pc.parking = true) ∧ ∀ previous, pc ≠ .notifyFirst previous := by
  cases pc <;> cases h <;> cases use <;>
    simp [isPublish, batch, CandidateUse.batch, parking]

/-- The point a question leads to serves the same use. -/
theorem WakeInv.finalityAsks {pc' : FinalityPc} {use : CandidateUse}
    {txLocks : Nat → Option (Holder W)} (h : WakeInv blk σ)
    (hpc : σ.run.finality.pc.asks = some use) (hpc' : pc'.asks = some use)
    (heffective : ∀ use effectiveLowerTs, pc' = .candidateDecide use effectiveLowerTs →
      effectiveLowerTs
        ≤ max σ.run.finality.lowerTs (σ.run.shared.ctx.lowerTimestamps σ.run.finality.idx)) :
    WakeInv blk (σ.moveFinality { σ.run.shared with txLocks } { σ.run.finality with pc := pc' }) := by
  obtain ⟨hquiet, hbatch, hparking, hfirst⟩ := FinalityPc.of_asks hpc
  obtain ⟨⟨-, hpublish'⟩, hbatch', -, -⟩ := FinalityPc.of_asks hpc'
  have hsame : pc'.batch = σ.run.finality.pc.batch := hbatch'.trans hbatch.symm
  refine h.finalityPoint hquiet hpublish' (fun previous hp => .inl (hsame ▸ hp)) heffective
    (fun hp _ => hparking ?_) (fun heq => ?_) fun ho => ?_
  · cases pc' <;> cases hpc' <;> cases use <;> simp [FinalityPc.parking] at hp ⊢
  · rw [heq] at hpc'
    cases hpc'
  · rcases ho with ⟨previous, hp⟩ | ⟨previous, hp, hlt⟩
    · exact absurd hp (hfirst previous)
    · exact .inr ⟨previous, hsame.trans hp, hlt⟩

/-- There is no candidate: the batch ends, or the coordinator gets ready
to park. -/
theorem WakeInv.noCandidate {use : CandidateUse} {txLocks : Nat → Option (Holder W)}
    (h : WakeInv blk σ) (hpc : σ.run.finality.pc.asks = some use) (hno : ¬ σ.Eligible blk) :
    WakeInv blk (σ.moveFinality { σ.run.shared with txLocks }
      (Grevm.noCandidate σ.run.finality use)) := by
  obtain ⟨hquiet, hbatch, hparking, hfirst⟩ := FinalityPc.of_asks hpc
  have howes : σ.run.finality.owes → ∃ previous, use = .advance previous ∧
      previous + 1 < σ.run.finality.idx := by
    rintro (⟨previous, hp⟩ | ⟨previous, hp, hlt⟩)
    · exact absurd hp (hfirst previous)
    · rw [hbatch] at hp
      cases use <;> cases hp
      exact ⟨previous, rfl, hlt⟩
  have hregistered := h.coordinated.finalityRegistered hquiet.1
  cases use with
  | advance previous =>
    simp only [Grevm.noCandidate]
    split
    · refine h.finalityPoint hquiet rfl (fun p hp => .inl (hbatch.trans hp)) (fun _ _ hp => ?_)
        (fun hp => ?_) (fun hp => ?_) fun ho => ?_
      · cases hp
      · cases hp
      · cases hp
      · obtain ⟨p, heq, hlt⟩ := howes ho
        cases heq
        exact .inr ⟨previous, rfl, hlt⟩
    · rename_i hge
      refine h.finalityIdle hregistered hquiet.2 rfl fun ho => ?_
      obtain ⟨p, heq, hlt⟩ := howes ho
      cases heq
      omega
  | waitFirst =>
    refine h.finalityIdle hregistered hquiet.2 rfl fun ho => ?_
    obtain ⟨p, heq, -⟩ := howes ho
    cases heq
  | waitSecond =>
    refine h.finalityPoint hquiet rfl (fun _ hp => ?_) (fun _ _ hp => ?_) (fun _ _ => hparking rfl)
      (fun _ => hno) fun ho => ?_
    · cases hp
    · cases hp
    · obtain ⟨p, heq, -⟩ := howes ho
      cases heq

/-- The finality loop sets its candidate final. -/
theorem WakeInv.finalize {previous effectiveLowerTs : Nat} (h : WakeInv blk σ)
    (hpc : σ.run.finality.pc = .candidateDecide (.advance previous) effectiveLowerTs) :
    WakeInv blk (σ.moveFinality
      ((σ.run.shared.setStatus σ.run.finality.idx .finality).setLock σ.run.finality.idx none)
      { pc := .publish previous, idx := σ.run.finality.idx + 1, lowerTs := effectiveLowerTs }) := by
  have hcursor := h.coordinated.cursor
  have hbatch := h.coordinated.batch previous (by rw [hpc]; rfl)
  rw [hpc] at hcursor hbatch
  refine h.moveFinality rfl (fun _ => h.coordinated.finalityRegistered (by rw [hpc]; nofun))
    (.inl rfl) ?_ ?_ nofun (fun hp => by cases hp) nofun (.inl rfl) ?_
  · exact congrArg (· + 1) hcursor
  · intro p hp
    cases hp
    exact Nat.succ_le_succ hbatch
  · rintro (⟨p, hp⟩ | ⟨p, hp, hlt⟩)
    · rw [hpc] at hp
      cases hp
    · rw [hpc] at hp
      cases hp
      exact .inl (.inr ⟨previous, rfl, Nat.lt_succ_of_lt hlt⟩)

/-- The finality loop publishes its cursor: the batch has begun, and the
commit coordinator is to be told, or it has two transactions, and it is
to be told at the end. -/
theorem WakeInv.publish {previous : Nat} (h : WakeInv blk σ)
    (hpc : σ.run.finality.pc = .publish previous) :
    WakeInv blk (σ.moveFinality
      { σ.run.shared with ctx := { σ.run.shared.ctx with finality := σ.run.finality.idx } }
      { σ.run.finality with
        pc := if σ.run.finality.idx = previous + 1 then .notifyFirst previous
          else .candidateValidation (.advance previous) }) := by
  have hbatch := h.coordinated.batch previous (by rw [hpc]; rfl)
  rw [hpc] at hbatch
  have hlt : previous + 1 ≤ σ.run.finality.idx := hbatch
  have hregistered := h.coordinated.finalityRegistered (by rw [hpc]; nofun)
  split
  · refine h.moveFinality rfl (fun _ => hregistered) (.inl rfl) rfl ?_ nofun
      (fun hp => by cases hp) nofun (.inr (.inl ⟨previous, rfl⟩)) fun _ => .inl (.inl ⟨previous, rfl⟩)
    intro p hp
    cases hp
    exact Nat.le_of_succ_le hlt
  · rename_i hne
    have howes : FinalityThread.owes
        { σ.run.finality with pc := .candidateValidation (.advance previous) } :=
      .inr ⟨previous, rfl, lt_of_le_of_ne hlt (Ne.symm hne)⟩
    refine h.moveFinality rfl (fun _ => hregistered) (.inl rfl) rfl ?_ nofun
      (fun hp => by cases hp) nofun (.inr howes) fun _ => .inl howes
    intro p hp
    cases hp
    exact Nat.le_of_succ_le hlt

/-- The finality loop notifies the commit coordinator, or had nothing
more to tell it. -/
theorem WakeInv.notifyCommit {previous : Nat} {commitWait : WaitSlot} {pc' : FinalityPc}
    (h : WakeInv blk σ)
    (hpc : σ.run.finality.pc = .notifyFirst previous ∨ σ.run.finality.pc = .notifyBatch previous)
    (hpc' : pc' = .candidateValidation (.advance previous) ∨ pc' = .head)
    (hwait : commitWait = σ.run.shared.commitWait.notify ∨
      commitWait = σ.run.shared.commitWait ∧ ¬ σ.run.finality.owes) :
    WakeInv blk (σ.moveFinality { σ.run.shared with commitWait }
      { σ.run.finality with pc := pc' }) := by
  have hcursor := h.coordinated.cursor
  have hbatch := h.coordinated.batch previous (by rcases hpc with hpc | hpc <;> rw [hpc] <;> rfl)
  have hregistered := h.coordinated.finalityRegistered
    (by rcases hpc with hpc | hpc <;> rw [hpc] <;> nofun)
  have hpublish : σ.run.finality.pc.isPublish = false := by
    rcases hpc with hpc | hpc <;> rw [hpc] <;> rfl
  rw [hpublish] at hcursor hbatch
  have howes : σ.run.finality.owes → commitWait = σ.run.shared.commitWait.notify :=
    fun ho => hwait.resolve_right fun hno => hno.2 ho
  have hslot : commitWait = σ.run.shared.commitWait ∨
      commitWait = σ.run.shared.commitWait.notify := hwait.symm.imp_left And.left
  rcases hpc' with rfl | rfl
  · refine h.moveFinality rfl (fun _ => hregistered) hslot hcursor ?_ nofun
      (fun hp => by cases hp) nofun (.inl rfl) fun ho => .inr (howes ho)
    intro p hp
    cases hp
    exact hbatch
  · exact h.moveFinality rfl (fun _ => hregistered) hslot hcursor nofun nofun
      (fun hp => by cases hp) nofun (.inl rfl) fun ho => .inr (howes ho)

theorem WakeInv.finalityLoop {choice : Nat} (h : WakeInv blk σ)
    (hstep : finalityStep blk σ.run.shared σ.run.finality choice = some (s', t')) :
    WakeInv blk (σ.moveFinality s' t') := by
  unfold finalityStep at hstep
  split at hstep
  case h_1 hpc =>
    cases hstep
    exact h.finalityIdle rfl (by rw [hpc]; rfl) rfl
      (not_owes (by simp [hpc]) (by simp [hpc, FinalityPc.batch]))
  case h_2 hpc =>
    cases hstep
    have hno := not_owes (t := σ.run.finality) (by simp [hpc]) (by simp [hpc, FinalityPc.batch])
    split
    · exact h.finalityIdle (h.coordinated.finalityRegistered (by simp [hpc])) (by rw [hpc]; rfl)
        rfl hno
    · refine h.finalityPoint (by simp [hpc, FinalityPc.isPublish]) rfl (fun p hp => ?_)
        (fun _ _ hp => ?_) (fun hp => ?_) (fun hp => ?_) fun ho => absurd ho hno
      · cases hp
        exact .inr rfl
      · cases hp
      · cases hp
      · cases hp
  case h_3 use hpc =>
    split at hstep <;> cases hstep
    · rename_i hpast
      refine h.noCandidate (by rw [hpc]; rfl) fun hcand => ?_
      have := isSome_lockFinalityCandidate.mp hcand
      omega
    · refine h.finalityAsks (by rw [hpc]; rfl) rfl fun _ _ hp => ?_
      cases hp
  case h_4 use hpc =>
    split at hstep
    · cases hstep
    · split at hstep <;> cases hstep
      · rename_i hstatus
        exact h.noCandidate (by rw [hpc]; rfl) fun hcand =>
          hstatus (isSome_lockFinalityCandidate.mp hcand).2.2.1
      · refine h.finalityAsks (by rw [hpc]; rfl) rfl fun _ _ hp => ?_
        cases hp
  case h_5 use hpc =>
    cases hstep
    refine h.finalityAsks (by rw [hpc]; rfl) rfl fun use' bound hp => ?_
    cases hp
    exact le_rfl
  case h_6 use bound hpc =>
    split at hstep
    · split at hstep <;> cases hstep
      · exact h.finalize hpc
      · rename_i hwait
        refine h.finalityIdle (h.coordinated.finalityRegistered (by simp [hpc])) (by rw [hpc]; rfl)
          rfl (not_owes (by simp [hpc]) ?_)
        cases use with
        | advance previous => exact absurd rfl (hwait previous)
        | _ => rw [hpc]; rfl
    · cases hstep
      rename_i hbound
      refine h.noCandidate (by rw [hpc]; rfl) fun hcand => ?_
      have := isSome_lockFinalityCandidate.mp hcand
      have := h.coordinated.effective use bound hpc
      omega
  case h_7 previous hpc =>
    cases hstep
    exact h.publish hpc
  case h_8 previous hpc =>
    cases hstep
    exact h.notifyCommit (.inl hpc) (.inl rfl) (.inl rfl)
  case h_9 previous hpc =>
    cases hstep
    refine h.notifyCommit (.inr hpc) (.inr rfl) ?_
    split
    · exact .inl rfl
    · rename_i hone
      refine .inr ⟨rfl, ?_⟩
      rintro (⟨p, hp⟩ | ⟨p, hp, hlt⟩)
      · rw [hpc] at hp
        cases hp
      · rw [hpc] at hp
        cases hp
        omega
  case h_10 hpc =>
    cases hstep
    have hno := not_owes (t := σ.run.finality) (by simp [hpc]) (by simp [hpc, FinalityPc.batch])
    have hregistered := h.coordinated.finalityRegistered (by simp [hpc])
    have hpublish : σ.run.finality.pc.isPublish = false := by
      rw [hpc]
      rfl
    split
    · exact h.finalityIdle hregistered hpublish rfl hno
    · exact h.finalityIdle hregistered hpublish rfl hno
  case h_11 hpc =>
    cases hstep
    have hno := not_owes (t := σ.run.finality) (by simp [hpc]) (by simp [hpc, FinalityPc.batch])
    split
    · exact h.finalityIdle (h.coordinated.finalityRegistered (by simp [hpc])) (by rw [hpc]; rfl)
        rfl hno
    · rename_i hrunning
      refine h.finalityPoint (by simp [hpc, FinalityPc.isPublish]) rfl (fun _ hp => ?_)
        (fun _ _ hp => ?_) (fun _ ha => absurd ha hrunning) (fun hp => ?_) fun ho => absurd ho hno
      · cases hp
      · cases hp
      · cases hp
  case h_12 hpc =>
    split at hstep <;> cases hstep
    have hregistered := h.coordinated.finalityRegistered (by simp [hpc])
    exact h.finalityIdle hregistered (by rw [hpc]; rfl) rfl
      (not_owes (by simp [hpc]) (by simp [hpc, FinalityPc.batch]))
  case h_13 hpc => cases hstep

end Finality

section Commit

/-- The state after a step of the commit loop. -/
def GuardedState.moveCommit (σ : GuardedState W R B) (shared : Shared W R B)
    (commit : CommitThread R B) : GuardedState W R B :=
  { σ with run := { σ.run with shared, commit } }

variable {s s' : Shared W R B} {t t' : CommitThread R B}

/-- Outside `cancel` the commit loop leaves what the finality
coordinator looks at alone. -/
structure CommitFrame (s s' : Shared W R B) : Prop where
  abort : s'.abort = s.abort
  finalityWait : s'.finalityWait = s.finalityWait
  txStates : s'.txStates = s.txStates
  ctx : s'.ctx = { s.ctx with committed := s'.ctx.committed }

theorem CommitStep.frame (h : CommitStep blk s t s' t') (hc : t.pc.cancelPc = none) :
    CommitFrame s s' := by
  cases h with
  | abort hpc ha | aborted hpc ha =>
    rw [hpc] at hc
    rw [Shared.abortStep_reasonOnly hc ha]
    exact ⟨rfl, rfl, rfl, rfl⟩
  | _ => exact ⟨rfl, rfl, rfl, rfl⟩

theorem commitLoopStep_cancel {c : CancelPc} {choice : Nat}
    (h : commitLoopStep blk s t choice = some (s', t')) (hc : t.pc.cancelPc = some c) :
    s' = (s.cancelStep c).1 ∧ t'.pc.cancelPc = (s.cancelStep c).2 ∧ t'.pc.parking = false ∧
      t.pc ≠ .register := by
  cases hpc : t.pc with
  | aborting reason error pc =>
    rw [hpc] at hc
    simp only [commitLoopStep, hpc] at h
    split at h <;> cases h <;> rename_i ha
    · obtain ⟨rfl, hnext⟩ := Shared.abortStep_cancel hc ha
      exact ⟨rfl, hnext, rfl, nofun⟩
    · obtain ⟨rfl, hnext⟩ := Shared.abortStep_cancel hc ha
      exact ⟨rfl, hnext, rfl, nofun⟩
  | _ => rw [hpc] at hc; cases hc

theorem parking_startReward {previous : Nat} {result : SpeculativeResult R}
    (h : startReward blk t previous result = some t') : t'.pc.parking = false := by
  unfold startReward at h
  split at h
  · split at h <;> cases h
    rfl
  · cases h
    rfl

/-- What a step of the commit loop outside `cancel` means for its own
coordinator. -/
structure CommitWaits (s s' : Shared W R B) (t t' : CommitThread R B) : Prop where
  parking : t'.pc.parking = true → s.abort = true →
    t.pc.parking = true ∧ s'.commitWait = s.commitWait
  park : t'.pc = .park → s'.ctx.finality ≤ t'.idx
  registered : (t.pc ≠ .register → s.commitWait.registered = true) →
    s'.commitWait.registered = true

theorem CommitWaits.of_not_parking (hpc' : t'.pc.parking = false) (hpc : t.pc ≠ .register)
    (hwait : s'.commitWait = s.commitWait) : CommitWaits s s' t t' where
  parking hp := by
    rw [hpc'] at hp
    cases hp
  park hp := by
    rw [hp] at hpc'
    cases hpc'
  registered hr := by
    rw [hwait]
    exact hr hpc

theorem commitLoopStep_waits {choice : Nat} (h : commitLoopStep blk s t choice = some (s', t'))
    (hc : t.pc.cancelPc = none) : CommitWaits s s' t t' := by
  unfold commitLoopStep at h
  split at h
  case h_1 hpc =>
    cases h
    exact ⟨nofun, nofun, fun _ => rfl⟩
  case h_2 hpc =>
    cases h
    refine .of_not_parking ?_ (by simp [hpc]) rfl
    split <;> rfl
  case h_3 previous hpc =>
    cases h
    refine .of_not_parking ?_ (by simp [hpc]) rfl
    split
    · rfl
    · split <;> rfl
  case h_4 previous hpc =>
    dsimp only at h
    split at h
    · cases h
      exact .of_not_parking rfl (by simp [hpc]) rfl
    · split at h
      · cases h
        exact .of_not_parking rfl (by simp [hpc]) rfl
      · split at h
        · obtain ⟨t₁, ht, heq⟩ := Option.map_eq_some_iff.mp h
          cases heq
          exact .of_not_parking (parking_startReward ht) (by simp [hpc]) rfl
        · cases h
          exact .of_not_parking rfl (by simp [hpc]) rfl
  case h_5 previous x pc hpc =>
    split at h
    · cases h
      exact .of_not_parking rfl (by simp [hpc]) rfl
    · cases h
      exact .of_not_parking rfl (by simp [hpc]) rfl
    · split at h
      · obtain ⟨t₁, ht, heq⟩ := Option.map_eq_some_iff.mp h
        cases heq
        exact .of_not_parking (parking_startReward ht) (by simp [hpc]) rfl
      · cases h
        exact .of_not_parking rfl (by simp [hpc]) rfl
  case h_6 previous x amount pc hpc | h_7 previous result pc hpc =>
    split at h <;> cases h <;> exact .of_not_parking rfl (by simp [hpc]) rfl
  case h_8 previous hpc =>
    cases h
    exact .of_not_parking rfl (by simp [hpc]) rfl
  case h_9 previous hpc =>
    split at h <;> cases h
    exact .of_not_parking rfl (by simp [hpc]) rfl
  case h_10 second hpc =>
    cases h
    split
    · exact .of_not_parking rfl (by simp [hpc]) rfl
    · rename_i hrunning
      exact ⟨fun _ ha => absurd ha hrunning, nofun, fun hr => hr (by simp [hpc])⟩
  case h_11 second hpc =>
    cases h
    split
    · exact .of_not_parking rfl (by simp [hpc]) rfl
    · rename_i hdone
      split
      · rename_i hsecond
        refine ⟨fun _ _ => ⟨?_, rfl⟩, fun _ => Nat.le_of_not_lt hdone,
          fun hr => hr (by simp [hpc])⟩
        rw [hpc, hsecond]
        rfl
      · exact .of_not_parking rfl (by simp [hpc]) rfl
  case h_12 hpc =>
    split at h <;> cases h
    exact ⟨nofun, nofun, fun hr => hr (by simp [hpc])⟩
  case h_13 reason error pc hpc =>
    rw [hpc] at hc
    split at h <;> cases h <;> rename_i ha
    all_goals
      refine .of_not_parking rfl (by simp [hpc]) ?_
      rw [Shared.abortStep_reasonOnly hc ha]
  case h_14 error hpc => cases h

theorem cancelPc_moveCommit_of_ne {guard : Option (Thread W)} (h : guard ≠ some .commit) :
    (σ.moveCommit s' t').cancelPc guard = σ.cancelPc guard := by
  cases guard with
  | none => rfl
  | some thread =>
    cases thread with
    | worker w | finality => rfl
    | commit => exact absurd rfl h

theorem WakeInv.commitLoop {choice : Nat} (h : WakeInv blk σ)
    (harmed : σ.guards (some .commit) = .armed)
    (hstep : commitLoopStep blk σ.run.shared σ.run.commit choice = some (s', t')) :
    WakeInv blk (σ.moveCommit s' t') := by
  have hothers : ∀ other, other ≠ some .commit →
      (σ.moveCommit s' t').cancelPc other = σ.cancelPc other :=
    fun _ hne => cancelPc_moveCommit_of_ne hne
  cases hc : σ.run.commit.pc.cancelPc with
  | some c =>
    obtain ⟨hshared, hnext, hparking, hpc⟩ := commitLoopStep_cancel hstep hc
    have hmove : CancelMove σ (σ.moveCommit s' t') (some .commit) c := by
      refine ⟨by simp [GuardedState.cancelPc, harmed, hc], ?_, hothers, ⟨s'.txLocks, ?_⟩, rfl,
        fun _ _ hw => hw⟩
      · simpa [GuardedState.cancelPc, GuardedState.moveCommit, harmed] using hnext
      · exact hshared ▸ rfl
    refine ⟨hmove.coordinated h.coordinated (fun _ => hpc) fun _ hf => .inl hf,
      hmove.finalityAwake h.coordinated h.finality, ⟨fun hp => ?_, fun hp => ?_⟩⟩
    · rw [show (σ.moveCommit s' t').run.commit.pc.parking = false from hparking] at hp
      cases hp
    · rw [show t'.pc = .park from hp] at hparking
      cases hparking
  | none =>
    obtain ⟨habort, hwait, hstates, hctx⟩ := (commitLoopStep_sound hstep).frame hc
    obtain ⟨hparking, hpark, hregistered⟩ := commitLoopStep_waits hstep hc
    have hnone : σ.cancelPc (some .commit) = none := by simp [GuardedState.cancelPc, harmed, hc]
    have hcursor : s'.ctx.finality = σ.run.shared.ctx.finality := by rw [hctx]
    have hlower : s'.ctx.lowerTimestamps = σ.run.shared.ctx.lowerTimestamps := by rw [hctx]
    refine ⟨⟨fun hpc => ?_, fun _ => hregistered h.coordinated.commitRegistered, ?_,
      h.coordinated.batch, ?_, fun guard hf => ?_⟩, ?_, ⟨fun hp ha => ?_, fun hp hlt => ?_⟩⟩
    · show s'.finalityWait.registered = true
      rw [hwait]
      exact h.coordinated.finalityRegistered hpc
    · show s'.ctx.finality + _ = _
      rw [hcursor]
      exact h.coordinated.cursor
    · show ∀ use effectiveLowerTs, _ → _ ≤ max _ (s'.ctx.lowerTimestamps _)
      rw [hlower]
      exact h.coordinated.effective
    · exact habort.trans (h.coordinated.flagged guard hf)
    · refine h.finality.frame rfl (fun ht => ?_) (fun ha => .inl (habort ▸ ha))
        (fun _ ho => .inr (owesFinality_of_others hnone hothers ho)) (fun _ hcand => .inl ?_)
        (fun _ _ w hw => .inr hw)
      · show s'.finalityWait.token = true
        rwa [hwait]
      · rw [GuardedState.Eligible, isSome_lockFinalityCandidate] at hcand ⊢
        have hcand : _ < blk.size ∧ _ < s'.ctx.validation ∧ (s'.txStates _).status = _ ∧
          max _ (s'.ctx.lowerTimestamps _) < s'.ctx.unconfirmedTimestamps _ := hcand
        rwa [hctx, hstates] at hcand
    · have ha : σ.run.shared.abort = true := habort ▸ ha
      obtain ⟨hpc, hsame⟩ := hparking hp ha
      refine (h.commit.abort hpc ha).imp (fun ht => ?_) (owesCommit_of_others hnone hothers)
      show s'.commitWait.token = true
      rwa [hsame]
    · exact absurd hlt (Nat.not_lt.mpr (hpark hp))

end Commit

end Steps

/-! ## Every run -/

section Run

variable {blk : Block Err R} {σ σ' : GuardedState W R B} {backing : B.State}

theorem wakeInv_initial :
    WakeInv blk ({ run := initial backing } : GuardedState W R B) where
  coordinated := ⟨fun hpc => absurd rfl hpc, fun hpc => absurd rfl hpc, rfl, nofun, nofun, nofun⟩
  finality := ⟨nofun, nofun⟩
  commit := ⟨nofun, nofun⟩

variable [DecidableEq W]

theorem WakeInv.step {action : GuardedAction W} (h : WakeInv blk σ)
    (hstep : guardedStep blk σ action = some σ') : WakeInv blk σ' := by
  cases action with
  | thread action =>
    obtain ⟨thread, choice⟩ := action
    simp only [guardedStep] at hstep
    split at hstep
    · rename_i harmed
      obtain ⟨run, hrun, rfl⟩ := Option.map_eq_some_iff.mp hstep
      cases thread with
      | worker w =>
        obtain ⟨⟨shared, pc⟩, hs, rfl⟩ := Option.map_eq_some_iff.mp hrun
        exact h.worker harmed hs
      | finality =>
        obtain ⟨⟨shared, finality⟩, hs, rfl⟩ := Option.map_eq_some_iff.mp hrun
        exact h.finalityLoop hs
      | commit =>
        obtain ⟨⟨shared, commit⟩, hs, rfl⟩ := Option.map_eq_some_iff.mp hrun
        exact h.commitLoop harmed hs
    · cases hstep
  | panic guard =>
    simp only [guardedStep] at hstep
    split at hstep <;> cases hstep
    exact h.panic
  | cancel guard =>
    simp only [guardedStep] at hstep
    split at hstep
    · rename_i hc
      cases hstep
      exact h.cancel hc
    · cases hstep

theorem WakeInv.reach (hσ : GuardedReachable blk backing σ) : WakeInv blk σ :=
  hσ.invariant wakeInv_initial fun _ _ _ _ h _ hstep => h.step hstep

/-- No wake-up of a coordinator is lost. When the finality coordinator
is parked without a token, no worker has a claim, a task or a pending
notify check for its transaction and no thread is inside `cancel`, then
the scheduler is not aborted and that transaction is no eligible
candidate. When the commit coordinator is parked without a token, the
finality loop is parked or has ended and no thread is inside `cancel`,
then the scheduler is not aborted and everything final is committed. -/
theorem coordinator_wakeups_are_kept (hσ : GuardedReachable blk backing σ) :
    (σ.FinalityParked → σ.run.shared.finalityWait.token = false →
      (∀ w, ¬ σ.Concerns w σ.run.finality.idx) → σ.NoCancel →
        σ.run.shared.abort = false ∧ ¬ σ.Eligible blk) ∧
    (σ.CommitParked → σ.run.shared.commitWait.token = false →
      σ.FinalityParked ∨ σ.FinalityEnded → σ.NoCancel →
        σ.run.shared.abort = false ∧ σ.run.shared.ctx.finality ≤ σ.run.commit.idx) := by
  have h := WakeInv.reach hσ
  have noOwes : σ.NoCancel → ¬ σ.OwesCommit := by
    rintro hno ⟨guard, c, hc⟩
    rw [hno guard] at hc
    cases hc
  refine ⟨fun hparked htoken hfree hno => ⟨?_, fun hcand => ?_⟩,
    fun hparked htoken hfinality hno => ?_⟩
  · by_contra habort
    rcases h.finality.abort (by rw [hparked.2]; rfl) (by simpa using habort) with ht | ho
    · rw [htoken] at ht
      cases ht
    · exact noOwes hno ho.owesCommit
  · rcases h.finality.candidate hparked.2 hcand with ht | ⟨w, hw⟩ | ho
    · rw [htoken] at ht
      cases ht
    · exact hfree w hw.concerns
    · exact noOwes hno ho.owesCommit
  · have habort : σ.run.shared.abort = false := by
      by_contra habort
      rcases h.commit.abort (by rw [hparked.2]; rfl) (by simpa using habort) with ht | ho
      · rw [htoken] at ht
        cases ht
      · exact noOwes hno ho
    refine ⟨habort, Nat.le_of_not_lt fun hlt => ?_⟩
    rcases h.commit.finality hparked.2 hlt with ht | howes | ho
    · rw [htoken] at ht
      cases ht
    · -- The finality loop owes nothing where it has stopped.
      rcases hfinality with ⟨-, hpc⟩ | hguard | hpc
      · exact not_owes (by simp [hpc]) (by simp [hpc, FinalityPc.batch]) howes
      · cases hg : σ.guards (some .finality) with
        | armed => exact hguard hg
        | cancelling c =>
          have hc := hno (some .finality)
          simp [GuardedState.cancelPc, hg] at hc
        | released =>
          have hset := h.coordinated.flagged (some .finality) (by rw [hg]; rfl)
          rw [habort] at hset
          cases hset
      · exact not_owes (by simp [hpc]) (by simp [hpc, FinalityPc.batch]) howes
    · exact noOwes hno ho

end Run

/-- The commit loop is at `park`. -/
def CommitLoopPc.isPark : CommitLoopPc R B → Bool
  | .park => true
  | _ => false

theorem CommitLoopPc.eq_park {pc : CommitLoopPc R B} (h : pc.isPark = true) : pc = .park := by
  cases pc <;> first | rfl | cases h

/-- Both coordinators of a block of two transactions park, are woken for
the first transaction and park again. -/
theorem coordinator_wakeups_are_kept_parked :
    ∃ σ : GuardedState Unit Unit (Backing.emptyDB Unit),
      GuardedReachable (Block.untouched 2) () σ ∧ σ.FinalityParked ∧ σ.CommitParked ∧
      σ.run.finality.idx = 1 ∧ σ.run.shared.abort = false ∧
      ¬ σ.Eligible (Block.untouched 2) ∧ σ.run.shared.ctx.finality ≤ σ.run.commit.idx := by
  let actions : List (GuardedAction Unit) := List.map .thread
    (stepsOf .finality 7 ++ stepsOf .commit 7 ++
      stepsOf (.worker ()) 47 ++ stepsOf .finality 16 ++
      stepsOf .commit 15)
  have hcheck : (Runs.exec (guardedStep (Block.untouched 2))
      ({ run := initial () } : GuardedState Unit Unit (Backing.emptyDB Unit)) actions).map
      (fun σ => decide (σ.run.finality = ⟨.park, 1, 1⟩) && σ.run.commit.pc.isPark &&
        !σ.run.shared.finalityWait.token && !σ.run.shared.commitWait.token &&
        ((σ.run.workers ()).concern (σ.checked ())).isNone &&
        decide (σ.guards (some .finality) = .armed ∧ σ.guards (some .commit) = .armed) &&
        [none, some (.worker ()), some .finality, some .commit].all fun guard =>
          (σ.cancelPc guard).isNone) = some true := by decide +kernel
  obtain ⟨σ, hrun, heq⟩ := Option.map_eq_some_iff.mp hcheck
  simp only [Bool.and_eq_true, decide_eq_true_eq, Bool.not_eq_true', Option.isNone_iff_eq_none,
    List.all_cons, List.all_nil, and_true] at heq
  obtain ⟨⟨⟨⟨⟨⟨hfinality, hpark⟩, hftoken⟩, hctoken⟩, hconcern⟩, hfguard, hcguard⟩,
    hscope, hworker, hfcancel, hccancel⟩ := heq
  have hreach : GuardedReachable (Block.untouched 2) () σ := Runs.reach_of_exec hrun
  have hfparked : σ.FinalityParked := ⟨hfguard, by rw [hfinality]⟩
  have hcparked : σ.CommitParked := ⟨hcguard, CommitLoopPc.eq_park hpark⟩
  have hno : σ.NoCancel := by
    rintro (_ | _ | _ | _)
    exacts [hscope, hworker, hfcancel, hccancel]
  obtain ⟨hfirst, hsecond⟩ := coordinator_wakeups_are_kept hreach
  obtain ⟨habort, hcandidate⟩ := hfirst hfparked hftoken
    (fun w hw => by rw [hw.2] at hconcern; cases hconcern) hno
  obtain ⟨-, hcommit⟩ := hsecond hcparked hctoken (.inl hfparked) hno
  exact ⟨σ, hreach, hfparked, hcparked, by rw [hfinality], habort, hcandidate, hcommit⟩

end Grevm
