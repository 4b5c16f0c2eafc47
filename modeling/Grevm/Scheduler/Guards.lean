/-
Grevm.Scheduler.Guards — the machine with panicking threads.

`CancelOnPanic` of `src/scheduler.rs` and `cancel` of
`src/scheduler/control.rs`. Every thread, and the scope that spawns them,
has a guard that calls `cancel` when the thread unwinds. A panic may come
at any point; it releases the locks of the thread, which makes no further
step, and leaves `cancel` to the guard. `abort` is the other caller of
`cancel`.
-/
import Grevm.Scheduler.Machine

namespace Grevm

variable {Err W R : Type} {B : Backing Err}

/-! ## Cancellation -/

/-- Program points of `cancel`: set the flag, wake the coordinators. -/
inductive CancelPc where
  | flag
  | wakeFinality
  | wakeCommit
  deriving DecidableEq

def Shared.cancelStep (s : Shared W R B) : CancelPc → Shared W R B × Option CancelPc
  | .flag => ({ s with abort := true }, some .wakeFinality)
  | .wakeFinality => ({ s with finalityWait := s.finalityWait.notify }, some .wakeCommit)
  | .wakeCommit => ({ s with commitWait := s.commitWait.notify }, none)

/-- `abort` stores its reason and then calls `cancel`. -/
def AbortPc.cancelPc : AbortPc → Option CancelPc
  | .reason => none
  | .flag => some .flag
  | .wakeFinality => some .wakeFinality
  | .wakeCommit => some .wakeCommit

theorem Shared.abortStep_cancel {s s' : Shared W R B} {reason : AbortReason Err} {pc : AbortPc}
    {next : Option AbortPc} {c : CancelPc} (hpc : pc.cancelPc = some c)
    (h : s.abortStep reason pc = (s', next)) :
    s' = (s.cancelStep c).1 ∧ next.bind AbortPc.cancelPc = (s.cancelStep c).2 := by
  cases pc <;> cases hpc <;> cases h <;> exact ⟨rfl, rfl⟩

/-- Before `cancel` only the reason is stored. -/
theorem Shared.abortStep_reasonOnly {s s' : Shared W R B} {reason : AbortReason Err}
    {pc : AbortPc} {next : Option AbortPc} (hpc : pc.cancelPc = none)
    (h : s.abortStep reason pc = (s', next)) :
    s' = { s with abortReason := s'.abortReason } := by
  cases pc <;> cases hpc
  cases h
  rfl

/-- Where in `cancel` a worker is. -/
def WorkerPc.cancelPc : WorkerPc R B → Option CancelPc
  | .exec _ (.errAbort _ pc) | .exec _ (.parallelError _ pc) | .val _ (.parallelError _ pc) =>
    pc.cancelPc
  | _ => none

/-- Where in `cancel` the commit loop is. -/
def CommitLoopPc.cancelPc : CommitLoopPc R B → Option CancelPc
  | .aborting _ _ pc => pc.cancelPc
  | _ => none

/-! ## Threads under their guards -/

/-- `CancelOnPanic`: waiting for a panic, in `cancel`, or done with
it. -/
inductive GuardPc where
  | armed
  | cancelling (pc : CancelPc)
  | released
  deriving DecidableEq

/-- The thread that holds a lock. -/
def Holder.thread : Holder W → Thread W
  | .worker w => .worker w
  | .finality => .finality

/-- Unwinding drops the locks of the thread. -/
def Shared.unwind [DecidableEq W] (s : Shared W R B) (guard : Option (Thread W)) :
    Shared W R B :=
  { s with txLocks := fun t => (s.txLocks t).filter fun holder => guard ≠ some holder.thread }

variable (W R B) in
/-- The machine with the guard of every thread, and that of the scope
that spawns them (`none`). `checked` is the transaction of the last
notify check of a worker. -/
structure GuardedState where
  run : SchedulerState W R B
  guards : Option (Thread W) → GuardPc := fun _ => .armed
  checked : W → Option Nat := fun _ => none

/-- A step of a thread, a panic in it, or a step of its guard. -/
inductive GuardedAction (W : Type) where
  | thread (action : Action W)
  | panic (guard : Option (Thread W))
  | cancel (guard : Option (Thread W))

section

variable [DecidableEq W]

/-- A worker that reads the finality cursor for a notify check remembers
the transaction. -/
def GuardedState.checkedAfter (σ : GuardedState W R B) : Thread W → W → Option Nat
  | .worker w =>
    match σ.run.workers w with
    | .wakeLoad txid => Function.update σ.checked w (some txid)
    | _ => σ.checked
  | _ => σ.checked

def guardedStep (blk : Block Err R) (σ : GuardedState W R B) :
    GuardedAction W → Option (GuardedState W R B)
  | .thread action =>
    if σ.guards (some action.thread) = .armed then
      (step blk σ.run action).map fun run =>
        { σ with run, checked := σ.checkedAfter action.thread }
    else none
  | .panic guard =>
    if σ.guards guard = .armed then
      some { σ with
        run := { σ.run with shared := σ.run.shared.unwind guard }
        guards := Function.update σ.guards guard (.cancelling .flag) }
    else none
  | .cancel guard =>
    match σ.guards guard with
    | .cancelling pc =>
      let (shared, next) := σ.run.shared.cancelStep pc
      some { σ with
        run := { σ.run with shared }
        guards := Function.update σ.guards guard (next.elim .released .cancelling) }
    | _ => none

/-- The states of all runs in which threads may panic. -/
abbrev GuardedReachable (blk : Block Err R) (backing : B.State) (σ : GuardedState W R B) : Prop :=
  Runs.Reach (guardedStep blk) Runs.Free { run := initial backing } σ

/-- The runs without a panic are the runs of the machine. -/
theorem guardedReachable_of_reachable {blk : Block Err R} {backing : B.State}
    {s : SchedulerState W R B} (h : Reachable blk backing s) :
    ∃ checked, GuardedReachable blk backing ⟨s, fun _ => .armed, checked⟩ := by
  induction h with
  | refl => exact ⟨_, .refl⟩
  | @tail s s' action _ _ hstep ih =>
    obtain ⟨checked, hreach⟩ := ih
    refine ⟨GuardedState.checkedAfter ⟨s, fun _ => .armed, checked⟩ action.thread,
      .tail (.thread action) hreach trivial ?_⟩
    simp [guardedStep, hstep]

end

/-- The transaction that a worker has claimed, has a task for or makes
the notify check for. -/
def WorkerPc.concern (checked : Option Nat) : WorkerPc R B → Option Nat
  | .claimLock txid | .wakeLoad txid => some txid
  | .task (.execution v) | .task (.validation v) | .exec v _ | .val v _ => some v.txid
  | .wake => checked
  | _ => none

namespace GuardedState

/-- Where in `cancel` a thread is, be it through `abort` or through its
guard. -/
def cancelPc (σ : GuardedState W R B) (guard : Option (Thread W)) : Option CancelPc :=
  match σ.guards guard with
  | .cancelling pc => some pc
  | .released => none
  | .armed =>
    match guard with
    | some (.worker w) => (σ.run.workers w).cancelPc
    | some .commit => σ.run.commit.pc.cancelPc
    | _ => none

/-- No thread is inside `cancel`. -/
def NoCancel (σ : GuardedState W R B) : Prop := ∀ guard, σ.cancelPc guard = none

/-- A worker has a claim, a task or a pending notify check for `txid`. -/
def Concerns (σ : GuardedState W R B) (w : W) (txid : Nat) : Prop :=
  σ.guards (some (.worker w)) = .armed ∧
    (σ.run.workers w).concern (σ.checked w) = some txid

/-- The finality coordinator is parked. -/
def FinalityParked (σ : GuardedState W R B) : Prop :=
  σ.guards (some .finality) = .armed ∧ σ.run.finality.pc = .park

/-- The finality loop has returned, or unwinds. -/
def FinalityEnded (σ : GuardedState W R B) : Prop :=
  σ.guards (some .finality) ≠ .armed ∨ σ.run.finality.pc = .finished

/-- The commit coordinator is parked. -/
def CommitParked (σ : GuardedState W R B) : Prop :=
  σ.guards (some .commit) = .armed ∧ σ.run.commit.pc = .park

end GuardedState

end Grevm
