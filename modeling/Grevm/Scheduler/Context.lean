/-
Grevm.Scheduler.Context — cursors, execution frontier and logical clock.

`src/scheduler/context.rs` and `src/scheduler/cursor.rs`. Every function
below is one atomic access; `FrontierPc` are the program points of
`ExecutionFrontier::publish` and `ExecutionFrontier::current` between two
accesses, and `RewindPc` those of `rewind_validation_to`.
-/
import Grevm.Model
import Mathlib.Logic.Function.Basic

namespace Grevm

structure SchedulerContext where
  validation : Nat := 0
  finality : Nat := 0
  committed : Nat := 0
  executed : Nat → Bool := fun _ => false
  frontier : Nat := 0
  logicalClock : Nat := 1
  lowerTimestamps : Nat → Nat := fun _ => 0
  unconfirmedTimestamps : Nat → Nat := fun _ => 0

/-! ## The execution frontier -/

/-- Program points of the execution frontier. `advance` is shared by the
two entry points and remembers which of them it serves. -/
inductive FrontierPc where
  | publishLoad (index : Nat)
  | publishStore (index : Nat)
  | publishReload (index : Nat)
  | currentLoad
  | currentCheck (frontier : Nat)
  | currentReload
  | advanceScan (publishing : Bool) (start finish : Nat)
  | advanceMax (publishing : Bool) (finish : Nat)
  deriving DecidableEq

namespace SchedulerContext

/-- One access to the execution frontier of `numTxs` transactions: the
next program point, or the value returned (`publish` returns nothing,
here zero). -/
def frontierStep (numTxs : Nat) (ctx : SchedulerContext) :
    FrontierPc → SchedulerContext × (FrontierPc ⊕ Nat)
  | .publishLoad index =>
    if index < ctx.frontier then (ctx, .inr 0) else (ctx, .inl (.publishStore index))
  | .publishStore index =>
    ({ ctx with executed := Function.update ctx.executed index true },
      .inl (.publishReload index))
  | .publishReload index =>
    if index = ctx.frontier then (ctx, .inl (.advanceScan true index index)) else (ctx, .inr 0)
  | .currentLoad =>
    if ctx.frontier < numTxs then (ctx, .inl (.currentCheck ctx.frontier))
    else (ctx, .inr ctx.frontier)
  | .currentCheck frontier =>
    if ctx.executed frontier then (ctx, .inl (.advanceScan false frontier frontier))
    else (ctx, .inr frontier)
  | .currentReload => (ctx, .inr ctx.frontier)
  | .advanceScan publishing start finish =>
    if finish < numTxs ∧ ctx.executed finish then
      (ctx, .inl (.advanceScan publishing start (finish + 1)))
    else if finish = start then
      (ctx, if publishing then .inr 0 else .inl .currentReload)
    else (ctx, .inl (.advanceMax publishing finish))
  | .advanceMax publishing finish =>
    let start := max ctx.frontier finish
    ({ ctx with frontier := start }, .inl (.advanceScan publishing start start))

/-- The frontier without interleaving: the value `current` returns when
no other thread moves. -/
def advanceNow (numTxs : Nat) (executed : Nat → Bool) (fuel start : Nat) : Nat :=
  match fuel with
  | 0 => start
  | fuel + 1 =>
    if start < numTxs ∧ executed start then advanceNow numTxs executed fuel (start + 1) else start

def executionFrontier (numTxs : Nat) (ctx : SchedulerContext) : Nat :=
  advanceNow numTxs ctx.executed (numTxs - ctx.frontier) ctx.frontier

/-! ## The logical clock and the validation cursor -/

/-- `logical_timestamp`: the value before the increment is drawn. -/
def tick (ctx : SchedulerContext) : SchedulerContext :=
  { ctx with logicalClock := ctx.logicalClock + 1 }

def raiseLower (ctx : SchedulerContext) (index timestamp : Nat) : SchedulerContext :=
  { ctx with
    lowerTimestamps :=
      Function.update ctx.lowerTimestamps index (max (ctx.lowerTimestamps index) timestamp) }

def rewindCursor (ctx : SchedulerContext) (index : Nat) : SchedulerContext :=
  { ctx with validation := min ctx.validation index }

/-- `unconfirmed`. -/
def raiseUnconfirmed (ctx : SchedulerContext) (index timestamp : Nat) : SchedulerContext :=
  { ctx with
    unconfirmedTimestamps :=
      Function.update ctx.unconfirmedTimestamps index
        (max (ctx.unconfirmedTimestamps index) timestamp) }

end SchedulerContext

/-- Program points of `rewind_validation_to`: draw a timestamp, raise
the lower bound of the index, move the cursor back. -/
inductive RewindPc where
  | clock
  | lower (timestamp : Nat)
  | cursor (timestamp : Nat)
  deriving DecidableEq

/-- One access of `rewind_validation_to(index)`. -/
def rewindStep (ctx : SchedulerContext) (index : Nat) :
    RewindPc → SchedulerContext × Option RewindPc
  | .clock => (ctx.tick, some (.lower ctx.logicalClock))
  | .lower timestamp => (ctx.raiseLower index timestamp, some (.cursor timestamp))
  | .cursor _ => (ctx.rewindCursor index, none)

end Grevm
