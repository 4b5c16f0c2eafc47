/-
Grevm.Scheduler.Worker — the worker threads.

`run_worker`, `next`, `execution_task`, `execute_task` and `validate` of
`src/scheduler.rs`. A step takes the shared state and the program point of
one worker to the state and the point after its next access; `c` resolves
what the program leaves open (the element a hash iteration yields next, or
a weak compare-exchange that fails spuriously). `none` means that the
worker waits for a lock, or has panicked on a failed assertion.
-/
import Grevm.Scheduler.State

namespace Grevm

variable {Err W R : Type} {B : Backing Err}

/-! ## `execute_task` -/

/-- The program point an execution reaches with the rest of its program:
the next state read, the publications of a successful result, or the
error branch, which marks what the last result had written. -/
def enterExec (blk : Block Err R) (s : Shared W R B) (txid : Nat) (db : IncarnationDb) :
    Prog Err R → ExecPc R B
  | .read call continuation => .running db continuation (call.start blk.beneficiary txid)
  | .done (.ok result) => .publishing db result (Publishing.start result.state)
  | .done (.error error) => .errMarking db error (s.lastWriteSet txid)

/-- Where `execute_task` rewinds validation to. -/
def ExecTail.target (txid : Nat) : ExecTail → Nat
  | .conflict => txid + 1
  | _ => txid

/-- `execute_task` returns and drops the lock of the transaction. -/
def finishExec (s : Shared W R B) (version : TxVersion) (tail : ExecTail) :
    Shared W R B × WorkerPc R B :=
  let s := s.setLock version.txid none
  match tail with
  | .handOff next => (s, .executionTask next false)
  | .revalidate =>
    (s.setStatus version.txid .validating, .task (.validation version))
  | _ => (s, .afterTask)

/-- The latest blocker that is not final yet. -/
def latestUnfinalizedBlocker (finality : Nat) (blockers : List Nat) : Option Nat :=
  (blockers.filter fun txid => finality ≤ txid).max?

/-- The last result against the new write set: whether a location is
new, and the locations that are stale. -/
def compareWriteSets (last : Option (TransactionResult Err R)) (writeSet : List LocationAndType) :
    Bool × List LocationAndType :=
  match last with
  | some last =>
    (writeSet.any fun location => !last.writeSet.contains location,
      last.writeSet.filter fun location => !writeSet.contains location)
  | none => (true, [])

def execStep (blk : Block Err R) (s : Shared W R B) (version : TxVersion) (pc : ExecPc R B)
    (c : Nat) : Option (Shared W R B × WorkerPc R B) :=
  let txid := version.txid
  let incarnation := version.incarnation
  let stay (s : Shared W R B) (pc : ExecPc R B) := some (s, WorkerPc.exec version pc)
  match pc with
  | .running db continuation pc =>
    let (backing, db, next) :=
      callStep blk.anchor txid s.mvMemory s.history s.backing db pc
    let s := { s with backing }
    match next with
    | .inl pc => stay s (.running db continuation pc)
    | .inr answer => stay s (enterExec blk s txid db (continuation answer))
  | .publishing db result pc =>
    if pc.finished then
      let (writeNewLocations, stale) := compareWriteSets (s.txResults txid) pc.writeSet
      stay s (.removing { db, result, writeSet := pc.writeSet, writeNewLocations } stale)
    else
      match pc.next blk.beneficiary db.accountSnapshots c with
      | some (some (location, value), pc) =>
        let entry := { incarnation, data := value, estimate := db.isBlocked }
        stay { s with mvMemory := s.mvMemory.insert location txid entry }
          (.publishing db result pc)
      | some (none, pc) => stay s (.publishing db result pc)
      | none => none
  | .removing e [] => stay s (.recording e)
  | .removing e remaining =>
    match pick? remaining c with
    | some (location, remaining) =>
      stay { s with mvMemory := s.mvMemory.remove location txid } (.removing e remaining)
    | none => none
  | .recording e =>
    if e.db.isBlocked then
      match (s.history txid).record incarnation .estimate with
      | some entry => stay (s.setEntry txid entry) (.blockerLoad e)
      | none => stay s (.parallelError "stale beneficiary history publication" .reason)
    else
      match BeneficiaryEffect.fromExecution e.result.deferredReward
          (e.result.state.lookup blk.beneficiary) with
      | none => none
      | some effect =>
        match (s.history txid).record incarnation (.exact effect) with
        | some entry => stay (s.setEntry txid entry) (.releasing e .start)
        | none => stay s (.parallelError "stale beneficiary history publication" .reason)
  | .blockerLoad e =>
    stay s (.adding e (latestUnfinalizedBlocker s.ctx.finality e.db.blockingTxs) .start)
  | .adding e blocker pc =>
    match addStep s.txDependency txid blocker pc with
    | some (txDependency, some pc) => stay { s with txDependency } (.adding e blocker pc)
    | some (txDependency, none) => stay { s with txDependency } (.settling e none)
    | none => none
  | .releasing e pc =>
    match removeStep s.txDependency txid true pc c with
    | some (txDependency, .inl pc) => stay { s with txDependency } (.releasing e pc)
    | some (txDependency, .inr next) => stay { s with txDependency } (.settling e next)
    | none => none
  | .settling e next =>
    let s := s.setResult txid (some
      { readSet := e.db.readSet, writeSet := e.writeSet, executeResult := .ok e.result })
    let conflict := e.db.isBlocked
    let s := s.setStatus txid (if conflict then .conflict else .executed)
    let tail :=
      match next with
      | some next => .handOff next
      | none =>
        if conflict then .conflict else if e.writeNewLocations then .rewind else .revalidate
    stay s (.frontier tail (.publishLoad txid))
  | .errMarking db error [] => stay s (.errRecording db error)
  | .errMarking db error remaining =>
    match pick? remaining c with
    | some (location, remaining) =>
      stay { s with mvMemory := s.mvMemory.markEstimate location txid }
        (.errMarking db error remaining)
    | none => none
  | .errRecording db error =>
    match (s.history txid).record incarnation .estimate with
    | some entry =>
      let s := (s.setEntry txid entry).setResult txid (some
        { readSet := ∅, writeSet := s.lastWriteSet txid, executeResult := .error error })
      stay s (if db.isBlocked then .errBlockerLoad db else .errHead error)
    | none => stay s (.parallelError "stale beneficiary estimate publication" .reason)
  | .errBlockerLoad db =>
    stay s (.errAdding (latestUnfinalizedBlocker s.ctx.finality db.blockingTxs) .start)
  | .errAdding blocker pc =>
    match addStep s.txDependency txid blocker pc with
    | some (txDependency, some pc) => stay { s with txDependency } (.errAdding blocker pc)
    | some (txDependency, none) => stay { s with txDependency } .errSettling
    | none => none
  | .errHead error =>
    if s.ctx.committed = txid then
      stay s (.errAbort
        (if error.isTransaction then .fallbackSequential else .fatalEvmError txid) .reason)
    else stay s .keying
  | .errAbort reason pc =>
    match s.abortStep reason pc with
    | (s, some pc) => stay s (.errAbort reason pc)
    | (s, none) => stay s .keying
  | .keying =>
    match s.txDependency.keyTx txid s.ctx.committed with
    | some (txDependency, true) => stay { s with txDependency } .keyingRewind
    | some (txDependency, false) => stay { s with txDependency } .errSettling
    | none => none
  | .keyingRewind =>
    stay { s with txDependency := s.txDependency.keyTxRewind txid } .errSettling
  | .errSettling =>
    stay (s.setStatus txid .conflict) (.frontier .conflict (.publishLoad txid))
  | .frontier tail pc =>
    match s.ctx.frontierStep blk.size pc with
    | (ctx, .inl pc) => stay { s with ctx } (.frontier tail pc)
    | (ctx, .inr _) =>
      let s := { s with ctx }
      if tail = .revalidate ∨ blk.size ≤ tail.target txid then
        some (finishExec s version tail)
      else stay s (.rewinding tail .clock)
  | .rewinding tail pc =>
    match rewindStep s.ctx (tail.target txid) pc with
    | (ctx, some pc) => stay { s with ctx } (.rewinding tail pc)
    | (ctx, none) => some (finishExec { s with ctx } version tail)
  | .parallelError message pc =>
    match s.abortStep (.parallelError txid message) pc with
    | (s, some pc) => stay s (.parallelError message pc)
    | (s, none) => some (s.setLock txid none, .afterTask)

/-! ## `validate` -/

/-- The larger of the dependencies found so far. -/
def laterDependency (dependency : Option Nat) (previousId : Option Nat) : Option Nat :=
  match dependency, previousId with
  | some d, some p => some (max d p)
  | none, p => p
  | d, none => d

def valStep (blk : Block Err R) (s : Shared W R B) (version : TxVersion) (pc : ValPc)
    (c : Nat) : Option (Shared W R B × WorkerPc R B) :=
  let txid := version.txid
  let stay (s : Shared W R B) (pc : ValPc) := some (s, WorkerPc.val version pc)
  match pc with
  | .scanning ts [] conflict dependency =>
    if conflict then stay s (.marking dependency (s.lastWriteSet txid))
    else stay s (.unconfirming ts dependency)
  | .scanning ts remaining conflict dependency =>
    match pick? remaining c with
    | some ((_, .beneficiary expected), remaining) =>
      stay s (.scanningHistory ts remaining conflict dependency expected { writer := txid })
    | some ((location, version), remaining) =>
      let (conflicts, previousId) := checkRead s.mvMemory txid location version
      stay s (.scanning ts remaining (conflict || conflicts)
        (laterDependency dependency previousId))
    | none => none
  | .scanningHistory ts remaining conflict dependency expected scan =>
    match scan.step blk.anchor s.history with
    | .more scan => stay s (.scanningHistory ts remaining conflict dependency expected scan)
    | .done scan =>
      let validation := scan.validate expected
      stay s (.scanning ts remaining (conflict || !validation.valid)
        (laterDependency dependency validation.dependency))
    | .blocked writer =>
      stay s (.scanning ts remaining true (laterDependency dependency (some writer)))
  | .marking dependency [] => stay s (.invalidating dependency)
  | .marking dependency remaining =>
    match pick? remaining c with
    | some (location, remaining) =>
      stay { s with mvMemory := s.mvMemory.markEstimate location txid }
        (.marking dependency remaining)
    | none => none
  | .invalidating dependency =>
    match (s.history txid).invalidate version.incarnation with
    | some entry =>
      let s := s.setEntry txid entry
      if blk.size ≤ txid + 1 then
        stay (s.setState txid { s.txStates txid with status := .conflict, dependency })
          (.blockerLoad dependency)
      else stay s (.rewinding dependency .clock)
    | none => stay s (.parallelError "stale beneficiary history validation" .reason)
  | .rewinding dependency pc =>
    match rewindStep s.ctx (txid + 1) pc with
    | (ctx, some pc) => stay { s with ctx } (.rewinding dependency pc)
    | (ctx, none) =>
      stay ({ s with ctx }.setState txid { s.txStates txid with status := .conflict, dependency })
        (.blockerLoad dependency)
  | .blockerLoad dependency =>
    stay s (.adding (dependency.filter fun dep => s.ctx.finality ≤ dep) .start)
  | .adding blocker pc =>
    match addStep s.txDependency txid blocker pc with
    | some (txDependency, some pc) => stay { s with txDependency } (.adding blocker pc)
    | some (txDependency, none) =>
      some ({ s with txDependency }.setLock txid none, .wakeLoad txid)
    | none => none
  | .unconfirming ts dependency =>
    let s := { s with ctx := s.ctx.raiseUnconfirmed txid ts }
    some ((s.setState txid { s.txStates txid with status := .unconfirmed, dependency }).setLock
      txid none, .wakeLoad txid)
  | .parallelError message pc =>
    match s.abortStep (.parallelError txid message) pc with
    | (s, some pc) => stay s (.parallelError message pc)
    | (s, none) => some (s.setLock txid none, .afterTask)

/-! ## Starting a task -/

/-- The beginning of `execute_task`: the lock, the status and the
incarnation. -/
def startExecution (blk : Block Err R) (w : W) (s : Shared W R B) (version : TxVersion) :
    Option (Shared W R B × WorkerPc R B) :=
  let txid := version.txid
  if (s.txLocks txid).isSome then none
  else if (s.txStates txid).status ≠ .executing then some (s, .afterTask)
  else
    let s := s.setLock txid (some (.worker w))
    if (s.txStates txid).incarnation ≠ version.incarnation then
      some (s, .exec version (.parallelError "inconsistent incarnation during execution" .reason))
    else some (s, .exec version (enterExec blk s txid {} (blk.spec txid)))

/-- The beginning of `validate`: the lock, the status, the incarnation,
the result, and the timestamp drawn before the scan. -/
def startValidation (w : W) (s : Shared W R B) (version : TxVersion) :
    Option (Shared W R B × WorkerPc R B) :=
  let txid := version.txid
  let refuse (s : Shared W R B) (message : String) :=
    some (s, WorkerPc.val version (.parallelError message .reason))
  if (s.txLocks txid).isSome then none
  else if (s.txStates txid).status ≠ .validating then some (s, .afterTask)
  else
    let s := s.setLock txid (some (.worker w))
    if (s.txStates txid).incarnation ≠ version.incarnation then
      refuse s "inconsistent incarnation during validation"
    else
      match s.txResults txid with
      | none => refuse s "transaction has no result during validation"
      | some result =>
        match result.executeResult with
        | .error _ => refuse s "failed transaction reached validation"
        | .ok _ =>
          some ({ s with ctx := s.ctx.tick },
            .val version (.scanning s.ctx.logicalClock
              (result.readSet.entries.map fun e => (e.1, e.2)) false none))

/-! ## `next` and `execution_task` -/

/-- Where `execution_task` returns to without a task. -/
def noTask (fromNext : Bool) : WorkerPc R B := if fromNext then .nextFinished else .afterTask

def workerStep (blk : Block Err R) (w : W) (s : Shared W R B) (pc : WorkerPc R B) (c : Nat) :
    Option (Shared W R B × WorkerPc R B) :=
  match pc with
  | .nextFinished =>
    some (s, if blk.size ≤ s.ctx.finality then .finished else .nextAborted)
  | .nextAborted => some (s, if s.abort then .finished else .scheduleIndex)
  | .scheduleIndex => some (s, .scheduleValidation s.txDependency.index)
  | .scheduleValidation executingIdx =>
    some (s, if s.ctx.validation < executingIdx then .scheduleFrontier .currentLoad
      else .claimIndex)
  | .scheduleFrontier pc =>
    match s.ctx.frontierStep blk.size pc with
    | (ctx, .inl pc) => some ({ s with ctx }, .scheduleFrontier pc)
    | (ctx, .inr _) => some ({ s with ctx }, .claimIndex)
  | .claimIndex => some (s, .claimFrontier s.txDependency.index .currentLoad)
  | .claimFrontier executingIdx pc =>
    match s.ctx.frontierStep blk.size pc with
    | (ctx, .inl pc) => some ({ s with ctx }, .claimFrontier executingIdx pc)
    | (ctx, .inr frontier) => some ({ s with ctx }, .claimLoad (min executingIdx frontier))
  | .claimLoad limit =>
    some (s, if limit ≤ s.ctx.validation then .dependencyLoad
      else .claimCas limit s.ctx.validation)
  | .claimCas limit current =>
    if s.ctx.validation = current ∧ c = 0 then
      some ({ s with ctx := { s.ctx with validation := current + 1 } }, .claimLock current)
    else some (s, .claimLoad limit)
  | .claimLock txid =>
    if (s.txLocks txid).isSome then none
    else
      let state := s.txStates txid
      if state.status = .executed ∨ state.status = .unconfirmed then
        some (s.setStatus txid .validating, .task (.validation ⟨txid, state.incarnation⟩))
      else some (s, .dependencyLoad)
  | .dependencyLoad =>
    some (s, if blk.size ≤ s.txDependency.index then .nextFinished else .dependencyFetch)
  | .dependencyFetch =>
    let index := s.txDependency.index
    some ({ s with txDependency := { s.txDependency with index := index + 1 } },
      if blk.size ≤ index then .nextFinished else .dependencyLock index)
  | .dependencyLock txid =>
    match s.txDependency.claim txid with
    | some (txDependency, claimed) =>
      some ({ s with txDependency }, if claimed then .executionTask txid true else .nextFinished)
    | none => none
  | .executionTask txid fromNext =>
    if (s.txLocks txid).isSome then none
    else
      let state := s.txStates txid
      match state.status with
      | .initial | .conflict =>
        let incarnation := state.incarnation + 1
        some (s.setState txid { state with status := .executing, incarnation },
          .task (.execution ⟨txid, incarnation⟩))
      | .executing => some (s, noTask fromNext)
      | _ => some (s, .useless txid fromNext .start)
  | .useless txid fromNext pc =>
    match removeStep s.txDependency txid false pc c with
    | some (txDependency, .inl pc) => some ({ s with txDependency }, .useless txid fromNext pc)
    | some (txDependency, .inr _) => some ({ s with txDependency }, noTask fromNext)
    | none => none
  | .task (.execution version) => startExecution blk w s version
  | .task (.validation version) => startValidation w s version
  | .exec version pc => execStep blk s version pc c
  | .val version pc => valStep blk s version pc c
  | .wakeLoad txid => some (s, if txid = s.ctx.finality then .wake else .afterTask)
  | .wake => some ({ s with finalityWait := s.finalityWait.notify }, .afterTask)
  | .afterTask => some (s, if s.abort then .finished else .nextFinished)
  | .finished => none

end Grevm
