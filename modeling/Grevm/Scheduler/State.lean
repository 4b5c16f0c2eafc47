/-
Grevm.Scheduler.State — the state of a parallel execution.

`Shared` is what the threads of `src/scheduler.rs` share, and `WorkerPc`,
`FinalityPc` and `CommitLoopPc` are the program points of
`run_worker`, `run_finality_loop` and `run_commit_loop`: the places
between two accesses to shared state. Taking or releasing a lock is one
step with the access next to it. The mutex of a transaction result is
not modelled: workers take it inside the lock of the transaction, and the
commit loop takes the result of a finalized transaction in one access.
-/
import Grevm.TxDependency
import Grevm.Scheduler.Context

namespace Grevm

/-- What the block fixes: its transactions as programs of a speculative
execution and of a sequential one, which checks nonces and pays the
beneficiary at once, and the inputs of the ordered commit. `anchor` is
the beneficiary account loaded before the threads start. -/
structure Block (Err R : Type) where
  size : Nat
  beneficiary : Address
  anchor : Option AccountInfo
  spec : Nat → Prog Err R
  immediate : Nat → Prog Err R
  caller : Nat → Address
  nonce : Nat → BitVec 64
  disableNonceCheck : Bool

/-- `WaitSlot`: the registered thread and its unpark token. -/
structure WaitSlot where
  registered : Bool := false
  token : Bool := false
  deriving DecidableEq

def WaitSlot.notify (slot : WaitSlot) : WaitSlot :=
  if slot.registered then { slot with token := true } else slot

/-- Who holds the lock of a transaction. -/
inductive Holder (W : Type) where
  | worker (w : W)
  | finality
  deriving DecidableEq

/-- Program points of `abort`: store the reason, set the flag, wake the
coordinators. -/
inductive AbortPc where
  | reason
  | flag
  | wakeFinality
  | wakeCommit
  deriving DecidableEq

section

variable {Err : Type} (W R : Type) (B : Backing Err)

/-- The state shared by the threads. -/
structure Shared where
  txStates : Nat → TxState := fun _ => {}
  txLocks : Nat → Option (Holder W) := fun _ => none
  txResults : Nat → Option (TransactionResult Err R) := fun _ => none
  mvMemory : MVMemory := fun _ _ => none
  history : Nat → EntryState := fun _ => {}
  ctx : SchedulerContext := {}
  txDependency : TxDependency := {}
  abort : Bool := false
  abortReason : Option (AbortReason Err) := none
  finalityWait : WaitSlot := {}
  commitWait : WaitSlot := {}
  backing : B.State

variable {W B}

namespace Shared

variable {R}

@[simps] def setLock (s : Shared W R B) (txid : Nat) (holder : Option (Holder W)) : Shared W R B :=
  { s with txLocks := Function.update s.txLocks txid holder }

@[simps] def setState (s : Shared W R B) (txid : Nat) (state : TxState) : Shared W R B :=
  { s with txStates := Function.update s.txStates txid state }

@[simps] def setStatus (s : Shared W R B) (txid : Nat) (status : TransactionStatus) :
    Shared W R B :=
  { s with txStates := Function.update s.txStates txid { s.txStates txid with status } }

@[simps] def setResult (s : Shared W R B) (txid : Nat) (result : Option (TransactionResult Err R)) :
    Shared W R B :=
  { s with txResults := Function.update s.txResults txid result }

@[simps] def setEntry (s : Shared W R B) (txid : Nat) (entry : EntryState) : Shared W R B :=
  { s with history := Function.update s.history txid entry }

/-- The write set of the last result, empty before the first one. -/
def lastWriteSet (s : Shared W R B) (txid : Nat) : List LocationAndType :=
  (s.txResults txid).elim [] TransactionResult.writeSet

/-- One step of `abort(reason)`. -/
def abortStep (s : Shared W R B) (reason : AbortReason Err) :
    AbortPc → Shared W R B × Option AbortPc
  | .reason => ({ s with abortReason := s.abortReason.or (some reason) }, some .flag)
  | .flag => ({ s with abort := true }, some .wakeFinality)
  | .wakeFinality => ({ s with finalityWait := s.finalityWait.notify }, some .wakeCommit)
  | .wakeCommit => ({ s with commitWait := s.commitWait.notify }, none)

end Shared

/-! ## Program points of a worker -/

variable (B)

/-- A successful execution after its publications. -/
structure Execution where
  db : IncarnationDb
  result : SpeculativeResult R
  writeSet : List LocationAndType
  writeNewLocations : Bool

/-- What `execute_task` does after it has published the execution:
hand the successor over, rewind past a conflict, rewind to the
transaction itself, or validate it at once. -/
inductive ExecTail where
  | handOff (next : Nat)
  | conflict
  | rewind
  | revalidate
  deriving DecidableEq

/-- Program points of `execute_task`, all with the lock of the
transaction held. -/
inductive ExecPc where
  | running (db : IncarnationDb) (continuation : Except Err Value → Prog Err R) (pc : CallPc B)
  | publishing (db : IncarnationDb) (result : SpeculativeResult R) (pc : Publishing)
  | removing (e : Execution R) (remaining : List LocationAndType)
  | recording (e : Execution R)
  | blockerLoad (e : Execution R)
  | adding (e : Execution R) (blocker : Option Nat) (pc : AddPc)
  | releasing (e : Execution R) (pc : RemovePc)
  | settling (e : Execution R) (next : Option Nat)
  | errMarking (db : IncarnationDb) (error : EVMError Err) (remaining : List LocationAndType)
  | errRecording (db : IncarnationDb) (error : EVMError Err)
  | errBlockerLoad (db : IncarnationDb)
  | errAdding (blocker : Option Nat) (pc : AddPc)
  | errHead (error : EVMError Err)
  | errAbort (reason : AbortReason Err) (pc : AbortPc)
  | keying
  | keyingRewind
  | errSettling
  | frontier (tail : ExecTail) (pc : FrontierPc)
  | rewinding (tail : ExecTail) (pc : RewindPc)
  | parallelError (message : String) (pc : AbortPc)

/-- Program points of `validate`, all with the lock of the transaction
held. -/
inductive ValPc where
  | scanning (ts : Nat) (remaining : List (LocationAndType × ReadVersion)) (conflict : Bool)
      (dependency : Option Nat)
  | scanningHistory (ts : Nat) (remaining : List (LocationAndType × ReadVersion))
      (conflict : Bool) (dependency : Option Nat) (expected : BeneficiaryReadVersion)
      (scan : ScanState)
  | marking (dependency : Option Nat) (remaining : List LocationAndType)
  | invalidating (dependency : Option Nat)
  | rewinding (dependency : Option Nat) (pc : RewindPc)
  | blockerLoad (dependency : Option Nat)
  | adding (blocker : Option Nat) (pc : AddPc)
  | unconfirming (ts : Nat) (dependency : Option Nat)
  | parallelError (message : String) (pc : AbortPc)

/-- Program points of `run_worker`. -/
inductive WorkerPc where
  | nextFinished
  | nextAborted
  | scheduleIndex
  | scheduleValidation (executingIdx : Nat)
  | scheduleFrontier (pc : FrontierPc)
  | claimIndex
  | claimFrontier (executingIdx : Nat) (pc : FrontierPc)
  | claimLoad (limit : Nat)
  | claimCas (limit current : Nat)
  | claimLock (txid : Nat)
  | dependencyLoad
  | dependencyFetch
  | dependencyLock (txid : Nat)
  | executionTask (txid : Nat) (fromNext : Bool)
  | useless (txid : Nat) (fromNext : Bool) (pc : RemovePc)
  | task (task : Task)
  | exec (version : TxVersion) (pc : ExecPc R B)
  | val (version : TxVersion) (pc : ValPc)
  | wakeLoad (txid : Nat)
  | wake
  | afterTask
  | finished

/-! ## Program points of the coordinators -/

/-- Who asks for a finality candidate: the loop that advances, or one of
the two checks before the thread parks. -/
inductive CandidateUse where
  | advance (previous : Nat)
  | waitFirst
  | waitSecond
  deriving DecidableEq

/-- Program points of `run_finality_loop`. -/
inductive FinalityPc where
  | register
  | head
  | candidateValidation (use : CandidateUse)
  | candidateLock (use : CandidateUse)
  | candidateLower (use : CandidateUse)
  | candidateDecide (use : CandidateUse) (effectiveLowerTs : Nat)
  | publish (previous : Nat)
  | notifyFirst (previous : Nat)
  | notifyBatch (previous : Nat)
  | waitFirst
  | waitSecond
  | park
  | finished
  deriving DecidableEq

/-- The finality thread; `idx` counts the transactions it has set to
`Finality`. -/
structure FinalityThread where
  pc : FinalityPc := .register
  idx : Nat := 0
  lowerTs : Nat := 0
  deriving DecidableEq

/-- Program points of `run_commit_loop` and `OrderedCommitter::commit`. -/
inductive CommitLoopPc where
  | register
  | head
  | finalityLoad (previous : Nat)
  | take (previous : Nat)
  | nonce (previous : Nat) (result : SpeculativeResult R) (pc : B.BasicPc)
  | reward (previous : Nat) (result : SpeculativeResult R) (amount : DeferredBeneficiaryReward)
      (pc : B.BasicPc)
  | applying (previous : Nat) (result : R) (pc : B.CommitPc)
  | publish (previous : Nat)
  | release (previous : Nat)
  | waitAborted (second : Bool)
  | waitFinality (second : Bool)
  | park
  | aborting (reason : AbortReason Err) (error : Option (GrevmError Err)) (pc : AbortPc)
  | finished (error : Option (GrevmError Err))

/-- A call of `ParallelStateCommit::commit`: the transaction, its
execution result, and the change set. -/
structure Applied where
  txid : Nat
  result : R
  state : EvmState

/-- The commit thread. `applied` are the calls of
`ParallelStateCommit::commit` so far, in their order. -/
structure CommitThread where
  pc : CommitLoopPc R B := .register
  idx : Nat := 0
  output : List (TxExecutionOutcome R) := []
  applied : List (Applied R) := []

variable (W)

/-- The state of a run. -/
structure SchedulerState where
  shared : Shared W R B
  workers : W → WorkerPc R B := fun _ => .nextFinished
  finality : FinalityThread := {}
  commit : CommitThread R B := {}

end

end Grevm
