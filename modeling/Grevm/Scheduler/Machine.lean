/-
Grevm.Scheduler.Machine — the coordinators and the whole machine.

`run_finality_loop`, `lock_finality_candidate`, `run_commit_loop` and
`OrderedCommitter::commit`, then the machine of all threads: `step`
lets one thread move, and a run of `parallel_execute` is a run of `step`
from `initial`.
-/
import Grevm.Scheduler.Worker
import Grevm.Runs

namespace Grevm

variable {Err W R : Type} {B : Backing Err}

/-! ## `run_finality_loop` -/

/-- `lock_finality_candidate` returns nothing. -/
def noCandidate (t : FinalityThread) : CandidateUse → FinalityThread
  | .advance previous =>
    if previous < t.idx then { t with pc := .notifyBatch previous } else { t with pc := .waitFirst }
  | .waitFirst => { t with pc := .waitSecond }
  | .waitSecond => { t with pc := .park }

def finalityStep (blk : Block Err R) (s : Shared W R B) (t : FinalityThread) (c : Nat) :
    Option (Shared W R B × FinalityThread) :=
  match t.pc with
  | .register =>
    some ({ s with finalityWait := { s.finalityWait with registered := true } },
      { t with pc := .head })
  | .head =>
    some (s, { t with pc :=
      if s.abort || decide (blk.size ≤ t.idx) then .finished
      else .candidateValidation (.advance t.idx) })
  | .candidateValidation use =>
    if blk.size ≤ t.idx ∨ s.ctx.validation ≤ t.idx then some (s, noCandidate t use)
    else some (s, { t with pc := .candidateLock use })
  | .candidateLock use =>
    if (s.txLocks t.idx).isSome then none
    else if (s.txStates t.idx).status ≠ .unconfirmed then some (s, noCandidate t use)
    else some (s.setLock t.idx (some .finality), { t with pc := .candidateLower use })
  | .candidateLower use =>
    some (s, { t with pc :=
      .candidateDecide use (max t.lowerTs (s.ctx.lowerTimestamps t.idx)) })
  | .candidateDecide use effectiveLowerTs =>
    if effectiveLowerTs < s.ctx.unconfirmedTimestamps t.idx then
      match use with
      | .advance previous =>
        some ((s.setStatus t.idx .finality).setLock t.idx none,
          { pc := .publish previous, idx := t.idx + 1, lowerTs := effectiveLowerTs })
      | _ => some (s.setLock t.idx none, { t with pc := .head })
    else some (s.setLock t.idx none, noCandidate t use)
  | .publish previous =>
    some ({ s with ctx := { s.ctx with finality := t.idx } },
      { t with pc := if t.idx = previous + 1 then .notifyFirst previous
        else .candidateValidation (.advance previous) })
  | .notifyFirst previous =>
    some ({ s with commitWait := s.commitWait.notify },
      { t with pc := .candidateValidation (.advance previous) })
  | .notifyBatch previous =>
    some ({ s with commitWait :=
        if t.idx - previous > 1 then s.commitWait.notify else s.commitWait },
      { t with pc := .head })
  | .waitFirst =>
    some (s, { t with pc := if s.abort then .head else .candidateValidation .waitFirst })
  | .waitSecond =>
    some (s, { t with pc := if s.abort then .head else .candidateValidation .waitSecond })
  | .park =>
    -- `park_timeout` returns with the token, or at the timeout.
    if s.finalityWait.token ∨ c ≠ 0 then
      some ({ s with finalityWait := { s.finalityWait with token := false } },
        { t with pc := .head })
    else none
  | .finished => none

/-! ## `run_commit_loop` -/

/-- The nonce check of `OrderedCommitter::commit` passes. -/
def nonceMatches (nonce : BitVec 64) (info : Option AccountInfo) : Bool :=
  let expect := (info.map AccountInfo.nonce).getD 0
  !(nonce == BitVec.allOnes 64 && expect == BitVec.allOnes 64) && nonce == expect

/-- The change set with the reward folded in. -/
def withReward (beneficiary : Address) (reward : DeferredBeneficiaryReward)
    (info : Option AccountInfo) (state : EvmState) : EvmState :=
  state.insert beneficiary (Account.ofInfo (reward.applyTo info)).markTouch

/-- `ParallelStateCommit::commit` is called with the change set. -/
def startApply (t : CommitThread R B) (previous : Nat) (result : R) (state : EvmState) :
    CommitThread R B :=
  { t with
    pc := .applying previous result (B.commitStart state)
    applied := t.applied ++ [⟨t.idx, result, state⟩] }

/-- The part of `OrderedCommitter::commit` after the nonce check. A
deferred reward beside a beneficiary write fails the assertion. -/
def startReward (blk : Block Err R) (t : CommitThread R B) (previous : Nat)
    (result : SpeculativeResult R) : Option (CommitThread R B) :=
  match result.deferredReward with
  | some amount =>
    if (result.state.lookup blk.beneficiary).isSome then none
    else some { t with pc := .reward previous result amount (B.basicStart blk.beneficiary) }
  | none => some (startApply t previous result.result result.state)

def commitLoopStep (blk : Block Err R) (s : Shared W R B) (t : CommitThread R B) (c : Nat) :
    Option (Shared W R B × CommitThread R B) :=
  match t.pc with
  | .register =>
    some ({ s with commitWait := { s.commitWait with registered := true } },
      { t with pc := .head })
  | .head =>
    some (s, { t with pc :=
      if s.abort || decide (blk.size ≤ t.idx) then .finished none else .finalityLoad t.idx })
  | .finalityLoad previous =>
    some (s, { t with pc :=
      if t.idx < s.ctx.finality then .take previous
      else if previous < t.idx then .head else .waitAborted false })
  | .take previous =>
    let s' := s.setResult t.idx none
    let refuse (message : String) :=
      some (s', { t with pc := .aborting (.parallelError t.idx message) none .reason })
    match s.txResults t.idx with
    | none => refuse "finalized transaction has no execution result"
    | some txResult =>
      match txResult.executeResult with
      | .error _ => refuse "failed transaction reached commit"
      | .ok result =>
        if blk.disableNonceCheck then
          (startReward blk t previous result).map fun t => (s', t)
        else some (s', { t with pc := .nonce previous result (B.basicStart (blk.caller t.idx)) })
  | .nonce previous result pc =>
    match B.basicStep s.backing pc with
    | (backing, .inl pc) => some ({ s with backing }, { t with pc := .nonce previous result pc })
    | (backing, .inr (.error e)) =>
      let error := { txid := t.idx, error := .database e }
      some ({ s with backing }, { t with pc := .aborting (.commitError error) (some error) .reason })
    | (backing, .inr (.ok info)) =>
      if nonceMatches (blk.nonce t.idx) info then
        (startReward blk t previous result).map fun t => ({ s with backing }, t)
      else some ({ s with backing }, { t with pc := .aborting .fallbackSequential none .reason })
  | .reward previous result amount pc =>
    match B.basicStep s.backing pc with
    | (backing, .inl pc) =>
      some ({ s with backing }, { t with pc := .reward previous result amount pc })
    | (backing, .inr (.error e)) =>
      let error := { txid := t.idx, error := .database e }
      some ({ s with backing }, { t with pc := .aborting (.commitError error) (some error) .reason })
    | (backing, .inr (.ok info)) =>
      some ({ s with backing },
        startApply t previous result.result
          (withReward blk.beneficiary amount info result.state))
  | .applying previous result pc =>
    match B.commitStep s.backing pc c with
    | some (backing, some pc) =>
      some ({ s with backing }, { t with pc := .applying previous result pc })
    | some (backing, none) =>
      some ({ s with backing },
        { t with pc := .publish previous, output := t.output ++ [.executed result] })
    | none => none
  | .publish previous =>
    some ({ s with ctx := { s.ctx with committed := t.output.length } },
      { t with pc := .release previous })
  | .release previous =>
    match s.txDependency.commit blk.size t.idx with
    | some txDependency =>
      some ({ s with txDependency },
        { t with pc := .finalityLoad previous, idx := t.output.length })
    | none => none
  | .waitAborted second =>
    some (s, { t with pc := if s.abort then .head else .waitFinality second })
  | .waitFinality second =>
    some (s, { t with pc :=
      if t.idx < s.ctx.finality then .head
      else if second then .park else .waitAborted true })
  | .park =>
    if s.commitWait.token ∨ c ≠ 0 then
      some ({ s with commitWait := { s.commitWait with token := false } }, { t with pc := .head })
    else none
  | .aborting reason error pc =>
    match s.abortStep reason pc with
    | (s, some pc) => some (s, { t with pc := .aborting reason error pc })
    | (s, none) => some (s, { t with pc := .finished error })
  | .finished _ => none

/-! ## The machine -/

/-- The thread that moves. -/
inductive Thread (W : Type) where
  | worker (w : W)
  | finality
  | commit
  deriving DecidableEq

/-- One step of one thread, with the choice it makes. -/
structure Action (W : Type) where
  thread : Thread W
  choice : Nat := 0

def step [DecidableEq W] (blk : Block Err R) (s : SchedulerState W R B) (a : Action W) :
    Option (SchedulerState W R B) :=
  match a.thread with
  | .worker w =>
    (workerStep blk w s.shared (s.workers w) a.choice).map fun (shared, pc) =>
      { s with shared, workers := Function.update s.workers w pc }
  | .finality =>
    (finalityStep blk s.shared s.finality a.choice).map fun (shared, finality) =>
      { s with shared, finality }
  | .commit =>
    (commitLoopStep blk s.shared s.commit a.choice).map fun (shared, commit) =>
      { s with shared, commit }

/-- The threads start over a backing state in which the beneficiary has
been loaded. -/
def initial (backing : B.State) : SchedulerState W R B :=
  { shared := { backing } }

/-- `n` steps of one thread. -/
def stepsOf (thread : Thread W) (n : Nat) : List (Action W) := List.replicate n { thread }

/-- A block of transactions that read and write nothing. -/
def Block.untouched (size : Nat) : Block Unit Unit :=
  { size, beneficiary := 0, anchor := none, spec := fun _ => .done (.ok ⟨(), ∅, none⟩),
    immediate := fun _ => .done (.ok ⟨(), ∅, none⟩), caller := fun _ => 1, nonce := fun _ => 0,
    disableNonceCheck := false }

/-- The account a transaction of `Block.paying` writes. -/
def Account.raised (view : Option AccountView) : Account :=
  let nonce := (view.map AccountView.nonce).getD 0 + 1
  (Account.ofInfo { AccountInfo.empty with nonce }).markTouch

/-- A block of transactions that all read account `1`, raise its nonce and
pay the beneficiary: each of them depends on the one before. -/
def Block.paying (size : Nat) : Block Unit Unit :=
  let prog : Prog Unit Unit := .read (.basic 1) fun
    | .ok (.account view) =>
      .done (.ok ⟨(), AList.insert 1 (Account.raised view) ∅, some ⟨1, U256.one_ne_zero⟩⟩)
    | .ok (.word _) => .done (.ok ⟨(), ∅, none⟩)
    | .error e => .done (.error (.database e))
  { size, beneficiary := 0, anchor := none, spec := fun _ => prog, immediate := fun _ => prog,
    caller := fun _ => 1, nonce := fun _ => 0, disableNonceCheck := true }

/-- Two workers on two such transactions over an empty database. The one
that took transaction `0` is overtaken by the other, which executes
transaction `1`; transaction `0` is then published and validated, and for
`n` more steps the other worker finds transaction `1` in conflict, retries
it and validates it again. -/
def overtaken (n : Nat) : List (Action Bool) :=
  stepsOf (.worker false) 12 ++ stepsOf (.worker true) 31 ++ stepsOf (.worker false) 39 ++
    stepsOf (.worker true) n

/-- The state after a list of actions of these two workers and of the
coordinators. -/
def Block.runPaying (actions : List (Action Bool)) :
    Option (SchedulerState Bool Unit (Backing.emptyDB Unit)) :=
  Runs.exec (step (Block.paying 2)) (initial ()) actions

/-- The states a run reaches when every step meets `ok`. -/
abbrev ReachableWhen [DecidableEq W] (blk : Block Err R) (backing : B.State)
    (ok : SchedulerState W R B → Action W → Prop) (s : SchedulerState W R B) : Prop :=
  Runs.Reach (step blk) ok (initial backing) s

/-- The states of all runs. -/
abbrev Reachable [DecidableEq W] (blk : Block Err R) (backing : B.State)
    (s : SchedulerState W R B) : Prop :=
  ReachableWhen blk backing Runs.Free s

end Grevm
