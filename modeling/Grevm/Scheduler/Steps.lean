/-
Grevm.Scheduler.Steps — what one step of a worker can do.

`execStep`, `valStep` and `workerStep` are case analyses over program
points. The relations below say once what each of their steps does:
`ExecStep` and `ValStep` have one constructor for each branch of
`execute_task` and `validate`, and `WorkerStep` adds the scheduling loop,
with the steps that neither claim nor change anything collapsed into one.
Every invariant of the machine is proved from these relations.
-/
import Grevm.Scheduler.Machine

namespace Grevm

variable {Err W R : Type} {B : Backing Err}

/-- `abort` touches neither columns nor cursors. -/
theorem Shared.abortStep_eq {s s' : Shared W R B} {reason : AbortReason Err} {pc : AbortPc}
    {next : Option AbortPc} (h : s.abortStep reason pc = (s', next)) :
    ∃ abort abortReason finalityWait commitWait,
      s' = { s with abort, abortReason, finalityWait, commitWait } := by
  cases pc <;> cases h <;> exact ⟨_, _, _, _, rfl⟩

section

variable (blk : Block Err R) (s : Shared W R B) (v : TxVersion)

/-- The steps of `execute_task`. -/
inductive ExecStep : ExecPc R B → Shared W R B → WorkerPc R B → Prop where
  | read {db k pc backing db' pc'}
      (h : callStep blk.anchor v.txid s.mvMemory s.history s.backing db pc
        = (backing, db', .inl pc')) :
      ExecStep (.running db k pc) { s with backing } (.exec v (.running db' k pc'))
  | answer {db k pc backing db' a}
      (h : callStep blk.anchor v.txid s.mvMemory s.history s.backing db pc
        = (backing, db', .inr a)) :
      ExecStep (.running db k pc) { s with backing }
        (.exec v (enterExec blk { s with backing } v.txid db' (k a)))
  | publish {db r p p' l x} {c : Nat}
      (h : p.next blk.beneficiary db.accountSnapshots c = some (some (l, x), p')) :
      ExecStep (.publishing db r p)
        { s with mvMemory := s.mvMemory.insert l v.txid ⟨v.incarnation, x, db.isBlocked⟩ }
        (.exec v (.publishing db r p'))
  | chooseAccount {db r p p'} {c : Nat}
      (h : p.next blk.beneficiary db.accountSnapshots c = some (none, p')) :
      ExecStep (.publishing db r p) s (.exec v (.publishing db r p'))
  | compare {db r p} (h : p.finished = true) :
      ExecStep (.publishing db r p) s
        (.exec v (.removing
          ⟨db, r, p.writeSet, (compareWriteSets (s.txResults v.txid) p.writeSet).1⟩
          (compareWriteSets (s.txResults v.txid) p.writeSet).2))
  | unpublish {e remaining l remaining'} {c : Nat}
      (h : pick? remaining c = some (l, remaining')) :
      ExecStep (.removing e remaining) { s with mvMemory := s.mvMemory.remove l v.txid }
        (.exec v (.removing e remaining'))
  | unpublished {e} : ExecStep (.removing e []) s (.exec v (.recording e))
  | recordEstimate {e entry} (hb : e.db.isBlocked = true)
      (h : (s.history v.txid).record v.incarnation .estimate = some entry) :
      ExecStep (.recording e) (s.setEntry v.txid entry) (.exec v (.blockerLoad e))
  | recordExact {e effect entry} (hb : e.db.isBlocked = false)
      (he : BeneficiaryEffect.fromExecution e.result.deferredReward
        (e.result.state.lookup blk.beneficiary) = some effect)
      (h : (s.history v.txid).record v.incarnation (.exact effect) = some entry) :
      ExecStep (.recording e) (s.setEntry v.txid entry) (.exec v (.releasing e .start))
  | recordStale {e value} (h : (s.history v.txid).record v.incarnation value = none) :
      ExecStep (.recording e) s
        (.exec v (.parallelError "stale beneficiary history publication" .reason))
  | loadBlocker {e} :
      ExecStep (.blockerLoad e) s
        (.exec v (.adding e (latestUnfinalizedBlocker s.ctx.finality e.db.blockingTxs) .start))
  | addLock {e blocker pc pc' txDependency}
      (h : addStep s.txDependency v.txid blocker pc = some (txDependency, some pc')) :
      ExecStep (.adding e blocker pc) { s with txDependency } (.exec v (.adding e blocker pc'))
  | addBlocker {e blocker pc txDependency}
      (h : addStep s.txDependency v.txid blocker pc = some (txDependency, none)) :
      ExecStep (.adding e blocker pc) { s with txDependency } (.exec v (.settling e none))
  | release {e pc txDependency pc'} {c : Nat}
      (h : removeStep s.txDependency v.txid true pc c = some (txDependency, .inl pc')) :
      ExecStep (.releasing e pc) { s with txDependency } (.exec v (.releasing e pc'))
  | released {e pc txDependency next} {c : Nat}
      (h : removeStep s.txDependency v.txid true pc c = some (txDependency, .inr next)) :
      ExecStep (.releasing e pc) { s with txDependency } (.exec v (.settling e next))
  | settle {e next} :
      ExecStep (.settling e next)
        ((s.setResult v.txid (some ⟨e.db.readSet, e.writeSet, .ok e.result⟩)).setStatus v.txid
          (if e.db.isBlocked then .conflict else .executed))
        (.exec v (.frontier
          (match next with
            | some next => .handOff next
            | none => if e.db.isBlocked then .conflict
              else if e.writeNewLocations then .rewind else .revalidate)
          (.publishLoad v.txid)))
  | errMark {db error remaining l remaining'} {c : Nat}
      (h : pick? remaining c = some (l, remaining')) :
      ExecStep (.errMarking db error remaining)
        { s with mvMemory := s.mvMemory.markEstimate l v.txid }
        (.exec v (.errMarking db error remaining'))
  | errMarked {db error} : ExecStep (.errMarking db error []) s (.exec v (.errRecording db error))
  | errRecord {db error entry}
      (h : (s.history v.txid).record v.incarnation .estimate = some entry) :
      ExecStep (.errRecording db error)
        ((s.setEntry v.txid entry).setResult v.txid
          (some ⟨∅, s.lastWriteSet v.txid, .error error⟩))
        (.exec v (if db.isBlocked then .errBlockerLoad db else .errHead error))
  | errStale {db error} (h : (s.history v.txid).record v.incarnation .estimate = none) :
      ExecStep (.errRecording db error) s
        (.exec v (.parallelError "stale beneficiary estimate publication" .reason))
  | errLoadBlocker {db} :
      ExecStep (.errBlockerLoad db) s
        (.exec v (.errAdding (latestUnfinalizedBlocker s.ctx.finality db.blockingTxs) .start))
  | errAddLock {blocker pc pc' txDependency}
      (h : addStep s.txDependency v.txid blocker pc = some (txDependency, some pc')) :
      ExecStep (.errAdding blocker pc) { s with txDependency } (.exec v (.errAdding blocker pc'))
  | errAddBlocker {blocker pc txDependency}
      (h : addStep s.txDependency v.txid blocker pc = some (txDependency, none)) :
      ExecStep (.errAdding blocker pc) { s with txDependency } (.exec v .errSettling)
  | errAtHead {error} (h : s.ctx.committed = v.txid) :
      ExecStep (.errHead error) s (.exec v (.errAbort
        (if error.isTransaction then .fallbackSequential else .fatalEvmError v.txid) .reason))
  | errBehind {error} (h : s.ctx.committed ≠ v.txid) :
      ExecStep (.errHead error) s (.exec v .keying)
  | errAbort {reason pc pc' abort abortReason finalityWait commitWait}
      (h : s.abortStep reason pc =
        ({ s with abort, abortReason, finalityWait, commitWait }, some pc')) :
      ExecStep (.errAbort reason pc) { s with abort, abortReason, finalityWait, commitWait }
        (.exec v (.errAbort reason pc'))
  | errAborted {reason pc abort abortReason finalityWait commitWait}
      (h : s.abortStep reason pc =
        ({ s with abort, abortReason, finalityWait, commitWait }, none)) :
      ExecStep (.errAbort reason pc) { s with abort, abortReason, finalityWait, commitWait }
        (.exec v .keying)
  | key {txDependency}
      (h : s.txDependency.keyTx v.txid s.ctx.committed = some (txDependency, true)) :
      ExecStep .keying { s with txDependency } (.exec v .keyingRewind)
  | keyBehind {txDependency}
      (h : s.txDependency.keyTx v.txid s.ctx.committed = some (txDependency, false)) :
      ExecStep .keying { s with txDependency } (.exec v .errSettling)
  | keyRewind :
      ExecStep .keyingRewind { s with txDependency := s.txDependency.keyTxRewind v.txid }
        (.exec v .errSettling)
  | errSettle :
      ExecStep .errSettling (s.setStatus v.txid .conflict)
        (.exec v (.frontier .conflict (.publishLoad v.txid)))
  | frontier {tail pc ctx pc'} (h : s.ctx.frontierStep blk.size pc = (ctx, .inl pc')) :
      ExecStep (.frontier tail pc) { s with ctx } (.exec v (.frontier tail pc'))
  | frontierFinish {tail pc ctx n} (h : s.ctx.frontierStep blk.size pc = (ctx, .inr n))
      (ht : tail = .revalidate ∨ blk.size ≤ tail.target v.txid) :
      ExecStep (.frontier tail pc) (finishExec { s with ctx } v tail).1
        (finishExec { s with ctx } v tail).2
  | frontierRewind {tail pc ctx n} (h : s.ctx.frontierStep blk.size pc = (ctx, .inr n))
      (ht : tail ≠ .revalidate) (hlt : tail.target v.txid < blk.size) :
      ExecStep (.frontier tail pc) { s with ctx } (.exec v (.rewinding tail .clock))
  | rewind {tail pc ctx pc'} (h : rewindStep s.ctx (tail.target v.txid) pc = (ctx, some pc')) :
      ExecStep (.rewinding tail pc) { s with ctx } (.exec v (.rewinding tail pc'))
  | rewindFinish {tail pc ctx} (h : rewindStep s.ctx (tail.target v.txid) pc = (ctx, none)) :
      ExecStep (.rewinding tail pc) (finishExec { s with ctx } v tail).1
        (finishExec { s with ctx } v tail).2
  | parallelError {message pc pc' abort abortReason finalityWait commitWait}
      (h : s.abortStep (.parallelError v.txid message) pc =
        ({ s with abort, abortReason, finalityWait, commitWait }, some pc')) :
      ExecStep (.parallelError message pc) { s with abort, abortReason, finalityWait, commitWait }
        (.exec v (.parallelError message pc'))
  | parallelErrorEnd {message pc abort abortReason finalityWait commitWait}
      (h : s.abortStep (.parallelError v.txid message) pc =
        ({ s with abort, abortReason, finalityWait, commitWait }, none)) :
      ExecStep (.parallelError message pc)
        ({ s with abort, abortReason, finalityWait, commitWait }.setLock v.txid none) .afterTask

/-- The steps of `validate`. -/
inductive ValStep : ValPc → Shared W R B → WorkerPc R B → Prop where
  | scanned {ts conflict dependency} :
      ValStep (.scanning ts [] conflict dependency) s
        (.val v (if conflict then .marking dependency (s.lastWriteSet v.txid)
          else .unconfirming ts dependency))
  | scanHistory {ts remaining conflict dependency l expected remaining'} {c : Nat}
      (h : pick? remaining c = some ((l, .beneficiary expected), remaining')) :
      ValStep (.scanning ts remaining conflict dependency) s
        (.val v (.scanningHistory ts remaining' conflict dependency expected
          { writer := v.txid }))
  | scan {ts remaining conflict dependency l version remaining'} {c : Nat}
      (h : pick? remaining c = some ((l, version), remaining'))
      (hv : ∀ expected, version ≠ .beneficiary expected) :
      ValStep (.scanning ts remaining conflict dependency) s
        (.val v (.scanning ts remaining'
          (conflict || (checkRead s.mvMemory v.txid l version).1)
          (laterDependency dependency (checkRead s.mvMemory v.txid l version).2)))
  | walk {ts remaining conflict dependency expected scan scan'}
      (h : scan.step blk.anchor s.history = .more scan') :
      ValStep (.scanningHistory ts remaining conflict dependency expected scan) s
        (.val v (.scanningHistory ts remaining conflict dependency expected scan'))
  | walked {ts remaining conflict dependency expected scan found}
      (h : scan.step blk.anchor s.history = .done found) :
      ValStep (.scanningHistory ts remaining conflict dependency expected scan) s
        (.val v (.scanning ts remaining (conflict || !(found.validate expected).valid)
          (laterDependency dependency (found.validate expected).dependency)))
  | walkBlocked {ts remaining conflict dependency expected scan writer}
      (h : scan.step blk.anchor s.history = .blocked writer) :
      ValStep (.scanningHistory ts remaining conflict dependency expected scan) s
        (.val v (.scanning ts remaining true (laterDependency dependency (some writer))))
  | mark {dependency remaining l remaining'} {c : Nat}
      (h : pick? remaining c = some (l, remaining')) :
      ValStep (.marking dependency remaining)
        { s with mvMemory := s.mvMemory.markEstimate l v.txid }
        (.val v (.marking dependency remaining'))
  | marked {dependency} : ValStep (.marking dependency []) s (.val v (.invalidating dependency))
  | invalidateLast {dependency entry}
      (h : (s.history v.txid).invalidate v.incarnation = some entry)
      (hn : blk.size ≤ v.txid + 1) :
      ValStep (.invalidating dependency)
        ((s.setEntry v.txid entry).setState v.txid
          { s.txStates v.txid with status := .conflict, dependency })
        (.val v (.blockerLoad dependency))
  | invalidate {dependency entry}
      (h : (s.history v.txid).invalidate v.incarnation = some entry)
      (hn : v.txid + 1 < blk.size) :
      ValStep (.invalidating dependency) (s.setEntry v.txid entry)
        (.val v (.rewinding dependency .clock))
  | invalidateStale {dependency} (h : (s.history v.txid).invalidate v.incarnation = none) :
      ValStep (.invalidating dependency) s
        (.val v (.parallelError "stale beneficiary history validation" .reason))
  | rewind {dependency pc ctx pc'} (h : rewindStep s.ctx (v.txid + 1) pc = (ctx, some pc')) :
      ValStep (.rewinding dependency pc) { s with ctx } (.val v (.rewinding dependency pc'))
  | rewound {dependency pc ctx} (h : rewindStep s.ctx (v.txid + 1) pc = (ctx, none)) :
      ValStep (.rewinding dependency pc)
        ({ s with ctx }.setState v.txid
          { s.txStates v.txid with status := .conflict, dependency })
        (.val v (.blockerLoad dependency))
  | loadBlocker {dependency} :
      ValStep (.blockerLoad dependency) s
        (.val v (.adding (dependency.filter fun dep => s.ctx.finality ≤ dep) .start))
  | addLock {blocker pc pc' txDependency}
      (h : addStep s.txDependency v.txid blocker pc = some (txDependency, some pc')) :
      ValStep (.adding blocker pc) { s with txDependency } (.val v (.adding blocker pc'))
  | addBlocker {blocker pc txDependency}
      (h : addStep s.txDependency v.txid blocker pc = some (txDependency, none)) :
      ValStep (.adding blocker pc) ({ s with txDependency }.setLock v.txid none)
        (.wakeLoad v.txid)
  | unconfirm {ts dependency} :
      ValStep (.unconfirming ts dependency)
        (({ s with ctx := s.ctx.raiseUnconfirmed v.txid ts }.setState v.txid
          { s.txStates v.txid with status := .unconfirmed, dependency }).setLock v.txid none)
        (.wakeLoad v.txid)
  | parallelError {message pc pc' abort abortReason finalityWait commitWait}
      (h : s.abortStep (.parallelError v.txid message) pc =
        ({ s with abort, abortReason, finalityWait, commitWait }, some pc')) :
      ValStep (.parallelError message pc) { s with abort, abortReason, finalityWait, commitWait }
        (.val v (.parallelError message pc'))
  | parallelErrorEnd {message pc abort abortReason finalityWait commitWait}
      (h : s.abortStep (.parallelError v.txid message) pc =
        ({ s with abort, abortReason, finalityWait, commitWait }, none)) :
      ValStep (.parallelError message pc)
        ({ s with abort, abortReason, finalityWait, commitWait }.setLock v.txid none) .afterTask

end

/-! ## The step functions take only these steps -/

variable {blk : Block Err R} {s s' : Shared W R B} {v : TxVersion} {p' : WorkerPc R B} {c : Nat}

theorem execStep_sound {pc : ExecPc R B} (h : execStep blk s v pc c = some (s', p')) :
    ExecStep blk s v pc s' p' := by
  cases pc with
  | running db k pc =>
    simp only [execStep] at h
    split at h <;> cases h
    · exact .read (by simp_all [Prod.ext_iff])
    · exact .answer (by simp_all [Prod.ext_iff])
  | publishing db r p =>
    simp only [execStep] at h
    split at h
    · cases h
      exact .compare ‹_›
    · split at h
      · cases h
        exact .publish ‹_›
      · cases h
        exact .chooseAccount ‹_›
      · cases h
  | removing e remaining =>
    cases remaining with
    | nil =>
      cases h
      exact .unpublished
    | cons l remaining =>
      simp only [execStep] at h
      split at h <;> cases h
      exact .unpublish ‹_›
  | recording e =>
    simp only [execStep] at h
    split at h
    · split at h <;> cases h
      · exact .recordEstimate ‹_› ‹_›
      · exact .recordStale ‹_›
    · split at h
      · cases h
      · split at h <;> cases h
        · exact .recordExact (by simp_all) ‹_› ‹_›
        · exact .recordStale ‹_›
  | blockerLoad e =>
    cases h
    exact .loadBlocker
  | adding e blocker pc =>
    simp only [execStep] at h
    split at h <;> cases h
    · exact .addLock ‹_›
    · exact .addBlocker ‹_›
  | releasing e pc =>
    simp only [execStep] at h
    split at h <;> cases h
    · exact .release ‹_›
    · exact .released ‹_›
  | settling e next =>
    cases h
    exact .settle
  | errMarking db error remaining =>
    cases remaining with
    | nil =>
      cases h
      exact .errMarked
    | cons l remaining =>
      simp only [execStep] at h
      split at h <;> cases h
      exact .errMark ‹_›
  | errRecording db error =>
    simp only [execStep] at h
    split at h <;> cases h
    · exact .errRecord ‹_›
    · exact .errStale ‹_›
  | errBlockerLoad db =>
    cases h
    exact .errLoadBlocker
  | errAdding blocker pc =>
    simp only [execStep] at h
    split at h <;> cases h
    · exact .errAddLock ‹_›
    · exact .errAddBlocker ‹_›
  | errHead error =>
    simp only [execStep] at h
    split at h <;> cases h
    · exact .errAtHead ‹_›
    · exact .errBehind ‹_›
  | errAbort reason pc =>
    simp only [execStep] at h
    split at h <;> cases h
    · obtain ⟨_, _, _, _, rfl⟩ := Shared.abortStep_eq ‹_›
      exact .errAbort ‹_›
    · obtain ⟨_, _, _, _, rfl⟩ := Shared.abortStep_eq ‹_›
      exact .errAborted ‹_›
  | keying =>
    simp only [execStep] at h
    split at h <;> cases h
    · exact .key ‹_›
    · exact .keyBehind ‹_›
  | keyingRewind =>
    cases h
    exact .keyRewind
  | errSettling =>
    cases h
    exact .errSettle
  | frontier tail pc =>
    simp only [execStep] at h
    split at h
    · cases h
      exact .frontier ‹_›
    · split at h
      · obtain ⟨rfl, rfl⟩ : _ ∧ _ := Prod.ext_iff.mp (Option.some.inj h)
        exact .frontierFinish ‹_› ‹_›
      · cases h
        rename_i hn
        rw [not_or, Nat.not_le] at hn
        exact .frontierRewind ‹_› hn.1 hn.2
  | rewinding tail pc =>
    simp only [execStep] at h
    split at h
    · cases h
      exact .rewind ‹_›
    · obtain ⟨rfl, rfl⟩ : _ ∧ _ := Prod.ext_iff.mp (Option.some.inj h)
      exact .rewindFinish ‹_›
  | parallelError message pc =>
    simp only [execStep] at h
    split at h <;> cases h
    · obtain ⟨_, _, _, _, rfl⟩ := Shared.abortStep_eq ‹_›
      exact .parallelError ‹_›
    · obtain ⟨_, _, _, _, rfl⟩ := Shared.abortStep_eq ‹_›
      exact .parallelErrorEnd ‹_›

theorem valStep_sound {pc : ValPc} (h : valStep blk s v pc c = some (s', p')) :
    ValStep blk s v pc s' p' := by
  cases pc with
  | scanning ts remaining conflict dependency =>
    cases remaining with
    | nil =>
      have hs : ValStep blk s v (.scanning ts [] conflict dependency) s _ := .scanned
      cases conflict <;> cases h <;> exact hs
    | cons l remaining =>
      simp only [valStep] at h
      split at h
      · cases h
        exact .scanHistory ‹_›
      · rename_i hne heq
        cases h
        exact .scan heq hne
      · cases h
  | scanningHistory ts remaining conflict dependency expected scan =>
    simp only [valStep] at h
    split at h <;> cases h
    · exact .walk ‹_›
    · exact .walked ‹_›
    · exact .walkBlocked ‹_›
  | marking dependency remaining =>
    cases remaining with
    | nil =>
      cases h
      exact .marked
    | cons l remaining =>
      simp only [valStep] at h
      split at h <;> cases h
      exact .mark ‹_›
  | invalidating dependency =>
    simp only [valStep] at h
    split at h
    · split at h <;> cases h
      · exact .invalidateLast ‹_› ‹_›
      · exact .invalidate ‹_› (by omega)
    · cases h
      exact .invalidateStale ‹_›
  | rewinding dependency pc =>
    simp only [valStep] at h
    split at h <;> cases h
    · exact .rewind ‹_›
    · exact .rewound ‹_›
  | blockerLoad dependency =>
    cases h
    exact .loadBlocker
  | adding blocker pc =>
    simp only [valStep] at h
    split at h <;> cases h
    · exact .addLock ‹_›
    · exact .addBlocker ‹_›
  | unconfirming ts dependency =>
    cases h
    exact .unconfirm
  | parallelError message pc =>
    simp only [valStep] at h
    split at h <;> cases h
    · obtain ⟨_, _, _, _, rfl⟩ := Shared.abortStep_eq ‹_›
      exact .parallelError ‹_›
    · obtain ⟨_, _, _, _, rfl⟩ := Shared.abortStep_eq ‹_›
      exact .parallelErrorEnd ‹_›

/-! ## The scheduling loop -/

/-- A worker that holds neither a claimed index nor a task. -/
def WorkerPc.isIdle : WorkerPc R B → Bool
  | .claimLock _ | .dependencyLock _ | .executionTask _ _ | .useless _ _ _ | .task _
  | .exec _ _ | .val _ _ => false
  | _ => true

/-- The access to the execution frontier a scheduling worker is at. -/
def WorkerPc.frontierPc : WorkerPc R B → Option FrontierPc
  | .scheduleFrontier pc | .claimFrontier _ pc => some pc
  | _ => none

/-- The steps of a worker. -/
inductive WorkerStep (blk : Block Err R) (w : W) (s : Shared W R B) :
    WorkerPc R B → Shared W R B → WorkerPc R B → Prop where
  | idle {p p' : WorkerPc R B} (hp : p.isIdle = true) (hp' : p'.isIdle = true)
      (hload : ∀ pc, p'.frontierPc = some pc → pc = .currentLoad) : WorkerStep blk w s p s p'
  | wake :
      WorkerStep blk w s .wake { s with finalityWait := s.finalityWait.notify } .afterTask
  | frontier {p p' : WorkerPc R B} {pc ctx next} (h : s.ctx.frontierStep blk.size pc = (ctx, next))
      (hp : p.isIdle = true) (hp' : p'.isIdle = true) (hpc : p.frontierPc = some pc)
      (hnext : ∀ pc', p'.frontierPc = some pc' → next = .inl pc') :
      WorkerStep blk w s p { s with ctx } p'
  | claim {limit} :
      WorkerStep blk w s (.claimCas limit s.ctx.validation)
        { s with ctx := { s.ctx with validation := s.ctx.validation + 1 } }
        (.claimLock s.ctx.validation)
  | claimed {t} (hl : s.txLocks t = none)
      (hs : (s.txStates t).status = .executed ∨ (s.txStates t).status = .unconfirmed) :
      WorkerStep blk w s (.claimLock t) (s.setStatus t .validating)
        (.task (.validation ⟨t, (s.txStates t).incarnation⟩))
  | claimMissed {t} (hl : s.txLocks t = none)
      (hs : (s.txStates t).status ≠ .executed ∧ (s.txStates t).status ≠ .unconfirmed) :
      WorkerStep blk w s (.claimLock t) s .dependencyLoad
  | fetchIndex (h : s.txDependency.index < blk.size) :
      WorkerStep blk w s .dependencyFetch
        { s with txDependency := { s.txDependency with index := s.txDependency.index + 1 } }
        (.dependencyLock s.txDependency.index)
  | fetchPast (h : blk.size ≤ s.txDependency.index) :
      WorkerStep blk w s .dependencyFetch
        { s with txDependency := { s.txDependency with index := s.txDependency.index + 1 } }
        .nextFinished
  | claimDependent {t txDependency} (h : s.txDependency.claim t = some (txDependency, true)) :
      WorkerStep blk w s (.dependencyLock t) { s with txDependency } (.executionTask t true)
  | dependentMissed {t txDependency} (h : s.txDependency.claim t = some (txDependency, false)) :
      WorkerStep blk w s (.dependencyLock t) { s with txDependency } .nextFinished
  | startTask {t fromNext} (hl : s.txLocks t = none)
      (hs : (s.txStates t).status = .initial ∨ (s.txStates t).status = .conflict) :
      WorkerStep blk w s (.executionTask t fromNext)
        (s.setState t { s.txStates t with
          status := .executing, incarnation := (s.txStates t).incarnation + 1 })
        (.task (.execution ⟨t, (s.txStates t).incarnation + 1⟩))
  | busy {t fromNext} (hl : s.txLocks t = none) (hs : (s.txStates t).status = .executing) :
      WorkerStep blk w s (.executionTask t fromNext) s (noTask fromNext)
  | useless {t fromNext} (hl : s.txLocks t = none)
      (hs : (s.txStates t).status ≠ .initial ∧ (s.txStates t).status ≠ .conflict ∧
        (s.txStates t).status ≠ .executing) :
      WorkerStep blk w s (.executionTask t fromNext) s (.useless t fromNext .start)
  | uselessRemove {t fromNext pc txDependency pc'} {c : Nat}
      (h : removeStep s.txDependency t false pc c = some (txDependency, .inl pc')) :
      WorkerStep blk w s (.useless t fromNext pc) { s with txDependency }
        (.useless t fromNext pc')
  | uselessRemoved {t fromNext pc txDependency next} {c : Nat}
      (h : removeStep s.txDependency t false pc c = some (txDependency, .inr next)) :
      WorkerStep blk w s (.useless t fromNext pc) { s with txDependency } (noTask fromNext)
  | execute {v : TxVersion} (hl : s.txLocks v.txid = none) (hs : (s.txStates v.txid).status = .executing)
      (hi : (s.txStates v.txid).incarnation = v.incarnation) :
      WorkerStep blk w s (.task (.execution v)) (s.setLock v.txid (some (.worker w)))
        (.exec v (enterExec blk (s.setLock v.txid (some (.worker w))) v.txid {}
          (blk.spec v.txid)))
  | executeGone {v : TxVersion} (hl : s.txLocks v.txid = none)
      (hs : (s.txStates v.txid).status ≠ .executing) :
      WorkerStep blk w s (.task (.execution v)) s .afterTask
  | executeInconsistent {v : TxVersion} (hl : s.txLocks v.txid = none)
      (hs : (s.txStates v.txid).status = .executing)
      (hi : (s.txStates v.txid).incarnation ≠ v.incarnation) :
      WorkerStep blk w s (.task (.execution v)) (s.setLock v.txid (some (.worker w)))
        (.exec v (.parallelError "inconsistent incarnation during execution" .reason))
  | validate {v : TxVersion} {result x} (hl : s.txLocks v.txid = none)
      (hs : (s.txStates v.txid).status = .validating)
      (hi : (s.txStates v.txid).incarnation = v.incarnation)
      (hr : s.txResults v.txid = some result) (hx : result.executeResult = .ok x) :
      WorkerStep blk w s (.task (.validation v))
        { s.setLock v.txid (some (.worker w)) with ctx := s.ctx.tick }
        (.val v (.scanning s.ctx.logicalClock
          (result.readSet.entries.map fun e => (e.1, e.2)) false none))
  | validateGone {v : TxVersion} (hl : s.txLocks v.txid = none)
      (hs : (s.txStates v.txid).status ≠ .validating) :
      WorkerStep blk w s (.task (.validation v)) s .afterTask
  | validateInconsistent {v : TxVersion} {message} (hl : s.txLocks v.txid = none)
      (hs : (s.txStates v.txid).status = .validating)
      (hbad : (s.txStates v.txid).incarnation = v.incarnation →
        ∀ result, s.txResults v.txid = some result → ∃ e, result.executeResult = .error e) :
      WorkerStep blk w s (.task (.validation v)) (s.setLock v.txid (some (.worker w)))
        (.val v (.parallelError message .reason))
  | exec {v : TxVersion} {pc} {s' : Shared W R B} {p' : WorkerPc R B}
      (h : ExecStep blk s v pc s' p') : WorkerStep blk w s (.exec v pc) s' p'
  | val {v : TxVersion} {pc} {s' : Shared W R B} {p' : WorkerPc R B}
      (h : ValStep blk s v pc s' p') : WorkerStep blk w s (.val v pc) s' p'

theorem startExecution_sound {w : W} (h : startExecution blk w s v = some (s', p')) :
    WorkerStep blk w s (.task (.execution v)) s' p' := by
  simp only [startExecution] at h
  split at h
  · cases h
  · rename_i hl
    have hl : s.txLocks v.txid = none := by simpa using hl
    split at h
    · cases h
      exact .executeGone hl ‹_›
    · rename_i hs
      have hs : (s.txStates v.txid).status = .executing := by simpa using hs
      split at h <;> cases h
      · exact .executeInconsistent hl hs ‹_›
      · rename_i hi
        exact .execute hl hs (by simpa using hi)

theorem startValidation_sound {w : W} (h : startValidation w s v = some (s', p')) :
    WorkerStep blk w s (.task (.validation v)) s' p' := by
  simp only [startValidation] at h
  split at h
  · cases h
  · rename_i hl
    have hl : s.txLocks v.txid = none := by simpa using hl
    split at h
    · cases h
      exact .validateGone hl ‹_›
    · rename_i hs
      have hs : (s.txStates v.txid).status = .validating := by simpa using hs
      split at h
      · cases h
        rename_i hi
        exact .validateInconsistent hl hs fun hi' => absurd hi' hi
      · rename_i hi
        have hi : (s.txStates v.txid).incarnation = v.incarnation := by simpa using hi
        split at h
        · cases h
          rename_i hr
          have hr : s.txResults v.txid = none := hr
          exact .validateInconsistent hl hs fun _ r hr' => by simp [hr] at hr'
        · rename_i result hr
          have hr : s.txResults v.txid = some result := hr
          split at h <;> cases h
          · rename_i e he
            refine .validateInconsistent hl hs fun _ r hr' => ?_
            rw [hr] at hr'
            cases hr'
            exact ⟨e, he⟩
          · exact .validate hl hs hi hr ‹_›

theorem workerStep_sound {w : W} {p : WorkerPc R B}
    (h : workerStep blk w s p c = some (s', p')) : WorkerStep blk w s p s' p' := by
  cases p with
  | nextFinished | nextAborted | scheduleValidation executingIdx | claimLoad limit
  | dependencyLoad | wakeLoad t | afterTask =>
    simp only [workerStep] at h
    split at h <;> cases h <;> exact .idle rfl rfl (by simp [WorkerPc.frontierPc])
  | scheduleIndex | claimIndex =>
    cases h
    exact .idle rfl rfl (by simp [WorkerPc.frontierPc])
  | scheduleFrontier pc | claimFrontier executingIdx pc =>
    simp only [workerStep] at h
    split at h <;> cases h <;> exact .frontier ‹_› rfl rfl rfl (by simp [WorkerPc.frontierPc])
  | claimCas limit current =>
    simp only [workerStep] at h
    split at h <;> cases h
    · rename_i hc
      obtain ⟨rfl, -⟩ := hc
      exact .claim
    · exact .idle rfl rfl (by simp [WorkerPc.frontierPc])
  | claimLock t =>
    simp only [workerStep] at h
    split at h
    · cases h
    · rename_i hl
      have hl : s.txLocks t = none := by simpa using hl
      split at h <;> cases h
      · exact .claimed hl ‹_›
      · rename_i hs
        exact .claimMissed hl (not_or.mp hs)
  | dependencyFetch =>
    simp only [workerStep] at h
    split at h <;> cases h
    · exact .fetchPast ‹_›
    · exact .fetchIndex (by omega)
  | dependencyLock t =>
    simp only [workerStep] at h
    split at h
    · rename_i claimed heq
      cases claimed <;> cases h
      · exact .dependentMissed heq
      · exact .claimDependent heq
    · cases h
  | executionTask t fromNext =>
    simp only [workerStep] at h
    split at h
    · cases h
    · rename_i hl
      have hl : s.txLocks t = none := by simpa using hl
      split at h <;> cases h
      · exact .startTask hl (.inl ‹_›)
      · exact .startTask hl (.inr ‹_›)
      · exact .busy hl ‹_›
      · exact .useless hl ⟨‹_›, ‹_›, ‹_›⟩
  | useless t fromNext pc =>
    simp only [workerStep] at h
    split at h <;> cases h
    · exact .uselessRemove ‹_›
    · exact .uselessRemoved ‹_›
  | task task =>
    cases task with
    | execution v => exact startExecution_sound h
    | validation v => exact startValidation_sound h
  | exec v pc => exact .exec (execStep_sound h)
  | val v pc => exact .val (valStep_sound h)
  | wake =>
    cases h
    exact .wake
  | finished => cases h

/-! ## The finality thread -/

/-- The finality thread holds no lock and has nothing to publish. -/
def FinalityPc.isQuiet : FinalityPc → Bool
  | .candidateLower _ | .candidateDecide _ _ | .publish _ => false
  | _ => true

/-- The steps of `run_finality_loop`. -/
inductive FinalityStep (blk : Block Err R) (s : Shared W R B) (t : FinalityThread) :
    Shared W R B → FinalityThread → Prop where
  | move {finalityWait commitWait pc'} (hpc : t.pc.isQuiet = true) (hpc' : pc'.isQuiet = true)
      (hlt : ∀ use, pc' = .candidateLock use → t.idx < blk.size) :
      FinalityStep blk s t { s with finalityWait, commitWait } { t with pc := pc' }
  | lock {use} (hpc : t.pc = .candidateLock use) (hl : s.txLocks t.idx = none)
      (hs : (s.txStates t.idx).status = .unconfirmed) :
      FinalityStep blk s t (s.setLock t.idx (some .finality)) { t with pc := .candidateLower use }
  | lower {use} (hpc : t.pc = .candidateLower use) :
      FinalityStep blk s t s
        { t with pc := .candidateDecide use (max t.lowerTs (s.ctx.lowerTimestamps t.idx)) }
  | finalize {previous effectiveLowerTs}
      (hpc : t.pc = .candidateDecide (.advance previous) effectiveLowerTs)
      (h : effectiveLowerTs < s.ctx.unconfirmedTimestamps t.idx) :
      FinalityStep blk s t ((s.setStatus t.idx .finality).setLock t.idx none)
        { pc := .publish previous, idx := t.idx + 1, lowerTs := effectiveLowerTs }
  | unlock {use effectiveLowerTs pc'} (hpc : t.pc = .candidateDecide use effectiveLowerTs)
      (hpc' : pc'.isQuiet = true) (hno : ∀ use, pc' ≠ .candidateLock use) :
      FinalityStep blk s t (s.setLock t.idx none) { t with pc := pc' }
  | publish {previous pc'} (hpc : t.pc = .publish previous) (hpc' : pc'.isQuiet = true)
      (hno : ∀ use, pc' ≠ .candidateLock use) :
      FinalityStep blk s t { s with ctx := { s.ctx with finality := t.idx } } { t with pc := pc' }

theorem noCandidate_eq (t : FinalityThread) (use : CandidateUse) :
    ∃ pc', noCandidate t use = { t with pc := pc' } ∧ pc'.isQuiet = true ∧
      ∀ use', pc' ≠ .candidateLock use' := by
  cases use with
  | advance previous =>
    simp only [noCandidate]
    split <;> exact ⟨_, rfl, rfl, nofun⟩
  | waitFirst | waitSecond => exact ⟨_, rfl, rfl, nofun⟩

theorem finalityStep_sound {t t' : FinalityThread}
    (h : finalityStep blk s t c = some (s', t')) : FinalityStep blk s t s' t' := by
  have stay : ∀ use, t.pc.isQuiet = true → FinalityStep blk s t s (noCandidate t use) := by
    intro use hq
    obtain ⟨pc', heq, hpc', hno⟩ := noCandidate_eq t use
    rw [heq]
    exact .move hq hpc' fun use' hu => absurd hu (hno use')
  unfold finalityStep at h
  split at h
  case h_1 hpc | h_8 previous hpc | h_9 previous hpc =>
    cases h
    exact .move (by rw [hpc]; rfl) rfl nofun
  case h_2 hpc | h_10 hpc | h_11 hpc =>
    cases h
    refine .move (by rw [hpc]; rfl) ?_ ?_ <;> split <;> first | rfl | exact nofun
  case h_3 use hpc =>
    have hq : t.pc.isQuiet = true := by rw [hpc]; rfl
    split at h <;> cases h
    · exact stay use hq
    · exact .move hq rfl fun _ _ => by omega
  case h_4 use hpc =>
    have hq : t.pc.isQuiet = true := by rw [hpc]; rfl
    split at h
    · cases h
    · rename_i hl
      split at h <;> cases h
      · exact stay use hq
      · rename_i hs
        exact .lock hpc (by simpa using hl) (by simpa using hs)
  case h_5 use hpc =>
    cases h
    exact .lower hpc
  case h_6 use eff hpc =>
    split at h
    · split at h <;> cases h
      · exact .finalize hpc ‹_›
      · exact .unlock hpc rfl nofun
    · cases h
      obtain ⟨pc', heq, hpc', hno⟩ := noCandidate_eq t use
      rw [heq]
      exact .unlock hpc hpc' hno
  case h_7 previous hpc =>
    cases h
    refine .publish hpc ?_ ?_ <;> split <;> first | rfl | exact nofun
  case h_12 hpc =>
    split at h <;> cases h
    exact .move (by rw [hpc]; rfl) rfl nofun
  case h_13 hpc => cases h

/-! ## The commit thread -/

/-- The commit thread is outside its inner loop. -/
def CommitLoopPc.isWaiting : CommitLoopPc R B → Bool
  | .register | .head | .waitAborted _ | .waitFinality _ | .park => true
  | _ => false

/-- The steps of `run_commit_loop`. -/
inductive CommitStep (blk : Block Err R) (s : Shared W R B) (t : CommitThread R B) :
    Shared W R B → CommitThread R B → Prop where
  | wait {commitWait pc'} (hpc : t.pc.isWaiting = true) (hpc' : pc'.isWaiting = true) :
      CommitStep blk s t { s with commitWait } { t with pc := pc' }
  | leave (hpc : t.pc = .head) (h : s.abort = true ∨ blk.size ≤ t.idx) :
      CommitStep blk s t s { t with pc := .finished none }
  | enter (hpc : t.pc = .head) (h : t.idx < blk.size) :
      CommitStep blk s t s { t with pc := .finalityLoad t.idx }
  | drained {previous pc'} (hpc : t.pc = .finalityLoad previous) (h : s.ctx.finality ≤ t.idx)
      (hpc' : pc'.isWaiting = true) : CommitStep blk s t s { t with pc := pc' }
  | ready {previous} (hpc : t.pc = .finalityLoad previous) (h : t.idx < s.ctx.finality) :
      CommitStep blk s t s { t with pc := .take previous }
  | takeFailed {previous message} (hpc : t.pc = .take previous)
      (h : ∀ r, s.txResults t.idx = some r → ∃ e, r.executeResult = .error e) :
      CommitStep blk s t (s.setResult t.idx none)
        { t with pc := .aborting (.parallelError t.idx message) none .reason }
  | takeNonce {previous r x} (hpc : t.pc = .take previous) (hr : s.txResults t.idx = some r)
      (hx : r.executeResult = .ok x) (hn : blk.disableNonceCheck = false) :
      CommitStep blk s t (s.setResult t.idx none)
        { t with pc := .nonce previous x (B.basicStart (blk.caller t.idx)) }
  | take {previous r x t'} (hpc : t.pc = .take previous) (hr : s.txResults t.idx = some r)
      (hx : r.executeResult = .ok x) (hn : blk.disableNonceCheck = true)
      (ht : startReward blk t previous x = some t') :
      CommitStep blk s t (s.setResult t.idx none) t'
  | nonce {previous x pc backing pc'} (hpc : t.pc = .nonce previous x pc)
      (h : B.basicStep s.backing pc = (backing, .inl pc')) :
      CommitStep blk s t { s with backing } { t with pc := .nonce previous x pc' }
  | nonceError {previous x pc backing e} (hpc : t.pc = .nonce previous x pc)
      (h : B.basicStep s.backing pc = (backing, .inr (.error e))) :
      CommitStep blk s t { s with backing }
        { t with pc := .aborting (.commitError ⟨t.idx, .database e⟩)
                  (some ⟨t.idx, .database e⟩) .reason }
  | nonceMatch {previous x pc backing info t'} (hpc : t.pc = .nonce previous x pc)
      (h : B.basicStep s.backing pc = (backing, .inr (.ok info)))
      (hn : nonceMatches (blk.nonce t.idx) info = true)
      (ht : startReward blk t previous x = some t') :
      CommitStep blk s t { s with backing } t'
  | nonceMismatch {previous x pc backing info} (hpc : t.pc = .nonce previous x pc)
      (h : B.basicStep s.backing pc = (backing, .inr (.ok info)))
      (hn : nonceMatches (blk.nonce t.idx) info = false) :
      CommitStep blk s t { s with backing }
        { t with pc := .aborting .fallbackSequential none .reason }
  | reward {previous x amount pc backing pc'} (hpc : t.pc = .reward previous x amount pc)
      (h : B.basicStep s.backing pc = (backing, .inl pc')) :
      CommitStep blk s t { s with backing } { t with pc := .reward previous x amount pc' }
  | rewardError {previous x amount pc backing e} (hpc : t.pc = .reward previous x amount pc)
      (h : B.basicStep s.backing pc = (backing, .inr (.error e))) :
      CommitStep blk s t { s with backing }
        { t with pc := .aborting (.commitError ⟨t.idx, .database e⟩)
                  (some ⟨t.idx, .database e⟩) .reason }
  | rewarded {previous x amount pc backing info} (hpc : t.pc = .reward previous x amount pc)
      (h : B.basicStep s.backing pc = (backing, .inr (.ok info))) :
      CommitStep blk s t { s with backing }
        (startApply t previous x.result (withReward blk.beneficiary amount info x.state))
  | apply {previous result pc c backing pc'} (hpc : t.pc = .applying previous result pc)
      (h : B.commitStep s.backing pc c = some (backing, some pc')) :
      CommitStep blk s t { s with backing } { t with pc := .applying previous result pc' }
  | applied {previous result pc c backing} (hpc : t.pc = .applying previous result pc)
      (h : B.commitStep s.backing pc c = some (backing, none)) :
      CommitStep blk s t { s with backing }
        { t with pc := .publish previous, output := t.output ++ [.executed result] }
  | publish {previous} (hpc : t.pc = .publish previous) :
      CommitStep blk s t { s with ctx := { s.ctx with committed := t.output.length } }
        { t with pc := .release previous }
  | release {previous txDependency} (hpc : t.pc = .release previous)
      (h : s.txDependency.commit blk.size t.idx = some txDependency) :
      CommitStep blk s t { s with txDependency }
        { t with pc := .finalityLoad previous, idx := t.output.length }
  | abort {reason error pc pc' abort abortReason finalityWait commitWait}
      (hpc : t.pc = .aborting reason error pc)
      (h : s.abortStep reason pc =
        ({ s with abort, abortReason, finalityWait, commitWait }, some pc')) :
      CommitStep blk s t { s with abort, abortReason, finalityWait, commitWait }
        { t with pc := .aborting reason error pc' }
  | aborted {reason error pc abort abortReason finalityWait commitWait}
      (hpc : t.pc = .aborting reason error pc)
      (h : s.abortStep reason pc =
        ({ s with abort, abortReason, finalityWait, commitWait }, none)) :
      CommitStep blk s t { s with abort, abortReason, finalityWait, commitWait }
        { t with pc := .finished error }

theorem commitLoopStep_sound {t t' : CommitThread R B}
    (h : commitLoopStep blk s t c = some (s', t')) : CommitStep blk s t s' t' := by
  unfold commitLoopStep at h
  split at h
  case h_1 hpc =>
    cases h
    exact .wait (by rw [hpc]; rfl) rfl
  case h_2 hpc =>
    cases h
    split
    · rename_i hc
      exact .leave hpc (by simpa using hc)
    · rename_i hc
      exact .enter hpc (by simp at hc; omega)
  case h_3 previous hpc =>
    cases h
    split
    · exact .ready hpc ‹_›
    · refine .drained hpc (by omega) ?_
      split <;> rfl
  case h_4 previous hpc =>
    dsimp only at h
    split at h
    · cases h
      exact .takeFailed hpc (by simp_all)
    · rename_i r hr
      split at h
      · rename_i e he
        cases h
        refine .takeFailed hpc fun r' hr' => ?_
        rw [hr] at hr'
        cases hr'
        exact ⟨e, he⟩
      · rename_i x hx
        split at h
        · obtain ⟨t₁, ht, heq⟩ := Option.map_eq_some_iff.mp h
          cases heq
          exact .take hpc hr hx ‹_› ht
        · cases h
          exact .takeNonce hpc hr hx (Bool.eq_false_iff.mpr ‹_›)
  case h_5 previous x pc hpc =>
    split at h
    · cases h
      exact .nonce hpc ‹_›
    · cases h
      exact .nonceError hpc ‹_›
    · rename_i hb
      split at h
      · obtain ⟨t₁, ht, heq⟩ := Option.map_eq_some_iff.mp h
        cases heq
        exact .nonceMatch hpc hb ‹_› ht
      · cases h
        exact .nonceMismatch hpc hb (Bool.eq_false_iff.mpr ‹_›)
  case h_6 previous x amount pc hpc =>
    split at h <;> cases h
    · exact .reward hpc ‹_›
    · exact .rewardError hpc ‹_›
    · exact .rewarded hpc ‹_›
  case h_7 previous result pc hpc =>
    split at h <;> cases h
    · exact .apply hpc ‹_›
    · exact .applied hpc ‹_›
  case h_8 previous hpc =>
    cases h
    exact .publish hpc
  case h_9 previous hpc =>
    split at h <;> cases h
    exact .release hpc ‹_›
  case h_10 second hpc =>
    cases h
    refine .wait (by rw [hpc]; rfl) ?_
    split <;> rfl
  case h_11 second hpc =>
    cases h
    refine .wait (by rw [hpc]; rfl) ?_
    split
    · rfl
    · split <;> rfl
  case h_12 hpc =>
    split at h <;> cases h
    exact .wait (by rw [hpc]; rfl) rfl
  case h_13 reason error pc hpc =>
    split at h <;> cases h
    · obtain ⟨_, _, _, _, rfl⟩ := Shared.abortStep_eq ‹_›
      exact .abort hpc ‹_›
    · obtain ⟨_, _, _, _, rfl⟩ := Shared.abortStep_eq ‹_›
      exact .aborted hpc ‹_›
  case h_14 error hpc => cases h

/-! ## The machine -/

/-- A step of the machine is a step of the thread of its action. -/
theorem step_threads [DecidableEq W] {σ σ' : SchedulerState W R B} {a : Action W}
    (h : step blk σ a = some σ') :
    (∃ w shared pc, a.thread = .worker w ∧ WorkerStep blk w σ.shared (σ.workers w) shared pc ∧
      σ' = { σ with shared, workers := Function.update σ.workers w pc }) ∨
    (∃ shared finality, FinalityStep blk σ.shared σ.finality shared finality ∧
      σ' = { σ with shared, finality }) ∨
    (∃ shared commit, a.thread = .commit ∧ CommitStep blk σ.shared σ.commit shared commit ∧
      σ' = { σ with shared, commit }) := by
  unfold step at h
  split at h
  · obtain ⟨⟨shared, pc⟩, hs, rfl⟩ := Option.map_eq_some_iff.mp h
    exact .inl ⟨_, shared, pc, ‹_›, workerStep_sound hs, rfl⟩
  · obtain ⟨⟨shared, finality⟩, hs, rfl⟩ := Option.map_eq_some_iff.mp h
    exact .inr (.inl ⟨shared, finality, finalityStep_sound hs, rfl⟩)
  · obtain ⟨⟨shared, commit⟩, hs, rfl⟩ := Option.map_eq_some_iff.mp h
    exact .inr (.inr ⟨shared, commit, ‹_›, commitLoopStep_sound hs, rfl⟩)

theorem step_cases [DecidableEq W] {σ σ' : SchedulerState W R B} {a : Action W}
    (h : step blk σ a = some σ') :
    (∃ w shared pc, WorkerStep blk w σ.shared (σ.workers w) shared pc ∧
      σ' = { σ with shared, workers := Function.update σ.workers w pc }) ∨
    (∃ shared finality, FinalityStep blk σ.shared σ.finality shared finality ∧
      σ' = { σ with shared, finality }) ∨
    (∃ shared commit, CommitStep blk σ.shared σ.commit shared commit ∧
      σ' = { σ with shared, commit }) := by
  rcases step_threads h with ⟨w, shared, pc, -, hs, heq⟩ | hfinality | ⟨shared, commit, -, hs, heq⟩
  · exact .inl ⟨w, shared, pc, hs, heq⟩
  · exact .inr (.inl hfinality)
  · exact .inr (.inr ⟨shared, commit, hs, heq⟩)

end Grevm
