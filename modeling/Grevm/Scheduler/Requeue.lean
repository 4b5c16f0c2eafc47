/-
Grevm.Scheduler.Requeue — every transaction that has to run is queued.

The workers of the machine move the tokens of `Grevm.Scheduler.Retry`:
`WorkerPc.tokens` reads them off a program point and every step of a
worker is one `DepStep`. On top of the dependency invariant, `Queue`
says that a transaction which has not run, or has to run again, is
requeued, and that a commit barrier is released by a commit still to
come.
-/
import Grevm.Scheduler.Retry
import Grevm.Scheduler.Safety

namespace Grevm

variable {Err W R : Type} {B : Backing Err}

/-! ## The tokens of a worker -/

def ExecTail.tokens : ExecTail → Tokens
  | .handOff next => { claim := some next }
  | _ => {}

def ExecPc.tokens (txid : Nat) : ExecPc R B → Tokens
  | .releasing _ pc => pc.tokens txid
  | .settling _ next => { claim := next }
  | .keyingRewind => { rewind := some txid }
  | .errSettling => {}
  | .adding _ blocker pc | .errAdding blocker pc =>
    { release := some txid, adding := pc.holding blocker }
  | .frontier tail _ | .rewinding tail _ => tail.tokens
  | _ => { release := some txid }

def WorkerPc.tokens : WorkerPc R B → Tokens
  | .dependencyLock txid => { fetched := some txid }
  | .executionTask txid _ => { claim := some txid }
  | .useless txid _ pc => pc.tokens txid
  | .task (.execution version) => { release := some version.txid }
  | .exec version pc => pc.tokens version.txid
  | .val _ (.adding blocker pc) => { adding := pc.holding blocker }
  | _ => {}

/-- `remove` hands out nothing but the immediate successor, and nothing
at all to a worker that has found its claim useless. -/
def NextOk : WorkerPc R B → Prop
  | .useless _ _ pc => pc.next = none
  | .exec version (.releasing _ pc) => pc.next = none ∨ pc.next = some (version.txid + 1)
  | _ => True

/-- The point of `execute_task` at which the transaction has been
requeued and is not yet in conflict. -/
def ExecPc.isRequeued : ExecPc R B → Bool
  | .settling e _ => e.db.isBlocked
  | .keyingRewind | .errSettling => true
  | _ => false

/-- The point of `validate` at which the transaction is in conflict and
not yet requeued. -/
def ValPc.isRequeuing : ValPc → Bool
  | .blockerLoad _ | .adding _ _ => true
  | _ => false

section

variable {blk : Block Err R} {s s' : Shared W R B} {v : TxVersion} {p p' : WorkerPc R B} {w : W}
  {t : Nat} {released : Nat → Prop}

theorem tokens_of_isIdle (h : p.isIdle = true) : p.tokens = {} := by
  cases p <;> first | rfl | cases h

theorem tokens_noTask (fromNext : Bool) : (noTask fromNext : WorkerPc R B).tokens = {} := by
  cases fromNext <;> rfl

theorem tokens_enterExec {db : IncarnationDb} {prog : Prog Err R} :
    (enterExec blk s t db prog : ExecPc R B).tokens t = { release := some t } := by
  cases prog with
  | read => rfl
  | done result => cases result <;> rfl

theorem tokens_finishExec {tail : ExecTail} :
    (finishExec s v tail).2.tokens = tail.tokens ∧
      (finishExec s v tail).1.txDependency = s.txDependency := by
  cases tail <;> exact ⟨rfl, rfl⟩

/-- A step that leaves the tokens and the dependency state alone. -/
theorem DepStep.of_eq {numTxs committed : Nat} {T T' : Tokens} {dep dep' : TxDependency}
    (hT : T' = T) (hdep : dep' = dep) : DepStep numTxs committed released T dep T' dep' := by
  subst hT hdep
  exact .same

theorem ExecStep.depStep {pc : ExecPc R B} (h : ExecStep blk s v pc s' p')
    (hok : ExecOk v.incarnation (s.column v.txid) pc) (hnext : NextOk (.exec v pc : WorkerPc R B))
    (hbelow : ExecBelow v.txid pc) :
    DepStep blk.size s.ctx.committed released (pc.tokens v.txid) s.txDependency p'.tokens
      s'.txDependency := by
  cases h
  case answer => exact .of_eq tokens_enterExec rfl
  case addLock h | errAddLock h => exact .add h
  case addBlocker h => exact .added (.inl rfl) hbelow.2 h
  case errAddBlocker h => exact .added (.inl rfl) hbelow h
  case release h => exact .remove hnext h
  case released h => exact .removed h
  case key h => exact .key h
  case keyBehind h => exact .keyBehind h
  case keyRewind => exact .keyRewind
  case settle e next =>
    refine .of_eq ?_ rfl
    cases next with
    | some next => rfl
    | none =>
      simp only [WorkerPc.tokens, ExecPc.tokens]
      split
      · rfl
      · split <;> rfl
  case errRecord db error entry h =>
    refine .of_eq ?_ rfl
    by_cases hb : db.isBlocked = true
    · simp only [hb, if_true]
      rfl
    · simp only [hb]
      rfl
  case frontierFinish | rewindFinish => exact .of_eq tokens_finishExec.1 tokens_finishExec.2
  case parallelError | parallelErrorEnd => exact hok.elim
  all_goals exact .same

theorem ValStep.depStep {pc : ValPc} (h : ValStep blk s v pc s' p')
    (hok : ValOk v.incarnation (s.column v.txid) pc) (hbelow : ValBelow v.txid pc) :
    DepStep blk.size s.ctx.committed released (WorkerPc.val v pc : WorkerPc R B).tokens
      s.txDependency p'.tokens s'.txDependency := by
  cases h
  case scanned ts conflict dependency => cases conflict <;> exact .same
  case loadBlocker => exact .same
  case addLock h => exact .add h
  case addBlocker h => exact .added (.inr rfl) hbelow h
  case parallelError | parallelErrorEnd => exact hok.elim
  all_goals exact .same

/-- **Every step of a worker moves its tokens.** -/
theorem WorkerStep.depStep (h : WorkerStep blk w s p s' p')
    (hown : ∀ v, p.owned = some v →
      (s.txStates v.txid).incarnation = v.incarnation ∧ PcOk (s.column v.txid) p)
    (hnext : NextOk p) (hbelow : PcBelow p)
    (hbusy : ∀ t, s.txLocks t = none → (s.txStates t).status = .executing →
      p.tokens.release = none → released t) :
    DepStep blk.size s.ctx.committed released p.tokens s.txDependency p'.tokens
      s'.txDependency := by
  cases h with
  | idle hp hp' | frontier _ hp hp' =>
    exact .of_eq (by rw [tokens_of_isIdle hp, tokens_of_isIdle hp']) rfl
  | fetchIndex => exact .fetch
  | fetchPast h => exact .fetchPast h
  | claimDependent h => exact .claim h
  | dependentMissed h => exact .missed h
  | startTask | useless => exact .start
  | busy hl hs =>
    rw [tokens_noTask]
    exact .drop (hbusy _ hl hs rfl)
  | uselessRemove h => exact .remove (.inl hnext) h
  | @uselessRemoved t fromNext pc txDependency next c h =>
    have hnone : next = none := by
      have hs := removeStep_sound h
      cases hs with
      | empty => rfl
      | finish => exact hnext
    rw [tokens_noTask]
    subst hnone
    exact .removed h
  | execute => exact .of_eq tokens_enterExec rfl
  | executeGone hl hs => exact absurd (hown _ rfl).2 hs
  | executeInconsistent hl hs hi => exact absurd (hown _ rfl).1 hi
  | exec hs => exact hs.depStep (hown _ rfl).2 hnext hbelow
  | val hs => exact hs.depStep (hown _ rfl).2 hbelow
  | _ => exact .same

theorem RemoveStep.next_eq {dep dep' : TxDependency} {d : Nat} {popNext : Bool}
    {pc pc' : RemovePc} (h : RemoveStep dep d popNext pc dep' (.inl pc')) :
    pc'.next = pc.next ∨ popNext = true ∧ pc'.next = some (d + 1) := by
  cases h with
  | pop _ _ htx hpop => exact .inr ⟨hpop, by rw [htx]; rfl⟩
  | _ => exact .inl rfl

theorem nextOk_of_isIdle (h : p.isIdle = true) : NextOk p := by
  cases p <;> trivial

theorem WorkerStep.nextOk (h : WorkerStep blk w s p s' p') (hn : NextOk p) : NextOk p' := by
  cases h with
  | idle _ hp' | frontier _ _ hp' => exact nextOk_of_isIdle hp'
  | @busy t fromNext | @uselessRemoved t fromNext => cases fromNext <;> trivial
  | useless => exact rfl
  | uselessRemove h =>
    rcases (removeStep_sound h).next_eq with heq | ⟨hf, -⟩
    · exact heq.trans hn
    · cases hf
  | @execute v =>
    cases blk.spec v.txid with
    | read => trivial
    | done result => cases result <;> trivial
  | exec hs =>
    cases hs
    case answer k _ _ _ a _ =>
      cases k a with
      | read => trivial
      | done result => cases result <;> trivial
    case recordExact => exact .inl rfl
    case release h =>
      rcases (removeStep_sound h).next_eq with heq | ⟨-, heq⟩
      · rw [NextOk, heq]
        exact hn
      · exact .inr heq
    case errRecord db _ _ _ =>
      generalize db.isBlocked = blocked
      cases blocked <;> trivial
    case frontierFinish tail _ _ _ _ _ | rewindFinish tail _ _ _ => cases tail <;> trivial
    all_goals trivial
  | val hs =>
    cases hs
    all_goals trivial
  | _ => trivial

end

/-! ## The queue -/

/-- The tokens of all workers. -/
def SchedulerState.tokens (σ : SchedulerState W R B) : W → Tokens := fun w => (σ.workers w).tokens

/-- The transaction has not run, or has to run again. -/
def TransactionStatus.mustRun (status : TransactionStatus) : Prop :=
  status = .initial ∨ status = .conflict

structure Queue (blk : Block Err R) (σ : SchedulerState W R B) : Prop where
  dep : DepInv blk.size σ.shared.txDependency σ.tokens
  next : ∀ w, NextOk (σ.workers w)
  /-- A blocker precedes its transaction. -/
  below : ∀ w, PcBelow (σ.workers w)
  /-- A commit barrier will be released by a commit. -/
  barrier : ∀ t, t < blk.size → (σ.shared.txDependency.dependentState t).dependency = some t →
    σ.shared.ctx.committed < t ∨
      ∃ previous, σ.commit.pc = .release previous ∧ σ.commit.idx + 1 = t
  /-- What has to run is requeued, or about to be. -/
  requeued : ∀ t, (σ.shared.txStates t).status.mustRun →
    Requeued σ.shared.txDependency σ.tokens t ∨
      ∃ w v pc, σ.workers w = .val v pc ∧ v.txid = t ∧ pc.isRequeuing = true
  settling : ∀ w v pc, σ.workers w = .exec v pc → pc.isRequeued = true →
    Requeued σ.shared.txDependency σ.tokens v.txid

section

variable {blk : Block Err R} {σ : SchedulerState W R B} {s' : Shared W R B} {p' : WorkerPc R B}
  {w : W}

/-- A claim is used up only on a transaction that is not locked, and
then the transaction runs, has run, or is being run. -/
theorem WorkerStep.claim_used {s : Shared W R B} {p : WorkerPc R B} {t : Nat}
    (h : WorkerStep blk w s p s' p') (hp : p.tokens = { claim := some t })
    (hp' : p'.tokens.claim = none) :
    s.txLocks t = none ∧ ¬ (s'.txStates t).status.mustRun := by
  cases h with
  | startTask hl hs =>
    cases hp
    exact ⟨hl, by simp [TransactionStatus.mustRun]⟩
  | busy hl hs =>
    cases hp
    exact ⟨hl, by simp [TransactionStatus.mustRun, hs]⟩
  | useless hl hs =>
    cases hp
    exact ⟨hl, not_or.mpr ⟨hs.1, hs.2.1⟩⟩
  | exec hs =>
    cases hs
    case settle e next =>
      cases hp
      simp [WorkerPc.tokens, ExecPc.tokens, ExecTail.tokens] at hp'
    case frontierFinish tail _ _ _ _ _ | rewindFinish tail _ _ _ =>
      rw [tokens_finishExec.1] at hp'
      simp only [WorkerPc.tokens, ExecPc.tokens] at hp
      simp [hp] at hp'
    case frontier | frontierRewind | rewind =>
      simp only [WorkerPc.tokens, ExecPc.tokens] at hp hp'
      simp [hp] at hp'
    case release pc _ _ _ _ | released pc _ _ _ _ => cases pc <;> cases hp
    all_goals cases hp
  | idle hidle | frontier _ hidle => rw [tokens_of_isIdle hidle] at hp; cases hp
  | uselessRemove | uselessRemoved => rename_i pc _ _ _ _; cases pc <;> cases hp
  | @val v pc => cases pc <;> cases hp
  | _ => cases hp

theorem isRequeued_enterExec {s : Shared W R B} {t : Nat} {db : IncarnationDb}
    {prog : Prog Err R} : (enterExec blk s t db prog : ExecPc R B).isRequeued = false := by
  cases prog with
  | read => rfl
  | done result => cases result <;> rfl

/-- `execute_task` requeues before it settles on a conflict. -/
theorem ExecStep.isRequeued {s : Shared W R B} {v v' : TxVersion} {pc pc' : ExecPc R B}
    (h : ExecStep blk s v pc s' p') (hok : ExecOk v.incarnation (s.column v.txid) pc)
    (hp' : p' = .exec v' pc') (hr : pc'.isRequeued = true) :
    v' = v ∧ (pc.isRequeued = true ∨
      (s'.txDependency.dependentState v.txid).onboard = true) := by
  cases h
  case addBlocker h | errAddBlocker h =>
    cases hp'; exact ⟨rfl, .inr ((addStep_sound h).onboard (.inl rfl))⟩
  case key h | keyBehind h => cases hp'; exact ⟨rfl, .inr (TxDependency.keyTx_onboard h)⟩
  case keyRewind => cases hp'; exact ⟨rfl, .inl rfl⟩
  case released e _ _ next _ _ =>
    obtain ⟨-, hb, -⟩ := hok
    cases hp'
    simp [ExecPc.isRequeued, hb] at hr
  case answer =>
    cases hp'
    simp [isRequeued_enterExec] at hr
  case errRecord db _ _ _ =>
    cases hp'
    generalize db.isBlocked = blocked at hr
    cases blocked <;> cases hr
  case frontierFinish tail _ _ _ _ _ | rewindFinish tail _ _ _ => cases tail <;> cases hp'
  all_goals
    cases hp' <;> cases hr

/-- `execute_task` reports a conflict only once it has requeued. -/
theorem ExecStep.mustRun {s : Shared W R B} {v : TxVersion} {pc : ExecPc R B}
    (h : ExecStep blk s v pc s' p') (hm : (s'.txStates v.txid).status.mustRun) :
    pc.isRequeued = true ∨ (s.txStates v.txid).status.mustRun := by
  cases h
  case errSettle => exact .inl rfl
  case settle e next =>
    refine .inl ?_
    by_contra hb
    have hb : e.db.isBlocked = false := Bool.eq_false_iff.mpr hb
    simp [TransactionStatus.mustRun, hb] at hm
  case frontierFinish tail _ _ _ _ _ | rewindFinish tail _ _ _ =>
    cases tail <;> simp_all [finishExec, TransactionStatus.mustRun]
  all_goals exact .inr hm

theorem WorkerStep.isRequeued {s : Shared W R B} {p : WorkerPc R B} {v : TxVersion}
    {pc' : ExecPc R B} (h : WorkerStep blk w s p s' p')
    (hok : ∀ v', p.owned = some v' →
      (s.txStates v'.txid).incarnation = v'.incarnation ∧ PcOk (s.column v'.txid) p)
    (hp' : p' = .exec v pc') (hr : pc'.isRequeued = true) :
    (∃ pc, p = .exec v pc ∧ pc.isRequeued = true) ∨
      (s'.txDependency.dependentState v.txid).onboard = true := by
  cases h with
  | exec hs =>
    obtain ⟨rfl, hr | hb⟩ := hs.isRequeued (hok _ rfl).2 hp' hr
    · exact .inl ⟨_, rfl, hr⟩
    · exact .inr hb
  | val hs => cases hs <;> cases hp'
  | idle _ hidle | frontier _ _ hidle => subst hp'; cases hidle
  | @busy t fromNext | @uselessRemoved t fromNext => cases fromNext <;> cases hp'
  | execute =>
    cases hp'
    simp [isRequeued_enterExec] at hr
  | _ => cases hp' <;> cases hr

/-- `validate` requeues after it has reported a conflict. -/
theorem ValStep.requeued {s : Shared W R B} {v : TxVersion} {pc : ValPc}
    (h : ValStep blk s v pc s' p') (hok : ValOk v.incarnation (s.column v.txid) pc)
    (hm : (s'.txStates v.txid).status.mustRun) :
    (s'.txDependency.dependentState v.txid).onboard = true ∨
      ∃ pc', p' = .val v pc' ∧ pc'.isRequeuing = true := by
  have hvalidating : (s.txStates v.txid).status = .validating →
      (s'.txStates v.txid).status = (s.txStates v.txid).status →
      (s'.txDependency.dependentState v.txid).onboard = true ∨
        ∃ pc', p' = .val v pc' ∧ pc'.isRequeuing = true := by
    intro hst heq
    simp [TransactionStatus.mustRun, heq, hst] at hm
  cases h
  case addLock | invalidateLast | rewound | loadBlocker => exact .inr ⟨_, rfl, rfl⟩
  case addBlocker h => exact .inl ((addStep_sound h).onboard (.inl rfl))
  case unconfirm => simp [TransactionStatus.mustRun] at hm
  case parallelError | parallelErrorEnd => exact hok.elim
  all_goals exact hvalidating hok.1 rfl

/-- Whoever turns a transaction into one that has to run has requeued it,
or is about to. -/
theorem WorkerStep.requeues {s : Shared W R B} {p : WorkerPc R B} {v : TxVersion}
    (h : WorkerStep blk w s p s' p') (hv : p.owned = some v) (hok : PcOk (s.column v.txid) p)
    (hm : (s'.txStates v.txid).status.mustRun) :
    ((s.txStates v.txid).status.mustRun ∧ ∀ pc, p ≠ .val v pc) ∨
      (∃ pc, p = .exec v pc ∧ pc.isRequeued = true) ∨
      (s'.txDependency.dependentState v.txid).onboard = true ∨
      ∃ pc, p' = .val v pc ∧ pc.isRequeuing = true := by
  cases h with
  | exec hs =>
    cases hv
    rcases hs.mustRun hm with hr | hm
    · exact .inr (.inl ⟨_, rfl, hr⟩)
    · exact .inl ⟨hm, fun _ h => by cases h⟩
  | val hs =>
    cases hv
    exact .inr (.inr (hs.requeued hok hm))
  | idle hidle | frontier _ hidle => rw [(owned_of_isIdle hidle).1] at hv; cases hv
  | _ =>
    -- a task that starts, or is gone, keeps its status
    cases hv <;> exact .inl ⟨hm, fun _ h => by cases h⟩

variable [DecidableEq W]

theorem tokens_update :
    ({ σ with shared := s', workers := Function.update σ.workers w p' } :
      SchedulerState W R B).tokens = Function.update σ.tokens w p'.tokens := by
  funext w'
  by_cases hw : w' = w
  · subst hw
    simp [SchedulerState.tokens]
  · simp [SchedulerState.tokens, hw]

omit [DecidableEq W] in
/-- A transaction that executes and is not locked has a worker that is
going to execute it. -/
theorem Core.released {t : Nat} (hcore : Core σ) (hl : σ.shared.txLocks t = none)
    (hs : (σ.shared.txStates t).status = .executing) :
    ∃ w', (σ.tokens w').release = some t := by
  obtain ⟨w', v, hv, rfl⟩ := hcore.busy t (.inl hs)
  have hok := (hcore.owned w' v hv).2
  have hfree : (σ.workers w').locked ≠ some v.txid := fun hk => by
    simp [(hcore.locked w' v.txid).mpr hk] at hl
  refine ⟨w', ?_⟩
  cases hw' : σ.workers w' with
  | task task =>
    rw [hw'] at hv hok
    cases task with
    | execution v' =>
      cases hv
      simp [SchedulerState.tokens, hw', WorkerPc.tokens]
    | validation v' =>
      cases hv
      have hok : (σ.shared.txStates v.txid).status = .validating := hok
      simp [hs] at hok
  | exec v' pc | val v' pc =>
    rw [hw'] at hv hfree
    exact absurd (congrArg (Option.map TxVersion.txid) hv) hfree
  | _ =>
    rw [hw'] at hv
    cases hv

omit [DecidableEq W] in
/-- A worker's step as a step of the dependency state. -/
theorem Queue.depStep (h : Queue blk σ) (hcore : Core σ)
    (hstep : WorkerStep blk w σ.shared (σ.workers w) s' p') :
    DepStep blk.size σ.shared.ctx.committed
      (fun t => ∃ w', w' ≠ w ∧ (σ.tokens w').release = some t)
      (σ.tokens w) σ.shared.txDependency p'.tokens s'.txDependency := by
  refine hstep.depStep (hcore.owned w) (h.next w) (h.below w) fun t hl hs hnone => ?_
  obtain ⟨w', hw'⟩ := hcore.released hl hs
  refine ⟨w', ?_, hw'⟩
  rintro rfl
  rw [SchedulerState.tokens, hnone] at hw'
  cases hw'

/-- A transaction stays requeued while it is locked, and while it still
has to run. -/
theorem Queue.requeued_worker {t : Nat} (h : Queue blk σ) (hcore : Core σ)
    (hstep : WorkerStep blk w σ.shared (σ.workers w) s' p')
    (hq : Requeued σ.shared.txDependency σ.tokens t)
    (hkeep : σ.shared.txLocks t ≠ none ∨ (s'.txStates t).status.mustRun) :
    Requeued s'.txDependency (Function.update σ.tokens w p'.tokens) t := by
  rcases hq.step h.dep (h.depStep hcore hstep) with hq | ⟨hclaim, hused⟩
  · exact hq
  · obtain ⟨hl, hm⟩ := hstep.claim_used hclaim hused
    rcases hkeep with hk | hk
    · exact absurd hl hk
    · exact absurd hk hm

/-- Workers keep requeued what has to run. -/
theorem Queue.worker_requeued {t : Nat} (h : Queue blk σ) (hcore : Core σ)
    (hstep : WorkerStep blk w σ.shared (σ.workers w) s' p')
    (hm : (s'.txStates t).status.mustRun) :
    Requeued s'.txDependency (Function.update σ.tokens w p'.tokens) t ∨
      ∃ w' v pc, Function.update σ.workers w p' w' = .val v pc ∧ v.txid = t ∧
        pc.isRequeuing = true := by
  by_cases hown : ∃ v, (σ.workers w).owned = some v ∧ v.txid = t
  · obtain ⟨v, hv, rfl⟩ := hown
    rcases hstep.requeues hv (hcore.owned w v hv).2 hm with
      ⟨hm₀, hval⟩ | ⟨pc, hpc, hr⟩ | hb | ⟨pc, hpc, hr⟩
    · rcases h.requeued v.txid hm₀ with hq | ⟨w', v', pc, hw', ht, -⟩
      · exact .inl (h.requeued_worker hcore hstep hq (.inr hm))
      · obtain rfl := hcore.unique w' w v' v (by rw [hw']; rfl) hv ht
        obtain rfl : v' = v := by rw [hw'] at hv; exact Option.some.inj hv
        exact absurd hw' (hval pc)
    · exact .inl (h.requeued_worker hcore hstep (h.settling w v pc hpc hr) (.inr hm))
    · exact .inl (.inl hb)
    · exact .inr ⟨w, v, pc, by simp [hpc], rfl, hr⟩
  · have hne : ∀ v, (σ.workers w).owned = some v → t ≠ v.txid :=
      fun v hv ht => hown ⟨v, hv, ht.symm⟩
    rcases hstep.sameAt_or_claimed hne with hsame | ⟨-, ⟨-, hs⟩ | ⟨-, hs⟩⟩
    · rcases h.requeued t (hsame.state_eq ▸ hm) with hq | ⟨w', v, pc, hw', ht, hr⟩
      · exact .inl (h.requeued_worker hcore hstep hq (.inr hm))
      · have hw : w' ≠ w := fun heq => hown ⟨v, by rw [← heq, hw']; rfl, ht⟩
        exact .inr ⟨w', v, pc, by simpa [hw] using hw', ht, hr⟩
    · simp [TransactionStatus.mustRun, hs] at hm
    · simp [TransactionStatus.mustRun, hs] at hm

/-- A transaction that is about to be reported in conflict is requeued. -/
theorem Queue.worker_settling {w' : W} {v : TxVersion} {pc : ExecPc R B} (h : Queue blk σ)
    (hcore : Core σ) (hstep : WorkerStep blk w σ.shared (σ.workers w) s' p')
    (hw' : Function.update σ.workers w p' w' = .exec v pc) (hr : pc.isRequeued = true) :
    Requeued s'.txDependency (Function.update σ.tokens w p'.tokens) v.txid := by
  have hlocked : ∀ u pc₀, σ.workers u = .exec v pc₀ → σ.shared.txLocks v.txid ≠ none := by
    intro u pc₀ hu
    simp [(hcore.locked u v.txid).mpr (by rw [hu]; rfl)]
  by_cases hw : w' = w
  · subst hw
    rw [Function.update_self] at hw'
    rcases hstep.isRequeued (hcore.owned w') hw' hr with ⟨pc₀, hpc, hr₀⟩ | hb
    · exact h.requeued_worker hcore hstep (h.settling w' v pc₀ hpc hr₀)
        (.inl (hlocked w' pc₀ hpc))
    · exact .inl hb
  · rw [Function.update_of_ne hw] at hw'
    exact h.requeued_worker hcore hstep (h.settling w' v pc hw' hr) (.inl (hlocked w' pc hw'))

theorem Queue.worker (h : Queue blk σ) (hcore : Core σ)
    (hstep : WorkerStep blk w σ.shared (σ.workers w) s' p') :
    Queue blk { σ with shared := s', workers := Function.update σ.workers w p' } := by
  have hdep := h.depStep hcore hstep
  refine ⟨?_, fun w' => ?_, fun w' => ?_, fun t ht hd => ?_, fun t hm => ?_,
    fun w' v pc hw' hr => ?_⟩
  · rw [tokens_update]
    exact h.dep.step (fun _ hr => hr) hdep
  · by_cases hw : w' = w
    · subst hw
      simpa using hstep.nextOk (h.next w')
    · simpa [hw] using h.next w'
  · by_cases hw : w' = w
    · subst hw
      simpa using hstep.below (h.below w')
    · simpa [hw] using h.below w'
  · rw [hstep.cursors.2]
    rcases hdep.barrier hd with hd | hlt
    · exact h.barrier t ht hd
    · exact .inl hlt
  · rw [tokens_update]
    exact h.worker_requeued hcore hstep hm
  · rw [tokens_update]
    exact h.worker_settling hcore hstep hw' hr

omit [DecidableEq W] in
theorem Queue.finality {t' : FinalityThread} (h : Queue blk σ)
    (hstep : FinalityStep blk σ.shared σ.finality s' t') :
    Queue blk { σ with shared := s', finality := t' } := by
  have hframe : s'.txDependency = σ.shared.txDependency ∧
      s'.ctx.committed = σ.shared.ctx.committed ∧
      ∀ t, (s'.txStates t).status.mustRun → (σ.shared.txStates t).status.mustRun := by
    cases hstep
    case finalize =>
      refine ⟨rfl, rfl, fun t hm => ?_⟩
      by_cases ht : t = σ.finality.idx <;> simp_all [TransactionStatus.mustRun]
    all_goals exact ⟨rfl, rfl, fun _ hm => hm⟩
  obtain ⟨hdep, hcom, hstates⟩ := hframe
  refine ⟨?_, h.next, h.below, ?_, fun t hm => ?_, ?_⟩ <;> simp only [hdep, hcom]
  · exact h.dep
  · exact h.barrier
  · exact h.requeued t (hstates t hm)
  · exact h.settling

omit [DecidableEq W] in
/-- The commit thread: only a released successor leaves its barrier, and
only a published commit moves the committed cursor. -/
theorem CommitStep.queue_cases {t' : CommitThread R B}
    (hstep : CommitStep blk σ.shared σ.commit s' t') :
    s'.txDependency = σ.shared.txDependency ∧ s'.ctx.committed = σ.shared.ctx.committed ∧
        (∀ previous, σ.commit.pc ≠ .release previous) ∨
    s'.txDependency = σ.shared.txDependency ∧ s'.ctx.committed = σ.commit.output.length ∧
        (∃ previous, σ.commit.pc = .publish previous ∧
          t' = { σ.commit with pc := .release previous }) ∨
    σ.shared.txDependency.commit blk.size σ.commit.idx = some s'.txDependency ∧
        s'.ctx.committed = σ.shared.ctx.committed := by
  cases hstep
  case publish hpc => exact .inr (.inl ⟨rfl, rfl, _, hpc, rfl⟩)
  case release _ h => exact .inr (.inr ⟨h, rfl⟩)
  case wait hpc _ => exact .inl ⟨rfl, rfl, fun _ hr => by rw [hr] at hpc; cases hpc⟩
  all_goals
    rename_i hpc
    exact .inl ⟨rfl, rfl, fun _ hr => by simp_all⟩

omit [DecidableEq W] in
/-- A commit keeps requeued what is requeued. -/
theorem Requeued.commit {dep dep' : TxDependency} {τ : W → Tokens} {numTxs t c : Nat}
    (hq : Requeued dep τ t) (hc : dep.commit numTxs c = some dep') : Requeued dep' τ t := by
  rcases hq with hb | hw
  · rcases TxDependency.commit_eq hc with ⟨rfl, -⟩ | ⟨-, rfl⟩
    · exact .inl hb
    · refine .inl ?_
      by_cases ht : t = c + 1 <;> simp [ht, hb]
  · exact .inr hw

omit [DecidableEq W] in
theorem Queue.commit {t' : CommitThread R B} (h : Queue blk σ) (hinv : CommitInv blk σ)
    (hstep : CommitStep blk σ.shared σ.commit s' t') :
    Queue blk { σ with shared := s', commit := t' } := by
  have hstates := hstep.columns.2.1
  have hcom := hinv.committed
  have hout := hinv.output
  rcases hstep.queue_cases with
    ⟨hdep, hcur, hpc⟩ | ⟨hdep, hcur, previous, hpc, rfl⟩ | ⟨hdep, hcur⟩
  · refine ⟨?_, h.next, h.below, fun t ht hd => .inl ?_, ?_, ?_⟩ <;>
      simp only [hdep, hcur, hstates] at *
    · exact h.dep
    · rcases h.barrier t ht hd with hlt | ⟨q, hq, -⟩
      · exact hlt
      · exact absurd hq (hpc q)
    · exact h.requeued
    · exact h.settling
  · refine ⟨?_, h.next, h.below, fun t ht hd => ?_, ?_, ?_⟩ <;>
      simp only [hdep, hcur, hstates] at *
    · exact h.dep
    · rcases h.barrier t ht hd with hlt | ⟨q, hq, -⟩
      · simp only [hpc, CommitLoopPc.published, CommitLoopPc.pushed] at hcom hout
        by_cases heq : t = σ.commit.idx + 1
        · exact .inr ⟨previous, rfl, heq.symm⟩
        · exact .inl (by omega)
      · rw [hpc] at hq
        cases hq
    · exact h.requeued
    · exact h.settling
  · refine ⟨h.dep.commit hdep, h.next, h.below, fun t ht hd => .inl ?_, fun t hm => ?_,
      fun w' v pc hw' hr => (h.settling w' v pc hw' hr).commit hdep⟩
    · -- the successor's barrier is the one that goes
      have hne : t ≠ σ.commit.idx + 1 := by
        rintro rfl
        rcases TxDependency.commit_eq hdep with ⟨heq, hle | hb⟩ | ⟨-, heq⟩
        · omega
        · simp only [heq] at hd
          simp [h.dep.onboard _ _ hd] at hb
        · simp [heq] at hd
      have hd₀ : (σ.shared.txDependency.dependentState t).dependency = some t := by
        rcases TxDependency.commit_eq hdep with ⟨heq, -⟩ | ⟨-, heq⟩
        · simpa only [heq] using hd
        · simpa [heq, hne] using hd
      rw [show s'.ctx.committed = _ from hcur]
      rcases h.barrier t ht hd₀ with hlt | ⟨q, -, heq⟩
      · exact hlt
      · exact absurd heq.symm hne
    · simp only [hstates] at hm
      rcases h.requeued t hm with hq | hval
      · exact .inl (hq.commit hdep)
      · exact .inr hval

omit [DecidableEq W] in
theorem queue_initial (backing : B.State) :
    Queue blk (initial backing : SchedulerState W R B) where
  dep := ⟨fun t d hd => (by cases hd), fun t d hd => (by cases hd),
    fun t _ _ _ => .inl (Nat.zero_le _), fun w d r hr => (by cases hr),
    ⟨fun w d hd => absurd hd (Tokens.not_edges ⟨rfl, rfl⟩ d),
      fun w _ d hd => absurd hd (Tokens.not_edges ⟨rfl, rfl⟩ d)⟩, fun t d hd => (by cases hd)⟩
  next _ := trivial
  below _ := trivial
  barrier t _ hd := by cases hd
  requeued t _ := .inl (.inl rfl)
  settling w v pc hw := by cases hw

theorem queue_of_reach {ok : SchedulerState W R B → Action W → Prop} {backing : B.State}
    (h : ReachableWhen blk backing ok σ) : Queue blk σ := by
  refine Runs.Reach.invariant h (queue_initial backing) fun σ a σ' hr ih _ hs => ?_
  rcases step_cases hs with ⟨w, shared, pc, hw, rfl⟩ | ⟨shared, t', hf, rfl⟩ | ⟨shared, t', hc, rfl⟩
  · exact ih.worker (core_of_reach hr) hw
  · exact ih.finality hf
  · exact ih.commit (commitInv_of_reach hr) hc

end

end Grevm
