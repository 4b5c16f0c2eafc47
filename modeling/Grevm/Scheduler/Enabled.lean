/-
Grevm.Scheduler.Enabled — what a thread can wait for.

A step of the machine is `none` when the thread waits for a lock, when it
has returned, and where the code panics. `Lock` are the locks of the
scheduler, `WorkerPc.wants` the ones the next access of a worker takes
and `SchedulerState.Holds` the ones its program point has taken. A thread
that has not returned and whose wanted locks are free can move
(`step_of_free`): none of the assertions of the code fails. The locks are
taken in one order (`lockOrder_of_reach`): the state of a transaction,
then the reverse edges of one, then dependency states in the order of the
block.
-/
import Grevm.Scheduler.HeadErrors
import Grevm.Scheduler.Requeue
import Grevm.Scheduler.Results

namespace Grevm

open Locks

variable {Err W R : Type} {B : Backing Err}

/-! ## The locks of the dependency state -/

/-- The worker has the dependency state of `t` locked. -/
def Tokens.Dependent (T : Tokens) (t : Nat) : Prop :=
  T.rewind = some t ∨ T.adding = some (t, .state)

namespace TxDependency

variable {dep dep' : TxDependency} {t d : Nat}

theorem locks_of_claim {claimed : Bool} (h : dep.claim t = some (dep', claimed)) :
    dep'.dependentLocked = dep.dependentLocked ∧ dep'.affectLocked = dep.affectLocked := by
  rcases claim_eq h with ⟨-, -, -, rfl⟩ | ⟨-, rfl, -⟩ <;> exact ⟨rfl, rfl⟩

theorem locks_of_keyTx {committed : Nat} {rewind : Bool}
    (h : dep.keyTx t committed = some (dep', rewind)) :
    dep'.affectLocked = dep.affectLocked ∧
      dep'.dependentLocked =
        if rewind then Function.update dep.dependentLocked t true else dep.dependentLocked := by
  simp only [keyTx] at h
  split at h
  · cases h
  · generalize (if t > committed then some t else (dep.dependentState t).dependency) = dependency
      at h
    cases dependency <;> cases h <;> exact ⟨rfl, rfl⟩

theorem locks_of_commit {numTxs : Nat} (h : dep.commit numTxs t = some dep') :
    dep'.dependentLocked = dep.dependentLocked ∧ dep'.affectLocked = dep.affectLocked := by
  rcases commit_eq h with ⟨rfl, -⟩ | ⟨-, rfl⟩ <;> exact ⟨rfl, rfl⟩

/-- What `claim` and `key_tx` need is the lock of the transaction. -/
theorem claim_isSome (h : dep.dependentLocked t = false) :
    ∃ dep' claimed, dep.claim t = some (dep', claimed) := by
  simp only [claim, h, Bool.false_eq_true, if_false]
  split <;> exact ⟨_, _, rfl⟩

theorem keyTx_isSome (committed : Nat) (h : dep.dependentLocked t = false) :
    ∃ dep' rewind, dep.keyTx t committed = some (dep', rewind) := by
  simp only [keyTx, h, Bool.false_eq_true, if_false]
  generalize (if t > committed then some t else (dep.dependentState t).dependency) = dependency
  cases dependency <;> exact ⟨_, _, rfl⟩

theorem commit_isSome {numTxs : Nat} (h : t + 1 < numTxs → dep.dependentLocked (t + 1) = false) :
    ∃ dep', dep.commit numTxs t = some dep' := by
  simp only [commit]
  split
  · exact ⟨_, rfl⟩
  · rw [h (by omega)]
    simp only [Bool.false_eq_true, if_false]
    split <;> exact ⟨_, rfl⟩

end TxDependency

section

variable {dep dep' : TxDependency} {d : Nat} {popNext : Bool} {pc pc' : RemovePc}

/-- `remove` locks a dependent while it rewinds the index to it. -/
theorem RemoveStep.dependentLocked (h : RemoveStep dep d popNext pc dep' (.inl pc')) {t : Nat}
    (ht : dep'.dependentLocked t = true) :
    (pc'.tokens d).Dependent t ∨
      dep.dependentLocked t = true ∧ ¬ (pc.tokens d).Dependent t := by
  cases h
  case clear tx _ _ _ _ =>
    by_cases heq : t = tx
    · exact .inl (.inl (congrArg some heq.symm))
    · simp only [TxDependency.lockDependent_dependentLocked, Function.update_of_ne heq] at ht
      exact .inr ⟨ht, by simp [Tokens.Dependent, RemovePc.tokens]⟩
  case rewind tx =>
    by_cases heq : t = tx
    · subst heq
      simp at ht
    · simp only [TxDependency.lockDependent_dependentLocked, Function.update_of_ne heq] at ht
      exact .inr ⟨ht, by simp [Tokens.Dependent, RemovePc.tokens, Ne.symm heq]⟩
  all_goals exact .inr ⟨ht, by simp [Tokens.Dependent, RemovePc.tokens]⟩

/-- It locks the reverse edges until it has visited them all. -/
theorem RemoveStep.affectLocked (h : RemoveStep dep d popNext pc dep' (.inl pc')) {d' : Nat}
    (hd' : dep'.affectLocked d' = true) :
    (pc'.tokens d).Edges d' ∨ dep.affectLocked d' = true ∧ ¬ (pc.tokens d).Edges d' := by
  by_cases heq : d' = d
  · subst heq
    cases h <;> exact .inl (.inl ⟨_, rfl⟩)
  · cases h
    case start =>
      simp only [Function.update_of_ne heq] at hd'
      exact .inr ⟨hd', by simp [Tokens.Edges, RemovePc.tokens]⟩
    all_goals exact .inr ⟨hd', by simp [Tokens.Edges, RemovePc.tokens, Ne.symm heq]⟩

end

section

variable {dep dep' : TxDependency} {t : Nat} {blocker release : Option Nat} {pc pc' : AddPc}

/-- `add` locks the edges of its blocker, then the blocker's state. -/
theorem AddStep.locks (h : AddStep dep t blocker pc dep' (some pc')) :
    (∀ x, dep'.dependentLocked x = true →
      Tokens.Dependent { release, adding := pc'.holding blocker } x ∨
        dep.dependentLocked x = true ∧
          ¬ Tokens.Dependent { release, adding := pc.holding blocker } x) ∧
    ∀ x, dep'.affectLocked x = true →
      Tokens.Edges { release, adding := pc'.holding blocker } x ∨
        dep.affectLocked x = true ∧
          ¬ Tokens.Edges { release, adding := pc.holding blocker } x := by
  cases h with
  | @lockEdges d =>
    refine ⟨fun x hx => .inr ⟨hx, by simp [Tokens.Dependent, AddPc.holding]⟩, fun x hx => ?_⟩
    by_cases heq : x = d
    · exact .inl (.inr ⟨.depState, by simp [AddPc.holding, heq]⟩)
    · exact .inr ⟨by simpa [heq] using hx, by simp [Tokens.Edges, AddPc.holding]⟩
  | @lockBlocker d =>
    refine ⟨fun x hx => ?_, fun x hx => ?_⟩
    · by_cases heq : x = d
      · exact .inl (.inr (by simp [AddPc.holding, heq]))
      · exact .inr ⟨by simpa [heq] using hx, by simp [Tokens.Dependent, AddPc.holding]⟩
    · by_cases heq : x = d
      · exact .inl (.inr ⟨.state, by simp [AddPc.holding, heq]⟩)
      · exact .inr ⟨hx, by simp [Tokens.Edges, AddPc.holding, Ne.symm heq]⟩

/-- When it returns it has released both. -/
theorem AddStep.unlocks (h : AddStep dep t blocker pc dep' none) :
    (∀ x, dep'.dependentLocked x = true → dep.dependentLocked x = true ∧
      ¬ Tokens.Dependent { release, adding := pc.holding blocker } x) ∧
    ∀ x, dep'.affectLocked x = true → dep.affectLocked x = true ∧
      ¬ Tokens.Edges { release, adding := pc.holding blocker } x := by
  have hnone : blocker = none → pc.holding blocker = none := by
    rintro rfl
    cases pc <;> rfl
  cases h with
  | keep | release => simp [Tokens.Dependent, Tokens.Edges, hnone]
  | @link d _ hlink =>
    rw [hlink.dependentLocked, hlink.affectLocked]
    refine ⟨fun x hx => ?_, fun x hx => ?_⟩ <;> by_cases heq : x = d
    · simp [heq] at hx
    · exact ⟨by simpa [heq] using hx, by simp [Tokens.Dependent, AddPc.holding, Ne.symm heq]⟩
    · simp [heq] at hx
    · exact ⟨by simpa [heq] using hx, by simp [Tokens.Edges, AddPc.holding, Ne.symm heq]⟩

end

/-- Whoever locks is at a point that says so, and whoever leaves such a
point has unlocked. -/
theorem DepStep.locks {numTxs committed : Nat} {released : Nat → Prop} {T T' : Tokens}
    {dep dep' : TxDependency} (h : DepStep numTxs committed released T dep T' dep') :
    (∀ t, dep'.dependentLocked t = true →
      T'.Dependent t ∨ dep.dependentLocked t = true ∧ ¬ T.Dependent t) ∧
    ∀ d, dep'.affectLocked d = true →
      T'.Edges d ∨ dep.affectLocked d = true ∧ ¬ T.Edges d := by
  have hfree : dep'.dependentLocked = dep.dependentLocked ∧ dep'.affectLocked = dep.affectLocked →
      (∀ t, ¬ T.Dependent t) → (∀ d, ¬ T.Edges d) →
      (∀ t, dep'.dependentLocked t = true →
        T'.Dependent t ∨ dep.dependentLocked t = true ∧ ¬ T.Dependent t) ∧
      ∀ d, dep'.affectLocked d = true →
        T'.Edges d ∨ dep.affectLocked d = true ∧ ¬ T.Edges d := by
    rintro ⟨h₁, h₂⟩ ht hd
    rw [h₁, h₂]
    exact ⟨fun t hl => .inr ⟨hl, ht t⟩, fun d hl => .inr ⟨hl, hd d⟩⟩
  cases h with
  | same => exact ⟨fun t ht => by tauto, fun d hd => by tauto⟩
  | fetch | fetchPast | start | drop =>
    exact hfree ⟨rfl, rfl⟩ (by simp [Tokens.Dependent]) (by simp [Tokens.Edges])
  | claim h | missed h =>
    exact hfree (TxDependency.locks_of_claim h) (by simp [Tokens.Dependent])
      (by simp [Tokens.Edges])
  | add h => exact (addStep_sound h).locks
  | added _ _ h =>
    obtain ⟨h₁, h₂⟩ := (addStep_sound h).unlocks
    exact ⟨fun t ht => .inr (h₁ t ht), fun d hd => .inr (h₂ d hd)⟩
  | remove hnext h =>
    have hs := removeStep_sound h
    exact ⟨fun t ht => hs.dependentLocked ht, fun d' hd' => hs.affectLocked hd'⟩
  | @removed dep dep' d c popNext pc next h =>
    cases removeStep_sound h with
    | empty _ =>
      exact hfree ⟨rfl, rfl⟩ (by simp [Tokens.Dependent, RemovePc.tokens])
        (by simp [Tokens.Edges, RemovePc.tokens])
    | finish =>
      refine ⟨fun t ht => .inr ⟨ht, by simp [Tokens.Dependent, RemovePc.tokens]⟩,
        fun d' hd' => ?_⟩
      by_cases heq : d' = d
      · subst heq
        simp at hd'
      · simp only [Function.update_of_ne heq] at hd'
        exact .inr ⟨hd', by simp [Tokens.Edges, RemovePc.tokens, Ne.symm heq]⟩
  | @key dep dep' t h =>
    obtain ⟨h₁, h₂⟩ := TxDependency.locks_of_keyTx h
    rw [h₁, h₂]
    refine ⟨fun t' ht' => ?_, fun d hd => .inr ⟨hd, by simp [Tokens.Edges]⟩⟩
    by_cases heq : t' = t
    · subst heq
      exact .inl (.inl rfl)
    · simp only [if_true, Function.update_of_ne heq] at ht'
      exact .inr ⟨ht', by simp [Tokens.Dependent]⟩
  | keyBehind h =>
    obtain ⟨h₁, h₂⟩ := TxDependency.locks_of_keyTx h
    exact hfree ⟨h₂, h₁⟩ (by simp [Tokens.Dependent]) (by simp [Tokens.Edges])
  | @keyRewind dep t =>
    refine ⟨fun t' ht' => ?_, fun d hd => .inr ⟨hd, by simp [Tokens.Edges]⟩⟩
    by_cases heq : t' = t
    · subst heq
      simp [TxDependency.keyTxRewind] at ht'
    · simp only [TxDependency.keyTxRewind, TxDependency.lockDependent_dependentLocked,
        Function.update_of_ne heq] at ht'
      exact .inr ⟨ht', by simp [Tokens.Dependent, Ne.symm heq]⟩

/-! ## Locks and their holders -/

/-- The locks of the scheduler: the state of a transaction, its
dependency state, and the edges to its dependents. -/
inductive Lock where
  | tx (txid : Nat)
  | dependent (txid : Nat)
  | affects (txid : Nat)
  deriving DecidableEq

def Shared.isHeld (s : Shared W R B) : Lock → Bool
  | .tx t => (s.txLocks t).isSome
  | .dependent t => s.txDependency.dependentLocked t
  | .affects d => s.txDependency.affectLocked d

/-- The locks a worker has taken. -/
def WorkerPc.Holds (p : WorkerPc R B) : Lock → Prop
  | .tx t => p.locked = some t
  | .dependent t => p.tokens.Dependent t
  | .affects d => p.tokens.Edges d

def SchedulerState.Holds (σ : SchedulerState W R B) : Thread W → Lock → Prop
  | .worker w, l => (σ.workers w).Holds l
  | .finality, .tx t => σ.finality.pc.locks = true ∧ t = σ.finality.idx
  | _, _ => False

/-- The locks of the dependency state are held by workers. -/
structure DepLocks (σ : SchedulerState W R B) : Prop where
  dependent : Owned σ.shared.txDependency.dependentLocked fun w => (σ.tokens w).Dependent
  affects : Owned σ.shared.txDependency.affectLocked fun w => (σ.tokens w).Edges

section

variable [DecidableEq W] {blk : Block Err R} {σ σ' : SchedulerState W R B} {a : Action W}
  {backing : B.State}

theorem DepLocks.worker {w : W} {s' : Shared W R B} {p' : WorkerPc R B} (h : DepLocks σ)
    (hqueue : Queue blk σ) (hcore : Core σ)
    (hstep : WorkerStep blk w σ.shared (σ.workers w) s' p') :
    DepLocks { σ with shared := s', workers := Function.update σ.workers w p' } := by
  obtain ⟨hdependent, haffects⟩ := (hqueue.depStep hcore hstep).locks
  constructor <;> rw [tokens_update]
  · refine h.dependent.step w (fun w' hne t ht => ?_) fun t ht => ?_
    · simpa only [Function.update_of_ne hne] using ht
    · simpa only [Function.update_self] using hdependent t ht
  · refine h.affects.step w (fun w' hne d hd => ?_) fun d hd => ?_
    · simpa only [Function.update_of_ne hne] using hd
    · simpa only [Function.update_self] using haffects d hd

theorem DepLocks.step (h : DepLocks σ) (hqueue : Queue blk σ) (hcore : Core σ)
    (hs : step blk σ a = some σ') : DepLocks σ' := by
  rcases step_cases hs with ⟨w, shared, pc, hw, rfl⟩ | ⟨shared, finality, hf, rfl⟩ |
    ⟨shared, commit, hc, rfl⟩
  · exact h.worker hqueue hcore hw
  · have hframe : shared.txDependency = σ.shared.txDependency := by cases hf <;> rfl
    exact ⟨fun t ht => h.dependent t (hframe ▸ ht), fun d hd => h.affects d (hframe ▸ hd)⟩
  · rcases hc.queue_cases with ⟨hframe, -⟩ | ⟨hframe, -⟩ | ⟨hcommit, -⟩
    · exact ⟨fun t ht => h.dependent t (hframe ▸ ht), fun d hd => h.affects d (hframe ▸ hd)⟩
    · exact ⟨fun t ht => h.dependent t (hframe ▸ ht), fun d hd => h.affects d (hframe ▸ hd)⟩
    · obtain ⟨h₁, h₂⟩ := TxDependency.locks_of_commit hcommit
      exact ⟨fun t ht => h.dependent t (h₁ ▸ ht), fun d hd => h.affects d (h₂ ▸ hd)⟩

theorem depLocks_of_reach {ok : SchedulerState W R B → Action W → Prop}
    (h : ReachableWhen blk backing ok σ) : DepLocks σ :=
  h.invariant ⟨fun _ ht => (by cases ht), fun _ hd => (by cases hd)⟩
    fun _ _ _ hr ih _ hs => ih.step (queue_of_reach hr) (core_of_reach hr) hs

/-- **A lock that is held is held by a thread.** -/
theorem holder_of_isHeld {ok : SchedulerState W R B → Action W → Prop}
    (h : ReachableWhen blk backing ok σ) : Owned σ.shared.isHeld σ.Holds := by
  intro l hl
  cases l with
  | tx t =>
    have hcore := core_of_reach h
    cases hlock : σ.shared.txLocks t with
    | none => simp [Shared.isHeld, hlock] at hl
    | some holder =>
      cases holder with
      | worker w => exact ⟨.worker w, (hcore.locked w t).mp hlock⟩
      | finality => exact ⟨.finality, (hcore.finalityLock t).mp hlock⟩
  | dependent t =>
    obtain ⟨w, hw⟩ := (depLocks_of_reach h).dependent t hl
    exact ⟨.worker w, hw⟩
  | affects d =>
    obtain ⟨w, hw⟩ := (depLocks_of_reach h).affects d hl
    exact ⟨.worker w, hw⟩

end

/-! ## What the next access takes -/

def RemovePc.wants (d : Nat) : RemovePc → List Lock
  | .start => [.affects d]
  | .each (tx :: _) _ => [.dependent tx]
  | _ => []

def AddPc.wants (t : Nat) (blocker : Option Nat) (pc : AddPc) : List Lock :=
  match blocker, pc with
  | some d, .start => [.affects d]
  | some d, .depState => [.dependent d]
  | _, _ => [.dependent t]

def ExecPc.wants (t : Nat) : ExecPc R B → List Lock
  | .adding _ blocker pc | .errAdding blocker pc => pc.wants t blocker
  | .releasing _ pc => pc.wants t
  | .keying => [.dependent t]
  | _ => []

/-- The locks the next access of a worker takes; a loop over a set takes
the elements in the order of its list. -/
def WorkerPc.wants : WorkerPc R B → List Lock
  | .claimLock t | .executionTask t _ => [.tx t]
  | .task (.execution v) | .task (.validation v) => [.tx v.txid]
  | .dependencyLock t => [.dependent t]
  | .useless d _ pc => pc.wants d
  | .exec v pc => pc.wants v.txid
  | .val v (.adding blocker pc) => pc.wants v.txid blocker
  | _ => []

/-- A deferred reward comes without a finalized beneficiary account. -/
def SpeculativeResult.RewardApart (beneficiary : Address) (x : SpeculativeResult R) : Prop :=
  x.deferredReward.isSome → x.state.lookup beneficiary = none

section

variable {blk : Block Err R} {s : Shared W R B} {v : TxVersion}

theorem pick?_cons_zero {α : Type} (x : α) (l : List α) : pick? (x :: l) 0 = some (x, l) := rfl

theorem Publishing.next_isSome (beneficiary : Address)
    (snapshots : AList (fun _ : Address => AccountBasic)) {p : Publishing}
    (h : p.finished = false) : ∃ write p', p.next beneficiary snapshots 0 = some (write, p') := by
  obtain ⟨first, slots, accounts, writeSet⟩ := p
  cases first with
  | cons write first => exact ⟨_, _, rfl⟩
  | nil =>
    cases slots with
    | cons write slots => exact ⟨_, _, rfl⟩
    | nil =>
      cases accounts with
      | cons account accounts => exact ⟨_, _, rfl⟩
      | nil => cases h

theorem fromExecution_isSome {x : SpeculativeResult R} {beneficiary : Address}
    (h : x.RewardApart beneficiary) :
    ∃ effect, BeneficiaryEffect.fromExecution x.deferredReward (x.state.lookup beneficiary)
      = some effect := by
  cases hr : x.deferredReward with
  | none =>
    cases hl : x.state.lookup beneficiary with
    | none => exact ⟨_, rfl⟩
    | some account =>
      simp only [BeneficiaryEffect.fromExecution]
      split <;> exact ⟨_, rfl⟩
  | some reward =>
    rw [h (by rw [hr]; rfl)]
    exact ⟨_, rfl⟩

theorem removeStep_isSome {dep : TxDependency} {d : Nat} (popNext : Bool) {pc : RemovePc}
    (h : ∀ l ∈ pc.wants d, ({ s with txDependency := dep } : Shared W R B).isHeld l = false) :
    ∃ dep' next, removeStep dep d popNext pc 0 = some (dep', next) := by
  cases pc with
  | start =>
    have hfree : dep.affectLocked d = false := h _ (List.mem_singleton_self _)
    simp only [removeStep, hfree, Bool.false_eq_true, if_false]
    split <;> exact ⟨_, _, rfl⟩
  | each remaining next =>
    cases remaining with
    | nil => exact ⟨_, _, rfl⟩
    | cons tx rest =>
      have hfree : dep.dependentLocked tx = false := h _ (List.mem_singleton_self _)
      simp only [removeStep, pick?_cons_zero, Option.bind_some, hfree, Bool.false_eq_true,
        if_false]
      repeat' split
      all_goals exact ⟨_, _, rfl⟩
  | rewind tx remaining next => exact ⟨_, _, rfl⟩

/-- `add` needs a blocker that precedes, and its locks one by one. -/
theorem addStep_isSome {t : Nat} {blocker : Option Nat} {pc : AddPc}
    (h : ∀ l ∈ pc.wants t blocker, s.isHeld l = false) (hbelow : DependencyBelow blocker t) :
    ∃ dep' res, addStep s.txDependency t blocker pc = some (dep', res) := by
  cases blocker with
  | none =>
    have hfree : s.txDependency.dependentLocked t = false := by
      refine h (.dependent t) ?_
      cases pc <;> exact List.mem_singleton_self _
    simp only [addStep, hfree, Bool.false_eq_true, if_false]
    split <;> exact ⟨_, _, rfl⟩
  | some d =>
    cases pc with
    | start =>
      have hfree : s.txDependency.affectLocked d = false := h _ (List.mem_singleton_self _)
      simp [addStep, hfree, Nat.not_le.mpr (hbelow d rfl)]
    | depState =>
      have hfree : s.txDependency.dependentLocked d = false := h _ (List.mem_singleton_self _)
      simp [addStep, hfree]
    | state =>
      have hfree : s.txDependency.dependentLocked t = false := h _ (List.mem_singleton_self _)
      simp [addStep, hfree]

/-- An execution whose locks are free can move. -/
theorem execStep_isSome {pc : ExecPc R B} (hfree : ∀ l ∈ pc.wants v.txid, s.isHeld l = false)
    (hbelow : ExecBelow v.txid pc)
    (hapart : pc.Yields (SpeculativeResult.RewardApart blk.beneficiary)) :
    (execStep blk s v pc 0).isSome = true := by
  cases pc with
  | running db k pc | errRecording db error | errHead error | errAbort reason pc
  | rewinding tail pc | parallelError message pc =>
    simp only [execStep]
    split <;> rfl
  | publishing db r p =>
    simp only [execStep]
    split
    · rfl
    · rename_i hfinished
      obtain ⟨write, p', hnext⟩ := Publishing.next_isSome blk.beneficiary db.accountSnapshots
        (Bool.eq_false_iff.mpr hfinished)
      cases write <;> simp [hnext]
  | removing e remaining | errMarking db error remaining => cases remaining <;> rfl
  | recording e =>
    obtain ⟨effect, heffect⟩ := fromExecution_isSome hapart
    simp only [execStep, heffect]
    split <;> split <;> rfl
  | adding e blocker pc =>
    obtain ⟨dep', res, hadd⟩ := addStep_isSome hfree hbelow.2
    cases res <;> simp [execStep, hadd]
  | releasing e pc =>
    obtain ⟨dep', next, hremove⟩ := removeStep_isSome true hfree
    cases next <;> simp [execStep, hremove]
  | errAdding blocker pc =>
    obtain ⟨dep', res, hadd⟩ := addStep_isSome hfree hbelow
    cases res <;> simp [execStep, hadd]
  | keying =>
    obtain ⟨dep', rewind, hkey⟩ := TxDependency.keyTx_isSome s.ctx.committed
      (hfree (.dependent v.txid) (List.mem_singleton_self _))
    cases rewind <;> simp [execStep, hkey]
  | frontier tail pc =>
    simp only [execStep]
    split
    · rfl
    · split <;> rfl
  | blockerLoad e | settling e next | errBlockerLoad db | keyingRewind | errSettling => rfl

theorem valStep_isSome {pc : ValPc}
    (hfree : ∀ l ∈ (WorkerPc.val v pc : WorkerPc R B).wants, s.isHeld l = false)
    (hbelow : ValBelow v.txid pc) : (valStep blk s v pc 0).isSome = true := by
  cases pc with
  | scanning ts remaining conflict dependency =>
    cases remaining with
    | nil => cases conflict <;> rfl
    | cons e remaining =>
      obtain ⟨l, version⟩ := e
      cases version <;> rfl
  | scanningHistory ts remaining conflict dependency expected scan | rewinding dependency pc
  | parallelError message pc =>
    simp only [valStep]
    split <;> rfl
  | marking dependency remaining => cases remaining <;> rfl
  | invalidating dependency =>
    simp only [valStep]
    split
    · split <;> rfl
    · rfl
  | adding blocker pc =>
    obtain ⟨dep', res, hadd⟩ := addStep_isSome hfree hbelow
    cases res <;> simp [valStep, hadd]
  | blockerLoad dependency | unconfirming ts dependency => rfl

/-- **A worker whose locks are free can move**, until it has returned. -/
theorem workerStep_isSome {w : W} {p : WorkerPc R B}
    (hfree : ∀ l ∈ p.wants, s.isHeld l = false) (hbelow : PcBelow p)
    (hapart : ∀ v pc, p = .exec v pc →
      pc.Yields (SpeculativeResult.RewardApart blk.beneficiary))
    (hp : p ≠ .finished) : (workerStep blk w s p 0).isSome = true := by
  have htx : ∀ t, Lock.tx t ∈ p.wants → s.txLocks t = none := by
    intro t ht
    simpa [Shared.isHeld] using hfree _ ht
  cases p with
  | scheduleFrontier pc | claimFrontier executingIdx pc | claimCas limit current =>
    simp only [workerStep]
    split <;> rfl
  | claimLock t | executionTask t fromNext =>
    simp only [workerStep, htx t (List.mem_singleton_self _)]
    simp only [Option.isSome_none, Bool.false_eq_true, if_false]
    split <;> rfl
  | dependencyLock t =>
    obtain ⟨dep', claimed, hclaim⟩ :=
      TxDependency.claim_isSome (hfree (.dependent t) (List.mem_singleton_self _))
    simp [workerStep, hclaim]
  | useless d fromNext pc =>
    obtain ⟨dep', next, hremove⟩ := removeStep_isSome false hfree
    cases next <;> simp [workerStep, hremove]
  | task task =>
    cases task with
    | execution v =>
      simp only [workerStep, startExecution, htx v.txid (List.mem_singleton_self _)]
      simp only [Option.isSome_none, Bool.false_eq_true, if_false]
      split
      · rfl
      · split <;> rfl
    | validation v =>
      simp only [workerStep, startValidation, htx v.txid (List.mem_singleton_self _)]
      simp only [Option.isSome_none, Bool.false_eq_true, if_false]
      repeat' split
      all_goals rfl
  | exec v pc => exact execStep_isSome hfree hbelow (hapart v pc rfl)
  | val v pc => exact valStep_isSome hfree hbelow
  | finished => exact absurd rfl hp
  | _ => rfl

/-- The finality thread waits for the lock of its candidate alone; the
choice lets `park_timeout` run out. -/
theorem finalityStep_isSome {t : FinalityThread}
    (hfree : ∀ use, t.pc = .candidateLock use → s.txLocks t.idx = none) (hp : t.pc ≠ .finished) :
    (finalityStep blk s t 1).isSome = true := by
  unfold finalityStep
  split
  case h_4 use hpc =>
    rw [hfree use hpc]
    simp only [Option.isSome_none, Bool.false_eq_true, if_false]
    split <;> rfl
  case h_6 =>
    repeat' split
    all_goals rfl
  case h_12 => rw [if_pos (.inr Nat.one_ne_zero)]; rfl
  case h_13 hpc => exact absurd hpc hp
  all_goals first | rfl | (split <;> rfl)

theorem startReward_isSome (t : CommitThread R B) (previous : Nat) {x : SpeculativeResult R}
    (h : x.RewardApart blk.beneficiary) : ∃ t', startReward blk t previous x = some t' := by
  cases hr : x.deferredReward with
  | none => simp [startReward, hr]
  | some amount =>
    have hnone := h (by rw [hr]; rfl)
    simp [startReward, hr, hnone]

/-- The choice with which the commit loop goes on. -/
def CommitLoopPc.choice : CommitLoopPc R B → Nat
  | .park => 1
  | _ => 0

/-- The commit loop waits for the lock of the successor it releases
alone, if `ParallelStateCommit::commit` does not panic. -/
theorem commitLoopStep_isSome {t : CommitThread R B}
    (hfree : ∀ previous, t.pc = .release previous →
      t.idx + 1 < blk.size → s.txDependency.dependentLocked (t.idx + 1) = false)
    (hresults : ∀ r x, s.txResults t.idx = some r → r.executeResult = .ok x →
      x.RewardApart blk.beneficiary)
    (hapart : t.pc.Yields (SpeculativeResult.RewardApart blk.beneficiary))
    (hcommit : ∀ previous result pc, t.pc = .applying previous result pc →
      (B.commitStep s.backing pc 0).isSome = true)
    (hp : ∀ error, t.pc ≠ .finished error) :
    (commitLoopStep blk s t t.pc.choice).isSome = true := by
  unfold commitLoopStep
  split
  case h_4 previous hpc =>
    dsimp only
    split
    · rfl
    · rename_i r hr
      split
      · rfl
      · rename_i x hx
        split
        · obtain ⟨t', ht'⟩ := startReward_isSome t previous (hresults r x hr hx)
          rw [ht']
          rfl
        · rfl
  case h_5 previous x pc hpc =>
    rw [hpc] at hapart
    split
    · rfl
    · rfl
    · split
      · obtain ⟨t', ht'⟩ := startReward_isSome t previous hapart
        rw [ht']
        rfl
      · rfl
  case h_7 previous result pc hpc =>
    have hsome := hcommit previous result pc hpc
    rw [hpc]
    simp only [CommitLoopPc.choice]
    split
    · rfl
    · rfl
    · rename_i hnone
      simp [hnone] at hsome
  case h_9 previous hpc =>
    obtain ⟨dep', hrelease⟩ := TxDependency.commit_isSome (hfree previous hpc)
    rw [hrelease]
    rfl
  case h_12 hpc =>
    rw [if_pos (.inr (by rw [hpc]; exact Nat.one_ne_zero))]
    rfl
  case h_14 error hpc => exact absurd hpc (hp error)
  all_goals first | rfl | (split <;> rfl)

end

/-! ## Threads -/

section

variable (blk : Block Err R) (σ : SchedulerState W R B)

/-- The locks the next access of a thread takes. -/
def SchedulerState.wants : Thread W → List Lock
  | .worker w => (σ.workers w).wants
  | .finality =>
    match σ.finality.pc with
    | .candidateLock _ => [.tx σ.finality.idx]
    | _ => []
  | .commit =>
    match σ.commit.pc with
    | .release _ => if σ.commit.idx + 1 < blk.size then [.dependent (σ.commit.idx + 1)] else []
    | _ => []

def SchedulerState.Returned : Thread W → Prop
  | .worker w => σ.workers w = .finished
  | .finality => σ.finality.pc = .finished
  | .commit => ∃ error, σ.commit.pc = .finished error

/-- A choice with which the thread goes on. -/
def SchedulerState.choice : Thread W → Nat
  | .worker _ => 0
  | .finality => 1
  | .commit => σ.commit.pc.choice

/-- `ParallelStateCommit::commit` does not panic. -/
def SchedulerState.CommitGoesOn : Prop :=
  ∀ previous result pc, σ.commit.pc = .applying previous result pc →
    (B.commitStep σ.shared.backing pc 0).isSome = true

end

/-- The order in which a thread takes locks: the last one first. The
dependency states are taken in the order of the block. -/
def Lock.rank (numTxs : Nat) : Lock → Nat
  | .tx _ => numTxs + 2
  | .affects _ => numTxs + 1
  | .dependent t => numTxs - t

section

variable {blk : Block Err R} {σ : SchedulerState W R B} {n : Nat} {l l' : Lock}

theorem RemovePc.wants_lt {d : Nat} {pc : RemovePc} (hl : l ∈ pc.wants d) :
    l.rank n < n + 2 ∧ (∀ d', (pc.tokens d).Edges d' → l.rank n < n + 1) ∧
      ∀ t, ¬ (pc.tokens d).Dependent t := by
  cases pc with
  | start =>
    obtain rfl := List.mem_singleton.mp hl
    simp [Lock.rank, Tokens.Edges, Tokens.Dependent, RemovePc.tokens]
  | each remaining next =>
    cases remaining with
    | nil => cases hl
    | cons tx rest =>
      obtain rfl := List.mem_singleton.mp hl
      exact ⟨by simp only [Lock.rank]; omega, fun _ _ => by simp only [Lock.rank]; omega,
        by simp [Tokens.Dependent, RemovePc.tokens]⟩
  | rewind tx remaining next => cases hl

/-- With the blocker's state locked `add` waits for the state of the
transaction, which comes later in the block. -/
theorem AddPc.wants_lt {t : Nat} {blocker release : Option Nat} {pc : AddPc}
    (hbelow : DependencyBelow blocker t) (ht : t < n) (hl : l ∈ pc.wants t blocker) :
    l.rank n < n + 2 ∧
      (∀ d, Tokens.Edges { release, adding := pc.holding blocker } d → l.rank n < n + 1) ∧
      ∀ d, Tokens.Dependent { release, adding := pc.holding blocker } d → l.rank n < n - d := by
  cases blocker with
  | none =>
    have hnone : pc.holding none = none := by cases pc <;> rfl
    have heq : l = .dependent t := by cases pc <;> exact List.mem_singleton.mp hl
    subst heq
    simp only [Lock.rank, hnone]
    exact ⟨by omega, by simp [Tokens.Edges], by simp [Tokens.Dependent]⟩
  | some d =>
    have hlt := hbelow d rfl
    cases pc with
    | start =>
      obtain rfl := List.mem_singleton.mp hl
      simp [Lock.rank, Tokens.Edges, Tokens.Dependent, AddPc.holding]
    | depState =>
      obtain rfl := List.mem_singleton.mp hl
      simp only [Lock.rank]
      exact ⟨by omega, fun _ _ => by omega, by simp [Tokens.Dependent, AddPc.holding]⟩
    | state =>
      obtain rfl := List.mem_singleton.mp hl
      simp only [Lock.rank]
      refine ⟨by omega, fun _ _ => by omega, fun d' hd' => ?_⟩
      obtain rfl : d = d' := by simpa [Tokens.Dependent, AddPc.holding] using hd'
      omega

theorem WorkerPc.wants_lt {p : WorkerPc R B} (hbelow : PcBelow p) (hwithin : p.Within n)
    (hl : l ∈ p.wants) :
    (p.locked.isSome → l.rank n < n + 2) ∧ (∀ d, p.tokens.Edges d → l.rank n < n + 1) ∧
      ∀ t, p.tokens.Dependent t → l.rank n < n - t := by
  have hnone : p.locked = none → p.tokens.removing = none ∧ p.tokens.adding = none →
      p.tokens.rewind = none →
      (p.locked.isSome → l.rank n < n + 2) ∧ (∀ d, p.tokens.Edges d → l.rank n < n + 1) ∧
        ∀ t, p.tokens.Dependent t → l.rank n < n - t := by
    intro hlocked hedges hrewind
    refine ⟨by simp [hlocked], fun d hd => absurd hd (Tokens.not_edges hedges d), fun t ht => ?_⟩
    simp [Tokens.Dependent, hedges.2, hrewind] at ht
  cases p with
  | claimLock t | executionTask t fromNext | dependencyLock t => exact hnone rfl ⟨rfl, rfl⟩ rfl
  | task task => cases task <;> exact hnone rfl ⟨rfl, rfl⟩ rfl
  | useless d fromNext pc =>
    obtain ⟨-, hedges, hdependent⟩ := RemovePc.wants_lt hl
    exact ⟨by simp [locked], hedges, fun t ht => absurd ht (hdependent t)⟩
  | exec v pc =>
    cases pc with
    | adding e blocker pc =>
      obtain ⟨hlt, hedges, hdependent⟩ := AddPc.wants_lt hbelow.2 hwithin.1 hl
      exact ⟨fun _ => hlt, hedges, hdependent⟩
    | errAdding blocker pc =>
      obtain ⟨hlt, hedges, hdependent⟩ := AddPc.wants_lt hbelow hwithin.1 hl
      exact ⟨fun _ => hlt, hedges, hdependent⟩
    | releasing e pc =>
      obtain ⟨hlt, hedges, hdependent⟩ := RemovePc.wants_lt hl
      exact ⟨fun _ => hlt, hedges, fun t ht => absurd ht (hdependent t)⟩
    | keying =>
      obtain rfl := List.mem_singleton.mp hl
      refine ⟨fun _ => by simp only [Lock.rank]; omega, ?_, ?_⟩
      · simp [Tokens.Edges, tokens, ExecPc.tokens]
      · simp [Tokens.Dependent, tokens, ExecPc.tokens]
    | _ => cases hl
  | val v pc =>
    cases pc with
    | adding blocker pc =>
      obtain ⟨hlt, hedges, hdependent⟩ := AddPc.wants_lt hbelow hwithin hl
      exact ⟨fun _ => hlt, hedges, hdependent⟩
    | _ => cases hl
  | _ => cases hl

/-- **Locks are taken in one order.** -/
theorem lockOrder_of_reach [DecidableEq W] {backing : B.State}
    {ok : SchedulerState W R B → Action W → Prop} (h : ReachableWhen blk backing ok σ) :
    Ordered (Lock.rank blk.size) (fun th l => l ∈ σ.wants blk th) σ.Holds := by
  intro th l l' hholds hl'
  cases th with
  | worker w =>
    obtain ⟨htx, haffects, hdependent⟩ :=
      WorkerPc.wants_lt (pcBelow_of_reach h w) ((inBlock_of_reach h).2 w) hl'
    cases l with
    | tx t => exact htx (by rw [show (σ.workers w).locked = some t from hholds]; rfl)
    | dependent t => exact hdependent t hholds
    | affects d => exact haffects d hholds
  | finality =>
    cases l with
    | tx t =>
      obtain ⟨hlocks, -⟩ := hholds
      cases hpc : σ.finality.pc <;> simp_all [SchedulerState.wants, FinalityPc.locks]
    | dependent t | affects d => cases hholds
  | commit => cases hholds

variable {th : Thread W}

theorem SchedulerState.Holds.not_returned (h : σ.Holds th l) : ¬ σ.Returned th := by
  intro hr
  cases th with
  | worker w =>
    have hw : σ.workers w = .finished := hr
    cases l <;> simp [SchedulerState.Holds, WorkerPc.Holds, hw, WorkerPc.locked,
      WorkerPc.tokens, Tokens.Dependent, Tokens.Edges] at h
  | finality =>
    have hpc : σ.finality.pc = .finished := hr
    cases l <;> simp [SchedulerState.Holds, hpc, FinalityPc.locks] at h
  | commit => cases h

variable [DecidableEq W] {backing : B.State} {c : Nat} {shared : Shared W R B}

theorem step_worker {w : W} {pc : WorkerPc R B}
    (h : workerStep blk w σ.shared (σ.workers w) c = some (shared, pc)) :
    step blk σ ⟨.worker w, c⟩ =
      some { σ with shared, workers := Function.update σ.workers w pc } := by
  simp [step, h]

theorem step_finality {finality : FinalityThread}
    (h : finalityStep blk σ.shared σ.finality c = some (shared, finality)) :
    step blk σ ⟨.finality, c⟩ = some { σ with shared, finality } := by
  simp [step, h]

theorem step_commit {commit : CommitThread R B}
    (h : commitLoopStep blk σ.shared σ.commit c = some (shared, commit)) :
    step blk σ ⟨.commit, c⟩ = some { σ with shared, commit } := by
  simp [step, h]

/-- **A thread whose locks are free can move**, until it has returned. -/
theorem step_of_free (h : Reachable blk backing σ)
    (hapart : ∀ t, (blk.spec t).Yields (SpeculativeResult.RewardApart blk.beneficiary))
    (hcommit : th = .commit → σ.CommitGoesOn)
    (hfree : ∀ l ∈ σ.wants blk th, σ.shared.isHeld l = false) (hth : ¬ σ.Returned th) :
    ∃ σ', step blk σ ⟨th, σ.choice th⟩ = some σ' := by
  have hyielded := yielded_of_reach hapart h
  cases th with
  | worker w =>
    have hsome : (workerStep blk w σ.shared (σ.workers w) 0).isSome = true :=
      workerStep_isSome hfree (pcBelow_of_reach h w) (hyielded.workers w) hth
    obtain ⟨⟨shared, pc⟩, hstep⟩ := Option.isSome_iff_exists.mp hsome
    exact ⟨_, step_worker hstep⟩
  | finality =>
    have hsome : (finalityStep blk σ.shared σ.finality 1).isSome = true := by
      refine finalityStep_isSome (fun use hpc => ?_) hth
      have hl := hfree (.tx σ.finality.idx) (by simp [SchedulerState.wants, hpc])
      simpa [Shared.isHeld] using hl
    obtain ⟨⟨shared, finality⟩, hstep⟩ := Option.isSome_iff_exists.mp hsome
    exact ⟨_, step_finality hstep⟩
  | commit =>
    have hsome : (commitLoopStep blk σ.shared σ.commit σ.commit.pc.choice).isSome = true := by
      refine commitLoopStep_isSome (fun previous hpc hlt => ?_)
        (fun r x hr hx => hyielded.results _ r x hr hx) hyielded.commit (hcommit rfl)
        fun error he => hth ⟨error, he⟩
      exact hfree (.dependent (σ.commit.idx + 1)) (by simp [SchedulerState.wants, hpc, hlt])
    obtain ⟨⟨shared, commit⟩, hstep⟩ := Option.isSome_iff_exists.mp hsome
    exact ⟨_, step_commit hstep⟩

end

end Grevm
