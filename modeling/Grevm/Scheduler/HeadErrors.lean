/-
Grevm.Scheduler.HeadErrors — an execution that fails at the committed cursor.

A worker whose execution ends in an error compares the committed cursor
with its transaction, and aborts the block when they are equal. The
cursor says nothing about the reads of the execution, which may be older
than the commits that moved it. `HeadStarts` excludes that: the cursor
does not reach a transaction inside one of its executions. Every read of
an execution that fails at the cursor then sees the final prefix alone,
which no step changes any more, so the error is the one the program of
the transaction has against the view of that prefix (`HeadInv`). That
view is the one of the sequential execution (`Serial`).
-/
import Grevm.Scheduler.Retry
import Grevm.Scheduler.Safety
import Grevm.Scheduler.Serial

namespace Grevm

variable {Err W R : Type} {B : Backing Err}

/-! ## State reads over any backing -/

/-- The same state read over the base itself. -/
def CallPc.toBase (base : Base Err) : CallPc B → CallPc base.backing
  | .basicMv address => .basicMv address
  | .basicScan address scan => .basicScan address scan
  | .basicBacking address _ => .basicBacking address address
  | .codeMv address info => .codeMv address info
  | .codeBacking address info _ => .codeBacking address info info.codeHash
  | .storageReset address index => .storageReset address index
  | .storageSlot address index resetTxid => .storageSlot address index resetTxid
  | .storageBacking address index _ => .storageBacking address index (address, index)

section

variable {base : Base Err} {mv : MVMemory} {history : Nat → EntryState} {txid : Nat}
  {backing backing' : B.State} {db db' : IncarnationDb}

/-- What an access came to, over the base. -/
def toBaseResult (base : Base Err) :
    CallPc B ⊕ Except Err Value → CallPc base.backing ⊕ Except Err Value :=
  Sum.map (CallPc.toBase base) id

theorem toBase_finishBasic {address : Address} {account : Option AccountInfo} :
    toBaseResult base (finishBasic address account : CallPc B ⊕ Except Err Value) =
      finishBasic address account := by
  unfold finishBasic
  split
  · split <;> rfl
  · rfl

/-- An access stays in its call to the backing, or is the access of the
same state read over the base. -/
theorem callStep_toBase {pc : CallPc B} {result : CallPc B ⊕ Except Err Value}
    (hbacked : pc.BackedBy base backing)
    (hstep : callStep base.anchor txid mv history backing db pc = (backing', db', result)) :
    toBaseResult base result = .inl (pc.toBase base) ∨
      (callStep base.anchor txid mv history () db (pc.toBase base)).2.2 =
        toBaseResult base result := by
  cases callStep_sound hstep with
  | visit hs | block hs => exact .inr (by simp only [callStep, CallPc.toBase, hs]; rfl)
  | resolve hs hnext =>
    simp only [callStep, CallPc.toBase, hs, ← hnext]
    exact .inr toBase_finishBasic.symm
  | basicHit hl hdata hnext =>
    simp only [callStep, CallPc.toBase, hl, hdata, ← hnext]
    exact .inr toBase_finishBasic.symm
  | basicMiss hl | codeMiss hl => exact .inr (by simp only [callStep, CallPc.toBase, hl]; rfl)
  | codeHit hl hdata => exact .inr (by simp only [callStep, CallPc.toBase, hl, hdata]; rfl)
  | basicMore | codeMore | storageMore => exact .inl rfl
  | basicLoads hb hnext =>
    simp only [callStep, CallPc.toBase, Base.backing, ← hbacked _ _ hb, ← hnext]
    exact .inr toBase_finishBasic.symm
  | basicFails hb | codeFails hb | codeLoads hb | storageFails hb | storageLoads hb =>
    refine .inr ?_
    simp only [callStep, CallPc.toBase, Base.backing, ← hbacked _ _ hb]
    rfl
  | reset => exact .inr rfl
  | @slotHit _ _ resetTxid _ entry _ hl hdata hreset =>
    obtain ⟨n, _, estimate⟩ := entry
    cases hdata
    cases resetTxid with
    | none => exact .inr (by simp only [callStep, CallPc.toBase, hl]; rfl)
    | some reset => exact .inr (by simp [callStep, CallPc.toBase, hl, hreset _ rfl, toBaseResult])
  | @slotCleared address index reset hlt =>
    cases hl : lookup mv txid (.storage address index) with
    | none => exact .inr (by simp only [callStep, CallPc.toBase, hl]; rfl)
    | some slot =>
      obtain ⟨writer, n, _, estimate⟩ := slot
      have hlt : ¬ reset ≤ writer := Nat.not_le.mpr (hlt _ _ hl)
      obtain ⟨value, hdata⟩ := storage_of_lookup hl
      cases hdata
      exact .inr (by simp [callStep, CallPc.toBase, hl, hlt, toBaseResult])
  | slotMiss hl => exact .inr (by simp only [callStep, CallPc.toBase, hl]; rfl)

/-- The answer the state read is on its way to. -/
def CallPc.target (base : Base Err) (mv : MVMemory) (history : Nat → EntryState) (txid : Nat)
    (pc : CallPc B) : Except Err Value :=
  (pc.toBase base).answer base mv history txid

/-- What an access came to keeps the answer. -/
theorem callStep_target {pc : CallPc B} {result : CallPc B ⊕ Except Err Value}
    (hbacked : pc.BackedBy base backing)
    (hstep : callStep base.anchor txid mv history backing db pc = (backing', db', result)) :
    result.elim (CallPc.target base mv history txid) id = pc.target base mv history txid := by
  rcases callStep_toBase hbacked hstep with heq | heq
  · cases result with
    | inl pc' => exact congrArg (CallPc.answer base mv history txid) (Sum.inl.inj heq)
    | inr a => cases heq
  · refine Eq.trans ?_ (callStep_answer db)
    rw [heq]
    cases result <;> rfl

theorem target_start (call : Call) :
    (call.start base.beneficiary txid : CallPc B).target base mv history txid =
      (base.view mv history txid).eval call := by
  have hstart : (call.start base.beneficiary txid : CallPc B).toBase base =
      call.start base.beneficiary txid := by
    cases call with
    | basic address =>
      simp only [Call.start]
      split <;> rfl
    | storage address index => rfl
  rw [CallPc.target, hstart, answer_start]

end

/-! ## Workers run transactions of the block -/

/-- `remove` visits and hands out transactions below `n`. -/
def RemovePc.Within (n : Nat) : RemovePc → Prop
  | .start => True
  | .each remaining next | .rewind _ remaining next =>
    (∀ t, t ∈ remaining → t < n) ∧ ∀ t, next = some t → t < n

def ExecPc.Within (n : Nat) : ExecPc R B → Prop
  | .releasing _ pc => pc.Within n
  | .settling _ next => ∀ t, next = some t → t < n
  | .frontier tail _ | .rewinding tail _ => ∀ t, tail = .handOff t → t < n
  | _ => True

/-- The worker is about to run a transaction below `n`, or runs one. -/
def WorkerPc.Within (n : Nat) : WorkerPc R B → Prop
  | .dependencyLock t | .executionTask t _ => t < n
  | .task (.execution v) | .task (.validation v) | .val v _ => v.txid < n
  | .useless _ _ pc => pc.Within n
  | .exec v pc => v.txid < n ∧ pc.Within n
  | _ => True

structure InBlock (n : Nat) (s : Shared W R B) : Prop where
  affects : ∀ d t, t ∈ s.txDependency.affectTxs d → t < n
  begun : ∀ t, (s.txStates t).status ≠ .initial → t < n

section

variable {blk : Block Err R} {n : Nat} {s s' : Shared W R B} {v : TxVersion} {p p' : WorkerPc R B}
  {w : W} {dep dep' : TxDependency}

theorem AddStep.mem_affectTxs {t : Nat} {blocker : Option Nat} {pc : AddPc} {res : Option AddPc}
    (h : AddStep dep t blocker pc dep' res) {d u : Nat} (hu : u ∈ dep'.affectTxs d) :
    u ∈ dep.affectTxs d ∨ u = t ∧ blocker = some d := by
  cases h with
  | @link b _ hlink =>
    rw [hlink.affects] at hu
    by_cases hd : d = b
    · subst hd
      rw [Function.update_self] at hu
      exact (List.mem_insert_iff.mp hu).symm.imp_right fun heq => ⟨heq, rfl⟩
    · rw [Function.update_of_ne hd] at hu
      exact .inl hu
  | _ => exact .inl hu

theorem RemoveStep.within {d : Nat} {popNext : Bool} {pc : RemovePc}
    {result : RemovePc ⊕ Option Nat} (h : RemoveStep dep d popNext pc dep' result)
    (haffects : ∀ d t, t ∈ dep.affectTxs d → t < n) (hpc : pc.Within n) :
    (∀ d t, t ∈ dep'.affectTxs d → t < n) ∧
      result.elim (RemovePc.Within n) fun next => ∀ t, next = some t → t < n := by
  cases h with
  | empty => exact ⟨haffects, fun t ht => by cases ht⟩
  | start => exact ⟨haffects, haffects d, fun t ht => by cases ht⟩
  | finish =>
    refine ⟨fun d' t ht => ?_, hpc.2⟩
    by_cases hd : d' = d
    · subst hd
      simp at ht
    · exact haffects d' t (by simpa [Function.update_of_ne hd] using ht)
  | pop hp =>
    have hmem := mem_of_pick? hp
    refine ⟨haffects, fun t ht => hpc.1 t ((hmem t).mpr (.inr ht)), fun t ht => ?_⟩
    cases ht
    exact hpc.1 _ ((hmem _).mpr (.inl rfl))
  | clear hp | clearOff hp | skip hp =>
    exact ⟨haffects, fun t ht => hpc.1 t ((mem_of_pick? hp t).mpr (.inr ht)), hpc.2⟩
  | rewind => exact ⟨haffects, hpc⟩

theorem within_enterExec {db : IncarnationDb} {t : Nat} {prog : Prog Err R} :
    (enterExec blk s t db prog : ExecPc R B).Within n := by
  cases prog with
  | read => trivial
  | done result => cases result <;> trivial

theorem within_finishExec {tail : ExecTail} (hv : v.txid < n)
    (htail : ∀ t, tail = .handOff t → t < n) :
    (finishExec s v tail).1.txDependency = s.txDependency ∧ (finishExec s v tail).2.Within n := by
  cases tail with
  | handOff next => exact ⟨rfl, htail next rfl⟩
  | revalidate => exact ⟨rfl, hv⟩
  | conflict | rewind => exact ⟨rfl, trivial⟩

theorem ExecStep.within {pc : ExecPc R B} (h : ExecStep blk s v pc s' p')
    (haffects : ∀ d t, t ∈ s.txDependency.affectTxs d → t < n) (hv : v.txid < n)
    (hpc : pc.Within n) :
    (∀ d t, t ∈ s'.txDependency.affectTxs d → t < n) ∧ p'.Within n := by
  have hadd : ∀ {blocker pc dep' res}, addStep s.txDependency v.txid blocker pc = some (dep', res) →
      ∀ d t, t ∈ dep'.affectTxs d → t < n := by
    intro blocker pc dep' res h d t ht
    rcases (addStep_sound h).mem_affectTxs ht with ht | ⟨rfl, -⟩
    · exact haffects d t ht
    · exact hv
  cases h
  case answer => exact ⟨haffects, hv, within_enterExec⟩
  case addLock h | errAddLock h | errAddBlocker h => exact ⟨hadd h, hv, trivial⟩
  case addBlocker h => exact ⟨hadd h, hv, fun t ht => by cases ht⟩
  case recordExact | keyRewind => exact ⟨haffects, hv, trivial⟩
  case release h =>
    obtain ⟨haffects', hpc'⟩ := (removeStep_sound h).within haffects hpc
    exact ⟨haffects', hv, hpc'⟩
  case released h =>
    obtain ⟨haffects', hnext⟩ := (removeStep_sound h).within haffects hpc
    exact ⟨haffects', hv, hnext⟩
  case settle e next =>
    refine ⟨haffects, hv, fun t ht => ?_⟩
    cases next with
    | some next =>
      cases ht
      exact hpc _ rfl
    | none =>
      dsimp only at ht
      split at ht
      · cases ht
      · split at ht <;> cases ht
  case errRecord db _ _ _ =>
    refine ⟨haffects, hv, ?_⟩
    split <;> trivial
  case key h | keyBehind h =>
    obtain ⟨-, -, -, -, heq, -⟩ := TxDependency.keyTx_eq h
    exact ⟨fun d t ht => haffects d t (heq ▸ ht), hv, trivial⟩
  case errSettle => exact ⟨haffects, hv, fun t ht => by cases ht⟩
  case frontier | frontierRewind | rewind => exact ⟨haffects, hv, hpc⟩
  case frontierFinish | rewindFinish =>
    obtain ⟨heq, hp'⟩ := within_finishExec hv hpc
    rw [heq]
    exact ⟨haffects, hp'⟩
  case parallelErrorEnd => exact ⟨haffects, trivial⟩
  all_goals exact ⟨haffects, hv, trivial⟩

theorem ValStep.within {pc : ValPc} (h : ValStep blk s v pc s' p')
    (haffects : ∀ d t, t ∈ s.txDependency.affectTxs d → t < n) (hv : v.txid < n) :
    (∀ d t, t ∈ s'.txDependency.affectTxs d → t < n) ∧ p'.Within n := by
  cases h
  case addLock h =>
    obtain ⟨-, haffect, -⟩ := (addStep_sound h).frame
    exact ⟨fun d t ht => haffects d t (haffect ▸ ht), hv⟩
  case addBlocker h =>
    refine ⟨fun d t ht => ?_, trivial⟩
    rcases (addStep_sound h).mem_affectTxs ht with ht | ⟨rfl, -⟩
    · exact haffects d t ht
    · exact hv
  case unconfirm | parallelErrorEnd => exact ⟨haffects, trivial⟩
  all_goals exact ⟨haffects, hv⟩

theorem WorkerStep.within (hstep : WorkerStep blk w s p s' p') (h : InBlock blk.size s)
    (hp : p.Within blk.size) : InBlock blk.size s' ∧ p'.Within blk.size := by
  have hidle : ∀ {q : WorkerPc R B}, q.isIdle = true → q.Within blk.size := by
    intro q hq
    cases q <;> trivial
  have hnone : ∀ fromNext, (noTask fromNext : WorkerPc R B).Within blk.size := by
    intro fromNext
    cases fromNext <;> trivial
  -- a step that changes the status of `t` only
  have hset : ∀ {t : Nat} {s' : Shared W R B}, t < blk.size →
      s'.txDependency = s.txDependency →
      (∀ u, u ≠ t → s'.txStates u = s.txStates u) → InBlock blk.size s' := by
    intro t s' ht hdep hstates
    refine ⟨by rw [hdep]; exact h.affects, fun u hu => ?_⟩
    by_cases heq : u = t
    · rw [heq]
      exact ht
    · exact h.begun u (by rwa [← hstates u heq])
  cases hstep with
  | idle _ hp' => exact ⟨h, hidle hp'⟩
  | wake | claim | fetchPast => exact ⟨⟨h.affects, h.begun⟩, trivial⟩
  | frontier _ _ hp' => exact ⟨⟨h.affects, h.begun⟩, hidle hp'⟩
  | @claimed t hl hs =>
    have ht : t < blk.size := h.begun t (by rcases hs with hs | hs <;> simp [hs])
    exact ⟨hset ht rfl fun u hu => by simp [hu], ht⟩
  | claimMissed | useless | executeGone | validateGone => exact ⟨h, trivial⟩
  | fetchIndex hlt => exact ⟨⟨h.affects, h.begun⟩, hlt⟩
  | claimDependent hc =>
    rcases TxDependency.claim_eq hc with ⟨-, -, -, rfl⟩ | ⟨hf, -⟩
    · exact ⟨⟨h.affects, h.begun⟩, hp⟩
    · cases hf
  | dependentMissed hc =>
    rcases TxDependency.claim_eq hc with ⟨hf, -⟩ | ⟨-, rfl, -⟩
    · cases hf
    · exact ⟨⟨h.affects, h.begun⟩, trivial⟩
  | @startTask t _ hl hs =>
    have ht : t < blk.size := hp
    exact ⟨hset ht rfl fun u hu => by simp [hu], ht⟩
  | busy => exact ⟨h, hnone _⟩
  | uselessRemove hr =>
    obtain ⟨haffects, hpc⟩ := (removeStep_sound hr).within h.affects hp
    exact ⟨⟨haffects, h.begun⟩, hpc⟩
  | uselessRemoved hr =>
    obtain ⟨haffects, -⟩ := (removeStep_sound hr).within h.affects hp
    exact ⟨⟨haffects, h.begun⟩, hnone _⟩
  | execute hl hs hi => exact ⟨⟨h.affects, h.begun⟩, hp, within_enterExec⟩
  | executeInconsistent => exact ⟨⟨h.affects, h.begun⟩, hp, trivial⟩
  | validate | validateInconsistent => exact ⟨⟨h.affects, h.begun⟩, hp⟩
  | @exec v pc s' p' hs =>
    obtain ⟨haffects, hp'⟩ := hs.within h.affects hp.1 hp.2
    refine ⟨⟨haffects, fun t ht => ?_⟩, hp'⟩
    by_cases heq : t = v.txid
    · rw [heq]
      exact hp.1
    · have hsame := (hs.sameAt heq).1
      have hstate : s'.txStates t = s.txStates t := congrArg Column.state hsame
      exact h.begun t (by rwa [← hstate])
  | @val v pc s' p' hs =>
    obtain ⟨haffects, hp'⟩ := hs.within h.affects hp
    refine ⟨⟨haffects, fun t ht => ?_⟩, hp'⟩
    by_cases heq : t = v.txid
    · rw [heq]
      exact hp
    · have hsame := (hs.sameAt heq).1
      have hstate : s'.txStates t = s.txStates t := congrArg Column.state hsame
      exact h.begun t (by rwa [← hstate])

end

theorem CommitStep.affectTxs {blk : Block Err R} {s s' : Shared W R B} {t t' : CommitThread R B}
    (h : CommitStep blk s t s' t') : s'.txDependency.affectTxs = s.txDependency.affectTxs := by
  cases h
  case release h =>
    rcases TxDependency.commit_eq h with ⟨rfl, -⟩ | ⟨-, rfl⟩ <;> rfl
  all_goals rfl

section

variable [DecidableEq W] {blk : Block Err R} {backing : B.State} {σ : SchedulerState W R B}
  {ok : SchedulerState W R B → Action W → Prop}

/-- No worker runs a transaction behind the block. -/
theorem inBlock_of_reach (h : ReachableWhen blk backing ok σ) :
    InBlock blk.size σ.shared ∧ ∀ w, (σ.workers w).Within blk.size := by
  refine Runs.Reach.invariant
    (I := fun σ => InBlock blk.size σ.shared ∧ ∀ w, (σ.workers w).Within blk.size) h
    ⟨⟨fun d t ht => ?_, fun t ht => ?_⟩, fun _ => trivial⟩ fun σ a σ' hr ⟨ih, hw⟩ _ hs => ?_
  · exact absurd ht List.not_mem_nil
  · exact absurd rfl ht
  rcases step_cases hs with ⟨w, shared, pc, hstep, rfl⟩ | ⟨shared, t', hf, rfl⟩ |
    ⟨shared, t', hc, rfl⟩
  · obtain ⟨ih', hpc⟩ := hstep.within ih (hw w)
    refine ⟨ih', fun w' => ?_⟩
    by_cases hww : w' = w
    · subst hww
      simp only [Function.update_self]
      exact hpc
    · simp only [Function.update_of_ne hww]
      exact hw w'
  · have hdep : shared.txDependency = σ.shared.txDependency := by cases hf <;> rfl
    have hsize := (commitInv_of_reach hr).finality (core_of_reach hr) hf
    refine ⟨⟨by rw [hdep]; exact ih.affects, fun t ht => ?_⟩, hw⟩
    obtain ⟨-, -, -, -, hstates⟩ := hf.frame
    rcases hstates t with heq | hfinal
    · exact ih.begun t (heq ▸ ht)
    · have hlt := ((core_of_reach hr).finality hf).final t
      exact Nat.lt_of_lt_of_le (hlt.mp hfinal) hsize.size
  · obtain ⟨-, hstates, -⟩ := hc.columns
    refine ⟨⟨fun d t ht => ih.affects d t ?_, fun t ht => ih.begun t (hstates ▸ ht)⟩, hw⟩
    rwa [← hc.affectTxs]

end

/-! ## Executions at the committed cursor -/

/-- The execution can still end in an error that is compared with the
committed cursor. -/
def ExecPc.undecided : ExecPc R B → Bool
  | .running _ _ _ | .errMarking _ _ _ | .errRecording _ _ | .errHead _ => true
  | _ => false

/-- The committed cursor does not reach a transaction inside one of its
executions. -/
def HeadStarts (σ : SchedulerState W R B) (a : Action W) : Prop :=
  ∀ previous w v pc, a.thread = .commit → σ.commit.pc = .publish previous →
    σ.workers w = .exec v pc → v.txid = σ.commit.output.length → pc.undecided = false

/-- What the program of `t` ends with against the memory below it. -/
def Block.ends (blk : Block Err R) (base : Base Err) (s : Shared W R B) (t : Nat) :
    Except (EVMError Err) (SpeculativeResult R) :=
  (blk.spec t).run (base.view s.mvMemory s.history t).eval

/-- The program of `t` ends with the error, and so does every stored
execution of `t` that failed. -/
structure FailsWith (blk : Block Err R) (base : Base Err) (s : Shared W R B) (t : Nat)
    (error : EVMError Err) : Prop where
  ends : blk.ends base s t = .error error
  stored : ∀ r e, s.txResults t = some r → r.executeResult = .error e → e = error

/-- The error of a transaction of the block that is fatal. -/
def FatalAt (blk : Block Err R) (base : Base Err) (s : Shared W R B) (t : Nat) : Prop :=
  t < blk.size ∧ ∃ error, error.isTransaction = false ∧ FailsWith blk base s t error

/-- What an execution of `t` comes to when the cursor is at `t`. -/
def ExecPc.HeadOk (blk : Block Err R) (base : Base Err) (s : Shared W R B) (t : Nat) :
    ExecPc R B → Prop
  | .running _ k pc =>
    (k (pc.target base s.mvMemory s.history t)).run (base.view s.mvMemory s.history t).eval =
      blk.ends base s t
  | .errMarking _ error _ | .errRecording _ error => blk.ends base s t = .error error
  | .errHead error => FailsWith blk base s t error
  | .errAbort (.fatalEvmError _) _ => FatalAt blk base s t
  | _ => True

structure HeadInv (blk : Block Err R) (base : Base Err) (σ : SchedulerState W R B) : Prop where
  exec : ∀ w v pc, σ.workers w = .exec v pc → σ.shared.ctx.committed = v.txid →
    pc.HeadOk blk base σ.shared v.txid
  raising : ∀ w v t pc, σ.workers w = .exec v (.errAbort (.fatalEvmError t) pc) → t = v.txid
  reason : ∀ t, σ.shared.abortReason = some (.fatalEvmError t) → σ.shared.ctx.committed = t →
    FatalAt blk base σ.shared t

section

variable {blk : Block Err R} {base : Base Err} {s s' : Shared W R B} {t : Nat}

/-- The two states agree on what an execution of `t` reads, and results
of `t` are only lost. -/
structure SameBelow (s s' : Shared W R B) (t : Nat) : Prop where
  mv : ∀ l u, u < t → s'.mvMemory l u = s.mvMemory l u
  history : ∀ u, u < t → s'.history u = s.history u
  results : ∀ r, s'.txResults t = some r → s.txResults t = some r

theorem CallPc.target_congr {mv mv' : MVMemory} {history history' : Nat → EntryState}
    (hmv : ∀ l u, u < t → mv' l u = mv l u) (hhistory : ∀ u, u < t → history' u = history u)
    {pc : CallPc B} (hpc : pc.Below t) :
    pc.target base mv' history' t = pc.target base mv history t := by
  have hview : base.view mv' history' t = base.view mv history t := Base.view_congr hmv hhistory
  cases pc with
  | basicScan address scan =>
    have hscan : scanFrom history' base.anchor scan.writer scan.origins scan.rewardsNewestFirst =
        scanFrom history base.anchor scan.writer scan.origins scan.rewardsNewestFirst :=
      scanFrom_eq_of_eq fun u hu => hhistory u (Nat.lt_of_lt_of_le hu hpc.1)
    simp only [target, toBase, answer, hscan, hview]
  | _ => simp only [target, toBase, answer, hview]

theorem SameBelow.ends (h : SameBelow s s' t) : blk.ends base s' t = blk.ends base s t := by
  rw [Block.ends, Base.view_congr h.mv h.history, Block.ends]

theorem FailsWith.congr {error : EVMError Err} (h : FailsWith blk base s t error)
    (hsame : SameBelow s s' t) : FailsWith blk base s' t error where
  ends := hsame.ends.trans h.ends
  stored r e hr := h.stored r e (hsame.results r hr)

theorem FatalAt.congr (h : FatalAt blk base s t) (hsame : SameBelow s s' t) :
    FatalAt blk base s' t := by
  obtain ⟨hlt, error, hfatal, hfails⟩ := h
  exact ⟨hlt, error, hfatal, hfails.congr hsame⟩

theorem ExecPc.HeadOk.congr {pc : ExecPc R B} (h : pc.HeadOk blk base s t)
    (hsame : SameBelow s s' t) (hpc : ExecBelow t pc) : pc.HeadOk blk base s' t := by
  cases pc with
  | running db k pc =>
    have h : (k (pc.target base s.mvMemory s.history t)).run
      (base.view s.mvMemory s.history t).eval = blk.ends base s t := h
    show (k (pc.target base s'.mvMemory s'.history t)).run
      (base.view s'.mvMemory s'.history t).eval = blk.ends base s' t
    rw [CallPc.target_congr hsame.mv hsame.history hpc.2, Base.view_congr hsame.mv hsame.history,
      hsame.ends]
    exact h
  | errMarking db error remaining | errRecording db error => exact hsame.ends.trans h
  | errHead error => exact FailsWith.congr h hsame
  | errAbort reason pc =>
    cases reason with
    | fatalEvmError u => exact FatalAt.congr h hsame
    | _ => trivial
  | _ => trivial

/-- An execution begins, or goes on after an answer. -/
theorem headOk_enterExec (hstart : base.StartOf blk) {db : IncarnationDb} {prog : Prog Err R}
    {u : Shared W R B}
    (h : prog.run (base.view s.mvMemory s.history t).eval = blk.ends base s t) :
    (enterExec blk u t db prog : ExecPc R B).HeadOk blk base s t := by
  cases prog with
  | read call k =>
    show (k ((call.start blk.beneficiary t : CallPc B).target base s.mvMemory s.history t)).run
      (base.view s.mvMemory s.history t).eval = _
    rw [← hstart.beneficiary, target_start]
    exact h
  | done result =>
    cases result with
    | ok x => trivial
    | error e => exact h.symm

/-- Below its own transaction a step of an execution changes nothing. -/
theorem ExecStep.sameBelow {v : TxVersion} {pc : ExecPc R B} {p' : WorkerPc R B}
    (hstep : ExecStep blk s v pc s' p') (hresult : s'.txResults v.txid = s.txResults v.txid) :
    SameBelow s s' v.txid where
  mv l _ hu := congrFun (congrArg Column.entries (hstep.sameAt (Nat.ne_of_lt hu)).1) l
  history _ hu := congrArg Column.entry (hstep.sameAt (Nat.ne_of_lt hu)).1
  results _ hr := hresult ▸ hr

/-- A step of an execution at the cursor. -/
theorem ExecPc.HeadOk.step {v : TxVersion} {pc pc' : ExecPc R B} {p' : WorkerPc R B}
    (hstart : base.StartOf blk) (h : pc.HeadOk blk base s v.txid) (hv : v.txid < blk.size)
    (hbacked : ∀ db k call, pc = .running db k call → call.BackedBy base s.backing)
    (hstep : ExecStep blk s v pc s' p') (hp' : p' = .exec v pc') :
    pc'.HeadOk blk base s' v.txid := by
  have hsame := hstep.sameBelow
  cases hstep
  case read db k call backing db' call' hcall =>
    cases hp'
    rw [← hstart.anchor] at hcall
    have htarget : call'.target base s.mvMemory s.history v.txid =
      call.target base s.mvMemory s.history v.txid := callStep_target (hbacked _ _ _ rfl) hcall
    show (k (call'.target base s.mvMemory s.history v.txid)).run _ = _
    rw [htarget]
    exact h
  case answer db k call backing db' a hcall =>
    cases hp'
    rw [← hstart.anchor] at hcall
    have htarget : a = call.target base s.mvMemory s.history v.txid :=
      callStep_target (hbacked _ _ _ rfl) hcall
    refine headOk_enterExec hstart ?_
    rw [htarget]
    exact h
  case errMark =>
    cases hp'
    exact (hsame rfl).ends.trans h
  case errMarked =>
    cases hp'
    exact h
  case errRecord db error entry hrecord =>
    cases hp'
    split
    · trivial
    · have hends : blk.ends base s v.txid = .error error := h
      refine ⟨?_, fun r e hr he => ?_⟩
      · rw [← hends]
        exact congrArg (blk.spec v.txid).run (congrArg View.eval (Base.view_congr
          (fun _ _ _ => rfl) fun u hu => by simp [Nat.ne_of_lt hu]))
      · simp only [Shared.setResult_txResults, Function.update_self, Option.some.injEq] at hr
        subst hr
        exact (Except.error.inj he).symm
  case errAtHead error hcommitted =>
    cases hp'
    split
    · trivial
    · rename_i hfatal
      exact ⟨hv, error, Bool.eq_false_iff.mpr hfatal, h⟩
  case errAbort reason apc apc' _ _ _ _ habort =>
    cases hp'
    cases reason with
    | fatalEvmError u => exact FatalAt.congr h (hsame rfl)
    | _ => trivial
  case frontierFinish tail _ _ _ _ _ | rewindFinish tail _ _ _ => cases tail <;> cases hp'
  case parallelErrorEnd => cases hp'
  all_goals
    cases hp'
    trivial

/-- An execution begins with its program, or it has been going on. -/
theorem WorkerStep.execution {w : W} {v : TxVersion} {p p' : WorkerPc R B} {pc : ExecPc R B}
    (h : WorkerStep blk w s p s' p') (hp' : p' = .exec v pc) :
    (∃ u : Shared W R B, pc = enterExec blk u v.txid {} (blk.spec v.txid)) ∨
    (∃ message abort, pc = .parallelError message abort) ∨
    ∃ pc₀, p = .exec v pc₀ ∧ ExecStep blk s v pc₀ s' p' := by
  cases h with
  | idle _ hidle | frontier _ _ hidle =>
    subst hp'
    cases hidle
  | busy =>
    rename_i fromNext _ _
    cases fromNext <;> cases hp'
  | uselessRemoved =>
    rename_i fromNext _ _ _ _ _
    cases fromNext <;> cases hp'
  | execute =>
    cases hp'
    exact .inl ⟨_, rfl⟩
  | executeInconsistent =>
    cases hp'
    exact .inr (.inl ⟨_, _, rfl⟩)
  | @exec v₀ pc₀ _ _ hs =>
    have hv : v₀ = v := by
      cases hs
      case frontierFinish tail _ _ _ _ _ | rewindFinish tail _ _ _ => cases tail <;> cases hp'
      all_goals
        cases hp'
        try rfl
    subst hv
    exact .inr (.inr ⟨pc₀, rfl, hs⟩)
  | val hs => cases hs <;> cases hp'
  | _ => cases hp'

/-- An error a worker stores is the one its execution has ended with. -/
theorem WorkerStep.stored {w : W} {p p' : WorkerPc R B} (h : WorkerStep blk w s p s' p')
    {r : TransactionResult Err R} {e : EVMError Err} (hr : s'.txResults t = some r)
    (he : r.executeResult = .error e) :
    s.txResults t = some r ∨ ∃ v db, p = .exec v (.errRecording db e) ∧ v.txid = t := by
  cases h with
  | @exec v pc _ _ hs =>
    by_cases ht : t = v.txid
    · subst ht
      cases hs
      case settle =>
        simp only [Shared.setStatus_txResults, Shared.setResult_txResults, Function.update_self,
          Option.some.injEq] at hr
        subst hr
        cases he
      case errRecord db error entry hrecord =>
        simp only [Shared.setResult_txResults, Function.update_self, Option.some.injEq] at hr
        subst hr
        cases he
        exact .inr ⟨v, db, rfl, rfl⟩
      case frontierFinish tail _ _ _ _ _ | rewindFinish tail _ _ _ => cases tail <;> exact .inl hr
      all_goals exact .inl hr
    · exact .inl ((congrArg Column.result (hs.sameAt ht).1).symm.trans hr)
  | @val v pc _ _ hs =>
    cases hs
    all_goals exact .inl hr
  | _ => exact .inl hr

end

section

variable {blk : Block Err R} {base : Base Err} {σ σ' : SchedulerState W R B} {s' : Shared W R B}

/-- The committed transactions are final. -/
theorem CommitInv.committed_le (h : CommitInv blk σ) (hcore : Core σ) :
    σ.shared.ctx.committed ≤ σ.finality.idx := by
  have hpublished := σ.commit.pc.published_le_gone.trans σ.commit.pc.gone_le_inner
  rw [h.committed]
  exact (Nat.add_le_add_left hpublished _).trans (h.inner_le hcore)

theorem HeadInv.worker [DecidableEq W] {w : W} {p' : WorkerPc R B} {a : Action W}
    (h : HeadInv blk base σ) (hcore : Core σ) (hinv : CommitInv blk σ)
    (hwithin : ∀ w, (σ.workers w).Within blk.size) (hbelow : ∀ w, PcBelow (σ.workers w))
    (hstart : base.StartOf blk) (ha : a.thread = .worker w) (hfixed : FixedReads base σ a)
    (hstep : WorkerStep blk w σ.shared (σ.workers w) s' p') :
    HeadInv blk base { σ with shared := s', workers := Function.update σ.workers w p' } := by
  obtain ⟨-, hcommitted⟩ := hstep.cursors
  have hfinal : ∀ u, u < σ.shared.ctx.committed → s'.column u = σ.shared.column u := fun u hu =>
    (hcore.worker_sameAt hstep ((hcore.final u).mpr
      (Nat.lt_of_lt_of_le hu (hinv.committed_le hcore)))).1
  have hmv : ∀ l u, u < σ.shared.ctx.committed → s'.mvMemory l u = σ.shared.mvMemory l u :=
    fun l u hu => congrFun (congrArg Column.entries (hfinal u hu)) l
  have hhistory : ∀ u, u < σ.shared.ctx.committed → s'.history u = σ.shared.history u :=
    fun u hu => congrArg Column.entry (hfinal u hu)
  have hends : ∀ t, σ.shared.ctx.committed = t →
      blk.ends base s' t = blk.ends base σ.shared t := by
    rintro t rfl
    rw [Block.ends, Base.view_congr hmv hhistory, Block.ends]
  -- an error stored at the cursor is the one of the transaction
  have hfatal : ∀ t, σ.shared.ctx.committed = t → FatalAt blk base σ.shared t →
      FatalAt blk base s' t := by
    rintro t ht ⟨hlt, error, hkind, hfails⟩
    refine ⟨hlt, error, hkind, (hends t ht).trans hfails.ends, fun r e hr he => ?_⟩
    rcases hstep.stored hr he with hold | ⟨v, db, hpc, hv⟩
    · exact hfails.stored r e hold he
    · have hok := h.exec w v _ hpc (ht.trans hv.symm)
      rw [hv] at hok
      exact Except.error.inj (hok.symm.trans hfails.ends)
  refine ⟨fun w' v pc hw hc => ?_, fun w' v t pc hw => ?_, fun t hr hc => ?_⟩
  · simp only [hcommitted] at hc
    by_cases hww : w' = w
    · subst hww
      simp only [Function.update_self] at hw
      rcases hstep.execution hw with ⟨u, rfl⟩ | ⟨message, abort, rfl⟩ | ⟨pc₀, hp, hs⟩
      · exact headOk_enterExec hstart rfl
      · trivial
      · have hin := hwithin w'
        rw [hp] at hin
        refine (h.exec w' v pc₀ hp hc).step hstart hin.1 (fun db k call hpc => ?_) hs hw
        exact hfixed w' v db k call ha (hpc ▸ hp)
    · simp only [Function.update_of_ne hww] at hw
      have hown := hcore.worker_sameAt_owned hstep hww (v := v) (by rw [hw]; rfl)
      have hpc := hbelow w'
      rw [hw] at hpc
      refine (h.exec w' v pc hw hc).congr ⟨fun l u hu => hmv l u (hc ▸ hu),
        fun u hu => hhistory u (hc ▸ hu), fun r hr => ?_⟩ hpc
      exact (congrArg Column.result hown.1).symm.trans hr
  · by_cases hww : w' = w
    · subst hww
      simp only [Function.update_self] at hw
      subst hw
      rcases hstep.raising with hr | ⟨hr, -⟩ | ⟨pc', hp⟩
      · cases hr
      · cases hr
        rfl
      · exact h.raising w' v t pc' hp
    · simp only [Function.update_of_ne hww] at hw
      exact h.raising w' v t pc hw
  · simp only [hcommitted] at hc
    refine hfatal t hc ?_
    rcases hcore.worker_reason hstep with heq | ⟨v, r, pc, hpc, heq⟩
    · exact h.reason t (heq ▸ hr) hc
    · cases hold : σ.shared.abortReason with
      | some r₀ =>
        simp only [heq, hold, Option.some_or] at hr
        exact h.reason t (hold.trans hr) hc
      | none =>
        simp only [heq, hold, Option.none_or, Option.some.injEq] at hr
        subst hr
        obtain rfl := h.raising w v t pc hpc
        exact h.exec w v _ hpc hc

/-- A step of another thread that moves no cursor and raises no fatal
error. -/
theorem HeadInv.congr {finality : FinalityThread} {commit : CommitThread R B}
    (h : HeadInv blk base σ) (hbelow : ∀ w, PcBelow (σ.workers w))
    (hsame : ∀ t, SameBelow σ.shared s' t)
    (hcommitted : s'.ctx.committed = σ.shared.ctx.committed)
    (hreason : ∀ t, s'.abortReason = some (.fatalEvmError t) →
      σ.shared.abortReason = some (.fatalEvmError t)) :
    HeadInv blk base { σ with shared := s', finality, commit } := by
  refine ⟨fun w v pc hw hc => ?_, h.raising, fun t hr hc => ?_⟩
  · have hpc := hbelow w
    rw [hw] at hpc
    exact (h.exec w v pc hw (hcommitted ▸ hc)).congr (hsame _) hpc
  · exact (h.reason t (hreason t hr) (hcommitted ▸ hc)).congr (hsame t)

theorem HeadInv.finality {t' : FinalityThread} (h : HeadInv blk base σ)
    (hbelow : ∀ w, PcBelow (σ.workers w))
    (hstep : FinalityStep blk σ.shared σ.finality s' t') :
    HeadInv blk base { σ with shared := s', finality := t' } := by
  obtain ⟨hmv, hhistory, hresults, hctx, -⟩ := hstep.frame
  have hsame : ∀ t, SameBelow σ.shared s' t := fun t =>
    ⟨fun _ _ _ => by rw [hmv], fun _ _ => by rw [hhistory], fun _ hr => hresults ▸ hr⟩
  have hcommitted : s'.ctx.committed = σ.shared.ctx.committed := by rw [hctx]
  have hreason : s'.abortReason = σ.shared.abortReason := by cases hstep <;> rfl
  exact h.congr hbelow hsame hcommitted fun t hr => hreason ▸ hr

/-- The commit loop raises no fatal error of a transaction. -/
theorem CommitInv.fatal_of_commit {t' : CommitThread R B} (h : CommitInv blk σ)
    (hstep : CommitStep blk σ.shared σ.commit s' t') {t : Nat}
    (hr : s'.abortReason = some (.fatalEvmError t)) :
    σ.shared.abortReason = some (.fatalEvmError t) := by
  have habort : ∀ {reason error pc next}, σ.commit.pc = .aborting reason error pc →
      σ.shared.abortStep reason pc = (s', next) →
      σ.shared.abortReason = some (.fatalEvmError t) := by
    intro reason error pc next hpc ha
    rcases Shared.abortStep_reason ha with heq | heq
    · exact heq ▸ hr
    · cases hold : σ.shared.abortReason with
      | some r₀ =>
        rw [heq, hold] at hr
        exact hr
      | none =>
        rw [heq, hold] at hr
        cases hr
        rcases h.aborting _ _ _ hpc with ⟨hf, -⟩ | ⟨e, hf, -⟩ <;> cases hf
  cases hstep
  case abort hpc ha | aborted hpc ha => exact habort hpc ha
  all_goals exact hr

/-- The cursor moves when a transaction has been applied, and only
then. -/
theorem CommitStep.committed {t t' : CommitThread R B} {s : Shared W R B}
    (h : CommitStep blk s t s' t') :
    s'.ctx.committed = s.ctx.committed ∨
      (∃ previous, t.pc = .publish previous) ∧ s'.ctx.committed = t.output.length := by
  cases h
  case publish previous hpc => exact .inr ⟨⟨previous, hpc⟩, rfl⟩
  all_goals exact .inl rfl

theorem HeadInv.commit {t' : CommitThread R B} {a : Action W} (h : HeadInv blk base σ)
    (hinv : CommitInv blk σ) (hbelow : ∀ w, PcBelow (σ.workers w)) (ha : a.thread = .commit)
    (hstarts : HeadStarts σ a) (hstep : CommitStep blk σ.shared σ.commit s' t') :
    HeadInv blk base { σ with shared := s', commit := t' } := by
  obtain ⟨-, -, hhistory, hmv, -, hresults⟩ := hstep.columns
  have hsame : ∀ t, SameBelow σ.shared s' t := by
    refine fun t => ⟨fun _ _ _ => by rw [hmv], fun _ _ => by rw [hhistory], fun r hr => ?_⟩
    rcases hresults with heq | ⟨-, heq⟩
    · exact heq ▸ hr
    · by_cases ht : t = σ.commit.idx
      · rw [heq, ht, Function.update_self] at hr
        cases hr
      · rw [heq, Function.update_of_ne ht] at hr
        exact hr
  have hreason := fun t => hinv.fatal_of_commit (t := t) hstep
  rcases hstep.committed with hcommitted | ⟨⟨previous, hpc⟩, hcommitted⟩
  · exact h.congr hbelow hsame hcommitted hreason
  · -- the cursor reaches a transaction that no execution has named
    have hout := hinv.output
    have hold := hinv.committed
    simp only [hpc, CommitLoopPc.pushed, CommitLoopPc.published] at hout hold
    refine ⟨fun w v pc hw hc => ?_, h.raising, fun t hr hc => ?_⟩
    · have hhead : v.txid = σ.commit.output.length := hc.symm.trans hcommitted
      have hdecided := hstarts previous w v pc ha hpc hw hhead
      cases pc with
      | errAbort reason abort =>
        cases reason with
        | fatalEvmError t =>
          have hle : t ≤ σ.shared.ctx.committed := hinv.raising w v _ abort hw
          have heq := h.raising w v t abort hw
          omega
        | _ => trivial
      | running | errMarking | errRecording | errHead => cases hdecided
      | _ => trivial
    · have hle : t ≤ σ.shared.ctx.committed := hinv.reason _ (hreason t hr)
      simp only [hcommitted] at hc
      omega

theorem headInv_initial (backing : B.State) :
    HeadInv blk base (initial backing : SchedulerState W R B) where
  exec _ _ _ h := by cases h
  raising _ _ _ _ h := by cases h
  reason _ h := by cases h

theorem headInv_of_reach [DecidableEq W] {backing : B.State}
    {ok : SchedulerState W R B → Action W → Prop} (hstart : base.StartOf blk)
    (hfixed : ∀ σ a, ok σ a → FixedReads base σ a) (hstarts : ∀ σ a, ok σ a → HeadStarts σ a)
    (h : ReachableWhen blk backing ok σ) : HeadInv blk base σ := by
  refine Runs.Reach.invariant (I := HeadInv blk base) h (headInv_initial backing)
    fun σ a σ' hr ih hok hs => ?_
  have hinv := commitInv_of_reach hr
  rcases step_threads hs with ⟨w, shared, pc, ha, hw, rfl⟩ | ⟨shared, t', hf, rfl⟩ |
    ⟨shared, t', ha, hc, rfl⟩
  · exact ih.worker (core_of_reach hr) hinv (inBlock_of_reach hr).2 (pcBelow_of_reach hr) hstart ha
      (hfixed _ _ hok) hw
  · exact ih.finality (pcBelow_of_reach hr) hf
  · exact ih.commit hinv (pcBelow_of_reach hr) ha (hstarts _ _ hok) hc

/-- An error that aborts the block is the one the sequential execution
meets at its transaction. -/
theorem HeadInv.sequential {codeOf : B256 → Bytecode} {t : Nat} {r : TransactionResult Err R}
    {error : EVMError Err} (h : HeadInv blk base σ) (hcore : Core σ) (hinv : CommitInv blk σ)
    (hserial : Serial blk codeOf base σ)
    (hreason : σ.shared.abortReason = some (.fatalEvmError t))
    (hr : σ.shared.txResults t = some r) (he : r.executeResult = .error error) :
    t = σ.shared.ctx.committed ∧ t < blk.size ∧ error.isTransaction = false ∧
      ∃ results p, blk.sequential codeOf base.plain t = some (results, p) ∧
        (blk.spec t).run (Plain.answer codeOf p) = .error error := by
  have hle : t ≤ σ.shared.ctx.committed := hinv.reason _ hreason
  have hcommitted := hinv.committed
  have hgone := σ.commit.pc.published_le_gone
  have hge : ¬ t < σ.commit.idx + σ.commit.pc.gone := fun hlt => by
    rw [hinv.gone t hlt] at hr
    cases hr
  have ht : σ.shared.ctx.committed = t := by omega
  -- a final transaction has a successful result
  have hidx : σ.finality.idx = t := by
    have hcur := hinv.committed_le hcore
    by_contra hne
    have hfinal := (hcore.final t).mpr (by omega)
    obtain ⟨x, hx⟩ := ((hcore.published_of_final hfinal).result r hr).1
    rw [he] at hx
    cases hx
  obtain ⟨hlt, e, hkind, hfails⟩ := h.reason t hreason ht
  obtain rfl := hfails.stored r error hr he
  obtain ⟨results, p, hpre, -⟩ := hserial
  rw [hidx] at hpre
  refine ⟨ht.symm, hlt, hkind, results, p, hpre.sequential, ?_⟩
  rw [← hpre.view.eval]
  exact hfails.ends

end

end Grevm
