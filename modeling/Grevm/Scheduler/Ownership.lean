/-
Grevm.Scheduler.Ownership — who may touch a transaction.

Everything the machine keeps about one transaction is its `Column`:
status, last result, multi-version entries and beneficiary entry. A
column has at most one owner, the worker with its execution or validation
task; the program point of the owner determines what is published
(`ExecOk`, `ValOk`), and without an owner the status does (`FreeOk`).
`Core` is this invariant for the whole machine.
-/
import Grevm.Scheduler.Steps

namespace Grevm

variable {Err W R : Type} {B : Backing Err}

/-! ## Columns -/

/-- What the machine keeps about one transaction. -/
structure Column (Err R : Type) where
  state : TxState
  result : Option (TransactionResult Err R)
  entries : LocationAndType → Option MemoryEntry
  entry : EntryState

def Shared.column (s : Shared W R B) (t : Nat) : Column Err R :=
  { state := s.txStates t, result := s.txResults t,
    entries := fun l => s.mvMemory l t, entry := s.history t }

namespace Column

def lastWriteSet (c : Column Err R) : List LocationAndType :=
  c.result.elim [] TransactionResult.writeSet

/-- Nothing readable of any incarnation from `n` on: the entries are
those of the last write set, and all are estimates. -/
structure Stale (c : Column Err R) (n : Nat) : Prop where
  dom : ∀ l, (c.entries l).isSome ↔ l ∈ c.lastWriteSet
  est : ∀ l e, c.entries l = some e → e.estimate = true ∧ e.incarnation < n
  value : c.entry.value = .estimate
  old : c.entry.incarnation < n

/-- The current incarnation is published completely. -/
structure Published (c : Column Err R) : Prop where
  exact : ∀ l e, c.entries l = some e → e.estimate = false ∧ e.incarnation = c.state.incarnation
  entry : ∃ effect, c.entry = ⟨c.state.incarnation, .exact effect⟩
  result : ∀ r, c.result = some r →
    (∃ x, r.executeResult = .ok x) ∧ ∀ l, (c.entries l).isSome ↔ l ∈ r.writeSet

/-- A publication in progress: `new` is published, and what is left of
older incarnations is an estimate at a location of `old`. -/
structure Writing (c : Column Err R) (n : Nat) (blocked : Bool)
    (new old : List LocationAndType) : Prop where
  sub : ∀ l, (c.entries l).isSome → l ∈ new ∨ l ∈ old
  has : ∀ l, l ∈ new → (c.entries l).isSome
  fresh : ∀ l e, l ∈ new → c.entries l = some e → e.incarnation = n ∧ e.estimate = blocked
  stale : ∀ l e, l ∉ new → c.entries l = some e → e.estimate = true ∧ e.incarnation < n

/-- Nothing readable in the beneficiary history before incarnation `n`
is recorded. -/
def Unrecorded (c : Column Err R) (n : Nat) : Prop :=
  c.entry.value = .estimate ∧ c.entry.incarnation < n

/-- A failed validation marking its entries: those outside `remaining`
are estimates. -/
structure Marking (c : Column Err R) (n : Nat) (remaining : List LocationAndType) : Prop where
  dom : ∀ l, (c.entries l).isSome ↔ l ∈ c.lastWriteSet
  inc : ∀ l e, c.entries l = some e → e.incarnation = n
  est : ∀ l e, c.entries l = some e → l ∉ remaining → e.estimate = true
  entry : c.entry.incarnation = n

/-- What holds of a column that no worker has locked. -/
def FreeOk (c : Column Err R) : Prop :=
  match c.state.status with
  | .initial =>
    c.result = none ∧ (∀ l, c.entries l = none) ∧ c.entry = {} ∧ c.state.incarnation = 0
  | .executing => c.Stale c.state.incarnation
  | .conflict => c.Stale (c.state.incarnation + 1)
  | .finality => c.Published
  | _ => c.Published ∧ c.result.isSome

end Column

/-! ## Program points -/

/-- What `execute_task` knows of its column once the status is set. -/
def TailOk (c : Column Err R) : ExecTail → Prop
  | .conflict => c.state.status = .conflict ∧ c.Stale (c.state.incarnation + 1)
  | _ => c.state.status = .executed ∧ c.Published ∧ c.result.isSome

/-- What `execute_task` knows of its column before. -/
def ExecOk (n : Nat) (c : Column Err R) : ExecPc R B → Prop
  | .running _ _ _ | .errMarking _ _ _ | .errRecording _ _ =>
    c.state.status = .executing ∧ c.Stale n
  | .publishing db _ p =>
    c.state.status = .executing ∧ c.Writing n db.isBlocked p.writeSet c.lastWriteSet ∧
      (∀ l, l ∈ c.lastWriteSet → (c.entries l).isSome) ∧ c.Unrecorded n
  | .removing e remaining =>
    c.state.status = .executing ∧ c.Writing n e.db.isBlocked e.writeSet remaining ∧
      (∀ l, l ∈ remaining → l ∉ e.writeSet) ∧ c.Unrecorded n
  | .recording e =>
    c.state.status = .executing ∧ c.Writing n e.db.isBlocked e.writeSet [] ∧ c.Unrecorded n
  | .blockerLoad e | .adding e _ _ =>
    c.state.status = .executing ∧ e.db.isBlocked = true ∧
      c.Writing n e.db.isBlocked e.writeSet [] ∧ c.entry = ⟨n, .estimate⟩
  | .releasing e _ =>
    c.state.status = .executing ∧ e.db.isBlocked = false ∧
      c.Writing n e.db.isBlocked e.writeSet [] ∧ ∃ effect, c.entry = ⟨n, .exact effect⟩
  | .settling e next =>
    c.state.status = .executing ∧ (next.isSome → e.db.isBlocked = false) ∧
      c.Writing n e.db.isBlocked e.writeSet [] ∧
      if e.db.isBlocked then c.entry = ⟨n, .estimate⟩
      else ∃ effect, c.entry = ⟨n, .exact effect⟩
  | .errBlockerLoad _ | .errAdding _ _ | .errHead _ | .errAbort _ _ | .keying | .keyingRewind
  | .errSettling => c.state.status = .executing ∧ c.Stale (n + 1)
  | .frontier tail _ | .rewinding tail _ => TailOk c tail
  | .parallelError _ _ => False

/-- What `validate` knows of its column. -/
def ValOk (n : Nat) (c : Column Err R) : ValPc → Prop
  | .scanning _ _ _ _ | .scanningHistory _ _ _ _ _ _ | .unconfirming _ _ =>
    c.state.status = .validating ∧ c.Published ∧ c.result.isSome
  | .marking _ remaining => c.state.status = .validating ∧ c.Marking n remaining
  | .invalidating _ => c.state.status = .validating ∧ c.Marking n []
  | .rewinding _ _ => c.state.status = .validating ∧ c.Stale (n + 1)
  | .blockerLoad _ | .adding _ _ => c.state.status = .conflict ∧ c.Stale (n + 1)
  | .parallelError _ _ => False

/-- The version a worker has a task for. -/
def WorkerPc.owned : WorkerPc R B → Option TxVersion
  | .task (.execution v) | .task (.validation v) | .exec v _ | .val v _ => some v
  | _ => none

/-- The transaction a worker has locked. -/
def WorkerPc.locked : WorkerPc R B → Option Nat
  | .exec v _ | .val v _ => some v.txid
  | _ => none

/-- What a program point says about the column its worker owns. -/
def PcOk (c : Column Err R) : WorkerPc R B → Prop
  | .task (.execution _) => c.state.status = .executing
  | .task (.validation _) => c.state.status = .validating
  | .exec v pc => ExecOk v.incarnation c pc
  | .val v pc => ValOk v.incarnation c pc
  | _ => True

/-- The finality thread has locked its candidate. -/
def FinalityPc.locks : FinalityPc → Bool
  | .candidateLower _ | .candidateDecide _ _ => true
  | _ => false

/-- The finality thread has set a transaction final and not yet
published it. -/
def FinalityPc.isPublish : FinalityPc → Bool
  | .publish _ => true
  | _ => false

/-- **Ownership.** -/
structure Core (s : SchedulerState W R B) : Prop where
  /-- A column no worker has locked agrees with its status. -/
  free : ∀ t, (∀ w, s.shared.txLocks t ≠ some (.worker w)) → (s.shared.column t).FreeOk
  /-- An owned version is the current one, and its column agrees with
  the program point of the owner. -/
  owned : ∀ w v, (s.workers w).owned = some v →
    (s.shared.txStates v.txid).incarnation = v.incarnation ∧
      PcOk (s.shared.column v.txid) (s.workers w)
  unique : ∀ w w' v v', (s.workers w).owned = some v → (s.workers w').owned = some v' →
    v.txid = v'.txid → w = w'
  /-- A transaction is locked by the worker whose program point says so. -/
  locked : ∀ w t, s.shared.txLocks t = some (.worker w) ↔ (s.workers w).locked = some t
  /-- A transaction with a task outstanding has an owner. -/
  busy : ∀ t, (s.shared.txStates t).status = .executing ∨
    (s.shared.txStates t).status = .validating →
    ∃ w v, (s.workers w).owned = some v ∧ v.txid = t
  finalityLock : ∀ t, s.shared.txLocks t = some .finality ↔
    s.finality.pc.locks = true ∧ t = s.finality.idx
  candidate : s.finality.pc.locks = true →
    (s.shared.txStates s.finality.idx).status = .unconfirmed
  /-- The final transactions are a prefix. -/
  final : ∀ t, (s.shared.txStates t).status = .finality ↔ t < s.finality.idx
  /-- The published cursor follows the finality thread. -/
  cursor : s.shared.ctx.finality + (if s.finality.pc.isPublish then 1 else 0) = s.finality.idx
  /-- The commit loop takes a result only below the cursor. -/
  taking : ∀ previous, s.commit.pc = .take previous → s.commit.idx < s.shared.ctx.finality

theorem Core.finality_le {s : SchedulerState W R B} (h : Core s) :
    s.shared.ctx.finality ≤ s.finality.idx :=
  h.cursor ▸ Nat.le_add_right _ _

/-- The transaction whose result is taken is final. -/
theorem Core.taking_lt {s : SchedulerState W R B} {previous : Nat} (h : Core s)
    (hpc : s.commit.pc = .take previous) : s.commit.idx < s.finality.idx :=
  Nat.lt_of_lt_of_le (h.taking previous hpc) h.finality_le

/-! ## Frames: a step changes at most the column of its own transaction -/

variable {blk : Block Err R} {s s' : Shared W R B} {v : TxVersion} {p' : WorkerPc R B} {t : Nat}

/-- The column and the lock of `t` are the same in both states. -/
def SameAt (s s' : Shared W R B) (t : Nat) : Prop :=
  s'.column t = s.column t ∧ s'.txLocks t = s.txLocks t

theorem finishExec_sameAt {tail : ExecTail} (ht : t ≠ v.txid) :
    SameAt s (finishExec s v tail).1 t := by
  cases tail <;> simp [finishExec, SameAt, Shared.column, ht]

theorem ExecStep.sameAt {pc : ExecPc R B} (h : ExecStep blk s v pc s' p') (ht : t ≠ v.txid) :
    SameAt s s' t := by
  cases h
  case publish => simp [SameAt, Shared.column, MVMemory.insert_of_ne ht]
  case unpublish => simp [SameAt, Shared.column, MVMemory.remove_of_ne ht]
  case errMark => simp [SameAt, Shared.column, MVMemory.markEstimate_of_ne ht]
  case frontierFinish h _ | rewindFinish h => exact finishExec_sameAt ht
  all_goals simp [SameAt, Shared.column, ht]

theorem ValStep.sameAt {pc : ValPc} (h : ValStep blk s v pc s' p') (ht : t ≠ v.txid) :
    SameAt s s' t := by
  cases h
  case mark => simp [SameAt, Shared.column, MVMemory.markEstimate_of_ne ht]
  all_goals simp [SameAt, Shared.column, ht]

/-! ## Cursors under the steps of a worker -/

/-- The frontier is apart from the other cursors and the clock. -/
theorem SchedulerContext.frontierStep_eq {numTxs : Nat} {ctx ctx' : SchedulerContext}
    {pc : FrontierPc} {next : FrontierPc ⊕ Nat} (h : ctx.frontierStep numTxs pc = (ctx', next)) :
    ctx' = { ctx with executed := ctx'.executed, frontier := ctx'.frontier } := by
  cases pc <;> simp only [frontierStep] at h <;> (repeat' split at h) <;> cases h <;> rfl

/-- Rewinding touches the validation cursor, the clock and the lower
bounds. -/
theorem rewindStep_eq {ctx ctx' : SchedulerContext} {index : Nat} {pc : RewindPc}
    {next : Option RewindPc} (h : rewindStep ctx index pc = (ctx', next)) :
    ctx' = { ctx with validation := ctx'.validation, logicalClock := ctx'.logicalClock,
                      lowerTimestamps := ctx'.lowerTimestamps } := by
  cases pc <;> cases h <;> rfl

/-- Workers move neither the finality nor the committed cursor. -/
def SameCursors (s s' : Shared W R B) : Prop :=
  s'.ctx.finality = s.ctx.finality ∧ s'.ctx.committed = s.ctx.committed

theorem finishExec_ctx {tail : ExecTail} : (finishExec s v tail).1.ctx = s.ctx := by
  cases tail <;> rfl

theorem ExecStep.cursors {pc : ExecPc R B} (h : ExecStep blk s v pc s' p') :
    SameCursors s s' := by
  cases h
  case frontier h | frontierRewind h _ _ =>
    rw [SchedulerContext.frontierStep_eq h]; exact ⟨rfl, rfl⟩
  case frontierFinish h _ =>
    rw [SameCursors, finishExec_ctx, SchedulerContext.frontierStep_eq h]
    exact ⟨rfl, rfl⟩
  case rewind h => rw [rewindStep_eq h]; exact ⟨rfl, rfl⟩
  case rewindFinish h => rw [SameCursors, finishExec_ctx, rewindStep_eq h]; exact ⟨rfl, rfl⟩
  all_goals exact ⟨rfl, rfl⟩

theorem ValStep.cursors {pc : ValPc} (h : ValStep blk s v pc s' p') : SameCursors s s' := by
  cases h
  case rewind h | rewound h => rw [rewindStep_eq h]; exact ⟨rfl, rfl⟩
  all_goals exact ⟨rfl, rfl⟩

theorem WorkerStep.cursors {w : W} {p : WorkerPc R B} (h : WorkerStep blk w s p s' p') :
    SameCursors s s' := by
  cases h
  case frontier h _ _ _ _ => rw [SchedulerContext.frontierStep_eq h]; exact ⟨rfl, rfl⟩
  case exec h | val h => exact h.cursors
  all_goals exact ⟨rfl, rfl⟩

/-! ## Columns under the operations of their owner -/

namespace Column

variable {c : Column Err R} {n : Nat} {blocked : Bool} {new old : List LocationAndType}
  {l : LocationAndType}

theorem entries_insert {s : Shared W R B} {t : Nat} {e : MemoryEntry} :
    ({ s with mvMemory := s.mvMemory.insert l t e }.column t).entries
      = Function.update (s.column t).entries l (some e) := by
  funext x
  simp [Shared.column, MVMemory.insert, Function.update_apply]

theorem entries_remove {s : Shared W R B} {t : Nat} :
    ({ s with mvMemory := s.mvMemory.remove l t }.column t).entries
      = Function.update (s.column t).entries l none := by
  funext x
  simp [Shared.column, MVMemory.remove, Function.update_apply]

/-- Nothing is published yet. -/
theorem Stale.writing (h : c.Stale n) : c.Writing n blocked [] c.lastWriteSet where
  sub l hl := .inr ((h.dom l).mp hl)
  has _ hl := absurd hl List.not_mem_nil
  fresh _ _ hl _ := absurd hl List.not_mem_nil
  stale l e _ he := h.est l e he

theorem Stale.mono {m : Nat} (h : c.Stale n) (hm : n ≤ m) : c.Stale m where
  dom := h.dom
  est l e he := ⟨(h.est l e he).1, Nat.lt_of_lt_of_le (h.est l e he).2 hm⟩
  value := h.value
  old := Nat.lt_of_lt_of_le h.old hm

/-- Publishing one location. -/
theorem Writing.insert {c' : Column Err R} (h : c.Writing n blocked new old) (data : MemoryValue)
    (hc : c'.entries = Function.update c.entries l (some ⟨n, data, blocked⟩)) :
    c'.Writing n blocked (new.insert l) old where
  sub l' hl' := by
    rw [hc, Function.update_apply] at hl'
    rw [List.mem_insert_iff]
    split at hl'
    · exact .inl (.inl ‹_›)
    · exact (h.sub l' hl').imp_left .inr
  has l' hl' := by
    rw [hc, Function.update_apply]
    split
    · rfl
    · exact h.has l' ((List.mem_insert_iff.mp hl').resolve_left ‹_›)
  fresh l' e hl' he := by
    rw [hc, Function.update_apply] at he
    split at he
    · cases he
      exact ⟨rfl, rfl⟩
    · exact h.fresh l' e ((List.mem_insert_iff.mp hl').resolve_left ‹_›) he
  stale l' e hl' he := by
    rw [List.mem_insert_iff, not_or] at hl'
    rw [hc, Function.update_of_ne hl'.1] at he
    exact h.stale l' e hl'.2 he

/-- Removing one stale location. -/
theorem Writing.remove {rest : List LocationAndType} {c' : Column Err R}
    (h : c.Writing n blocked new old) (hl : l ∉ new) (hold : ∀ x, x ∈ old ↔ x = l ∨ x ∈ rest)
    (hc : c'.entries = Function.update c.entries l none) :
    c'.Writing n blocked new rest where
  sub l' hl' := by
    rw [hc, Function.update_apply] at hl'
    split at hl'
    · cases hl'
    · exact (h.sub l' hl').imp_right fun hm => ((hold l').mp hm).resolve_left ‹_›
  has l' hl' := by
    rw [hc, Function.update_of_ne (ne_of_mem_of_not_mem hl' hl)]
    exact h.has l' hl'
  fresh l' e hl' he := by
    rw [hc, Function.update_of_ne (ne_of_mem_of_not_mem hl' hl)] at he
    exact h.fresh l' e hl' he
  stale l' e hl' he := by
    rw [hc, Function.update_apply] at he
    split at he
    · cases he
    · exact h.stale l' e hl' he

theorem Writing.congr {c' : Column Err R} (h : c.Writing n blocked new old)
    (hc : c'.entries = c.entries) : c'.Writing n blocked new old where
  sub := by rw [hc]; exact h.sub
  has := by rw [hc]; exact h.has
  fresh := by rw [hc]; exact h.fresh
  stale := by rw [hc]; exact h.stale

/-- With nothing stale left, exactly the new locations hold entries. -/
theorem Writing.dom (h : c.Writing n blocked new []) (l : LocationAndType) :
    (c.entries l).isSome ↔ l ∈ new :=
  ⟨fun hl => (h.sub l hl).resolve_right List.not_mem_nil, h.has l⟩

theorem Writing.entry_mem (h : c.Writing n blocked new []) {e : MemoryEntry}
    (he : c.entries l = some e) : e.incarnation = n ∧ e.estimate = blocked :=
  h.fresh l e ((h.dom l).mp (by simp [he])) he

/-- The column with the entry at `l` marked as an estimate. -/
def mark (c : Column Err R) (l : LocationAndType) : Column Err R :=
  { c with
    entries := fun x =>
      if x = l then (c.entries x).map fun e => { e with estimate := true } else c.entries x }

theorem column_markEstimate {s : Shared W R B} {t : Nat} :
    { s with mvMemory := s.mvMemory.markEstimate l t }.column t = (s.column t).mark l := by
  simp [Shared.column, mark, MVMemory.markEstimate]

theorem isSome_mark (x : LocationAndType) :
    ((c.mark l).entries x).isSome = (c.entries x).isSome := by
  simp only [mark]
  split <;> simp

/-- An entry after the marking is an entry before it, at `l` with the
mark. -/
theorem entry_of_mark {x : LocationAndType} {e : MemoryEntry}
    (h : (c.mark l).entries x = some e) :
    ∃ e', c.entries x = some e' ∧ e.incarnation = e'.incarnation ∧
      (e.estimate = e'.estimate ∨ e.estimate = true) ∧ (x = l → e.estimate = true) := by
  simp only [mark] at h
  split at h
  · obtain ⟨e', he', rfl⟩ := Option.map_eq_some_iff.mp h
    exact ⟨e', he', rfl, .inr rfl, fun _ => rfl⟩
  · rename_i hx
    exact ⟨e, h, rfl, .inl rfl, fun hl => absurd hl hx⟩

/-- Marking an estimate as one changes nothing that counts. -/
theorem Stale.mark (h : c.Stale n) (l : LocationAndType) : (c.mark l).Stale n where
  dom x := by
    rw [isSome_mark]
    exact h.dom x
  est x e hx := by
    obtain ⟨e', he', hinc, hest, -⟩ := entry_of_mark hx
    obtain ⟨h1, h2⟩ := h.est x e' he'
    refine ⟨hest.elim (fun heq => heq.trans h1) id, ?_⟩
    rw [hinc]
    exact h2
  value := h.value
  old := h.old

/-- Marking one location of a failed validation. -/
theorem Marking.mark {remaining rest : List LocationAndType} (h : c.Marking n remaining)
    (hrest : ∀ x, x ∈ remaining ↔ x = l ∨ x ∈ rest) : (c.mark l).Marking n rest where
  dom x := by
    rw [isSome_mark]
    exact h.dom x
  inc x e hx := by
    obtain ⟨e', he', hinc, -⟩ := entry_of_mark hx
    rw [hinc]
    exact h.inc x e' he'
  est x e hx hrem := by
    obtain ⟨e', he', -, hest, hl⟩ := entry_of_mark hx
    by_cases hxl : x = l
    · exact hl hxl
    · have hx' := h.est x e' he' fun hm => hrem (((hrest x).mp hm).resolve_left hxl)
      exact hest.elim (fun heq => heq.trans hx') id
  entry := h.entry

/-- With every entry marked, invalidating the history entry leaves
nothing readable. -/
theorem Marking.invalidate {s : Shared W R B} {t : Nat} {entry : EntryState}
    (h : (s.column t).Marking n []) (he : (s.history t).invalidate n = some entry) :
    ((s.setEntry t entry).column t).Stale (n + 1) := by
  have hn : (s.history t).incarnation = n := h.entry
  rw [← hn, EntryState.invalidate_self] at he
  cases he
  refine ⟨h.dom, fun l e hl => ⟨h.est l e hl List.not_mem_nil, ?_⟩, ?_, ?_⟩
  · rw [h.inc l e hl]
    exact Nat.lt_succ_self n
  · simp [Shared.column]
  · simp [Shared.column, hn]

end Column

/-! ## What the owner's steps preserve -/

/-- A step of the owner of `v` leaves its column in order: the version
stays current, and either the owner goes on with it, or it has released
the lock and the column agrees with its status. -/
structure OwnStep (s : Shared W R B) (v : TxVersion) (s' : Shared W R B) (p' : WorkerPc R B) :
    Prop where
  inc : (s'.txStates v.txid).incarnation = v.incarnation
  ok : PcOk (s'.column v.txid) p'
  owned : p'.owned = some v ∨ p'.owned = none ∧
    (s'.txStates v.txid).status ≠ .executing ∧ (s'.txStates v.txid).status ≠ .validating
  lock : p'.locked = some v.txid ∧ s'.txLocks v.txid = s.txLocks v.txid ∨
    p'.locked = none ∧ s'.txLocks v.txid = none ∧ (s'.column v.txid).FreeOk
  notFinal : (s'.txStates v.txid).status ≠ .finality

theorem ExecOk.not_final {n : Nat} {c : Column Err R} {pc : ExecPc R B} (h : ExecOk n c pc) :
    c.state.status ≠ .finality := by
  cases pc
  case frontier tail _ | rewinding tail _ =>
    cases tail <;> simp [ExecOk, TailOk] at h <;> simp [h.1]
  case parallelError => exact h.elim
  all_goals
    intro hf
    rw [h.1] at hf
    cases hf

theorem ValOk.not_final {n : Nat} {c : Column Err R} {pc : ValPc} (h : ValOk n c pc) :
    c.state.status ≠ .finality := by
  cases pc
  case parallelError => exact h.elim
  all_goals
    intro hf
    rw [h.1] at hf
    cases hf

theorem OwnStep.stayExec {pc : ExecPc R B} (hl : s'.txLocks v.txid = s.txLocks v.txid)
    (hi : (s'.txStates v.txid).incarnation = v.incarnation)
    (hok : ExecOk v.incarnation (s'.column v.txid) pc) : OwnStep s v s' (.exec v pc) where
  inc := hi
  ok := hok
  owned := .inl rfl
  lock := .inl ⟨rfl, hl⟩
  notFinal := hok.not_final

theorem OwnStep.stayVal {pc : ValPc} (hl : s'.txLocks v.txid = s.txLocks v.txid)
    (hi : (s'.txStates v.txid).incarnation = v.incarnation)
    (hok : ValOk v.incarnation (s'.column v.txid) pc) :
    OwnStep s v s' (.val v pc : WorkerPc R B) where
  inc := hi
  ok := hok
  owned := .inl rfl
  lock := .inl ⟨rfl, hl⟩
  notFinal := hok.not_final

/-- A worker that owns nothing has locked nothing. -/
theorem WorkerPc.locked_of_not_owned {p : WorkerPc R B} (h : p.owned = none) :
    p.locked = none := by
  cases p <;> first | rfl | cases h

/-- Its program point says nothing about a column. -/
theorem PcOk.of_not_owned {c : Column Err R} {p : WorkerPc R B} (h : p.owned = none) :
    PcOk c p := by
  cases p with
  | task task => cases task <;> cases h
  | exec v pc | val v pc => cases h
  | _ => trivial

/-- The owner gives its version and the lock back. -/
theorem OwnStep.giveBack {s₀ : Shared W R B} (hp' : p'.owned = none)
    (hl : s'.txLocks v.txid = none) (hi : (s'.txStates v.txid).incarnation = v.incarnation)
    (hst : (s'.txStates v.txid).status = .executed ∨ (s'.txStates v.txid).status = .unconfirmed ∨
      (s'.txStates v.txid).status = .conflict)
    (hfree : (s'.column v.txid).FreeOk) : OwnStep s₀ v s' p' := by
  have hne : (s'.txStates v.txid).status ≠ .executing ∧
      (s'.txStates v.txid).status ≠ .validating ∧ (s'.txStates v.txid).status ≠ .finality := by
    rcases hst with hst | hst | hst <;> simp [hst]
  exact ⟨hi, .of_not_owned hp', .inr ⟨hp', hne.1, hne.2.1⟩,
    .inr ⟨WorkerPc.locked_of_not_owned hp', hl, hfree⟩, hne.2.2⟩

theorem TailOk.freeOk {c : Column Err R} {tail : ExecTail} (h : TailOk c tail) :
    (c.state.status = .executed ∨ c.state.status = .unconfirmed ∨ c.state.status = .conflict) ∧
      c.FreeOk := by
  cases tail with
  | conflict =>
    refine ⟨.inr (.inr h.1), ?_⟩
    simp only [Column.FreeOk, h.1]
    exact h.2
  | _ =>
    refine ⟨.inl h.1, ?_⟩
    simp only [Column.FreeOk, h.1]
    exact h.2

/-- `execute_task` returns. -/
theorem OwnStep.finishExec {s₀ : Shared W R B} {tail : ExecTail}
    (hi : (s.txStates v.txid).incarnation = v.incarnation) (hok : TailOk (s.column v.txid) tail) :
    OwnStep s₀ v (finishExec s v tail).1 (finishExec s v tail).2 := by
  cases tail with
  | handOff next =>
    exact .giveBack rfl (by simp [Grevm.finishExec]) hi hok.freeOk.1 hok.freeOk.2
  | conflict | rewind =>
    exact .giveBack rfl (by simp [Grevm.finishExec]) hi hok.freeOk.1 hok.freeOk.2
  | revalidate =>
    obtain ⟨hst, hpub, hres⟩ := hok
    refine ⟨?_, ?_, .inl rfl, .inr ⟨rfl, ?_, ?_⟩, ?_⟩
    · simpa [Grevm.finishExec] using hi
    · simp [Grevm.finishExec, PcOk, Shared.column]
    · simp [Grevm.finishExec]
    · have hcol : (Grevm.finishExec s v .revalidate).1.column v.txid
          = { s.column v.txid with
              state := { (s.column v.txid).state with status := .validating } } := by
        simp [Grevm.finishExec, Shared.column]
      rw [hcol]
      exact ⟨⟨hpub.exact, hpub.entry, hpub.result⟩, hres⟩
    · simp [Grevm.finishExec]

/-- The error branch and the publication of a result start from a stale
column. -/
theorem execOk_enterExec {db : IncarnationDb} {n : Nat} {prog : Prog Err R}
    {c : Column Err R} (hst : c.state.status = .executing) (h : c.Stale n) :
    ExecOk n c (enterExec blk s v.txid db prog) := by
  cases prog with
  | read call k => exact ⟨hst, h⟩
  | done result =>
    cases result with
    | error e => exact ⟨hst, h⟩
    | ok r => exact ⟨hst, h.writing, fun l => (h.dom l).mpr, h.value, h.old⟩

theorem ExecStep.own {pc : ExecPc R B} (h : ExecStep blk s v pc s' p')
    (hi : (s.txStates v.txid).incarnation = v.incarnation)
    (hok : ExecOk v.incarnation (s.column v.txid) pc) : OwnStep s v s' p' := by
  cases h with
  | read | loadBlocker | addLock h | release h | errMarked | errLoadBlocker | errAddLock h
  | errAddBlocker h | errAtHead h | errBehind h | errAbort | errAborted | key h | keyBehind h
  | keyRewind | frontier h | frontierRewind h ht hlt | rewind h => exact .stayExec rfl hi hok
  | answer => exact .stayExec rfl hi (execOk_enterExec hok.1 hok.2)
  | @publish db r p p' l x c h =>
    obtain ⟨hst, hw, hkept, hrec⟩ := hok
    refine .stayExec rfl hi ⟨hst, ?_, fun l' hl' => ?_, hrec⟩
    · rw [Publishing.writeSet_of_next h]
      exact hw.insert x Column.entries_insert
    · rw [Column.entries_insert, Function.update_apply]
      split
      · rfl
      · exact hkept l' hl'
  | chooseAccount h =>
    obtain ⟨hst, hw, hkept, hrec⟩ := hok
    refine .stayExec rfl hi ⟨hst, ?_, hkept, hrec⟩
    rw [Publishing.writeSet_of_choose h]
    exact hw
  | @compare db r p h =>
    obtain ⟨hst, hw, -, hrec⟩ := hok
    refine .stayExec rfl hi ⟨hst, ⟨?_, hw.has, hw.fresh, hw.stale⟩, ?_, hrec⟩
    · intro l hl
      by_cases hm : l ∈ p.writeSet
      · exact .inl hm
      · have hold := (hw.sub l hl).resolve_left hm
        refine .inr ?_
        unfold Column.lastWriteSet at hold
        unfold compareWriteSets
        cases hr : s.txResults v.txid with
        | none => simp [Shared.column, hr] at hold
        | some r => simpa [Shared.column, hr, hm] using hold
    · intro l hl
      unfold compareWriteSets at hl
      cases hr : s.txResults v.txid with
      | none => simp [hr] at hl
      | some r =>
        simp only [hr, List.mem_filter, List.contains_eq_mem] at hl
        simpa using hl.2
  | unpublish h =>
    obtain ⟨hst, hw, hdis, hrec⟩ := hok
    have hmem := mem_of_pick? h
    refine .stayExec rfl hi ⟨hst, ?_, fun l hl => hdis l ((hmem l).mpr (.inr hl)), hrec⟩
    exact hw.remove (hdis _ ((hmem _).mpr (.inl rfl))) hmem Column.entries_remove
  | unpublished =>
    obtain ⟨hst, hw, -, hrec⟩ := hok
    exact .stayExec rfl hi ⟨hst, hw, hrec⟩
  | recordEstimate hb h =>
    obtain ⟨hst, hw, -⟩ := hok
    obtain ⟨-, rfl⟩ := EntryState.record_eq_some_iff.mp h
    refine .stayExec rfl hi ⟨hst, hb, hw.congr rfl, ?_⟩
    simp [Shared.column]
  | @recordExact e effect entry hb he h =>
    obtain ⟨hst, hw, -⟩ := hok
    obtain ⟨-, rfl⟩ := EntryState.record_eq_some_iff.mp h
    refine .stayExec rfl hi ⟨hst, hb, hw.congr rfl, effect, ?_⟩
    simp [Shared.column]
  | recordStale h =>
    obtain ⟨-, -, -, hlt⟩ := hok
    have hlt : (s.history v.txid).incarnation < v.incarnation := hlt
    rw [EntryState.record_of_lt hlt] at h
    cases h
  | addBlocker h =>
    obtain ⟨hst, hb, hw, he⟩ := hok
    refine .stayExec rfl hi ⟨hst, by simp, hw, ?_⟩
    rw [if_pos hb]
    exact he
  | released h =>
    obtain ⟨hst, hb, hw, he⟩ := hok
    refine .stayExec rfl hi ⟨hst, fun _ => hb, hw, ?_⟩
    rw [if_neg (by simp [hb])]
    exact he
  | @settle e next =>
    obtain ⟨hst, hnext, hw, he⟩ := hok
    refine .stayExec rfl (by simpa using hi) ?_
    by_cases hb : e.db.isBlocked = true
    · have hnone : next = none := by
        cases next with
        | none => rfl
        | some n => simp [hnext rfl] at hb
      subst hnone
      rw [if_pos hb] at he
      have he : s.history v.txid = ⟨v.incarnation, .estimate⟩ := he
      simp only [hb, if_true, ExecOk, TailOk]
      refine ⟨by simp [Shared.column], ?_, ?_, ?_, ?_⟩
      · simpa [Shared.column, Column.lastWriteSet] using hw.dom
      · intro l e' he'
        obtain ⟨h1, h2⟩ := hw.entry_mem he'
        simp [Shared.column, h1, h2, hb, hi]
      · simp [Shared.column, he]
      · simp [Shared.column, he, hi]
    · have hb : e.db.isBlocked = false := by simpa using hb
      simp only [hb, Bool.false_eq_true, if_false] at he
      obtain ⟨effect, he⟩ := he
      have he : s.history v.txid = ⟨v.incarnation, .exact effect⟩ := he
      have hpub : (((s.setResult v.txid (some ⟨e.db.readSet, e.writeSet, .ok e.result⟩)).setStatus
          v.txid .executed).column v.txid).Published := by
        refine ⟨?_, ⟨effect, ?_⟩, ?_⟩
        · intro l e' he'
          obtain ⟨h1, h2⟩ := hw.entry_mem he'
          simp [Shared.column, h1, h2, hb, hi]
        · simp [Shared.column, he, hi]
        · intro r hr
          simp only [Shared.column, Shared.setStatus_txResults, Shared.setResult_txResults,
            Function.update_self, Option.some.injEq] at hr
          subst hr
          exact ⟨⟨_, rfl⟩, hw.dom⟩
      simp only [hb, Bool.false_eq_true, if_false]
      cases next with
      | some n => exact ⟨by simp [Shared.column], hpub, by simp [Shared.column]⟩
      | none =>
        dsimp only
        split
        · exact ⟨by simp [Shared.column], hpub, by simp [Shared.column]⟩
        · exact ⟨by simp [Shared.column], hpub, by simp [Shared.column]⟩
  | errMark h =>
    obtain ⟨hst, hstale⟩ := hok
    refine .stayExec rfl hi ?_
    rw [Column.column_markEstimate]
    exact ⟨hst, hstale.mark _⟩
  | @errRecord db error entry h =>
    obtain ⟨hst, hstale⟩ := hok
    obtain ⟨-, rfl⟩ := EntryState.record_eq_some_iff.mp h
    have hcol : (((s.setEntry v.txid ⟨v.incarnation, .estimate⟩).setResult v.txid
        (some ⟨∅, s.lastWriteSet v.txid, .error error⟩)).column v.txid).Stale
        (v.incarnation + 1) := by
      refine ⟨fun l => ?_, fun l e he => ?_, ?_, ?_⟩
      · simpa [Shared.column, Column.lastWriteSet, Shared.lastWriteSet] using hstale.dom l
      · obtain ⟨h1, h2⟩ := hstale.est l e he
        exact ⟨h1, by omega⟩
      · simp [Shared.column]
      · simp [Shared.column]
    refine .stayExec rfl hi ?_
    split
    · exact ⟨hst, hcol⟩
    · exact ⟨hst, hcol⟩
  | errStale h =>
    have hlt : (s.history v.txid).incarnation < v.incarnation := hok.2.old
    rw [EntryState.record_of_lt hlt] at h
    cases h
  | errSettle =>
    obtain ⟨-, hstale⟩ := hok
    refine .stayExec rfl (by simpa using hi) ⟨by simp [Shared.column], ?_⟩
    have hn : (((s.setStatus v.txid .conflict).column v.txid).state.incarnation) = v.incarnation := by
      simpa [Shared.column] using hi
    rw [hn]
    exact ⟨hstale.dom, hstale.est, hstale.value, hstale.old⟩
  | frontierFinish h ht | rewindFinish h => exact .finishExec hi hok
  | parallelError h | parallelErrorEnd h => exact hok.elim

theorem ValStep.own {pc : ValPc} (h : ValStep blk s v pc s' p')
    (hi : (s.txStates v.txid).incarnation = v.incarnation)
    (hok : ValOk v.incarnation (s.column v.txid) pc) : OwnStep s v s' p' := by
  cases h with
  | @scanned ts conflict dependency =>
    obtain ⟨hst, hpub, hres⟩ := hok
    cases conflict with
    | false => exact .stayVal rfl hi ⟨hst, hpub, hres⟩
    | true =>
      obtain ⟨r, hr⟩ := Option.isSome_iff_exists.mp hres
      obtain ⟨effect, he⟩ := hpub.entry
      have hws : (s.column v.txid).lastWriteSet = r.writeSet := by simp [Column.lastWriteSet, hr]
      refine .stayVal rfl hi ⟨hst, fun l => ?_, fun l e hl => ?_, fun l e hl hrem => ?_, ?_⟩
      · rw [hws]
        exact (hpub.result r hr).2 l
      · exact (hpub.exact l e hl).2.trans hi
      · refine absurd ?_ hrem
        have hmem : l ∈ (s.column v.txid).lastWriteSet := by
          rw [hws]
          exact ((hpub.result r hr).2 l).mp (by simp [hl])
        exact hmem
      · rw [he]
        exact hi
  | scanHistory h | scan h hv | walk h | walked h | walkBlocked h | marked | rewind h
  | loadBlocker | addLock h => exact .stayVal rfl hi hok
  | mark h =>
    obtain ⟨hst, hm⟩ := hok
    refine .stayVal rfl hi ?_
    rw [Column.column_markEstimate]
    exact ⟨hst, hm.mark (mem_of_pick? h)⟩
  | invalidateLast h hn =>
    obtain ⟨-, hm⟩ := hok
    have hentry := Column.Marking.invalidate hm h
    refine .stayVal rfl (by simpa using hi) ⟨by simp [Shared.column], ?_⟩
    exact ⟨hentry.dom, hentry.est, hentry.value, hentry.old⟩
  | invalidate h hn =>
    obtain ⟨hst, hm⟩ := hok
    exact .stayVal rfl hi ⟨hst, Column.Marking.invalidate hm h⟩
  | invalidateStale h =>
    have he : (s.history v.txid).incarnation = v.incarnation := hok.2.entry
    rw [← he, EntryState.invalidate_self] at h
    cases h
  | rewound h =>
    obtain ⟨-, hstale⟩ := hok
    refine .stayVal rfl (by simpa using hi) ⟨by simp [Shared.column], ?_⟩
    exact ⟨hstale.dom, hstale.est, hstale.value, hstale.old⟩
  | addBlocker h =>
    obtain ⟨hst, hstale⟩ := hok
    have hst : (s.txStates v.txid).status = .conflict := hst
    refine .giveBack rfl (by simp) hi (.inr (.inr hst)) ?_
    simp only [Column.FreeOk, Shared.column, Shared.setLock, hst]
    rw [hi]
    exact hstale
  | unconfirm =>
    obtain ⟨-, hpub, hres⟩ := hok
    refine .giveBack rfl (by simp) (by simpa using hi) (.inr (.inl (by simp))) ?_
    have hfree : ∀ d, ({ s.column v.txid with
        state := { (s.column v.txid).state with status := .unconfirmed, dependency := d } } :
          Column Err R).FreeOk :=
      fun d => ⟨⟨hpub.exact, hpub.entry, hpub.result⟩, hres⟩
    simpa [Shared.column] using hfree _
  | parallelError h | parallelErrorEnd h => exact hok.elim

/-! ## The invariant -/

theorem SameAt.state_eq (h : SameAt s s' t) : s'.txStates t = s.txStates t :=
  congrArg Column.state h.1

theorem owned_of_isIdle {p : WorkerPc R B} (h : p.isIdle = true) :
    p.owned = none ∧ p.locked = none := by
  cases p <;> first | exact ⟨rfl, rfl⟩ | cases h

/-- A transaction that no worker has locked and that has no task
outstanding has no owner. -/
theorem Core.not_owned {σ : SchedulerState W R B} (h : Core σ)
    (hl : ∀ w, σ.shared.txLocks t ≠ some (.worker w))
    (hs : (σ.shared.txStates t).status ≠ .executing ∧
      (σ.shared.txStates t).status ≠ .validating) (w : W) (v : TxVersion)
    (hv : (σ.workers w).owned = some v) : v.txid ≠ t := by
  rintro rfl
  obtain ⟨-, hok⟩ := h.owned w v hv
  cases hpc : σ.workers w with
  | task task =>
    cases task with
    | execution v' =>
      rw [hpc] at hv hok
      cases hv
      exact hs.1 hok
    | validation v' =>
      rw [hpc] at hv hok
      cases hv
      exact hs.2 hok
  | exec v' pc | val v' pc =>
    rw [hpc] at hv
    cases hv
    exact hl w ((h.locked w v.txid).mpr (by rw [hpc]; rfl))
  | _ =>
    rw [hpc] at hv
    cases hv

/-- A final transaction has no owner. -/
theorem Core.owned_not_final {σ : SchedulerState W R B} {w : W} (h : Core σ) {v : TxVersion}
    (hv : (σ.workers w).owned = some v) : (σ.shared.txStates v.txid).status ≠ .finality := by
  intro hf
  by_cases hl : ∀ w, σ.shared.txLocks v.txid ≠ some (.worker w)
  · exact h.not_owned hl (by simp [hf]) w v hv rfl
  · obtain ⟨w', hw'⟩ := not_forall.mp hl
    have hk := (h.locked w' v.txid).mp (not_not.mp hw')
    cases hpc : σ.workers w' with
    | exec v' pc =>
      rw [hpc] at hk
      obtain ⟨-, hok⟩ := h.owned w' v' (by rw [hpc]; rfl)
      rw [hpc] at hok
      rw [← Option.some.inj hk] at hf
      exact ExecOk.not_final hok hf
    | val v' pc =>
      rw [hpc] at hk
      obtain ⟨-, hok⟩ := h.owned w' v' (by rw [hpc]; rfl)
      rw [hpc] at hok
      rw [← Option.some.inj hk] at hf
      exact ValOk.not_final hok hf
    | _ => rw [hpc] at hk; cases hk

/-- A final transaction is published completely. -/
theorem Core.published_of_final {σ : SchedulerState W R B} (h : Core σ)
    (hf : (σ.shared.txStates t).status = .finality) : (σ.shared.column t).Published := by
  have hfree := h.free t fun w hk => by
    have hl := (h.locked w t).mp hk
    cases hpc : σ.workers w with
    | exec v pc | val v pc =>
      rw [hpc] at hl
      exact h.owned_not_final (v := v) (by rw [hpc]; rfl) (Option.some.inj hl ▸ hf)
    | _ => rw [hpc] at hl; cases hl
  simpa only [Column.FreeOk, Shared.column, hf] using hfree

/-- The owner's lock is not the finality thread's. -/
theorem Core.lock_ne_finality {σ : SchedulerState W R B} {w : W} (h : Core σ) {v : TxVersion}
    (hl : (σ.workers w).locked = some v.txid) :
    σ.shared.txLocks v.txid = some (.worker w) ∧ σ.shared.txLocks v.txid ≠ some .finality := by
  have hk := (h.locked w v.txid).mpr hl
  exact ⟨hk, by simp [hk]⟩

section

variable [DecidableEq W] {σ : SchedulerState W R B} {w : W}

/-- A step that leaves every column and lock alone, between program
points that own nothing. -/
theorem Core.quiet (h : Core σ) (hsame : ∀ t, SameAt σ.shared s' t)
    (hp : (σ.workers w).owned = none) (hp' : p'.owned = none)
    (hcursor : s'.ctx.finality = σ.shared.ctx.finality) :
    Core { σ with shared := s', workers := Function.update σ.workers w p' } := by
  have howned : ∀ w' v, ((Function.update σ.workers w p') w').owned = some v →
      (σ.workers w').owned = some v ∧ Function.update σ.workers w p' w' = σ.workers w' := by
    intro w' v hv
    by_cases hw : w' = w
    · subst hw
      simp [hp'] at hv
    · rw [Function.update_of_ne hw] at hv ⊢
      exact ⟨hv, rfl⟩
  have hlocked : ∀ w', ((Function.update σ.workers w p') w').locked = (σ.workers w').locked := by
    intro w'
    by_cases hw : w' = w
    · subst hw
      simp [WorkerPc.locked_of_not_owned hp, WorkerPc.locked_of_not_owned hp']
    · simp [Function.update_of_ne hw]
  refine ⟨fun t ht => ?_, fun w' v hv => ?_, fun w₁ w₂ v₁ v₂ h₁ h₂ => ?_, fun w' t => ?_,
    fun t ht => ?_, fun t => ?_, fun hc => ?_, fun t => ?_, hcursor ▸ h.cursor,
    hcursor ▸ h.taking⟩
  · rw [(hsame t).1]
    exact h.free t fun w' => (hsame t).2 ▸ ht w'
  · obtain ⟨hv', heq⟩ := howned w' v hv
    simp only [heq, (hsame v.txid).1, (hsame v.txid).state_eq]
    exact h.owned w' v hv'
  · exact h.unique w₁ w₂ v₁ v₂ (howned _ _ h₁).1 (howned _ _ h₂).1
  · simp only [(hsame t).2, hlocked]
    exact h.locked w' t
  · simp only [(hsame t).state_eq] at ht
    obtain ⟨w', v, hv, rfl⟩ := h.busy t ht
    refine ⟨w', v, ?_, rfl⟩
    have hw : w' ≠ w := by
      rintro rfl
      simp [hp] at hv
    simpa only [Function.update_of_ne hw] using hv
  · simp only [(hsame t).2]
    exact h.finalityLock t
  · simp only [(hsame _).state_eq]
    exact h.candidate hc
  · simp only [(hsame t).state_eq]
    exact h.final t

/-- A step of worker `w` that changes only the column of `t`, which no
other worker owns and the finality thread has not locked. -/
theorem Core.change (h : Core σ) (hsame : ∀ t', t' ≠ t → SameAt σ.shared s' t')
    (hothers : ∀ w' v, w' ≠ w → (σ.workers w').owned = some v → v.txid ≠ t)
    (hp : ∀ v, (σ.workers w).owned = some v → v.txid = t)
    (hp' : ∀ v, p'.owned = some v → v.txid = t ∧
      (s'.txStates t).incarnation = v.incarnation ∧ PcOk (s'.column t) p')
    (hl : ∀ t', (σ.workers w).locked = some t' → t' = t)
    (hlock : p'.locked = some t ∧ s'.txLocks t = some (.worker w) ∨
      p'.locked = none ∧ s'.txLocks t = none ∧ (s'.column t).FreeOk)
    (hbusy : (s'.txStates t).status = .executing ∨ (s'.txStates t).status = .validating →
      ∃ v, p'.owned = some v)
    (hfin : σ.shared.txLocks t ≠ some .finality)
    (hstatus : (s'.txStates t).status = .finality ↔ (σ.shared.txStates t).status = .finality)
    (hcursor : s'.ctx.finality = σ.shared.ctx.finality) :
    Core { σ with shared := s', workers := Function.update σ.workers w p' } := by
  have hnew : ∀ v, ((Function.update σ.workers w p') w).owned = some v → v.txid = t := by
    intro v hv
    rw [Function.update_self] at hv
    exact (hp' v hv).1
  refine ⟨fun t' ht => ?_, fun w' v hv => ?_, fun w₁ w₂ v₁ v₂ h₁ h₂ heq => ?_, fun w' t' => ?_,
    fun t' ht => ?_, fun t' => ?_, fun hc => ?_, fun t' => ?_, hcursor ▸ h.cursor,
    hcursor ▸ h.taking⟩
  · by_cases htt : t' = t
    · subst htt
      exact hlock.elim (fun hk => absurd hk.2 (ht w)) fun hk => hk.2.2
    · rw [(hsame t' htt).1]
      exact h.free t' fun w' => (hsame t' htt).2 ▸ ht w'
  · by_cases hw : w' = w
    · subst hw
      simp only [Function.update_self] at hv ⊢
      obtain ⟨rfl, hinc, hok⟩ := hp' v hv
      exact ⟨hinc, hok⟩
    · simp only [Function.update_of_ne hw] at hv ⊢
      have hne := hothers w' v hw hv
      simp only [(hsame _ hne).1, (hsame _ hne).state_eq]
      exact h.owned w' v hv
  · by_cases hw₁ : w₁ = w
    · by_cases hw₂ : w₂ = w
      · rw [hw₁, hw₂]
      · subst hw₁
        simp only [Function.update_of_ne hw₂] at h₂
        exact absurd (heq ▸ hnew v₁ h₁) (hothers w₂ v₂ hw₂ h₂)
    · simp only [Function.update_of_ne hw₁] at h₁
      by_cases hw₂ : w₂ = w
      · subst hw₂
        exact absurd (heq.trans (hnew v₂ h₂)) (hothers w₁ v₁ hw₁ h₁)
      · simp only [Function.update_of_ne hw₂] at h₂
        exact h.unique w₁ w₂ v₁ v₂ h₁ h₂ heq
  · by_cases hw : w' = w
    · subst hw
      simp only [Function.update_self]
      by_cases htt : t' = t
      · subst htt
        rcases hlock with ⟨h1, h2⟩ | ⟨h1, h2, -⟩ <;> simp [h1, h2]
      · rw [(hsame t' htt).2, h.locked]
        constructor
        · intro hk
          exact absurd (hl t' hk) htt
        · intro hk
          rcases hlock with ⟨h1, -⟩ | ⟨h1, -⟩ <;> rw [h1] at hk <;> cases hk
          exact absurd rfl htt
    · simp only [Function.update_of_ne hw]
      by_cases htt : t' = t
      · subst htt
        have hno : (σ.workers w').locked ≠ some t' := by
          intro hk
          cases hpc : σ.workers w' with
          | exec v pc | val v pc =>
            rw [hpc] at hk
            exact hothers w' v hw (by rw [hpc]; rfl) (Option.some.inj hk)
          | _ => rw [hpc] at hk; cases hk
        constructor
        · intro hk
          rcases hlock with ⟨-, h2⟩ | ⟨-, h2, -⟩ <;> rw [h2] at hk <;> cases hk
          exact absurd rfl hw
        · exact fun hk => absurd hk hno
      · rw [(hsame t' htt).2]
        exact h.locked w' t'
  · by_cases htt : t' = t
    · subst htt
      obtain ⟨v, hv⟩ := hbusy ht
      exact ⟨w, v, by simpa using hv, (hp' v hv).1⟩
    · simp only [(hsame t' htt).state_eq] at ht
      obtain ⟨w', v, hv, rfl⟩ := h.busy t' ht
      have hw : w' ≠ w := by
        rintro rfl
        exact htt (hp v hv)
      exact ⟨w', v, by simpa only [Function.update_of_ne hw] using hv, rfl⟩
  · by_cases htt : t' = t
    · subst htt
      have hno : s'.txLocks t' ≠ some .finality := by
        rcases hlock with ⟨-, h2⟩ | ⟨-, h2, -⟩ <;> simp [h2]
      exact ⟨fun hk => absurd hk hno, fun hk => absurd ((h.finalityLock t').mpr hk) hfin⟩
    · rw [(hsame t' htt).2]
      exact h.finalityLock t'
  · have hne : σ.finality.idx ≠ t := by
      rintro rfl
      exact hfin ((h.finalityLock _).mpr ⟨hc, rfl⟩)
    simp only [(hsame _ hne).state_eq]
    exact h.candidate hc
  · by_cases htt : t' = t
    · subst htt
      exact hstatus.trans (h.final t')
    · simp only [(hsame t' htt).state_eq]
      exact h.final t'

/-- A step of the owner keeps the invariant. -/
theorem Core.ownStep (h : Core σ) {v : TxVersion} (hv : (σ.workers w).owned = some v)
    (hl : (σ.workers w).locked = some v.txid)
    (hsame : ∀ t, t ≠ v.txid → SameAt σ.shared s' t) (hown : OwnStep σ.shared v s' p')
    (hnf : (σ.shared.txStates v.txid).status ≠ .finality)
    (hcursor : s'.ctx.finality = σ.shared.ctx.finality) :
    Core { σ with shared := s', workers := Function.update σ.workers w p' } := by
  obtain ⟨hk, hfin⟩ := h.lock_ne_finality hl
  refine h.change hsame (fun w' v' hw hv' heq => hw (h.unique w' w v' v hv' hv heq))
    (fun v' hv' => ?_) (fun v' hv' => ?_) (fun t' ht' => ?_) ?_ ?_ hfin ?_ hcursor
  · rw [hv] at hv'
    cases hv'
    rfl
  · rcases hown.owned with ho | ⟨ho, -⟩
    · rw [ho] at hv'
      cases hv'
      exact ⟨rfl, hown.inc, hown.ok⟩
    · rw [ho] at hv'
      cases hv'
  · rw [hl] at ht'
    exact (Option.some.inj ht').symm
  · rcases hown.lock with ⟨h1, h2⟩ | h2
    · exact .inl ⟨h1, h2.trans hk⟩
    · exact .inr h2
  · rintro hb
    rcases hown.owned with ho | ⟨-, hb1, hb2⟩
    · exact ⟨v, ho⟩
    · exact absurd hb (not_or.mpr ⟨hb1, hb2⟩)
  · exact ⟨fun hf => absurd hf hown.notFinal, fun hf => absurd hf hnf⟩

/-- A worker without a task claims an unlocked transaction. -/
theorem Core.claimTask (h : Core σ) {state : TxState} {task : Task}
    (hp : (σ.workers w).owned = none) (hl : σ.shared.txLocks t = none)
    (hs : (σ.shared.txStates t).status ≠ .executing ∧
      (σ.shared.txStates t).status ≠ .validating ∧ (σ.shared.txStates t).status ≠ .finality)
    (htask : (WorkerPc.task task : WorkerPc R B).owned = some ⟨t, state.incarnation⟩)
    (hok : PcOk ((σ.shared.setState t state).column t) (.task task : WorkerPc R B))
    (hfree : ((σ.shared.setState t state).column t).FreeOk) (hst : state.status ≠ .finality) :
    Core { σ with
      shared := σ.shared.setState t state
      workers := Function.update σ.workers w (.task task) } := by
  refine h.change (fun t' ht' => by simp [SameAt, Shared.column, ht'])
    (fun w' v _ hv => h.not_owned (by simp [hl]) ⟨hs.1, hs.2.1⟩ w' v hv) (by simp [hp])
    (fun v hv => ?_) (by simp [WorkerPc.locked_of_not_owned hp]) (.inr ⟨rfl, hl, hfree⟩)
    (fun _ => ⟨_, htask⟩) (by simp [hl]) (by simp [hst, hs.2.2]) rfl
  rw [htask] at hv
  cases hv
  exact ⟨rfl, by simp, hok⟩

/-- The owner of a task locks its transaction. -/
theorem Core.lockTask (h : Core σ) {v : TxVersion} (hv : (σ.workers w).owned = some v)
    (hp : (σ.workers w).locked = none) (hl : σ.shared.txLocks v.txid = none)
    (hcolumn : ∀ t, s'.column t = σ.shared.column t)
    (hlocks : s'.txLocks = Function.update σ.shared.txLocks v.txid (some (.worker w)))
    (hp' : p'.owned = some v) (hlocked : p'.locked = some v.txid)
    (hok : PcOk (σ.shared.column v.txid) p')
    (hcursor : s'.ctx.finality = σ.shared.ctx.finality) :
    Core { σ with shared := s', workers := Function.update σ.workers w p' } := by
  have hstate : s'.txStates v.txid = σ.shared.txStates v.txid :=
    congrArg Column.state (hcolumn v.txid)
  refine h.change (fun t' ht' => ⟨hcolumn t', by rw [hlocks, Function.update_of_ne ht']⟩)
    (fun w' v' hw hv' heq => hw (h.unique w' w v' v hv' hv heq)) (fun v' hv' => ?_)
    (fun v' hv' => ?_) (by simp [hp]) (.inl ⟨hlocked, by rw [hlocks, Function.update_self]⟩)
    (fun _ => ⟨v, hp'⟩) (by simp [hl]) (by rw [hstate]) hcursor
  · rw [hv] at hv'
    cases hv'
    rfl
  · rw [hp'] at hv'
    cases hv'
    exact ⟨rfl, by rw [hstate]; exact (h.owned w v hv).1, by rw [hcolumn]; exact hok⟩

theorem Core.worker (h : Core σ) (hstep : WorkerStep blk w σ.shared (σ.workers w) s' p') :
    Core { σ with shared := s', workers := Function.update σ.workers w p' } := by
  have hcur := hstep.cursors.1
  generalize hpc : σ.workers w = p at hstep
  cases hstep with
  | idle hp hp' | frontier hf hp hp' =>
    exact h.quiet (fun _ => ⟨rfl, rfl⟩) (hpc ▸ (owned_of_isIdle hp).1) (owned_of_isIdle hp').1 hcur
  | wake | claim | claimMissed | fetchIndex | fetchPast | claimDependent | dependentMissed
  | useless | uselessRemove => exact h.quiet (fun _ => ⟨rfl, rfl⟩) (by rw [hpc]; rfl) rfl hcur
  | @claimed t hl hs =>
    refine h.claimTask (by rw [hpc]; rfl) hl ?_ rfl (by simp [PcOk, Shared.column]) ?_ (by simp)
    · rcases hs with hs | hs <;> simp [hs]
    · have hpub : (σ.shared.column t).Published ∧ (σ.shared.column t).result.isSome := by
        have hfree := h.free t (by simp [hl])
        rcases hs with hs | hs <;> simpa [Column.FreeOk, Shared.column, hs] using hfree
      simp only [Column.FreeOk, Shared.column, Shared.setState_txStates, Function.update_self]
      exact ⟨⟨hpub.1.exact, hpub.1.entry, hpub.1.result⟩, hpub.2⟩
  | @startTask t fromNext hl hs =>
    refine h.claimTask (by rw [hpc]; rfl) hl ?_ rfl (by simp [PcOk, Shared.column]) ?_ (by simp)
    · rcases hs with hs | hs <;> simp [hs]
    · have hstale : (σ.shared.column t).Stale ((σ.shared.column t).state.incarnation + 1) := by
        have hfree := h.free t (by simp [hl])
        rcases hs with hs | hs
        · obtain ⟨h1, h2, h3, -⟩ := (show _ ∧ _ ∧ _ ∧ _ by
            simpa [Column.FreeOk, Shared.column, hs] using hfree)
          refine ⟨fun l => ?_, fun l e he => ?_, ?_, ?_⟩
          · simp [Shared.column, h2, Column.lastWriteSet, h1]
          · simp [Shared.column, h2] at he
          · simp [Shared.column, h3]
          · simp [Shared.column, h3]
        · simpa [Column.FreeOk, Shared.column, hs] using hfree
      simp only [Column.FreeOk, Shared.column, Shared.setState_txStates, Function.update_self]
      exact ⟨hstale.dom, hstale.est, hstale.value, hstale.old⟩
  | @busy t fromNext hl hs | @uselessRemoved t fromNext =>
    cases fromNext <;>
      exact h.quiet (fun _ => ⟨rfl, rfl⟩) (by rw [hpc]; rfl) rfl hcur
  | @execute v hl hs hi =>
    have hfree := h.free v.txid (by simp [hl])
    have hstale : (σ.shared.column v.txid).Stale v.incarnation := by
      simpa [Column.FreeOk, Shared.column, hs, hi] using hfree
    exact h.lockTask (by rw [hpc]; rfl) (by rw [hpc]; rfl) hl (fun _ => rfl) rfl rfl rfl
      (execOk_enterExec hs hstale) hcur
  | @executeGone v hl hs | @validateGone v hl hs =>
    have hok := (h.owned w v (by rw [hpc]; rfl)).2
    rw [hpc] at hok
    exact absurd hok hs
  | @executeInconsistent v hl hs hi =>
    exact absurd (h.owned w v (by rw [hpc]; rfl)).1 hi
  | @validate v result x hl hs hi hr hx =>
    have hfree := h.free v.txid (by simp [hl])
    have hpub : (σ.shared.column v.txid).Published ∧ (σ.shared.column v.txid).result.isSome := by
      simpa [Column.FreeOk, Shared.column, hs] using hfree
    exact h.lockTask (by rw [hpc]; rfl) (by rw [hpc]; rfl) hl (fun _ => rfl) rfl rfl rfl
      ⟨hs, hpub⟩ hcur
  | @validateInconsistent v message hl hs hbad =>
    have hfree := h.free v.txid (by simp [hl])
    have hpub : (σ.shared.column v.txid).Published ∧ (σ.shared.column v.txid).result.isSome := by
      simpa [Column.FreeOk, Shared.column, hs] using hfree
    obtain ⟨r, hr⟩ := Option.isSome_iff_exists.mp hpub.2
    obtain ⟨x, hx⟩ := (hpub.1.result r hr).1
    obtain ⟨e, he⟩ := hbad (h.owned w v (by rw [hpc]; rfl)).1 r hr
    rw [hx] at he
    cases he
  | @exec v pc s' p' hs =>
    have hv : (σ.workers w).owned = some v := by rw [hpc]; rfl
    obtain ⟨hi, hok⟩ := h.owned w v hv
    rw [hpc] at hok
    exact h.ownStep hv (by rw [hpc]; rfl) (fun t ht => hs.sameAt ht) (hs.own hi hok)
      (ExecOk.not_final hok) hcur
  | @val v pc s' p' hs =>
    have hv : (σ.workers w).owned = some v := by rw [hpc]; rfl
    obtain ⟨hi, hok⟩ := h.owned w v hv
    rw [hpc] at hok
    exact h.ownStep hv (by rw [hpc]; rfl) (fun t ht => hs.sameAt ht) (hs.own hi hok)
      (ValOk.not_final hok) hcur

end

theorem FinalityPc.locks_of_isQuiet {pc : FinalityPc} (h : pc.isQuiet = true) :
    pc.locks = false ∧ pc.isPublish = false := by
  cases pc <;> first | exact ⟨rfl, rfl⟩ | cases h

section

variable {σ : SchedulerState W R B}

/-- A step of the finality thread that leaves columns and locks alone. -/
theorem Core.finalityMove (h : Core σ) {t' : FinalityThread}
    (hsame : ∀ t, SameAt σ.shared s' t) (hidx : t'.idx = σ.finality.idx)
    (hlocks : t'.pc.locks = σ.finality.pc.locks)
    (hcursor : s'.ctx.finality + (if t'.pc.isPublish then 1 else 0) = t'.idx)
    (htake : σ.shared.ctx.finality ≤ s'.ctx.finality) :
    Core { σ with shared := s', finality := t' } := by
  refine ⟨fun t ht => ?_, fun w v hv => ?_, h.unique, fun w t => ?_, fun t ht => ?_,
    fun t => ?_, fun hc => ?_, fun t => ?_, hcursor, fun previous hp => ?_⟩
  · rw [(hsame t).1]
    exact h.free t fun w => (hsame t).2 ▸ ht w
  · simp only [(hsame _).1, (hsame _).state_eq]
    exact h.owned w v hv
  · rw [(hsame t).2]
    exact h.locked w t
  · simp only [(hsame _).state_eq] at ht
    exact h.busy t ht
  · rw [(hsame t).2, hlocks, hidx]
    exact h.finalityLock t
  · simp only [(hsame _).state_eq, hidx]
    exact h.candidate (hlocks ▸ hc)
  · simp only [(hsame _).state_eq, hidx]
    exact h.final t
  · exact Nat.lt_of_lt_of_le (h.taking previous hp) htake

/-- A step of the finality thread that releases its candidate, with the
status unchanged or final. -/
theorem Core.finalityUnlock (h : Core σ) {t' : FinalityThread}
    (hlocks : σ.finality.pc.locks = true) (hlocks' : t'.pc.locks = false)
    (hsame : ∀ t, t ≠ σ.finality.idx → SameAt σ.shared s' t)
    (hlock : s'.txLocks σ.finality.idx = none) (hfree : (s'.column σ.finality.idx).FreeOk)
    (hstatus : (s'.txStates σ.finality.idx).status ≠ .executing ∧
      (s'.txStates σ.finality.idx).status ≠ .validating)
    (hfinal : ∀ t, (s'.txStates t).status = .finality ↔ t < t'.idx)
    (hcursor : s'.ctx.finality + (if t'.pc.isPublish then 1 else 0) = t'.idx)
    (htake : σ.shared.ctx.finality ≤ s'.ctx.finality) :
    Core { σ with shared := s', finality := t' } := by
  have hk : σ.shared.txLocks σ.finality.idx = some .finality :=
    (h.finalityLock _).mpr ⟨hlocks, rfl⟩
  have hun := h.candidate hlocks
  have hno : ∀ w v, (σ.workers w).owned = some v → v.txid ≠ σ.finality.idx :=
    h.not_owned (by simp [hk]) (by simp [hun])
  refine ⟨fun t ht => ?_, fun w v hv => ?_, h.unique, fun w t => ?_, fun t ht => ?_,
    fun t => ?_, fun hc => ?_, hfinal, hcursor, fun previous hp => ?_⟩
  · by_cases htt : t = σ.finality.idx
    · subst htt
      exact hfree
    · rw [(hsame t htt).1]
      exact h.free t fun w => (hsame t htt).2 ▸ ht w
  · have hne := hno w v hv
    simp only [(hsame _ hne).1, (hsame _ hne).state_eq]
    exact h.owned w v hv
  · by_cases htt : t = σ.finality.idx
    · subst htt
      rw [hlock, ← h.locked, hk]
      simp
    · rw [(hsame t htt).2]
      exact h.locked w t
  · by_cases htt : t = σ.finality.idx
    · subst htt
      exact absurd ht (not_or.mpr hstatus)
    · simp only [(hsame t htt).state_eq] at ht
      exact h.busy t ht
  · simp only [hlocks', Bool.false_eq_true, false_and, iff_false]
    by_cases htt : t = σ.finality.idx
    · subst htt
      simp [hlock]
    · rw [(hsame t htt).2, h.finalityLock]
      simp [htt]
  · rw [hlocks'] at hc
    cases hc
  · exact Nat.lt_of_lt_of_le (h.taking previous hp) htake

theorem Core.finality (h : Core σ) {t' : FinalityThread}
    (hstep : FinalityStep blk σ.shared σ.finality s' t') :
    Core { σ with shared := s', finality := t' } := by
  have hcur := h.cursor
  cases hstep with
  | move hpc hpc' hlt =>
    obtain ⟨h1, h2⟩ := FinalityPc.locks_of_isQuiet hpc
    obtain ⟨h3, h4⟩ := FinalityPc.locks_of_isQuiet hpc'
    refine h.finalityMove (fun _ => ⟨rfl, rfl⟩) rfl (h3.trans h1.symm) ?_ (Nat.le_refl _)
    simpa [h2, h4] using hcur
  | @lock use hpc hl hs =>
    have hq : σ.finality.pc.isPublish = false := by rw [hpc]; rfl
    refine ⟨fun t ht => ?_, h.owned, h.unique, fun w t => ?_, h.busy, fun t => ?_, fun _ => hs,
      h.final, ?_, h.taking⟩
    · refine h.free t fun w hk => ?_
      by_cases htt : t = σ.finality.idx
      · subst htt
        rw [hl] at hk
        cases hk
      · refine ht w ?_
        simpa [htt] using hk
    · by_cases htt : t = σ.finality.idx
      · subst htt
        rw [← h.locked, hl]
        simp
      · simpa [htt] using h.locked w t
    · by_cases htt : t = σ.finality.idx
      · subst htt
        simp [FinalityPc.locks]
      · have hno : σ.shared.txLocks t ≠ some .finality := by
          rw [Ne, h.finalityLock]
          exact fun hk => htt hk.2
        simp [htt, hno]
    · rw [hq] at hcur
      exact hcur
  | lower hpc =>
    have hq : σ.finality.pc.isPublish = false := by rw [hpc]; rfl
    rw [hq] at hcur
    exact h.finalityMove (fun _ => ⟨rfl, rfl⟩) rfl (by rw [hpc]; rfl) hcur (Nat.le_refl _)
  | finalize hpc hts =>
    have hlocks : σ.finality.pc.locks = true := by rw [hpc]; rfl
    have hq : σ.finality.pc.isPublish = false := by rw [hpc]; rfl
    have hun := h.candidate hlocks
    have hk : σ.shared.txLocks σ.finality.idx = some .finality :=
      (h.finalityLock _).mpr ⟨hlocks, rfl⟩
    have hfree := h.free σ.finality.idx (by simp [hk])
    have hpub : (σ.shared.column σ.finality.idx).Published := by
      simp only [Column.FreeOk, Shared.column, hun] at hfree
      exact hfree.1
    refine h.finalityUnlock hlocks rfl (fun t ht => by simp [SameAt, Shared.column, ht])
      (by simp) ?_ (by simp) (fun t => ?_) ?_ (Nat.le_refl _)
    · have hcol : ((σ.shared.setStatus σ.finality.idx .finality).setLock
          σ.finality.idx none).column σ.finality.idx
          = { σ.shared.column σ.finality.idx with
              state := { (σ.shared.column σ.finality.idx).state with status := .finality } } := by
        simp [Shared.column]
      rw [hcol]
      exact ⟨hpub.exact, hpub.entry, hpub.result⟩
    · by_cases htt : t = σ.finality.idx
      · subst htt
        simp
      · simp only [Shared.setLock_txStates, Shared.setStatus_txStates, Function.update_of_ne htt]
        rw [h.final]
        omega
    · simp only [hq, Bool.false_eq_true, if_false] at hcur
      simp only [FinalityPc.isPublish, if_true, Shared.setLock_ctx, Shared.setStatus_ctx]
      omega
  | unlock hpc hpc' hno =>
    have hlocks : σ.finality.pc.locks = true := by rw [hpc]; rfl
    have hq : σ.finality.pc.isPublish = false := by rw [hpc]; rfl
    obtain ⟨h3, h4⟩ := FinalityPc.locks_of_isQuiet hpc'
    have hk : σ.shared.txLocks σ.finality.idx = some .finality :=
      (h.finalityLock _).mpr ⟨hlocks, rfl⟩
    have hun := h.candidate hlocks
    refine h.finalityUnlock hlocks h3 (fun t ht => by simp [SameAt, Shared.column, ht])
      (by simp) (h.free _ (by simp [hk])) (by simp [hun]) h.final ?_ (Nat.le_refl _)
    simpa [hq, h4] using hcur
  | publish hpc hpc' hno =>
    have hq : σ.finality.pc.isPublish = true := by rw [hpc]; rfl
    obtain ⟨h3, h4⟩ := FinalityPc.locks_of_isQuiet hpc'
    simp only [hq, if_true] at hcur
    refine h.finalityMove (fun _ => ⟨rfl, rfl⟩) rfl (by rw [hpc, h3]; rfl) ?_ ?_
    · simp [h4]
    · simp only
      omega

/-- What the commit thread shares with the columns: locks stay, and a
column keeps everything but, when taken, the result of a final
transaction. -/
theorem CommitStep.columns {t' : CommitThread R B}
    (hstep : CommitStep blk s σ.commit s' t') :
    (∀ t, s'.txLocks t = s.txLocks t) ∧ s'.txStates = s.txStates ∧ s'.history = s.history ∧
      s'.mvMemory = s.mvMemory ∧ s'.ctx.finality = s.ctx.finality ∧
      (s'.txResults = s.txResults ∨
        (∃ previous, σ.commit.pc = .take previous) ∧
          s'.txResults = Function.update s.txResults σ.commit.idx none) := by
  cases hstep
  case takeFailed hpc _ | takeNonce hpc _ _ _ | take hpc _ _ _ _ =>
    exact ⟨fun _ => rfl, rfl, rfl, rfl, rfl, .inr ⟨⟨_, hpc⟩, rfl⟩⟩
  all_goals exact ⟨fun _ => rfl, rfl, rfl, rfl, rfl, .inl rfl⟩

theorem startReward_pc {t t' : CommitThread R B} {previous : Nat} {x : SpeculativeResult R}
    (h : startReward blk t previous x = some t') (q : Nat) : t'.pc ≠ .take q := by
  unfold startReward at h
  split at h
  · split at h <;> cases h
    exact nofun
  · cases h
    exact nofun

/-- The commit loop is about to take a result only below the cursor. -/
theorem CommitStep.taking {t' : CommitThread R B} {previous : Nat}
    (hstep : CommitStep blk s σ.commit s' t') (hpc' : t'.pc = .take previous) :
    t'.idx < s'.ctx.finality := by
  cases hstep
  case ready h => exact h
  case wait h | drained h => dsimp only at hpc'; rw [hpc'] at h; cases h
  case take ht | nonceMatch ht => exact absurd hpc' (startReward_pc ht previous)
  all_goals cases hpc'

theorem Core.commit (h : Core σ) {t' : CommitThread R B}
    (hstep : CommitStep blk σ.shared σ.commit s' t') :
    Core { σ with shared := s', commit := t' } := by
  obtain ⟨hlocks, hstates, hhist, hmv, hfin, hres⟩ := hstep.columns
  -- a taken result belongs to a final transaction
  have hcol : ∀ t, s'.column t = σ.shared.column t ∨
      (σ.shared.txStates t).status = .finality ∧
        s'.column t = { σ.shared.column t with result := none } := by
    intro t
    rcases hres with hres | ⟨⟨previous, hpc⟩, hres⟩
    · exact .inl (by simp [Shared.column, hstates, hhist, hmv, hres])
    · by_cases htt : t = σ.commit.idx
      · subst htt
        exact .inr ⟨(h.final _).mpr (h.taking_lt hpc),
          by simp [Shared.column, hstates, hhist, hmv, hres]⟩
      · exact .inl (by simp [Shared.column, hstates, hhist, hmv, hres, htt])
  refine ⟨fun t ht => ?_, fun w v hv => ?_, h.unique, fun w t => ?_, fun t ht => ?_,
    fun t => ?_, fun hc => ?_, fun t => ?_, ?_, fun _ hp => hstep.taking hp⟩
  · have hfree := h.free t fun w => hlocks t ▸ ht w
    rcases hcol t with heq | ⟨hst, heq⟩
    · rw [heq]
      exact hfree
    · have hpub : (σ.shared.column t).Published := by
        simpa only [Column.FreeOk, Shared.column, hst] using hfree
      rw [heq]
      simp only [Column.FreeOk, Shared.column, hst]
      exact ⟨hpub.exact, hpub.entry, by simp⟩
  · have hown := h.owned w v hv
    rcases hcol v.txid with heq | ⟨hst, heq⟩
    · simp only [hstates, heq]
      exact hown
    · exact absurd hst (h.owned_not_final hv)
  · rw [hlocks]
    exact h.locked w t
  · simp only [hstates] at ht
    exact h.busy t ht
  · rw [hlocks]
    exact h.finalityLock t
  · simp only [hstates]
    exact h.candidate hc
  · simp only [hstates]
    exact h.final t
  · simp only [hfin]
    exact h.cursor

end

theorem core_initial (backing : B.State) : Core (initial backing : SchedulerState W R B) where
  free t _ := ⟨rfl, fun _ => rfl, rfl, rfl⟩
  owned w v hv := by cases hv
  unique w _ v _ hv := by cases hv
  locked w t := by simp [initial, WorkerPc.locked]
  busy t ht := by simp [initial] at ht
  finalityLock t := by simp [initial, FinalityPc.locks]
  candidate hc := by cases hc
  final t := by simp [initial]
  cursor := rfl
  taking _ hp := by cases hp

/-- The finality thread moves nothing but locks, its own candidate's
status and its cursor. -/
theorem FinalityStep.frame {blk : Block Err R} {s s' : Shared W R B}
    {t t' : FinalityThread}
    (hs : FinalityStep blk s t s' t') :
    s'.mvMemory = s.mvMemory ∧ s'.history = s.history ∧ s'.txResults = s.txResults ∧
      s'.ctx = { s.ctx with finality := s'.ctx.finality } ∧
      ∀ i, s'.txStates i = s.txStates i ∨ (s'.txStates i).status = .finality := by
  cases hs
  case finalize =>
    refine ⟨rfl, rfl, rfl, rfl, fun i => ?_⟩
    simp only [Shared.setLock_txStates, Shared.setStatus_txStates, Function.update_apply]
    split
    · exact .inr rfl
    · exact .inl rfl
  all_goals exact ⟨rfl, rfl, rfl, rfl, fun _ => .inl rfl⟩

theorem CommitStep.ctx_eq {blk : Block Err R} {s s' : Shared W R B}
    {t t' : CommitThread R B}
    (hs : CommitStep blk s t s' t') : s'.ctx = { s.ctx with committed := s'.ctx.committed } := by
  cases hs
  all_goals rfl

/-- A worker changes the column of its own task, or of a free transaction
that it claims. -/
theorem WorkerStep.sameAt_or_claimed {w : W} {p : WorkerPc R B}
    (hstep : WorkerStep blk w s p s' p') (hne : ∀ v, p.owned = some v → t ≠ v.txid) :
    SameAt s s' t ∨ s.txLocks t = none ∧
      (((s.txStates t).status = .executed ∨ (s.txStates t).status = .unconfirmed) ∧
        (s'.txStates t).status = .validating ∨
      ((s.txStates t).status = .initial ∨ (s.txStates t).status = .conflict) ∧
        (s'.txStates t).status = .executing) := by
  cases hstep with
  | @claimed t' hl hs =>
    by_cases htt : t = t'
    · subst htt
      exact .inr ⟨hl, .inl ⟨hs, by simp⟩⟩
    · exact .inl (by simp [SameAt, Shared.column, htt])
  | @startTask t' _ hl hs =>
    by_cases htt : t = t'
    · subst htt
      exact .inr ⟨hl, .inr ⟨hs, by simp⟩⟩
    · exact .inl (by simp [SameAt, Shared.column, htt])
  | execute | executeInconsistent | validate | validateInconsistent =>
    exact .inl (by simp [SameAt, Shared.column, hne _ rfl])
  | exec hs | val hs => exact .inl (hs.sameAt (hne _ rfl))
  | _ => exact .inl ⟨rfl, rfl⟩

/-- **Stability.** No worker changes the column of a final transaction. -/
theorem Core.worker_sameAt {σ : SchedulerState W R B} {w : W} (h : Core σ)
    (hstep : WorkerStep blk w σ.shared (σ.workers w) s' p')
    (hf : (σ.shared.txStates t).status = .finality) : SameAt σ.shared s' t := by
  have hne : ∀ v, (σ.workers w).owned = some v → t ≠ v.txid := by
    rintro v hv rfl
    exact h.owned_not_final hv hf
  rcases hstep.sameAt_or_claimed hne with hsame | ⟨-, hclaim⟩
  · exact hsame
  · simp [hf] at hclaim

/-- No worker changes the column of another worker's task. -/
theorem Core.worker_sameAt_owned {σ : SchedulerState W R B} {w w' : W} {v : TxVersion}
    (h : Core σ) (hstep : WorkerStep blk w σ.shared (σ.workers w) s' p') (hw : w' ≠ w)
    (hv : (σ.workers w').owned = some v) : SameAt σ.shared s' v.txid := by
  have hne : ∀ v', (σ.workers w).owned = some v' → v.txid ≠ v'.txid :=
    fun v' hv' ht => hw (h.unique w' w v v' hv hv' ht)
  rcases hstep.sameAt_or_claimed hne with hsame | ⟨hl, hclaim⟩
  · exact hsame
  · -- a task whose transaction is not locked has not started
    have hbusy : (σ.shared.txStates v.txid).status = .executing ∨
        (σ.shared.txStates v.txid).status = .validating := by
      by_contra hn
      exact h.not_owned (by simp [hl]) (not_or.mp hn) w' v hv rfl
    rcases hbusy with hb | hb <;> simp [hb] at hclaim

variable [DecidableEq W]

theorem Core.step {σ σ' : SchedulerState W R B} {a : Action W} (h : Core σ)
    (hs : Grevm.step blk σ a = some σ') : Core σ' := by
  rcases step_cases hs with ⟨w, shared, pc, hw, rfl⟩ | ⟨shared, t', hf, rfl⟩ | ⟨shared, t', hc, rfl⟩
  · exact h.worker hw
  · exact h.finality hf
  · exact h.commit hc

/-- Ownership holds in every run. -/
theorem core_of_reach {ok : SchedulerState W R B → Action W → Prop} {backing : B.State}
    {σ : SchedulerState W R B} (h : ReachableWhen blk backing ok σ) : Core σ :=
  h.invariant (core_initial backing) fun _ _ _ _ ih _ hs => ih.step hs

end Grevm
