/-
Grevm.Scheduler.Validity — how long a read that was found valid stays valid.

A validation compares the read set of transaction `i` with what the
transactions before `i` have published, one location at a time, while
they go on. `Column.Quiet` is a change that no comparison can notice:
estimates may come, go or be replaced, but nothing readable changes and
nothing appears where nothing was. Every other change belongs to a worker
that is going to rewind validation to `i` or before it, with a timestamp
drawn later than the change. `Dirty σ i ts` says that such a rewind is
still to come or that its timestamp, newer than `ts`, is already stored,
and it is never forgotten. So a comparison that succeeded after `ts` was
drawn still succeeds, or `i` is dirty after `ts`.
-/
import Grevm.Scheduler.CommitPrefix

namespace Grevm

variable {Err W R : Type} {B : Backing Err}

/-! ## Changes that a comparison does not notice -/

structure Column.Quiet (c c' : Column Err R) : Prop where
  absent : ∀ l, c.entries l = none → c'.entries l = none
  readable : ∀ l e, c.entries l = some e → e.estimate = false →
    ∃ e', c'.entries l = some e' ∧ e'.estimate = false ∧ e'.incarnation = e.incarnation
  exact : ∀ effect, c.entry.value = .exact effect → c'.entry = c.entry

theorem Column.Quiet.of_eq {c c' : Column Err R} (hentries : c'.entries = c.entries)
    (hentry : c'.entry = c.entry) : c.Quiet c' where
  absent l h := by rw [hentries]; exact h
  readable l e h he := ⟨e, by rw [hentries]; exact h, he, rfl⟩
  exact _ _ := hentry

/-- Nothing that transaction `i` reads changes noticeably. -/
def QuietBelow (s s' : Shared W R B) (i : Nat) : Prop :=
  ∀ t, t < i → (s.column t).Quiet (s'.column t)

section

variable {s s' : Shared W R B} {i : Nat} {anchor : Option AccountInfo}

theorem QuietBelow.history (hq : QuietBelow s s' i) (t : Nat) (effect : BeneficiaryEffect)
    (ht : t < i) (he : (s.history t).value = .exact effect) : s'.history t = s.history t :=
  (hq t ht).exact effect he

/-- The writer found stays the writer found. -/
theorem checkRead_quiet {l : LocationAndType} {version : ReadVersion} (hq : QuietBelow s s' i)
    (h : (checkRead s.mvMemory i l version).1 = false) :
    (checkRead s'.mvMemory i l version).1 = false := by
  unfold checkRead at h ⊢
  cases hf : MVMemory.latestBefore (s.mvMemory l) i with
  | none =>
    have hf' : MVMemory.latestBefore (s'.mvMemory l) i = none :=
      MVMemory.latestBefore_eq_none_iff.mpr fun k hk =>
        (hq k hk).absent l (MVMemory.latestBefore_eq_none_iff.mp hf k hk)
    rw [hf] at h
    rw [hf']
    exact h
  | some found =>
    obtain ⟨j, e⟩ := found
    rw [hf] at h
    obtain ⟨hj, he, hgap⟩ := MVMemory.latestBefore_eq_some_iff.mp hf
    simp only [Bool.or_eq_false_iff] at h
    obtain ⟨e', he', hest, hinc⟩ := (hq j hj).readable l e he h.1
    have hf' : MVMemory.latestBefore (s'.mvMemory l) i = some (j, e') :=
      MVMemory.latestBefore_eq_some_iff.mpr
        ⟨hj, he', fun k hk hk' => (hq k hk').absent l (hgap k hk hk')⟩
    rw [hf']
    simp only [hest, hinc, Bool.false_or]
    exact h.2

theorem readHolds_quiet {l : LocationAndType} {version : ReadVersion} (hq : QuietBelow s s' i)
    (h : readHolds s.mvMemory s.history anchor i l version = true) :
    readHolds s'.mvMemory s'.history anchor i l version = true := by
  cases version with
  | beneficiary expected =>
    simp only [readHolds, validateBeneficiary] at h ⊢
    cases hs : scanBefore s.history anchor i with
    | error writer => simp [hs] at h
    | ok found =>
      rw [hs] at h
      rw [show scanBefore s'.history anchor i = .ok found from
        scanFrom_congr (fun t effect => hq.history t effect) hs]
      exact h
  | storage | mvMemory v =>
    simp only [readHolds, Bool.not_eq_true'] at h ⊢
    exact checkRead_quiet hq h

end

/-! ## Rewinds to come -/

/-- The timestamp of the rewind is newer than `ts`, now or once it is
drawn; after it is stored the stored one counts. -/
def RewindPc.NewerThan (ts : Nat) : RewindPc → Prop
  | .clock => True
  | .lower timestamp => ts < timestamp
  | .cursor _ => False

/-- `execute_task` of transaction `t` has published a location its last
result had not, and has its rewind still to come. -/
def ExecPending (s : Shared W R B) (t ts : Nat) : ExecPc R B → Prop
  | .publishing _ _ p => (compareWriteSets (s.txResults t) p.writeSet).1 = true
  | .removing e _ | .recording e | .blockerLoad e | .adding e _ _ | .releasing e _
  | .settling e _ => e.writeNewLocations = true
  | .frontier tail _ => tail ≠ .revalidate
  | .rewinding _ pc => pc.NewerThan ts
  | _ => False

/-- `validate` has found a conflict and has its rewind still to come. -/
def ValPending (ts : Nat) : ValPc → Prop
  | .marking _ _ | .invalidating _ => True
  | .rewinding _ pc => pc.NewerThan ts
  | _ => False

/-- A worker on a transaction before `i` is going to rewind validation
to `i` or before it. -/
def PendingRewind (s : Shared W R B) (i ts : Nat) : WorkerPc R B → Prop
  | .exec v pc => v.txid < i ∧ ExecPending s v.txid ts pc
  | .val v pc => v.txid < i ∧ ValPending ts pc
  | _ => False

/-- Validation of `i` with a timestamp up to `ts` is superseded, or going
to be. -/
def Dirty (σ : SchedulerState W R B) (i ts : Nat) : Prop :=
  (∃ k, k ≤ i ∧ ts < σ.shared.ctx.lowerTimestamps k) ∨
    ∃ w, PendingRewind σ.shared i ts (σ.workers w)

theorem ExecTail.target_le (t : Nat) (tail : ExecTail) :
    t ≤ tail.target t ∧ tail.target t ≤ t + 1 := by
  cases tail <;> simp [ExecTail.target]

/-! ## A noticeable change comes with a rewind -/

section

variable {blk : Block Err R} {s s' : Shared W R B} {v : TxVersion} {p p' : WorkerPc R B}
  {i ts : Nat}

/-- A location the last result does not have is new. -/
theorem compareWriteSets_new {last : Option (TransactionResult Err R)}
    {writeSet : List LocationAndType} {l : LocationAndType} (hl : l ∈ writeSet)
    (hnew : l ∉ last.elim [] TransactionResult.writeSet) :
    (compareWriteSets last writeSet).1 = true := by
  cases last with
  | none => rfl
  | some last =>
    simp only [compareWriteSets, List.any_eq_true]
    exact ⟨l, hl, by simpa using hnew⟩

theorem compareWriteSets_mono {last : Option (TransactionResult Err R)}
    {writeSet writeSet' : List LocationAndType} (h : (compareWriteSets last writeSet).1 = true)
    (hsub : ∀ l, l ∈ writeSet → l ∈ writeSet') : (compareWriteSets last writeSet').1 = true := by
  cases last with
  | none => rfl
  | some last =>
    simp only [compareWriteSets, List.any_eq_true] at h ⊢
    obtain ⟨l, hl, hc⟩ := h
    exact ⟨l, hsub l hl, hc⟩

/-- Only the column of `m` may change noticeably. -/
theorem quiet_of_sameAt {m : Nat} (hother : ∀ t, t ≠ m → SameAt s s' t)
    (hm : (s.column m).Quiet (s'.column m)) (t : Nat) : (s.column t).Quiet (s'.column t) := by
  by_cases ht : t = m
  · subst ht
    exact hm
  · rw [(hother t ht).1]
    exact .of_eq rfl rfl

/-- Publishing over an estimate, or where this incarnation has published
already, is not noticed. -/
theorem Column.Writing.quiet_insert {c c' : Column Err R} {n : Nat} {blocked : Bool}
    {new old : List LocationAndType} {l : LocationAndType} {data : MemoryValue}
    (h : c.Writing n blocked new old) (hl : (c.entries l).isSome)
    (hentries : c'.entries = Function.update c.entries l (some ⟨n, data, blocked⟩))
    (hentry : c'.entry = c.entry) : c.Quiet c' where
  absent l' hl' := by
    have hne : l' ≠ l := by
      rintro rfl
      simp [hl'] at hl
    rw [hentries, Function.update_of_ne hne]
    exact hl'
  readable l' e he hest := by
    rw [hentries, Function.update_apply]
    split
    · rename_i heq
      subst heq
      by_cases hm : l' ∈ new
      · obtain ⟨hinc, hb⟩ := h.fresh l' e hm he
        exact ⟨_, rfl, hb ▸ hest, hinc.symm⟩
      · simp [(h.stale l' e hm he).1] at hest
    · exact ⟨e, he, hest, rfl⟩
  exact _ _ := hentry

/-- Removing a stale location is not noticed. -/
theorem Column.Writing.quiet_remove {c c' : Column Err R} {n : Nat} {blocked : Bool}
    {new old : List LocationAndType} {l : LocationAndType} (h : c.Writing n blocked new old)
    (hl : l ∉ new) (hentries : c'.entries = Function.update c.entries l none)
    (hentry : c'.entry = c.entry) : c.Quiet c' where
  absent l' hl' := by
    rw [hentries, Function.update_apply]
    split <;> first | rfl | exact hl'
  readable l' e he hest := by
    have hne : l' ≠ l := by
      rintro rfl
      simp [(h.stale l' e hl he).1] at hest
    rw [hentries, Function.update_of_ne hne]
    exact ⟨e, he, hest, rfl⟩
  exact _ _ := hentry

/-- Marking estimates again is not noticed. -/
theorem Column.Stale.quiet_mark {c : Column Err R} {n : Nat} (h : c.Stale n)
    (l : LocationAndType) : c.Quiet (c.mark l) where
  absent l' hl' := by
    have := Column.isSome_mark (c := c) (l := l) l'
    simpa [hl'] using this
  readable l' e he hest := by simp [(h.est l' e he).1] at hest
  exact _ _ := rfl

/-- What is recorded over an estimate is not noticed. -/
theorem Column.quiet_record {c c' : Column Err R} (hentries : c'.entries = c.entries)
    (hvalue : c.entry.value = .estimate) : c.Quiet c' where
  absent l h := by rw [hentries]; exact h
  readable l e h he := ⟨e, by rw [hentries]; exact h, he, rfl⟩
  exact effect he := by simp [hvalue] at he

theorem ExecStep.quiet {pc : ExecPc R B} (h : ExecStep blk s v pc s' p')
    (hok : ExecOk v.incarnation (s.column v.txid) pc) :
    (∀ t, (s.column t).Quiet (s'.column t)) ∨
      ∃ pc', p' = .exec v pc' ∧ ∀ ts, ExecPending s' v.txid ts pc' := by
  have hother : ∀ t, t ≠ v.txid → SameAt s s' t := fun t ht => h.sameAt ht
  cases h
  case publish db r p p' l x c h =>
    obtain ⟨-, hw, hkept, -⟩ := hok
    by_cases hl : ((s.column v.txid).entries l).isSome
    · exact .inl (quiet_of_sameAt hother (hw.quiet_insert hl Column.entries_insert rfl))
    · refine .inr ⟨_, rfl, fun _ => ?_⟩
      refine compareWriteSets_new (l := l) ?_ fun hmem => hl (hkept l hmem)
      rw [Publishing.writeSet_of_next h]
      exact List.mem_insert_self
  case unpublish e remaining l remaining' c h =>
    obtain ⟨-, hw, hdis, -⟩ := hok
    have hl : l ∉ e.writeSet := hdis l ((mem_of_pick? h l).mpr (.inl rfl))
    exact .inl (quiet_of_sameAt hother (hw.quiet_remove hl Column.entries_remove rfl))
  case errMark h =>
    refine .inl (quiet_of_sameAt hother ?_)
    rw [Column.column_markEstimate]
    exact hok.2.quiet_mark _
  case recordEstimate h | recordExact h =>
    exact .inl (quiet_of_sameAt hother (Column.quiet_record rfl hok.2.2.1))
  case errRecord h =>
    exact .inl (quiet_of_sameAt hother (Column.quiet_record rfl hok.2.value))
  case parallelError | parallelErrorEnd => exact hok.elim
  case frontierFinish tail _ _ _ _ _ =>
    cases tail <;> exact .inl fun t => .of_eq rfl rfl
  case rewindFinish tail _ _ _ => cases tail <;> exact .inl fun t => .of_eq rfl rfl
  all_goals exact .inl fun t => .of_eq rfl rfl

theorem ValStep.quiet {pc : ValPc} (h : ValStep blk s v pc s' p')
    (hok : ValOk v.incarnation (s.column v.txid) pc) :
    (∀ t, (s.column t).Quiet (s'.column t)) ∨ blk.size ≤ v.txid + 1 ∨
      ∃ pc', p' = .val v pc' ∧ ∀ ts, ValPending ts pc' := by
  cases h
  case mark | invalidate => exact .inr (.inr ⟨_, rfl, fun _ => trivial⟩)
  case invalidateLast hn => exact .inr (.inl hn)
  case parallelError | parallelErrorEnd => exact hok.elim
  all_goals exact .inl fun t => .of_eq rfl rfl

/-- **A noticeable change comes with a rewind.** -/
theorem WorkerStep.quiet {w : W} (h : WorkerStep blk w s p s' p')
    (hok : ∀ v, p.owned = some v → PcOk (s.column v.txid) p) (hi : i < blk.size) (ts : Nat) :
    QuietBelow s s' i ∨ PendingRewind s' i ts p' := by
  cases h with
  | @exec v pc s' p' hs =>
    rcases hs.quiet (hok v rfl) with hq | ⟨pc', rfl, hp⟩
    · exact .inl fun t _ => hq t
    · by_cases hlt : v.txid < i
      · exact .inr ⟨hlt, hp ts⟩
      · exact .inl fun t ht => by
          rw [(hs.sameAt (show t ≠ v.txid by omega)).1]
          exact .of_eq rfl rfl
  | @val v pc s' p' hs =>
    by_cases hlt : v.txid < i
    · rcases hs.quiet (hok v rfl) with hq | hn | ⟨pc', rfl, hp⟩
      · exact .inl fun t _ => hq t
      · omega
      · exact .inr ⟨hlt, hp ts⟩
    · exact .inl fun t ht => by
        rw [(hs.sameAt (show t ≠ v.txid by omega)).1]
        exact .of_eq rfl rfl
  | _ => exact .inl fun t _ => .of_eq rfl rfl

end

/-! ## Timestamps under the steps of a worker -/

/-- The clock and the lower bounds only grow, and a lower bound only for
a worker that has locked transaction `m` or, with `m` absent, not at
all. -/
structure ClockStep (ctx ctx' : SchedulerContext) (m : Option Nat) : Prop where
  clock : ctx.logicalClock ≤ ctx'.logicalClock
  lower : ∀ k, ctx.lowerTimestamps k ≤ ctx'.lowerTimestamps k
  frame : ∀ k, ctx'.lowerTimestamps k ≠ ctx.lowerTimestamps k → ∃ t, m = some t ∧ t ≤ k

section

variable {blk : Block Err R} {s s' : Shared W R B} {v : TxVersion} {p p' : WorkerPc R B}
  {i ts : Nat} {ctx ctx' : SchedulerContext} {m : Option Nat}

theorem ClockStep.of_eq (hclock : ctx'.logicalClock = ctx.logicalClock)
    (hlower : ctx'.lowerTimestamps = ctx.lowerTimestamps) : ClockStep ctx ctx' m where
  clock := Nat.le_of_eq hclock.symm
  lower k := by rw [hlower]
  frame k hk := absurd (congrFun hlower k) hk

theorem ClockStep.frontier {numTxs : Nat} {pc : FrontierPc} {next : FrontierPc ⊕ Nat}
    (h : ctx.frontierStep numTxs pc = (ctx', next)) : ClockStep ctx ctx' m := by
  rw [SchedulerContext.frontierStep_eq h]
  exact .of_eq rfl rfl

theorem ClockStep.rewind {index t : Nat} {pc : RewindPc} {next : Option RewindPc}
    (h : rewindStep ctx index pc = (ctx', next)) (ht : t ≤ index) :
    ClockStep ctx ctx' (some t) := by
  cases pc with
  | clock =>
    cases h
    exact ⟨Nat.le_succ _, fun _ => le_rfl, fun k hk => absurd rfl hk⟩
  | lower timestamp =>
    cases h
    refine ⟨le_rfl, fun k => ?_, fun k hk => ⟨t, rfl, ?_⟩⟩
    · simp only [SchedulerContext.raiseLower, Function.update_apply]
      split
      · rename_i heq
        subst heq
        exact Nat.le_max_left _ _
      · exact le_rfl
    · by_contra hlt
      refine hk (Function.update_of_ne ?_ _ _)
      omega
  | cursor timestamp =>
    cases h
    exact .of_eq rfl rfl

theorem ExecStep.clockStep {pc : ExecPc R B} (h : ExecStep blk s v pc s' p') :
    ClockStep s.ctx s'.ctx (some v.txid) := by
  cases h
  case frontier h | frontierRewind h _ _ => exact .frontier h
  case frontierFinish h _ => rw [finishExec_ctx]; exact .frontier h
  case rewind tail _ _ _ h => exact .rewind h (tail.target_le v.txid).1
  case rewindFinish tail _ _ h => rw [finishExec_ctx]; exact .rewind h (tail.target_le v.txid).1
  all_goals exact .of_eq rfl rfl

theorem ValStep.clockStep {pc : ValPc} (h : ValStep blk s v pc s' p') :
    ClockStep s.ctx s'.ctx (some v.txid) := by
  cases h
  case rewind h | rewound h => exact .rewind h (Nat.le_succ _)
  all_goals exact .of_eq rfl rfl

theorem WorkerStep.clockStep {w : W} (h : WorkerStep blk w s p s' p') :
    ClockStep s.ctx s'.ctx p.locked := by
  cases h with
  | frontier h => exact .frontier h
  | validate => exact ⟨Nat.le_succ _, fun _ => le_rfl, fun k hk => absurd rfl hk⟩
  | exec hs | val hs => exact hs.clockStep
  | _ => exact .of_eq rfl rfl

/-- Only the end of a successful scan raises the timestamp of a
validation. -/
theorem WorkerStep.unconfirmed {w : W} (h : WorkerStep blk w s p s' p') :
    s'.ctx.unconfirmedTimestamps = s.ctx.unconfirmedTimestamps ∨
      ∃ v ts dependency, p = .val v (.unconfirming ts dependency) ∧
        s'.ctx.unconfirmedTimestamps = Function.update s.ctx.unconfirmedTimestamps v.txid
          (max (s.ctx.unconfirmedTimestamps v.txid) ts) := by
  cases h with
  | frontier h => rw [SchedulerContext.frontierStep_eq h]; exact .inl rfl
  | exec hs =>
    refine .inl ?_
    cases hs
    case frontier h | frontierRewind h _ _ => rw [SchedulerContext.frontierStep_eq h]
    case frontierFinish h _ => rw [finishExec_ctx, SchedulerContext.frontierStep_eq h]
    case rewind h => rw [rewindStep_eq h]
    case rewindFinish h => rw [finishExec_ctx, rewindStep_eq h]
    all_goals rfl
  | val hs =>
    cases hs
    case unconfirm => exact .inr ⟨_, _, _, rfl, rfl⟩
    case rewind h | rewound h => rw [rewindStep_eq h]; exact .inl rfl
    all_goals exact .inl rfl
  | _ => exact .inl rfl

/-! ## A rewind is never forgotten -/

/-- A rewind stores a timestamp drawn after `ts`. -/
theorem RewindPc.NewerThan.step {index : Nat} {pc : RewindPc} {next : Option RewindPc}
    (hp : pc.NewerThan ts) (hts : ts < ctx.logicalClock)
    (h : rewindStep ctx index pc = (ctx', next)) :
    (∃ pc', next = some pc' ∧ pc'.NewerThan ts) ∨ ts < ctx'.lowerTimestamps index := by
  cases pc with
  | clock =>
    cases h
    exact .inl ⟨_, rfl, hts⟩
  | lower timestamp =>
    cases h
    refine .inr ?_
    simp only [SchedulerContext.raiseLower, Function.update_self]
    exact Nat.lt_of_lt_of_le hp (Nat.le_max_right _ _)
  | cursor timestamp => exact hp.elim

theorem ExecStep.pending {pc : ExecPc R B} (h : ExecStep blk s v pc s' p')
    (hok : PcOk (s'.column v.txid) p') (hp : ExecPending s v.txid ts pc) (hlt : v.txid < i)
    (hi : i < blk.size) (hts : ts < s.ctx.logicalClock) :
    PendingRewind s' i ts p' ∨ ∃ k, k ≤ i ∧ ts < s'.ctx.lowerTimestamps k := by
  cases h
  case publish h =>
    refine .inl ⟨hlt, compareWriteSets_mono hp fun l hl => ?_⟩
    rw [Publishing.writeSet_of_next h]
    exact List.mem_insert_of_mem hl
  case chooseAccount h =>
    refine .inl ⟨hlt, ?_⟩
    simp only [ExecPending, Publishing.writeSet_of_choose h]
    exact hp
  case recordStale => exact hok.elim
  case settle e next =>
    refine .inl ⟨hlt, ?_⟩
    have hnew : e.writeNewLocations = true := hp
    cases next with
    | some next => exact nofun
    | none =>
      simp only [ExecPending, hnew, if_true]
      split <;> exact nofun
  case frontierFinish tail _ _ _ _ ht =>
    have htarget := (tail.target_le v.txid).2
    rcases ht with rfl | hge
    · exact absurd rfl hp
    · omega
  case frontierRewind => exact .inl ⟨hlt, trivial⟩
  case rewind tail pc ctx pc' h =>
    have htarget := (tail.target_le v.txid).2
    rcases RewindPc.NewerThan.step hp hts h with ⟨pc'', heq, hp'⟩ | hlow
    · cases heq
      exact .inl ⟨hlt, hp'⟩
    · exact .inr ⟨_, by omega, hlow⟩
  case rewindFinish tail pc ctx h =>
    cases pc with
    | cursor timestamp => exact hp.elim
    | _ => cases h
  all_goals first | exact .inl ⟨hlt, hp⟩ | exact hp.elim

theorem ValStep.pending {pc : ValPc} (h : ValStep blk s v pc s' p')
    (hok : PcOk (s'.column v.txid) p') (hp : ValPending ts pc) (hlt : v.txid < i)
    (hi : i < blk.size) (hts : ts < s.ctx.logicalClock) :
    PendingRewind s' i ts p' ∨ ∃ k, k ≤ i ∧ ts < s'.ctx.lowerTimestamps k := by
  cases h
  case invalidateLast hn => omega
  case invalidateStale => exact hok.elim
  case rewind h =>
    rcases RewindPc.NewerThan.step hp hts h with ⟨pc'', heq, hp'⟩ | hlow
    · cases heq
      exact .inl ⟨hlt, hp'⟩
    · exact .inr ⟨_, by omega, hlow⟩
  case rewound pc ctx h =>
    cases pc with
    | cursor timestamp => exact hp.elim
    | _ => cases h
  all_goals first | exact .inl ⟨hlt, hp⟩ | exact hp.elim

/-- A rewind to come depends on the own result only. -/
theorem PendingRewind.congr (h : PendingRewind s i ts p)
    (hres : ∀ v, p.owned = some v → s'.txResults v.txid = s.txResults v.txid) :
    PendingRewind s' i ts p := by
  cases p with
  | exec v pc =>
    obtain ⟨hlt, hp⟩ := h
    refine ⟨hlt, ?_⟩
    cases pc with
    | publishing db r p =>
      simp only [ExecPending, hres v rfl]
      exact hp
    | _ => exact hp
  | val v pc => exact h
  | _ => exact h.elim

end

/-! ## What a validation may rely on -/

/-- From `σ` to `σ'` a read of transaction `i` found valid after `ts`
stays valid, or `i` is dirty. -/
structure Kept (σ σ' : SchedulerState W R B) (i ts : Nat) : Prop where
  dirty : Dirty σ i ts → Dirty σ' i ts
  quiet : QuietBelow σ.shared σ'.shared i ∨ Dirty σ' i ts

section

variable {blk : Block Err R} {σ : SchedulerState W R B} {s' : Shared W R B}
  {i ts : Nat}

theorem Core.kept_worker [DecidableEq W] {w : W} {p' : WorkerPc R B} (h : Core σ)
    (hstep : WorkerStep blk w σ.shared (σ.workers w) s' p') (hi : i < blk.size)
    (hts : ts < σ.shared.ctx.logicalClock) :
    Kept σ { σ with shared := s', workers := Function.update σ.workers w p' } i ts := by
  refine ⟨?_, ?_⟩
  · rintro (⟨k, hk, hlow⟩ | ⟨w', hp⟩)
    · exact .inl ⟨k, hk, Nat.lt_of_lt_of_le hlow (hstep.clockStep.lower k)⟩
    by_cases hw : w' = w
    · subst hw
      have hpend : PendingRewind s' i ts p' ∨ ∃ k, k ≤ i ∧ ts < s'.ctx.lowerTimestamps k := by
        have hown := h.owned w'
        generalize σ.workers w' = p at hstep hp hown
        cases hstep with
        | @exec v pc s' p' hs | @val v pc s' p' hs =>
          have hstep := hs.own (hown v rfl).1 (hown v rfl).2
          exact hs.pending hstep.ok hp.2 hp.1 hi hts
        | idle hp' _ => cases p <;> first | exact hp.elim | cases hp'
        | frontier _ hp' _ => cases p <;> first | exact hp.elim | cases hp'
        | _ => exact hp.elim
      rcases hpend with hp' | hlow
      · exact .inr ⟨w', by simpa using hp'⟩
      · exact .inl hlow
    · refine .inr ⟨w', ?_⟩
      simp only [Function.update_of_ne hw]
      refine hp.congr fun v hv => ?_
      exact congrArg Column.result (h.worker_sameAt_owned hstep hw hv).1
  · rcases hstep.quiet (fun v hv => (h.owned w v hv).2) hi ts with hq | hp
    · exact .inl hq
    · exact .inr (.inr ⟨w, by simpa using hp⟩)

/-- A thread that leaves the versions, the lower bounds and the results
of outstanding tasks alone. -/
theorem kept_of_same {σ' : SchedulerState W R B} (hworkers : σ'.workers = σ.workers)
    (hmv : σ'.shared.mvMemory = σ.shared.mvMemory) (hhist : σ'.shared.history = σ.shared.history)
    (hlower : σ'.shared.ctx.lowerTimestamps = σ.shared.ctx.lowerTimestamps)
    (hres : ∀ w v, (σ.workers w).owned = some v →
      σ'.shared.txResults v.txid = σ.shared.txResults v.txid) : Kept σ σ' i ts := by
  refine ⟨?_, .inl fun t _ => .of_eq ?_ ?_⟩
  · rintro (⟨k, hk, hlow⟩ | ⟨w, hp⟩)
    · exact .inl ⟨k, hk, by rw [hlower]; exact hlow⟩
    · exact .inr ⟨w, by rw [hworkers]; exact hp.congr (hres w)⟩
  · simp [Shared.column, hmv]
  · simp [Shared.column, hhist]

end

end Grevm
