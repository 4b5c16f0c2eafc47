/-
Grevm.Scheduler.Revalidate — no transaction is left behind the
validation cursor.

A validation whose timestamp a rewind has overtaken has to run again.
`Covered` says that the validation cursor is still going to reach the
transaction; `Revalidation` says that every executed transaction is
covered once its worker lets it go, that every unconfirmed transaction
is covered unless its timestamp is newer than every rewind at or before
it, and that the bound the finality thread carries is the bound of one
of those rewinds.
-/
import Grevm.Scheduler.Finality

namespace Grevm

variable {Err W R : Type} {B : Backing Err}

/-! ## The validation cursor under the steps of a worker -/

/-- The rewind a worker is in: its target, and the access it is at. -/
def WorkerPc.rewindAt : WorkerPc R B → Option (Nat × RewindPc)
  | .exec v (.rewinding tail pc) => some (tail.target v.txid, pc)
  | .val v (.rewinding _ pc) => some (v.txid + 1, pc)
  | _ => none

/-- The cursor, the clock and the lower bounds change by the access of
the rewind the worker is in, by a claim, or not at all but for the
clock. -/
inductive CursorMove (s : Shared W R B) (p : WorkerPc R B) (s' : Shared W R B) (p' : WorkerPc R B) :
    Prop where
  | draw {n} (hp : p.rewindAt = some (n, .clock))
      (hvalidation : s'.ctx.validation = s.ctx.validation)
      (hclock : s'.ctx.logicalClock = s.ctx.logicalClock + 1)
      (hlower : s'.ctx.lowerTimestamps = s.ctx.lowerTimestamps)
      (hp' : p'.rewindAt = some (n, .lower s.ctx.logicalClock))
  | raise {n ts} (hp : p.rewindAt = some (n, .lower ts))
      (hvalidation : s'.ctx.validation = s.ctx.validation)
      (hclock : s'.ctx.logicalClock = s.ctx.logicalClock)
      (hlower : s'.ctx.lowerTimestamps
        = Function.update s.ctx.lowerTimestamps n (max (s.ctx.lowerTimestamps n) ts))
      (hp' : p'.rewindAt = some (n, .cursor ts))
  | rewind {n ts} (hp : p.rewindAt = some (n, .cursor ts))
      (hvalidation : s'.ctx.validation = min s.ctx.validation n)
      (hclock : s'.ctx.logicalClock = s.ctx.logicalClock)
      (hlower : s'.ctx.lowerTimestamps = s.ctx.lowerTimestamps)
      (hp' : p'.rewindAt = none)
  | claim (hvalidation : s'.ctx.validation = s.ctx.validation + 1)
      (hclock : s'.ctx.logicalClock = s.ctx.logicalClock)
      (hlower : s'.ctx.lowerTimestamps = s.ctx.lowerTimestamps)
      (hp : p.isIdle = true) (hp' : p' = .claimLock s.ctx.validation)
  | keep (hvalidation : s'.ctx.validation = s.ctx.validation)
      (hclock : s.ctx.logicalClock ≤ s'.ctx.logicalClock)
      (hlower : s'.ctx.lowerTimestamps = s.ctx.lowerTimestamps)
      (hp : p.rewindAt = none)
      (hp' : ∀ n pc, p'.rewindAt = some (n, pc) → pc = .clock)

section

variable {blk : Block Err R} {s s' : Shared W R B} {v : TxVersion} {p p' : WorkerPc R B} {w : W}
  {t : Nat}

theorem rewindAt_of_isIdle (h : p.isIdle = true) : p.rewindAt = none := by
  cases p <;> first | rfl | cases h

theorem rewindAt_finishExec {tail : ExecTail} : (finishExec s v tail).2.rewindAt = none := by
  cases tail <;> rfl

theorem rewindAt_enterExec {s : Shared W R B} {db : IncarnationDb} {prog : Prog Err R} :
    (WorkerPc.exec v (enterExec blk s t db prog) : WorkerPc R B).rewindAt = none := by
  cases prog with
  | read => rfl
  | done result => cases result <;> rfl

/-- A step that leaves the cursor and the clock alone. -/
theorem CursorMove.away (hvalidation : s'.ctx.validation = s.ctx.validation)
    (hclock : s'.ctx.logicalClock = s.ctx.logicalClock)
    (hlower : s'.ctx.lowerTimestamps = s.ctx.lowerTimestamps) (hp : p.rewindAt = none)
    (hp' : p'.rewindAt = none) : CursorMove s p s' p' :=
  .keep hvalidation (Nat.le_of_eq hclock.symm) hlower hp fun n pc h => by rw [hp'] at h; cases h

theorem CursorMove.of_rewindStep {n : Nat} {pc : RewindPc} {next : Option RewindPc}
    (hmove : rewindStep s.ctx n pc = (s'.ctx, next)) (hp : p.rewindAt = some (n, pc))
    (hp' : p'.rewindAt = next.map fun pc => (n, pc)) : CursorMove s p s' p' := by
  have hctx : s'.ctx = (rewindStep s.ctx n pc).1 := by rw [hmove]
  have hnext : next = (rewindStep s.ctx n pc).2 := by rw [hmove]
  subst hnext
  cases pc with
  | clock => exact .draw hp (by rw [hctx]; rfl) (by rw [hctx]; rfl) (by rw [hctx]; rfl) hp'
  | lower ts => exact .raise hp (by rw [hctx]; rfl) (by rw [hctx]; rfl) (by rw [hctx]; rfl) hp'
  | cursor ts => exact .rewind hp (by rw [hctx]; rfl) (by rw [hctx]; rfl) (by rw [hctx]; rfl) hp'

theorem ExecStep.cursorMove {pc : ExecPc R B} (h : ExecStep blk s v pc s' p') :
    CursorMove s (.exec v pc) s' p' := by
  cases h
  case frontier h => rw [SchedulerContext.frontierStep_eq h]; exact .away rfl rfl rfl rfl rfl
  case frontierFinish h _ =>
    rw [SchedulerContext.frontierStep_eq h]
    refine .away ?_ ?_ ?_ rfl rewindAt_finishExec <;> rw [finishExec_ctx]
  case frontierRewind h _ _ =>
    rw [SchedulerContext.frontierStep_eq h]
    exact .keep rfl le_rfl rfl rfl fun n pc heq => by cases heq; rfl
  case rewind h => exact .of_rewindStep h rfl rfl
  case rewindFinish h =>
    exact .of_rewindStep (by rw [finishExec_ctx, h]) rfl rewindAt_finishExec
  case answer => exact .away rfl rfl rfl rfl rewindAt_enterExec
  case errRecord db _ _ _ =>
    refine .away rfl rfl rfl rfl ?_
    generalize db.isBlocked = blocked
    cases blocked <;> rfl
  all_goals exact .away rfl rfl rfl rfl rfl

theorem ValStep.cursorMove {pc : ValPc} (h : ValStep blk s v pc s' p') :
    CursorMove s (.val v pc) s' p' := by
  cases h
  case scanned conflict dependency =>
    refine .away rfl rfl rfl rfl ?_
    cases conflict <;> rfl
  case invalidate => exact .keep rfl le_rfl rfl rfl fun n pc heq => by cases heq; rfl
  case rewind h | rewound h => exact .of_rewindStep h rfl rfl
  all_goals exact .away rfl rfl rfl rfl rfl

theorem WorkerStep.cursorMove (h : WorkerStep blk w s p s' p') : CursorMove s p s' p' := by
  cases h with
  | idle hp hp' =>
    exact .away rfl rfl rfl (rewindAt_of_isIdle hp) (rewindAt_of_isIdle hp')
  | frontier hmove hp hp' =>
    rw [SchedulerContext.frontierStep_eq hmove]
    exact .away rfl rfl rfl (rewindAt_of_isIdle hp) (rewindAt_of_isIdle hp')
  | claim => exact .claim rfl rfl rfl rfl rfl
  | validate => exact .keep rfl (Nat.le_succ _) rfl rfl fun n pc heq => by cases heq
  | exec hs | val hs => exact hs.cursorMove
  | execute => exact .away rfl rfl rfl rfl rewindAt_enterExec
  | @busy t fromNext | @uselessRemoved t fromNext =>
    cases fromNext <;> exact .away rfl rfl rfl rfl rfl
  | _ => exact .away rfl rfl rfl rfl rfl

end

/-! ## Covered transactions -/

/-- The validation cursor is going to reach `t`: it is not past `t`, or
`t` has just been claimed, or a rewind to `t` or before is at its last
access. -/
def Covered (σ : SchedulerState W R B) (t : Nat) : Prop :=
  σ.shared.ctx.validation ≤ t ∨ (∃ w, σ.workers w = .claimLock t) ∨
    ∃ w n ts, (σ.workers w).rewindAt = some (n, .cursor ts) ∧ n ≤ t

/-- The timestamp is newer than every rewind at or before `t`. -/
def Newest (ctx : SchedulerContext) (t ts : Nat) : Prop :=
  ∀ k, k ≤ t → ctx.lowerTimestamps k < ts

section

variable {blk : Block Err R} {σ : SchedulerState W R B} {s' : Shared W R B} {p' : WorkerPc R B}
  {w : W} {t ts : Nat} [DecidableEq W]

/-- A covered transaction stays covered until its claim is looked at. -/
theorem Covered.step (h : Covered σ t) (hmove : CursorMove σ.shared (σ.workers w) s' p') :
    Covered { σ with shared := s', workers := Function.update σ.workers w p' } t ∨
      σ.workers w = .claimLock t := by
  rcases h with hle | ⟨w', hw'⟩ | ⟨w', n, ts, hw', hn⟩
  · cases hmove with
    | draw _ hvalidation | raise _ hvalidation | keep hvalidation =>
      exact .inl (.inl (by simp only [hvalidation]; exact hle))
    | rewind _ hvalidation => exact .inl (.inl (by simp only [hvalidation]; omega))
    | claim hvalidation _ _ _ hp' =>
      rcases Nat.lt_or_eq_of_le hle with hlt | heq
      · exact .inl (.inl (by simp only [hvalidation]; omega))
      · exact .inl (.inr (.inl ⟨w, by simp [hp', heq]⟩))
  · by_cases hw : w' = w
    · subst hw
      exact .inr hw'
    · exact .inl (.inr (.inl ⟨w', by simpa [hw] using hw'⟩))
  · by_cases hw : w' = w
    · subst hw
      cases hmove with
      | draw hp | raise hp | keep _ _ _ hp => rw [hp] at hw'; cases hw'
      | rewind hp hvalidation =>
        rw [hp] at hw'
        cases hw'
        exact .inl (.inl (by simp only [hvalidation]; omega))
      | claim _ _ _ hp => rw [rewindAt_of_isIdle hp] at hw'; cases hw'
    · exact .inl (.inr (.inr ⟨w', n, ts, by simpa [hw] using hw', hn⟩))

/-- A rewind that overtakes a timestamp covers the transaction. -/
theorem Newest.step (h : Newest σ.shared.ctx t ts)
    (hmove : CursorMove σ.shared (σ.workers w) s' p') :
    Newest s'.ctx t ts ∨
      Covered { σ with shared := s', workers := Function.update σ.workers w p' } t := by
  cases hmove with
  | draw _ _ _ hlower | rewind _ _ _ hlower | claim _ _ hlower | keep _ _ hlower =>
    exact .inl fun k hk => by rw [hlower]; exact h k hk
  | @raise n ts' _ _ _ hlower hp' =>
    by_cases hn : n ≤ t
    · exact .inr (.inr (.inr ⟨w, n, ts', by simpa using hp', hn⟩))
    · refine .inl fun k hk => ?_
      simpa [hlower, show k ≠ n by omega] using h k hk

end

/-! ## The invariant in every run -/

/-- The timestamp of a validation that has found no conflict yet. -/
def ValPc.stamp : ValPc → Option Nat
  | .scanning ts _ _ _ | .scanningHistory ts _ _ _ _ _ | .unconfirming ts _ => some ts
  | _ => none

structure Revalidation (blk : Block Err R) (σ : SchedulerState W R B) : Prop where
  clock : ∀ k, σ.shared.ctx.lowerTimestamps k < σ.shared.ctx.logicalClock
  drawn : ∀ w n ts, (σ.workers w).rewindAt = some (n, .lower ts) → ts < σ.shared.ctx.logicalClock
  executed : ∀ t, t < blk.size → (σ.shared.txStates t).status = .executed →
    (∃ w, σ.shared.txLocks t = some (.worker w)) ∨ Covered σ t
  unconfirmed : ∀ t, (σ.shared.txStates t).status = .unconfirmed →
    0 < σ.shared.ctx.unconfirmedTimestamps t ∧
      (Newest σ.shared.ctx t (σ.shared.ctx.unconfirmedTimestamps t) ∨ Covered σ t)
  scanning : ∀ w v pc ts, σ.workers w = .val v pc → pc.stamp = some ts →
    Newest σ.shared.ctx v.txid ts ∨ Covered σ v.txid
  /-- The bound the finality thread carries is the bound of a rewind. -/
  carried : σ.finality.lowerTs = 0 ∨
    ∃ k, k < σ.finality.idx ∧ σ.finality.lowerTs ≤ σ.shared.ctx.lowerTimestamps k
  decide : ∀ use bound, σ.finality.pc = .candidateDecide use bound →
    bound = 0 ∨ ∃ k, k ≤ σ.finality.idx ∧ bound ≤ σ.shared.ctx.lowerTimestamps k

section

variable {blk : Block Err R} {σ : SchedulerState W R B} {s' : Shared W R B} {p' : WorkerPc R B}
  {w : W} {t : Nat}

/-- A claimed index is looked at under the lock, and what was waiting for
it is a task then. -/
theorem WorkerStep.claim_checked {s : Shared W R B}
    (h : WorkerStep blk w s (.claimLock t) s' p') :
    s.txLocks t = none ∧ (s'.txStates t).status ≠ .executed ∧
      (s'.txStates t).status ≠ .unconfirmed := by
  cases h with
  | claimed hl hs => exact ⟨hl, by simp, by simp⟩
  | claimMissed hl hs => exact ⟨hl, hs.1, hs.2⟩
  | idle hp | frontier _ hp => cases hp

/-- `validate` keeps its timestamp. -/
theorem ValStep.stamp {s : Shared W R B} {v v' : TxVersion} {pc pc' : ValPc} {ts : Nat}
    (hs : ValStep blk s v pc s' (.val v' pc')) (hts : pc'.stamp = some ts) :
    v' = v ∧ pc.stamp = some ts := by
  generalize hp' : (WorkerPc.val v' pc' : WorkerPc R B) = p' at hs
  cases hs
  case scanned conflict dependency =>
    cases hp'
    cases conflict <;> cases hts
    exact ⟨rfl, rfl⟩
  all_goals
    cases hp' <;> cases hts <;> exact ⟨rfl, rfl⟩

/-- A worker lets an executed transaction go only after rewinding to it. -/
theorem ExecStep.executed {s : Shared W R B} {v : TxVersion} {pc : ExecPc R B}
    (h : ExecStep blk s v pc s' p') (hok : ExecOk v.incarnation (s.column v.txid) pc)
    (hsize : v.txid < blk.size) (hex : (s'.txStates v.txid).status = .executed) :
    p'.locked = some v.txid ∨ s'.ctx.validation ≤ v.txid := by
  cases h
  case frontierFinish tail _ _ _ _ ht =>
    -- the tail would have to rewind past the block
    cases tail with
    | conflict =>
      have hst : (s.txStates v.txid).status = .conflict := hok.1
      simp [finishExec, hst] at hex
    | revalidate => simp [finishExec] at hex
    | rewind | handOff => exact absurd (ht.resolve_left (by simp)) (Nat.not_le.mpr hsize)
  case rewindFinish tail pc _ hr =>
    cases pc <;> cases hr
    refine .inr ?_
    cases tail with
    | conflict =>
      have hst : (s.txStates v.txid).status = .conflict := hok.1
      simp [finishExec, hst] at hex
    | revalidate => simp [finishExec] at hex
    | rewind | handOff => exact Nat.min_le_right _ _
  case parallelErrorEnd => exact hok.elim
  all_goals exact .inl rfl

/-- `validate` never reports an execution. -/
theorem ValStep.not_executed {s : Shared W R B} {v : TxVersion} {pc : ValPc}
    (h : ValStep blk s v pc s' p') (hok : ValOk v.incarnation (s.column v.txid) pc) :
    (s'.txStates v.txid).status ≠ .executed := by
  have hkeep : ∀ status : TransactionStatus, (s.txStates v.txid).status = status →
      status ≠ .executed → (s'.txStates v.txid).status = (s.txStates v.txid).status →
      (s'.txStates v.txid).status ≠ .executed := by
    intro status hst hne heq hex
    exact hne (by rw [← hst, ← heq, hex])
  cases h
  case invalidateLast | rewound | unconfirm => simp
  case parallelError | parallelErrorEnd => exact hok.elim
  all_goals exact hkeep _ hok.1 (by simp) rfl

theorem WorkerStep.executed {s : Shared W R B} {p : WorkerPc R B} {v : TxVersion}
    (h : WorkerStep blk w s p s' p') (hv : p.owned = some v) (hok : PcOk (s.column v.txid) p)
    (hsize : v.txid < blk.size) (hex : (s'.txStates v.txid).status = .executed) :
    p'.locked = some v.txid ∨ s'.ctx.validation ≤ v.txid := by
  cases h with
  | exec hs =>
    cases hv
    exact hs.executed hok hsize hex
  | val hs =>
    cases hv
    exact absurd hex (hs.not_executed hok)
  | idle hidle | frontier _ hidle => rw [(owned_of_isIdle hidle).1] at hv; cases hv
  | _ =>
    -- a task that has not begun is outstanding, and stays so
    cases hv <;> cases hok.symm.trans hex

variable [DecidableEq W]

/-- A transaction whose lock a worker holds, or that still waits for its
validation, stays covered. -/
theorem Covered.worker (h : Covered σ t)
    (hstep : WorkerStep blk w σ.shared (σ.workers w) s' p')
    (hkeep : σ.shared.txLocks t ≠ none ∨ (s'.txStates t).status = .executed ∨
      (s'.txStates t).status = .unconfirmed) :
    Covered { σ with shared := s', workers := Function.update σ.workers w p' } t := by
  rcases h.step hstep.cursorMove with hc | hw
  · exact hc
  · rw [hw] at hstep
    obtain ⟨hl, hex, hun⟩ := hstep.claim_checked
    rcases hkeep with hk | hk | hk
    · exact absurd hl hk
    · exact absurd hk hex
    · exact absurd hk hun

/-- A timestamp stays the newest, or the transaction becomes covered. -/
theorem newest_or_covered_worker {ts : Nat} (h : Newest σ.shared.ctx t ts ∨ Covered σ t)
    (hstep : WorkerStep blk w σ.shared (σ.workers w) s' p')
    (hkeep : σ.shared.txLocks t ≠ none ∨ (s'.txStates t).status = .executed ∨
      (s'.txStates t).status = .unconfirmed) :
    Newest s'.ctx t ts ∨
      Covered { σ with shared := s', workers := Function.update σ.workers w p' } t := by
  rcases h with hn | hc
  · exact hn.step hstep.cursorMove
  · exact .inr (hc.worker hstep hkeep)

theorem Revalidation.worker_executed (h : Revalidation blk σ) (hcore : Core σ)
    (hstep : WorkerStep blk w σ.shared (σ.workers w) s' p') (ht : t < blk.size)
    (hex : (s'.txStates t).status = .executed) :
    (∃ w', s'.txLocks t = some (.worker w')) ∨
      Covered { σ with shared := s', workers := Function.update σ.workers w p' } t := by
  by_cases hown : ∃ v, (σ.workers w).owned = some v ∧ v.txid = t
  · obtain ⟨v, hv, rfl⟩ := hown
    rcases hstep.executed hv (hcore.owned w v hv).2 ht hex with hl | hle
    · exact .inl ⟨w, ((hcore.worker hstep).locked w v.txid).mpr (by simpa using hl)⟩
    · exact .inr (.inl hle)
  · have hne : ∀ v, (σ.workers w).owned = some v → t ≠ v.txid :=
      fun v hv heq => hown ⟨v, hv, heq.symm⟩
    rcases hstep.sameAt_or_claimed hne with hsame | ⟨-, ⟨-, hs⟩ | ⟨-, hs⟩⟩
    · rcases h.executed t ht (hsame.state_eq ▸ hex) with ⟨w', hw'⟩ | hc
      · exact .inl ⟨w', by rw [hsame.2]; exact hw'⟩
      · exact .inr (hc.worker hstep (.inr (.inl hex)))
    · rw [hex] at hs; cases hs
    · rw [hex] at hs; cases hs

theorem Revalidation.worker_unconfirmed (h : Revalidation blk σ) (hcore : Core σ)
    (htime : Timely blk σ) (hstep : WorkerStep blk w σ.shared (σ.workers w) s' p')
    (hun : (s'.txStates t).status = .unconfirmed) :
    0 < s'.ctx.unconfirmedTimestamps t ∧
      (Newest s'.ctx t (s'.ctx.unconfirmedTimestamps t) ∨
        Covered { σ with shared := s', workers := Function.update σ.workers w p' } t) := by
  by_cases hown : ∃ v, (σ.workers w).owned = some v ∧ v.txid = t
  · obtain ⟨v, hv, rfl⟩ := hown
    obtain ⟨hinc, hok⟩ := hcore.owned w v hv
    obtain ⟨ts, dependency, hp⟩ := hstep.unconfirmed_of_owned hv hinc hok hun
    obtain ⟨⟨hlow, -⟩, -⟩ := htime.scanning w v _ hp
    have hstamp : s'.ctx.unconfirmedTimestamps v.txid = ts := by
      have hstep' := hstep
      rw [hp] at hstep'
      rw [hstep'.unconfirming_eq.1, Function.update_self]
      omega
    rw [hstamp]
    exact ⟨by omega, newest_or_covered_worker (h.scanning w v _ ts hp rfl) hstep (.inr (.inr hun))⟩
  · have hne : ∀ v, (σ.workers w).owned = some v → t ≠ v.txid :=
      fun v hv heq => hown ⟨v, hv, heq.symm⟩
    rcases hstep.sameAt_or_claimed hne with hsame | ⟨-, ⟨-, hs⟩ | ⟨-, hs⟩⟩
    · have hstamp : s'.ctx.unconfirmedTimestamps t = σ.shared.ctx.unconfirmedTimestamps t := by
        rcases hstep.unconfirmed with heq | ⟨v, ts, dependency, hp, heq⟩
        · rw [heq]
        · rw [heq, Function.update_of_ne (hne v (by rw [hp]; rfl))]
      obtain ⟨hpos, hcase⟩ := h.unconfirmed t (hsame.state_eq ▸ hun)
      rw [hstamp]
      exact ⟨hpos, newest_or_covered_worker hcase hstep (.inr (.inr hun))⟩
    · rw [hun] at hs; cases hs
    · rw [hun] at hs; cases hs

theorem Revalidation.worker_scanning {w' : W} {v : TxVersion} {pc : ValPc} {ts : Nat}
    (h : Revalidation blk σ) (hcore : Core σ)
    (hstep : WorkerStep blk w σ.shared (σ.workers w) s' p')
    (hw' : Function.update σ.workers w p' w' = .val v pc) (hts : pc.stamp = some ts) :
    Newest s'.ctx v.txid ts ∨
      Covered { σ with shared := s', workers := Function.update σ.workers w p' } v.txid := by
  have hlocked : ∀ u pc₀, σ.workers u = .val v pc₀ → σ.shared.txLocks v.txid ≠ none := by
    intro u pc₀ hu
    simp [(hcore.locked u v.txid).mpr (by rw [hu]; rfl)]
  by_cases hw : w' = w
  · subst hw
    rw [Function.update_self] at hw'
    subst hw'
    rcases hstep.val_cases with ⟨result, -, rfl, rfl⟩ | ⟨message, pc', rfl⟩ | ⟨v₀, pc₀, hp, hs⟩
    · -- a new scan draws the newest timestamp of all
      cases hts
      exact .inl fun k _ => h.clock k
    · cases hts
    · obtain ⟨rfl, hts₀⟩ := hs.stamp hts
      exact newest_or_covered_worker (h.scanning w' v pc₀ ts hp hts₀) hstep
        (.inl (hlocked w' pc₀ hp))
  · rw [Function.update_of_ne hw] at hw'
    exact newest_or_covered_worker (h.scanning w' v pc ts hw' hts) hstep
      (.inl (hlocked w' pc hw'))

theorem Revalidation.worker (h : Revalidation blk σ) (hcore : Core σ) (htime : Timely blk σ)
    (hstep : WorkerStep blk w σ.shared (σ.workers w) s' p') :
    Revalidation blk { σ with shared := s', workers := Function.update σ.workers w p' } := by
  have hclock := hstep.clockStep
  refine ⟨fun k => ?_, fun w' n ts hw' => ?_, fun t ht => h.worker_executed hcore hstep ht,
    fun t => h.worker_unconfirmed hcore htime hstep,
    fun w' v pc ts => h.worker_scanning hcore hstep, ?_, fun use bound hpc => ?_⟩
  · have hk := h.clock k
    cases hstep.cursorMove with
    | draw _ _ hc hl => simp only [hc, hl]; omega
    | @raise n ts hp _ hc hl =>
      have hts := h.drawn w n ts hp
      simp only [hc, hl, Function.update_apply]
      split
      · have hn := h.clock n
        omega
      · exact hk
    | rewind _ _ hc hl | claim _ hc hl => simp only [hc, hl]; exact hk
    | keep _ hc hl => simp only [hl]; omega
  · by_cases hw : w' = w
    · subst hw
      simp only [Function.update_self] at hw'
      cases hstep.cursorMove with
      | draw _ _ hc _ hp' =>
        rw [hp'] at hw'
        cases hw'
        simp only [hc]
        omega
      | raise _ _ _ _ hp' | rewind _ _ _ _ hp' | claim _ _ _ _ hp' => rw [hp'] at hw'; cases hw'
      | keep _ _ _ _ hp' => cases hp' n _ hw'
    · simp only [Function.update_of_ne hw] at hw'
      exact Nat.lt_of_lt_of_le (h.drawn w' n ts hw') hclock.clock
  · rcases h.carried with h0 | ⟨k, hk, hle⟩
    · exact .inl h0
    · exact .inr ⟨k, hk, Nat.le_trans hle (hclock.lower k)⟩
  · rcases h.decide use bound hpc with h0 | ⟨k, hk, hle⟩
    · exact .inl h0
    · exact .inr ⟨k, hk, Nat.le_trans hle (hclock.lower k)⟩

omit [DecidableEq W] in
/-- The finality thread leaves the locks of the workers alone. -/
theorem FinalityStep.worker_lock {t' : FinalityThread} {w : W} (hcore : Core σ)
    (hstep : FinalityStep blk σ.shared σ.finality s' t')
    (hl : σ.shared.txLocks t = some (.worker w)) : s'.txLocks t = some (.worker w) := by
  have hcand : σ.finality.pc.locks = true → t ≠ σ.finality.idx := by
    rintro hlocks rfl
    rw [(hcore.finalityLock _).mpr ⟨hlocks, rfl⟩] at hl
    cases hl
  cases hstep
  case lock hl' _ =>
    have hne : t ≠ σ.finality.idx := by
      rintro rfl
      rw [hl'] at hl
      cases hl
    simpa [hne] using hl
  case finalize hpc _ | unlock hpc _ _ => simpa [hcand (by rw [hpc]; rfl)] using hl
  all_goals exact hl

omit [DecidableEq W] in
/-- The bound the finality thread carries, and decides by, is the bound
of a rewind. -/
theorem Revalidation.finality_bounds {t' : FinalityThread} (h : Revalidation blk σ)
    (hstep : FinalityStep blk σ.shared σ.finality s' t') :
    (t'.lowerTs = 0 ∨ ∃ k, k < t'.idx ∧ t'.lowerTs ≤ σ.shared.ctx.lowerTimestamps k) ∧
      ∀ use bound, t'.pc = .candidateDecide use bound →
        bound = 0 ∨ ∃ k, k ≤ t'.idx ∧ bound ≤ σ.shared.ctx.lowerTimestamps k := by
  cases hstep
  case lower =>
    refine ⟨h.carried, fun use bound hpc => ?_⟩
    cases hpc
    rcases Nat.le_total σ.finality.lowerTs (σ.shared.ctx.lowerTimestamps σ.finality.idx)
      with hle | hle
    · exact .inr ⟨_, le_rfl, by rw [Nat.max_eq_right hle]⟩
    · rw [Nat.max_eq_left hle]
      rcases h.carried with h0 | ⟨k, hk, hle⟩
      · exact .inl h0
      · exact .inr ⟨k, Nat.le_of_lt hk, hle⟩
  case finalize hpc _ =>
    refine ⟨?_, fun use bound hpc' => by cases hpc'⟩
    rcases h.decide _ _ hpc with h0 | ⟨k, hk, hle⟩
    · exact .inl h0
    · exact .inr ⟨k, Nat.lt_succ_of_le hk, hle⟩
  case move hpc' _ | unlock hpc' _ | publish hpc' _ =>
    refine ⟨h.carried, fun use bound hpc => ?_⟩
    subst hpc
    cases hpc'
  case lock => exact ⟨h.carried, fun use bound hpc => by cases hpc⟩

omit [DecidableEq W] in
theorem Revalidation.finality {t' : FinalityThread} (h : Revalidation blk σ) (hcore : Core σ)
    (hstep : FinalityStep blk σ.shared σ.finality s' t') :
    Revalidation blk { σ with shared := s', finality := t' } := by
  obtain ⟨-, -, -, hctx, hstates⟩ := hstep.frame
  have hlower : s'.ctx.lowerTimestamps = σ.shared.ctx.lowerTimestamps := by rw [hctx]
  have hun : s'.ctx.unconfirmedTimestamps = σ.shared.ctx.unconfirmedTimestamps := by rw [hctx]
  have hclock : s'.ctx.logicalClock = σ.shared.ctx.logicalClock := by rw [hctx]
  have hval : s'.ctx.validation = σ.shared.ctx.validation := by rw [hctx]
  obtain ⟨hcarried, hdecide⟩ := h.finality_bounds hstep
  refine ⟨?_, ?_, fun t ht hex => ?_, fun t hst => ?_, ?_, ?_, ?_⟩
  all_goals simp only [Newest, Covered, hlower, hun, hclock, hval]
  · exact h.clock
  · exact h.drawn
  · rcases hstates t with heq | heq
    · rcases h.executed t ht (heq ▸ hex) with ⟨w, hw⟩ | hc
      · exact .inl ⟨w, hstep.worker_lock hcore hw⟩
      · exact .inr hc
    · rw [hex] at heq; cases heq
  · rcases hstates t with heq | heq
    · exact h.unconfirmed t (heq ▸ hst)
    · rw [hst] at heq; cases heq
  · exact h.scanning
  · exact hcarried
  · exact hdecide

omit [DecidableEq W] in
theorem Revalidation.commit {t' : CommitThread R B} (h : Revalidation blk σ)
    (hstep : CommitStep blk σ.shared σ.commit s' t') :
    Revalidation blk { σ with shared := s', commit := t' } := by
  obtain ⟨hlocks, hstates, -⟩ := hstep.columns
  have hctx := hstep.ctx_eq
  have hlower : s'.ctx.lowerTimestamps = σ.shared.ctx.lowerTimestamps := by rw [hctx]
  have hun : s'.ctx.unconfirmedTimestamps = σ.shared.ctx.unconfirmedTimestamps := by rw [hctx]
  have hclock : s'.ctx.logicalClock = σ.shared.ctx.logicalClock := by rw [hctx]
  have hval : s'.ctx.validation = σ.shared.ctx.validation := by rw [hctx]
  refine ⟨?_, ?_, ?_, ?_, ?_, ?_, ?_⟩
  all_goals simp only [Newest, Covered, hlower, hun, hclock, hval, hstates, hlocks]
  · exact h.clock
  · exact h.drawn
  · exact h.executed
  · exact h.unconfirmed
  · exact h.scanning
  · exact h.carried
  · exact h.decide

omit [DecidableEq W] in
theorem revalidation_initial (backing : B.State) :
    Revalidation blk (initial backing : SchedulerState W R B) where
  clock k := Nat.zero_lt_one
  drawn w n ts hw := by cases hw
  executed t _ hex := by cases hex
  unconfirmed t hun := by cases hun
  scanning w v pc ts hw := by cases hw
  carried := .inl rfl
  decide use bound hpc := by cases hpc

theorem revalidation_of_reach {ok : SchedulerState W R B → Action W → Prop} {backing : B.State}
    (h : ReachableWhen blk backing ok σ) : Revalidation blk σ := by
  refine Runs.Reach.invariant h (revalidation_initial backing) fun σ a σ' hr ih _ hs => ?_
  have hcore := core_of_reach hr
  rcases step_cases hs with ⟨w, shared, pc, hw, rfl⟩ | ⟨shared, t', hf, rfl⟩ | ⟨shared, t', hc, rfl⟩
  · exact ih.worker hcore (timely_of_reach hr) hw
  · exact ih.finality hcore hf
  · exact ih.commit hc

end

end Grevm
