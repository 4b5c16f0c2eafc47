/-
Grevm.Scheduler.Finality — finality is sound.

`Timely` is what the logical clock guarantees: a validation in progress
draws its timestamp before it looks at anything, so what it has found
valid is valid or dirty after that timestamp; an unconfirmed transaction
keeps the timestamp of the validation that succeeded; and the finality
thread carries the largest lower bound of the prefix it has passed. When
it sets transaction `i` final no worker is left that could rewind to `i`
or before it and no stored bound is newer than the validation, so `i` is
not dirty, and every read of `i` is valid at that moment.
-/
import Grevm.Scheduler.Validity

namespace Grevm

variable {Err W R : Type} {B : Backing Err}

/-- Each read of transaction `i` is still to be compared, is valid, or
`i` is dirty after `ts`. -/
def Settled (blk : Block Err R) (σ : SchedulerState W R B) (i ts : Nat)
    (remaining : LocationAndType × ReadVersion → Prop) : Prop :=
  i < blk.size → ∀ r, σ.shared.txResults i = some r → ∀ e, e ∈ r.readSet.entries →
    remaining (e.1, e.2) ∨
      readHolds σ.shared.mvMemory σ.shared.history blk.anchor i e.1 e.2 = true ∨ Dirty σ i ts

/-- What a validation of `i` knows about its scan. -/
def ScanOk (blk : Block Err R) (σ : SchedulerState W R B) (i : Nat) : ValPc → Prop
  | .scanning ts remaining conflict _ =>
    (σ.shared.ctx.unconfirmedTimestamps i < ts ∧ ts < σ.shared.ctx.logicalClock) ∧
      (conflict = false → Settled blk σ i ts (· ∈ remaining))
  | .scanningHistory ts remaining conflict _ expected scan =>
    (σ.shared.ctx.unconfirmedTimestamps i < ts ∧ ts < σ.shared.ctx.logicalClock) ∧
      (i < blk.size → Walked σ.shared.history blk.anchor i scan ∨ Dirty σ i ts) ∧
      (conflict = false →
        Settled blk σ i ts fun e => e ∈ remaining ∨ e.2 = .beneficiary expected)
  | .unconfirming ts _ =>
    (σ.shared.ctx.unconfirmedTimestamps i < ts ∧ ts < σ.shared.ctx.logicalClock) ∧
      Settled blk σ i ts fun _ => False
  | _ => True

structure Timely (blk : Block Err R) (σ : SchedulerState W R B) : Prop where
  clock : ∀ i, σ.shared.ctx.unconfirmedTimestamps i < σ.shared.ctx.logicalClock
  /-- The finality thread carries the bounds of its prefix. -/
  carried : ∀ k, k < σ.finality.idx → σ.shared.ctx.lowerTimestamps k ≤ σ.finality.lowerTs
  decide : ∀ use bound, σ.finality.pc = .candidateDecide use bound →
    σ.shared.ctx.lowerTimestamps σ.finality.idx ≤ bound ∧ σ.finality.lowerTs ≤ bound
  unconfirmed : ∀ i, (σ.shared.txStates i).status = .unconfirmed →
    Settled blk σ i (σ.shared.ctx.unconfirmedTimestamps i) fun _ => False
  scanning : ∀ w v pc, σ.workers w = .val v pc → ScanOk blk σ v.txid pc

/-! ## Steps of other threads -/

section

variable {blk : Block Err R} {σ σ' : SchedulerState W R B} {i ts : Nat}

theorem Settled.kept {remaining : LocationAndType × ReadVersion → Prop}
    (h : Settled blk σ i ts remaining) (hres : σ'.shared.txResults i = σ.shared.txResults i)
    (hk : i < blk.size → Kept σ σ' i ts) : Settled blk σ' i ts remaining := by
  intro hi r hr e he
  have hkept := hk hi
  rw [hres] at hr
  rcases h hi r hr e he with hrem | hval | hd
  · exact .inl hrem
  · rcases hkept.quiet with hq | hd
    · exact .inr (.inl (readHolds_quiet hq hval))
    · exact .inr (.inr hd)
  · exact .inr (.inr (hkept.dirty hd))

theorem Settled.imp {remaining remaining' : LocationAndType × ReadVersion → Prop}
    (h : Settled blk σ i ts remaining)
    (himp : ∀ e, remaining e → remaining' e ∨
      (i < blk.size → readHolds σ.shared.mvMemory σ.shared.history blk.anchor i e.1 e.2 = true ∨
        Dirty σ i ts)) : Settled blk σ i ts remaining' := by
  intro hi r hr e he
  rcases h hi r hr e he with hrem | hok
  · exact (himp _ hrem).imp_right fun hok => hok hi
  · exact .inr hok

theorem ScanOk.kept {pc : ValPc} (h : ScanOk blk σ i pc)
    (hres : σ'.shared.txResults i = σ.shared.txResults i)
    (hun : σ'.shared.ctx.unconfirmedTimestamps i = σ.shared.ctx.unconfirmedTimestamps i)
    (hclock : σ.shared.ctx.logicalClock ≤ σ'.shared.ctx.logicalClock)
    (hk : ∀ ts, ts < σ.shared.ctx.logicalClock → i < blk.size → Kept σ σ' i ts) :
    ScanOk blk σ' i pc := by
  cases pc with
  | scanning ts remaining conflict dependency =>
    obtain ⟨⟨hlow, hts⟩, hset⟩ := h
    exact ⟨⟨hun ▸ hlow, by omega⟩, fun hc => (hset hc).kept hres (hk ts hts)⟩
  | scanningHistory ts remaining conflict dependency expected scan =>
    obtain ⟨⟨hlow, hts⟩, hwalk, hset⟩ := h
    refine ⟨⟨hun ▸ hlow, by omega⟩, fun hi => ?_, fun hc => (hset hc).kept hres (hk ts hts)⟩
    have hkept := hk ts hts hi
    rcases hwalk hi with hw | hd
    · rcases hkept.quiet with hq | hd
      · exact .inl (hw.congr fun t effect => hq.history t effect)
      · exact .inr hd
    · exact .inr (hkept.dirty hd)
  | unconfirming ts dependency =>
    obtain ⟨⟨hlow, hts⟩, hset⟩ := h
    exact ⟨⟨hun ▸ hlow, by omega⟩, hset.kept hres (hk ts hts)⟩
  | _ => trivial

/-! ## Steps of the validation itself -/

/-- A comparison adds its result to what is known. -/
theorem ValStep.scanOk {s : Shared W R B} {v v' : TxVersion} {pc pc' : ValPc}
    (hs : ValStep blk s v pc σ.shared (.val v' pc')) (h : ScanOk blk σ v.txid pc) :
    v' = v ∧ ScanOk blk σ v.txid pc' := by
  generalize hshared : σ.shared = s' at hs
  generalize hp' : (WorkerPc.val v' pc' : WorkerPc R B) = p' at hs
  cases hs
  case scanned ts conflict dependency =>
    cases hp'
    refine ⟨rfl, ?_⟩
    cases conflict with
    | true => trivial
    | false => exact ⟨h.1, (h.2 rfl).imp fun e he => absurd he List.not_mem_nil⟩
  case scanHistory ts remaining conflict dependency l expected remaining' c hpick =>
    cases hp'
    refine ⟨rfl, h.1, fun _ => .inl .start, fun hc => (h.2 hc).imp fun e he => .inl ?_⟩
    rcases (mem_of_pick? hpick e).mp he with rfl | hmem
    · exact .inr rfl
    · exact .inl hmem
  case scan ts remaining conflict dependency l version remaining' c hpick hne =>
    cases hp'
    refine ⟨rfl, h.1, fun hc => ?_⟩
    simp only [Bool.or_eq_false_iff] at hc
    refine (h.2 hc.1).imp fun e he => ?_
    rcases (mem_of_pick? hpick e).mp he with rfl | hmem
    · refine .inr fun _ => .inl ?_
      rw [hshared]
      cases version with
      | beneficiary expected => exact absurd rfl (hne expected)
      | storage | mvMemory version => simpa [readHolds] using hc.2
    · exact .inl hmem
  case walk ts remaining conflict dependency expected scan scan' hstep =>
    cases hp'
    obtain ⟨hts, hwalk, hset⟩ := h
    exact ⟨rfl, hts, fun hi => (hwalk hi).imp_left fun hw => hw.more (hshared ▸ hstep), hset⟩
  case walked ts remaining conflict dependency expected scan found hstep =>
    cases hp'
    obtain ⟨hts, hwalk, hset⟩ := h
    refine ⟨rfl, hts, fun hc => ?_⟩
    simp only [Bool.or_eq_false_iff, Bool.not_eq_false'] at hc
    refine (hset hc.1).imp fun e he => ?_
    rcases he with hmem | hexp
    · exact .inl hmem
    · refine .inr fun hi => (hwalk hi).imp_left fun hw => ?_
      have hscan : scanBefore σ.shared.history blk.anchor v.txid = .ok found := by
        rw [hw.scanBefore_eq, scanFrom_eq_step, hshared, hstep]
      rw [hexp]
      simp only [readHolds, validateBeneficiary, hscan]
      exact hc.2
  case walkBlocked ts remaining conflict dependency expected scan writer hstep =>
    cases hp'
    exact ⟨rfl, h.1, fun h => by cases h⟩
  all_goals first | (cases hp'; exact ⟨rfl, trivial⟩) | cases hp'

/-! ## The invariant in every run -/

/-- A task is outstanding: the transaction is not unconfirmed. -/
theorem PcOk.not_unconfirmed {c : Column Err R} {p : WorkerPc R B} {v : TxVersion}
    (h : PcOk c p) (hv : p.owned = some v) : c.state.status ≠ .unconfirmed := by
  intro hun
  cases p with
  | task task => cases task <;> simp [PcOk, hun] at h
  | exec v pc =>
    cases pc
    case frontier tail _ | rewinding tail _ => cases tail <;> simp [PcOk, ExecOk, TailOk, hun] at h
    all_goals simp [PcOk, ExecOk, hun] at h
  | val v pc => cases pc <;> simp [PcOk, ValOk, hun] at h
  | _ => cases hv

/-- A transaction becomes unconfirmed at the end of its own scan. -/
theorem WorkerStep.unconfirmed_of_owned {w : W} {s s' : Shared W R B} {p p' : WorkerPc R B}
    {v : TxVersion} (hs : WorkerStep blk w s p s' p') (hv : p.owned = some v)
    (hi : (s.txStates v.txid).incarnation = v.incarnation) (hok : PcOk (s.column v.txid) p)
    (hun : (s'.txStates v.txid).status = .unconfirmed) :
    ∃ ts dependency, p = .val v (.unconfirming ts dependency) := by
  have hnot : ∀ (s₁ : Shared W R B) {p₁ : WorkerPc R B}, PcOk (s₁.column v.txid) p₁ →
      p₁.owned = some v → (s₁.txStates v.txid).status ≠ .unconfirmed :=
    fun _ _ hok hv => hok.not_unconfirmed hv
  cases hs with
  | exec hs =>
    cases hv
    have hown := hs.own hi hok
    rcases hown.owned with ho | ⟨ho, -⟩
    · exact absurd hun (hnot _ hown.ok ho)
    · cases hs
      case frontierFinish tail _ _ _ _ _ | rewindFinish tail _ _ _ =>
        cases tail <;> simp [PcOk, ExecOk, TailOk, Shared.column, finishExec] at hok hun <;>
          simp [hok.1] at hun
      case parallelErrorEnd => exact hok.elim
      all_goals cases ho
  | val hs =>
    cases hv
    have hown := hs.own hi hok
    rcases hown.owned with ho | ⟨ho, -⟩
    · exact absurd hun (hnot _ hown.ok ho)
    · cases hs
      case unconfirm => exact ⟨_, _, rfl⟩
      case addBlocker =>
        simp [PcOk, ValOk, Shared.column] at hok hun
        simp [hok.1] at hun
      case parallelErrorEnd => exact hok.elim
      all_goals cases ho
  | idle hp _ | frontier _ hp _ => simp [(owned_of_isIdle hp).1] at hv
  | execute | executeGone | executeInconsistent | validate | validateGone
  | validateInconsistent => exact absurd hun (hnot s hok hv)
  | _ => cases hv

/-- The end of a scan stamps the transaction. -/
theorem WorkerStep.unconfirming_eq {w : W} {s s' : Shared W R B} {p' : WorkerPc R B}
    {v : TxVersion} {ts : Nat} {dependency : Option Nat}
    (hs : WorkerStep blk w s (.val v (.unconfirming ts dependency)) s' p') :
    s'.ctx.unconfirmedTimestamps = Function.update s.ctx.unconfirmedTimestamps v.txid
        (max (s.ctx.unconfirmedTimestamps v.txid) ts) ∧ s'.txResults = s.txResults := by
  cases hs with
  | val hs => cases hs; exact ⟨rfl, rfl⟩
  | idle hp | frontier _ hp => cases hp

/-- A validation that has begun was a task, or has taken a step. -/
theorem WorkerStep.val_cases {w : W} {s s' : Shared W R B} {p : WorkerPc R B} {v : TxVersion}
    {pc : ValPc} (hs : WorkerStep blk w s p s' (.val v pc)) :
    (∃ result, s.txResults v.txid = some result ∧
      s' = { s.setLock v.txid (some (.worker w)) with ctx := s.ctx.tick } ∧
      pc = .scanning s.ctx.logicalClock (result.readSet.entries.map fun e => (e.1, e.2))
        false none) ∨
    (∃ message pc', pc = .parallelError message pc') ∨
    ∃ v₀ pc₀, p = .val v₀ pc₀ ∧ ValStep blk s v₀ pc₀ s' (.val v pc) := by
  generalize hp' : (WorkerPc.val v pc : WorkerPc R B) = p' at hs
  cases hs with
  | @validate v' result x hl hs hi hr hx =>
    cases hp'
    exact .inl ⟨result, hr, rfl, rfl⟩
  | validateInconsistent =>
    cases hp'
    exact .inr (.inl ⟨_, _, rfl⟩)
  | val hs =>
    subst hp'
    exact .inr (.inr ⟨_, _, rfl, hs⟩)
  | exec hs =>
    cases hs
    case frontierFinish tail _ _ _ _ _ | rewindFinish tail _ _ _ => cases tail <;> cases hp'
    all_goals cases hp'
  | idle _ hidle | frontier _ _ hidle => subst hp'; cases hidle
  | busy => rename_i fromNext _ _; cases fromNext <;> cases hp'
  | uselessRemoved => rename_i fromNext _ _ _ _ _; cases fromNext <;> cases hp'
  | _ => cases hp'

/-- `validate` leaves the result alone, and goes on with its own stamp. -/
theorem ValStep.result_eq {s s' : Shared W R B} {v v' : TxVersion} {pc pc' : ValPc}
    (hs : ValStep blk s v pc s' (.val v' pc')) :
    s'.txResults = s.txResults ∧
      s'.ctx.unconfirmedTimestamps = s.ctx.unconfirmedTimestamps := by
  generalize hp' : (WorkerPc.val v' pc' : WorkerPc R B) = p' at hs
  cases hs
  case unconfirm => cases hp'
  case rewind h | rewound h => rw [rewindStep_eq h]; exact ⟨rfl, rfl⟩
  all_goals exact ⟨rfl, rfl⟩

theorem Timely.worker [DecidableEq W] {w : W} {s' : Shared W R B} {p' : WorkerPc R B}
    (h : Timely blk σ) (hcore : Core σ)
    (hstep : WorkerStep blk w σ.shared (σ.workers w) s' p') :
    Timely blk { σ with shared := s', workers := Function.update σ.workers w p' } := by
  have hclock := hstep.clockStep
  have hkept : ∀ i ts, ts < σ.shared.ctx.logicalClock → i < blk.size →
      Kept σ { σ with shared := s', workers := Function.update σ.workers w p' } i ts :=
    fun i ts hts hi => hcore.kept_worker hstep hi hts
  -- a lower bound only changes for a transaction that is not final
  have hfinal : ∀ t, (σ.workers w).locked = some t → σ.finality.idx ≤ t := by
    intro t ht
    by_contra hlt
    have hf := (hcore.final t).mpr (Nat.lt_of_not_le hlt)
    cases hp : σ.workers w <;> rw [hp] at ht <;> cases ht
    · exact hcore.owned_not_final (w := w) (by rw [hp]; rfl) hf
    · exact hcore.owned_not_final (w := w) (by rw [hp]; rfl) hf
  refine ⟨fun i => ?_, fun k hk => ?_, fun use bound hpc => ?_, fun i hun => ?_,
    fun w' v pc hw' => ?_⟩
  · rcases hstep.unconfirmed with heq | ⟨v, ts, dependency, hp, heq⟩
    · simp only [heq]
      exact Nat.lt_of_lt_of_le (h.clock i) hclock.clock
    · obtain ⟨⟨-, hts⟩, -⟩ := h.scanning w v _ hp
      have hi := h.clock i
      have hv := h.clock v.txid
      simp only [heq, Function.update_apply]
      split <;> exact Nat.lt_of_lt_of_le (by omega) hclock.clock
  · by_cases heq : s'.ctx.lowerTimestamps k = σ.shared.ctx.lowerTimestamps k
    · exact heq ▸ h.carried k hk
    · obtain ⟨t, ht, hle⟩ := hclock.frame k heq
      exact absurd (hfinal t ht) (by dsimp only at hk; omega)
  · have hdec := h.decide use bound hpc
    by_cases heq : s'.ctx.lowerTimestamps σ.finality.idx
        = σ.shared.ctx.lowerTimestamps σ.finality.idx
    · exact ⟨heq ▸ hdec.1, hdec.2⟩
    · obtain ⟨t, ht, hle⟩ := hclock.frame _ heq
      have htt : t = σ.finality.idx := Nat.le_antisymm hle (hfinal t ht)
      subst htt
      have hlock := (hcore.finalityLock σ.finality.idx).mpr ⟨by rw [hpc]; rfl, rfl⟩
      rw [(hcore.locked w _).mpr ht] at hlock
      cases hlock
  · by_cases hown : ∃ v, (σ.workers w).owned = some v ∧ i = v.txid
    · obtain ⟨v, hv, rfl⟩ := hown
      obtain ⟨hinc, hok⟩ := hcore.owned w v hv
      obtain ⟨ts, dependency, hp⟩ := hstep.unconfirmed_of_owned hv hinc hok hun
      obtain ⟨⟨hlow, hts⟩, hset⟩ := h.scanning w v _ hp
      rw [hp] at hstep
      obtain ⟨hraise, hres⟩ := hstep.unconfirming_eq
      have hstamp : s'.ctx.unconfirmedTimestamps v.txid = ts := by
        rw [hraise, Function.update_self]
        omega
      simp only [hstamp]
      exact hset.kept (congrFun hres _) (hkept v.txid ts hts)
    · have hne : ∀ v, (σ.workers w).owned = some v → i ≠ v.txid :=
        fun v hv ht => hown ⟨v, hv, ht⟩
      rcases hstep.sameAt_or_claimed hne with hsame | ⟨-, hclaim⟩
      · have hstamp : s'.ctx.unconfirmedTimestamps i = σ.shared.ctx.unconfirmedTimestamps i := by
          rcases hstep.unconfirmed with heq | ⟨v, ts, dependency, hp, heq⟩
          · rw [heq]
          · rw [heq, Function.update_of_ne (hne v (by rw [hp]; rfl))]
        have hun' : (σ.shared.txStates i).status = .unconfirmed := hsame.state_eq ▸ hun
        simp only [hstamp]
        exact (h.unconfirmed i hun').kept (congrArg Column.result hsame.1)
          (hkept i _ (h.clock i))
      · simp only [show (s'.txStates i).status = .unconfirmed from hun] at hclaim
        rcases hclaim with ⟨-, hc⟩ | ⟨-, hc⟩ <;> cases hc
  · by_cases hww : w' = w
    · subst hww
      simp only [Function.update_self] at hw'
      subst hw'
      rcases hstep.val_cases with ⟨result, hr, rfl, rfl⟩ | ⟨message, pc', rfl⟩ |
        ⟨v₀, pc₀, hp, hs⟩
      · refine ⟨⟨h.clock v.txid, Nat.lt_succ_self _⟩, fun _ _ r hr' e he => .inl ?_⟩
        have hr' : σ.shared.txResults v.txid = some r := hr'
        rw [hr] at hr'
        cases hr'
        exact List.mem_map.mpr ⟨e, he, rfl⟩
      · trivial
      · obtain ⟨hres, hun⟩ := hs.result_eq
        have hscan := (h.scanning w' v₀ pc₀ hp).kept (congrFun hres _) (congrFun hun _)
          hclock.clock (hkept v₀.txid)
        obtain ⟨rfl, hok⟩ := ValStep.scanOk hs hscan
        exact hok
    · simp only [Function.update_of_ne hww] at hw'
      have hv : (σ.workers w').owned = some v := by rw [hw']; rfl
      have hsame := hcore.worker_sameAt_owned hstep hww hv
      refine (h.scanning w' v pc hw').kept (congrArg Column.result hsame.1) ?_ hclock.clock
        (hkept v.txid)
      rcases hstep.unconfirmed with heq | ⟨v', ts, dependency, hp, heq⟩
      · exact congrFun heq _
      · have hne : v.txid ≠ v'.txid := fun ht =>
          hww (hcore.unique w' w v v' hv (by rw [hp]; rfl) ht)
        exact (congrFun heq _).trans (Function.update_of_ne hne _ _)

theorem Timely.finality {s' : Shared W R B} {t' : FinalityThread} (h : Timely blk σ)
    (hstep : FinalityStep blk σ.shared σ.finality s' t') :
    Timely blk { σ with shared := s', finality := t' } := by
  obtain ⟨hmv, hhist, hres, hctx, hstates⟩ := hstep.frame
  have hlow : s'.ctx.lowerTimestamps = σ.shared.ctx.lowerTimestamps := by rw [hctx]
  have hun : s'.ctx.unconfirmedTimestamps = σ.shared.ctx.unconfirmedTimestamps := by rw [hctx]
  have hclock : s'.ctx.logicalClock = σ.shared.ctx.logicalClock := by rw [hctx]
  have hkept : ∀ i ts, Kept σ { σ with shared := s', finality := t' } i ts := fun i ts =>
    kept_of_same rfl hmv hhist hlow fun _ v _ => congrFun hres v.txid
  refine ⟨fun i => ?_, fun k hk => ?_, fun use bound hpc => ?_, fun i hi => ?_,
    fun w v pc hw => ?_⟩
  · simp only [hun, hclock]
    exact h.clock i
  · simp only [hlow]
    cases hstep
    case finalize hpc _ =>
      obtain ⟨h₁, h₂⟩ := h.decide _ _ hpc
      rcases Nat.lt_succ_iff_lt_or_eq.mp hk with hlt | rfl
      · exact Nat.le_trans (h.carried k hlt) h₂
      · exact h₁
    all_goals exact h.carried k hk
  · cases hstep
    case lower =>
      cases hpc
      exact ⟨Nat.le_max_right _ _, Nat.le_max_left _ _⟩
    case move hq _ | unlock hq _ | publish hq _ => cases hpc; cases hq
    all_goals cases hpc
  · have hi' : (σ.shared.txStates i).status = .unconfirmed := by
      rcases hstates i with heq | heq
      · exact heq ▸ hi
      · simp only [heq] at hi
        cases hi
    simp only [hun]
    exact (h.unconfirmed i hi').kept (congrFun hres i) fun _ => hkept i _
  · exact (h.scanning w v pc hw).kept (congrFun hres _) (congrFun hun _)
      (Nat.le_of_eq hclock.symm) fun ts _ _ => hkept v.txid ts

theorem Timely.commit {s' : Shared W R B} {t' : CommitThread R B} (h : Timely blk σ)
    (hcore : Core σ) (hstep : CommitStep blk σ.shared σ.commit s' t') :
    Timely blk { σ with shared := s', commit := t' } := by
  obtain ⟨-, hstates, hhist, hmv, -, hres⟩ := hstep.columns
  have hctx := hstep.ctx_eq
  have hlow : s'.ctx.lowerTimestamps = σ.shared.ctx.lowerTimestamps := by rw [hctx]
  have hun : s'.ctx.unconfirmedTimestamps = σ.shared.ctx.unconfirmedTimestamps := by rw [hctx]
  have hclock : s'.ctx.logicalClock = σ.shared.ctx.logicalClock := by rw [hctx]
  -- only the result of a final transaction is taken
  have hkeep : ∀ i, (σ.shared.txStates i).status ≠ .finality →
      s'.txResults i = σ.shared.txResults i := by
    intro i hi
    rcases hres with heq | ⟨⟨previous, hpc⟩, heq⟩
    · rw [heq]
    · have hne : i ≠ σ.commit.idx := by
        rintro rfl
        exact hi ((hcore.final _).mpr (hcore.taking_lt hpc))
      rw [heq, Function.update_of_ne hne]
  have hkept : ∀ i ts, Kept σ { σ with shared := s', commit := t' } i ts := fun i ts =>
    kept_of_same rfl hmv hhist hlow fun _ v hv => hkeep v.txid (hcore.owned_not_final hv)
  refine ⟨fun i => ?_, fun k hk => ?_, fun use bound hpc => ?_, fun i hi => ?_,
    fun w v pc hw => ?_⟩
  · simp only [hun, hclock]
    exact h.clock i
  · simp only [hlow]
    exact h.carried k hk
  · simp only [hlow]
    exact h.decide use bound hpc
  · simp only [hstates] at hi
    simp only [hun]
    exact (h.unconfirmed i hi).kept (hkeep i (by simp [hi])) fun _ => hkept i _
  · have hv : (σ.workers w).owned = some v := by rw [hw]; rfl
    exact (h.scanning w v pc hw).kept (hkeep _ (hcore.owned_not_final hv)) (congrFun hun _)
      (Nat.le_of_eq hclock.symm) fun ts _ _ => hkept v.txid ts

theorem timely_initial (backing : B.State) :
    Timely blk (initial backing : SchedulerState W R B) where
  clock i := Nat.one_pos
  carried k hk := absurd hk (Nat.not_lt_zero k)
  decide _ _ hpc := by cases hpc
  unconfirmed i hi := by cases hi
  scanning w v pc hw := by cases hw

variable [DecidableEq W] {backing : B.State}

theorem timely_of_reach {ok : SchedulerState W R B → Action W → Prop}
    (h : ReachableWhen blk backing ok σ) : Timely blk σ := by
  refine Runs.Reach.invariant h (timely_initial backing) fun σ a σ' hr ih _ hs => ?_
  have hcore := core_of_reach hr
  rcases step_cases hs with ⟨w, shared, pc, hw, rfl⟩ | ⟨shared, t', hf, rfl⟩ | ⟨shared, t', hc, rfl⟩
  · exact ih.worker hcore hw
  · exact ih.finality hf
  · exact ih.commit hcore hc

/-! ## Finality is sound -/

omit [DecidableEq W] in
/-- When the finality thread decides for its candidate, the candidate is
not dirty: its prefix is final, so nobody is left to rewind to it. -/
theorem not_dirty_of_decide (hcore : Core σ) (htime : Timely blk σ) {use : CandidateUse}
    {bound : Nat} (hpc : σ.finality.pc = .candidateDecide use bound)
    (hb : bound < σ.shared.ctx.unconfirmedTimestamps σ.finality.idx) :
    ¬ Dirty σ σ.finality.idx (σ.shared.ctx.unconfirmedTimestamps σ.finality.idx) := by
  obtain ⟨h₁, h₂⟩ := htime.decide use bound hpc
  rintro (⟨k, hk, hlow⟩ | ⟨w, hp⟩)
  · rcases Nat.lt_or_eq_of_le hk with hlt | rfl
    · have := htime.carried k hlt
      omega
    · omega
  · have hfinal : ∀ v, (σ.workers w).owned = some v → ¬ v.txid < σ.finality.idx :=
      fun v hv hlt => hcore.owned_not_final hv ((hcore.final _).mpr hlt)
    cases hw : σ.workers w <;> rw [hw] at hp hfinal <;>
      first | exact hfinal _ rfl hp.1 | exact hp.elim

omit [DecidableEq W] in
/-- It is published completely, and its read set holds as one atomic
check. -/
theorem valid_of_decide (hcore : Core σ) (htime : Timely blk σ) (hinv : CommitInv blk σ)
    {use : CandidateUse} {bound : Nat} (hpc : σ.finality.pc = .candidateDecide use bound)
    (hb : bound < σ.shared.ctx.unconfirmedTimestamps σ.finality.idx) :
    (σ.shared.column σ.finality.idx).Published ∧
      ∃ r x, σ.shared.txResults σ.finality.idx = some r ∧ r.executeResult = .ok x ∧
        readSetHolds σ.shared.mvMemory σ.shared.history blk.anchor σ.finality.idx r.readSet
          = true := by
  have hlocks : σ.finality.pc.locks = true := by rw [hpc]; rfl
  have hun := hcore.candidate hlocks
  have hsize := hinv.candidate (.inr hlocks)
  have hfree := hcore.free σ.finality.idx
    (by simp [(hcore.finalityLock _).mpr ⟨hlocks, rfl⟩])
  obtain ⟨hpub, hres⟩ : (σ.shared.column σ.finality.idx).Published ∧ _ := by
    simpa only [Column.FreeOk, Shared.column, hun] using hfree
  obtain ⟨r, hr⟩ := Option.isSome_iff_exists.mp hres
  obtain ⟨⟨x, hx⟩, -⟩ := hpub.result r hr
  refine ⟨hpub, r, x, hr, hx, List.all_eq_true.mpr fun e he => ?_⟩
  rcases htime.unconfirmed _ hun hsize r hr e he with hno | hval | hd
  · exact hno.elim
  · exact hval
  · exact absurd hd (not_dirty_of_decide hcore htime hpc hb)

/-- The versions of a final transaction never change. -/
theorem final_versions_step {a : Action W} {σ' : SchedulerState W R B} {j : Nat} (hcore : Core σ)
    (hs : step blk σ a = some σ') (hf : (σ.shared.txStates j).status = .finality) :
    (σ'.shared.txStates j).status = .finality ∧
      (∀ l, σ'.shared.mvMemory l j = σ.shared.mvMemory l j) ∧
      σ'.shared.history j = σ.shared.history j := by
  rcases step_cases hs with ⟨w, shared, pc, hw, rfl⟩ | ⟨shared, t', hstep, rfl⟩ |
    ⟨shared, t', hc, rfl⟩
  · have hsame := hcore.worker_sameAt hw hf
    exact ⟨hsame.state_eq ▸ hf, fun l => congrFun (congrArg Column.entries hsame.1) l,
      congrArg Column.entry hsame.1⟩
  · obtain ⟨hmv, hhist, -, -, hstates⟩ := hstep.frame
    refine ⟨?_, fun l => by simp only [hmv], congrFun hhist j⟩
    rcases hstates j with heq | heq
    · exact heq ▸ hf
    · exact heq
  · obtain ⟨-, hstates, hhist, hmv, -, -⟩ := hc.columns
    exact ⟨by simp only [hstates, hf], fun l => by simp only [hmv], congrFun hhist j⟩

theorem final_versions_run {σ' σ'' : SchedulerState W R B} {j : Nat}
    (h : Reachable blk backing σ') (hrun : Runs.Reach (step blk) Runs.Free σ' σ'')
    (hf : (σ'.shared.txStates j).status = .finality) :
    (∀ l, σ''.shared.mvMemory l j = σ'.shared.mvMemory l j) ∧
      σ''.shared.history j = σ'.shared.history j := by
  have hinv : (σ''.shared.txStates j).status = .finality ∧
      (∀ l, σ''.shared.mvMemory l j = σ'.shared.mvMemory l j) ∧
      σ''.shared.history j = σ'.shared.history j := by
    refine Runs.Reach.invariant (I := fun ρ : SchedulerState W R B =>
      (ρ.shared.txStates j).status = .finality ∧
        (∀ l, ρ.shared.mvMemory l j = σ'.shared.mvMemory l j) ∧
        ρ.shared.history j = σ'.shared.history j) hrun ⟨hf, fun _ => rfl, rfl⟩ ?_
    intro ρ a ρ' hr ⟨hst, hmv, hhist⟩ _ hs
    obtain ⟨hst', hmv', hhist'⟩ := final_versions_step (core_of_reach (h.trans hr)) hs hst
    exact ⟨hst', fun l => (hmv' l).trans (hmv l), hhist'.trans hhist⟩
  exact hinv.2

/-- **Finality is sound.** At the step that sets transaction `i` to
`Finality`, everything before `i` is final, the last incarnation of `i`
has succeeded and its read set holds against the current versions as one
atomic check; from then on no version of `i` or of a transaction before
it changes. -/
theorem finality_is_sound {σ' : SchedulerState W R B} {a : Action W} {i : Nat}
    (h : Reachable blk backing σ) (hs : step blk σ a = some σ')
    (hbefore : (σ.shared.txStates i).status ≠ .finality)
    (hafter : (σ'.shared.txStates i).status = .finality) :
    (∀ j, j < i → (σ.shared.txStates j).status = .finality) ∧
    (∃ r x effect, σ.shared.txResults i = some r ∧ r.executeResult = .ok x ∧
      σ.shared.history i = ⟨(σ.shared.txStates i).incarnation, .exact effect⟩ ∧
      readSetHolds σ.shared.mvMemory σ.shared.history blk.anchor i r.readSet = true) ∧
    (∀ σ'', Runs.Reach (step blk) Runs.Free σ' σ'' → ∀ j, j ≤ i →
      (∀ l, σ''.shared.mvMemory l j = σ.shared.mvMemory l j) ∧
        σ''.shared.history j = σ.shared.history j) := by
  have hcore := core_of_reach h
  have htime := timely_of_reach h
  have hcore' : Core σ' := hcore.step hs
  have hreach' : Reachable blk backing σ' := h.tail a trivial hs
  rcases step_cases hs with ⟨w, shared, pc, hw, rfl⟩ | ⟨shared, t', hstep, rfl⟩ |
    ⟨shared, t', hc, rfl⟩
  · -- no worker moves the finality thread
    exact absurd ((hcore.final i).mpr ((hcore'.final i).mp hafter)) hbefore
  · cases hstep
    case finalize previous bound hpc hb =>
      have hi : i = σ.finality.idx := by
        have h₁ := (hcore'.final i).mp hafter
        have h₂ := mt (hcore.final i).mpr hbefore
        dsimp only at h₁
        omega
      subst hi
      obtain ⟨hpub, r, x, hr, hx, hholds⟩ :=
        valid_of_decide hcore htime (commitInv_of_reach h) hpc hb
      obtain ⟨effect, heff⟩ := hpub.entry
      refine ⟨fun j hj => (hcore.final j).mpr hj, ⟨r, x, effect, hr, hx, heff, hholds⟩, ?_⟩
      intro σ'' hrun j hj
      have hfin := (hcore'.final j).mpr (Nat.lt_succ_of_le hj)
      have hstable := final_versions_run hreach' hrun hfin
      exact hstable
    all_goals exact absurd hafter hbefore
  · exact absurd ((hcore.final i).mpr ((hcore'.final i).mp hafter)) hbefore

/-- The second transaction becomes final after a conflict with the first
one, whose version of the account it has read. -/
theorem finality_is_sound_retried :
    ∃ (σ σ' : SchedulerState Bool Unit (Backing.emptyDB Unit)),
      Reachable (Block.paying 2) () σ ∧
      step (Block.paying 2) σ { thread := .finality } = some σ' ∧
      (σ'.shared.txStates 1).status = .finality ∧ (σ.shared.txStates 0).status = .finality ∧
      ∃ r, σ.shared.txResults 1 = some r ∧
        r.readSet.lookup (.basic 1) = some (.mvMemory ⟨0, 1⟩) ∧
        readSetHolds σ.shared.mvMemory σ.shared.history none 1 r.readSet = true ∧
        (σ.shared.mvMemory (.basic 1) 1).isSome ∧
        ∀ σ'', Runs.Reach (step (Block.paying 2)) Runs.Free σ' σ'' →
          σ''.shared.mvMemory (.basic 1) 1 = σ.shared.mvMemory (.basic 1) 1 := by
  have hcheck : (Block.runPaying (overtaken 62 ++ stepsOf .finality 11)).map (fun σ =>
      ((σ.shared.txStates 1).status,
        (step (Block.paying 2) σ { thread := .finality }).map (·.shared.txStates 1 |>.status),
        (σ.shared.txResults 1).bind (·.readSet.lookup (.basic 1)),
        (σ.shared.mvMemory (.basic 1) 1).isSome)) =
      some (.unconfirmed, some .finality, some (.mvMemory ⟨0, 1⟩), true) := by decide +kernel
  obtain ⟨σ, hrun, heq⟩ := Option.map_eq_some_iff.mp hcheck
  simp only [Prod.mk.injEq] at heq
  obtain ⟨hbefore, hnext, hread, hsome⟩ := heq
  obtain ⟨σ', hstep, hafter⟩ := Option.map_eq_some_iff.mp hnext
  obtain ⟨r, hr, hlookup⟩ := Option.bind_eq_some_iff.mp hread
  have hreach : Reachable (Block.paying 2) () σ := Runs.reach_of_exec hrun
  obtain ⟨hfinal, ⟨r', -, -, hr', -, -, hholds⟩, hstable⟩ :=
    finality_is_sound hreach hstep (by rw [hbefore]; decide) hafter
  cases hr.symm.trans hr'
  exact ⟨σ, σ', hreach, hstep, hafter, hfinal 0 Nat.zero_lt_one, r, hr, hlookup, hholds, hsome,
    fun σ'' h => (hstable σ'' h 1 le_rfl).1 _⟩

end

end Grevm
