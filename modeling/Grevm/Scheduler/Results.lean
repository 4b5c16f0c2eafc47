/-
Grevm.Scheduler.Results — what holds of every result of a run.

The results the machine keeps, in a worker, in `tx_results` or in the
commit loop, are results the programs of the block end with. A property
of all of these (`Prog.Yields`) is therefore one of every result at hand
(`Yielded`). The publications of a result are of the kind of their
location, and so are the entries of the multi-version memory
(`Kinded`): a look-up never passes over an entry it has found.
-/
import Grevm.Scheduler.CommitPrefix

namespace Grevm

variable {Err W R : Type} {B : Backing Err}

/-! ## Results -/

/-- Every result the program can end with has the property. -/
def Prog.Yields (P : SpeculativeResult R → Prop) : Prog Err R → Prop
  | .read _ continuation => ∀ answer, (continuation answer).Yields P
  | .done (.ok result) => P result
  | .done (.error _) => True

def ExecPc.Yields (P : SpeculativeResult R → Prop) : ExecPc R B → Prop
  | .running _ continuation _ => ∀ answer, (continuation answer).Yields P
  | .publishing _ result _ => P result
  | .removing e _ | .recording e | .blockerLoad e | .adding e _ _ | .releasing e _
  | .settling e _ => P e.result
  | _ => True

def CommitLoopPc.Yields (P : SpeculativeResult R → Prop) : CommitLoopPc R B → Prop
  | .nonce _ result _ | .reward _ result _ _ => P result
  | _ => True

/-- Every result at hand has the property of its transaction. -/
structure Yielded (P : Nat → SpeculativeResult R → Prop) (σ : SchedulerState W R B) : Prop where
  workers : ∀ w v pc, σ.workers w = .exec v pc → pc.Yields (P v.txid)
  results : ∀ t r x, σ.shared.txResults t = some r → r.executeResult = .ok x → P t x
  commit : σ.commit.pc.Yields (P σ.commit.idx)

section

variable {blk : Block Err R} {s s' : Shared W R B} {v : TxVersion} {p p' : WorkerPc R B}
  {P : Nat → SpeculativeResult R → Prop} {t : Nat}

theorem yields_enterExec {db : IncarnationDb} {prog : Prog Err R} (h : prog.Yields (P t)) :
    (enterExec blk s t db prog : ExecPc R B).Yields (P t) := by
  cases prog with
  | read call k => exact h
  | done r =>
    cases r with
    | ok result => exact h
    | error e => trivial

theorem ExecStep.yields {pc pc' : ExecPc R B} {v' : TxVersion}
    (h : ExecStep blk s v pc s' p') (hpc : pc.Yields (P v.txid)) (hp' : p' = .exec v' pc') :
    pc'.Yields (P v'.txid) := by
  cases h
  case answer =>
    cases hp'
    exact yields_enterExec (hpc _)
  case frontierFinish tail _ _ _ _ _ | rewindFinish tail _ _ _ => cases tail <;> cases hp'
  case errRecord =>
    cases hp'
    split <;> trivial
  case parallelErrorEnd => cases hp'
  all_goals
    cases hp'
    first | exact hpc | trivial

/-- Only an execution that settles stores a result. -/
theorem ExecStep.stored_yields {pc : ExecPc R B} {r : TransactionResult Err R}
    {x : SpeculativeResult R} (h : ExecStep blk s v pc s' p') (hpc : pc.Yields (P v.txid))
    (hr : s'.txResults t = some r) (hx : r.executeResult = .ok x) :
    s.txResults t = some r ∨ P t x := by
  cases h
  case settle =>
    by_cases ht : t = v.txid
    · subst ht
      simp only [Shared.setStatus_txResults, Shared.setResult_txResults,
        Function.update_self, Option.some.injEq] at hr
      subst hr
      cases hx
      exact .inr hpc
    · refine .inl ?_
      simpa [Function.update_of_ne ht] using hr
  case errRecord =>
    by_cases ht : t = v.txid
    · subst ht
      simp only [Shared.setResult_txResults, Function.update_self, Option.some.injEq] at hr
      subst hr
      cases hx
    · refine .inl ?_
      simpa [Function.update_of_ne ht] using hr
  case frontierFinish tail _ _ _ _ _ | rewindFinish tail _ _ _ => cases tail <;> exact .inl hr
  all_goals exact .inl hr

theorem ValStep.txResults_eq {pc : ValPc} (h : ValStep blk s v pc s' p') :
    s'.txResults = s.txResults := by
  cases h
  all_goals rfl

theorem WorkerStep.yields {w : W} {pc' : ExecPc R B} {v' : TxVersion}
    (h : WorkerStep blk w s p s' p') (hblk : ∀ t, (blk.spec t).Yields (P t))
    (hp : ∀ v pc, p = .exec v pc → pc.Yields (P v.txid)) (hp' : p' = .exec v' pc') :
    pc'.Yields (P v'.txid) := by
  cases h
  case idle hidle _ | frontier _ _ hidle _ => subst hp'; cases hidle
  case busy fromNext _ _ | uselessRemoved fromNext _ _ _ _ _ => cases fromNext <;> cases hp'
  case execute =>
    cases hp'
    exact yields_enterExec (hblk _)
  case executeInconsistent =>
    cases hp'
    trivial
  case exec h => exact h.yields (hp _ _ rfl) hp'
  case val h =>
    cases h <;> cases hp'
  all_goals cases hp'

theorem WorkerStep.stored_yields {w : W} {r : TransactionResult Err R} {x : SpeculativeResult R}
    (h : WorkerStep blk w s p s' p') (hp : ∀ v pc, p = .exec v pc → pc.Yields (P v.txid))
    (hr : s'.txResults t = some r) (hx : r.executeResult = .ok x) :
    s.txResults t = some r ∨ P t x := by
  cases h
  case exec h => exact h.stored_yields (hp _ _ rfl) hr hx
  case val h => exact .inl (h.txResults_eq ▸ hr)
  all_goals exact .inl hr

/-- The commit loop goes on with the result it has taken. -/
theorem yields_startReward {τ τ' : CommitThread R B} {previous : Nat}
    {x : SpeculativeResult R} (h : startReward blk τ previous x = some τ') (hx : P τ.idx x) :
    τ'.pc.Yields (P τ'.idx) := by
  rcases startReward_cases h with ⟨amount, -, rfl⟩ | ⟨-, rfl⟩
  · exact hx
  · trivial

theorem CommitStep.yields {τ τ' : CommitThread R B} (h : CommitStep blk s τ s' τ')
    (hres : ∀ t r x, s.txResults t = some r → r.executeResult = .ok x → P t x)
    (hτ : τ.pc.Yields (P τ.idx)) : τ'.pc.Yields (P τ'.idx) := by
  have hwait : ∀ pc : CommitLoopPc R B, pc.isWaiting = true → pc.Yields (P τ.idx) := by
    intro pc hpc
    cases pc <;> trivial
  cases h
  case wait hpc' | drained hpc' => exact hwait _ hpc'
  case takeNonce hr hx _ => exact hres _ _ _ hr hx
  case take hr hx _ ht => exact yields_startReward ht (hres _ _ _ hr hx)
  case nonce hpc _ | reward hpc _ => rw [hpc] at hτ; exact hτ
  case nonceMatch hpc _ _ ht => rw [hpc] at hτ; exact yields_startReward ht hτ
  all_goals trivial

theorem CommitStep.stored {τ τ' : CommitThread R B} (h : CommitStep blk s τ s' τ')
    {r : TransactionResult Err R} (hr : s'.txResults t = some r) : s.txResults t = some r := by
  have htake : ∀ {result : Option (TransactionResult Err R)},
      (Function.update s.txResults τ.idx none) t = result → result = some r →
        s.txResults t = some r := by
    rintro _ rfl hr
    by_cases ht : t = τ.idx
    · simp [ht] at hr
    · simpa [Function.update_of_ne ht] using hr
  cases h
  case takeFailed | takeNonce | take => exact htake rfl hr
  all_goals exact hr

end

section

variable [DecidableEq W] {blk : Block Err R} {P : Nat → SpeculativeResult R → Prop}
  {σ σ' : SchedulerState W R B} {a : Action W} {backing : B.State}

theorem Yielded.step (h : Yielded P σ) (hblk : ∀ t, (blk.spec t).Yields (P t))
    (hs : step blk σ a = some σ') : Yielded P σ' := by
  rcases step_cases hs with ⟨w, shared, pc, hw, rfl⟩ | ⟨shared, finality, hf, rfl⟩ |
    ⟨shared, commit, hc, rfl⟩
  · refine ⟨fun w' v pc' hw' => ?_, fun t r x hr hx => ?_, h.commit⟩
    · have hw' : Function.update σ.workers w pc w' = .exec v pc' := hw'
      by_cases heq : w' = w
      · subst heq
        rw [Function.update_self] at hw'
        exact hw.yields hblk (h.workers w') hw'
      · rw [Function.update_of_ne heq] at hw'
        exact h.workers w' v pc' hw'
    · rcases hw.stored_yields (h.workers w) hr hx with hold | hnew
      · exact h.results t r x hold hx
      · exact hnew
  · have hframe : shared.txResults = σ.shared.txResults := by cases hf <;> rfl
    exact ⟨h.workers, fun t r x hr hx => h.results t r x (hframe ▸ hr) hx, h.commit⟩
  · exact ⟨h.workers, fun t r x hr hx => h.results t r x (hc.stored hr) hx,
      hc.yields h.results h.commit⟩

/-- **Results are results of the programs.** -/
theorem yielded_of_reach {ok : SchedulerState W R B → Action W → Prop}
    (hblk : ∀ t, (blk.spec t).Yields (P t)) (h : ReachableWhen blk backing ok σ) :
    Yielded P σ :=
  h.invariant ⟨fun _ _ _ hw => (by cases hw), fun _ _ _ hr => (by cases hr), trivial⟩
    fun _ _ _ _ ih _ hs => ih.step hblk hs

end

/-! ## Kinds of entries -/

/-- What is still to be published is of the kind of its location. -/
def Publishing.Kinded (p : Publishing) : Prop :=
  ∀ write ∈ p.first ++ p.slots, write.2.matchesLocation write.1 = true

theorem kinded_accountWrites {beneficiary : Address} {snapshot : Option AccountBasic}
    {address : Address} {account : Account} {write : Write}
    (hw : write ∈ (accountWrites beneficiary snapshot address account).1 ++
      (accountWrites beneficiary snapshot address account).2) :
    write.2.matchesLocation write.1 = true := by
  obtain ⟨location, value⟩ := write
  cases hf : FinalizedAccount.ofAccount account <;> simp [accountWrites, hf] at hw
  case deleted =>
    rcases hw with ⟨-, rfl, rfl⟩ | ⟨rfl, rfl⟩ <;> rfl
  case created =>
    rcases hw with ⟨rfl, rfl⟩ | ⟨-, rfl, rfl⟩ | ⟨-, rfl, rfl⟩ | ⟨_, _, -, rfl, rfl⟩ <;> rfl
  case updated =>
    rcases hw with ⟨-, rfl, rfl⟩ | ⟨-, rfl, rfl⟩ | ⟨_, _, -, rfl, rfl⟩ <;> rfl

theorem Publishing.Kinded.next {beneficiary : Address}
    {snapshots : AList (fun _ : Address => AccountBasic)} {p p' : Publishing} {c : Nat}
    {write : Option Write} (h : p.Kinded)
    (hnext : p.next beneficiary snapshots c = some (write, p')) :
    p'.Kinded ∧ ∀ w, write = some w → w.2.matchesLocation w.1 = true := by
  unfold Publishing.next at hnext
  split at hnext
  · rename_i w first hfirst
    cases hnext
    refine ⟨fun write hw => h write ?_, fun w' hw' => h w' ?_⟩
    · rw [hfirst]
      exact List.mem_cons_of_mem _ hw
    · cases hw'
      simp [hfirst]
  · rename_i hfirst
    split at hnext
    · obtain ⟨⟨⟨address, account⟩, accounts⟩, -, heq⟩ := Option.map_eq_some_iff.mp hnext
      cases heq
      exact ⟨fun write hw => kinded_accountWrites hw, by simp⟩
    · obtain ⟨⟨w, slots⟩, hpick, heq⟩ := Option.map_eq_some_iff.mp hnext
      cases heq
      have hmem := mem_of_pick? hpick
      refine ⟨fun write hw => h write ?_, fun w' hw' => h w' ?_⟩
      · simp only [hfirst, List.nil_append] at hw ⊢
        exact (hmem _).mpr (.inr hw)
      · cases hw'
        simp only [hfirst, List.nil_append]
        exact (hmem _).mpr (.inl rfl)

/-- Every entry is of the kind of its location. -/
def MVMemory.Kinded (mv : MVMemory) : Prop :=
  ∀ l t e, mv l t = some e → e.data.matchesLocation l = true

namespace MVMemory.Kinded

variable {mv : MVMemory} {l : LocationAndType} {t : Nat}

theorem insert (h : mv.Kinded) {e : MemoryEntry} (he : e.data.matchesLocation l = true) :
    (mv.insert l t e).Kinded := by
  intro l' t' e' he'
  simp only [MVMemory.insert] at he'
  split at he'
  · rename_i heq
    cases he'
    exact heq.1 ▸ he
  · exact h l' t' e' he'

theorem remove (h : mv.Kinded) : (mv.remove l t).Kinded := by
  intro l' t' e' he'
  simp only [MVMemory.remove] at he'
  split at he'
  · cases he'
  · exact h l' t' e' he'

theorem markEstimate (h : mv.Kinded) : (mv.markEstimate l t).Kinded := by
  intro l' t' e' he'
  simp only [MVMemory.markEstimate] at he'
  split at he'
  · obtain ⟨e, he, rfl⟩ := Option.map_eq_some_iff.mp he'
    exact h l' t' e he
  · exact h l' t' e' he'

end MVMemory.Kinded

/-- Entries, and what is about to be published, are of the kind of their
location. -/
structure Kinded (σ : SchedulerState W R B) : Prop where
  entries : σ.shared.mvMemory.Kinded
  publishing : ∀ w v db r p, σ.workers w = .exec v (.publishing db r p) → p.Kinded

section

variable {blk : Block Err R} {s s' : Shared W R B} {v : TxVersion} {p p' : WorkerPc R B}

theorem kinded_enterExec {t : Nat} {db db' : IncarnationDb} {prog : Prog Err R}
    {r : SpeculativeResult R} {p : Publishing}
    (h : (enterExec blk s t db prog : ExecPc R B) = .publishing db' r p) : p.Kinded := by
  cases prog with
  | read call k => cases h
  | done result =>
    cases result with
    | error e => cases h
    | ok result =>
      cases h
      exact fun write hw => absurd hw List.not_mem_nil

theorem ExecStep.kinded {pc : ExecPc R B} (h : ExecStep blk s v pc s' p')
    (hmv : s.mvMemory.Kinded) (hpc : ∀ db r p, pc = .publishing db r p → p.Kinded) :
    s'.mvMemory.Kinded ∧
      ∀ v' db r p, p' = .exec v' (.publishing db r p) → p.Kinded := by
  cases h
  case answer =>
    refine ⟨hmv, fun v' db r p hp' => ?_⟩
    exact kinded_enterExec (WorkerPc.exec.inj hp').2
  case publish hnext =>
    obtain ⟨hp, hw⟩ := (hpc _ _ _ rfl).next hnext
    refine ⟨hmv.insert (hw _ rfl), fun v' db r p hp' => ?_⟩
    cases hp'
    exact hp
  case chooseAccount hnext =>
    refine ⟨hmv, fun v' db r p hp' => ?_⟩
    cases hp'
    exact ((hpc _ _ _ rfl).next hnext).1
  case unpublish => exact ⟨hmv.remove, by simp⟩
  case errMark => exact ⟨hmv.markEstimate, by simp⟩
  case errRecord => refine ⟨hmv, ?_⟩; split <;> simp
  case frontierFinish tail _ _ _ _ _ | rewindFinish tail _ _ _ =>
    cases tail <;> exact ⟨hmv, by simp [finishExec]⟩
  all_goals exact ⟨hmv, by simp⟩

theorem ValStep.kinded {pc : ValPc} (h : ValStep blk s v pc s' p') (hmv : s.mvMemory.Kinded) :
    s'.mvMemory.Kinded ∧ ∀ v' pc', p' ≠ .exec v' pc' := by
  cases h
  case mark => exact ⟨hmv.markEstimate, by simp⟩
  all_goals exact ⟨hmv, by simp⟩

theorem WorkerStep.kinded {w : W} (h : WorkerStep blk w s p s' p') (hmv : s.mvMemory.Kinded)
    (hp : ∀ v db r q, p = .exec v (.publishing db r q) → q.Kinded) :
    s'.mvMemory.Kinded ∧ ∀ v' db r q, p' = .exec v' (.publishing db r q) → q.Kinded := by
  cases h
  case idle hidle _ | frontier _ _ hidle _ => exact ⟨hmv, by rintro _ _ _ _ rfl; cases hidle⟩
  case busy fromNext _ _ | uselessRemoved fromNext _ _ _ _ _ =>
    exact ⟨hmv, by cases fromNext <;> simp [noTask]⟩
  case execute =>
    refine ⟨hmv, fun v' db r q hq => ?_⟩
    exact kinded_enterExec (WorkerPc.exec.inj hq).2
  case exec h => exact h.kinded hmv fun db r q hq => hp _ db r q (by rw [hq])
  case val h => exact ⟨(h.kinded hmv).1, fun v' db r q hq => absurd hq ((h.kinded hmv).2 _ _)⟩
  all_goals exact ⟨hmv, by simp⟩

variable [DecidableEq W] {σ σ' : SchedulerState W R B} {a : Action W} {backing : B.State}

theorem Kinded.step (h : Kinded σ) (hs : step blk σ a = some σ') : Kinded σ' := by
  rcases step_cases hs with ⟨w, shared, pc, hw, rfl⟩ | ⟨shared, finality, hf, rfl⟩ |
    ⟨shared, commit, hc, rfl⟩
  · obtain ⟨hmv, hp⟩ := hw.kinded h.entries (h.publishing w)
    refine ⟨hmv, fun w' v db r p hw' => ?_⟩
    have hw' : Function.update σ.workers w pc w' = .exec v (.publishing db r p) := hw'
    by_cases heq : w' = w
    · subst heq
      rw [Function.update_self] at hw'
      exact hp v db r p hw'
    · rw [Function.update_of_ne heq] at hw'
      exact h.publishing w' v db r p hw'
  · have hframe : shared.mvMemory = σ.shared.mvMemory := by cases hf <;> rfl
    exact ⟨hframe ▸ h.entries, h.publishing⟩
  · have hframe : shared.mvMemory = σ.shared.mvMemory := by
      cases hc
      all_goals rfl
    exact ⟨hframe ▸ h.entries, h.publishing⟩

theorem kinded_of_reach {ok : SchedulerState W R B → Action W → Prop}
    (h : ReachableWhen blk backing ok σ) : Kinded σ :=
  h.invariant ⟨fun _ _ _ he => (by cases he), fun _ _ _ _ _ hw => (by cases hw)⟩
    fun _ _ _ _ ih _ hs => ih.step hs

end

end Grevm
