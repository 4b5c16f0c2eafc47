/-
Grevm.Scheduler.Rounds — one worker alone, from one visit of `next` to the
following one.

The other workers are at home and the coordinators at the heads of their
loops; `f` is the first transaction that is not final, and everything
before it is committed. What worker `w` does then moves neither the index
of `TxDependency` nor the validation cursor back behind `f`: a rewind goes
to a transaction that the worker runs, or to a dependent of one, and a
blocker is never final (`WorkerPc.Above`, `Round.brings_bounded`). So a few
turns of `next` bring both cursors to `f` (`Round.brings_cursors`).
-/
import Grevm.Scheduler.Coordinators

namespace Grevm

variable {Err W R : Type} {B : Backing Err}

/-! ## Dependents come after their blockers -/

def RemovePc.Beyond (d : Nat) : RemovePc → Prop
  | .start => True
  | .each remaining _ => ∀ t, t ∈ remaining → d < t
  | .rewind tx remaining _ => d < tx ∧ ∀ t, t ∈ remaining → d < t

/-- The dependents that the worker visits come after the transaction. -/
def WorkerPc.Beyond : WorkerPc R B → Prop
  | .useless d _ pc => pc.Beyond d
  | .exec v (.releasing _ pc) => pc.Beyond v.txid
  | _ => True

section

variable {blk : Block Err R} {s s' : Shared W R B} {v : TxVersion} {p p' : WorkerPc R B} {w : W}
  {dep dep' : TxDependency}

theorem AddStep.affects_gt {t : Nat} {blocker : Option Nat} {pc : AddPc} {res : Option AddPc}
    (h : AddStep dep t blocker pc dep' res) (hbelow : DependencyBelow blocker t)
    (haffects : ∀ d u, u ∈ dep.affectTxs d → d < u) : ∀ d u, u ∈ dep'.affectTxs d → d < u := by
  intro d u hu
  rcases h.mem_affectTxs hu with hu | ⟨rfl, hd⟩
  · exact haffects d u hu
  · exact hbelow d hd

theorem RemoveStep.beyond {d : Nat} {popNext : Bool} {pc : RemovePc}
    {result : RemovePc ⊕ Option Nat} (h : RemoveStep dep d popNext pc dep' result)
    (haffects : ∀ d t, t ∈ dep.affectTxs d → d < t) (hpc : pc.Beyond d) :
    (∀ d t, t ∈ dep'.affectTxs d → d < t) ∧ ∀ pc', result = .inl pc' → pc'.Beyond d := by
  cases h with
  | empty => exact ⟨haffects, by simp⟩
  | start =>
    refine ⟨haffects, fun pc' hpc' => ?_⟩
    cases hpc'
    exact haffects d
  | finish =>
    refine ⟨fun d' t ht => ?_, by simp⟩
    by_cases hd : d' = d
    · subst hd
      simp at ht
    · exact haffects d' t (by simpa [Function.update_of_ne hd] using ht)
  | clear hp =>
    refine ⟨haffects, fun pc' hpc' => ?_⟩
    cases hpc'
    have hmem := mem_of_pick? hp
    exact ⟨hpc _ ((hmem _).mpr (.inl rfl)), fun t ht => hpc t ((hmem t).mpr (.inr ht))⟩
  | pop hp | clearOff hp | skip hp =>
    refine ⟨haffects, fun pc' hpc' => ?_⟩
    cases hpc'
    exact fun t ht => hpc t ((mem_of_pick? hp t).mpr (.inr ht))
  | rewind =>
    refine ⟨haffects, fun pc' hpc' => ?_⟩
    cases hpc'
    exact hpc.2

theorem beyond_of_isIdle (h : p.isIdle = true) : p.Beyond := by
  cases p <;> trivial

theorem beyond_enterExec {db : IncarnationDb} {t : Nat} {prog : Prog Err R} :
    (WorkerPc.exec v (enterExec blk s t db prog) : WorkerPc R B).Beyond := by
  cases prog with
  | read call k => trivial
  | done result => cases result <;> trivial

theorem beyond_finishExec {tail : ExecTail} :
    (finishExec s v tail).1.txDependency = s.txDependency ∧ (finishExec s v tail).2.Beyond := by
  cases tail <;> exact ⟨rfl, trivial⟩

theorem ExecStep.beyond {pc : ExecPc R B} (h : ExecStep blk s v pc s' p')
    (hbelow : ExecBelow v.txid pc) (haffects : ∀ d t, t ∈ s.txDependency.affectTxs d → d < t)
    (hpc : (WorkerPc.exec v pc).Beyond) :
    (∀ d t, t ∈ s'.txDependency.affectTxs d → d < t) ∧ p'.Beyond := by
  cases h
  case answer => exact ⟨haffects, beyond_enterExec⟩
  case recordExact => exact ⟨haffects, trivial⟩
  case addLock h | addBlocker h => exact ⟨(addStep_sound h).affects_gt hbelow.2 haffects, trivial⟩
  case errAddLock h | errAddBlocker h =>
    exact ⟨(addStep_sound h).affects_gt hbelow haffects, trivial⟩
  case release h =>
    obtain ⟨haffects', hpc'⟩ := (removeStep_sound h).beyond haffects hpc
    exact ⟨haffects', hpc' _ rfl⟩
  case released h => exact ⟨((removeStep_sound h).beyond haffects hpc).1, trivial⟩
  case key h | keyBehind h =>
    obtain ⟨_, -, -, -, hedges, -⟩ := TxDependency.keyTx_eq h
    exact ⟨fun d t ht => haffects d t (hedges ▸ ht), trivial⟩
  case errRecord => refine ⟨haffects, ?_⟩; split <;> trivial
  case frontierFinish | rewindFinish =>
    exact ⟨by rw [beyond_finishExec.1]; exact haffects, beyond_finishExec.2⟩
  all_goals exact ⟨haffects, trivial⟩

theorem WorkerStep.beyond (h : WorkerStep blk w s p s' p') (hbelow : PcBelow p)
    (haffects : ∀ d t, t ∈ s.txDependency.affectTxs d → d < t) (hp : p.Beyond) :
    (∀ d t, t ∈ s'.txDependency.affectTxs d → d < t) ∧ p'.Beyond := by
  cases h
  case idle hp' _ | frontier hp' _ => exact ⟨haffects, beyond_of_isIdle hp'⟩
  case busy fromNext _ _ => exact ⟨haffects, by cases fromNext <;> trivial⟩
  case useless => exact ⟨haffects, trivial⟩
  case claimDependent h =>
    rcases TxDependency.claim_eq h with ⟨-, -, -, rfl⟩ | ⟨hno, -⟩
    · exact ⟨haffects, trivial⟩
    · cases hno
  case dependentMissed h =>
    rcases TxDependency.claim_eq h with ⟨hno, -⟩ | ⟨-, rfl, -⟩
    · cases hno
    · exact ⟨haffects, trivial⟩
  case uselessRemove h =>
    obtain ⟨haffects', hpc'⟩ := (removeStep_sound h).beyond haffects hp
    exact ⟨haffects', hpc' _ rfl⟩
  case uselessRemoved fromNext _ _ _ _ h =>
    exact ⟨((removeStep_sound h).beyond haffects hp).1, by cases fromNext <;> trivial⟩
  case execute => exact ⟨haffects, beyond_enterExec⟩
  case exec h => exact h.beyond hbelow haffects hp
  case val h =>
    cases h
    case addLock h | addBlocker h => exact ⟨(addStep_sound h).affects_gt hbelow haffects, trivial⟩
    all_goals exact ⟨haffects, trivial⟩
  all_goals exact ⟨haffects, trivial⟩

theorem beyond_of_reach [DecidableEq W] {backing : B.State} {σ : SchedulerState W R B}
    {ok : SchedulerState W R B → Action W → Prop} (h : ReachableWhen blk backing ok σ) :
    (∀ d t, t ∈ σ.shared.txDependency.affectTxs d → d < t) ∧ ∀ w, (σ.workers w).Beyond := by
  refine h.invariant (I := fun σ => (∀ d t, t ∈ σ.shared.txDependency.affectTxs d → d < t) ∧
    ∀ w, (σ.workers w).Beyond) ⟨fun d t ht => absurd ht List.not_mem_nil, fun _ => trivial⟩
    fun σ a σ' hr ih _ hs => ?_
  rcases step_cases hs with ⟨w, shared, pc, hw, rfl⟩ | ⟨shared, t', hf, rfl⟩ | ⟨shared, t', hc, rfl⟩
  · obtain ⟨haffects, hpc⟩ := hw.beyond (pcBelow_of_reach hr w) ih.1 (ih.2 w)
    refine ⟨haffects, fun w' => ?_⟩
    by_cases heq : w' = w
    · subst heq
      simpa using hpc
    · simpa [Function.update_of_ne heq] using ih.2 w'
  · have hframe : shared.txDependency = σ.shared.txDependency := by cases hf <;> rfl
    exact ⟨hframe ▸ ih.1, ih.2⟩
  · exact ⟨fun d t ht => ih.1 d t (hc.affectTxs ▸ ht), ih.2⟩

end

/-! ## The index does not go back -/

/-- What the worker is about to queue or to rewind to does not lie before
`b`. -/
def WorkerPc.Above (b : Nat) : WorkerPc R B → Prop
  | .dependencyLock t | .executionTask t _ => b ≤ t
  | .useless t _ _ => b ≤ t + 1
  | .exec _ (.adding _ blocker _) | .exec _ (.errAdding blocker _)
  | .val _ (.adding blocker _) => ∀ d, blocker = some d → b ≤ d
  | _ => True

section

variable {blk : Block Err R} {s s' : Shared W R B} {v : TxVersion} {p p' : WorkerPc R B} {w : W}
  {dep dep' : TxDependency} {b : Nat}

theorem latestUnfinalizedBlocker_ge {finality d : Nat} {blockers : List Nat}
    (h : latestUnfinalizedBlocker finality blockers = some d) : finality ≤ d := by
  have hmem := List.max?_mem h
  simpa using (List.mem_filter.mp hmem).2

theorem AddStep.le_index {t : Nat} {blocker : Option Nat} {pc : AddPc} {res : Option AddPc}
    (h : AddStep dep t blocker pc dep' res) (hindex : b ≤ dep.index) (ht : b ≤ t)
    (hblocker : ∀ d, blocker = some d → b ≤ d) : b ≤ dep'.index := by
  cases h with
  | @link d _ hlink =>
    have hd := hblocker d rfl
    rcases hlink.index with heq | heq <;> omega
  | release => exact Nat.le_min.mpr ⟨hindex, ht⟩
  | _ => exact hindex

theorem RemoveStep.le_index {d : Nat} {popNext : Bool} {pc : RemovePc}
    {result : RemovePc ⊕ Option Nat} (h : RemoveStep dep d popNext pc dep' result)
    (hpc : pc.Beyond d) (hd : b ≤ d + 1) (hindex : b ≤ dep.index) : b ≤ dep'.index := by
  cases h
  case rewind tx =>
    have hlt := hpc.1
    show b ≤ min dep.index tx
    omega
  all_goals exact hindex

theorem above_of_isIdle (h : p.isIdle = true) : p.Above b := by
  cases p <;> trivial

theorem above_enterExec {db : IncarnationDb} {t : Nat} {prog : Prog Err R} :
    (WorkerPc.exec v (enterExec blk s t db prog) : WorkerPc R B).Above b := by
  cases prog with
  | read call k => trivial
  | done result => cases result <;> trivial

theorem above_finishExec {tail : ExecTail} (hon : ∀ next, tail = .handOff next → next = v.txid + 1)
    (hv : b ≤ v.txid) :
    (finishExec s v tail).1.txDependency = s.txDependency ∧ (finishExec s v tail).2.Above b := by
  cases tail with
  | handOff next =>
    have hnext := hon next rfl
    exact ⟨rfl, show b ≤ next by omega⟩
  | conflict | rewind | revalidate => exact ⟨rfl, trivial⟩

theorem ExecStep.above {pc : ExecPc R B} (h : ExecStep blk s v pc s' p')
    (hfinality : b ≤ s.ctx.finality) (hv : b ≤ v.txid) (hon : (WorkerPc.exec v pc).HandsOn)
    (hbeyond : (WorkerPc.exec v pc).Beyond) (hpc : (WorkerPc.exec v pc).Above b)
    (hindex : b ≤ s.txDependency.index) : p'.Above b ∧ b ≤ s'.txDependency.index := by
  cases h
  case answer => exact ⟨above_enterExec, hindex⟩
  case recordExact => exact ⟨trivial, hindex⟩
  case loadBlocker | errLoadBlocker =>
    exact ⟨fun d hd => Nat.le_trans hfinality (latestUnfinalizedBlocker_ge hd), hindex⟩
  case addLock h | errAddLock h => exact ⟨hpc, (addStep_sound h).le_index hindex hv hpc⟩
  case addBlocker h | errAddBlocker h => exact ⟨trivial, (addStep_sound h).le_index hindex hv hpc⟩
  case release h | released h =>
    exact ⟨trivial, (removeStep_sound h).le_index hbeyond (Nat.le_succ_of_le hv) hindex⟩
  case key h | keyBehind h =>
    obtain ⟨_, -, -, -, -, -, heq⟩ := TxDependency.keyTx_eq h
    exact ⟨trivial, heq ▸ hindex⟩
  case keyRewind => exact ⟨trivial, Nat.le_min.mpr ⟨hindex, hv⟩⟩
  case errRecord => refine ⟨?_, hindex⟩; split <;> trivial
  case frontierFinish | rewindFinish =>
    obtain ⟨heq, habove⟩ := above_finishExec hon hv
    exact ⟨habove, by rw [heq]; exact hindex⟩
  all_goals exact ⟨trivial, hindex⟩

theorem ValStep.above {pc : ValPc} (h : ValStep blk s v pc s' p') (hfinality : b ≤ s.ctx.finality)
    (hv : b ≤ v.txid) (hpc : (WorkerPc.val v pc : WorkerPc R B).Above b)
    (hindex : b ≤ s.txDependency.index) : p'.Above b ∧ b ≤ s'.txDependency.index := by
  cases h
  case scanned => refine ⟨?_, hindex⟩; split <;> trivial
  case loadBlocker =>
    refine ⟨fun d hd => ?_, hindex⟩
    obtain ⟨-, hle⟩ := Option.filter_eq_some_iff.mp hd
    exact Nat.le_trans hfinality (by simpa using hle)
  case addLock h => exact ⟨hpc, (addStep_sound h).le_index hindex hv hpc⟩
  case addBlocker h => exact ⟨trivial, (addStep_sound h).le_index hindex hv hpc⟩
  all_goals exact ⟨trivial, hindex⟩

theorem WorkerStep.above (h : WorkerStep blk w s p s' p') (hfinality : b ≤ s.ctx.finality)
    (hv : ∀ v, p.owned = some v → b ≤ v.txid) (hon : p.HandsOn) (hbeyond : p.Beyond)
    (hp : p.Above b) (hindex : b ≤ s.txDependency.index) :
    p'.Above b ∧ b ≤ s'.txDependency.index := by
  cases h
  case idle hp' _ | frontier hp' _ => exact ⟨above_of_isIdle hp', hindex⟩
  case fetchIndex => exact ⟨hindex, Nat.le_succ_of_le hindex⟩
  case fetchPast => exact ⟨trivial, Nat.le_succ_of_le hindex⟩
  case claimDependent h =>
    rcases TxDependency.claim_eq h with ⟨-, -, -, rfl⟩ | ⟨hno, -⟩
    · exact ⟨hp, hindex⟩
    · cases hno
  case dependentMissed h =>
    rcases TxDependency.claim_eq h with ⟨hno, -⟩ | ⟨-, rfl, -⟩
    · cases hno
    · exact ⟨trivial, hindex⟩
  case busy fromNext _ _ => exact ⟨by cases fromNext <;> trivial, hindex⟩
  case useless => exact ⟨Nat.le_succ_of_le hp, hindex⟩
  case uselessRemove h => exact ⟨hp, (removeStep_sound h).le_index hbeyond hp hindex⟩
  case uselessRemoved fromNext _ _ _ _ h =>
    exact ⟨by cases fromNext <;> trivial, (removeStep_sound h).le_index hbeyond hp hindex⟩
  case execute => exact ⟨above_enterExec, hindex⟩
  case exec h => exact h.above hfinality (hv _ rfl) hon hbeyond hp hindex
  case val h => exact h.above hfinality (hv _ rfl) hp hindex
  all_goals exact ⟨trivial, hindex⟩

/-- A rewind of validation does not go behind the worker's own
transaction. -/
theorem owned_of_rewindAt {n : Nat} {pc : RewindPc} (h : p.rewindAt = some (n, pc)) :
    ∃ v, p.owned = some v ∧ v.txid ≤ n := by
  cases p with
  | exec v pc =>
    cases pc with
    | rewinding tail pc =>
      cases h
      exact ⟨v, rfl, (ExecTail.target_le v.txid tail).1⟩
    | _ => cases h
  | val v pc =>
    cases pc with
    | rewinding dependency pc =>
      cases h
      exact ⟨v, rfl, Nat.le_succ v.txid⟩
    | _ => cases h
  | _ => cases h

theorem WorkerStep.le_validation (h : WorkerStep blk w s p s' p')
    (hrewind : ∀ n pc, p.rewindAt = some (n, pc) → b ≤ n) (hvalidation : b ≤ s.ctx.validation) :
    b ≤ s'.ctx.validation := by
  cases h.cursorMove with
  | draw _ heq | raise _ heq | claim heq | keep heq => omega
  | rewind hp heq =>
    have hn := hrewind _ _ hp
    omega

end

/-! ## What `current` returns -/

/-- `n` is past every prefix of flagged transactions. -/
def SchedulerContext.Passes (numTxs : Nat) (ctx : SchedulerContext) (n : Nat) : Prop :=
  ∀ g, g ≤ numTxs → (∀ j, j < g → ctx.executed j = true) → g ≤ n

/-- A call of `current` that nobody interrupts. -/
def FrontierPc.Current (numTxs : Nat) (ctx : SchedulerContext) : FrontierPc → Prop
  | .currentLoad => True
  | .currentCheck loaded => loaded ≤ ctx.frontier
  | .currentReload => ctx.Passes numTxs ctx.frontier
  | .advanceScan publishing start _ => publishing = false ∧ start ≤ ctx.frontier
  | .advanceMax publishing _ => publishing = false
  | _ => False

theorem SchedulerContext.passes_of_unflagged {numTxs n : Nat} {ctx : SchedulerContext}
    (h : ¬ (n < numTxs ∧ ctx.executed n = true)) : ctx.Passes numTxs n := by
  intro g hg hflags
  by_contra hlt
  exact h ⟨by omega, hflags n (by omega)⟩

/-- It sets no flag, and returns a frontier that has passed all that are
set. -/
theorem SchedulerContext.current_of_frontierStep {numTxs : Nat} {ctx ctx' : SchedulerContext}
    {pc : FrontierPc} {next : FrontierPc ⊕ Nat} (h : ctx.frontierStep numTxs pc = (ctx', next))
    (hpc : pc.Current numTxs ctx) :
    ctx' = { ctx with frontier := ctx'.frontier } ∧
      (∀ pc', next = .inl pc' → pc'.Current numTxs ctx') ∧
      ∀ n, next = .inr n → ctx'.Passes numTxs n := by
  cases frontierStep_sound h with
  | passed | ahead | flag | gap | elsewhere => cases hpc
  | load =>
    refine ⟨rfl, fun pc' hpc' => ?_, by simp⟩
    cases hpc'
    exact Nat.le_refl _
  | loadEnd hle =>
    refine ⟨rfl, by simp, fun n hn => ?_⟩
    cases hn
    exact fun g hg _ => Nat.le_trans hg hle
  | flagged =>
    refine ⟨rfl, fun pc' hpc' => ?_, by simp⟩
    cases hpc'
    exact ⟨rfl, hpc⟩
  | unflagged hflag =>
    refine ⟨rfl, by simp, fun n hn => ?_⟩
    cases hn
    exact passes_of_unflagged (by simp [hflag])
  | reload =>
    refine ⟨rfl, by simp, fun n hn => ?_⟩
    cases hn
    exact hpc
  | scan =>
    refine ⟨rfl, fun pc' hpc' => ?_, by simp⟩
    cases hpc'
    exact hpc
  | stuckPublish => cases hpc.1
  | stuckCurrent hstuck =>
    refine ⟨rfl, fun pc' hpc' => ?_, by simp⟩
    cases hpc'
    exact fun g hg hflags => Nat.le_trans (passes_of_unflagged hstuck g hg hflags) hpc.2
  | found =>
    refine ⟨rfl, fun pc' hpc' => ?_, by simp⟩
    cases hpc'
    exact hpc.1
  | advance =>
    refine ⟨rfl, fun pc' hpc' => ?_, by simp⟩
    cases hpc'
    exact ⟨hpc, Nat.le_refl _⟩

/-- A worker that asks for a validation task. The limit of its claim is not
past the index, and past every flagged prefix up to the index. -/
def WorkerPc.Choosing (numTxs : Nat) (s : Shared W R B) : WorkerPc R B → Prop
  | .scheduleIndex | .scheduleValidation _ | .claimIndex => True
  | .scheduleFrontier pc => pc.Current numTxs s.ctx
  | .claimFrontier executingIdx pc =>
    executingIdx = s.txDependency.index ∧ pc.Current numTxs s.ctx
  | .claimLoad limit => limit ≤ s.txDependency.index ∧
    ∀ g, g ≤ numTxs → (∀ j, j < g → s.ctx.executed j = true) → g ≤ s.txDependency.index →
      g ≤ limit
  | _ => False

/-- The states a worker goes through while it asks for a validation task
differ in the frontier only. -/
theorem WorkerPc.Choosing.step {blk : Block Err R} {s s' : Shared W R B} {p p' : WorkerPc R B}
    {w : W} (hp : p.Choosing blk.size s) (hload : ∀ limit, p ≠ .claimLoad limit)
    (hstep : workerStep blk w s p 0 = some (s', p')) :
    (∃ n, s' = { s with ctx := { s.ctx with frontier := n } }) ∧ p'.Choosing blk.size s' := by
  cases p with
  | scheduleIndex =>
    cases hstep
    exact ⟨⟨_, rfl⟩, trivial⟩
  | scheduleValidation i =>
    simp only [workerStep] at hstep
    split at hstep <;> cases hstep <;> exact ⟨⟨_, rfl⟩, trivial⟩
  | scheduleFrontier pc =>
    simp only [workerStep] at hstep
    split at hstep <;> cases hstep <;> rename_i hmove
    · obtain ⟨heq, hpc, -⟩ := SchedulerContext.current_of_frontierStep hmove hp
      exact ⟨⟨_, by rw [← heq]⟩, hpc _ rfl⟩
    · obtain ⟨heq, -, -⟩ := SchedulerContext.current_of_frontierStep hmove hp
      exact ⟨⟨_, by rw [← heq]⟩, trivial⟩
  | claimIndex =>
    cases hstep
    exact ⟨⟨_, rfl⟩, rfl, trivial⟩
  | claimFrontier i pc =>
    obtain ⟨rfl, hp⟩ := hp
    simp only [workerStep] at hstep
    split at hstep <;> cases hstep <;> rename_i hmove
    · obtain ⟨heq, hpc, -⟩ := SchedulerContext.current_of_frontierStep hmove hp
      exact ⟨⟨_, by rw [← heq]⟩, rfl, hpc _ rfl⟩
    · obtain ⟨heq, -, hpass⟩ := SchedulerContext.current_of_frontierStep hmove hp
      refine ⟨⟨_, by rw [← heq]⟩, Nat.min_le_left .., fun g hg hflags hindex => ?_⟩
      exact Nat.le_min.mpr ⟨hindex, hpass _ rfl g hg hflags⟩
  | claimLoad limit => exact absurd rfl (hload limit)
  | _ => cases hp

/-! ## A round -/

/-- Worker `w` alone is away from home, and `f` is the first transaction
that is not final; what is final is committed. -/
structure Round (blk : Block Err R) [DecidableEq W] (backing : B.State) (f : Nat) (w : W)
    (σ : SchedulerState W R B) : Prop where
  reach : Reachable blk backing σ
  others : ∀ w', w' ≠ w → (σ.workers w').isHome = true
  finality : σ.finality.pc = .head
  idx : σ.finality.idx = f
  commit : σ.commit.pc = .head
  committed : σ.commit.idx = f

namespace Round

variable [DecidableEq W] {blk : Block Err R} {backing : B.State} {σ : SchedulerState W R B}
  {s' : Shared W R B} {p' : WorkerPc R B} {w : W} {f t : Nat}

theorem core (h : Round blk backing f w σ) : Core σ := core_of_reach h.reach

theorem ctx_finality (h : Round blk backing f w σ) : σ.shared.ctx.finality = f := by
  have hcursor := h.core.cursor
  simpa [h.finality, FinalityPc.isPublish, h.idx] using hcursor

theorem ctx_committed (h : Round blk backing f w σ) : σ.shared.ctx.committed = f := by
  have hcommitted := (commitInv_of_reach h.reach).committed
  simpa [h.commit, CommitLoopPc.published, h.committed] using hcommitted

theorem final (h : Round blk backing f w σ) (ht : t < f) :
    (σ.shared.txStates t).status = .finality :=
  (h.core.final t).mpr (h.idx ▸ ht)

theorem not_final (h : Round blk backing f w σ) : (σ.shared.txStates f).status ≠ .finality :=
  fun hfinal => Nat.lt_irrefl f (h.idx ▸ (h.core.final f).mp hfinal)

theorem owned_ge (h : Round blk backing f w σ) {v : TxVersion}
    (hv : (σ.workers w).owned = some v) : f ≤ v.txid :=
  Nat.le_of_not_lt fun hlt => h.core.owned_not_final hv (h.final hlt)

theorem free (h : Round blk backing f w σ) :
    ∀ l ∈ (σ.workers w).wants, σ.shared.isHeld l = false := by
  refine free_of_others h.reach fun th hth l _ hholds => ?_
  cases th with
  | worker w' =>
    have hne : w' ≠ w := fun heq => hth (by rw [heq])
    exact WorkerPc.not_holds_of_isHome (h.others w' hne) l hholds
  | finality => cases l <;> simp [SchedulerState.Holds, h.finality, FinalityPc.locks] at hholds
  | commit => cases hholds

/-- No other worker holds anything. -/
theorem idle (h : Round blk backing f w σ) (hidle : (σ.workers w).isIdle = true) (w' : W) :
    (σ.workers w').isIdle = true := by
  by_cases heq : w' = w
  · exact heq ▸ hidle
  · exact WorkerPc.isIdle_of_isHome (h.others w' heq)

theorem step (h : Round blk backing f w σ) {c : Nat}
    (hstep : workerStep blk w σ.shared (σ.workers w) c = some (s', p')) :
    Round blk backing f w { σ with shared := s', workers := Function.update σ.workers w p' } where
  reach := h.reach.tail ⟨.worker w, c⟩ trivial (step_worker hstep)
  others w' hne := by simpa [Function.update_of_ne hne] using h.others w' hne
  finality := h.finality
  idx := h.idx
  commit := h.commit
  committed := h.committed

/-- A worker that has not returned asks for a task. -/
theorem nextFinished (h : Round blk backing f w σ) (hlt : f < blk.size)
    (habort : σ.shared.abort = false) (hhome : (σ.workers w).isHome = true) :
    σ.workers w = .nextFinished := by
  refine (WorkerPc.eq_of_isHome hhome).resolve_right fun hfinished => ?_
  rcases (ended_of_reach h.reach).workers w hfinished with ha | hge
  · simp [habort] at ha
  · rw [h.ctx_finality] at hge
    omega

end Round

/-- Worker `w` alone can bring about `Q`, or the run is aborted. -/
def Brings (blk : Block Err R) [DecidableEq W] (backing : B.State) (f : Nat) (w : W)
    (Q : SchedulerState W R B → Prop) (σ : SchedulerState W R B) : Prop :=
  Runs.Leads (step blk) Runs.Free
    (fun σ' => Round blk backing f w σ' ∧ (σ'.shared.abort = true ∨ Q σ')) σ

namespace Brings

variable [DecidableEq W] {blk : Block Err R} {backing : B.State} {σ : SchedulerState W R B}
  {s' : Shared W R B} {p' : WorkerPc R B} {w : W} {f : Nat} {P Q Q' : SchedulerState W R B → Prop}

theorem here (h : Round blk backing f w σ) (hq : Q σ) : Brings blk backing f w Q σ :=
  Runs.Leads.here ⟨h, .inr hq⟩

theorem bind (h : Brings blk backing f w Q σ)
    (next : ∀ σ', Round blk backing f w σ' → σ'.shared.abort = false → Q σ' →
      Brings blk backing f w Q' σ') : Brings blk backing f w Q' σ := by
  refine Runs.Leads.bind h fun σ' _ hσ' => ?_
  by_cases habort : σ'.shared.abort = true
  · exact .here ⟨hσ'.1, .inl habort⟩
  · exact next σ' hσ'.1 (by simpa using habort) (hσ'.2.resolve_left habort)

theorem imp (h : Brings blk backing f w Q σ)
    (hq : ∀ σ', Round blk backing f w σ' → σ'.shared.abort = false → Q σ' → Q' σ') :
    Brings blk backing f w Q' σ :=
  h.bind fun σ' h' habort hσ' => here h' (hq σ' h' habort hσ')

/-- One step of the worker. -/
theorem of_step (h : Round blk backing f w σ)
    (hstep : workerStep blk w σ.shared (σ.workers w) 0 = some (s', p'))
    (next : ∀ σ', Round blk backing f w σ' → σ'.shared = s' → σ'.workers w = p' →
      Brings blk backing f w Q σ') : Brings blk backing f w Q σ :=
  (Runs.Leads.of_step ⟨.worker w, 0⟩ trivial (step_worker hstep) rfl).bind fun σ' _ hσ' => by
    subst hσ'
    exact next _ (h.step hstep) rfl (Function.update_self ..)

/-- One turn after the other, as long as something is left to do. -/
theorem of_variant (μ : SchedulerState W R B → Nat)
    (lower : ∀ σ, Round blk backing f w σ → σ.shared.abort = false → P σ → ¬ Q σ →
      Brings blk backing f w (fun σ' => P σ' ∧ (Q σ' ∨ μ σ' < μ σ)) σ)
    (h : Round blk backing f w σ) (hP : P σ) :
    Brings blk backing f w (fun σ' => P σ' ∧ Q σ') σ := by
  let P' (σ : SchedulerState W R B) := Round blk backing f w σ ∧ (σ.shared.abort = true ∨ P σ)
  let Q' (σ : SchedulerState W R B) := σ.shared.abort = true ∨ Q σ
  have hleads : Runs.Leads (step blk) Runs.Free (fun σ => P' σ ∧ Q' σ) σ := by
    refine Runs.leads_of_variant μ (fun σ hP' hQ' => ?_) ⟨h, .inr hP⟩
    obtain ⟨habort, hQ⟩ := not_or.mp hQ'
    refine Runs.Leads.imp
      (lower σ hP'.1 (by simpa using habort) (hP'.2.resolve_left habort) hQ) fun σ' _ hσ' => ?_
    obtain ⟨h', habort' | ⟨hP'', hlower⟩⟩ := hσ'
    · exact ⟨⟨h', .inl habort'⟩, .inl (.inl habort')⟩
    · exact ⟨⟨h', .inr hP''⟩, hlower.imp .inr id⟩
  refine hleads.imp fun σ' _ hσ' => ⟨hσ'.1.1, ?_⟩
  by_cases habort : σ'.shared.abort = true
  · exact .inl habort
  · exact .inr ⟨hσ'.1.2.resolve_left habort, hσ'.2.resolve_left habort⟩

end Brings

namespace Round

variable [DecidableEq W] {blk : Block Err R} {backing : B.State} {σ : SchedulerState W R B}
  {s' : Shared W R B} {p' : WorkerPc R B} {w : W} {f : Nat} (hB : Responsive B)
  (hapart : ∀ t, (blk.spec t).Yields (SpeculativeResult.RewardApart blk.beneficiary))

include hB hapart

/-- **The worker runs on** until it comes home, or `stop`, or the run is
aborted. `P` is what its steps preserve on the way. -/
theorem brings_until {P : Shared W R B → WorkerPc R B → Prop} (stop : WorkerPc R B → Prop)
    (h : Round blk backing f w σ) (hP : P σ.shared (σ.workers w))
    (hkeep : ∀ σ s' p', Round blk backing f w σ → σ.shared.abort = false →
      P σ.shared (σ.workers w) → (σ.workers w).isHome = false → ¬ stop (σ.workers w) →
      workerStep blk w σ.shared (σ.workers w) 0 = some (s', p') → s'.abort = true ∨ P s' p') :
    Brings blk backing f w (fun σ' => P σ'.shared (σ'.workers w) ∧
      ((σ'.workers w).isHome = true ∨ stop (σ'.workers w))) σ := by
  let P' (σ : SchedulerState W R B) := Round blk backing f w σ ∧
    (σ.shared.abort = true ∨ P σ.shared (σ.workers w))
  let stop' (σ : SchedulerState W R B) := (σ.workers w).isHome = true ∨
    σ.shared.abort = true ∨ stop (σ.workers w)
  have hleads : Runs.Leads (Grevm.step blk) (Only (.worker w))
      (fun σ => (Reachable blk backing σ ∧ P' σ) ∧ stop' σ) σ := by
    refine leads_alone stop' hB hapart (fun σ hhome => .inl hhome) (fun σ _ hP' _ => hP'.1.free) ?_
      h.reach ⟨h, .inr hP⟩
    intro σ s' p' _ hP' hstop hstep
    obtain ⟨hhome, habort, hstop⟩ : _ ∧ _ ∧ _ := by simpa [stop', not_or] using hstop
    refine ⟨hP'.1.step hstep, ?_⟩
    have hPσ := hP'.2.resolve_left (by simp [habort])
    simpa using hkeep σ s' p' hP'.1 habort hPσ hhome hstop hstep
  refine (hleads.mono fun _ _ _ => trivial).imp fun σ' _ hσ' => ?_
  obtain ⟨⟨-, hround, hP'⟩, hstop⟩ := hσ'
  refine ⟨hround, ?_⟩
  rcases hP' with habort | hP'
  · exact .inl habort
  · rcases hstop with hhome | habort | hstop
    · exact .inr ⟨hP', .inl hhome⟩
    · exact .inl habort
    · exact .inr ⟨hP', .inr hstop⟩

/-- The cursors do not go back behind `f` on the way. -/
theorem brings_bounded {b c : Nat} {P : Shared W R B → WorkerPc R B → Prop}
    (stop : WorkerPc R B → Prop) (h : Round blk backing f w σ) (hb : b ≤ f) (hc : c ≤ f)
    (habove : (σ.workers w).Above b) (hindex : b ≤ σ.shared.txDependency.index)
    (hvalidation : c ≤ σ.shared.ctx.validation) (hP : P σ.shared (σ.workers w))
    (hkeep : ∀ σ s' p', Round blk backing f w σ → σ.shared.abort = false →
      P σ.shared (σ.workers w) → (σ.workers w).isHome = false → ¬ stop (σ.workers w) →
      workerStep blk w σ.shared (σ.workers w) 0 = some (s', p') → s'.abort = true ∨ P s' p') :
    Brings blk backing f w (fun σ' => P σ'.shared (σ'.workers w) ∧ (σ'.workers w).Above b ∧
      b ≤ σ'.shared.txDependency.index ∧ c ≤ σ'.shared.ctx.validation ∧
      ((σ'.workers w).isHome = true ∨ stop (σ'.workers w))) σ := by
  let P' (s : Shared W R B) (p : WorkerPc R B) :=
    P s p ∧ p.Above b ∧ b ≤ s.txDependency.index ∧ c ≤ s.ctx.validation
  have hP' : P' σ.shared (σ.workers w) := ⟨hP, habove, hindex, hvalidation⟩
  refine (h.brings_until hB hapart stop hP' ?_).imp fun σ' _ _ hσ' => ?_
  · intro σ s' p' h habort hPσ hhome hstop hstep
    obtain ⟨hP, habove, hindex, hvalidation⟩ := hPσ
    have hs := workerStep_sound hstep
    obtain ⟨habove', hindex'⟩ := hs.above (h.ctx_finality ▸ hb)
      (fun v hv => Nat.le_trans hb (h.owned_ge hv)) (handsOn_of_reach h.reach w)
      ((beyond_of_reach h.reach).2 w) habove hindex
    have hvalidation' := hs.le_validation (fun n pc hn => by
      obtain ⟨v, hv, hle⟩ := owned_of_rewindAt hn
      exact Nat.le_trans hc (Nat.le_trans (h.owned_ge hv) hle)) hvalidation
    exact (hkeep σ s' p' h habort hP hhome hstop hstep).imp id
      fun hP => ⟨hP, habove', hindex', hvalidation'⟩
  · obtain ⟨⟨hP, habove', hindex', hvalidation'⟩, hstop⟩ := hσ'
    exact ⟨hP, habove', hindex', hvalidation', hstop⟩

/-! ### Asking for a task -/

/-- The worker asks for a validation task. It takes the index under the
cursor, or everything up to the index of `TxDependency` has been handed
out. -/
theorem brings_claim (h : Round blk backing f w σ) (hlt : f < blk.size)
    (habort : σ.shared.abort = false) (hhome : (σ.workers w).isHome = true) :
    Brings blk backing f w (fun σ' => ∃ n,
      (σ'.workers w = .dependencyLoad ∧
        σ'.shared = { σ.shared with ctx := { σ.shared.ctx with frontier := n } } ∧
        ∀ g, g ≤ blk.size → (∀ j, j < g → σ.shared.ctx.executed j = true) →
          g ≤ σ.shared.txDependency.index → g ≤ σ.shared.ctx.validation) ∨
      (σ'.workers w = .claimLock σ.shared.ctx.validation ∧
        σ'.shared = { σ.shared with ctx := { σ.shared.ctx with
          frontier := n, validation := σ.shared.ctx.validation + 1 } } ∧
        σ.shared.ctx.validation < σ.shared.txDependency.index)) σ := by
  have hw := h.nextFinished hlt habort hhome
  have hstep₁ : workerStep blk w σ.shared (σ.workers w) 0 = some (σ.shared, .nextAborted) := by
    simp [hw, workerStep, h.ctx_finality, Nat.not_le.mpr hlt]
  refine .of_step h hstep₁ fun σ₁ h₁ hs₁ hw₁ => ?_
  have hstep₂ : workerStep blk w σ₁.shared (σ₁.workers w) 0 = some (σ.shared, .scheduleIndex) := by
    simp [hw₁, hs₁, workerStep, habort]
  refine .of_step h₁ hstep₂ fun σ₂ h₂ hs₂ hw₂ => ?_
  let P (s : Shared W R B) (p : WorkerPc R B) :=
    (∃ n, s = { σ.shared with ctx := { σ.shared.ctx with frontier := n } }) ∧
      p.Choosing blk.size s
  have hP : P σ₂.shared (σ₂.workers w) := ⟨⟨_, hs₂⟩, by rw [hw₂]; trivial⟩
  refine (h₂.brings_until hB hapart (fun p => ∃ limit, p = .claimLoad limit) hP ?_).bind
    fun σ₃ h₃ habort₃ hσ₃ => ?_
  · intro σ' s' p' _ _ hPσ _ hload hstep
    obtain ⟨⟨n, hn⟩, hp⟩ := hPσ
    obtain ⟨⟨n', hn'⟩, hp'⟩ := hp.step (fun limit heq => hload ⟨limit, heq⟩) hstep
    exact .inr ⟨⟨n', by rw [hn', hn]⟩, hp'⟩
  · obtain ⟨⟨⟨n, hn⟩, hp⟩, hstop⟩ := hσ₃
    obtain ⟨limit, hlimit⟩ : ∃ limit, σ₃.workers w = .claimLoad limit := by
      refine hstop.resolve_left fun hhome' => ?_
      rcases WorkerPc.eq_of_isHome hhome' with heq | heq <;> (rw [heq] at hp; cases hp)
    rw [hlimit, hn] at hp
    obtain ⟨hle, hpass⟩ := hp
    by_cases hcursor : limit ≤ σ.shared.ctx.validation
    · have hstep₃ : workerStep blk w σ₃.shared (σ₃.workers w) 0 =
          some (σ₃.shared, .dependencyLoad) := by
        simp [hlimit, workerStep, hn, hcursor]
      refine .of_step h₃ hstep₃ fun σ₄ h₄ hs₄ hw₄ => .here h₄ ⟨n, .inl ⟨hw₄, hs₄.trans hn, ?_⟩⟩
      exact fun g hg hflags hindex => Nat.le_trans (hpass g hg hflags hindex) hcursor
    · have hstep₃ : workerStep blk w σ₃.shared (σ₃.workers w) 0 =
          some (σ₃.shared, .claimCas limit σ.shared.ctx.validation) := by
        simp [hlimit, workerStep, hn, hcursor]
      refine .of_step h₃ hstep₃ fun σ₄ h₄ hs₄ hw₄ => ?_
      have hstep₄ : workerStep blk w σ₄.shared (σ₄.workers w) 0 =
          some ({ σ.shared with ctx := { σ.shared.ctx with
            frontier := n, validation := σ.shared.ctx.validation + 1 } },
            .claimLock σ.shared.ctx.validation) := by
        simp [hw₄, hs₄, workerStep, hn]
      refine .of_step h₄ hstep₄ fun σ₅ h₅ hs₅ hw₅ => .here h₅ ⟨n, .inr ⟨hw₅, hs₅, ?_⟩⟩
      have hlt' : limit ≤ σ.shared.txDependency.index := hle
      omega

omit hB hapart in
/-- A claimed index that is final already is given up. -/
theorem brings_missed {Q : SchedulerState W R B → Prop} {t : Nat} (h : Round blk backing f w σ)
    (ht : t < f) (hw : σ.workers w = .claimLock t)
    (next : ∀ σ', Round blk backing f w σ' → σ'.shared = σ.shared →
      σ'.workers w = .dependencyLoad → Brings blk backing f w Q σ') :
    Brings blk backing f w Q σ := by
  have hfree : (σ.shared.txLocks t).isSome = false :=
    h.free (.tx t) (by simp [hw, WorkerPc.wants])
  refine .of_step h ?_ next
  simp [hw, workerStep, hfree, h.final ht]

omit hB hapart in
/-- The worker fetches the next index, and claims its transaction if it
is onboard and waits for nothing. -/
theorem brings_fetch (h : Round blk backing f w σ) (hw : σ.workers w = .dependencyLoad)
    {d : Nat} (hd : σ.shared.txDependency.index = d) (hlt : d < blk.size) :
    Brings blk backing f w (fun σ' =>
      (σ'.workers w = .nextFinished ∧
        σ'.shared = { σ.shared with txDependency := { σ.shared.txDependency with
          index := d + 1 } } ∧
        ¬ ((σ.shared.txDependency.dependentState d).onboard = true ∧
          (σ.shared.txDependency.dependentState d).dependency = none)) ∨
      (σ'.workers w = .executionTask d true ∧
        σ'.shared = { σ.shared with
          txDependency := { σ.shared.txDependency with index := d + 1 }.setDependent d
            { σ.shared.txDependency.dependentState d with onboard := false } })) σ := by
  subst hd
  let fetched : Shared W R B := { σ.shared with txDependency := { σ.shared.txDependency with
    index := σ.shared.txDependency.index + 1 } }
  have hstep₁ : workerStep blk w σ.shared (σ.workers w) 0 =
      some (σ.shared, .dependencyFetch) := by
    simp [hw, workerStep, Nat.not_le.mpr hlt]
  refine .of_step h hstep₁ fun σ₁ h₁ hs₁ hw₁ => ?_
  have hstep₂ : workerStep blk w σ₁.shared (σ₁.workers w) 0 =
      some (fetched, .dependencyLock σ.shared.txDependency.index) := by
    simp [hw₁, hs₁, workerStep, Nat.not_le.mpr hlt, fetched]
  refine .of_step h₁ hstep₂ fun σ₂ h₂ hs₂ hw₂ => ?_
  have hfree : σ.shared.txDependency.dependentLocked σ.shared.txDependency.index = false := by
    have hheld := h₂.free (.dependent σ.shared.txDependency.index) (by simp [hw₂, WorkerPc.wants])
    simpa [Shared.isHeld, hs₂, fetched] using hheld
  by_cases hready : (σ.shared.txDependency.dependentState σ.shared.txDependency.index).onboard
        = true ∧
      (σ.shared.txDependency.dependentState σ.shared.txDependency.index).dependency = none
  · refine .of_step h₂ ?_ fun σ₃ h₃ hs₃ hw₃ => .here h₃ (.inr ⟨hw₃, hs₃⟩)
    simp [hw₂, workerStep, TxDependency.claim, hfree, hs₂, fetched, hready]
  · refine .of_step h₂ ?_ fun σ₃ h₃ hs₃ hw₃ => .here h₃ (.inl ⟨hw₃, hs₃, hready⟩)
    simp [hw₂, workerStep, TxDependency.claim, hfree, hs₂, fetched, hready]

/-- The transaction at the index has run: the worker passes it, and
releases what waits for it. -/
theorem brings_useless (h : Round blk backing f w σ) (hw : σ.workers w = .dependencyLoad)
    {d : Nat} (hd : σ.shared.txDependency.index = d) (hlt : d < blk.size)
    (hrun : ¬ (σ.shared.txStates d).status.mustRun)
    (hidle : (σ.shared.txStates d).status ≠ .executing) :
    Brings blk backing f w (fun σ' => σ'.workers w = .nextFinished ∧
      ∃ dep : TxDependency, σ'.shared = { σ.shared with txDependency := dep } ∧ d < dep.index)
      σ := by
  refine (h.brings_fetch hw hd hlt).bind fun σ₁ h₁ _ hσ₁ => ?_
  rcases hσ₁ with ⟨hw₁, hs₁, -⟩ | ⟨hw₁, hs₁⟩
  · exact .here h₁ ⟨hw₁, _, hs₁, Nat.lt_succ_self d⟩
  · have hfree : (σ₁.shared.txLocks d).isSome = false :=
      h₁.free (.tx d) (by simp [hw₁, WorkerPc.wants])
    have hstate : (σ₁.shared.txStates d).status = (σ.shared.txStates d).status := by rw [hs₁]
    have hstep₁ : workerStep blk w σ₁.shared (σ₁.workers w) 0 =
        some (σ₁.shared, .useless d true .start) := by
      obtain ⟨hinitial, hconflict⟩ := not_or.mp hrun
      simp only [hw₁, workerStep, hfree, hstate]
      cases hstatus : (σ.shared.txStates d).status <;> simp_all
    refine .of_step h₁ hstep₁ fun σ₂ h₂ hs₂ hw₂ => ?_
    let P (s : Shared W R B) (p : WorkerPc R B) :=
      (∃ dep : TxDependency, s = { σ.shared with txDependency := dep }) ∧
        d < s.txDependency.index ∧ ((∃ pc, p = .useless d true pc) ∨ p = .nextFinished)
    have hP : P σ₂.shared (σ₂.workers w) := by
      refine ⟨⟨_, hs₂.trans hs₁⟩, ?_, .inl ⟨_, hw₂⟩⟩
      rw [hs₂, hs₁]
      exact Nat.lt_succ_self d
    refine (h₂.brings_until hB hapart (fun _ => False) hP ?_).imp fun σ' _ _ hσ' => ?_
    · intro σ' s' p' h' _ hPσ hhome _ hstep
      obtain ⟨⟨dep, hdep⟩, hindex, ⟨pc, hpc⟩ | hpc⟩ := hPσ
      swap
      · simp [hpc, WorkerPc.isHome] at hhome
      have hbeyond := (beyond_of_reach h'.reach).2 w
      rw [hpc] at hbeyond hstep
      simp only [workerStep] at hstep
      split at hstep <;> cases hstep <;> rename_i hremove
      · exact .inr ⟨⟨_, by rw [hdep]⟩, (removeStep_sound hremove).le_index hbeyond
          (Nat.le_refl _) hindex, .inl ⟨_, rfl⟩⟩
      · exact .inr ⟨⟨_, by rw [hdep]⟩, (removeStep_sound hremove).le_index hbeyond
          (Nat.le_refl _) hindex, .inr rfl⟩
    · obtain ⟨⟨⟨dep, hdep⟩, hindex, hpc⟩, hstop⟩ := hσ'
      have hhome := hstop.resolve_right id
      rcases hpc with ⟨pc, hpc⟩ | hpc
      · simp [hpc, WorkerPc.isHome] at hhome
      · rw [hdep] at hindex
        exact ⟨hpc, dep, hdep, hindex⟩

/-! ### Both cursors come to `f` -/

omit hB hapart in
theorem flagged (h : Round blk backing f w σ) (hidle : (σ.workers w).isIdle = true) {t : Nat}
    (hrun : (σ.shared.txStates t).status.hasRun) : σ.shared.ctx.executed t = true := by
  refine ((flags_of_reach h.reach).flagged t hrun).resolve_right fun hflagging => ?_
  obtain ⟨w', hw'⟩ := hflagging
  exact not_flagging_of_isIdle (h.idle hidle w') hw'

theorem brings_index (h : Round blk backing f w σ) (hlt : f < blk.size)
    (hhome : (σ.workers w).isHome = true) :
    Brings blk backing f w (fun σ' => (σ'.workers w).isHome = true ∧
      f ≤ σ'.shared.txDependency.index) σ := by
  refine .of_variant (fun σ => f - σ.shared.txDependency.index) (fun σ h habort hhome hindex => ?_)
    h hhome
  have hindex := Nat.lt_of_not_le hindex
  -- what is claimed for validation lies before the index, so it is final
  have hload : Brings blk backing f w (fun σ' => σ'.workers w = .dependencyLoad ∧
      σ'.shared.txDependency = σ.shared.txDependency) σ := by
    refine (h.brings_claim hB hapart hlt habort hhome).bind fun σ₁ h₁ _ hσ₁ => ?_
    obtain ⟨n, ⟨hw₁, hs₁, -⟩ | ⟨hw₁, hs₁, hclaim⟩⟩ := hσ₁
    · exact .here h₁ ⟨hw₁, by rw [hs₁]⟩
    · refine h₁.brings_missed (by omega) hw₁ fun σ₂ h₂ hs₂ hw₂ => .here h₂ ⟨hw₂, ?_⟩
      rw [hs₂, hs₁]
  refine hload.bind fun σ₁ h₁ _ hσ₁ => ?_
  obtain ⟨hw₁, hdep₁⟩ := hσ₁
  have hfinal := h₁.final hindex
  refine (h₁.brings_useless hB hapart hw₁ (congrArg _ hdep₁) (by omega)
    (by simp [hfinal, TransactionStatus.mustRun]) (by simp [hfinal])).imp fun σ₂ _ _ hσ₂ => ?_
  obtain ⟨hw₂, dep, hs₂, hraised⟩ := hσ₂
  refine ⟨by rw [hw₂]; rfl, .inr ?_⟩
  rw [hs₂]
  show f - dep.index < f - σ.shared.txDependency.index
  omega

/-- **Both cursors come to the first transaction that is not final.** -/
theorem brings_cursors (h : Round blk backing f w σ) (hlt : f < blk.size)
    (hhome : (σ.workers w).isHome = true) :
    Brings blk backing f w (fun σ' => ((σ'.workers w).isHome = true ∧
      f ≤ σ'.shared.txDependency.index) ∧ f ≤ σ'.shared.ctx.validation) σ := by
  refine (h.brings_index hB hapart hlt hhome).bind fun σ₀ h₀ _ hσ₀ => ?_
  refine .of_variant (fun σ => f - σ.shared.ctx.validation) (fun σ h habort hσ hvalidation => ?_)
    h₀ hσ₀
  obtain ⟨hhome, hindex⟩ := hσ
  have hvalidation := Nat.lt_of_not_le hvalidation
  refine (h.brings_claim hB hapart hlt habort hhome).bind fun σ₁ h₁ _ hσ₁ => ?_
  obtain ⟨n, ⟨hw₁, hs₁, hpass⟩ | ⟨hw₁, hs₁, -⟩⟩ := hσ₁
  · -- everything before `f` is flagged, so there is something to claim
    have hflags : ∀ j, j < f → σ.shared.ctx.executed j = true := fun j hj =>
      h.flagged (WorkerPc.isIdle_of_isHome hhome) (by simp [h.final hj, TransactionStatus.hasRun])
    exact absurd (hpass f (Nat.le_of_lt hlt) hflags hindex) (Nat.not_le.mpr hvalidation)
  · refine h₁.brings_missed hvalidation hw₁ fun σ₂ h₂ hs₂ hw₂ => ?_
    have hs₂ := hs₂.trans hs₁
    have hP : (fun _ _ => True : Shared W R B → WorkerPc R B → Prop) σ₂.shared (σ₂.workers w) :=
      trivial
    refine (h₂.brings_bounded hB hapart (fun _ => False) (Nat.le_refl f)
      (Nat.succ_le_of_lt hvalidation) (by rw [hw₂]; trivial) (by rw [hs₂]; exact hindex)
      (by rw [hs₂]) hP fun _ _ _ _ _ _ _ _ _ => .inr trivial).imp fun σ₃ _ _ hσ₃ => ?_
    obtain ⟨-, -, hindex₃, hvalidation₃, hhome₃⟩ := hσ₃
    exact ⟨⟨hhome₃.resolve_right id, hindex₃⟩, .inr (by omega)⟩

end Round

end Grevm
