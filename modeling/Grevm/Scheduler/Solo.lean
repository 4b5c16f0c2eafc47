/-
Grevm.Scheduler.Solo — a worker that runs alone.

`run_worker` and everything it calls makes finitely many accesses between
two visits of `next`: loops run over finite sets, the program of a
transaction is a well-founded tree, and a successor that is handed over
has a larger index. `WorkerPc.rank` is the measure; `workerStep_rank` says
that it decreases with every access, provided that a call to the backing
state returns (`Responsive`). So a worker that nobody keeps from its locks
comes back to `next` (`leads_alone`).
-/
import Grevm.Leads
import Grevm.Scheduler.Enabled
import Grevm.Scheduler.ExecutionFrontier
import Grevm.Scheduler.HeadErrors
import Mathlib.SetTheory.Ordinal.Family

namespace Grevm

variable {Err W R : Type} {B : Backing Err}

/-! ## The successor that is handed over -/

/-- `execute_task` hands over nothing but the next transaction. -/
def WorkerPc.HandsOn : WorkerPc R B → Prop
  | .exec v (.settling _ next) => ∀ n, next = some n → n = v.txid + 1
  | .exec v (.frontier tail _) | .exec v (.rewinding tail _) =>
    ∀ n, tail = .handOff n → n = v.txid + 1
  | _ => True

section

variable {blk : Block Err R} {s s' : Shared W R B} {v : TxVersion} {p p' : WorkerPc R B} {w : W}

theorem handsOn_of_isIdle (h : p.isIdle = true) : p.HandsOn := by
  cases p <;> trivial

theorem handsOn_enterExec {db : IncarnationDb} {t : Nat} {prog : Prog Err R} :
    (WorkerPc.exec v (enterExec blk s t db prog) : WorkerPc R B).HandsOn := by
  cases prog with
  | read call k => trivial
  | done result => cases result <;> trivial

theorem handsOn_finishExec {tail : ExecTail} : (finishExec s v tail).2.HandsOn := by
  cases tail <;> trivial

/-- `remove` returns what it has taken. -/
theorem RemoveStep.next_of_returned {dep dep' : TxDependency} {d : Nat} {popNext : Bool}
    {pc : RemovePc} {next : Option Nat} (h : RemoveStep dep d popNext pc dep' (.inr next)) :
    next = none ∨ next = pc.next := by
  cases h with
  | empty => exact .inl rfl
  | finish => exact .inr rfl

theorem ExecStep.handsOn {pc : ExecPc R B} (h : ExecStep blk s v pc s' p')
    (hnext : NextOk (.exec v pc : WorkerPc R B)) (hpc : (WorkerPc.exec v pc).HandsOn) :
    p'.HandsOn := by
  cases h
  case answer => exact handsOn_enterExec
  case addBlocker | errSettle => intro n hn; cases hn
  case released hr =>
    intro n hn
    subst hn
    rcases (removeStep_sound hr).next_of_returned with h | h
    · cases h
    · rcases hnext with hnone | hsome
      · rw [hnone] at h
        cases h
      · rw [hsome] at h
        exact Option.some.inj h
  case settle e next =>
    intro n hn
    cases next with
    | some next =>
      cases hn
      exact hpc n rfl
    | none =>
      dsimp only at hn
      split at hn
      · cases hn
      · split at hn <;> cases hn
  case errRecord => split <;> trivial
  case frontier | frontierRewind | rewind => exact hpc
  case frontierFinish | rewindFinish => exact handsOn_finishExec
  all_goals trivial

theorem WorkerStep.handsOn (h : WorkerStep blk w s p s' p') (hnext : NextOk p)
    (hp : p.HandsOn) : p'.HandsOn := by
  cases h
  case idle hp' _ | frontier hp' _ => exact handsOn_of_isIdle hp'
  case busy fromNext _ _ | uselessRemoved fromNext _ _ _ _ _ => cases fromNext <;> trivial
  case execute => exact handsOn_enterExec
  case exec h => exact h.handsOn hnext hp
  case val h => cases h <;> trivial
  all_goals trivial

theorem handsOn_of_reach [DecidableEq W] {backing : B.State} {σ : SchedulerState W R B}
    {ok : SchedulerState W R B → Action W → Prop} (h : ReachableWhen blk backing ok σ) (w : W) :
    (σ.workers w).HandsOn := by
  refine Runs.Reach.invariant (I := fun σ : SchedulerState W R B => ∀ w, (σ.workers w).HandsOn) h
    (fun _ => trivial) (fun σ a σ' hr ih _ hs => ?_) w
  rcases step_cases hs with ⟨w, shared, pc, hw, rfl⟩ | ⟨shared, finality, hf, rfl⟩ |
    ⟨shared, commit, hc, rfl⟩
  · intro w'
    by_cases heq : w' = w
    · subst heq
      simpa using hw.handsOn ((queue_of_reach hr).next w') (ih w')
    · simpa [Function.update_of_ne heq] using ih w'
  · exact ih
  · exact ih

end

/-! ## Measures of single calls -/

/-- A bound on the accesses that a call to the backing state has still to
make. -/
structure Responsive (B : Backing Err) where
  basic : B.BasicPc → Nat
  code : B.CodePc → Nat
  storage : B.StoragePc → Nat
  commit : B.CommitPc → Nat
  basic_lt : ∀ s pc s' pc', B.basicStep s pc = (s', .inl pc') → basic pc' < basic pc
  code_lt : ∀ s pc s' pc', B.codeStep s pc = (s', .inl pc') → code pc' < code pc
  storage_lt : ∀ s pc s' pc', B.storageStep s pc = (s', .inl pc') → storage pc' < storage pc
  commit_lt : ∀ s pc c s' pc', B.commitStep s pc c = some (s', some pc') → commit pc' < commit pc

/-- The height of the tree of answers. -/
noncomputable def Prog.height : Prog Err R → Ordinal.{0}
  | .read _ continuation => ⨆ answer, (continuation answer).height + 1
  | .done _ => 0

/-- The stage of a state read. -/
def CallPc.stage : CallPc B → Nat
  | .basicScan _ _ => 5
  | .basicMv _ => 4
  | .basicBacking _ _ | .storageReset _ _ => 3
  | .codeMv _ _ | .storageSlot _ _ _ => 2
  | .codeBacking _ _ _ | .storageBacking _ _ _ => 1

def CallPc.accesses (hB : Responsive B) : CallPc B → Nat
  | .basicScan _ scan => scan.writer
  | .basicBacking _ pc => hB.basic pc
  | .codeBacking _ _ pc => hB.code pc
  | .storageBacking _ _ pc => hB.storage pc
  | _ => 0

def AddPc.left : AddPc → Nat
  | .start => 2
  | .depState => 1
  | .state => 0

def RemovePc.stage : RemovePc → Nat
  | .start => 1
  | _ => 0

def RemovePc.left : RemovePc → Nat
  | .start => 0
  | .each remaining _ => 2 * remaining.length
  | .rewind _ remaining _ => 2 * remaining.length + 1

def AbortPc.left : AbortPc → Nat
  | .reason => 3
  | .flag => 2
  | .wakeFinality => 1
  | .wakeCommit => 0

def RewindPc.left : RewindPc → Nat
  | .clock => 2
  | .lower _ => 1
  | .cursor _ => 0

def Publishing.left (p : Publishing) : Nat := p.first.length + p.slots.length

section

variable {hB : Responsive B}

theorem length_of_pick? {α : Type} {l rest : List α} {c : Nat} {x : α}
    (h : pick? l c = some (x, rest)) : l.length = rest.length + 1 := by
  rw [← (perm_of_pick? h).length_eq, List.length_cons]

theorem finishBasic_stage {address : Address} {result : Option AccountInfo} {pc : CallPc B}
    (h : finishBasic address result = (.inl pc : CallPc B ⊕ Except Err Value)) : pc.stage = 2 := by
  unfold finishBasic at h
  split at h
  · split at h <;> cases h
    rfl
  · cases h

/-- Every access of a state read comes closer to its answer. -/
theorem callStep_accesses {anchor : Option AccountInfo} {txid : Nat} {mv : MVMemory}
    {history : Nat → EntryState} {backing backing' : B.State} {db db' : IncarnationDb}
    {pc pc' : CallPc B}
    (h : callStep anchor txid mv history backing db pc = (backing', db', .inl pc')) :
    pc'.stage < pc.stage ∨ pc'.stage = pc.stage ∧ pc'.accesses hB < pc.accesses hB := by
  cases callStep_sound h with
  | visit hstep =>
    have := ScanState.writer_of_more hstep
    exact .inr ⟨rfl, by simp only [CallPc.accesses]; omega⟩
  | resolve _ hnext | basicHit _ _ hnext | basicLoads _ hnext =>
    exact .inl (lt_of_eq_of_lt (finishBasic_stage hnext) (by simp [CallPc.stage]))
  | basicMore hstep => exact .inr ⟨rfl, hB.basic_lt _ _ _ _ hstep⟩
  | codeMore hstep => exact .inr ⟨rfl, hB.code_lt _ _ _ _ hstep⟩
  | storageMore hstep => exact .inr ⟨rfl, hB.storage_lt _ _ _ _ hstep⟩
  | basicMiss | codeMiss | reset | slotMiss => exact .inl (by simp [CallPc.stage])

theorem AddStep.left {dep dep' : TxDependency} {t : Nat} {blocker : Option Nat} {pc pc' : AddPc}
    (h : AddStep dep t blocker pc dep' (some pc')) : pc'.left < pc.left := by
  cases h <;> decide

theorem RemoveStep.left {dep dep' : TxDependency} {d : Nat} {popNext : Bool} {pc pc' : RemovePc}
    (h : RemoveStep dep d popNext pc dep' (.inl pc')) :
    pc'.stage < pc.stage ∨ pc'.stage = pc.stage ∧ pc'.left < pc.left := by
  cases h with
  | start => exact .inl Nat.zero_lt_one
  | rewind => exact .inr ⟨rfl, Nat.lt_succ_self _⟩
  | pop hp | clear hp | clearOff hp | skip hp =>
    have := length_of_pick? hp
    exact .inr ⟨rfl, by simp only [RemovePc.left]; omega⟩

theorem Publishing.left_of_next {beneficiary : Address}
    {snapshots : AList (fun _ : Address => AccountBasic)} {p p' : Publishing} {c : Nat}
    {write : Option Write} (h : p.next beneficiary snapshots c = some (write, p')) :
    p'.accounts.length < p.accounts.length ∨
      p'.accounts.length = p.accounts.length ∧ p'.left < p.left := by
  unfold Publishing.next at h
  split at h
  · rename_i first hfirst
    cases h
    exact .inr ⟨rfl, by simp [Publishing.left, hfirst]⟩
  · rename_i hfirst
    split at h
    · obtain ⟨⟨⟨address, account⟩, accounts⟩, hpick, heq⟩ := Option.map_eq_some_iff.mp h
      cases heq
      have := length_of_pick? hpick
      exact .inl (by simp only; omega)
    · obtain ⟨⟨write, slots⟩, hpick, heq⟩ := Option.map_eq_some_iff.mp h
      cases heq
      have := length_of_pick? hpick
      exact .inr ⟨rfl, by simp only [Publishing.left, hfirst]; omega⟩

theorem Shared.abortStep_left {s s' : Shared W R B} {reason : AbortReason Err} {pc pc' : AbortPc}
    (h : s.abortStep reason pc = (s', some pc')) : pc'.left < pc.left := by
  cases pc <;> cases h <;> decide

theorem rewindStep_left {ctx ctx' : SchedulerContext} {index : Nat} {pc pc' : RewindPc}
    (h : rewindStep ctx index pc = (ctx', some pc')) : pc'.left < pc.left := by
  cases pc <;> cases h <;> simp [RewindPc.left]

end

/-! ## The measure of a worker -/

/-- Five nested counters. -/
abbrev Rank := ℕ ×ₗ ℕ ×ₗ Ordinal.{0} ×ₗ ℕ ×ₗ ℕ

namespace Rank

/-- The counters from the outermost on. -/
def mk (level stage : Nat) (height : Ordinal.{0}) (outer inner : Nat) : Rank :=
  toLex (level, toLex (stage, toLex (height, toLex (outer, inner))))

variable {level level' stage stage' outer outer' inner inner' : Nat} {height height' : Ordinal.{0}}

theorem lt_of_level (h : level < level') :
    mk level stage height outer inner < mk level' stage' height' outer' inner' := by
  simp [mk, Prod.Lex.toLex_lt_toLex, h]

theorem lt_of_stage (h : stage < stage') :
    mk level stage height outer inner < mk level stage' height' outer' inner' := by
  simp [mk, Prod.Lex.toLex_lt_toLex, h]

theorem lt_of_height (h : height < height') :
    mk level stage height outer inner < mk level stage height' outer' inner' := by
  simp [mk, Prod.Lex.toLex_lt_toLex, h]

theorem lt_of_count (h : outer < outer' ∨ outer = outer' ∧ inner < inner') :
    mk level stage height outer inner < mk level stage height outer' inner' := by
  simp [mk, Prod.Lex.toLex_lt_toLex, h]

end Rank

noncomputable section

/-- The stages of `execute_task`. -/
def ExecPc.rank (hB : Responsive B) (numTxs level : Nat) : ExecPc R B → Rank
  | .running _ continuation pc =>
    .mk level 20 (⨆ answer, (continuation answer).height + 1) pc.stage (pc.accesses hB)
  | .publishing _ _ p => .mk level 19 0 p.accounts.length p.left
  | .errMarking _ _ remaining => .mk level 19 0 remaining.length 0
  | .removing _ remaining => .mk level 18 0 remaining.length 0
  | .errRecording _ _ => .mk level 18 0 0 0
  | .recording _ | .errBlockerLoad _ | .errHead _ => .mk level 17 0 0 0
  | .blockerLoad _ => .mk level 16 0 0 0
  | .errAdding _ pc => .mk level 16 0 pc.left 0
  | .errAbort _ pc => .mk level 16 0 pc.left 0
  | .adding _ _ pc => .mk level 15 0 pc.left 0
  | .keying => .mk level 15 0 0 0
  | .releasing _ pc => .mk level 14 0 pc.stage pc.left
  | .keyingRewind => .mk level 14 0 0 0
  | .settling _ _ | .errSettling => .mk level 13 0 0 0
  | .frontier _ pc => .mk level 12 0 (pc.budget numTxs) 0
  | .rewinding _ pc => .mk level 11 0 pc.left 0
  | .parallelError _ pc => .mk level 10 0 pc.left 0

/-- The stages of `validate`. -/
def ValPc.rank (level : Nat) : ValPc → Rank
  | .scanning _ remaining _ _ => .mk level 19 0 remaining.length 0
  | .scanningHistory _ remaining _ _ _ scan => .mk level 19 0 remaining.length (scan.writer + 1)
  | .marking _ remaining => .mk level 18 0 remaining.length 0
  | .unconfirming _ _ => .mk level 18 0 0 0
  | .invalidating _ => .mk level 17 0 0 0
  | .rewinding _ pc => .mk level 16 0 pc.left 0
  | .blockerLoad _ => .mk level 15 0 0 0
  | .adding _ pc => .mk level 14 0 pc.left 0
  | .parallelError _ pc => .mk level 13 0 pc.left 0

/-- The stages of `run_worker`, from one visit of `next` to the following
one. A later transaction is on a lower level: the successor that
`execute_task` hands over comes after it. -/
def WorkerPc.rank (hB : Responsive B) (numTxs : Nat) (s : Shared W R B) : WorkerPc R B → Rank
  | .nextFinished | .finished => .mk 0 0 0 0 0
  | .afterTask => .mk 1 0 0 0 0
  | .wake => .mk 2 0 0 0 0
  | .wakeLoad _ => .mk 3 0 0 0 0
  | .val _ pc => pc.rank 4
  | .task (.validation _) => .mk 5 0 0 0 0
  | .useless t _ pc => .mk (6 + (numTxs - t)) 5 0 pc.stage pc.left
  | .exec v pc => pc.rank hB numTxs (6 + (numTxs - v.txid))
  | .task (.execution v) => .mk (6 + (numTxs - v.txid)) 21 0 0 0
  | .executionTask t _ => .mk (6 + (numTxs - t)) 22 0 0 0
  | .dependencyLock _ => .mk (7 + numTxs) 0 0 0 0
  | .dependencyFetch => .mk (8 + numTxs) 0 0 0 0
  | .dependencyLoad => .mk (9 + numTxs) 0 0 0 0
  | .claimLock _ => .mk (10 + numTxs) 0 0 0 0
  | .claimCas _ current =>
    -- a stale read costs another turn of the loop of `claim_before`
    .mk ((if s.ctx.validation = current then 11 else 13) + numTxs) 0 0 0 0
  | .claimLoad _ => .mk (12 + numTxs) 0 0 0 0
  | .claimFrontier _ pc => .mk (14 + numTxs) 0 0 (pc.budget numTxs) 0
  | .claimIndex => .mk (15 + numTxs) 0 0 0 0
  | .scheduleFrontier pc => .mk (16 + numTxs) 0 0 (pc.budget numTxs) 0
  | .scheduleValidation _ => .mk (17 + numTxs) 0 0 0 0
  | .scheduleIndex => .mk (18 + numTxs) 0 0 0 0
  | .nextAborted => .mk (19 + numTxs) 0 0 0 0

end

section

variable {hB : Responsive B} {blk : Block Err R} {s s' : Shared W R B} {v : TxVersion}
  {p p' : WorkerPc R B} {w : W} {level : Nat}

theorem rank_enterExec {t : Nat} {db : IncarnationDb} {k : Except Err Value → Prog Err R}
    (a : Except Err Value) {outer inner : Nat} :
    (enterExec blk s t db (k a) : ExecPc R B).rank hB blk.size level <
      .mk level 20 (⨆ answer, (k answer).height + 1) outer inner := by
  have hheight := Ordinal.lt_iSup_add_one (fun answer => (k answer).height) a
  cases hk : k a with
  | read call k' =>
    rw [hk] at hheight
    exact Rank.lt_of_height hheight
  | done result => cases result <;> exact Rank.lt_of_stage (by decide)

/-- The level of what follows `execute_task`. -/
theorem rank_finishExec {tail : ExecTail} {stage outer inner : Nat} {height : Ordinal.{0}}
    (hv : v.txid < blk.size) (htail : ∀ n, tail = .handOff n → n = v.txid + 1) :
    (finishExec s v tail).2.rank hB blk.size s' <
      .mk (6 + (blk.size - v.txid)) stage height outer inner := by
  cases tail with
  | handOff n =>
    have hn := htail n rfl
    exact Rank.lt_of_level (by omega)
  | conflict | rewind | revalidate => exact Rank.lt_of_level (by omega)

theorem ExecStep.rank_lt {pc : ExecPc R B} (h : ExecStep blk s v pc s' p') (hv : v.txid < blk.size)
    (hpc : (WorkerPc.exec v pc).HandsOn) :
    p'.rank hB blk.size s' < pc.rank hB blk.size (6 + (blk.size - v.txid)) := by
  cases h
  case read h => exact Rank.lt_of_count (callStep_accesses h)
  case answer => exact rank_enterExec _
  case publish h | chooseAccount h => exact Rank.lt_of_count (Publishing.left_of_next h)
  case unpublish h | errMark h =>
    have := length_of_pick? h
    exact Rank.lt_of_count (.inl (by omega))
  case errRecord => split <;> exact Rank.lt_of_stage (by decide)
  case addLock h | errAddLock h => exact Rank.lt_of_count (.inl (addStep_sound h).left)
  case release h => exact Rank.lt_of_count (removeStep_sound h).left
  case errAbort h | parallelError h => exact Rank.lt_of_count (.inl (Shared.abortStep_left h))
  case frontier h =>
    have := SchedulerContext.budget_of_frontierStep h
    exact Rank.lt_of_count (.inl (by omega))
  case rewind h => exact Rank.lt_of_count (.inl (rewindStep_left h))
  case frontierFinish | rewindFinish => exact rank_finishExec hv hpc
  case parallelErrorEnd => exact Rank.lt_of_level (by omega)
  all_goals exact Rank.lt_of_stage (by decide)

theorem ValStep.rank_lt {pc : ValPc} (h : ValStep blk s v pc s' p') :
    p'.rank hB blk.size s' < pc.rank 4 := by
  cases h
  case scanned => split <;> exact Rank.lt_of_stage (by decide)
  case scanHistory h | scan h _ | mark h =>
    have := length_of_pick? h
    exact Rank.lt_of_count (.inl (by omega))
  case walk h =>
    have := ScanState.writer_of_more h
    exact Rank.lt_of_count (.inr ⟨rfl, by omega⟩)
  case walked | walkBlocked => exact Rank.lt_of_count (.inr ⟨rfl, Nat.succ_pos _⟩)
  case rewind h => exact Rank.lt_of_count (.inl (rewindStep_left h))
  case parallelError h => exact Rank.lt_of_count (.inl (Shared.abortStep_left h))
  case addLock h => exact Rank.lt_of_count (.inl (addStep_sound h).left)
  case addBlocker | unconfirm | parallelErrorEnd => exact Rank.lt_of_level (by decide)
  all_goals exact Rank.lt_of_stage (by decide)

theorem rank_start {db : IncarnationDb} {t : Nat} {prog : Prog Err R} :
    (enterExec blk s t db prog : ExecPc R B).rank hB blk.size level < .mk level 21 0 0 0 := by
  cases prog with
  | read call k => exact Rank.lt_of_stage (by decide)
  | done result => cases result <;> exact Rank.lt_of_stage (by decide)

theorem rank_noTask {fromNext : Bool} {n stage outer inner : Nat} {height : Ordinal.{0}} :
    (noTask fromNext : WorkerPc R B).rank hB blk.size s' <
      .mk (6 + n) stage height outer inner := by
  cases fromNext <;> exact Rank.lt_of_level (by omega)

/-- **Every access of a worker comes closer to its next visit of `next`.** -/
theorem workerStep_rank (h : workerStep blk w s p 0 = some (s', p')) (hwithin : p.Within blk.size)
    (hon : p.HandsOn) (hp : p ≠ .nextFinished) :
    p'.rank hB blk.size s' < p.rank hB blk.size s := by
  cases p with
  | nextFinished => exact absurd rfl hp
  | nextAborted | scheduleValidation executingIdx | dependencyLoad | dependencyFetch =>
    simp only [workerStep] at h
    split at h <;> cases h <;> exact Rank.lt_of_level (by omega)
  | scheduleIndex | claimIndex =>
    cases h
    exact Rank.lt_of_level (by omega)
  | scheduleFrontier pc | claimFrontier executingIdx pc =>
    simp only [workerStep] at h
    split at h <;> cases h
    · rename_i hstep
      have := SchedulerContext.budget_of_frontierStep hstep
      exact Rank.lt_of_count (.inl (by omega))
    · exact Rank.lt_of_level (by omega)
  | claimLoad limit =>
    simp only [workerStep] at h
    split at h <;> cases h
    · exact Rank.lt_of_level (by omega)
    · simp only [WorkerPc.rank, if_true]
      exact Rank.lt_of_level (by omega)
  | claimCas limit current =>
    simp only [workerStep, and_true] at h
    simp only [WorkerPc.rank]
    split at h <;> cases h
    · rename_i hfresh
      rw [if_pos hfresh]
      exact Rank.lt_of_level (by omega)
    · rename_i hstale
      rw [if_neg hstale]
      exact Rank.lt_of_level (by omega)
  | claimLock t =>
    simp only [workerStep] at h
    split at h
    · cases h
    · split at h <;> cases h <;> exact Rank.lt_of_level (by omega)
  | dependencyLock t =>
    simp only [workerStep] at h
    split at h
    · rename_i claimed _
      cases claimed <;> cases h <;> exact Rank.lt_of_level (by omega)
    · cases h
  | executionTask t fromNext =>
    simp only [workerStep] at h
    split at h
    · cases h
    · split at h <;> cases h
      · exact Rank.lt_of_stage (by decide)
      · exact Rank.lt_of_stage (by decide)
      · exact rank_noTask
      · exact Rank.lt_of_stage (by decide)
  | useless t fromNext pc =>
    simp only [workerStep] at h
    split at h <;> cases h
    · rename_i hremove
      exact Rank.lt_of_count (removeStep_sound hremove).left
    · exact rank_noTask
  | task task =>
    cases task with
    | execution v =>
      have hs : WorkerStep blk w s (.task (.execution v)) s' p' := startExecution_sound h
      cases hs with
      | execute => exact rank_start
      | executeGone => exact Rank.lt_of_level (by omega)
      | executeInconsistent => exact Rank.lt_of_stage (by decide)
      | idle hp _ _ | frontier _ hp _ _ => cases hp
    | validation v =>
      have hs : WorkerStep blk w s (.task (.validation v)) s' p' := startValidation_sound h
      cases hs with
      | validate | validateGone | validateInconsistent => exact Rank.lt_of_level (by decide)
      | idle hp _ _ | frontier _ hp _ _ => cases hp
  | exec v pc => exact (execStep_sound h).rank_lt hwithin.1 hon
  | val v pc => exact (valStep_sound h).rank_lt
  | wakeLoad t | afterTask =>
    simp only [workerStep] at h
    split at h <;> cases h <;> exact Rank.lt_of_level (by decide)
  | wake =>
    cases h
    exact Rank.lt_of_level (by decide)
  | finished => cases h

end

/-! ## Runs of one thread -/

/-- Only the thread `th` moves. -/
def Only (th : Thread W) (_ : SchedulerState W R B) (a : Action W) : Prop := a.thread = th

/-- Worker `w` has run alone. -/
structure SameBut (w : W) (σ σ' : SchedulerState W R B) : Prop where
  workers : ∀ w', w' ≠ w → σ'.workers w' = σ.workers w'
  finality : σ'.finality = σ.finality
  commit : σ'.commit = σ.commit

theorem SameBut.refl (w : W) (σ : SchedulerState W R B) : SameBut w σ σ :=
  ⟨fun _ _ => rfl, rfl, rfl⟩

/-- The worker is about to ask for a task, or has returned. -/
def WorkerPc.isHome : WorkerPc R B → Bool
  | .nextFinished | .finished => true
  | _ => false

theorem WorkerPc.eq_of_isHome {p : WorkerPc R B} (h : p.isHome = true) :
    p = .nextFinished ∨ p = .finished := by
  cases p <;> first | exact .inl rfl | exact .inr rfl | cases h

theorem WorkerPc.isIdle_of_isHome {p : WorkerPc R B} (h : p.isHome = true) : p.isIdle = true := by
  rcases WorkerPc.eq_of_isHome h with rfl | rfl <;> rfl

theorem WorkerPc.not_holds_of_isHome {p : WorkerPc R B} (h : p.isHome = true) (l : Lock) :
    ¬ p.Holds l := by
  rcases WorkerPc.eq_of_isHome h with rfl | rfl <;>
    cases l <;>
    simp [WorkerPc.Holds, WorkerPc.locked, WorkerPc.tokens, Tokens.Dependent, Tokens.Edges]

section

variable [DecidableEq W] {blk : Block Err R} {backing : B.State} {σ σ' : SchedulerState W R B}
  {w : W}

theorem SameBut.worker {s' : Shared W R B} {p' : WorkerPc R B} (h : SameBut w σ σ') :
    SameBut w σ { σ' with shared := s', workers := Function.update σ'.workers w p' } where
  workers w' hne := by simpa [Function.update_of_ne hne] using h.workers w' hne
  finality := h.finality
  commit := h.commit

/-- A worker waits for others, never for itself. -/
theorem free_of_others (h : Reachable blk backing σ)
    (hothers : ∀ th, th ≠ .worker w → ∀ l ∈ (σ.workers w).wants, ¬ σ.Holds th l) :
    ∀ l ∈ (σ.workers w).wants, σ.shared.isHeld l = false := by
  intro l hl
  by_contra hheld
  obtain ⟨th, hholds⟩ := holder_of_isHeld h l (Bool.eq_true_of_not_eq_false hheld)
  by_cases hth : th = .worker w
  · subst hth
    have hwants : l ∈ σ.wants blk (.worker w) := hl
    exact Nat.lt_irrefl _ (lockOrder_of_reach h _ l l hholds hwants)
  · exact hothers th hth l hl hholds

/-- **A worker that nobody keeps from its locks runs on**, until it comes
home or before. `P` is what its steps preserve on the way. -/
theorem leads_alone {P : SchedulerState W R B → Prop} (stop : SchedulerState W R B → Prop)
    (hB : Responsive B)
    (hapart : ∀ t, (blk.spec t).Yields (SpeculativeResult.RewardApart blk.beneficiary))
    (hhome : ∀ σ, (σ.workers w).isHome = true → stop σ)
    (hfree : ∀ σ, Reachable blk backing σ → P σ → ¬ stop σ →
      ∀ l ∈ (σ.workers w).wants, σ.shared.isHeld l = false)
    (hkeep : ∀ σ s' p', Reachable blk backing σ → P σ → ¬ stop σ →
      workerStep blk w σ.shared (σ.workers w) 0 = some (s', p') →
      P { σ with shared := s', workers := Function.update σ.workers w p' })
    (h : Reachable blk backing σ) (hP : P σ) :
    Runs.Leads (step blk) (Only (.worker w)) (fun σ => (Reachable blk backing σ ∧ P σ) ∧ stop σ)
      σ := by
  refine Runs.leads_of_variant (P := fun σ => Reachable blk backing σ ∧ P σ) (Q := stop)
    (fun σ => (σ.workers w).rank hB blk.size σ.shared) (fun σ hσ hstop => ?_) ⟨h, hP⟩
  obtain ⟨hreach, hP⟩ := hσ
  have hp : (σ.workers w).isHome = false := by
    by_contra hhome'
    exact hstop (hhome σ (Bool.eq_true_of_not_eq_false hhome'))
  have hsome : (workerStep blk w σ.shared (σ.workers w) 0).isSome = true :=
    workerStep_isSome (hfree σ hreach hP hstop) (pcBelow_of_reach hreach w)
      ((yielded_of_reach hapart hreach).workers w) (by intro heq; rw [heq] at hp; cases hp)
  obtain ⟨⟨s', p'⟩, hstep⟩ := Option.isSome_iff_exists.mp hsome
  refine .of_step ⟨.worker w, 0⟩ rfl (step_worker hstep)
    ⟨⟨hreach.tail ⟨.worker w, 0⟩ trivial (step_worker hstep), hkeep σ s' p' hreach hP hstop hstep⟩,
      .inr ?_⟩
  simp only [Function.update_self]
  exact workerStep_rank hstep ((inBlock_of_reach hreach).2 w) (handsOn_of_reach hreach w)
    (by intro heq; rw [heq] at hp; cases hp)

end

/-! ## Bringing the workers home -/

/-- No worker holds a lock below the rank `k`, and the finality thread
holds none. -/
structure HeldFrom (numTxs k : Nat) (σ : SchedulerState W R B) : Prop where
  workers : ∀ w l, (σ.workers w).Holds l → k ≤ l.rank numTxs
  finality : σ.finality.pc.locks = false

/-- Every worker is home, and the finality thread holds no lock. -/
structure Resting (σ : SchedulerState W R B) : Prop where
  home : ∀ w, (σ.workers w).isHome = true
  finality : σ.finality.pc.locks = false

section

variable {blk : Block Err R} {σ σ' : SchedulerState W R B} {w : W} {k : Nat}

theorem HeldFrom.not_holds {n : Nat} (h : HeldFrom n k σ) {th : Thread W} {l : Lock}
    (hl : l.rank n < k) : ¬ σ.Holds th l := by
  intro hholds
  cases th with
  | worker w => exact Nat.not_le_of_lt hl (h.workers w l hholds)
  | finality =>
    cases l with
    | tx t => simp [SchedulerState.Holds, h.finality] at hholds
    | dependent t | affects d => cases hholds
  | commit => cases hholds

theorem SameBut.not_holds (h : SameBut w σ σ') {th : Thread W} {l : Lock} (hth : th ≠ .worker w)
    (hl : ¬ σ.Holds th l) : ¬ σ'.Holds th l := by
  cases th with
  | worker w' =>
    have hne : w' ≠ w := fun heq => hth (by rw [heq])
    simpa [SchedulerState.Holds, h.workers w' hne] using hl
  | finality =>
    cases l with
    | tx t => simpa [SchedulerState.Holds, h.finality] using hl
    | dependent t | affects d => exact hl
  | commit => exact hl

variable [DecidableEq W] {backing : B.State} (hB : Responsive B)
  (hapart : ∀ t, (blk.spec t).Yields (SpeculativeResult.RewardApart blk.beneficiary))

include hB hapart

/-- One worker gives back its locks of rank `k`: it waits for locks of a
lower rank only, and nobody else holds one. -/
theorem leads_release_one (h : Reachable blk backing σ) (hk : HeldFrom blk.size k σ) (w : W) :
    Runs.Leads (step blk) Runs.Free
      (fun σ' => (Reachable blk backing σ' ∧ HeldFrom blk.size k σ') ∧
        (∀ l, (σ'.workers w).Holds l → k < l.rank blk.size) ∧ SameBut w σ σ') σ := by
  refine ((leads_alone (P := SameBut w σ)
    (fun σ' => ∀ l, (σ'.workers w).Holds l → k < l.rank blk.size) hB hapart
    (fun σ' hhome l hl => absurd hl (WorkerPc.not_holds_of_isHome hhome l))
    (fun σ' hreach hsame hstop => ?_) (fun σ' s' p' _ hsame _ _ => hsame.worker) h
    (.refl w σ)).mono fun _ _ _ => trivial).imp fun σ' _ hσ' => ?_
  · obtain ⟨l, hl, hrank⟩ : ∃ l, (σ'.workers w).Holds l ∧ l.rank blk.size ≤ k := by
      simpa using hstop
    refine free_of_others hreach fun th hth l' hl' => hsame.not_holds hth (hk.not_holds ?_)
    have hwants : l' ∈ σ'.wants blk (.worker w) := hl'
    have hholds : σ'.Holds (.worker w) l := hl
    exact Nat.lt_of_lt_of_le (lockOrder_of_reach hreach _ l l' hholds hwants) hrank
  · obtain ⟨⟨hreach, hsame⟩, hstop⟩ := hσ'
    refine ⟨⟨hreach, fun w' l hl => ?_, by rw [hsame.finality]; exact hk.finality⟩, hstop, hsame⟩
    by_cases heq : w' = w
    · exact Nat.le_of_lt (hstop l (heq ▸ hl))
    · exact hk.workers w' l (hsame.workers w' heq ▸ hl)

theorem leads_release [Finite W] (h : Reachable blk backing σ) (hk : HeldFrom blk.size k σ) :
    Runs.Leads (step blk) Runs.Free
      (fun σ' => Reachable blk backing σ' ∧ HeldFrom blk.size (k + 1) σ') σ := by
  refine (Runs.leads_forall (P := fun σ => Reachable blk backing σ ∧ HeldFrom blk.size k σ)
    (Q := fun w σ => ∀ l, (σ.workers w).Holds l → k < l.rank blk.size) (fun w σ hσ => ?_)
    ⟨h, hk⟩).imp fun σ' _ hσ' => ⟨hσ'.1.1, hσ'.2, hσ'.1.2.finality⟩
  refine (leads_release_one hB hapart hσ.1 hσ.2 w).imp fun σ' _ hσ' => ⟨hσ'.1, hσ'.2.1, ?_⟩
  intro w' hne hw'
  rwa [hσ'.2.2.workers w' hne]

/-- One rank of locks after the other. -/
theorem leads_release_below [Finite W] (h : Reachable blk backing σ)
    (hf : σ.finality.pc.locks = false) (k : Nat) :
    Runs.Leads (step blk) Runs.Free (fun σ' => Reachable blk backing σ' ∧ HeldFrom blk.size k σ')
      σ := by
  induction k with
  | zero => exact .here ⟨h, fun _ _ _ => Nat.zero_le _, hf⟩
  | succ k ih => exact ih.bind fun σ' _ hσ' => leads_release hB hapart hσ'.1 hσ'.2

theorem leads_home_one (h : Reachable blk backing σ) (hk : HeldFrom blk.size (blk.size + 3) σ)
    (w : W) :
    Runs.Leads (step blk) Runs.Free
      (fun σ' => (Reachable blk backing σ' ∧ HeldFrom blk.size (blk.size + 3) σ') ∧
        (σ'.workers w).isHome = true ∧ SameBut w σ σ') σ := by
  have hrank : ∀ l : Lock, l.rank blk.size < blk.size + 3 := by
    intro l
    cases l <;> simp only [Lock.rank] <;> omega
  refine ((leads_alone (P := SameBut w σ) (fun σ' => (σ'.workers w).isHome = true) hB
    hapart (fun _ hhome => hhome) (fun σ' hreach hsame _ => ?_)
    (fun σ' s' p' _ hsame _ _ => hsame.worker) h (.refl w σ)).mono fun _ _ _ => trivial).imp
    fun σ' _ hσ' => ?_
  · exact free_of_others hreach fun th hth l _ => hsame.not_holds hth (hk.not_holds (hrank l))
  · obtain ⟨⟨hreach, hsame⟩, hstop⟩ := hσ'
    refine ⟨⟨hreach, fun w' l hl => ?_, by rw [hsame.finality]; exact hk.finality⟩, hstop, hsame⟩
    by_cases heq : w' = w
    · exact absurd (heq ▸ hl) (WorkerPc.not_holds_of_isHome hstop l)
    · exact hk.workers w' l (hsame.workers w' heq ▸ hl)

/-- **All workers come home**: first those that hold a lock give it back,
in the order of the locks, then one worker after the other. -/
theorem leads_resting [Finite W] (h : Reachable blk backing σ) (hf : σ.finality.pc.locks = false) :
    Runs.Leads (step blk) Runs.Free (fun σ' => Reachable blk backing σ' ∧ Resting σ') σ := by
  refine (leads_release_below hB hapart h hf (blk.size + 3)).bind fun σ₁ _ h₁ => ?_
  refine (Runs.leads_forall
    (P := fun σ => Reachable blk backing σ ∧ HeldFrom blk.size (blk.size + 3) σ)
    (Q := fun w σ => (σ.workers w).isHome = true) (fun w σ hσ => ?_) h₁).imp
    fun σ' _ hσ' => ⟨hσ'.1.1, hσ'.2, hσ'.1.2.finality⟩
  refine (leads_home_one hB hapart hσ.1 hσ.2 w).imp fun σ' _ hσ' => ⟨hσ'.1, hσ'.2.1, ?_⟩
  intro w' hne hw'
  rwa [hσ'.2.2.workers w' hne]

end

end Grevm
