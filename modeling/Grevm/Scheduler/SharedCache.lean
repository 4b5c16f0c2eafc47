/-
Grevm.Scheduler.SharedCache — the scheduler over a shared cache.

The workers load from the `ParallelState` that the ordered commit applies
finalized change sets to, and so does the ordered commit itself for nonces
and rewards. The expectation of `Grevm.CacheCoherence` is here that of the
commit loop: the accounts at the start of the block under the change sets
applied so far, with the last of them in progress. As long as no load of a
slot races with the removal of its slot map (`RaceFreeReads`), the cache
serves every caller (`SharedCache.step`).

From this follows what `Grevm.Scheduler.Serial` and
`Grevm.Scheduler.ErrorAgreement` take as given of the reads of a run. The
ordered commit finds the accounts it has committed. A worker may find what
the ordered commit has changed since the start of the block, and then a
final transaction before its own has published that location: its read
set, which holds the location as unwritten, does not pass the validation.
-/
import Grevm.CacheAnswers
import Grevm.Scheduler.ErrorAgreement

namespace Grevm

variable {Err W R : Type} {db : Database Err}

/-! ## Callers of the cache -/

/-- The call into the cache that a state read is in. -/
def CallPc.calling : CallPc (parallelState db) → Option (LoadCall × LoadPc)
  | .basicBacking address pc => some (.basic address, .basic pc)
  | .codeBacking _ info pc => some (.code info.codeHash, .code pc)
  | .storageBacking address index pc => some (.storage address index, .storage pc)
  | _ => none

def WorkerPc.calling : WorkerPc R (parallelState db) → Option (LoadCall × LoadPc)
  | .exec _ (.running _ _ pc) => pc.calling
  | _ => none

def CommitThread.calling (blk : Block Err R) (t : CommitThread R (parallelState db)) :
    Option (LoadCall × LoadPc) :=
  (t.reading blk).map fun reading => (.basic reading.1, .basic reading.2)

/-- The calls in progress: those of the workers and that of the ordered
commit. -/
def SchedulerState.calls (blk : Block Err R) (σ : SchedulerState W R (parallelState db)) :
    Option W → Option (LoadCall × LoadPc)
  | some w => (σ.workers w).calling
  | none => σ.commit.calling blk

/-- While the ordered commit has removed the slot map of an account and
not yet changed its status, no worker is on its way with a non-zero
database value of that account. -/
def SchedulerState.RaceFree (σ : SchedulerState W R (parallelState db)) : Prop :=
  ∀ previous result address account accounts,
    σ.commit.pc = .applying previous result (ApplyPc.change address account accounts) →
    account.clears = true → ∀ w call pc, (σ.workers w).calling = some (call, .storage pc) →
      pc.fetches db address = false

/-- The step leads to a state without such a race. -/
def RaceFreeReads [DecidableEq W] (blk : Block Err R) (σ : SchedulerState W R (parallelState db))
    (a : Action W) : Prop :=
  ∀ σ', step blk σ a = some σ' → σ'.RaceFree

section

variable {blk : Block Err R} {cache cache' : (parallelState db).State}
  {s s' : Shared W R (parallelState db)}

theorem loadStep_basic {pc : (parallelState db).BasicPc}
    {next : (parallelState db).BasicPc ⊕ Except Err (Option AccountInfo)}
    (h : (parallelState db).basicStep cache pc = (cache', next)) :
    ParallelCacheState.loadStep db cache (.basic pc) =
      (cache', next.getLeft?.map LoadPc.basic) := by
  have hstep : ParallelCacheState.basicLoadStep db cache pc = (cache', next) := h
  simp only [ParallelCacheState.loadStep, hstep]
  rfl

theorem loadStep_code {pc : (parallelState db).CodePc}
    {next : (parallelState db).CodePc ⊕ Except Err Bytecode}
    (h : (parallelState db).codeStep cache pc = (cache', next)) :
    ParallelCacheState.loadStep db cache (.code pc) =
      (cache', next.getLeft?.map LoadPc.code) := by
  have hstep : ParallelCacheState.codeLoadStep db cache pc = (cache', next) := h
  simp only [ParallelCacheState.loadStep, hstep]
  rfl

theorem loadStep_storage {pc : (parallelState db).StoragePc}
    {next : (parallelState db).StoragePc ⊕ Except Err U256}
    (h : (parallelState db).storageStep cache pc = (cache', next)) :
    ParallelCacheState.loadStep db cache (.storage pc) =
      (cache', next.getLeft?.map LoadPc.storage) := by
  have hstep : ParallelCacheState.storageLoadStep db cache pc = (cache', next) := h
  simp only [ParallelCacheState.loadStep, hstep]
  rfl

/-- A caller without a call afterwards. -/
theorem CallerMove.none {cache : ParallelCacheState} {calling : Option (LoadCall × LoadPc)} :
    CallerMove db cache calling cache none :=
  .begins fun _ _ h => by cases h

theorem calling_finishBasic (address : Address) (account : Option AccountInfo) :
    ((finishBasic address account : CallPc (parallelState db) ⊕ Except Err Value).getLeft?.bind
      CallPc.calling) = none := by
  unfold finishBasic
  split
  · split <;> rfl
  · rfl

/-- One access of a state read. -/
theorem callStep_calling {anchor : Option AccountInfo} {txid : Nat} {mv : MVMemory}
    {history : Nat → EntryState} {idb idb' : IncarnationDb} {pc : CallPc (parallelState db)}
    {next : CallPc (parallelState db) ⊕ Except Err Value}
    (h : callStep anchor txid mv history cache idb pc = (cache', idb', next)) :
    CallerMove db cache pc.calling cache' (next.getLeft?.bind CallPc.calling) := by
  cases callStep_sound h with
  | visit | block | codeHit | reset | slotHit | slotCleared => exact .none
  | resolve _ hnext | basicHit _ _ hnext =>
    rw [← hnext, calling_finishBasic]
    exact .none
  | basicMiss | codeMiss | slotMiss => exact .begins fun call pc hcall => by cases hcall; rfl
  | basicMore hb => exact .loads (loadStep_basic hb)
  | codeMore hb => exact .loads (loadStep_code hb)
  | storageMore hb => exact .loads (loadStep_storage hb)
  | basicFails hb => exact .ends (loadStep_basic hb) fun _ _ hcall => by cases hcall
  | basicLoads hb hnext =>
    rw [← hnext, calling_finishBasic]
    exact .ends (loadStep_basic hb) fun _ _ hcall => by cases hcall
  | codeFails hb | codeLoads hb =>
    exact .ends (loadStep_code hb) fun _ _ hcall => by cases hcall
  | storageFails hb | storageLoads hb =>
    exact .ends (loadStep_storage hb) fun _ _ hcall => by cases hcall

theorem calling_enterExec (s₀ : Shared W R (parallelState db)) (v : TxVersion) (txid : Nat)
    (idb : IncarnationDb) (prog : Prog Err R) :
    (WorkerPc.exec v (enterExec blk s₀ txid idb prog)).calling = none := by
  unfold enterExec
  split
  · rename_i call k
    cases call with
    | basic address =>
      simp only [WorkerPc.calling, Call.start]
      split <;> rfl
    | storage address index => rfl
  · rfl
  · rfl

/-- A step of a worker that leaves the cache alone and calls nothing. -/
theorem CallerMove.of_eq {cache cache' : ParallelCacheState}
    {calling calling' : Option (LoadCall × LoadPc)} (hcache : cache' = cache)
    (hcalling : calling' = Option.none) : CallerMove db cache calling cache' calling' := by
  subst hcache hcalling
  exact .none

theorem finishExec_calling {ctx : SchedulerContext} {v : TxVersion} {tail : ExecTail}
    {calling : Option (LoadCall × LoadPc)} :
    CallerMove db s.backing calling (finishExec { s with ctx } v tail).1.backing
      (finishExec { s with ctx } v tail).2.calling := by
  unfold finishExec
  split <;> exact .of_eq rfl rfl

theorem ExecStep.calling {v : TxVersion} {pc : ExecPc R (parallelState db)}
    {p' : WorkerPc R (parallelState db)} (h : ExecStep blk s v pc s' p') :
    CallerMove db s.backing (WorkerPc.exec v pc).calling s'.backing p'.calling := by
  cases h with
  | read hcall => exact callStep_calling hcall
  | answer hcall =>
    rw [calling_enterExec]
    exact callStep_calling hcall
  | errRecord => exact .of_eq rfl (by split <;> rfl)
  | frontierFinish | rewindFinish => exact finishExec_calling
  | _ => exact .of_eq rfl rfl

theorem ValStep.calling {v : TxVersion} {pc : ValPc} {p' : WorkerPc R (parallelState db)}
    (h : ValStep blk s v pc s' p') :
    CallerMove db s.backing (WorkerPc.val v pc : WorkerPc R (parallelState db)).calling s'.backing
      p'.calling := by
  cases h <;> exact .of_eq rfl rfl

theorem WorkerPc.calling_of_isIdle {p : WorkerPc R (parallelState db)} (h : p.isIdle = true) :
    p.calling = none := by
  cases p with
  | exec v pc => cases h
  | _ => rfl

/-- **A worker is a caller of the cache.** -/
theorem WorkerStep.calling {w : W} {p p' : WorkerPc R (parallelState db)}
    (h : WorkerStep blk w s p s' p') : CallerMove db s.backing p.calling s'.backing p'.calling := by
  cases h with
  | idle hp hp' | frontier hf hp hp' => exact .of_eq rfl (WorkerPc.calling_of_isIdle hp')
  | busy | uselessRemoved => exact .of_eq rfl (by unfold noTask; split <;> rfl)
  | execute => exact .of_eq rfl (calling_enterExec _ _ _ _ _)
  | exec hs | val hs => exact hs.calling
  | _ => exact .of_eq rfl rfl

end

/-! ## The expectation -/

/-- The accounts at the start of the block under the change sets applied
so far, the last of which may be in progress. -/
def CommitThread.expect (base : Base Err) (t : CommitThread R (parallelState db))
    (address : Address) : Expect Err :=
  match t.pc with
  | .applying _ _ pc =>
    ApplyPc.expect (committedPlain base t.applied.dropLast) (committedPlain base t.applied) pc
      address
  | _ => { plain := committedPlain base t.applied address }

/-- The cache serves the callers, the commit in progress is that of the
last change set, and the code of the committed accounts is known. -/
structure SharedCache (blk : Block Err R) (codeOf : B256 → Bytecode) (base : Base Err)
    (σ : SchedulerState W R (parallelState db)) : Prop where
  serves : ParallelCacheState.Serves db codeOf base.code (σ.commit.expect base) (σ.calls blk)
    σ.shared.backing
  applying : ∀ previous result pc, σ.commit.pc = .applying previous result pc →
    ∃ before a, σ.commit.applied = before ++ [a] ∧
      ApplyPc.Ok a.state (committedPlain base σ.commit.applied) pc ∧ ApplyPc.Writing a.state pc
  codes : ∀ n address,
    (committedPlain base (σ.commit.applied.take n) address).CodeKnown codeOf base.code

section

variable {blk : Block Err R} {base : Base Err} {codeOf : B256 → Bytecode}
  {t t' : CommitThread R (parallelState db)} {σ : SchedulerState W R (parallelState db)}
  {s' : Shared W R (parallelState db)} {previous : Nat} {result : R} {address : Address}

theorem CommitThread.expect_of_applying {pc : ApplyPc}
    (h : t.pc = .applying previous result pc) :
    t.expect base =
      pc.expect (committedPlain base t.applied.dropLast) (committedPlain base t.applied) := by
  funext address
  rw [expect, h]

theorem CommitThread.expect_of_idle (h : t.pc.applyingResult = none) :
    t.expect base = fun address => { plain := committedPlain base t.applied address } := by
  funext address
  unfold expect
  split
  · rename_i hpc
    rw [hpc] at h
    cases h
  · rfl

theorem committedPlain_append (base : Base Err) (applied : List (Applied R)) (a : Applied R) :
    committedPlain base (applied ++ [a]) =
      Plain.applyState (committedPlain base applied) a.state := by
  rw [committedPlain, List.map_append, List.map_singleton, Plain.overlay_append]
  rfl

/-- A commit that begins changes no expectation. -/
theorem CommitThread.expect_startApply (h : t.pc.applyingResult = none) (state : EvmState) :
    (startApply t previous result state).expect base = t.expect base := by
  have hbegins : (startApply t previous result state).pc =
      .applying previous result (ApplyPc.start state) := rfl
  have happlied : (startApply t previous result state).applied =
    t.applied ++ [⟨t.idx, result, state⟩] := rfl
  rw [expect_of_applying hbegins, expect_of_idle h, happlied, List.dropLast_concat,
    committedPlain_append]
  funext address
  exact ApplyPc.expect_start (committedPlain base t.applied) state address

/-- The expected account is that of the change sets applied so far, or of
those before the last. -/
theorem CommitThread.plain_expect (base : Base Err) (t : CommitThread R (parallelState db))
    (address : Address) : ∃ n, n ≤ t.applied.length ∧
      (t.expect base address).plain = committedPlain base (t.applied.take n) address := by
  have hall : committedPlain base t.applied =
      committedPlain base (t.applied.take t.applied.length) := by rw [List.take_length]
  unfold expect
  split
  · dsimp only [ApplyPc.expect]
    split
    · refine ⟨t.applied.length - 1, Nat.sub_le _ _, ?_⟩
      rw [List.dropLast_eq_take]
    · exact ⟨_, Nat.le_refl _, congrFun hall address⟩
  · exact ⟨_, Nat.le_refl _, congrFun hall address⟩

theorem CommitLoopPc.eq_applying {pc : CommitLoopPc R (parallelState db)}
    (h : pc.applyingResult = some result) :
    ∃ (previous : Nat) (apc : ApplyPc), pc = .applying previous result apc := by
  unfold CommitLoopPc.applyingResult at h
  split at h <;> cases h
  exact ⟨_, _, rfl⟩

/-! ## Steps -/

/-- The ordered commit loads accounts only. -/
theorem CommitThread.calling_ne_storage {call : LoadCall} {pc : StorageLoadPc} :
    t.calling blk ≠ some (call, .storage pc) := by
  intro h
  obtain ⟨reading, -, heq⟩ := Option.map_eq_some_iff.mp h
  cases heq

theorem calls_of_ne {commit : CommitThread R (parallelState db)} {i : Option W} (hi : i ≠ none) :
    ({ σ with shared := s', commit } : SchedulerState W R (parallelState db)).calls blk i =
      σ.calls blk i := by
  cases i with
  | none => exact absurd rfl hi
  | some w => rfl

/-- Without a race no caller brings a value into slots under removal. -/
theorem SchedulerState.RaceFree.fetches (h : σ.RaceFree)
    (hcleared : (σ.commit.expect base address).cleared = true) {i : Option W} {call : LoadCall}
    {pc : StorageLoadPc} (hcall : σ.calls blk i = some (call, .storage pc)) :
    pc.fetches db address = false := by
  cases i with
  | none => exact absurd hcall CommitThread.calling_ne_storage
  | some w =>
    cases hidle : σ.commit.pc.applyingResult with
    | none =>
      rw [CommitThread.expect_of_idle hidle] at hcleared
      cases hcleared
    | some result =>
      obtain ⟨previous, apc, hpc⟩ := CommitLoopPc.eq_applying hidle
      rw [CommitThread.expect_of_applying hpc] at hcleared
      cases apc with
      | change a account accounts =>
        obtain ⟨ha, hclears⟩ := (Bool.and_eq_true _ _).mp hcleared
        obtain rfl := eq_of_beq ha
        exact h _ _ _ _ _ hpc hclears w call pc hcall
      | _ => cases hcleared

/-- A step of the ordered commit outside of a commit. -/
theorem SharedCache.idle (hdb : db.StorageNeedsCode) (h : SharedCache blk codeOf base σ)
    (hmove : CallerMove db σ.shared.backing (σ.commit.calling blk) s'.backing (t'.calling blk))
    (hidle : σ.commit.pc.applyingResult = none) (hidle' : t'.pc.applyingResult = none)
    (happlied : t'.applied = σ.commit.applied) :
    SharedCache blk codeOf base { σ with shared := s', commit := t' } where
  serves := by
    have hexpect : t'.expect base = σ.commit.expect base := by
      rw [CommitThread.expect_of_idle hidle, CommitThread.expect_of_idle hidle', happlied]
    show ParallelCacheState.Serves db codeOf base.code (t'.expect base) _ s'.backing
    rw [hexpect]
    exact h.serves.move (i := none) hdb hmove (fun i hi => calls_of_ne hi)
      fun call pc _ hcall => absurd hcall CommitThread.calling_ne_storage
  applying previous result pc hpc := by
    have hpc : t'.pc = .applying previous result pc := hpc
    rw [hpc] at hidle'
    cases hidle'
  codes := by
    show ∀ n address, (committedPlain base (t'.applied.take n) address).CodeKnown codeOf base.code
    rw [happlied]
    exact h.codes

/-- `ParallelStateCommit::commit` is called. -/
theorem SharedCache.startApply (hdb : db.StorageNeedsCode) (h : SharedCache blk codeOf base σ)
    (hmove : CallerMove db σ.shared.backing (σ.commit.calling blk) s'.backing none)
    (hidle : σ.commit.pc.applyingResult = none) {state : EvmState}
    (hcodes : ∀ address, (Plain.applyState (committedPlain base σ.commit.applied) state
      address).CodeKnown codeOf base.code) :
    SharedCache blk codeOf base
      { σ with shared := s', commit := Grevm.startApply σ.commit previous result state } where
  serves := by
    show ParallelCacheState.Serves db codeOf base.code
      ((Grevm.startApply σ.commit previous result state).expect base) _ s'.backing
    rw [CommitThread.expect_startApply hidle]
    exact h.serves.move (i := none) hdb hmove (fun i hi => calls_of_ne hi)
      fun call pc _ hcall => by cases hcall
  applying _ _ pc hpc := by
    cases hpc
    exact ⟨σ.commit.applied, _, rfl, ApplyPc.ok_start state, trivial⟩
  codes n address := by
    change (committedPlain base (List.take n (σ.commit.applied ++
      [(⟨σ.commit.idx, result, state⟩ : Applied R)])) address).CodeKnown codeOf base.code
    rcases Nat.lt_or_ge σ.commit.applied.length n with hn | hn
    · rw [List.take_of_length_le (by simpa [Nat.succ_le_iff] using hn), committedPlain_append]
      exact hcodes address
    · rw [List.take_append_of_le_length hn]
      exact h.codes n address

/-- One step of the commit of the last change set. -/
theorem SharedCache.apply (hdb : db.StorageNeedsCode) (h : SharedCache blk codeOf base σ)
    (hcreates : ∀ a ∈ σ.commit.applied, a.state.CreatesCode codeOf) {pc : ApplyPc}
    {next : Option ApplyPc} {c : Nat} (hpc : σ.commit.pc = .applying previous result pc)
    (hstep : ParallelCacheState.applyStep σ.shared.backing c pc = some (s'.backing, next))
    (happlied : t'.applied = σ.commit.applied)
    (hpc' : next.elim (t'.pc.applyingResult = none) fun pc' =>
      t'.pc = .applying previous result pc') (hcalling : t'.calling blk = none)
    (hrace : ({ σ with shared := s', commit := t' } : SchedulerState W R _).RaceFree) :
    SharedCache blk codeOf base { σ with shared := s', commit := t' } := by
  obtain ⟨before, a, hlast, hok, hwriting⟩ := h.applying _ _ _ hpc
  have hafter : committedPlain base σ.commit.applied =
      Plain.applyState (committedPlain base before) a.state := by
    rw [hlast, committedPlain_append]
  obtain ⟨hok', hfollows⟩ := follows_of_applyStep hdb hok hafter hstep
  have hbefore : σ.commit.applied.dropLast = before := by rw [hlast, List.dropLast_concat]
  have hexpect : t'.expect base =
      expectNext (committedPlain base before) (committedPlain base σ.commit.applied) next := by
    cases next with
    | none =>
      rw [CommitThread.expect_of_idle hpc', happlied]
      rfl
    | some pc' =>
      rw [CommitThread.expect_of_applying hpc', happlied, hbefore]
      rfl
  have hcalls : ({ σ with shared := s', commit := t' } : SchedulerState W R _).calls blk =
      σ.calls blk := by
    funext i
    cases i with
    | none =>
      have hnone : σ.commit.calling blk = none := by
        simp only [CommitThread.calling, CommitThread.reading, hpc, Option.map_none]
      exact hcalling.trans hnone.symm
    | some w => rfl
  refine ⟨?_, fun previous' result' pc' hpc₁ => ?_, ?_⟩
  · rw [hcalls]
    refine h.serves.apply (hcreates a (by simp [hlast])) hwriting hstep (fun address => ?_)
      fun i call spc address hcall hcleared => hrace.fetches hcleared (hcalls ▸ hcall)
    show Follows _ _ _ _ _ (t'.expect base address)
    rw [hexpect, CommitThread.expect_of_applying hpc, hbefore]
    exact hfollows address
  · have hpc₁ : t'.pc = .applying previous' result' pc' := hpc₁
    cases next with
    | none =>
      rw [Option.elim_none, hpc₁] at hpc'
      cases hpc'
    | some pc₂ =>
      rw [Option.elim_some, hpc₁] at hpc'
      cases hpc'
      refine ⟨before, a, happlied.trans hlast, ?_, hwriting.step hok hstep⟩
      show ApplyPc.Ok a.state (committedPlain base t'.applied) pc'
      rw [happlied]
      exact hok' pc' rfl
  · show ∀ n address, (committedPlain base (t'.applied.take n) address).CodeKnown codeOf base.code
    rw [happlied]
    exact h.codes

theorem SharedCache.worker [DecidableEq W] (hdb : db.StorageNeedsCode)
    (h : SharedCache blk codeOf base σ) {w : W} {p' : WorkerPc R (parallelState db)}
    (hstep : WorkerStep blk w σ.shared (σ.workers w) s' p')
    (hrace : ({ σ with shared := s', workers := Function.update σ.workers w p' } :
      SchedulerState W R _).RaceFree) :
    SharedCache blk codeOf base
      { σ with shared := s', workers := Function.update σ.workers w p' } where
  serves := by
    refine h.serves.move (i := some w) hdb ?_ (fun i hi => ?_)
      fun call pc address hcall hcleared => hrace.fetches hcleared hcall
    · simp only [SchedulerState.calls, Function.update_self]
      exact hstep.calling
    · cases i with
      | none => rfl
      | some w' =>
        have hne : w' ≠ w := fun heq => hi (congrArg some heq)
        simp only [SchedulerState.calls, Function.update_of_ne hne]
  applying := h.applying
  codes := h.codes

theorem SharedCache.finality {t' : FinalityThread} (h : SharedCache blk codeOf base σ)
    (hstep : FinalityStep blk σ.shared σ.finality s' t') :
    SharedCache blk codeOf base { σ with shared := s', finality := t' } where
  serves := by
    have hbacking : s'.backing = σ.shared.backing := by cases hstep <;> rfl
    show ParallelCacheState.Serves db codeOf base.code _ (σ.calls blk) s'.backing
    rw [hbacking]
    exact h.serves
  applying := h.applying
  codes := h.codes

end

/-! ### Change sets with their rewards -/

section

variable {blk : Block Err R} {base : Base Err} {codeOf : B256 → Bytecode} {x : SpeculativeResult R}
  {beneficiary address : Address} {info : Option AccountInfo} {account : Account}

/-- An account of a change set is one of the result, or the beneficiary
account with its reward. -/
theorem SpeculativeResult.lookup_settled
    (h : (x.settled beneficiary info).lookup address = some account) :
    x.state.lookup address = some account ∨ ∃ reward : DeferredBeneficiaryReward,
      account = (Account.ofInfo (reward.applyTo info)).markTouch := by
  unfold settled at h
  split at h
  · exact .inl h
  · rename_i reward _
    by_cases ha : address = beneficiary
    · subst ha
      rw [withReward, AList.lookup_insert] at h
      exact .inr ⟨reward, (Option.some.inj h).symm⟩
    · rw [withReward, AList.lookup_insert_ne ha] at h
      exact .inl h

/-- A reward changes neither the code of the account nor its hash. -/
theorem Plain.codeKnown_settled {q : Address → Plain Err} {book : B256 → Except Err Bytecode}
    (hq : ∀ address, (q address).CodeKnown codeOf book)
    (hcarries : ∀ address account, x.state.lookup address = some account →
      account.CarriesCode codeOf)
    (hinfo : x.deferredReward ≠ none → (q beneficiary).basic = .ok info) (address : Address) :
    (Plain.applyState q (x.settled beneficiary info) address).CodeKnown codeOf book := by
  cases hreward : x.deferredReward with
  | none =>
    simp only [SpeculativeResult.settled, hreward]
    exact (hq address).applyState (hcarries address)
  | some reward =>
    simp only [SpeculativeResult.settled, hreward]
    by_cases ha : address = beneficiary
    · subst ha
      rw [applyState_withReward]
      intro paid hpaid he
      cases hpaid
      have hhash := reward.codeHash_applyTo info
      have hcode := reward.code_applyTo info
      cases info with
      | none =>
        rw [AccountInfo.isEmptyCodeHash_congr hhash] at he
        cases he
      | some before =>
        rw [AccountInfo.isEmptyCodeHash_congr hhash] at he
        rw [hhash, hcode]
        exact hq address before (hinfo (by simp [hreward])) he
    · have hlook : (withReward beneficiary reward info x.state).lookup address =
          x.state.lookup address := AList.lookup_insert_ne ha
      refine (hq address).applyState fun account haccount => ?_
      exact hcarries address account (hlook.symm.trans haccount)

/-- Accounts that a sequential result leaves carry their code. -/
theorem carriesCode_of_sequential {p : Address → Plain Err} {n i : Nat}
    {results : List (SpeculativeResult R)} (hfinalizes : ∀ t, (blk.spec t).Finalizes codeOf)
    (hseq : blk.sequential codeOf base.plain n = some (results, p))
    (hx : results[i]? = some x) (hlook : x.state.lookup address = some account) :
    account.CarriesCode codeOf := by
  obtain ⟨results', p', -, hrun⟩ := Block.sequential_at hseq hx
  exact (hfinalizes i).carriesCode rfl hrun hlook

theorem Applied.Serial.createsCode {a : Applied R} (h : a.Serial blk codeOf base)
    (hfinalizes : ∀ t, (blk.spec t).Finalizes codeOf) : a.state.CreatesCode codeOf := by
  intro address account hlook hcreated
  obtain ⟨results, p, x, info, -, hrun, -, -, hstate⟩ := h
  rw [hstate] at hlook
  rcases SpeculativeResult.lookup_settled hlook with hlook | ⟨reward, rfl⟩
  · exact (hfinalizes a.txid).carriesCode rfl hrun hlook
  · cases hcreated

end

section

variable {blk : Block Err R} {base : Base Err} {codeOf : B256 → Bytecode}
  {σ σ' : SchedulerState W R (parallelState db)} {s' : Shared W R (parallelState db)}
  {t' : CommitThread R (parallelState db)}

/-- What the ordered commit reads is what it has committed. -/
theorem SharedCache.basic_commit (h : SharedCache blk codeOf base σ) {address : Address}
    {pc : BasicLoadPc} {cache : ParallelCacheState} {found : Except Err (Option AccountInfo)}
    (hreading : σ.commit.reading blk = some (address, pc))
    (hstep : ParallelCacheState.basicLoadStep db σ.shared.backing pc = (cache, .inr found)) :
    found = (committedPlain base σ.commit.applied address).basic := by
  have hcall : σ.calls blk none = some (.basic address, .basic pc) := by
    rw [SchedulerState.calls, CommitThread.calling, hreading]
    rfl
  have hidle : σ.commit.pc.applyingResult = none := by
    unfold CommitThread.reading at hreading
    split at hreading
    · rename_i hpc
      rw [hpc]
      rfl
    · rename_i hpc
      rw [hpc]
      rfl
    · cases hreading
  rw [h.serves.basic hcall hstep, CommitThread.expect_of_idle hidle]

theorem CommitThread.reading_of_isWaiting (h : t'.pc.isWaiting = true) :
    t'.reading blk = none := by
  unfold CommitThread.reading
  split
  · rename_i hpc
    rw [hpc] at h
    cases h
  · rename_i hpc
    rw [hpc] at h
    cases h
  · rfl

/-- **One step of the ordered commit.** -/
theorem SharedCache.commit (hdb : db.StorageNeedsCode) (h : SharedCache blk codeOf base σ)
    (hserial : Serial blk codeOf base σ) (hcore : Core σ)
    (hfinalizes : ∀ t, (blk.spec t).Finalizes codeOf)
    (hrace : ({ σ with shared := s', commit := t' } : SchedulerState W R _).RaceFree)
    (hstep : CommitStep blk σ.shared σ.commit s' t') :
    SharedCache blk codeOf base { σ with shared := s', commit := t' } := by
  obtain ⟨results, p, hpre, hcommits⟩ := hserial
  have hcreates : ∀ a ∈ σ.commit.applied, a.state.CreatesCode codeOf :=
    fun a ha => (hcommits.applied a ha).createsCode hfinalizes
  -- the accounts after the next result
  have hcodes : ∀ {x info}, results[σ.commit.idx]? = some x →
      (x.deferredReward ≠ none →
        (committedPlain base σ.commit.applied blk.beneficiary).basic = .ok info) →
      ∀ address, (Plain.applyState (committedPlain base σ.commit.applied)
        (x.settled blk.beneficiary info) address).CodeKnown codeOf base.code := by
    intro x info hx hinfo
    refine Plain.codeKnown_settled (fun address => ?_) (fun address account hlook => ?_) hinfo
    · have hall := h.codes σ.commit.applied.length address
      rwa [List.take_length] at hall
    · exact carriesCode_of_sequential hfinalizes hpre.sequential hx hlook
  -- the nonce is checked: the reward is looked up, or the commit begins
  have hreward : ∀ {previous x}, results[σ.commit.idx]? = some x →
      σ.commit.pc.applyingResult = none → Grevm.startReward blk σ.commit previous x = some t' →
      (∀ calling, (∀ call pc, calling = some (call, pc) → pc = call.start) →
        CallerMove db σ.shared.backing (σ.commit.calling blk) s'.backing calling) →
      SharedCache blk codeOf base { σ with shared := s', commit := t' } := by
    intro previous x hx hidle ht hmove
    rcases startReward_cases ht with ⟨amount, -, rfl⟩ | ⟨hnone, rfl⟩
    · refine h.idle hdb (hmove _ fun call pc hcall => ?_) hidle rfl rfl
      cases hcall
      rfl
    · refine h.startApply hdb (hmove none fun _ _ hcall => by cases hcall) hidle ?_
      have hsettled : x.settled blk.beneficiary none = x.state := by
        rw [SpeculativeResult.settled, hnone]
      rw [← hsettled]
      exact hcodes hx fun hne => absurd hnone hne
  have hends : ∀ {address pc backing found} {calling : Option (LoadCall × LoadPc)},
      σ.commit.reading blk = some (address, pc) →
      (parallelState db).basicStep σ.shared.backing pc = (backing, .inr found) →
      (∀ call pc, calling = some (call, pc) → pc = call.start) →
      CallerMove db σ.shared.backing (σ.commit.calling blk) backing calling := by
    intro address pc backing found calling hreading hb hnew
    rw [CommitThread.calling, hreading]
    exact .ends (loadStep_basic hb) hnew
  have hpass : ∀ {t'' : CommitThread R (parallelState db)}, s'.backing = σ.shared.backing →
      σ.commit.pc.applyingResult = none → t''.pc.applyingResult = none →
      t''.reading blk = none → t''.applied = σ.commit.applied →
      SharedCache blk codeOf base { σ with shared := s', commit := t'' } := by
    intro t'' hbacking hidle hidle' hreading happlied
    refine h.idle hdb (.of_eq hbacking ?_) hidle hidle' happlied
    rw [CommitThread.calling, hreading]
    rfl
  cases hstep with
  | @wait commitWait pc' hpc hpc' =>
    obtain ⟨-, -, -, -, -, hidle⟩ := CommitLoopPc.stages_of_isWaiting hpc
    obtain ⟨-, -, -, -, -, hidle'⟩ := CommitLoopPc.stages_of_isWaiting hpc'
    exact hpass rfl hidle hidle' (CommitThread.reading_of_isWaiting hpc') rfl
  | leave hpc | enter hpc | ready hpc | takeFailed hpc | publish hpc | release hpc
  | abort hpc | aborted hpc =>
    exact hpass rfl (by rw [hpc]; rfl) rfl rfl rfl
  | @drained previous pc' hpc hle hpc' =>
    obtain ⟨-, -, -, -, -, hidle'⟩ := CommitLoopPc.stages_of_isWaiting hpc'
    exact hpass rfl (by rw [hpc]; rfl) hidle' (CommitThread.reading_of_isWaiting hpc') rfl
  | takeNonce hpc hr hx =>
    refine h.idle hdb (.begins fun call pc hcall => ?_) (by rw [hpc]; rfl) rfl rfl
    cases hcall
    rfl
  | take hpc hr hx hn ht =>
    exact hreward (hpre.kept _ _ _ (hcore.taking_lt hpc) hr hx) (by rw [hpc]; rfl) ht
      fun calling hnew => .begins hnew
  | @nonce previous x pc backing pc' hpc hb | @reward previous x amount pc backing pc' hpc hb =>
    refine h.idle hdb ?_ (by rw [hpc]; rfl) rfl rfl
    rw [CommitThread.calling, CommitThread.reading, hpc]
    exact .loads (loadStep_basic hb)
  | nonceError hpc hb | nonceMismatch hpc hb | rewardError hpc hb =>
    exact h.idle hdb (hends (by rw [CommitThread.reading, hpc]) hb fun _ _ hcall => by cases hcall)
      (by rw [hpc]; rfl) rfl rfl
  | @nonceMatch previous x pc backing info t' hpc hb hn ht =>
    exact hreward (hcommits.held x (by rw [hpc]; rfl)) (by rw [hpc]; rfl) ht
      fun calling hnew => hends (by rw [CommitThread.reading, hpc]) hb hnew
  | @rewarded previous x amount pc backing info hpc hb =>
    have hreading : σ.commit.reading blk = some (blk.beneficiary, pc) := by
      rw [CommitThread.reading, hpc]
    refine h.startApply hdb (hends hreading hb fun _ _ hcall => by cases hcall)
      (by rw [hpc]; rfl) ?_
    have hsettled : x.settled blk.beneficiary info =
        withReward blk.beneficiary amount info x.state := by
      rw [SpeculativeResult.settled, hcommits.reward _ _ _ _ hpc]
    rw [← hsettled]
    exact hcodes (hcommits.held x (by rw [hpc]; rfl)) fun _ => (h.basic_commit hreading hb).symm
  | apply hpc hb | applied hpc hb => exact h.apply hdb hcreates hpc hb rfl rfl rfl hrace

theorem SharedCache.step [DecidableEq W] {a : Action W} (hdb : db.StorageNeedsCode)
    (h : SharedCache blk codeOf base σ) (hserial : Serial blk codeOf base σ) (hcore : Core σ)
    (hfinalizes : ∀ t, (blk.spec t).Finalizes codeOf) (hrace : RaceFreeReads blk σ a)
    (hs : Grevm.step blk σ a = some σ') : SharedCache blk codeOf base σ' := by
  have hfree := hrace σ' hs
  rcases step_threads hs with ⟨w, shared, pc, -, hw, rfl⟩ | ⟨shared, t', hf, rfl⟩ |
    ⟨shared, t', -, hc, rfl⟩
  · exact h.worker hdb hw hfree
  · exact h.finality hf
  · exact h.commit hdb hserial hcore hfinalizes hfree hc

/-- The threads start over a cache that stands for the accounts at the
start of the block. -/
theorem sharedCache_initial {cache : ParallelCacheState}
    (hstands : cache.StandsFor db codeOf base.code base.plain) (hreadable : cache.Readable db) :
    SharedCache blk codeOf base (initial cache : SchedulerState W R (parallelState db)) where
  serves :=
    { ok :=
        { coherent := hstands.coherent
          carried := fun i pc hpc => by cases i <;> cases hpc }
      asked := fun i call pc hcall => by cases i <;> cases hcall
      contracts := hstands.contracts
      readable := hreadable }
  applying _ _ _ hpc := by cases hpc
  codes n address := by
    have hnone : committedPlain base (([] : List (Applied R)).take n) = base.plain := by
      rw [List.take_nil]
      rfl
    show (committedPlain base (([] : List (Applied R)).take n) address).CodeKnown _ _
    rw [hnone]
    exact hstands.code address

end

/-! ## What the reads find -/

section

variable {base : Base Err} {codeOf : B256 → Bytecode} {mv : MVMemory}
  {history : Nat → EntryState} {B : Backing Err} {s : Shared W R B} {m n t : Nat}
  {l : LocationAndType} {address : Address}

/-- A view without a write of the location, or the location is written. -/
theorem latest_or_written (base : Base Err) (l : LocationAndType) (hn : m ≤ n) (ht : m ≤ t) :
    (base.view s.mvMemory s.history m).latest l = none ∨ s.Written n t l := by
  cases hl : MVMemory.latestBefore (s.mvMemory l) m with
  | none => exact .inl (by simp only [Base.view, hl, Option.map_none])
  | some found =>
    have hlt := MVMemory.latestBefore_lt hl
    exact .inr ⟨found.1, found.2, Nat.lt_of_lt_of_le hlt hn, Nat.lt_of_lt_of_le hlt ht,
      MVMemory.latestBefore_entry hl⟩

/-- An account that is as in a view without a write is that of the base. -/
theorem Base.gives_of_view {V : View Err} {q : Plain Err} {account : Option AccountInfo}
    (hover : V.Over base) (hne : address ≠ base.beneficiary)
    (hlatest : V.latest (.basic address) = none)
    (hbare : (V.account address).map (Option.map AccountInfo.bare) =
      q.basic.map (Option.map AccountInfo.bare)) (hq : q.basic = .ok account)
    (hknown : q.CodeKnown codeOf base.code) : base.Gives codeOf address account where
  bare := by
    rw [View.account, hover.beneficiary, if_neg hne, hlatest, hover.basic, hq] at hbare
    exact hbare
  code info code haccount he hcode := (hknown info (by rw [hq, haccount]) he).1 code hcode

theorem View.storageAt_of_unwritten {V : View Err} {index : U256} (hover : V.Over base)
    (hreset : V.latest (.storageReset address) = none)
    (hslot : V.latest (.storage address index) = none) :
    V.storageAt address index = base.storage address index := by
  simp only [View.storageAt, hreset, hslot, hover.storage]

/-- A deletion or a creation is published as a reset of the storage. -/
theorem writes_storageReset {beneficiary : Address} {account : Account} {state : EvmState}
    (snapshots : AList fun _ : Address => AccountBasic)
    (hlook : state.lookup address = some account) (ht : account.touched = true)
    (hclears : account.clears = true) :
    Writes beneficiary snapshots state (.storageReset address) .storageReset := by
  refine ⟨account, hlook, ?_⟩
  simp only [Account.clears, Bool.or_eq_true] at hclears
  unfold accountWrites
  cases hs : account.selfdestructed <;> cases hc : account.created <;>
    cases he : account.isEmpty <;>
    simp_all [FinalizedAccount.ofAccount, LocationAndType.address]

/-- The changed slots of an account that is left are published. -/
theorem writes_storage {beneficiary : Address} {account : Account} {state : EvmState}
    {info : AccountInfo} {index value : U256} (snapshots : AList fun _ : Address => AccountBasic)
    (hlook : state.lookup address = some account)
    (hinfo : (FinalizedAccount.ofAccount account).info? = some info)
    (hslot : (index, value) ∈ account.changedStorageSlots) :
    Writes beneficiary snapshots state (.storage address index) (.storage value) := by
  refine ⟨account, hlook, List.mem_append_right _ ?_⟩
  have hmem : ((.storage address index, .storage value) : Write) ∈
      account.changedStorageSlots.map fun slot => (.storage address slot.1, .storage slot.2) :=
    List.mem_map.mpr ⟨(index, value), hslot, rfl⟩
  unfold accountWrites
  cases hf : FinalizedAccount.ofAccount account with
  | unchanged | deleted =>
    rw [hf] at hinfo
    cases hinfo
  | created info | updated info => exact hmem

end

section

variable {blk : Block Err R} {base : Base Err} {codeOf : B256 → Bytecode}
  {σ : SchedulerState W R (parallelState db)} {results : List (SpeculativeResult R)}
  {p : Address → Plain Err} {n t : Nat}

/-- The change set that was applied is that of a sequential result. -/
theorem SerialCommits.settled_of_mem {commit : CommitThread R (parallelState db)}
    (h : SerialCommits blk codeOf base results commit)
    (hseq : blk.sequential codeOf base.plain n = some (results, p)) {a : Applied R}
    (ha : a ∈ commit.applied) (hn : commit.applied.length ≤ n) :
    a.txid < commit.applied.length ∧ ∃ x info, results[a.txid]? = some x ∧
      a.state = x.settled blk.beneficiary info := by
  obtain ⟨i, hi, rfl⟩ := List.mem_iff_getElem.mp ha
  have htxid := h.txids i _ (List.getElem?_eq_getElem hi)
  obtain ⟨results₁, p₁, x, info, hseq₁, hrun, -, -, hstate⟩ := h.applied _ ha
  rw [htxid] at hseq₁ hrun ⊢
  have hlt : i < results.length := by
    rw [Block.length_sequential hseq]
    exact Nat.lt_of_lt_of_le hi hn
  obtain ⟨results₂, p₂, hseq₂, hrun₂⟩ := Block.sequential_at hseq (List.getElem?_eq_getElem hlt)
  rw [hseq₁] at hseq₂
  cases hseq₂
  rw [hrun] at hrun₂
  exact ⟨hi, x, info, by rw [List.getElem?_eq_getElem hlt, Except.ok.inj hrun₂], hstate⟩

/-- What the commit in progress writes has been published: the reset of
the slots that are being removed, and the slots that are still to be
written. -/
theorem SharedCache.written (h : SharedCache blk codeOf base σ)
    (hpre : SerialPrefix blk codeOf base σ.shared n results p)
    (hcommits : SerialCommits blk codeOf base results σ.commit)
    (hn : σ.commit.applied.length ≤ n) (ht : σ.commit.applied.length ≤ t) (address : Address)
    (index : U256) :
    ((σ.commit.expect base address).cleared = true →
      σ.shared.Written n t (.storageReset address)) ∧
    (index ∈ (σ.commit.expect base address).unwritten →
      σ.shared.Written n t (.storage address index)) := by
  cases hidle : σ.commit.pc.applyingResult with
  | none =>
    rw [CommitThread.expect_of_idle hidle]
    constructor
    · intro hcleared
      cases hcleared
    · intro hmem
      cases hmem
  | some result =>
    obtain ⟨previous, pc, hpc⟩ := CommitLoopPc.eq_applying hidle
    obtain ⟨before, a, hlast, hok, hwriting⟩ := h.applying _ _ _ hpc
    obtain ⟨hlt, x, info, hx, hstate⟩ := hcommits.settled_of_mem hpre.sequential
      (by simp [hlast] : a ∈ σ.commit.applied) hn
    obtain ⟨snapshots, hwritten⟩ := hpre.written a.txid x hx
    have hpublished : ∀ {l value}, Writes base.beneficiary snapshots x.state l value →
        σ.shared.Written n t l := by
      intro l value hwrites
      obtain ⟨e, he⟩ := hwritten l value hwrites
      exact ⟨a.txid, e, Nat.lt_of_lt_of_le hlt hn, Nat.lt_of_lt_of_le hlt ht, he⟩
    rw [CommitThread.expect_of_applying hpc]
    -- neither clears the account of a reward its slots, nor has it any
    have hreset : ∀ {address account}, a.state.lookup address = some account →
        account.touched = true → account.clears = true →
        σ.shared.Written n t (.storageReset address) := by
      intro address account hlook htouched hclears
      rw [hstate] at hlook
      rcases SpeculativeResult.lookup_settled hlook with hlook | ⟨reward, rfl⟩
      · exact hpublished (writes_storageReset snapshots hlook htouched hclears)
      · simp [Account.clears, Account.markTouch, Account.ofInfo, Account.isEmpty,
          reward.isEmpty_applyTo] at hclears
    have hslot : ∀ {address account}, a.state.lookup address = some account →
        (FinalizedAccount.ofAccount account).info? = some account.info →
        index ∈ account.changedStorageSlots.map Prod.fst →
        σ.shared.Written n t (.storage address index) := by
      intro address account hlook hinfo hmem
      obtain ⟨⟨index, value⟩, hchanged, rfl⟩ := List.mem_map.mp hmem
      rw [hstate] at hlook
      rcases SpeculativeResult.lookup_settled hlook with hlook | ⟨reward, rfl⟩
      · exact hpublished (writes_storage snapshots hlook hinfo hchanged)
      · cases hchanged
    refine ⟨fun hcleared => ?_, fun hmem => ?_⟩
    · cases pc with
      | change a' account accounts =>
        obtain ⟨ha, hclears⟩ := (Bool.and_eq_true _ _).mp hcleared
        obtain rfl := eq_of_beq ha
        exact hreset (hok.pending (a', account) (.head _)) hok.current hclears
      | _ => cases hcleared
    · cases pc with
      | contract a' account accounts =>
        simp only [ApplyPc.expect, ApplyPc.unwritten] at hmem
        split at hmem
        · rename_i ha
          subst ha
          exact hslot hwriting.1 (by rw [hwriting.2]; rfl) hmem
        · cases hmem
      | slots a' left accounts =>
        simp only [ApplyPc.expect, ApplyPc.unwritten] at hmem
        split at hmem
        · rename_i ha
          subst ha
          obtain ⟨account, hlook, hinfo, hsub⟩ := hwriting
          obtain ⟨slot, hslot', rfl⟩ := List.mem_map.mp hmem
          exact hslot hlook hinfo (List.mem_map.mpr ⟨slot, hsub hslot', rfl⟩)
        · cases hmem
      | _ => cases hmem

/-- What has been applied is final. -/
theorem SerialCommits.applied_le (hcommits : SerialCommits blk codeOf base results σ.commit)
    (hcore : Core σ) (hinv : CommitInv blk σ) : σ.commit.applied.length ≤ σ.finality.idx := by
  rw [hcommits.length]
  exact (Nat.add_le_add_left σ.commit.pc.passed_le_inner _).trans (hinv.inner_le hcore)

/-- A transaction that is being executed is not final. -/
theorem Core.finality_le_txid {w : W} {v : TxVersion} {pc : ExecPc R (parallelState db)}
    (hcore : Core σ) (hw : σ.workers w = .exec v pc) : σ.finality.idx ≤ v.txid := by
  by_contra hlt
  exact hcore.owned_not_final (w := w) (by rw [hw]; rfl)
    ((hcore.final v.txid).mpr (Nat.lt_of_not_le hlt))

/-- **What a worker finds.** A value that ends a call of a worker to the
cache is the one of the start of the block, or a final transaction before
its own has written the location. -/
theorem SharedCache.served (h : SharedCache blk codeOf base σ)
    (hserial : Serial blk codeOf base σ) (hcore : Core σ) (hinv : CommitInv blk σ) {w : W}
    {v : TxVersion} {idb : IncarnationDb} {k : Except Err Value → Prog Err R}
    {pc : CallPc (parallelState db)} (hw : σ.workers w = .exec v (.running idb k pc)) :
    pc.Served base codeOf (σ.shared.Written σ.finality.idx v.txid) σ.shared.backing := by
  obtain ⟨results, p, hpre, hcommits⟩ := hserial
  have hn := hcommits.applied_le hcore hinv
  have ht := hn.trans (hcore.finality_le_txid hw)
  have hcalls : σ.calls blk (some w) = pc.calling := by
    rw [SchedulerState.calls, hw]
    rfl
  cases pc with
  | basicBacking address pc =>
    intro hne cache account hb
    have hfound := h.serves.basic hcalls hb
    obtain ⟨m, hm, hplain⟩ := σ.commit.plain_expect base address
    obtain ⟨results', q, hseq⟩ := Block.sequential_of_le hpre.sequential (hm.trans hn)
    rw [hplain] at hfound
    refine (latest_or_written base (.basic address) (hm.trans hn) (hm.trans ht)).imp_left
      fun hlatest => Base.gives_of_view Base.view_over hne hlatest ?_ hfound.symm
        (h.codes m address)
    rw [((hpre.views m results' q (hm.trans hn) hseq).account address).bare]
    exact ((hcommits.alike_take hm hseq).bare address).symm
  | codeBacking address info pc =>
    intro he cache code hb
    exact h.serves.code hcalls (by simpa [AccountInfo.isEmptyCodeHash] using he) hb
  | storageBacking address index pc =>
    intro cache value hb
    have hadmits := h.serves.storage hcalls hb
    obtain ⟨hreset, hslot⟩ := h.written hpre hcommits hn ht address index
    cases hcleared : (σ.commit.expect base address).cleared with
    | true => exact .inr (.inr (hreset hcleared))
    | false =>
      rw [Expect.Admits, hcleared, if_neg (by simp)] at hadmits
      by_cases hmem : index ∈ (σ.commit.expect base address).unwritten
      · exact .inr (.inl (hslot hmem))
      · obtain ⟨m, hm, hplain⟩ := σ.commit.plain_expect base address
        obtain ⟨results', q, hseq⟩ := Block.sequential_of_le hpre.sequential (hm.trans hn)
        have hstorage := (hpre.views m results' q (hm.trans hn) hseq).storage address index
        have hvalue := hadmits hmem
        rw [hplain, (hcommits.alike_take hm hseq address).2, ← hstorage] at hvalue
        rcases latest_or_written base (.storageReset address) (hm.trans hn) (hm.trans ht) with
          hlatest | hwritten
        · refine (latest_or_written base (.storage address index) (hm.trans hn)
            (hm.trans ht)).imp (fun hlatest' => ?_) .inl
          exact (View.storageAt_of_unwritten Base.view_over hlatest hlatest').symm.trans hvalue
        · exact .inr (.inr hwritten)
  | _ => exact trivial

/-- A call of a worker fails only where the database does. -/
theorem CallPc.FailsWith.fails {pc : CallPc (parallelState db)} {cache : ParallelCacheState}
    {e : Err} (h : pc.FailsWith cache e) (beneficiary : Address) (anchor : Option AccountInfo) :
    (Base.ofState beneficiary anchor db {}).Fails e := by
  cases pc with
  | basicBacking address pc =>
    have h : (ParallelCacheState.basicLoadStep db cache pc).2 = .inr (.error e) := h
    cases pc with
    | lookup a => cases hl : cache.accounts a <;> simp [ParallelCacheState.basicLoadStep, hl] at h
    | database a =>
      cases hl : db.basic a <;> simp [ParallelCacheState.basicLoadStep, hl] at h
      exact .inl ⟨a, by simp [Base.ofState, ParallelCacheState.dbBasic, hl, h]⟩
    | insert a info => cases h
  | codeBacking address info pc =>
    have h : (ParallelCacheState.codeLoadStep db cache pc).2 = .inr (.error e) := h
    cases pc with
    | lookup hash =>
      cases hl : cache.contracts hash <;> simp [ParallelCacheState.codeLoadStep, hl] at h
    | database hash =>
      cases hl : db.code hash <;> simp [ParallelCacheState.codeLoadStep, hl] at h
      exact .inr (.inl ⟨hash, by simp [Base.ofState, ParallelCacheState.dbCodeByHash, hl, h]⟩)
    | insert hash code => cases h
  | storageBacking address index pc =>
    have h : (ParallelCacheState.storageLoadStep db cache pc).2 = .inr (.error e) := h
    cases pc with
    | slot a i =>
      cases hl : cache.storage a i <;> simp [ParallelCacheState.storageLoadStep, hl] at h
    | status a i =>
      cases hl : cache.isStorageKnown a <;> simp [ParallelCacheState.storageLoadStep, hl] at h
    | database a i =>
      cases hl : db.storage a i <;> simp [ParallelCacheState.storageLoadStep, hl] at h
      refine .inr (.inr ⟨a, i, ?_⟩)
      simp [Base.ofState, ParallelCacheState.dbStorage, ParallelCacheState.isStorageKnown, hl, h]
    | insert a i v => cases h
  | _ => exact h.elim

/-- Outside of a commit the cache stands for the accounts that have been
committed. -/
theorem SharedCache.standsFor (h : SharedCache blk codeOf base σ)
    (hidle : σ.commit.pc.applyingResult = none) :
    ParallelCacheState.StandsFor db codeOf base.code σ.shared.backing
      (committedPlain base σ.commit.applied) where
  coherent address := by
    have hcoherent := h.serves.ok.coherent address
    rwa [CommitThread.expect_of_idle hidle] at hcoherent
  contracts := h.serves.contracts
  code address := by
    have hall := h.codes σ.commit.applied.length address
    rwa [List.take_length] at hall

theorem SharedCache.accessesOk {a : Action W} (h : SharedCache blk codeOf base σ)
    (hserial : Serial blk codeOf base σ) (hcore : Core σ) (hinv : CommitInv blk σ)
    (hstable : StableReads blk σ a) :
    AccessesOk blk codeOf base (Base.ofState blk.beneficiary blk.anchor db {}) σ a :=
  fun w v idb k pc ha hw =>
    { served := h.served hserial hcore hinv hw
      failed := fun _ he => he.fails _ _
      stable := hstable w v idb k pc ha hw }

theorem SharedCache.commitsRead {a : Action W} (h : SharedCache blk codeOf base σ) :
    CommitsRead blk base σ a :=
  fun _ _ _ _ _ hreading hb => by rw [h.basic_commit hreading hb]

end

end Grevm
