/-
Grevm.Scheduler.CachedAccounts — ordered commit finds its accounts.

`apply_account_state` takes the cache entry of every touched account with
`get_account_mut`, which panics on an account the cache does not hold. A
read that the multi-version memory answers does not touch the cache, so
an incarnation may touch an account it has never loaded. The account is
there all the same: a `Basic` entry exists only for an account its writer
had touched, the writer had read that account before, and the first
incarnation of such a chain has loaded it. The beneficiary is loaded
before the threads start. Entries leave the multi-version memory and
results are replaced, but no step removes an account from the cache.
-/
import Grevm.ParallelState
import Grevm.Scheduler.Steps

namespace Grevm

/-! ## Accounts of the cache -/

/-- The address whose account a load is for. -/
def BasicLoadPc.address : BasicLoadPc → Address
  | .lookup address | .database address | .insert address _ => address

namespace ParallelCacheState

variable {Err : Type} {db : Database Err} {cache cache' : ParallelCacheState}

theorem growsTo_insertLoaded {address : Address} {info : Option AccountInfo} :
    cache.GrowsTo (cache.insertLoaded address info).1 := by
  unfold insertLoaded
  split
  · exact .of_eq rfl
  · exact growsTo_setAccount

theorem hasAccount_insertLoaded {address : Address} {info : Option AccountInfo} :
    (cache.insertLoaded address info).1.HasAccount address := by
  unfold insertLoaded
  split
  · simp [HasAccount, *]
  · simp [HasAccount, setAccount]

theorem growsTo_basicLoadStep {pc : BasicLoadPc}
    {next : BasicLoadPc ⊕ Except Err (Option AccountInfo)}
    (h : cache.basicLoadStep db pc = (cache', next)) : cache.GrowsTo cache' := by
  cases pc with
  | lookup address | database address =>
    simp only [basicLoadStep] at h
    split at h <;> cases h <;> exact .of_eq rfl
  | insert address info =>
    cases h
    exact growsTo_insertLoaded

theorem growsTo_codeLoadStep {pc : CodeLoadPc} {next : CodeLoadPc ⊕ Except Err Bytecode}
    (h : cache.codeLoadStep db pc = (cache', next)) : cache.GrowsTo cache' := by
  cases pc with
  | lookup codeHash | database codeHash =>
    simp only [codeLoadStep] at h
    split at h <;> cases h <;> exact .of_eq rfl
  | insert codeHash code =>
    simp only [codeLoadStep, insertCode] at h
    split at h <;> cases h <;> exact .of_eq rfl

theorem growsTo_storageLoadStep {pc : StorageLoadPc} {next : StorageLoadPc ⊕ Except Err U256}
    (h : cache.storageLoadStep db pc = (cache', next)) : cache.GrowsTo cache' := by
  cases pc with
  | slot address index | status address index | database address index =>
    simp only [storageLoadStep] at h
    split at h <;> cases h <;> exact .of_eq rfl
  | insert address index value =>
    simp only [storageLoadStep, insertSlot] at h
    split at h <;> cases h <;> exact .of_eq rfl

theorem growsTo_applyStep {c : Nat} {pc : ApplyPc} {next : Option ApplyPc}
    (h : cache.applyStep c pc = some (cache', next)) : cache.GrowsTo cache' := by
  rcases accounts_applyStep h with heq | ⟨address, account, current, -, heq⟩
  · exact .of_eq heq
  · intro a hmem
    have hset : cache'.accounts a =
        (cache.setAccount address (changeAccount account current)).accounts a := congrFun heq a
    simpa [HasAccount, hset] using growsTo_setAccount a hmem

/-- A load stays with its address. -/
theorem address_basicLoadStep {pc pc' : BasicLoadPc}
    (h : cache.basicLoadStep db pc = (cache', .inl pc')) : pc'.address = pc.address := by
  cases pc with
  | lookup address | database address =>
    simp only [basicLoadStep] at h
    split at h <;> cases h
    rfl
  | insert address info => cases h

/-- A load that returns an account leaves it in the cache. -/
theorem hasAccount_basicLoadStep {pc : BasicLoadPc} {info : Option AccountInfo}
    (h : cache.basicLoadStep db pc = (cache', .inr (.ok info))) :
    cache'.HasAccount pc.address := by
  cases pc with
  | lookup address =>
    simp only [basicLoadStep] at h
    split at h <;> cases h
    simp [HasAccount, BasicLoadPc.address, *]
  | database address =>
    simp only [basicLoadStep] at h
    split at h <;> cases h
  | insert address info =>
    cases h
    exact hasAccount_insertLoaded

end ParallelCacheState

/-! ## Reads of an incarnation -/

section Reads

variable {Err : Type} {db : Database Err} {cache cache' : ParallelCacheState}

/-- `Basic` entries are only for accounts of the cache. -/
def MVMemory.BasicCached (mv : MVMemory) (cache : ParallelCacheState) : Prop :=
  ∀ address txid, (mv (.basic address) txid).isSome → cache.HasAccount address

/-- Past the read of the account itself, the account is in the cache;
before it, the load that may follow is for this account. -/
def CallPc.Cached (cache : ParallelCacheState) : CallPc (parallelState db) → Prop
  | .basicScan address _ | .codeMv address _ | .codeBacking address _ _ =>
    cache.HasAccount address
  | .basicBacking address pc => BasicLoadPc.address pc = address
  | _ => True

theorem CallPc.Cached.mono {pc : CallPc (parallelState db)} (hgrow : cache.GrowsTo cache')
    (h : pc.Cached cache) : pc.Cached cache' := by
  cases pc with
  | basicScan address scan | codeMv address info | codeBacking address info pc =>
    exact hgrow address h
  | basicBacking address pc => exact h
  | _ => trivial

/-- A read of the beneficiary needs it in the cache from the start. -/
theorem CallPc.cached_start {beneficiary : Address} (h : cache.HasAccount beneficiary)
    (txid : Nat) (call : Call) :
    (call.start beneficiary txid : CallPc (parallelState db)).Cached cache := by
  cases call with
  | basic address =>
    simp only [Call.start]
    split
    · rename_i heq
      exact heq ▸ h
    · trivial
  | storage address index => trivial

/-- A read answered from the multi-version memory is of an account in
the cache. -/
theorem hasAccount_of_lookup {mv : MVMemory} {txid writer : Nat} {address : Address}
    {entry : MemoryEntry} (hmv : mv.BasicCached cache)
    (h : lookup mv txid (.basic address) = some (writer, entry)) : cache.HasAccount address := by
  have hlatest := (Option.filter_eq_some_iff.mp h).1
  have hentry := (MVMemory.latestBefore_eq_some_iff.mp hlatest).2.1
  exact hmv address writer (by simp [hentry])

/-- What one access of a read leaves behind. -/
structure CallMoves (cache' : ParallelCacheState) (pc : CallPc (parallelState db))
    (next : CallPc (parallelState db) ⊕ Except Err Value) : Prop where
  point : ∀ pc', next = .inl pc' → pc'.Cached cache' ∧ pc'.call = pc.call
  answer : ∀ answer, next = .inr (.ok answer) → ∀ address, pc.call = .basic address →
    cache'.HasAccount address

/-- The account is known and in the cache: the read goes on to its code
or answers. -/
theorem callMoves_finishBasic {pc : CallPc (parallelState db)} {address : Address}
    (account : Option AccountInfo) (hcall : pc.call = .basic address)
    (h : cache'.HasAccount address) :
    CallMoves cache' pc (finishBasic address account) := by
  have hanswer : ∀ a, pc.call = .basic a → cache'.HasAccount a := by
    intro a ha
    rw [hcall] at ha
    cases ha
    exact h
  refine ⟨fun pc' hpc' => ?_, fun _ _ => hanswer⟩
  simp only [finishBasic] at hpc'
  split at hpc'
  · split at hpc' <;> cases hpc'
    exact ⟨h, hcall.symm⟩
  · cases hpc'

theorem CallMoves.of_point {pc pc' : CallPc (parallelState db)} (hpc' : pc'.Cached cache')
    (hcall : pc'.call = pc.call) : CallMoves cache' pc (.inl pc') := by
  refine ⟨fun next hnext => ?_, nofun⟩
  cases hnext
  exact ⟨hpc', hcall⟩

theorem CallMoves.of_answer {pc : CallPc (parallelState db)} {address : Address}
    (hcall : pc.call = .basic address) (h : cache'.HasAccount address)
    (answer : Except Err Value) : CallMoves cache' pc (.inr answer) := by
  refine ⟨nofun, fun _ _ a ha => ?_⟩
  rw [hcall] at ha
  cases ha
  exact h

theorem CallMoves.of_error {pc : CallPc (parallelState db)} (e : Err) :
    CallMoves cache' pc (.inr (.error e)) :=
  ⟨nofun, nofun⟩

/-- A slot read says nothing about accounts. -/
theorem CallMoves.of_slot {pc : CallPc (parallelState db)} {address : Address} {index : U256}
    (hcall : pc.call = .storage address index) (answer : Except Err Value) :
    CallMoves cache' pc (.inr answer) := by
  refine ⟨nofun, fun _ _ a ha => ?_⟩
  rw [hcall] at ha
  cases ha

/-- One access of a read keeps the accounts of the cache, and a read of
an account that answers has it there. -/
theorem callStep_cached {anchor : Option AccountInfo} {txid : Nat} {mv : MVMemory}
    {history : Nat → EntryState} {idb idb' : IncarnationDb} {pc : CallPc (parallelState db)}
    {next : CallPc (parallelState db) ⊕ Except Err Value} (hmv : mv.BasicCached cache)
    (hpc : pc.Cached cache)
    (h : callStep anchor txid mv history cache idb pc = (cache', idb', next)) :
    cache.GrowsTo cache' ∧ CallMoves cache' pc next := by
  have same : cache.GrowsTo cache := .of_eq rfl
  cases callStep_sound h with
  | visit => exact ⟨same, .of_point hpc rfl⟩
  | resolve _ hnext => exact ⟨same, hnext ▸ callMoves_finishBasic _ rfl hpc⟩
  | block => exact ⟨same, .of_answer rfl hpc _⟩
  | basicHit hl _ hnext =>
    exact ⟨same, hnext ▸ callMoves_finishBasic _ rfl (hasAccount_of_lookup hmv hl)⟩
  | basicMiss => exact ⟨same, .of_point rfl rfl⟩
  | basicMore hb =>
    exact ⟨ParallelCacheState.growsTo_basicLoadStep hb,
      .of_point ((ParallelCacheState.address_basicLoadStep hb).trans hpc) rfl⟩
  | basicFails hb => exact ⟨ParallelCacheState.growsTo_basicLoadStep hb, .of_error _⟩
  | @basicLoads address pc _ _ _ hb hnext =>
    have haddress : BasicLoadPc.address pc = address := hpc
    have hmem := ParallelCacheState.hasAccount_basicLoadStep hb
    exact ⟨ParallelCacheState.growsTo_basicLoadStep hb,
      hnext ▸ callMoves_finishBasic _ rfl (haddress ▸ hmem)⟩
  | codeHit => exact ⟨same, .of_answer rfl hpc _⟩
  | codeMiss => exact ⟨same, .of_point hpc rfl⟩
  | codeMore hb =>
    have hgrow := ParallelCacheState.growsTo_codeLoadStep hb
    exact ⟨hgrow, .of_point (hgrow _ hpc) rfl⟩
  | codeFails hb => exact ⟨ParallelCacheState.growsTo_codeLoadStep hb, .of_error _⟩
  | codeLoads hb =>
    have hgrow := ParallelCacheState.growsTo_codeLoadStep hb
    exact ⟨hgrow, .of_answer rfl (hgrow _ hpc) _⟩
  | reset | slotMiss => exact ⟨same, .of_point trivial rfl⟩
  | slotHit | slotCleared => exact ⟨same, .of_slot rfl (.ok _)⟩
  | storageMore hb =>
    exact ⟨ParallelCacheState.growsTo_storageLoadStep hb, .of_point trivial rfl⟩
  | storageFails hb =>
    exact ⟨ParallelCacheState.growsTo_storageLoadStep hb, .of_slot rfl (.error _)⟩
  | storageLoads hb =>
    exact ⟨ParallelCacheState.growsTo_storageLoadStep hb, .of_slot rfl (.ok _)⟩

end Reads

/-! ## Publications -/

namespace Publishing

variable {cache cache' : ParallelCacheState} {beneficiary : Address}
  {snapshots : AList (fun _ : Address => AccountBasic)} {p p' : Publishing} {c : Nat}

/-- `Basic` entries still to be published, and touched accounts not
reached yet, are of accounts in the cache. -/
structure Cached (cache : ParallelCacheState) (p : Publishing) : Prop where
  writes : ∀ write ∈ p.first ++ p.slots, ∀ address, write.1 = .basic address →
    cache.HasAccount address
  accounts : ∀ entry ∈ p.accounts, entry.2.touched = true → cache.HasAccount entry.1

theorem Cached.mono (hgrow : cache.GrowsTo cache') (h : p.Cached cache) : p.Cached cache' :=
  ⟨fun write hw address heq => hgrow address (h.writes write hw address heq),
    fun entry he htouched => hgrow entry.1 (h.accounts entry he htouched)⟩

theorem cached_start {state : EvmState} (h : cache.Covers state) :
    (Publishing.start state).Cached cache := by
  refine ⟨fun write hw => absurd hw (by simp [Publishing.start]), fun entry he => ?_⟩
  simp only [Publishing.start, List.mem_map] at he
  obtain ⟨e, hmem, rfl⟩ := he
  exact h e.1 e.2 (AList.mem_lookup_iff.mpr hmem)

/-- The only `Basic` entry of an account is its own, and an account that
was not touched publishes nothing. -/
theorem basic_mem_accountWrites {snapshot : Option AccountBasic} {address a : Address}
    {account : Account} {write : Write}
    (hw : write ∈ (accountWrites beneficiary snapshot address account).1 ++
      (accountWrites beneficiary snapshot address account).2)
    (h : write.1 = .basic a) : a = address ∧ account.touched = true := by
  obtain ⟨location, value⟩ := write
  subst h
  cases htouched : account.touched with
  | false => simp [accountWrites, FinalizedAccount.ofAccount, htouched] at hw
  | true =>
    cases hf : FinalizedAccount.ofAccount account <;> simp [accountWrites, hf] at hw <;> tauto

theorem Cached.next {write : Option Write} (h : p.Cached cache)
    (hnext : p.next beneficiary snapshots c = some (write, p')) :
    p'.Cached cache ∧ ∀ w, write = some w → w ∈ p.first ++ p.slots := by
  unfold Publishing.next at hnext
  split at hnext
  · rename_i w first hfirst
    cases hnext
    refine ⟨⟨fun write hw => h.writes write ?_, h.accounts⟩, ?_⟩
    · rw [hfirst]
      exact List.mem_cons_of_mem _ hw
    · intro w' hw'
      cases hw'
      simp [hfirst]
  · rename_i hfirst
    split at hnext
    · obtain ⟨⟨⟨address, account⟩, accounts⟩, hpick, heq⟩ := Option.map_eq_some_iff.mp hnext
      cases heq
      have hmem := mem_of_pick? hpick
      refine ⟨⟨fun write hw a ha => ?_, fun entry he => ?_⟩, nofun⟩
      · obtain ⟨rfl, htouched⟩ := basic_mem_accountWrites hw ha
        exact h.accounts (a, account) ((hmem _).mpr (.inl rfl)) htouched
      · exact h.accounts entry ((hmem _).mpr (.inr he))
    · obtain ⟨⟨w, slots⟩, hpick, heq⟩ := Option.map_eq_some_iff.mp hnext
      cases heq
      have hmem := mem_of_pick? hpick
      refine ⟨⟨fun write hw => h.writes write ?_, h.accounts⟩, ?_⟩
      · simp only [hfirst, List.nil_append] at hw ⊢
        exact (hmem _).mpr (.inr hw)
      · intro w' hw'
        cases hw'
        simp only [hfirst, List.nil_append]
        exact (hmem _).mpr (.inl rfl)

end Publishing

/-! ## Workers -/

/-- Every touched account of a finalized change set was loaded through
`Database::basic` in that incarnation, or is the beneficiary. -/
def Block.LoadsTouched {Err R : Type} (blk : Block Err R) : Prop :=
  ∀ txid log result, (blk.spec txid).follow log = some (.done (.ok result)) →
    ∀ address account, result.state.lookup address = some account → account.touched = true →
      address = blk.beneficiary ∨ ∃ answer, (Call.basic address, .ok answer) ∈ log

section Workers

variable {Err W R : Type} {db : Database Err} {blk : Block Err R}
  {cache cache' : ParallelCacheState} {s s' : Shared W R (parallelState db)}

/-- The accounts that a list of answered reads has loaded are in the
cache. -/
def LogCached (cache : ParallelCacheState) (log : List (Call × Except Err Value)) : Prop :=
  ∀ address answer, (Call.basic address, .ok answer) ∈ log → cache.HasAccount address

theorem LogCached.mono {log : List (Call × Except Err Value)} (hgrow : cache.GrowsTo cache')
    (h : LogCached cache log) : LogCached cache' log :=
  fun address answer hmem => hgrow address (h address answer hmem)

/-- An execution has loaded what its reads so far returned, and the
change set it ends with is covered. -/
def ExecPc.Cached (blk : Block Err R) (cache : ParallelCacheState) (txid : Nat) :
    ExecPc R (parallelState db) → Prop
  | .running _ k pc => pc.Cached cache ∧
      ∃ log, (blk.spec txid).follow log = some (.read pc.call k) ∧ LogCached cache log
  | .publishing _ result p => cache.Covers result.state ∧ p.Cached cache
  | .removing e _ | .recording e | .blockerLoad e | .adding e _ _ | .releasing e _
  | .settling e _ => cache.Covers e.result.state
  | _ => True

def WorkerPc.Cached (blk : Block Err R) (cache : ParallelCacheState) :
    WorkerPc R (parallelState db) → Prop
  | .exec version pc => pc.Cached blk cache version.txid
  | _ => True

theorem ExecPc.Cached.mono {txid : Nat} {pc : ExecPc R (parallelState db)}
    (hgrow : cache.GrowsTo cache') (h : pc.Cached blk cache txid) :
    pc.Cached blk cache' txid := by
  cases pc with
  | running idb k pc =>
    obtain ⟨hpc, log, hfollow, hlog⟩ := h
    exact ⟨hpc.mono hgrow, log, hfollow, hlog.mono hgrow⟩
  | publishing idb result p => exact ⟨h.1.mono hgrow, h.2.mono hgrow⟩
  | removing e remaining | recording e | blockerLoad e | adding e blocker pc | releasing e pc
  | settling e next => exact ParallelCacheState.Covers.mono hgrow h
  | _ => trivial

theorem WorkerPc.Cached.mono {p : WorkerPc R (parallelState db)} (hgrow : cache.GrowsTo cache')
    (h : p.Cached blk cache) : p.Cached blk cache' := by
  cases p with
  | exec version pc => exact ExecPc.Cached.mono hgrow h
  | _ => trivial

/-- The shared state: the beneficiary is loaded, and `Basic` entries and
results are only about accounts of the cache. -/
structure SharedCached (blk : Block Err R) (s : Shared W R (parallelState db)) : Prop where
  beneficiary : ParallelCacheState.HasAccount s.backing blk.beneficiary
  memory : s.mvMemory.BasicCached s.backing
  results : ∀ t r x, s.txResults t = some r → r.executeResult = .ok x →
    ParallelCacheState.Covers s.backing x.state

theorem SharedCached.of_eq (h : SharedCached blk s) (hbacking : s'.backing = s.backing)
    (hmemory : s'.mvMemory = s.mvMemory) (hresults : s'.txResults = s.txResults) :
    SharedCached blk s' := by
  obtain ⟨hb, hm, hr⟩ := h
  rw [← hbacking] at hb hm hr
  rw [← hmemory] at hm
  rw [← hresults] at hr
  exact ⟨hb, hm, hr⟩

/-- A step of a call to the backing state. -/
theorem SharedCached.grow {backing : (parallelState db).State} (h : SharedCached blk s)
    (hgrow : ParallelCacheState.GrowsTo s.backing backing) :
    SharedCached blk ({ s with backing } : Shared W R (parallelState db)) where
  beneficiary := hgrow _ h.beneficiary
  memory address txid hentry := hgrow address (h.memory address txid hentry)
  results t r x hr hx := (h.results t r x hr hx).mono hgrow

/-- An entry of the multi-version memory is replaced or leaves. -/
theorem SharedCached.setMemory {mvMemory : MVMemory} (h : SharedCached blk s)
    (hmem : ∀ address txid, (mvMemory (.basic address) txid).isSome →
      (s.mvMemory (.basic address) txid).isSome ∨
        ParallelCacheState.HasAccount s.backing address) :
    SharedCached blk { s with mvMemory } where
  beneficiary := h.beneficiary
  memory address txid hentry := (hmem address txid hentry).elim (h.memory address txid) id
  results := h.results

theorem SharedCached.setResult {t : Nat} {result : Option (TransactionResult Err R)}
    (h : SharedCached blk s)
    (hresult : ∀ r x, result = some r → r.executeResult = .ok x →
      ParallelCacheState.Covers s.backing x.state) :
    SharedCached blk (s.setResult t result) where
  beneficiary := h.beneficiary
  memory := h.memory
  results t' r x hr hx := by
    by_cases ht : t' = t
    · subst ht
      exact hresult r x (by simpa using hr) hx
    · exact h.results t' r x (by simpa [Function.update_of_ne ht] using hr) hx

/-- The next program point of an execution whose reads have loaded their
accounts. -/
theorem enterExec_cached {txid : Nat} {idb : IncarnationDb} {prog : Prog Err R}
    (log : List (Call × Except Err Value)) (hload : blk.LoadsTouched) (h : SharedCached blk s)
    (hfollow : (blk.spec txid).follow log = some prog) (hlog : LogCached s.backing log) :
    (enterExec blk s txid idb prog).Cached blk s.backing txid := by
  cases prog with
  | read call k =>
    refine ⟨CallPc.cached_start h.beneficiary txid call, log, ?_, hlog⟩
    rw [CallPc.call_start]
    exact hfollow
  | done result =>
    cases result with
    | error e => trivial
    | ok result =>
      have hcovers : ParallelCacheState.Covers s.backing result.state := by
        intro address account hlookup htouched
        rcases hload txid log result hfollow address account hlookup htouched with
          rfl | ⟨answer, hmem⟩
        · exact h.beneficiary
        · exact hlog address answer hmem
      exact ⟨hcovers, Publishing.cached_start hcovers⟩

/-- What a step of a worker keeps. -/
structure WorkerKeeps (blk : Block Err R) (s s' : Shared W R (parallelState db))
    (p' : WorkerPc R (parallelState db)) : Prop where
  grows : ParallelCacheState.GrowsTo s.backing s'.backing
  shared : SharedCached blk s'
  point : p'.Cached blk s'.backing

/-- A step that changes neither the cache nor what speaks about it. -/
theorem WorkerKeeps.of_eq {p' : WorkerPc R (parallelState db)} (h : SharedCached blk s)
    (hbacking : s'.backing = s.backing) (hmemory : s'.mvMemory = s.mvMemory)
    (hresults : s'.txResults = s.txResults) (hp' : p'.Cached blk s.backing) :
    WorkerKeeps blk s s' p' := by
  refine ⟨?_, h.of_eq hbacking hmemory hresults, ?_⟩
  · rw [hbacking]
    exact .of_eq rfl
  · rw [hbacking]
    exact hp'

theorem finishExec_keeps {v : TxVersion} {tail : ExecTail} (h : SharedCached blk s)
    {ctx : SchedulerContext} :
    WorkerKeeps blk s (finishExec { s with ctx } v tail).1 (finishExec { s with ctx } v tail).2 := by
  cases tail <;> exact .of_eq h rfl rfl rfl trivial

/-- Marking or removing an entry adds none. -/
theorem SharedCached.removeEntry {l : LocationAndType} {t : Nat} (h : SharedCached blk s) :
    SharedCached blk { s with mvMemory := s.mvMemory.remove l t } := by
  refine h.setMemory fun address txid hentry => .inl ?_
  unfold MVMemory.remove at hentry
  split at hentry
  · cases hentry
  · exact hentry

theorem SharedCached.markEntry {l : LocationAndType} {t : Nat} (h : SharedCached blk s) :
    SharedCached blk { s with mvMemory := s.mvMemory.markEstimate l t } := by
  refine h.setMemory fun address txid hentry => .inl ?_
  unfold MVMemory.markEstimate at hentry
  split at hentry
  · simpa using hentry
  · exact hentry

theorem SharedCached.insertEntry {l : LocationAndType} {t : Nat} {entry : MemoryEntry}
    (h : SharedCached blk s)
    (hl : ∀ address, l = .basic address → ParallelCacheState.HasAccount s.backing address) :
    SharedCached blk { s with mvMemory := s.mvMemory.insert l t entry } := by
  refine h.setMemory fun address txid hentry => ?_
  unfold MVMemory.insert at hentry
  split at hentry
  · rename_i heq
    exact .inr (hl address heq.1.symm)
  · exact .inl hentry

theorem ExecStep.cached {v : TxVersion} {pc : ExecPc R (parallelState db)}
    {p' : WorkerPc R (parallelState db)} (hload : blk.LoadsTouched) (h : SharedCached blk s)
    (hpc : pc.Cached blk s.backing v.txid) (hstep : ExecStep blk s v pc s' p') :
    WorkerKeeps blk s s' p' := by
  cases hstep with
  | read hcall =>
    obtain ⟨hpc, log, hfollow, hlog⟩ := hpc
    obtain ⟨hgrow, hmoves⟩ := callStep_cached h.memory hpc hcall
    obtain ⟨hpc', hsame⟩ := hmoves.point _ rfl
    exact ⟨hgrow, h.grow hgrow, hpc', log, hsame ▸ hfollow, hlog.mono hgrow⟩
  | @answer idb k pc backing idb' a hcall =>
    obtain ⟨hpc, log, hfollow, hlog⟩ := hpc
    obtain ⟨hgrow, hmoves⟩ := callStep_cached h.memory hpc hcall
    refine ⟨hgrow, h.grow hgrow,
      enterExec_cached (log ++ [(pc.call, a)]) hload (h.grow hgrow) ?_ ?_⟩
    · rw [Prog.follow_append hfollow]
      simp [Prog.follow]
    · intro address answer hmem
      rcases List.mem_append.mp hmem with hmem | hmem
      · exact hgrow address (hlog address answer hmem)
      · simp only [List.mem_singleton, Prod.mk.injEq] at hmem
        exact hmoves.answer answer (by rw [hmem.2]) address hmem.1.symm
  | publish hnext =>
    obtain ⟨hcovers, hp⟩ := hpc
    obtain ⟨hp', hmem⟩ := hp.next hnext
    exact ⟨.of_eq rfl, h.insertEntry (hp.writes _ (hmem _ rfl)), hcovers, hp'⟩
  | chooseAccount hnext =>
    obtain ⟨hcovers, hp⟩ := hpc
    exact .of_eq h rfl rfl rfl ⟨hcovers, (hp.next hnext).1⟩
  | compare => exact .of_eq h rfl rfl rfl hpc.1
  | unpublish => exact ⟨.of_eq rfl, h.removeEntry, hpc⟩
  | settle =>
    refine ⟨.of_eq rfl, (h.setResult ?_).of_eq rfl rfl rfl, trivial⟩
    intro r x hr hx
    cases hr
    cases hx
    exact hpc
  | errMark => exact ⟨.of_eq rfl, h.markEntry, trivial⟩
  | errRecord =>
    refine ⟨.of_eq rfl, (SharedCached.setResult (h.of_eq rfl rfl rfl) ?_).of_eq rfl rfl rfl, ?_⟩
    · intro r x hr hx
      cases hr
      cases hx
    · split <;> trivial
  | frontierFinish | rewindFinish => exact finishExec_keeps h
  | _ => first | exact .of_eq h rfl rfl rfl hpc | exact .of_eq h rfl rfl rfl trivial

theorem ValStep.cached {v : TxVersion} {pc : ValPc} {p' : WorkerPc R (parallelState db)}
    (h : SharedCached blk s) (hstep : ValStep blk s v pc s' p') : WorkerKeeps blk s s' p' := by
  cases hstep with
  | mark => exact ⟨.of_eq rfl, h.markEntry, trivial⟩
  | _ => exact .of_eq h rfl rfl rfl trivial

theorem WorkerPc.cached_of_isIdle {p : WorkerPc R (parallelState db)} (h : p.isIdle = true) :
    p.Cached blk cache := by
  cases p <;> trivial

theorem WorkerStep.cached {w : W} {p p' : WorkerPc R (parallelState db)}
    (hload : blk.LoadsTouched) (h : SharedCached blk s) (hp : p.Cached blk s.backing)
    (hstep : WorkerStep blk w s p s' p') : WorkerKeeps blk s s' p' := by
  cases hstep with
  | idle _ hp' | frontier _ _ hp' => exact .of_eq h rfl rfl rfl (WorkerPc.cached_of_isIdle hp')
  | busy | uselessRemoved =>
    refine .of_eq h rfl rfl rfl ?_
    unfold noTask
    split <;> trivial
  | execute =>
    refine .of_eq h rfl rfl rfl ?_
    exact enterExec_cached [] hload (h.of_eq rfl rfl rfl) rfl nofun
  | exec hs => exact hs.cached hload h hp
  | val hs => exact hs.cached h
  | _ => exact .of_eq h rfl rfl rfl trivial

end Workers

/-! ## The ordered commit -/

section Commit

variable {Err W R : Type} {db : Database Err} {blk : Block Err R}
  {cache cache' : ParallelCacheState} {s s' : Shared W R (parallelState db)}

/-- The touched accounts of a list are in the cache. -/
def TouchedCached (cache : ParallelCacheState) (accounts : List (Address × Account)) : Prop :=
  ∀ entry ∈ accounts, entry.2.touched = true → cache.HasAccount entry.1

theorem TouchedCached.mono {accounts : List (Address × Account)} (hgrow : cache.GrowsTo cache')
    (h : TouchedCached cache accounts) : TouchedCached cache' accounts :=
  fun entry he htouched => hgrow entry.1 (h entry he htouched)

/-- What a commit has still to change is in the cache. -/
def ApplyPc.Cached (cache : ParallelCacheState) : ApplyPc → Prop
  | .removeStorage address _ accounts | .change address _ accounts =>
    cache.HasAccount address ∧ TouchedCached cache accounts
  | .next accounts | .contract _ _ accounts | .slots _ _ accounts => TouchedCached cache accounts

theorem ApplyPc.Cached.mono {pc : ApplyPc} (hgrow : cache.GrowsTo cache') (h : pc.Cached cache) :
    pc.Cached cache' := by
  cases pc with
  | next accounts | contract address account accounts | slots address pending accounts =>
    exact TouchedCached.mono hgrow h
  | removeStorage address account accounts | change address account accounts =>
    exact ⟨hgrow address h.1, h.2.mono hgrow⟩

theorem touchedCached_entries {state : EvmState} (h : cache.Covers state) :
    TouchedCached cache (state.entries.map fun e => (e.1, e.2)) := by
  intro entry he htouched
  obtain ⟨e, hmem, rfl⟩ := List.mem_map.mp he
  exact h e.1 e.2 (AList.mem_lookup_iff.mpr hmem) htouched

/-- A commit goes on with accounts it had to change before. -/
theorem ApplyPc.Cached.applyStep {pc pc' : ApplyPc} {c : Nat} (h : pc.Cached cache)
    (hstep : cache.applyStep c pc = some (cache', some pc')) : pc'.Cached cache' := by
  refine ApplyPc.Cached.mono (ParallelCacheState.growsTo_applyStep hstep) ?_
  cases pc with
  | next accounts =>
    simp only [ParallelCacheState.applyStep] at hstep
    split at hstep
    · cases hstep
    · obtain ⟨⟨⟨address, account⟩, rest⟩, hpick, heq⟩ := Option.map_eq_some_iff.mp hstep
      have hmem := mem_of_pick? hpick
      have hrest : TouchedCached cache rest := fun entry he => h entry ((hmem _).mpr (.inr he))
      cases heq
      split
      · exact hrest
      · rename_i htouched
        have haddress : cache.HasAccount address :=
          h (address, account) ((hmem _).mpr (.inl rfl)) (by simpa using htouched)
        split <;> exact ⟨haddress, hrest⟩
  | removeStorage address account accounts =>
    cases hstep
    exact h
  | change address account accounts =>
    obtain ⟨current, -, heq⟩ := Option.map_eq_some_iff.mp hstep
    simp only [Prod.mk.injEq, Option.some.injEq] at heq
    obtain ⟨-, rfl⟩ := heq
    repeat' split
    all_goals exact h.2
  | contract address account accounts =>
    obtain ⟨_, -, heq⟩ := Option.map_eq_some_iff.mp hstep
    cases heq
    exact h
  | slots address pending accounts =>
    simp only [ParallelCacheState.applyStep] at hstep
    split at hstep
    · cases hstep
      exact h
    · obtain ⟨_, -, heq⟩ := Option.map_eq_some_iff.mp hstep
      cases heq
      exact h

/-- The commit loop holds a covered change set, and its look-up of the
beneficiary has not gone past the cache. -/
def CommitLoopPc.Cached (blk : Block Err R) (cache : ParallelCacheState) :
    CommitLoopPc R (parallelState db) → Prop
  | .nonce _ result _ => cache.Covers result.state
  | .reward _ result _ pc => cache.Covers result.state ∧ pc = BasicLoadPc.lookup blk.beneficiary
  | .applying _ _ pc => ApplyPc.Cached cache pc
  | _ => True

structure CommitCached (blk : Block Err R) (cache : ParallelCacheState)
    (t : CommitThread R (parallelState db)) : Prop where
  point : t.pc.Cached blk cache
  applied : ∀ commit ∈ t.applied, cache.Covers commit.state

variable {t t' : CommitThread R (parallelState db)}

theorem CommitCached.mono (hgrow : cache.GrowsTo cache') (h : CommitCached blk cache t) :
    CommitCached blk cache' t := by
  refine ⟨?_, fun commit hc => (h.applied commit hc).mono hgrow⟩
  have hpoint := h.point
  generalize t.pc = pc at hpoint
  cases pc with
  | nonce previous result pc => exact ParallelCacheState.Covers.mono hgrow hpoint
  | reward previous result amount pc => exact ⟨hpoint.1.mono hgrow, hpoint.2⟩
  | applying previous result pc => exact ApplyPc.Cached.mono hgrow hpoint
  | _ => trivial

/-- The loop goes on to a point that holds no change set. -/
theorem CommitCached.moveTo {pc : CommitLoopPc R (parallelState db)}
    (h : CommitCached blk cache t) (hpc : pc.Cached blk cache) :
    CommitCached blk cache { t with pc } :=
  ⟨hpc, h.applied⟩

theorem CommitCached.startApply {previous : Nat} {result : R} {state : EvmState}
    (h : CommitCached blk cache t) (hcovers : cache.Covers state) :
    CommitCached blk cache (Grevm.startApply t previous result state) := by
  refine ⟨touchedCached_entries hcovers, fun commit hc => ?_⟩
  rcases List.mem_append.mp hc with hc | hc
  · exact h.applied commit hc
  · simp only [List.mem_singleton] at hc
    exact hc ▸ hcovers

theorem CommitCached.startReward {previous : Nat} {result : SpeculativeResult R}
    (h : CommitCached blk cache t) (hcovers : cache.Covers result.state)
    (ht : Grevm.startReward blk t previous result = some t') : CommitCached blk cache t' := by
  unfold Grevm.startReward at ht
  split at ht
  · split at ht <;> cases ht
    exact h.moveTo ⟨hcovers, rfl⟩
  · cases ht
    exact h.startApply hcovers

/-- The change set with the reward is covered too. -/
theorem covers_withReward {beneficiary : Address} {amount : DeferredBeneficiaryReward}
    {info : Option AccountInfo} {state : EvmState} (h : cache.Covers state)
    (hmem : cache.HasAccount beneficiary) :
    cache.Covers (withReward beneficiary amount info state) := by
  intro address account hlookup htouched
  by_cases ha : address = beneficiary
  · exact ha ▸ hmem
  · exact h address account (by simpa [withReward, AList.lookup_insert_ne ha] using hlookup)
      htouched

/-- What a step of the commit loop keeps. -/
structure CommitKeeps (blk : Block Err R) (s s' : Shared W R (parallelState db))
    (t' : CommitThread R (parallelState db)) : Prop where
  grows : ParallelCacheState.GrowsTo s.backing s'.backing
  shared : SharedCached blk s'
  thread : CommitCached blk s'.backing t'

/-- A step that leaves the cache, the multi-version memory and the
results alone. -/
theorem CommitKeeps.of_eq (h : SharedCached blk s) (hbacking : s'.backing = s.backing)
    (hmemory : s'.mvMemory = s.mvMemory) (hresults : s'.txResults = s.txResults)
    (ht' : CommitCached blk s.backing t') : CommitKeeps blk s s' t' := by
  refine ⟨?_, h.of_eq hbacking hmemory hresults, ?_⟩
  · rw [hbacking]
    exact .of_eq rfl
  · rw [hbacking]
    exact ht'

/-- The loop takes a result. -/
theorem CommitKeeps.take {txid : Nat} (h : SharedCached blk s)
    (ht' : CommitCached blk s.backing t') : CommitKeeps blk s (s.setResult txid none) t' :=
  ⟨.of_eq rfl, h.setResult nofun, ht'⟩

/-- The loop makes a step of a call to the cache. -/
theorem CommitKeeps.call {backing : (parallelState db).State} (h : SharedCached blk s)
    (hgrow : ParallelCacheState.GrowsTo s.backing backing)
    (ht' : CommitCached blk backing t') :
    CommitKeeps blk s ({ s with backing } : Shared W R (parallelState db)) t' :=
  ⟨hgrow, h.grow hgrow, ht'⟩

/-- The look-up of a cached account answers at once. -/
theorem basicStep_lookup {address : Address} {backing : (parallelState db).State}
    {next : (parallelState db).BasicPc ⊕ Except Err (Option AccountInfo)}
    (hmem : ParallelCacheState.HasAccount s.backing address)
    (h : (parallelState db).basicStep s.backing (BasicLoadPc.lookup address) = (backing, next)) :
    ∃ info, next = .inr (.ok info) := by
  obtain ⟨c, hc⟩ := Option.isSome_iff_exists.mp hmem
  have hstep : (parallelState db).basicStep s.backing (BasicLoadPc.lookup address)
      = (s.backing, .inr (.ok c.account)) := by
    simp [parallelState, ParallelCacheState.basicLoadStep, hc]
  rw [hstep] at h
  cases h
  exact ⟨_, rfl⟩

theorem CommitStep.cached (h : SharedCached blk s) (ht : CommitCached blk s.backing t)
    (hstep : CommitStep blk s t s' t') : CommitKeeps blk s s' t' := by
  have hpoint := ht.point
  cases hstep with
  | @wait _ pc' _ hpc' | @drained _ pc' _ _ hpc' =>
    refine .of_eq h rfl rfl rfl (ht.moveTo ?_)
    cases pc' <;> trivial
  | takeFailed => exact .take h (ht.moveTo trivial)
  | takeNonce hpc hr hx => exact .take h (ht.moveTo (h.results _ _ _ hr hx))
  | take hpc hr hx hn hstart => exact .take h (ht.startReward (h.results _ _ _ hr hx) hstart)
  | nonce hpc hcall =>
    rw [hpc] at hpoint
    have hgrow := ParallelCacheState.growsTo_basicLoadStep hcall
    exact .call h hgrow ((ht.mono hgrow).moveTo (ParallelCacheState.Covers.mono hgrow hpoint))
  | nonceError hpc hcall | nonceMismatch hpc hcall =>
    have hgrow := ParallelCacheState.growsTo_basicLoadStep hcall
    exact .call h hgrow ((ht.mono hgrow).moveTo trivial)
  | nonceMatch hpc hcall hn hstart =>
    rw [hpc] at hpoint
    have hgrow := ParallelCacheState.growsTo_basicLoadStep hcall
    exact .call h hgrow
      ((ht.mono hgrow).startReward (ParallelCacheState.Covers.mono hgrow hpoint) hstart)
  | reward hpc hcall =>
    -- The look-up of the beneficiary does not go on: its account is cached.
    rw [hpc] at hpoint
    obtain ⟨-, rfl⟩ := hpoint
    obtain ⟨info, hinfo⟩ := basicStep_lookup h.beneficiary hcall
    cases hinfo
  | rewardError hpc hcall =>
    rw [hpc] at hpoint
    obtain ⟨-, rfl⟩ := hpoint
    obtain ⟨info, hinfo⟩ := basicStep_lookup h.beneficiary hcall
    cases hinfo
  | rewarded hpc hcall =>
    rw [hpc] at hpoint
    have hgrow := ParallelCacheState.growsTo_basicLoadStep hcall
    exact .call h hgrow ((ht.mono hgrow).startApply
      (covers_withReward (hpoint.1.mono hgrow) (hgrow _ h.beneficiary)))
  | apply hpc hcall =>
    rw [hpc] at hpoint
    have hgrow := ParallelCacheState.growsTo_applyStep hcall
    exact .call h hgrow ((ht.mono hgrow).moveTo (ApplyPc.Cached.applyStep hpoint hcall))
  | applied hpc hcall =>
    have hgrow := ParallelCacheState.growsTo_applyStep hcall
    exact .call h hgrow ⟨trivial, (ht.mono hgrow).applied⟩
  | release => exact .of_eq h rfl rfl rfl ⟨trivial, ht.applied⟩
  | _ => exact .of_eq h rfl rfl rfl (ht.moveTo trivial)

end Commit

/-! ## Every run -/

section Run

variable {Err W R : Type} {db : Database Err} {blk : Block Err R}

/-- Every account that a thread may ask the cache for is there. -/
structure AccountsCached (blk : Block Err R) (σ : SchedulerState W R (parallelState db)) :
    Prop where
  shared : SharedCached blk σ.shared
  workers : ∀ w, (σ.workers w).Cached blk σ.shared.backing
  commit : CommitCached blk σ.shared.backing σ.commit

theorem accountsCached_initial {cache : ParallelCacheState}
    (h : cache.HasAccount blk.beneficiary) :
    AccountsCached blk (initial cache : SchedulerState W R (parallelState db)) where
  shared := ⟨h, fun _ _ hentry => (by cases hentry), fun _ _ _ hr => (by cases hr)⟩
  workers _ := trivial
  commit := ⟨trivial, fun _ hc => (by cases hc)⟩

theorem AccountsCached.step [DecidableEq W] {σ σ' : SchedulerState W R (parallelState db)} {a : Action W}
    (hload : blk.LoadsTouched) (h : AccountsCached blk σ) (hstep : step blk σ a = some σ') :
    AccountsCached blk σ' := by
  rcases step_cases hstep with ⟨w, shared, pc, hw, rfl⟩ | ⟨shared, finality, hf, rfl⟩ |
    ⟨shared, commit, hc, rfl⟩
  · obtain ⟨hgrow, hshared, hpc⟩ := hw.cached hload h.shared (h.workers w)
    refine ⟨hshared, fun w' => ?_, h.commit.mono hgrow⟩
    by_cases hw' : w' = w
    · subst hw'
      simpa using hpc
    · simpa [Function.update_of_ne hw'] using (h.workers w').mono hgrow
  · have hframe : shared.backing = σ.shared.backing ∧
        shared.mvMemory = σ.shared.mvMemory ∧ shared.txResults = σ.shared.txResults := by
      cases hf <;> exact ⟨rfl, rfl, rfl⟩
    obtain ⟨hb, hm, hr⟩ := hframe
    refine ⟨h.shared.of_eq hb hm hr, ?_, ?_⟩
    · rw [hb]
      exact h.workers
    · rw [hb]
      exact h.commit
  · obtain ⟨hgrow, hshared, hthread⟩ := hc.cached h.shared h.commit
    exact ⟨hshared, fun w => (h.workers w).mono hgrow, hthread⟩

theorem AccountsCached.reach [DecidableEq W] {cache : ParallelCacheState}
    {σ : SchedulerState W R (parallelState db)} (hload : blk.LoadsTouched)
    (hmem : cache.HasAccount blk.beneficiary) (hσ : Reachable blk cache σ) :
    AccountsCached blk σ :=
  hσ.invariant (accountsCached_initial hmem) fun _ _ _ _ h _ hstep => h.step hload hstep

/-- The load before the threads start puts the beneficiary into the
cache. -/
theorem hasAccount_dbBasic {start cache : ParallelCacheState} {address : Address}
    {info : Option AccountInfo} (h : start.dbBasic db address = (cache, .ok info)) :
    cache.HasAccount address := by
  unfold ParallelCacheState.dbBasic at h
  split at h
  · cases h
    simp [ParallelCacheState.HasAccount, *]
  · split at h <;> cases h
    exact ParallelCacheState.hasAccount_insertLoaded

/-- Ordered commit always finds its accounts. Whatever speculative
executions, retries and commits have gone before, every touched account
of every change set handed to `commit` is in the cache, so that the
account a commit is about to change is found; and the look-up of the
beneficiary for a deferred reward is answered by the cache. -/
theorem commit_finds_accounts [DecidableEq W] {start cache : ParallelCacheState}
    {σ : SchedulerState W R (parallelState db)} (hload : blk.LoadsTouched)
    (hpreload : start.dbBasic db blk.beneficiary = (cache, .ok blk.anchor))
    (hσ : Reachable blk cache σ) :
    (∀ commit ∈ σ.commit.applied, ∀ address account,
      commit.state.lookup address = some account → account.touched = true →
        ParallelCacheState.HasAccount σ.shared.backing address) ∧
    (∀ previous result address account accounts,
      σ.commit.pc = .applying previous result (ApplyPc.change address account accounts) →
        ParallelCacheState.HasAccount σ.shared.backing address) ∧
    (∀ previous result amount pc, σ.commit.pc = .reward previous result amount pc →
      pc = BasicLoadPc.lookup blk.beneficiary ∧
        ParallelCacheState.HasAccount σ.shared.backing blk.beneficiary) := by
  have h := AccountsCached.reach hload (hasAccount_dbBasic hpreload) hσ
  have hpoint := h.commit.point
  refine ⟨h.commit.applied, fun _ _ _ _ _ hpc => ?_, fun _ _ _ _ hpc => ?_⟩
  · rw [hpc] at hpoint
    exact hpoint.1
  · rw [hpc] at hpoint
    exact ⟨hpoint.2, h.shared.beneficiary⟩

end Run

theorem Block.loadsTouched_paying (size : Nat) : (Block.paying size).LoadsTouched := by
  intro txid log result hfollow address account hlookup htouched
  match log with
  | [] => cases hfollow
  | (call, answer) :: rest =>
    simp only [Block.paying, Prog.follow] at hfollow
    split at hfollow
    · rename_i hcall
      subst hcall
      cases answer with
      | error e =>
        cases rest <;> simp [Prog.follow] at hfollow
      | ok answer =>
        cases answer with
        | word value =>
          cases rest with
          | cons head tail => simp [Prog.follow] at hfollow
          | nil =>
            cases hfollow
            cases hlookup
        | account view =>
          cases rest with
          | cons head tail => simp [Prog.follow] at hfollow
          | nil =>
            simp only [Prog.follow, Option.some.injEq, Prog.done.injEq, Except.ok.injEq] at hfollow
            subst hfollow
            by_cases ha : address = 1
            · subst ha
              exact .inr ⟨.account view, by simp⟩
            · rw [AList.lookup_insert_ne ha] at hlookup
              cases hlookup
    · cases hfollow

/-- The account whose cache entry the commit loop is about to change. -/
def CommitLoopPc.changing {Err R : Type} {db : Database Err} :
    CommitLoopPc R (parallelState db) → Option Address
  | .applying _ _ (ApplyPc.change address _ _) => some address
  | _ => none

theorem CommitLoopPc.applying_of_changing {Err R : Type} {db : Database Err}
    {pc : CommitLoopPc R (parallelState db)} {address : Address}
    (h : pc.changing = some address) :
    ∃ previous result account accounts,
      pc = .applying previous result (ApplyPc.change address account accounts) := by
  unfold CommitLoopPc.changing at h
  split at h <;> cases h
  exact ⟨_, _, _, _, rfl⟩

/-- The second transaction reads the account from the multi-version
memory, and its commit still finds it in the cache. -/
theorem commit_finds_accounts_paying :
    ∃ (cache : ParallelCacheState) (σ : SchedulerState Unit Unit (parallelState .absent)),
      ParallelCacheState.dbBasic .absent {} 0 = (cache, .ok none) ∧
      Reachable (Block.paying 2) cache σ ∧ σ.commit.idx = 1 ∧
      σ.commit.pc.changing = some 1 ∧ ParallelCacheState.HasAccount σ.shared.backing 1 := by
  let cache : (parallelState .absent).State := (ParallelCacheState.dbBasic .absent {} 0).1
  let actions : List (Action Unit) :=
    stepsOf (.worker ()) 100 ++ stepsOf .finality 13 ++
      stepsOf .commit 21
  have hcheck : (Runs.exec (step (Block.paying 2)) (initial cache) actions).map
      (fun σ => (σ.commit.idx, σ.commit.pc.changing)) = some (1, some 1) := by decide +kernel
  obtain ⟨σ, hrun, heq⟩ := Option.map_eq_some_iff.mp hcheck
  simp only [Prod.mk.injEq] at heq
  have hreach : Reachable (Block.paying 2) cache σ := Runs.reach_of_exec hrun
  have hpreload : ParallelCacheState.dbBasic Database.absent {} 0 = (cache, .ok none) := rfl
  obtain ⟨_, _, _, _, hpc⟩ := CommitLoopPc.applying_of_changing heq.2
  refine ⟨cache, σ, hpreload, hreach, heq.1, heq.2, ?_⟩
  exact (commit_finds_accounts (Block.loadsTouched_paying 2) hpreload hreach).2.1 _ _ _ _ _ hpc

end Grevm
