/-
Grevm.CacheAnswers — what the calls into a shared cache return.

Any number of callers load from the cache while one commit after the other
is applied to it. `ParallelCacheState.Serves` is what holds of the cache
and of the calls in progress; it is kept by a step of any caller
(`Serves.move`) and by a step of the commit (`Serves.apply`). In such a
state a call for an account ends with exactly the expected account, a call
for a slot with a value that the expectation admits, and a call for code
with what the book has or a change set has carried.
-/
import Grevm.CommittedView

namespace Grevm

variable {Err : Type}

/-! ## Calls in progress -/

/-- The call that a program point belongs to. -/
def LoadPc.call : LoadPc → LoadCall
  | .basic (.lookup address) | .basic (.database address) | .basic (.insert address _) =>
    .basic address
  | .code (.lookup codeHash) | .code (.database codeHash) | .code (.insert codeHash _) =>
    .code codeHash
  | .storage (.slot address index) | .storage (.status address index)
  | .storage (.database address index) | .storage (.insert address index _) =>
    .storage address index

/-- The code on its way into the cache is the one of the book. -/
def LoadPc.Quotes (db : Database Err) (book : B256 → Except Err Bytecode) : LoadPc → Prop
  | .code (.database codeHash) => book codeHash = db.code codeHash
  | .code (.insert codeHash found) => book codeHash = .ok found
  | _ => True

/-- Every account of the cache can be read from the database. -/
def ParallelCacheState.Readable (db : Database Err) (cache : ParallelCacheState) : Prop :=
  ∀ address, cache.HasAccount address → ∃ info, db.basic address = .ok info

/-- What one caller does in a step: it does not call the cache, its call
takes one step, or its call ends. A new call may begin when there is none
in progress. -/
inductive CallerMove (db : Database Err) (cache : ParallelCacheState) :
    Option (LoadCall × LoadPc) → ParallelCacheState → Option (LoadCall × LoadPc) → Prop where
  | begins {calling calling'} (hnew : ∀ call pc, calling' = some (call, pc) → pc = call.start) :
      CallerMove db cache calling cache calling'
  | loads {call pc cache' pc'} (h : cache.loadStep db pc = (cache', some pc')) :
      CallerMove db cache (some (call, pc)) cache' (some (call, pc'))
  | ends {call pc cache' calling'} (h : cache.loadStep db pc = (cache', none))
      (hnew : ∀ call pc, calling' = some (call, pc) → pc = call.start) :
      CallerMove db cache (some (call, pc)) cache' calling'

/-- The cache agrees with what is expected of it, and every call in
progress with what it was made for. -/
structure ParallelCacheState.Serves {ι : Type} (db : Database Err) (codeOf : B256 → Bytecode)
    (book : B256 → Except Err Bytecode) (E : Address → Expect Err)
    (calls : ι → Option (LoadCall × LoadPc)) (cache : ParallelCacheState) : Prop where
  ok : CacheOk db E cache fun i => (calls i).map Prod.snd
  asked : ∀ i call pc, calls i = some (call, pc) → pc.call = call ∧ pc.Quotes db book
  contracts : cache.ContractsOk db codeOf book
  readable : cache.Readable db

section

variable {db : Database Err} {codeOf : B256 → Bytecode} {book : B256 → Except Err Bytecode}
  {E E' : Address → Expect Err} {cache cache' : ParallelCacheState} {pc pc' : LoadPc}
  {next : Option LoadPc}

theorem LoadCall.call_start (call : LoadCall) : call.start.call = call := by
  cases call <;> rfl

theorem LoadCall.quotes_start (call : LoadCall) : call.start.Quotes db book := by
  cases call <;> exact trivial

/-- A call stays with what it was made for. -/
theorem LoadPc.call_loadStep (h : cache.loadStep db pc = (cache', some pc')) :
    pc'.call = pc.call := by
  cases pc with
  | basic pc =>
    cases pc with
    | lookup address =>
      cases hl : cache.accounts address <;>
        simp [ParallelCacheState.loadStep, ParallelCacheState.basicLoadStep, hl] at h
      rw [← h.2]
      rfl
    | database address =>
      cases hl : db.basic address <;>
        simp [ParallelCacheState.loadStep, ParallelCacheState.basicLoadStep, hl] at h
      rw [← h.2]
      rfl
    | insert address info => cases h
  | code pc =>
    cases pc with
    | lookup codeHash =>
      cases hl : cache.contracts codeHash <;>
        simp [ParallelCacheState.loadStep, ParallelCacheState.codeLoadStep, hl] at h
      rw [← h.2]
      rfl
    | database codeHash =>
      cases hl : db.code codeHash <;>
        simp [ParallelCacheState.loadStep, ParallelCacheState.codeLoadStep, hl] at h
      rw [← h.2]
      rfl
    | insert codeHash code => cases h
  | storage pc =>
    cases pc with
    | slot address index =>
      cases hl : cache.storage address index <;>
        simp [ParallelCacheState.loadStep, ParallelCacheState.storageLoadStep, hl] at h
      rw [← h.2]
      rfl
    | status address index =>
      cases hl : cache.isStorageKnown address <;>
        simp [ParallelCacheState.loadStep, ParallelCacheState.storageLoadStep, hl] at h <;>
        rw [← h.2] <;> rfl
    | database address index =>
      cases hl : db.storage address index <;>
        simp [ParallelCacheState.loadStep, ParallelCacheState.storageLoadStep, hl] at h
      rw [← h.2]
      rfl
    | insert address index value => cases h

/-! ## Contracts -/

/-- A step of a load adds no contract but the code it carries. -/
theorem ParallelCacheState.contracts_loadStep (h : cache.loadStep db pc = (cache', next)) :
    cache'.contracts = cache.contracts ∨ ∃ codeHash code, pc = .code (.insert codeHash code) ∧
      cache'.contracts = Function.update cache.contracts codeHash (some code) := by
  cases pc with
  | basic pc =>
    cases pc with
    | lookup address =>
      cases hl : cache.accounts address <;> simp [loadStep, basicLoadStep, hl] at h <;>
        exact .inl (by rw [← h.1])
    | database address =>
      cases hl : db.basic address <;> simp [loadStep, basicLoadStep, hl] at h <;>
        exact .inl (by rw [← h.1])
    | insert address info =>
      cases h
      split <;> exact .inl rfl
  | code pc =>
    cases pc with
    | lookup codeHash =>
      cases hl : cache.contracts codeHash <;> simp [loadStep, codeLoadStep, hl] at h <;>
        exact .inl (by rw [← h.1])
    | database codeHash =>
      cases hl : db.code codeHash <;> simp [loadStep, codeLoadStep, hl] at h <;>
        exact .inl (by rw [← h.1])
    | insert codeHash code =>
      cases h
      split
      · exact .inl rfl
      · exact .inr ⟨codeHash, code, rfl, rfl⟩
  | storage pc =>
    cases pc with
    | slot address index =>
      cases hl : cache.storage address index <;> simp [loadStep, storageLoadStep, hl] at h <;>
        exact .inl (by rw [← h.1])
    | status address index =>
      cases hl : cache.isStorageKnown address <;> simp [loadStep, storageLoadStep, hl] at h <;>
        exact .inl (by rw [← h.1])
    | database address index =>
      cases hl : db.storage address index <;> simp [loadStep, storageLoadStep, hl] at h <;>
        exact .inl (by rw [← h.1])
    | insert address index value =>
      cases h
      split <;> exact .inl rfl

theorem ParallelCacheState.ContractsOk.load (h : cache.ContractsOk db codeOf book)
    (hquotes : pc.Quotes db book) (hstep : cache.loadStep db pc = (cache', next)) :
    cache'.ContractsOk db codeOf book := by
  rcases contracts_loadStep hstep with heq | ⟨codeHash, code, rfl, heq⟩
  · exact h.congr heq
  · exact h.insert heq fun _ => .inl hquotes

/-- The database is asked for a contract that is not cached, and the book
has that one from the database. -/
theorem LoadPc.Quotes.load (h : pc.Quotes db book) (hcontracts : cache.ContractsOk db codeOf book)
    (hstep : cache.loadStep db pc = (cache', some pc')) : pc'.Quotes db book := by
  cases pc with
  | basic pc | storage pc =>
    have hcall := LoadPc.call_loadStep hstep
    cases pc' with
    | code pc' => cases pc <;> cases pc' <;> cases hcall
    | _ => exact trivial
  | code pc =>
    cases pc with
    | lookup codeHash =>
      cases hl : cache.contracts codeHash <;>
        simp [ParallelCacheState.loadStep, ParallelCacheState.codeLoadStep, hl] at hstep
      rw [← hstep.2]
      exact hcontracts.absent codeHash hl
    | database codeHash =>
      cases hl : db.code codeHash <;>
        simp [ParallelCacheState.loadStep, ParallelCacheState.codeLoadStep, hl] at hstep
      rw [← hstep.2]
      exact Eq.trans h hl
    | insert codeHash code => cases hstep

/-! ## Accounts -/

theorem ParallelCacheState.accounts_insertSlot (address : Address) (index value : U256) :
    (cache.insertSlot address index value).1.accounts = cache.accounts := by
  unfold insertSlot
  split <;> rfl

theorem ParallelCacheState.Readable.insertLoaded (h : cache.Readable db) {address : Address}
    {info : Option AccountInfo} (hinfo : db.basic address = .ok info) :
    (cache.insertLoaded address info).1.Readable db := by
  intro a hmem
  by_cases ha : a = address
  · subst ha
    exact ⟨info, hinfo⟩
  · rw [HasAccount, insertLoaded_of_ne ha] at hmem
    exact h a hmem

theorem ParallelCacheState.Readable.load (h : cache.Readable db) (hcarries : pc.Carries db cache E)
    (hmove : LoadMove db cache pc cache' next) : cache'.Readable db := by
  intro address hmem
  cases hmove with
  | quiet hacc =>
    rw [HasAccount, hacc] at hmem
    exact h address hmem
  | account a info => exact h.insertLoaded hcarries address hmem
  | slot a i v =>
    rw [HasAccount, accounts_insertSlot] at hmem
    exact h address hmem
  | _ => exact h address hmem

theorem ParallelCacheState.Readable.apply (h : cache.Readable db) {c : Nat} {apc : ApplyPc}
    {next : Option ApplyPc} (hstep : cache.applyStep c apc = some (cache', next)) :
    cache'.Readable db := by
  intro address hmem
  rcases accounts_applyStep hstep with heq | ⟨a, account, current, hcurrent, heq⟩
  · rw [HasAccount, heq] at hmem
    exact h address hmem
  · by_cases ha : address = a
    · subst ha
      exact h address (by rw [HasAccount, hcurrent]; rfl)
    · rw [HasAccount, heq, Function.update_of_ne ha] at hmem
      exact h address hmem

theorem ApplyRun.readable {apc : ApplyPc} (h : ApplyRun cache apc cache')
    (hreadable : cache.Readable db) : cache'.Readable db := by
  induction h with
  | done c hstep => exact hreadable.apply hstep
  | step c hstep _ ih => exact ih (hreadable.apply hstep)

theorem ParallelCacheState.Readable.congr (h : cache.Readable db)
    (heq : cache'.accounts = cache.accounts) : cache'.Readable db := by
  intro address hmem
  rw [HasAccount, heq] at hmem
  exact h address hmem

theorem Commits.readable {states : List EvmState} (h : Commits db cache states) :
    cache.Readable db := by
  induction h with
  | fresh => exact fun _ hmem => by cases hmem
  | @basic cache _ address _ ih =>
    unfold ParallelCacheState.dbBasic
    split
    · exact ih
    · split
      · rename_i info hinfo
        exact ih.insertLoaded hinfo
      · exact ih
  | code codeHash _ ih => exact ih.congr (ParallelCacheState.accounts_dbCodeByHash codeHash)
  | storage address index _ ih =>
    exact ih.congr (ParallelCacheState.accounts_dbStorage address index)
  | commit _ happly ih => exact (applyRun_of_applyEvmState happly).readable ih

/-! ## Commits in progress -/

/-- The account that a commit is writing is one of its change set, and the
slots it has still to write are those that changed. -/
def ApplyPc.Writing (state : EvmState) : ApplyPc → Prop
  | .contract address account _ => state.lookup address = some account ∧
      FinalizedAccount.ofAccount account = .created account.info
  | .slots address left _ => ∃ account, state.lookup address = some account ∧
      (FinalizedAccount.ofAccount account).info? = some account.info ∧
      left ⊆ account.changedStorageSlots
  | _ => True

theorem ApplyPc.Writing.step {state : EvmState} {after : Address → Plain Err} {c : Nat}
    {apc apc' : ApplyPc} (h : apc.Writing state) (hok : apc.Ok state after)
    (hstep : cache.applyStep c apc = some (cache', some apc')) : apc'.Writing state := by
  cases apc with
  | next accounts =>
    simp only [ParallelCacheState.applyStep] at hstep
    split at hstep
    · cases hstep
    · obtain ⟨⟨⟨address, account⟩, rest⟩, -, heq⟩ := Option.map_eq_some_iff.mp hstep
      cases heq
      dsimp only
      split
      · exact trivial
      · split <;> exact trivial
  | removeStorage address account accounts =>
    cases hstep
    exact trivial
  | change address account accounts =>
    obtain ⟨current, -, heq⟩ := Option.map_eq_some_iff.mp hstep
    cases heq
    have hlook : state.lookup address = some account := hok.pending (address, account) (.head _)
    have ht : account.touched = true := hok.current
    split
    · exact trivial
    · rename_i hd
      split
      · rename_i hc
        exact ⟨hlook, by simp [FinalizedAccount.ofAccount, ht, hd, hc]⟩
      · rename_i hc
        split
        · exact trivial
        · rename_i he
          refine ⟨account, hlook, ?_, List.Subset.refl _⟩
          simp [FinalizedAccount.ofAccount, FinalizedAccount.info?, ht, hd, hc, he]
  | contract address account accounts =>
    obtain ⟨cache₁, -, heq⟩ := Option.map_eq_some_iff.mp hstep
    cases heq
    exact ⟨account, h.1, by rw [h.2]; rfl, List.Subset.refl _⟩
  | slots address left accounts =>
    simp only [ParallelCacheState.applyStep] at hstep
    split at hstep
    · cases hstep
      exact trivial
    · obtain ⟨⟨⟨index, value⟩, rest⟩, hpick, heq⟩ := Option.map_eq_some_iff.mp hstep
      cases heq
      obtain ⟨account, hlook, hinfo, hsub⟩ := h
      exact ⟨account, hlook, hinfo,
        fun slot hslot => hsub ((mem_of_pick? hpick slot).mpr (.inr hslot))⟩

/-- A commit adds the code of the account that it creates. -/
theorem ParallelCacheState.ContractsOk.apply {state : EvmState} {c : Nat} {apc : ApplyPc}
    {next : Option ApplyPc} (h : cache.ContractsOk db codeOf book)
    (hcreates : state.CreatesCode codeOf) (hwriting : apc.Writing state)
    (hstep : cache.applyStep c apc = some (cache', next)) : cache'.ContractsOk db codeOf book := by
  cases apc with
  | next accounts =>
    simp only [applyStep] at hstep
    split at hstep
    · cases hstep
      exact h
    · obtain ⟨_, -, heq⟩ := Option.map_eq_some_iff.mp hstep
      cases heq
      exact h
  | removeStorage address account accounts =>
    cases hstep
    exact h.congr rfl
  | change address account accounts =>
    obtain ⟨_, -, heq⟩ := Option.map_eq_some_iff.mp hstep
    cases heq
    exact h.congr rfl
  | contract address account accounts =>
    obtain ⟨cache₁, hadd, heq⟩ := Option.map_eq_some_iff.mp hstep
    cases heq
    obtain ⟨hlook, hcreated⟩ := hwriting
    unfold addContract at hadd
    split at hadd
    · cases hadd
      exact h
    · rename_i code _ hcode
      cases hadd
      refine h.insert rfl fun hne => .inr ?_
      have hcarried := hcreates address account hlook (created_of_ofAccount hcreated) account.info
        (by rw [hcreated]; rfl) (by simpa [AccountInfo.isEmptyCodeHash] using hne)
      exact Option.some.inj (hcode.symm.trans hcarried)
    · cases hadd
  | slots address left accounts =>
    simp only [applyStep] at hstep
    split at hstep
    · cases hstep
      exact h
    · obtain ⟨_, -, heq⟩ := Option.map_eq_some_iff.mp hstep
      cases heq
      exact h.congr rfl

end

/-! ## Steps -/

namespace ParallelCacheState.Serves

variable {ι : Type} {db : Database Err} {codeOf : B256 → Bytecode}
  {book : B256 → Except Err Bytecode} {E E' : Address → Expect Err}
  {calls calls' : ι → Option (LoadCall × LoadPc)} {cache cache' : ParallelCacheState}

/-- The calls after one of them has taken a step or has ended. -/
theorem load (hdb : db.StorageNeedsCode) (h : cache.Serves db codeOf book E calls) {i : ι}
    {call : LoadCall} {pc : LoadPc} {next : Option LoadPc} (hi : calls i = some (call, pc))
    (hstep : cache.loadStep db pc = (cache', next))
    (hcalls : ∀ j call' pc', calls' j = some (call', pc') → calls j = some (call', pc') ∨
      call' = call ∧ next = some pc' ∨ pc' = call'.start)
    (hrace : ∀ spc address, next = some (.storage spc) → (E address).cleared = true →
      spc.fetches db address = false) : cache'.Serves db codeOf book E calls' := by
  obtain ⟨hcall, hquotes⟩ := h.asked i call pc hi
  have hpc : (calls i).map Prod.snd = some pc := by rw [hi]; rfl
  have hmove := loadMove_of_loadStep hstep
  refine ⟨h.ok.load hdb hpc hmove (fun j pc' hj => ?_) hrace, fun j call' pc' hj => ?_,
    h.contracts.load hquotes hstep, h.readable.load (h.ok.carried i pc hpc) hmove⟩
  · obtain ⟨⟨call', pc'⟩, hcall', rfl⟩ := Option.map_eq_some_iff.mp hj
    rcases hcalls j call' pc' hcall' with hj | ⟨-, hnext⟩ | hstart
    · exact .inl (by rw [hj]; rfl)
    · exact .inr (.inl hnext)
    · exact .inr (.inr ⟨call', hstart⟩)
  · rcases hcalls j call' pc' hj with hj | ⟨rfl, rfl⟩ | rfl
    · exact h.asked j call' pc' hj
    · exact ⟨(LoadPc.call_loadStep hstep).trans hcall, hquotes.load h.contracts hstep⟩
    · exact ⟨call'.call_start, call'.quotes_start⟩

/-- **One step of a caller.** -/
theorem move (hdb : db.StorageNeedsCode) (h : cache.Serves db codeOf book E calls) {i : ι}
    (hmove : CallerMove db cache (calls i) cache' (calls' i))
    (hother : ∀ j, j ≠ i → calls' j = calls j)
    (hrace : ∀ call spc address, calls' i = some (call, .storage spc) →
      (E address).cleared = true → spc.fetches db address = false) :
    cache'.Serves db codeOf book E calls' := by
  have hcases : ∀ j call pc, calls' j = some (call, pc) →
      calls j = some (call, pc) ∨ calls' i = some (call, pc) := by
    intro j call pc hj
    by_cases hji : j = i
    · exact .inr (hji ▸ hj)
    · exact .inl ((hother j hji).symm.trans hj)
  generalize hi : calls i = calling at hmove
  generalize calls' i = calling' at hmove hrace hcases
  cases hmove with
  | begins hnew =>
    refine ⟨h.ok.call fun j pc hj => ?_, fun j call pc hj => ?_, h.contracts, h.readable⟩
    · obtain ⟨⟨call, pc⟩, hcall, rfl⟩ := Option.map_eq_some_iff.mp hj
      rcases hcases j call pc hcall with hj | hj
      · exact .inl (by rw [hj]; rfl)
      · exact .inr ⟨call, hnew call pc hj⟩
    · rcases hcases j call pc hj with hj | hj
      · exact h.asked j call pc hj
      · obtain rfl := hnew call pc hj
        exact ⟨call.call_start, call.quotes_start⟩
  | @loads call pc cache' pc' hstep =>
    refine h.load hdb hi hstep (fun j call' pc'' hj => ?_) fun spc address hnext => ?_
    · refine (hcases j call' pc'' hj).imp_right fun hj => .inl ?_
      cases hj
      exact ⟨rfl, rfl⟩
    · cases hnext
      exact hrace call spc address rfl
  | ends hstep hnew =>
    refine h.load hdb hi hstep (fun j call' pc'' hj => ?_) (by simp)
    exact (hcases j call' pc'' hj).imp_right fun hj => .inr (hnew call' pc'' hj)

/-- **One step of a commit.** -/
theorem apply (h : cache.Serves db codeOf book E calls) {state : EvmState} {c : Nat}
    {pc : ApplyPc} {next : Option ApplyPc} (hcreates : state.CreatesCode codeOf)
    (hwriting : pc.Writing state) (hstep : cache.applyStep c pc = some (cache', next))
    (hfollows : ∀ address, Follows db address cache (E address) cache' (E' address))
    (hrace : ∀ i call spc address, calls i = some (call, .storage spc) →
      (E' address).cleared = true → spc.fetches db address = false) :
    cache'.Serves db codeOf book E' calls where
  ok := h.ok.apply hfollows fun i spc address hi hcleared => by
    obtain ⟨⟨call, pc⟩, hcall, rfl⟩ := Option.map_eq_some_iff.mp hi
    exact hrace i call spc address hcall hcleared
  asked := h.asked
  contracts := h.contracts.apply hcreates hwriting hstep
  readable := h.readable.apply hstep

/-! ## Answers -/

variable {i : ι} {address : Address} {index value : U256} {codeHash : B256} {bytecode : Bytecode}

/-- A call for an account ends with the one that is expected, or with the
error of the database. -/
theorem basic (h : cache.Serves db codeOf book E calls) {pc : BasicLoadPc}
    {found : Except Err (Option AccountInfo)}
    (hcall : calls i = some (.basic address, .basic pc))
    (hstep : cache.basicLoadStep db pc = (cache', .inr found)) :
    found = (E address).plain.basic := by
  have hasked := (h.asked i _ _ hcall).1
  have hcoherent := h.ok.coherent address
  have hcarries := h.ok.carried i (.basic pc) (by rw [hcall]; rfl)
  cases pc with
  | lookup a =>
    cases hasked
    cases hl : cache.accounts address <;> simp [basicLoadStep, hl] at hstep
    rw [← hstep.2]
    exact (hcoherent.account _ hl).symm
  | database a =>
    cases hasked
    cases hl : db.basic address <;> simp [basicLoadStep, hl] at hstep
    have hvacant : cache.accounts address = none := by
      by_contra hne
      obtain ⟨info, hinfo⟩ := h.readable address (Option.isSome_iff_ne_none.mpr hne)
      rw [hl] at hinfo
      cases hinfo
    rw [← hstep.2, hcoherent.vacant hvacant, Plain.ofDatabase, hl]
    rfl
  | insert a info =>
    cases hasked
    have hbasic : db.basic address = .ok info := hcarries
    simp only [basicLoadStep, insertLoaded] at hstep
    cases hl : cache.accounts address with
    | some c =>
      rw [hl] at hstep
      cases hstep
      exact (hcoherent.account c hl).symm
    | none =>
      rw [hl] at hstep
      cases hstep
      rw [hcoherent.vacant hl, Plain.ofDatabase, hbasic]
      rfl

/-- A call for a slot ends with a value that the slot admits. -/
theorem storage (h : cache.Serves db codeOf book E calls) {pc : StorageLoadPc}
    (hcall : calls i = some (.storage address index, .storage pc))
    (hstep : cache.storageLoadStep db pc = (cache', .inr (.ok value))) :
    (E address).Admits index value := by
  have hasked := (h.asked i _ _ hcall).1
  have hcoherent := h.ok.coherent address
  have hcarries := h.ok.carried i (.storage pc) (by rw [hcall]; rfl)
  cases pc with
  | slot a k =>
    cases hasked
    cases hl : cache.storage address index <;> simp [storageLoadStep, hl] at hstep
    rw [← hstep.2]
    exact hcoherent.slot index _ hl
  | status a k =>
    cases hl : cache.isStorageKnown a <;> simp [storageLoadStep, hl] at hstep
  | database a k =>
    cases hl : db.storage a k <;> simp [storageLoadStep, hl] at hstep
  | insert a k v =>
    cases hasked
    simp only [storageLoadStep, insertSlot] at hstep
    cases hl : cache.storage address index with
    | some v' =>
      rw [hl] at hstep
      cases hstep
      exact hcoherent.slot index _ hl
    | none =>
      rw [hl] at hstep
      cases hstep
      exact hcarries address index v ⟨rfl, rfl, rfl⟩ hl

/-- A call for code ends with the code of the book, or with one that a
change set has carried. -/
theorem code (h : cache.Serves db codeOf book E calls) {pc : CodeLoadPc}
    (hcall : calls i = some (.code codeHash, .code pc)) (hne : codeHash ≠ keccakEmpty)
    (hstep : cache.codeLoadStep db pc = (cache', .inr (.ok bytecode))) :
    book codeHash = .ok bytecode ∨ bytecode = codeOf codeHash := by
  obtain ⟨hasked, hquotes⟩ := h.asked i _ _ hcall
  cases pc with
  | lookup hash =>
    cases hasked
    cases hl : cache.contracts codeHash <;> simp [codeLoadStep, hl] at hstep
    rw [← hstep.2]
    exact h.contracts.cached codeHash _ hne hl
  | database hash =>
    cases hl : db.code hash <;> simp [codeLoadStep, hl] at hstep
  | insert hash found =>
    cases hasked
    simp only [codeLoadStep, insertCode] at hstep
    cases hl : cache.contracts codeHash with
    | some found' =>
      rw [hl] at hstep
      cases hstep
      exact h.contracts.cached codeHash _ hne hl
    | none =>
      rw [hl] at hstep
      cases hstep
      exact .inl hquotes

end ParallelCacheState.Serves

end Grevm
