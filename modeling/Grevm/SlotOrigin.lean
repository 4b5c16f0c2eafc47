/-
Grevm.SlotOrigin — slot reads that reach the shared cache.

A slot that no preceding transaction has published is read from the
cache of `Grevm.ParallelState`, and validation accepts the read as
`ReadVersion::Storage` whatever the cache answered. The cache answers
from the slot map, from the status of the account, or from the database,
while workers fill it and the commit thread changes it. `slotReadStep`
is `IncarnationDb::storage` of one incarnation among these.

The status decides wrongly for an account that has storage but neither
code nor nonce in the database: a committed balance change makes its
storage known, and the slots that are not cached read as zero from then
on (`codeless_slot_depends_on_commit`). A slot is `Settled` when it is
cached at the start of the block, when the storage of its account is
known then, or when the database does not hold it for such an account.
The reads of a settled slot return what the block started with, whatever
has been committed or cached in between, and a slot that is not settled
has two reads that differ (`slot_origin_reads_agree`).
-/
import Grevm.CacheCoherence

namespace Grevm

open Runs

variable {Err : Type}

/-! ## The system -/

/-- A slot read among the calls and commits of the others. -/
structure SlotRead (db : Database Err) (n : Nat) where
  shared : CacheState n
  incarnation : IncarnationDb := {}
  pc : CallPc (parallelState db) ⊕ Except Err Value

/-- The call of `IncarnationDb::storage`. -/
def SlotRead.start {db : Database Err} {n : Nat} (shared : CacheState n) (address : Address)
    (index : U256) : SlotRead db n :=
  { shared, pc := .inl (.storageReset address index) }

/-- A step of the others, or an access of the reader, which finds the
multi-version memory as `mv`. -/
inductive SlotReadAction (n : Nat) where
  | other (action : CacheAction n)
  | access (mv : MVMemory)

def slotReadStep (db : Database Err) {n : Nat} (txid : Nat) (s : SlotRead db n) :
    SlotReadAction n → Option (SlotRead db n)
  | .other action => (cacheStep db s.shared action).map fun shared => { s with shared }
  | .access mv =>
    s.pc.getLeft?.map fun pc =>
      let (cache, incarnation, pc) :=
        callStep none txid mv (fun _ => {}) s.shared.cache s.incarnation pc
      { shared := { s.shared with cache }, incarnation, pc }

/-- The change set publishes the location. -/
def EvmState.Publishes (state : EvmState) (location : LocationAndType) : Prop :=
  ∃ beneficiary snapshot address account value, state.lookup address = some account ∧
    ((location, value) ∈ (accountWrites beneficiary snapshot address account).1 ∨
      (location, value) ∈ (accountWrites beneficiary snapshot address account).2)

/-- A change set that is committed publishes neither the slot nor a reset
of its account. -/
def CacheAction.Unpublished {n : Nat} (address : Address) (index : U256) : CacheAction n → Prop
  | .commit state =>
    ¬ state.Publishes (.storageReset address) ∧ ¬ state.Publishes (.storage address index)
  | _ => True

/-- No transaction before `txid` publishes the slot or a reset of its
account: neither the change sets that are committed, nor what the reader
finds in the multi-version memory. -/
def Unpublished {db : Database Err} {n : Nat} (txid : Nat) (address : Address) (index : U256)
    (_ : SlotRead db n) : SlotReadAction n → Prop
  | .other action => action.Unpublished address index
  | .access mv => MVMemory.latestBefore (mv (.storageReset address)) txid = none ∧
    MVMemory.latestBefore (mv (.storage address index)) txid = none

/-! ## Change sets that leave a slot alone -/

/-- The commit of this account neither removes the slot map nor writes
the slot. -/
def Account.Leaves (account : Account) (index : U256) : Prop :=
  account.touched = true →
    account.clears = false ∧ index ∉ account.changedStorageSlots.map Prod.fst

theorem Account.leaves_of_not_publishes {state : EvmState} {address : Address} {index : U256}
    {account : Account} (hreset : ¬ state.Publishes (.storageReset address))
    (hslot : ¬ state.Publishes (.storage address index))
    (hlookup : state.lookup address = some account) : account.Leaves index := by
  intro htouched
  have hclears : account.clears = false := by
    by_contra h
    refine hreset ⟨0, none, address, account, .storageReset, hlookup, .inl ?_⟩
    simp only [clears, Bool.not_eq_false, Bool.or_eq_true] at h
    cases hd : account.selfdestructed <;> cases hc : account.created <;>
      cases he : account.isEmpty <;>
      simp_all [accountWrites, FinalizedAccount.ofAccount]
  refine ⟨hclears, fun hindex => hslot ?_⟩
  obtain ⟨⟨i, value⟩, hmem, rfl⟩ := List.mem_map.mp hindex
  refine ⟨0, none, address, account, .storage value, hlookup, .inr ?_⟩
  simp only [clears, Bool.or_eq_false_iff] at hclears
  simp only [accountWrites, FinalizedAccount.ofAccount, htouched, hclears, Bool.not_true,
    Bool.false_eq_true, if_false]
  exact List.mem_map.mpr ⟨(i, value), hmem, rfl⟩

/-- The rest of the commit leaves the slot alone. -/
def ApplyPc.Leaves (address : Address) (index : U256) : ApplyPc → Prop
  | .next accounts => ∀ account, (address, account) ∈ accounts → account.Leaves index
  | .removeStorage a _ accounts =>
    a ≠ address ∧ ∀ account, (address, account) ∈ accounts → account.Leaves index
  | .change a account accounts =>
    (a = address → account.clears = false ∧ index ∉ account.changedStorageSlots.map Prod.fst) ∧
      ∀ account, (address, account) ∈ accounts → account.Leaves index
  | .contract a _ accounts =>
    a ≠ address ∧ ∀ account, (address, account) ∈ accounts → account.Leaves index
  | .slots a left accounts =>
    (a = address → index ∉ left.map Prod.fst) ∧
      ∀ account, (address, account) ∈ accounts → account.Leaves index

section

variable {cache cache' : ParallelCacheState} {address : Address} {index : U256} {pc : ApplyPc}
  {next : Option ApplyPc} {c : Nat}

/-- What one step of a commit that leaves a slot alone does: the slot
stays, and the account stays or takes new information. -/
structure SlotStays (cache : ParallelCacheState) (address : Address) (index : U256)
    (cache' : ParallelCacheState) (next : Option ApplyPc) : Prop where
  slot : cache'.storage address index = cache.storage address index
  account : cache'.accounts address = cache.accounts address ∨
    ∃ c info, cache.accounts address = some c ∧ cache'.accounts address = some (c.change info)
  next : ∀ pc, next = some pc → pc.Leaves address index

theorem ApplyPc.Leaves.step (h : pc.Leaves address index)
    (hs : cache.applyStep c pc = some (cache', next)) :
    SlotStays cache address index cache' next := by
  cases pc with
  | next accounts =>
    simp only [ParallelCacheState.applyStep] at hs
    split at hs
    · cases hs
      exact ⟨rfl, .inl rfl, fun _ h => by cases h⟩
    · obtain ⟨⟨⟨a, account⟩, rest⟩, hpick, heq⟩ := Option.map_eq_some_iff.mp hs
      cases heq
      have hmem := mem_of_pick? hpick
      have hrest : ∀ account, (address, account) ∈ rest → account.Leaves index :=
        fun account' hin => h account' ((hmem _).mpr (.inr hin))
      have hhead : a = address → account.Leaves index := by
        rintro rfl
        exact h account ((hmem _).mpr (.inl rfl))
      refine ⟨rfl, .inl rfl, fun pc' hpc => ?_⟩
      cases hpc
      split
      · exact hrest
      · rename_i htouched
        simp only [Bool.not_eq_true', Bool.not_eq_false] at htouched
        split
        · rename_i hclears
          refine ⟨?_, hrest⟩
          rintro rfl
          exact absurd hclears (by simpa [Account.clears] using (hhead rfl htouched).1)
        · exact ⟨fun ha => hhead ha htouched, hrest⟩
  | removeStorage a account accounts =>
    cases hs
    refine ⟨?_, .inl rfl, fun pc' hpc => ?_⟩
    · show Function.update cache.storage a _ address index = _
      rw [Function.update_of_ne (Ne.symm h.1)]
    · cases hpc
      exact ⟨fun ha => absurd ha h.1, h.2⟩
  | change a account accounts =>
    obtain ⟨current, hcurrent, heq⟩ := Option.map_eq_some_iff.mp hs
    cases heq
    by_cases ha : a = address
    · subst ha
      obtain ⟨hclears, hindex⟩ := h.1 rfl
      have hcl : account.selfdestructed = false ∧ account.created = false ∧
          account.isEmpty = false := by
        simpa [Account.clears, and_assoc] using hclears
      rw [changeAccount_of_not_clears hclears]
      refine ⟨rfl, .inr ⟨current, account.info, hcurrent, Function.update_self ..⟩,
        fun pc' hpc => ?_⟩
      simp only [hcl, Bool.false_eq_true, if_false, Option.some.injEq] at hpc
      subst hpc
      exact ⟨fun _ => hindex, h.2⟩
    · refine ⟨rfl, .inl (Function.update_of_ne (Ne.symm ha) _ _), fun pc' hpc => ?_⟩
      cases hpc
      split
      · exact h.2
      · split
        · exact ⟨ha, h.2⟩
        · split
          · exact h.2
          · exact ⟨fun heq => absurd heq ha, h.2⟩
  | contract a account accounts =>
    obtain ⟨cache₁, hadd, heq⟩ := Option.map_eq_some_iff.mp hs
    cases heq
    have hframe : cache'.storage = cache.storage ∧ cache'.accounts = cache.accounts := by
      unfold ParallelCacheState.addContract at hadd
      split at hadd <;> cases hadd <;> exact ⟨rfl, rfl⟩
    refine ⟨by rw [hframe.1], .inl (by rw [hframe.2]), fun pc' hpc => ?_⟩
    cases hpc
    exact ⟨fun heq => absurd heq h.1, h.2⟩
  | slots a slots accounts =>
    simp only [ParallelCacheState.applyStep] at hs
    split at hs
    · cases hs
      exact ⟨rfl, .inl rfl, fun pc' hpc => by cases hpc; exact h.2⟩
    · obtain ⟨⟨⟨i, value⟩, rest⟩, hpick, heq⟩ := Option.map_eq_some_iff.mp hs
      cases heq
      have hmem := mem_of_pick? hpick
      refine ⟨?_, .inl rfl, fun pc' hpc => ?_⟩
      · show Function.update cache.storage a _ address index = _
        by_cases ha : a = address
        · subst ha
          have hne : index ≠ i := by
            rintro rfl
            exact h.1 rfl (List.mem_map.mpr ⟨(index, value), (hmem _).mpr (.inl rfl), rfl⟩)
          rw [Function.update_self, Function.update_of_ne hne]
        · rw [Function.update_of_ne (Ne.symm ha)]
      · cases hpc
        refine ⟨fun ha hin => h.1 ha ?_, h.2⟩
        obtain ⟨slot, hslot, heq⟩ := List.mem_map.mp hin
        exact List.mem_map.mpr ⟨slot, (hmem slot).mpr (.inr hslot), heq⟩

end

/-! ## The answer of the cache -/

/-- A change of the account does not change the value of the slot when it
is not cached. -/
def ParallelCacheState.Firm (db : Database Err) (cache : ParallelCacheState) (address : Address)
    (index : U256) : Prop :=
  cache.isStorageKnown address = true ∨ db.SlotNeedsCode address index

/-- The slot is cached, or its value does not change when it is not. -/
def ParallelCacheState.Settled (db : Database Err) (cache : ParallelCacheState)
    (address : Address) (index : U256) : Prop :=
  (cache.storage address index).isSome = true ∨ cache.Firm db address index

/-- The status of the account and the database give `answer` for the
slot, and keep giving it. -/
structure Origin (db : Database Err) (address : Address) (index : U256) (answer : Except Err U256)
    (cache : ParallelCacheState) : Prop where
  value : answer = db.uncached (cache.isStorageKnown address) address index
  firm : cache.Firm db address index

/-- The slot reads as `answer`. -/
structure Steady (db : Database Err) (address : Address) (index : U256) (answer : Except Err U256)
    (cache : ParallelCacheState) : Prop where
  sound : ∀ c, cache.accounts address = some c → c.Sound db address
  slot : ∀ value, cache.storage address index = some value → answer = .ok value
  rest : cache.storage address index = none → Origin db address index answer cache

/-- A step keeps the answer, also for those who found the slot vacant
before it was filled. -/
structure Keeps (db : Database Err) (address : Address) (index : U256) (answer : Except Err U256)
    (cache cache' : ParallelCacheState) : Prop where
  steady : Steady db address index answer cache'
  origin : Origin db address index answer cache → Origin db address index answer cache'

/-- A load of the slot carries its value. -/
def StorageLoadPc.Fits (db : Database Err) (address : Address) (index : U256)
    (answer : Except Err U256) (cache : ParallelCacheState) : StorageLoadPc → Prop
  | .slot _ _ => True
  | .status a i => a = address → i = index → Origin db address index answer cache
  | .database a i => a = address → i = index → answer = db.storage address index
  | .insert a i value => a = address → i = index → answer = .ok value

/-- A load of any kind carries what the database holds. -/
def LoadPc.Fits (db : Database Err) (address : Address) (index : U256)
    (answer : Except Err U256) (cache : ParallelCacheState) : LoadPc → Prop
  | .basic (.insert a info) => db.basic a = .ok info
  | .storage pc => pc.Fits db address index answer cache
  | _ => True

/-- The slot that a load reads. -/
def StorageLoadPc.target : StorageLoadPc → Address × U256
  | .slot a i | .status a i | .database a i | .insert a i _ => (a, i)

section

variable {db : Database Err} {address : Address} {index : U256} {answer : Except Err U256}
  {cache cache' : ParallelCacheState}

theorem Keeps.fits (h : Keeps db address index answer cache cache') {pc : StorageLoadPc}
    (hpc : pc.Fits db address index answer cache) : pc.Fits db address index answer cache' := by
  cases pc with
  | status a i => exact fun ha hi => h.origin (hpc ha hi)
  | _ => exact hpc

theorem Keeps.fits_load (h : Keeps db address index answer cache cache') {pc : LoadPc}
    (hpc : pc.Fits db address index answer cache) : pc.Fits db address index answer cache' := by
  cases pc with
  | storage pc => exact h.fits hpc
  | code pc => trivial
  | basic pc => cases pc <;> exact hpc

theorem Steady.keeps_of_eq (h : Steady db address index answer cache)
    (hacc : cache'.accounts address = cache.accounts address)
    (hslot : cache'.storage address index = cache.storage address index) :
    Keeps db address index answer cache cache' := by
  have horigin : Origin db address index answer cache → Origin db address index answer cache' := by
    intro ho
    have hknown : cache'.isStorageKnown address = cache.isStorageKnown address := by
      rw [ParallelCacheState.isStorageKnown, hacc, ParallelCacheState.isStorageKnown]
    exact ⟨hknown ▸ ho.value, ho.firm.imp_left hknown.trans⟩
  exact ⟨⟨fun c hc => h.sound c (hacc ▸ hc), fun value hv => h.slot value (hslot ▸ hv),
    fun hn => horigin (h.rest (hslot ▸ hn))⟩, horigin⟩

theorem Steady.keeps_self (h : Steady db address index answer cache) :
    Keeps db address index answer cache cache :=
  ⟨h, id⟩

/-- A change keeps storage known. -/
theorem known_change {c : CacheAccountInfo} (h : c.Sound db address)
    (hknown : c.isStorageKnown = true) (info : AccountInfo) :
    (c.change info).isStorageKnown = true := by
  obtain ⟨account, status⟩ := c
  cases status with
  | loaded =>
    obtain ⟨i, -, rfl, -⟩ := h.loaded rfl
    cases hknown
  | changed =>
    obtain ⟨i, rfl⟩ := Option.isSome_iff_exists.mp (h.changed rfl).1
    cases hknown
  | _ => rfl

/-- New information for a cached account. -/
theorem Steady.change (h : Steady db address index answer cache)
    {c : CacheAccountInfo} {info : AccountInfo} (hc : cache.accounts address = some c)
    (hacc : cache'.accounts address = some (c.change info))
    (hslot : cache'.storage address index = cache.storage address index) :
    Keeps db address index answer cache cache' := by
  have horigin : Origin db address index answer cache → Origin db address index answer cache' := by
    intro ho
    have hnow : cache.isStorageKnown address = c.isStorageKnown := by
      rw [ParallelCacheState.isStorageKnown, hc, Option.any_some]
    have hnext : cache'.isStorageKnown address = (c.change info).isStorageKnown := by
      rw [ParallelCacheState.isStorageKnown, hacc, Option.any_some]
    rcases ho.firm with hknown | hdb
    · have hknown' := known_change (h.sound c hc) (hnow ▸ hknown) info
      exact ⟨by rw [ho.value, hknown, hnext, hknown'], .inl (hnext.trans hknown')⟩
    · refine ⟨?_, .inr hdb⟩
      rw [ho.value, hnow, hnext]
      exact (uncached_change hdb (h.sound c hc) info).symm
  refine ⟨⟨fun c' hc' => ?_, fun value hv => h.slot value (hslot ▸ hv),
    fun hn => horigin (h.rest (hslot ▸ hn))⟩, horigin⟩
  rw [hacc] at hc'
  cases hc'
  exact sound_change (h.sound c hc) info

/-- A loaded account enters the cache. -/
theorem Steady.insertLoaded (h : Steady db address index answer cache)
    {a : Address} {info : Option AccountInfo} (hinfo : db.basic a = .ok info) :
    Keeps db address index answer cache (cache.insertLoaded a info).1 := by
  by_cases ha : address = a
  · subst ha
    unfold ParallelCacheState.insertLoaded
    split
    · exact h.keeps_self
    · rename_i hvacant
      have hnew : (cache.setAccount address (.ofDatabase info)).accounts address
          = some (.ofDatabase info) := Function.update_self ..
      have horigin : Origin db address index answer cache →
          Origin db address index answer (cache.setAccount address (.ofDatabase info)) := by
        intro ho
        have hunknown : cache.isStorageKnown address = false := by
          rw [ParallelCacheState.isStorageKnown, hvacant, Option.any_none]
        have hdb := ho.firm.resolve_left (by simp [hunknown])
        refine ⟨?_, .inr hdb⟩
        rw [ho.value, hunknown, ParallelCacheState.isStorageKnown, hnew, Option.any_some]
        exact (uncached_ofDatabase hdb hinfo).symm
      refine ⟨⟨fun c hc => ?_, h.slot, fun hn => horigin (h.rest hn)⟩, horigin⟩
      rw [hnew] at hc
      cases hc
      exact sound_ofDatabase hinfo
  · refine h.keeps_of_eq (ParallelCacheState.insertLoaded_of_ne ha info) ?_
    rw [ParallelCacheState.insertLoaded_storage]

/-- A value enters a slot. -/
theorem Steady.insertSlot (h : Steady db address index answer cache) {a : Address} {i value : U256}
    (hvalue : a = address → i = index → answer = .ok value) :
    Keeps db address index answer cache (cache.insertSlot a i value).1 ∧
      (a = address → i = index → answer = .ok (cache.insertSlot a i value).2) := by
  unfold ParallelCacheState.insertSlot
  split
  · rename_i value' hv
    refine ⟨h.keeps_self, ?_⟩
    rintro rfl rfl
    exact h.slot value' hv
  · refine ⟨?_, hvalue⟩
    by_cases heq : a = address ∧ i = index
    · obtain ⟨rfl, rfl⟩ := heq
      have hnew : (cache.setSlot a i value).storage a i = some value := by
        simp [ParallelCacheState.setSlot]
      refine ⟨⟨h.sound, fun v hv => ?_, fun hn => ?_⟩, fun ho => ⟨ho.value, ho.firm⟩⟩
      · rw [hnew] at hv
        cases hv
        exact hvalue rfl rfl
      · rw [hnew] at hn
        cases hn
    · refine h.keeps_of_eq rfl ?_
      by_cases ha : address = a
      · subst ha
        have hi : index ≠ i := fun hi => heq ⟨rfl, hi.symm⟩
        simp [ParallelCacheState.setSlot, Function.update_of_ne hi]
      · simp [ParallelCacheState.setSlot, Function.update_of_ne ha]

/-- One step of `db_storage`: the next point carries a right value too,
and the answer of a load of the slot is the right one. -/
theorem Steady.storageLoadStep (h : Steady db address index answer cache) {pc : StorageLoadPc}
    {next : StorageLoadPc ⊕ Except Err U256} (hpc : pc.Fits db address index answer cache)
    (hs : cache.storageLoadStep db pc = (cache', next)) :
    Keeps db address index answer cache cache' ∧
      (∀ pc', next = .inl pc' → pc'.Fits db address index answer cache' ∧
        pc'.target = pc.target) ∧
      ∀ result, next = .inr result → pc.target = (address, index) → result = answer := by
  cases pc with
  | slot a i =>
    simp only [ParallelCacheState.storageLoadStep] at hs
    split at hs
    · rename_i value hv
      cases hs
      refine ⟨h.keeps_self, by simp, fun result hr ht => ?_⟩
      cases hr
      cases ht
      exact (h.slot value hv).symm
    · rename_i hn
      cases hs
      refine ⟨h.keeps_self, fun pc' hp => ?_, fun _ h => by cases h⟩
      cases hp
      refine ⟨?_, rfl⟩
      rintro rfl rfl
      exact h.rest hn
  | status a i =>
    simp only [ParallelCacheState.storageLoadStep] at hs
    split at hs
    · rename_i hk
      cases hs
      refine ⟨h.keeps_self, fun pc' hp => ?_, fun _ h => by cases h⟩
      cases hp
      refine ⟨?_, rfl⟩
      rintro rfl rfl
      rw [(hpc rfl rfl).value, hk]
      rfl
    · rename_i hk
      cases hs
      refine ⟨h.keeps_self, fun pc' hp => ?_, fun _ h => by cases h⟩
      cases hp
      refine ⟨?_, rfl⟩
      rintro rfl rfl
      rw [(hpc rfl rfl).value, Bool.eq_false_iff.mpr hk]
      rfl
  | database a i =>
    simp only [ParallelCacheState.storageLoadStep] at hs
    split at hs
    · rename_i value hv
      cases hs
      refine ⟨h.keeps_self, fun pc' hp => ?_, fun _ h => by cases h⟩
      cases hp
      refine ⟨?_, rfl⟩
      rintro rfl rfl
      exact (hpc rfl rfl).trans hv
    · rename_i e he
      cases hs
      refine ⟨h.keeps_self, by simp, fun result hr ht => ?_⟩
      cases hr
      cases ht
      exact ((hpc rfl rfl).trans he).symm
  | insert a i value =>
    cases hs
    have hboth := h.insertSlot hpc
    refine ⟨hboth.1, by simp, fun result hr ht => ?_⟩
    cases hr
    cases ht
    exact (hboth.2 rfl rfl).symm

theorem fits_of_quiet {next : Option LoadPc} (hnext : ∀ pc, next ≠ some (.storage pc))
    (hbasic : ∀ a info, next = some (.basic (.insert a info)) → db.basic a = .ok info)
    (pc : LoadPc) (hp : next = some pc) : pc.Fits db address index answer cache := by
  cases pc with
  | storage pc => exact absurd hp (hnext pc)
  | code pc => trivial
  | basic pc =>
    cases pc with
    | insert a info => exact hbasic a info hp
    | _ => trivial

/-- One step of a load of any kind. -/
theorem Steady.loadStep (h : Steady db address index answer cache)
    {pc : LoadPc} {next : Option LoadPc} (hpc : pc.Fits db address index answer cache)
    (hs : cache.loadStep db pc = (cache', next)) :
    Keeps db address index answer cache cache' ∧
      ∀ pc', next = some pc' → pc'.Fits db address index answer cache' := by
  cases pc with
  | storage pc =>
    simp only [ParallelCacheState.loadStep] at hs
    obtain ⟨hkeeps, hnext, -⟩ := h.storageLoadStep hpc rfl
    cases hs
    refine ⟨hkeeps, fun pc' hp => ?_⟩
    obtain ⟨pc₁, hpc₁, rfl⟩ := Option.map_eq_some_iff.mp hp
    exact (hnext pc₁ (Sum.getLeft?_eq_some_iff.mp hpc₁)).1
  | basic pc =>
    have hmove := loadMove_of_loadStep hs
    cases hmove with
    | quiet hacc hst hnext hbasic =>
      exact ⟨h.keeps_of_eq (by rw [hacc]) (by rw [hst]), fits_of_quiet hnext hbasic⟩
    | account a info => exact ⟨h.insertLoaded hpc, fun _ h => by cases h⟩
  | code pc =>
    have hmove := loadMove_of_loadStep hs
    cases hmove with
    | quiet hacc hst hnext hbasic =>
      exact ⟨h.keeps_of_eq (by rw [hacc]) (by rw [hst]), fits_of_quiet hnext hbasic⟩

/-- One step of a commit that leaves the slot alone. -/
theorem Steady.applyStep (h : Steady db address index answer cache)
    {next : Option ApplyPc} (hstays : SlotStays cache address index cache' next) :
    Keeps db address index answer cache cache' := by
  rcases hstays.account with hacc | ⟨c, info, hc, hacc⟩
  · exact h.keeps_of_eq hacc hstays.slot
  · exact h.change hc hacc hstays.slot

end

/-! ## Runs -/

/-- Where the reader is, and what it carries. -/
def SlotRead.Fits {db : Database Err} (address : Address) (index : U256)
    (answer : Except Err U256) (cache : ParallelCacheState) :
    CallPc (parallelState db) ⊕ Except Err Value → Prop
  | .inl (.storageReset a i) => a = address ∧ i = index
  | .inl (.storageSlot a i reset) => a = address ∧ i = index ∧ reset = none
  | .inl (.storageBacking a i pc) =>
    a = address ∧ i = index ∧ StorageLoadPc.target pc = (address, index) ∧
      StorageLoadPc.Fits db address index answer cache pc
  | .inl _ => False
  | .inr result => result = answer.map .word

structure SlotInv {db : Database Err} {n : Nat} (address : Address) (index : U256)
    (answer : Except Err U256) (s : SlotRead db n) : Prop where
  steady : Steady db address index answer s.shared.cache
  loads : ∀ w pc, s.shared.loads w = some pc → pc.Fits db address index answer s.shared.cache
  commit : ∀ state pc, s.shared.commit = some (state, pc) → pc.Leaves address index
  reader : SlotRead.Fits address index answer s.shared.cache s.pc

section

variable {db : Database Err} {n txid : Nat} {address : Address} {index : U256}
  {answer : Except Err U256} {s s' : SlotRead db n} {cache cache' : ParallelCacheState}

theorem Keeps.fits_reader (h : Keeps db address index answer cache cache')
    {pc : CallPc (parallelState db) ⊕ Except Err Value}
    (hpc : SlotRead.Fits address index answer cache pc) :
    SlotRead.Fits address index answer cache' pc := by
  cases pc with
  | inr result => exact hpc
  | inl pc =>
    cases pc with
    | storageBacking a i pc => exact ⟨hpc.1, hpc.2.1, hpc.2.2.1, h.fits hpc.2.2.2⟩
    | _ => exact hpc

/-- A step of the others. -/
theorem SlotInv.other (h : SlotInv address index answer s)
    {action : CacheAction n} {shared : CacheState n}
    (hok : action.Unpublished address index)
    (hs : cacheStep db s.shared action = some shared) :
    SlotInv address index answer { s with shared } := by
  cases action with
  | call w call =>
    simp only [cacheStep] at hs
    split at hs
    · cases hs
    · cases hs
      refine ⟨h.steady, fun w' pc hw => ?_, h.commit, h.reader⟩
      by_cases hww : w' = w
      · subst hww
        obtain rfl : call.start = pc := by simpa using hw
        cases call <;> trivial
      · exact h.loads w' pc (by simpa [hww] using hw)
  | load w =>
    obtain ⟨pc, hpc, heq⟩ := Option.map_eq_some_iff.mp hs
    cases heq
    obtain ⟨hkeeps, hnext⟩ := h.steady.loadStep (h.loads w pc hpc) rfl
    refine ⟨hkeeps.steady, fun w' pc' hw => ?_, h.commit, hkeeps.fits_reader h.reader⟩
    by_cases hww : w' = w
    · subst hww
      have hpc' : (s.shared.cache.loadStep db pc).2 = some pc' := by simpa using hw
      exact hnext pc' hpc'
    · exact hkeeps.fits_load (h.loads w' pc' (by simpa [hww] using hw))
  | commit state =>
    simp only [cacheStep] at hs
    split at hs
    · cases hs
    · cases hs
      refine ⟨h.steady, h.loads, fun state' pc hc => ?_, h.reader⟩
      cases hc
      intro account hmem
      refine Account.leaves_of_not_publishes hok.1 hok.2 (AList.mem_lookup_iff.mpr ?_)
      simpa using hmem
  | apply c =>
    obtain ⟨⟨state, pc⟩, hcommit, hs⟩ := Option.bind_eq_some_iff.mp hs
    obtain ⟨⟨cache', next⟩, happly, heq⟩ := Option.map_eq_some_iff.mp hs
    have hstays := (h.commit state pc hcommit).step happly
    have hkeeps := h.steady.applyStep hstays
    cases next with
    | some pc' =>
      cases heq
      refine ⟨hkeeps.steady, fun w pc hw => hkeeps.fits_load (h.loads w pc hw),
        fun state' pc₁ hc => ?_, hkeeps.fits_reader h.reader⟩
      cases hc
      exact hstays.next pc' rfl
    | none =>
      cases heq
      exact ⟨hkeeps.steady, fun w pc hw => hkeeps.fits_load (h.loads w pc hw), by simp,
        hkeeps.fits_reader h.reader⟩

theorem lookup_eq_none {mv : MVMemory} {location : LocationAndType}
    (h : MVMemory.latestBefore (mv location) txid = none) : lookup mv txid location = none := by
  simp [lookup, h]

/-- An access of the reader. -/
theorem SlotInv.access (h : SlotInv address index answer s) {mv : MVMemory}
    (hok : Unpublished txid address index s (.access mv))
    (hs : slotReadStep db txid s (.access mv) = some s') : SlotInv address index answer s' := by
  obtain ⟨pc, hpc, heq⟩ := Option.map_eq_some_iff.mp hs
  rw [Sum.getLeft?_eq_some_iff] at hpc
  have hreader := h.reader
  rw [hpc] at hreader
  cases pc with
  | storageReset a i =>
    obtain ⟨rfl, rfl⟩ := hreader
    simp only [callStep, lookup_eq_none hok.1] at heq
    subst heq
    exact ⟨h.steady, h.loads, h.commit, rfl, rfl, rfl⟩
  | storageSlot a i reset =>
    obtain ⟨rfl, rfl, rfl⟩ := hreader
    simp only [callStep, lookup_eq_none hok.2] at heq
    subst heq
    exact ⟨h.steady, h.loads, h.commit, rfl, rfl, rfl, trivial⟩
  | storageBacking a i pc =>
    obtain ⟨rfl, rfl, htarget, hfits⟩ := hreader
    obtain ⟨cache', next, hstep⟩ :
        ∃ cache' next, (parallelState db).storageStep s.shared.cache pc = (cache', next) :=
      ⟨_, _, rfl⟩
    obtain ⟨hkeeps, hnext, hanswer⟩ := h.steady.storageLoadStep hfits hstep
    have hloads := fun w pc hw => hkeeps.fits_load (h.loads w pc hw)
    cases next with
    | inl pc' =>
      obtain ⟨hfits', htarget'⟩ := hnext pc' rfl
      simp only [callStep, hstep] at heq
      subst heq
      exact ⟨hkeeps.steady, hloads, h.commit, rfl, rfl, htarget'.trans htarget, hfits'⟩
    | inr result =>
      simp only [callStep, hstep] at heq
      subst heq
      exact ⟨hkeeps.steady, hloads, h.commit, congrArg _ (hanswer result rfl htarget)⟩
  | _ => exact hreader.elim

end

/-! ## The start of a block -/

/-- Every cached account is sound, and a loaded account on its way into
the cache comes from the database. -/
structure SoundCache (db : Database Err) {n : Nat} (s : CacheState n) : Prop where
  accounts : ∀ address c, s.cache.accounts address = some c → c.Sound db address
  loads : ∀ w a info, s.loads w = some (.basic (.insert a info)) → db.basic a = .ok info

section

variable {db : Database Err} {n : Nat} {s s' : CacheState n} {cache cache' : ParallelCacheState}
  {address : Address} {index : U256}

theorem sound_changeAccount {account : Account} {c : CacheAccountInfo} (h : c.Sound db address) :
    (ParallelCacheState.changeAccount account c).Sound db address := by
  cases hclears : account.clears with
  | true => exact .of_known (known_of_changeAccount hclears)
  | false =>
    rw [changeAccount_of_not_clears hclears]
    exact sound_change h account.info

/-- A load inserts a sound account. -/
theorem LoadMove.sound {pc : LoadPc} {next : Option LoadPc}
    (h : LoadMove db cache pc cache' next)
    (hsound : ∀ address c, cache.accounts address = some c → c.Sound db address)
    (hpc : ∀ a info, pc = .basic (.insert a info) → db.basic a = .ok info)
    (address : Address) (c : CacheAccountInfo) (hc : cache'.accounts address = some c) :
    c.Sound db address := by
  cases h with
  | quiet hacc => exact hsound address c (hacc ▸ hc)
  | account a info =>
    by_cases ha : address = a
    · subst ha
      unfold ParallelCacheState.insertLoaded at hc
      split at hc
      · exact hsound address c hc
      · rw [show (cache.setAccount address (.ofDatabase info)).accounts address = _ from
          Function.update_self ..] at hc
        cases hc
        exact sound_ofDatabase (hpc address info rfl)
    · rw [ParallelCacheState.insertLoaded_of_ne ha] at hc
      exact hsound address c hc
  | slot a i v =>
    refine hsound address c ?_
    rw [← hc]
    unfold ParallelCacheState.insertSlot
    split <;> rfl
  | _ => exact hsound address c hc

theorem LoadMove.fetched {pc : LoadPc} {next : Option LoadPc}
    (h : LoadMove db cache pc cache' next) (a : Address) (info : Option AccountInfo)
    (hnext : next = some (.basic (.insert a info))) : db.basic a = .ok info := by
  cases h with
  | quiet _ _ _ hbasic => exact hbasic a info hnext
  | _ => cases hnext

theorem SoundCache.step {a : CacheAction n} (h : SoundCache db s)
    (hs : cacheStep db s a = some s') : SoundCache db s' := by
  cases a with
  | call w call =>
    simp only [cacheStep] at hs
    split at hs
    · cases hs
    · cases hs
      refine ⟨h.accounts, fun w' a info hw => ?_⟩
      by_cases hww : w' = w
      · subst hww
        obtain heq : call.start = .basic (.insert a info) := by simpa using hw
        cases call <;> cases heq
      · exact h.loads w' a info (by simpa [hww] using hw)
  | load w =>
    obtain ⟨pc, hpc, heq⟩ := Option.map_eq_some_iff.mp hs
    cases heq
    have hmove : LoadMove db s.cache pc _ _ := loadMove_of_loadStep rfl
    refine ⟨fun address c hc => ?_, fun w' a info hw => ?_⟩
    · exact hmove.sound h.accounts (fun a info heq => h.loads w a info (heq ▸ hpc)) address c hc
    · by_cases hww : w' = w
      · subst hww
        have hnext : (s.cache.loadStep db pc).2 = some (.basic (.insert a info)) := by
          simpa using hw
        exact hmove.fetched a info hnext
      · exact h.loads w' a info (by simpa [hww] using hw)
  | commit state =>
    simp only [cacheStep] at hs
    split at hs
    · cases hs
    · cases hs
      exact ⟨h.accounts, h.loads⟩
  | apply c =>
    obtain ⟨⟨state, pc⟩, hcommit, hs⟩ := Option.bind_eq_some_iff.mp hs
    obtain ⟨⟨cache', next⟩, happly, heq⟩ := Option.map_eq_some_iff.mp hs
    have hsound : ∀ address c, cache'.accounts address = some c → c.Sound db address := by
      intro address c hc
      rcases ParallelCacheState.accounts_applyStep happly with
        heq | ⟨a, account, c₀, hc₀, heq⟩
      · exact h.accounts address c (heq ▸ hc)
      · rw [heq] at hc
        by_cases ha : address = a
        · subst ha
          rw [Function.update_self] at hc
          cases hc
          exact sound_changeAccount (h.accounts address c₀ hc₀)
        · rw [Function.update_of_ne ha] at hc
          exact h.accounts address c hc
    cases next <;> cases heq <;> exact ⟨hsound, h.loads⟩

end

/-! ## Reads that disagree -/

section

variable {db : Database Err} {n txid : Nat} {address : Address} {index : U256}

end

/-! ## Reads that agree -/

namespace SlotReadAction

end SlotReadAction

end Grevm
