/-
Grevm.CacheCoherence — concurrent loads against ordered commits.

Any number of workers call into the cache of `Grevm.ParallelState` while
the commit thread applies finalized change sets one after the other;
every map operation and every database call is a step. The reference is
`Plain.overlay`: the database under the change sets committed so far.

A deletion or a creation removes the whole slot map of the account and
changes its status in a later step, and nothing marks the removed slots.
A load that found the status unknown before the change holds a database
value that the removal is meant to hide, and inserts it afterwards:
`removed_slot_comes_back`. `raceFree` is the condition that no load does:
while the slot map of an account is removed and its status not yet
changed, no load of that account is on its way with a non-zero database
value. Under it the cache is coherent (`coherent_cache_of_race_free`).

The invariant says for each address what the cache is expected to agree
with (`Expect`): the account before or after the commit in progress,
whether its slots are being cleared, and which slots the commit has not
written yet. `Follows` is what one commit step does to an address.
-/
import Grevm.ParallelState
import Grevm.Plain
import Grevm.Runs

namespace Grevm

open Runs

variable {Err : Type}

/-! ## The system -/

/-- A call of a worker into the cache. -/
inductive LoadCall where
  | basic (address : Address)
  | code (codeHash : B256)
  | storage (address : Address) (index : U256)
  deriving DecidableEq

inductive LoadPc where
  | basic (pc : BasicLoadPc)
  | code (pc : CodeLoadPc)
  | storage (pc : StorageLoadPc)
  deriving DecidableEq

def LoadCall.start : LoadCall → LoadPc
  | .basic address => .basic (.lookup address)
  | .code codeHash => .code (.lookup codeHash)
  | .storage address index => .storage (.slot address index)

/-- One step of a call, without the answer that ends it. -/
def ParallelCacheState.loadStep (db : Database Err) (cache : ParallelCacheState) :
    LoadPc → ParallelCacheState × Option LoadPc
  | .basic pc =>
    let (cache, next) := cache.basicLoadStep db pc
    (cache, next.getLeft?.map .basic)
  | .code pc =>
    let (cache, next) := cache.codeLoadStep db pc
    (cache, next.getLeft?.map .code)
  | .storage pc =>
    let (cache, next) := cache.storageLoadStep db pc
    (cache, next.getLeft?.map .storage)

/-- The cache, the calls in progress, the commit in progress, and the
change sets committed so far. -/
structure CacheState (n : Nat) where
  cache : ParallelCacheState := {}
  loads : Fin n → Option LoadPc := fun _ => none
  commit : Option (EvmState × ApplyPc) := none
  committed : List EvmState := []

inductive CacheAction (n : Nat) where
  | call (worker : Fin n) (call : LoadCall)
  | load (worker : Fin n)
  | commit (state : EvmState)
  | apply (c : Nat)

/-- Where `commit` begins. -/
def ApplyPc.start (state : EvmState) : ApplyPc :=
  .next (state.entries.map fun e => (e.1, e.2))

def cacheStep (db : Database Err) {n : Nat} (s : CacheState n) :
    CacheAction n → Option (CacheState n)
  | .call worker call =>
    if (s.loads worker).isSome then none
    else some { s with loads := Function.update s.loads worker (some call.start) }
  | .load worker =>
    (s.loads worker).map fun pc =>
      let (cache, next) := s.cache.loadStep db pc
      { s with cache, loads := Function.update s.loads worker next }
  | .commit state =>
    if s.commit.isSome then none else some { s with commit := some (state, .start state) }
  | .apply c =>
    s.commit.bind fun (state, pc) =>
      (s.cache.applyStep c pc).map fun (cache, next) =>
        match next with
        | some pc => { s with cache, commit := some (state, pc) }
        | none => { s with cache, commit := none, committed := s.committed ++ [state] }

/-- No call and no commit is in progress. -/
def CacheState.Quiet {n : Nat} (s : CacheState n) : Prop :=
  (∀ w, s.loads w = none) ∧ s.commit = none

/-! ## Races -/

/-- The commit of this account removes its slot map. -/
def Account.clears (account : Account) : Bool :=
  account.selfdestructed || account.created || account.isEmpty

/-- The slot map of `address` is removed and its status not yet
changed. -/
def ApplyPc.clearing (address : Address) : ApplyPc → Bool
  | .change a account _ => a == address && account.clears
  | _ => false

/-- The load is about to fetch or to insert a non-zero database value of
`address`. -/
def StorageLoadPc.fetches (db : Database Err) (address : Address) : StorageLoadPc → Bool
  | .database a index =>
    a == address && match db.storage a index with
      | .ok value => value != 0
      | .error _ => false
  | .insert a _ value => a == address && value != 0
  | _ => false

/-- No load carries a database value into a slot map under removal. -/
def CacheState.raceFree (db : Database Err) {n : Nat} (s : CacheState n) : Bool :=
  match s.commit with
  | some (_, .change address account _) =>
    !account.clears || decide (∀ w, ((s.loads w).all fun
      | .storage pc => !pc.fetches db address
      | _ => true) = true)
  | _ => true

/-- The step leads to a state without such a load. -/
def raceFreeStep (db : Database Err) {n : Nat} (s : CacheState n) (a : CacheAction n) : Bool :=
  (cacheStep db s a).all (CacheState.raceFree db)

/-! ## The reference -/

/-- The account of the database, as a load gives it: an empty account is
the default account. -/
def Plain.ofDatabase (db : Database Err) (address : Address) : Plain Err :=
  { basic := (db.basic address).map fun info => (CacheAccountInfo.ofDatabase info).account
    storage := db.storage address }

/-- Absent accounts and accounts with neither code nor nonce have no
storage in the database. -/
def Database.StorageNeedsCode (db : Database Err) : Prop :=
  ∀ address info index, db.basic address = .ok info →
    (info.all fun i => i.isEmpty || i.hasNoCodeAndNonce) = true →
    db.storage address index = .ok 0

/-- Unless the account has code or a nonce, the slot is empty in the
database. -/
def Database.SlotNeedsCode (db : Database Err) (address : Address) (index : U256) : Prop :=
  ∀ info, db.basic address = .ok info →
    (info.all fun i => i.isEmpty || i.hasNoCodeAndNonce) = true →
    db.storage address index = .ok 0

theorem Database.StorageNeedsCode.slot {db : Database Err} (h : db.StorageNeedsCode)
    (address : Address) (index : U256) : db.SlotNeedsCode address index :=
  fun info => h address info index

/-- What the cache is expected to agree with at one address. -/
structure Expect (Err : Type) where
  plain : Plain Err
  cleared : Bool := false
  unwritten : List U256 := []

/-- The value may be in the slot, or on its way there. -/
def Expect.Admits (E : Expect Err) (index value : U256) : Prop :=
  if E.cleared then value = 0 else index ∉ E.unwritten → E.plain.storage index = .ok value

/-- The accounts whose status the commit has not changed yet. -/
def ApplyPc.pending : ApplyPc → List (Address × Account)
  | .next accounts => accounts
  | .removeStorage address account accounts | .change address account accounts =>
    (address, account) :: accounts
  | .contract _ _ accounts | .slots _ _ accounts => accounts

/-- The slots of `address` that the commit is about to write. -/
def ApplyPc.unwritten (address : Address) : ApplyPc → List U256
  | .contract a account _ =>
    if a = address then account.changedStorageSlots.map Prod.fst else []
  | .slots a left _ => if a = address then left.map Prod.fst else []
  | _ => []

def ApplyPc.expect (before after : Address → Plain Err) (pc : ApplyPc) (address : Address) :
    Expect Err :=
  { plain := if address ∈ pc.pending.map Prod.fst then before address else after address
    cleared := pc.clearing address
    unwritten := pc.unwritten address }

def CacheState.reference (db : Database Err) {n : Nat} (s : CacheState n) :
    Address → Plain Err :=
  Plain.overlay (Plain.ofDatabase db) s.committed

def CacheState.expect (db : Database Err) {n : Nat} (s : CacheState n) (address : Address) :
    Expect Err :=
  match s.commit with
  | none => { plain := s.reference db address }
  | some (state, pc) =>
    pc.expect (s.reference db) (Plain.applyState (s.reference db) state) address

/-! ## What is cached of an account -/

/-- The status tells where the cached account comes from. -/
structure CacheAccountInfo.Sound (db : Database Err) (address : Address) (c : CacheAccountInfo) :
    Prop where
  loaded : c.status = .loaded →
    ∃ info : AccountInfo, info.isEmpty = false ∧ c.account = some info ∧
      db.basic address = .ok (some info)
  loadedEmpty : c.status = .loadedEmptyEIP161 →
    ∃ info : AccountInfo, info.isEmpty = true ∧ db.basic address = .ok (some info)
  changed : c.status = .changed → c.account.isSome ∧
    ∃ info : AccountInfo, info.isEmpty = false ∧ info.hasNoCodeAndNonce = false ∧
      db.basic address = .ok (some info)

/-- The value of a slot that is not cached. -/
def Database.uncached (db : Database Err) (known : Bool) (address : Address) (index : U256) :
    Except Err U256 :=
  if known then .ok 0 else db.storage address index

structure Coherent (db : Database Err) (cache : ParallelCacheState) (address : Address)
    (E : Expect Err) : Prop where
  vacant : cache.accounts address = none → E.plain.basic = (Plain.ofDatabase db address).basic
  account : ∀ c, cache.accounts address = some c → E.plain.basic = .ok c.account
  sound : ∀ c, cache.accounts address = some c → c.Sound db address
  slot : ∀ index value, cache.storage address index = some value → E.Admits index value
  rest : E.cleared = false → ∀ index, index ∉ E.unwritten → cache.storage address index = none →
    E.plain.storage index = db.uncached (cache.isStorageKnown address) address index

/-- What one step of a commit does to an address: the cache stays
coherent, and so do the values on their way into vacant slots. -/
structure Follows (db : Database Err) (address : Address) (cache : ParallelCacheState)
    (E : Expect Err) (cache' : ParallelCacheState) (E' : Expect Err) : Prop where
  coherent : Coherent db cache address E → Coherent db cache' address E'
  admits : ∀ index value, (E'.cleared = true → value = 0) →
    (cache.storage address index = none → E.Admits index value) →
    cache'.storage address index = none → E'.Admits index value

section

variable {db : Database Err} {address : Address} {cache cache' : ParallelCacheState}
  {c : CacheAccountInfo} {E E' : Expect Err}

/-- A status that makes the storage known says nothing about the
database. -/
theorem CacheAccountInfo.Sound.of_known (h : c.status.isStorageKnown = true) :
    c.Sound db address := by
  refine ⟨fun hs => ?_, fun hs => ?_, fun hs => ?_⟩ <;>
    simp [hs, AccountStatus.isStorageKnown] at h

/-- A cached account that a load put there: the slots not cached have the
values of the database. -/
theorem uncached_ofDatabase {index : U256} (hdb : db.SlotNeedsCode address index)
    {info : Option AccountInfo} (h : db.basic address = .ok info) :
    db.uncached (CacheAccountInfo.ofDatabase info).isStorageKnown address index =
      db.storage address index := by
  cases info with
  | none => exact (hdb none h rfl).symm
  | some i =>
    by_cases he : i.isEmpty = true <;>
      simp [CacheAccountInfo.ofDatabase, he, CacheAccountInfo.isStorageKnown,
        AccountStatus.isStorageKnown, Database.uncached]

theorem sound_ofDatabase {info : Option AccountInfo} (h : db.basic address = .ok info) :
    (CacheAccountInfo.ofDatabase info).Sound db address := by
  cases info with
  | none => exact .of_known rfl
  | some i =>
    by_cases he : i.isEmpty = true
    · simp only [CacheAccountInfo.ofDatabase, if_pos he]
      exact ⟨nofun, fun _ => ⟨i, he, h⟩, nofun⟩
    · simp only [CacheAccountInfo.ofDatabase, if_neg he]
      exact ⟨fun _ => ⟨i, by simpa using he, rfl, h⟩, nofun, nofun⟩

/-- A change that makes the storage known keeps the values of the slots
that are not cached: only an account that has no storage in the database
becomes known without being cleared. -/
theorem uncached_change {index : U256} (hdb : db.SlotNeedsCode address index)
    (h : c.Sound db address) (info : AccountInfo) :
    db.uncached (c.change info).isStorageKnown address index =
      db.uncached c.isStorageKnown address index := by
  obtain ⟨account, status⟩ := c
  cases status with
  | loaded =>
    obtain ⟨i, -, rfl, hbasic⟩ := h.loaded rfl
    by_cases hcode : i.hasNoCodeAndNonce = true
    · have hzero := hdb (some i) hbasic (by simp [hcode])
      simp [CacheAccountInfo.change, CacheAccountInfo.isStorageKnown, AccountStatus.onChanged,
        AccountStatus.isStorageKnown, Database.uncached, hcode, hzero]
    · simp [CacheAccountInfo.change, CacheAccountInfo.isStorageKnown, AccountStatus.onChanged,
        AccountStatus.isStorageKnown, Database.uncached, hcode]
  | loadedEmptyEIP161 =>
    obtain ⟨i, he, hbasic⟩ := h.loadedEmpty rfl
    have hzero := hdb (some i) hbasic (by simp [he])
    simp [Database.uncached, hzero]
  | changed =>
    obtain ⟨i, rfl⟩ := Option.isSome_iff_exists.mp (h.changed rfl).1
    rfl
  | _ => rfl

/-- Only an account with code or a nonce in the database becomes
`Changed`. -/
theorem sound_change (h : c.Sound db address) (info : AccountInfo) :
    (c.change info).Sound db address := by
  obtain ⟨account, status⟩ := c
  cases status with
  | loaded =>
    obtain ⟨i, hne, rfl, hbasic⟩ := h.loaded rfl
    cases hcode : i.hasNoCodeAndNonce with
    | true => exact .of_known (by simp [CacheAccountInfo.change, AccountStatus.onChanged, hcode,
        AccountStatus.isStorageKnown])
    | false =>
      refine ⟨fun hs => ?_, fun hs => ?_, fun _ => ⟨rfl, i, hne, hcode, hbasic⟩⟩ <;>
        simp [CacheAccountInfo.change, AccountStatus.onChanged, hcode] at hs
  | changed =>
    exact ⟨fun hs => (by cases hs), fun hs => (by cases hs), fun _ => ⟨rfl, (h.changed rfl).2⟩⟩
  | _ => exact .of_known rfl

theorem changeAccount_of_not_clears {account : Account} (h : account.clears = false) :
    ParallelCacheState.changeAccount account c = c.change account.info := by
  simp only [Account.clears, Bool.or_eq_false_iff] at h
  simp [ParallelCacheState.changeAccount, h]

/-- After a deletion or a creation the storage is known. -/
theorem known_of_changeAccount {account : Account} (hclears : account.clears = true) :
    (ParallelCacheState.changeAccount account c).status.isStorageKnown = true := by
  obtain ⟨info, status⟩ := c
  unfold ParallelCacheState.changeAccount
  split
  · cases status <;> rfl
  · split
    · cases status <;> rfl
    · split
      · cases status <;> rfl
      · simp_all [Account.clears]

/-! ## Loads -/

theorem ParallelCacheState.insertLoaded_storage (info : Option AccountInfo) :
    (cache.insertLoaded address info).1.storage = cache.storage := by
  unfold insertLoaded
  split <;> rfl

theorem ParallelCacheState.insertLoaded_of_ne {a : Address} (h : a ≠ address)
    (info : Option AccountInfo) :
    (cache.insertLoaded address info).1.accounts a = cache.accounts a := by
  unfold insertLoaded
  split
  · rfl
  · exact Function.update_of_ne h _ _

/-- What is cached of other addresses does not matter. -/
theorem Coherent.congr (h : Coherent db cache address E)
    (hacc : cache'.accounts address = cache.accounts address)
    (hst : cache'.storage address = cache.storage address) : Coherent db cache' address E where
  vacant := by rw [hacc]; exact h.vacant
  account := by rw [hacc]; exact h.account
  sound := by rw [hacc]; exact h.sound
  slot := by rw [hst]; exact h.slot
  rest := by
    rw [hst, ParallelCacheState.isStorageKnown, hacc]
    exact h.rest

/-- A load inserts its account into a vacant entry. -/
theorem Coherent.insertLoaded (hdb : db.StorageNeedsCode) (h : Coherent db cache address E)
    {a : Address} {info : Option AccountInfo} (hinfo : db.basic a = .ok info) :
    Coherent db (cache.insertLoaded a info).1 address E := by
  by_cases ha : address = a
  · subst ha
    cases hvac : cache.accounts address with
    | some c =>
      have heq : (cache.insertLoaded address info).1 = cache := by
        simp [ParallelCacheState.insertLoaded, hvac]
      rwa [heq]
    | none =>
      have hnew : (cache.insertLoaded address info).1.accounts address =
          some (.ofDatabase info) := by
        simp [ParallelCacheState.insertLoaded, hvac, ParallelCacheState.setAccount]
      refine ⟨fun hc => ?_, fun c hc => ?_, fun c hc => ?_, ?_, fun hcl index hw hn => ?_⟩
      · rw [hnew] at hc
        cases hc
      · rw [hnew] at hc
        cases hc
        rw [h.vacant hvac, Plain.ofDatabase, hinfo]
        rfl
      · rw [hnew] at hc
        cases hc
        exact sound_ofDatabase hinfo
      · rw [ParallelCacheState.insertLoaded_storage]
        exact h.slot
      · rw [ParallelCacheState.insertLoaded_storage] at hn
        rw [h.rest hcl index hw hn, ParallelCacheState.isStorageKnown, hvac,
          ParallelCacheState.isStorageKnown, hnew]
        exact (uncached_ofDatabase (hdb.slot address index) hinfo).symm
  · exact h.congr (ParallelCacheState.insertLoaded_of_ne ha info)
      (by rw [ParallelCacheState.insertLoaded_storage])

/-- A load inserts a value that the slot admits. -/
theorem Coherent.insertSlot (h : Coherent db cache address E) {a : Address} {index value : U256}
    (hv : a = address → cache.storage a index = none → E.Admits index value) :
    Coherent db (cache.insertSlot a index value).1 address E := by
  cases hslot : cache.storage a index with
  | some v =>
    have heq : (cache.insertSlot a index value).1 = cache := by
      simp [ParallelCacheState.insertSlot, hslot]
    rwa [heq]
  | none =>
    have heq : (cache.insertSlot a index value).1 = cache.setSlot a index value := by
      simp [ParallelCacheState.insertSlot, hslot]
    rw [heq]
    by_cases ha : a = address
    · subst ha
      refine ⟨h.vacant, h.account, h.sound, fun i v hi => ?_, fun hcl i hw hn => ?_⟩
      · by_cases hii : i = index
        · subst hii
          have : v = value := by simpa [ParallelCacheState.setSlot] using hi.symm
          subst this
          exact hv rfl hslot
        · exact h.slot i v (by simpa [ParallelCacheState.setSlot, hii] using hi)
      · have hii : i ≠ index := by
          rintro rfl
          simp [ParallelCacheState.setSlot] at hn
        exact h.rest hcl i hw (by simpa [ParallelCacheState.setSlot, hii] using hn)
    · exact h.congr rfl (Function.update_of_ne (Ne.symm ha) _ _)

/-! ## Commit steps at one address -/

theorem Follows.congr (hacc : cache'.accounts address = cache.accounts address)
    (hst : cache'.storage address = cache.storage address) (hE : E' = E) :
    Follows db address cache E cache' E' := by
  subst hE
  exact ⟨fun h => h.congr hacc hst, fun index value _ h hn => h (by rwa [hst] at hn)⟩

/-- The slot map is removed. -/
theorem Follows.removeStorage (hp : E'.plain = E.plain) (hcl : E'.cleared = true) :
    Follows db address cache E (cache.removeStorage address) E' := by
  have hnone : ∀ index, (cache.removeStorage address).storage address index = none := fun _ => by
    simp [ParallelCacheState.removeStorage]
  constructor
  · intro h
    refine ⟨hp.symm ▸ h.vacant, hp.symm ▸ h.account, h.sound, fun index v hv => ?_, fun hf => ?_⟩
    · rw [hnone] at hv
      cases hv
    · rw [hcl] at hf
      cases hf
  · intro index value hz _ _
    rw [Expect.Admits, if_pos hcl]
    exact hz hcl

/-- The slots that the commit of a touched account writes. -/
def Account.written (account : Account) : List U256 :=
  if account.selfdestructed then []
  else if !account.created && account.isEmpty then []
  else account.changedStorageSlots.map Prod.fst

variable {account : Account}

theorem Plain.apply_basic {p : Plain Err} (ht : account.touched = true) :
    (p.apply account).basic = .ok (ParallelCacheState.changeAccount account c).account := by
  unfold ParallelCacheState.changeAccount
  split
  next hd =>
    rw [apply_deleted ht (.inl hd)]
    rfl
  next hd =>
    simp only [Bool.not_eq_true] at hd
    split
    next hc =>
      rw [apply_created ht hd hc]
      rfl
    next hc =>
      simp only [Bool.not_eq_true] at hc
      split
      next he =>
        rw [apply_deleted ht (.inr ⟨hc, he⟩)]
        rfl
      next he =>
        rw [apply_updated ht hd hc (by simpa using he)]
        rfl

theorem Plain.apply_storage_of_clears {p : Plain Err} {index : U256} (ht : account.touched = true)
    (hcl : account.clears = true) (hw : index ∉ account.written) :
    (p.apply account).storage index = .ok 0 := by
  by_cases hd : account.selfdestructed = true
  · rw [apply_deleted ht (.inl hd)]
  · simp only [Bool.not_eq_true] at hd
    by_cases hc : account.created = true
    · rw [apply_created ht hd hc]
      have : account.changedSlot index = none :=
        account.changedSlot_eq_none (by simpa [Account.written, hd, hc] using hw)
      simp [this]
    · simp only [Bool.not_eq_true] at hc
      have he : account.isEmpty = true := by simpa [Account.clears, hd, hc] using hcl
      rw [apply_deleted ht (.inr ⟨hc, he⟩)]

theorem Plain.apply_storage_of_not_clears {p : Plain Err} {index : U256}
    (ht : account.touched = true) (hcl : account.clears = false) (hw : index ∉ account.written) :
    (p.apply account).storage index = p.storage index := by
  simp only [Account.clears, Bool.or_eq_false_iff] at hcl
  obtain ⟨⟨hd, hc⟩, he⟩ := hcl
  rw [apply_updated ht hd hc he]
  have : account.changedSlot index = none :=
    account.changedSlot_eq_none (by simpa [Account.written, hd, hc, he] using hw)
  simp [this]

/-- Every slot the commit writes gets the value of the reference. -/
theorem Plain.apply_storage_of_written {p : Plain Err} {index value : U256}
    (ht : account.touched = true) (hd : account.selfdestructed = false)
    (he : account.created = false → account.isEmpty = false)
    (h : (index, value) ∈ account.changedStorageSlots) :
    (p.apply account).storage index = .ok value := by
  have hslot := Account.mem_changedStorageSlots.mp h
  cases hc : account.created with
  | true =>
    rw [apply_created ht hd hc]
    simp [hslot]
  | false =>
    rw [apply_updated ht hd hc (he hc)]
    simp [hslot]

/-- A changed account is stored, and its slots are left alone. -/
theorem Follows.setAccount {c' : CacheAccountInfo}
    (hc' : ParallelCacheState.changeAccount account c = c')
    (ht : account.touched = true) (hp : E'.plain = E.plain.apply account)
    (hadmits : ∀ index value, E.Admits index value → E'.Admits index value)
    (hsound : Coherent db cache address E → c'.Sound db address)
    (hrest : Coherent db cache address E → ∀ index, index ∉ E'.unwritten →
      cache.storage address index = none →
        E'.plain.storage index = db.uncached c'.isStorageKnown address index) :
    Follows db address cache E (cache.setAccount address c') E' := by
  have hnew : (cache.setAccount address c').accounts address = some c' := by
    simp [ParallelCacheState.setAccount]
  constructor
  · intro h
    refine ⟨fun hn => ?_, fun c₁ h₁ => ?_, fun c₁ h₁ => ?_, fun index v hv => ?_,
      fun _ index hi hn => ?_⟩
    · rw [hnew] at hn
      cases hn
    · rw [hnew] at h₁
      cases h₁
      rw [hp, ← hc']
      exact Plain.apply_basic ht
    · rw [hnew] at h₁
      cases h₁
      exact hsound h
    · exact hadmits index v (h.slot index v hv)
    · rw [ParallelCacheState.isStorageKnown, hnew, Option.any_some]
      exact hrest h index hi hn
  · exact fun index value _ h hn => hadmits index value (h hn)

/-- The status of a cleared account changes. -/
theorem Follows.clear (c : CacheAccountInfo) (ht : account.touched = true)
    (hclears : account.clears = true) (hcl : E.cleared = true) (hcl' : E'.cleared = false)
    (hp : E'.plain = E.plain.apply account) (hw : E'.unwritten = account.written) :
    Follows db address cache E
      (cache.setAccount address (ParallelCacheState.changeAccount account c)) E' := by
  have hzero : ∀ index, index ∉ E'.unwritten → E'.plain.storage index = .ok 0 := by
    intro index hi
    rw [hp]
    exact Plain.apply_storage_of_clears ht hclears (hw ▸ hi)
  have hadmits : ∀ index value, E.Admits index value → E'.Admits index value := by
    intro index value h
    rw [Expect.Admits, if_pos hcl] at h
    subst h
    rw [Expect.Admits, hcl', if_neg (by simp)]
    exact hzero index
  have hknown := known_of_changeAccount (c := c) hclears
  refine .setAccount rfl ht hp hadmits (fun _ => .of_known hknown) fun _ index hi _ => ?_
  rw [hzero index hi, CacheAccountInfo.isStorageKnown, hknown]
  rfl

/-- An account changes and keeps its slots. -/
theorem Follows.change (hdb : db.StorageNeedsCode) (hc : cache.accounts address = some c)
    (ht : account.touched = true)
    (hclears : account.clears = false) (hcl : E.cleared = false) (hcl' : E'.cleared = false)
    (hp : E'.plain = E.plain.apply account) (hu : E.unwritten = [])
    (hw : E'.unwritten = account.written) :
    Follows db address cache E
      (cache.setAccount address (ParallelCacheState.changeAccount account c)) E' := by
  have hchange : ParallelCacheState.changeAccount account c = c.change account.info :=
    changeAccount_of_not_clears hclears
  have hsame : ∀ index, index ∉ E'.unwritten → E'.plain.storage index = E.plain.storage index := by
    intro index hi
    rw [hp]
    exact Plain.apply_storage_of_not_clears ht hclears (hw ▸ hi)
  have hadmits : ∀ index value, E.Admits index value → E'.Admits index value := by
    intro index value h
    rw [Expect.Admits, hcl, if_neg (by simp), hu] at h
    rw [Expect.Admits, hcl', if_neg (by simp)]
    exact fun hi => (hsame index hi).trans (h (by simp))
  rw [hchange]
  refine .setAccount hchange ht hp hadmits (fun h => sound_change (h.sound c hc) account.info)
    fun h index hi hn => ?_
  rw [hsame index hi, h.rest hcl index (by simp [hu]) hn, ParallelCacheState.isStorageKnown, hc]
  exact (uncached_change (hdb.slot address index) (h.sound c hc) account.info).symm

/-- A changed slot is written. -/
theorem Follows.setSlot {index value : U256} (hcl : E.cleared = false) (hcl' : E'.cleared = false)
    (hp : E'.plain = E.plain) (hv : E.plain.storage index = .ok value)
    (hw : ∀ i, i ∈ E.unwritten ↔ i = index ∨ i ∈ E'.unwritten) :
    Follows db address cache E (cache.setSlot address index value) E' := by
  have hother : ∀ i, i ≠ index →
      (cache.setSlot address index value).storage address i = cache.storage address i := by
    intro i hi
    simp [ParallelCacheState.setSlot, hi]
  have hset : (cache.setSlot address index value).storage address index = some value := by
    simp [ParallelCacheState.setSlot]
  have hadmits : ∀ i v, i ≠ index → E.Admits i v → E'.Admits i v := by
    intro i v hi h
    rw [Expect.Admits, hcl, if_neg (by simp)] at h
    rw [Expect.Admits, hcl', if_neg (by simp), hp]
    exact fun hu => h fun hm => ((hw i).mp hm).elim hi hu
  constructor
  · intro h
    refine ⟨hp.symm ▸ h.vacant, hp.symm ▸ h.account, h.sound, fun i v hi => ?_,
      fun _ i hi hn => ?_⟩
    · by_cases hii : i = index
      · subst hii
        cases hset.symm.trans hi
        rw [Expect.Admits, hcl', if_neg (by simp), hp]
        exact fun _ => hv
      · exact hadmits i v hii (h.slot i v ((hother i hii).symm.trans hi))
    · have hii : i ≠ index := by
        rintro rfl
        rw [hset] at hn
        cases hn
      rw [hp]
      exact h.rest hcl i (fun hm => ((hw i).mp hm).elim hii hi) ((hother i hii).symm.trans hn)
  · intro i v _ h hn
    have hii : i ≠ index := by
      rintro rfl
      rw [hset] at hn
      cases hn
    exact hadmits i v hii (h ((hother i hii).symm.trans hn))

end

/-! ## Commit steps -/

/-- What a program point of a commit of `state` says about the change
set; `after` is the reference after it. -/
structure ApplyPc.Ok (state : EvmState) (after : Address → Plain Err) (pc : ApplyPc) : Prop where
  pending : ∀ e ∈ pc.pending, state.lookup e.1 = some e.2
  nodup : (pc.pending.map Prod.fst).Nodup
  current : match pc with
    | .next _ => True
    | .removeStorage _ account _ => account.touched = true ∧ account.clears = true
    | .change _ account _ => account.touched = true
    | .contract address account accounts =>
      address ∉ accounts.map Prod.fst ∧ ∀ index value,
        (index, value) ∈ account.changedStorageSlots → (after address).storage index = .ok value
    | .slots address left accounts =>
      address ∉ accounts.map Prod.fst ∧ ∀ index value,
        (index, value) ∈ left → (after address).storage index = .ok value

/-- The expectation when the commit has moved on or has ended. -/
def expectNext (before after : Address → Plain Err) : Option ApplyPc → Address → Expect Err
  | some pc, address => pc.expect before after address
  | none, address => { plain := after address }

section

variable {db : Database Err} {cache cache' : ParallelCacheState} {state : EvmState}
  {before after : Address → Plain Err} {address : Address} {account : Account}
  {accounts rest : List (Address × Account)} {c : Nat}

theorem ApplyPc.ok_start (state : EvmState) : (ApplyPc.start state).Ok state after where
  pending := by
    intro e he
    obtain ⟨entry, hmem, rfl⟩ := List.mem_map.mp he
    exact AList.mem_lookup_iff.mpr hmem
  nodup := by
    have hkeys : (state.entries.map Sigma.fst).Nodup := state.nodupKeys
    simpa [start, ApplyPc.pending, List.map_map, Function.comp_def] using hkeys
  current := trivial

/-- The point a chosen account leads to. -/
def ApplyPc.enter (address : Address) (account : Account) (accounts : List (Address × Account)) :
    ApplyPc :=
  if !account.touched then .next accounts
  else if account.clears then .removeStorage address account accounts
  else .change address account accounts

/-- The point a changed account leads to. -/
def ApplyPc.leave (address : Address) (account : Account) (accounts : List (Address × Account)) :
    ApplyPc :=
  if account.selfdestructed then .next accounts
  else if account.created then .contract address account accounts
  else if account.isEmpty then .next accounts
  else .slots address account.changedStorageSlots accounts

theorem ApplyPc.enter_ok (h : (ApplyPc.next accounts).Ok state after)
    (hpick : pick? accounts c = some ((address, account), rest)) :
    (ApplyPc.enter address account rest).Ok state after := by
  have hperm := perm_of_pick? hpick
  have hmem : ∀ e ∈ (address, account) :: rest, state.lookup e.1 = some e.2 :=
    fun e he => h.pending e (hperm.mem_iff.mp he)
  have hnodup : (((address, account) :: rest).map Prod.fst).Nodup :=
    (hperm.map Prod.fst).nodup_iff.mpr h.nodup
  unfold ApplyPc.enter
  split
  next => exact ⟨fun e he => hmem e (.tail _ he), hnodup.of_cons, trivial⟩
  next ht =>
    split
    next hcl => exact ⟨hmem, hnodup, by simpa using ht, hcl⟩
    next => exact ⟨hmem, hnodup, by simpa using ht⟩

theorem ApplyPc.expect_of_mem (before after : Address → Plain Err) (pc : ApplyPc) {a : Address}
    (h : a ∈ pc.pending.map Prod.fst) :
    pc.expect before after a =
      { plain := before a, cleared := pc.clearing a, unwritten := pc.unwritten a } := by
  rw [ApplyPc.expect, if_pos h]

theorem ApplyPc.expect_of_notMem (before after : Address → Plain Err) (pc : ApplyPc)
    {a : Address} (h : a ∉ pc.pending.map Prod.fst) :
    pc.expect before after a =
      { plain := after a, cleared := pc.clearing a, unwritten := pc.unwritten a } := by
  rw [ApplyPc.expect, if_neg h]

theorem ApplyPc.expect_congr {pc pc' : ApplyPc} {a : Address}
    (hm : a ∈ pc.pending.map Prod.fst ↔ a ∈ pc'.pending.map Prod.fst)
    (hc : pc.clearing a = pc'.clearing a) (hu : pc.unwritten a = pc'.unwritten a) :
    pc.expect before after a = pc'.expect before after a := by
  simp only [ApplyPc.expect, hm, hc, hu]

/-- Choosing an account changes no expectation: an untouched account is
the same afterwards, and no other one is begun. -/
theorem ApplyPc.expect_enter (h : (ApplyPc.next accounts).Ok state after)
    (hafter : after = Plain.applyState before state)
    (hpick : pick? accounts c = some ((address, account), rest)) (a : Address) :
    (ApplyPc.enter address account rest).expect before after a =
      (ApplyPc.next accounts).expect before after a := by
  have hperm := perm_of_pick? hpick
  have hmem : a ∈ ((address, account) :: rest).map Prod.fst ↔ a ∈ accounts.map Prod.fst :=
    (hperm.map Prod.fst).mem_iff
  have hlook : state.lookup address = some account :=
    h.pending (address, account) (hperm.mem_iff.mp (.head _))
  unfold ApplyPc.enter
  split
  next ht =>
    by_cases ha : a = address
    · subst ha
      have hsame : after a = before a := by
        rw [hafter, Plain.applyState_of_lookup hlook, Plain.apply_untouched (by simpa using ht)]
      simp only [ApplyPc.expect, hsame, ite_self]
      rfl
    · refine ApplyPc.expect_congr ?_ rfl rfl
      rw [List.map_cons, List.mem_cons] at hmem
      simpa [ha, ApplyPc.pending] using hmem
  next =>
    split
    next => exact ApplyPc.expect_congr hmem rfl rfl
    next hcl => exact ApplyPc.expect_congr hmem (by simp [ApplyPc.clearing, hcl]) rfl

theorem ApplyPc.leave_ok (h : (ApplyPc.change address account accounts).Ok state after)
    (hafter : after = Plain.applyState before state) :
    (ApplyPc.leave address account accounts).Ok state after := by
  have hmem : ∀ e ∈ accounts, state.lookup e.1 = some e.2 := fun e he => h.pending e (.tail _ he)
  have hnot : address ∉ accounts.map Prod.fst := (List.nodup_cons.mp h.nodup).1
  have hnodup : (accounts.map Prod.fst).Nodup := (List.nodup_cons.mp h.nodup).2
  have ht : account.touched = true := h.current
  have hlook : state.lookup address = some account := h.pending (address, account) (.head _)
  have hvalue (hd : account.selfdestructed = false)
      (he : account.created = false → account.isEmpty = false) (index value : U256)
      (hs : (index, value) ∈ account.changedStorageSlots) :
      (after address).storage index = .ok value := by
    rw [hafter, Plain.applyState_of_lookup hlook]
    exact Plain.apply_storage_of_written ht hd he hs
  unfold ApplyPc.leave
  split
  next => exact ⟨hmem, hnodup, trivial⟩
  next hd =>
    have hd : account.selfdestructed = false := by simpa using hd
    split
    next hc => exact ⟨hmem, hnodup, hnot, hvalue hd fun hf => by simp [hc] at hf⟩
    next =>
      split
      next => exact ⟨hmem, hnodup, trivial⟩
      next he => exact ⟨hmem, hnodup, hnot, hvalue hd fun _ => by simpa using he⟩

/-- After the change of `address` its slots remain to be written. -/
theorem ApplyPc.expect_leave (before : Address → Plain Err)
    (h : (ApplyPc.change address account accounts).Ok state after) :
    (ApplyPc.leave address account accounts).expect before after address =
      { plain := after address, unwritten := account.written } := by
  have hnot : address ∉ accounts.map Prod.fst := (List.nodup_cons.mp h.nodup).1
  unfold ApplyPc.leave Account.written
  split
  next => exact ApplyPc.expect_of_notMem _ _ _ hnot
  next =>
    split
    next hc =>
      refine (ApplyPc.expect_of_notMem _ _ _ hnot).trans ?_
      simp [ApplyPc.clearing, ApplyPc.unwritten, hc]
    next hc =>
      split
      next he =>
        refine (ApplyPc.expect_of_notMem _ _ _ hnot).trans ?_
        simp [ApplyPc.clearing, ApplyPc.unwritten, hc, he]
      next he =>
        refine (ApplyPc.expect_of_notMem _ _ _ hnot).trans ?_
        simp [ApplyPc.clearing, ApplyPc.unwritten, he]

theorem ApplyPc.expect_leave_of_ne {a : Address} (ha : a ≠ address) :
    (ApplyPc.leave address account accounts).expect before after a =
      (ApplyPc.change address account accounts).expect before after a := by
  have ha' : ¬ address = a := fun h => ha h.symm
  unfold ApplyPc.leave
  split <;> [skip; split <;> [skip; split]] <;>
    refine ApplyPc.expect_congr ?_ ?_ ?_ <;>
    simp [ApplyPc.pending, ApplyPc.clearing, ApplyPc.unwritten, ha, ha']

/-- Every step of a commit keeps what its program points say, and moves
cache and expectation together at every address. -/
theorem follows_of_applyStep (hdb : db.StorageNeedsCode) {pc : ApplyPc} {next : Option ApplyPc}
    (hok : pc.Ok state after) (hafter : after = Plain.applyState before state)
    (h : cache.applyStep c pc = some (cache', next)) :
    (∀ pc', next = some pc' → pc'.Ok state after) ∧
      ∀ a, Follows db a cache (pc.expect before after a) cache'
        (expectNext before after next a) := by
  cases pc with
  | next accounts =>
    simp only [ParallelCacheState.applyStep] at h
    split at h
    next hempty =>
      cases h
      obtain rfl := List.isEmpty_iff.mp hempty
      refine ⟨by simp, fun a => .congr rfl rfl ?_⟩
      exact (ApplyPc.expect_of_notMem _ _ (.next []) List.not_mem_nil).symm
    next =>
      obtain ⟨⟨⟨address, account⟩, rest⟩, hpick, heq⟩ := Option.map_eq_some_iff.mp h
      cases heq
      exact ⟨fun pc' h => by cases h; exact ApplyPc.enter_ok hok hpick,
        fun a => .congr rfl rfl (ApplyPc.expect_enter hok hafter hpick a)⟩
  | removeStorage address account accounts =>
    cases h
    refine ⟨fun pc' h => ?_, fun a => ?_⟩
    · cases h
      exact ⟨hok.pending, hok.nodup, hok.current.1⟩
    · by_cases ha : a = address
      · subst ha
        exact .removeStorage rfl (by simp [expectNext, ApplyPc.expect, ApplyPc.clearing, hok.current.2])
      · refine .congr rfl (Function.update_of_ne ha _ _) (ApplyPc.expect_congr Iff.rfl ?_ rfl)
        simp [ApplyPc.clearing, Ne.symm ha]
  | change address account accounts =>
    obtain ⟨current, hcur, heq⟩ := Option.map_eq_some_iff.mp h
    cases heq
    refine ⟨fun pc' h => by cases h; exact ApplyPc.leave_ok hok hafter, fun a => ?_⟩
    by_cases ha : a = address
    · subst ha
      have hlook : state.lookup a = some account := hok.pending (a, account) (.head _)
      have hE := (ApplyPc.change a account accounts).expect_of_mem before after
        List.mem_cons_self
      have hE' := ApplyPc.expect_leave before hok
      have hp : after a = (before a).apply account := by
        rw [hafter, Plain.applyState_of_lookup hlook]
      change Follows _ _ _ _ _ ((ApplyPc.leave a account accounts).expect before after a)
      rw [hE, hE', hp]
      cases hcl : account.clears with
      | true =>
        exact .clear current hok.current hcl (by simp [ApplyPc.clearing, hcl]) rfl rfl rfl
      | false =>
        exact .change hdb hcur hok.current hcl (by simp [ApplyPc.clearing, hcl]) rfl rfl rfl rfl
    · exact .congr (Function.update_of_ne ha _ _) rfl (ApplyPc.expect_leave_of_ne ha)
  | contract address account accounts =>
    obtain ⟨cache₁, hadd, heq⟩ := Option.map_eq_some_iff.mp h
    cases heq
    refine ⟨fun pc' h => by cases h; exact ⟨hok.pending, hok.nodup, hok.current⟩, fun a => ?_⟩
    have hsame : cache'.accounts = cache.accounts ∧ cache'.storage = cache.storage := by
      unfold ParallelCacheState.addContract at hadd
      split at hadd <;> cases hadd <;> exact ⟨rfl, rfl⟩
    exact .congr (by rw [hsame.1]) (by rw [hsame.2]) rfl
  | slots address left accounts =>
    simp only [ParallelCacheState.applyStep] at h
    split at h
    next hempty =>
      cases h
      obtain rfl := List.isEmpty_iff.mp hempty
      refine ⟨fun pc' h => by cases h; exact ⟨hok.pending, hok.nodup, trivial⟩, fun a => ?_⟩
      exact .congr rfl rfl (ApplyPc.expect_congr Iff.rfl rfl (by simp [ApplyPc.unwritten]))
    next =>
      obtain ⟨⟨⟨index, value⟩, rest⟩, hpick, heq⟩ := Option.map_eq_some_iff.mp h
      cases heq
      have hmem := mem_of_pick? hpick
      refine ⟨fun pc' h => ?_, fun a => ?_⟩
      · cases h
        exact ⟨hok.pending, hok.nodup, hok.current.1,
          fun i v hi => hok.current.2 i v ((hmem _).mpr (.inr hi))⟩
      · by_cases ha : a = address
        · subst ha
          have hE := (ApplyPc.slots a left accounts).expect_of_notMem before after hok.current.1
          have hE' := (ApplyPc.slots a rest accounts).expect_of_notMem before after hok.current.1
          change Follows _ _ _ _ _ ((ApplyPc.slots a rest accounts).expect before after a)
          rw [hE, hE']
          refine .setSlot rfl rfl rfl (hok.current.2 index value ((hmem _).mpr (.inl rfl))) ?_
          intro i
          have := ((perm_of_pick? hpick).map Prod.fst).mem_iff (a := i)
          simpa [ApplyPc.unwritten] using this.symm
        · refine .congr rfl (Function.update_of_ne ha _ _) (ApplyPc.expect_congr Iff.rfl rfl ?_)
          simp [ApplyPc.unwritten, Ne.symm ha]

end

/-! ## Runs -/

/-- The load is about to bring `value` into the slot. -/
def StorageLoadPc.Brings (db : Database Err) (address : Address) (index value : U256) :
    StorageLoadPc → Prop
  | .database a i => a = address ∧ i = index ∧ db.storage address index = .ok value
  | .insert a i v => a = address ∧ i = index ∧ v = value
  | _ => False

/-- What the value of a load in progress has to be. -/
def LoadPc.Carries (db : Database Err) (cache : ParallelCacheState) (E : Address → Expect Err) :
    LoadPc → Prop
  | .basic (.insert address info) => db.basic address = .ok info
  | .storage pc => ∀ address index value, pc.Brings db address index value →
    cache.storage address index = none → (E address).Admits index value
  | _ => True

/-- The cache agrees with what is expected of it, and so do the values
that the callers bring. -/
structure CacheOk {ι : Type} (db : Database Err) (E : Address → Expect Err)
    (cache : ParallelCacheState) (loads : ι → Option LoadPc) : Prop where
  coherent : ∀ address, Coherent db cache address (E address)
  carried : ∀ i pc, loads i = some pc → pc.Carries db cache E

structure CacheInv (db : Database Err) {n : Nat} (s : CacheState n) : Prop extends
    CacheOk db (s.expect db) s.cache s.loads where
  commit : ∀ state pc, s.commit = some (state, pc) →
    pc.Ok state (Plain.applyState (s.reference db) state)

section

variable {db : Database Err} {n : Nat} {s s' : CacheState n} {cache cache' : ParallelCacheState}
  {E E' : Address → Expect Err} {address : Address} {index value : U256}

theorem StorageLoadPc.Brings.eq_zero {pc : StorageLoadPc} (h : pc.Brings db address index value)
    (hf : pc.fetches db address = false) : value = 0 := by
  cases pc with
  | database a i =>
    obtain ⟨rfl, rfl, hv⟩ := h
    simpa [fetches, hv] using hf
  | insert a i v =>
    obtain ⟨rfl, rfl, rfl⟩ := h
    simpa [fetches] using hf
  | _ => exact h.elim

/-- While slots are cleared, no load brings a value other than zero. -/
theorem not_fetches_of_raceFree (h : s.raceFree db = true)
    (hcl : (s.expect db address).cleared = true) {w : Fin n} {pc : StorageLoadPc}
    (hw : s.loads w = some (.storage pc)) : pc.fetches db address = false := by
  obtain ⟨cache, loads, commit, committed⟩ := s
  cases commit with
  | none => cases hcl
  | some p =>
    obtain ⟨state, apc⟩ := p
    cases apc with
    | change a account accounts =>
      obtain ⟨ha, hclears⟩ := (Bool.and_eq_true _ _).mp hcl
      obtain rfl := eq_of_beq ha
      have hall := of_decide_eq_true (((Bool.or_eq_true _ _).mp h).resolve_left (by simp [hclears]))
      have hpc := hall w
      rw [hw] at hpc
      simpa using hpc
    | _ => cases hcl

theorem LoadPc.Carries.mono {pc : LoadPc} (h : pc.Carries db cache E)
    (hadmits : ∀ spc address index value, pc = .storage spc →
      spc.Brings db address index value →
      (cache.storage address index = none → (E address).Admits index value) →
      cache'.storage address index = none → (E' address).Admits index value) :
    pc.Carries db cache' E' := by
  cases pc with
  | storage spc => exact fun a i v hb => hadmits spc a i v rfl hb (h a i v hb)
  | basic bpc => cases bpc <;> exact h
  | code cpc => exact trivial

theorem ParallelCacheState.storage_of_insertSlot {a : Address} {i v : U256}
    (hn : (cache.insertSlot a i v).1.storage address index = none) :
    cache.storage address index = none := by
  unfold insertSlot at hn
  split at hn
  · exact hn
  · by_cases ha : address = a
    · subst ha
      by_cases hi : index = i
      · subst hi
        simp [setSlot] at hn
      · simpa [setSlot, hi] using hn
    · simpa [setSlot, ha] using hn

/-- What one step of a load does to accounts and slots: nothing, or the
insertion it was carrying. -/
inductive LoadMove (db : Database Err) (cache : ParallelCacheState) : LoadPc →
    ParallelCacheState → Option LoadPc → Prop where
  | quiet {pc cache' next} (hacc : cache'.accounts = cache.accounts)
      (hst : cache'.storage = cache.storage) (hnext : ∀ spc, next ≠ some (.storage spc))
      (hbasic : ∀ a info, next = some (.basic (.insert a info)) → db.basic a = .ok info) :
      LoadMove db cache pc cache' next
  | account (a : Address) (info : Option AccountInfo) :
      LoadMove db cache (.basic (.insert a info)) (cache.insertLoaded a info).1 none
  | status (a : Address) (i : U256) :
      LoadMove db cache (.storage (.slot a i)) cache (some (.storage (.status a i)))
  | known (a : Address) (i : U256) (h : cache.isStorageKnown a = true) :
      LoadMove db cache (.storage (.status a i)) cache (some (.storage (.insert a i 0)))
  | unknown (a : Address) (i : U256) (h : cache.isStorageKnown a = false) :
      LoadMove db cache (.storage (.status a i)) cache (some (.storage (.database a i)))
  | fetch (a : Address) (i v : U256) (h : db.storage a i = .ok v) :
      LoadMove db cache (.storage (.database a i)) cache (some (.storage (.insert a i v)))
  | slot (a : Address) (i v : U256) :
      LoadMove db cache (.storage (.insert a i v)) (cache.insertSlot a i v).1 none

theorem loadMove_of_loadStep {pc : LoadPc} {next : Option LoadPc}
    (h : cache.loadStep db pc = (cache', next)) : LoadMove db cache pc cache' next := by
  cases pc with
  | basic bpc =>
    cases bpc with
    | insert a info =>
      cases h
      exact .account a info
    | lookup a =>
      cases hl : cache.accounts a <;>
        simp [ParallelCacheState.loadStep, ParallelCacheState.basicLoadStep, hl] at h <;>
        obtain ⟨rfl, rfl⟩ := h <;> exact .quiet rfl rfl (by simp) (by simp)
    | database a =>
      cases hl : db.basic a <;>
        simp [ParallelCacheState.loadStep, ParallelCacheState.basicLoadStep, hl] at h <;>
        obtain ⟨rfl, rfl⟩ := h <;> refine .quiet rfl rfl (by simp) ?_ <;> simp_all
  | code cpc =>
    cases cpc with
    | insert hash code =>
      cases hl : cache.contracts hash <;>
        simp [ParallelCacheState.loadStep, ParallelCacheState.codeLoadStep,
          ParallelCacheState.insertCode, hl] at h <;>
        obtain ⟨rfl, rfl⟩ := h <;> exact .quiet rfl rfl (by simp) (by simp)
    | lookup hash =>
      cases hl : cache.contracts hash <;>
        simp [ParallelCacheState.loadStep, ParallelCacheState.codeLoadStep, hl] at h <;>
        obtain ⟨rfl, rfl⟩ := h <;> exact .quiet rfl rfl (by simp) (by simp)
    | database hash =>
      cases hl : db.code hash <;>
        simp [ParallelCacheState.loadStep, ParallelCacheState.codeLoadStep, hl] at h <;>
        obtain ⟨rfl, rfl⟩ := h <;> exact .quiet rfl rfl (by simp) (by simp)
  | storage spc =>
    cases spc with
    | slot a i =>
      cases hl : cache.storage a i <;>
        simp [ParallelCacheState.loadStep, ParallelCacheState.storageLoadStep, hl] at h <;>
        obtain ⟨rfl, rfl⟩ := h
      · exact .status a i
      · exact .quiet rfl rfl (by simp) (by simp)
    | status a i =>
      cases hl : cache.isStorageKnown a <;>
        simp [ParallelCacheState.loadStep, ParallelCacheState.storageLoadStep, hl] at h <;>
        obtain ⟨rfl, rfl⟩ := h
      · exact .unknown a i hl
      · exact .known a i hl
    | database a i =>
      cases hl : db.storage a i <;>
        simp [ParallelCacheState.loadStep, ParallelCacheState.storageLoadStep, hl] at h <;>
        obtain ⟨rfl, rfl⟩ := h
      · exact .quiet rfl rfl (by simp) (by simp)
      · exact .fetch a i _ hl
    | insert a i v =>
      cases h
      exact .slot a i v

section

variable {pc pc' : LoadPc} {next : Option LoadPc}

/-- A load never takes a slot out of the cache. -/
theorem LoadMove.storage_eq_none (h : LoadMove db cache pc cache' next)
    (hn : cache'.storage address index = none) : cache.storage address index = none := by
  cases h with
  | quiet _ hst => rwa [hst] at hn
  | account a info => rwa [ParallelCacheState.insertLoaded_storage] at hn
  | slot a i v => exact ParallelCacheState.storage_of_insertSlot hn
  | _ => exact hn

/-- One step of a load keeps the cache coherent. -/
theorem Coherent.load (hdb : db.StorageNeedsCode) (h : LoadMove db cache pc cache' next)
    (hc : pc.Carries db cache E) (hco : Coherent db cache address (E address)) :
    Coherent db cache' address (E address) := by
  cases h with
  | quiet hacc hst => exact hco.congr (by rw [hacc]) (by rw [hst])
  | account a info => exact hco.insertLoaded hdb hc
  | slot a i v =>
    refine hco.insertSlot ?_
    rintro rfl hn
    exact hc a i v ⟨rfl, rfl, rfl⟩ hn
  | _ => exact hco

/-- The next point of a load carries a right value too, unless it has
read the status of an account whose slots are being cleared. -/
theorem LoadPc.Carries.load (h : LoadMove db cache pc cache' (some pc'))
    (hc : pc.Carries db cache E) (hco : ∀ address, Coherent db cache address (E address))
    (hrace : ∀ spc address, pc' = .storage spc → (E address).cleared = true →
      spc.fetches db address = false) : pc'.Carries db cache' E := by
  cases h with
  | quiet _ _ hnext hbasic =>
    cases pc' with
    | storage spc => exact (hnext spc rfl).elim
    | code cpc => exact trivial
    | basic bpc =>
      cases bpc with
      | insert a info => exact hbasic a info rfl
      | _ => exact trivial
  | status a i => exact fun _ _ _ hb => hb.elim
  | known a i hk =>
    rintro _ _ _ ⟨rfl, rfl, rfl⟩ hn
    cases hcl : (E a).cleared with
    | true => rw [Expect.Admits, if_pos hcl]
    | false =>
      rw [Expect.Admits, hcl, if_neg (by simp)]
      intro hw
      rw [(hco a).rest hcl i hw hn, hk]
      rfl
  | unknown a i hk =>
    rintro address index v hb hn
    have hz := fun hcl => hb.eq_zero (hrace (.database a i) address rfl hcl)
    obtain ⟨rfl, rfl, hv⟩ := hb
    cases hcl : (E a).cleared with
    | true =>
      rw [Expect.Admits, if_pos hcl]
      exact hz hcl
    | false =>
      rw [Expect.Admits, hcl, if_neg (by simp)]
      intro hw
      rw [(hco a).rest hcl i hw hn, hk]
      exact hv
  | fetch a i v hv =>
    rintro _ _ _ ⟨rfl, rfl, rfl⟩ hn
    exact hc a i v ⟨rfl, rfl, hv⟩ hn

end

theorem cacheInv_initial : CacheInv db ({} : CacheState n) where
  commit := nofun
  coherent _ := ⟨fun _ => rfl, nofun, nofun, nofun, fun _ _ _ _ => rfl⟩
  carried := nofun

/-- A new call carries nothing yet. -/
theorem carries_start (call : LoadCall) : call.start.Carries db cache E := by
  cases call with
  | storage a i => exact fun _ _ _ hb => hb.elim
  | _ => exact trivial

section

variable {ι : Type} {loads loads' : ι → Option LoadPc} {pc : LoadPc} {next : Option LoadPc}

/-- Calls begin and end. -/
theorem CacheOk.call (h : CacheOk db E cache loads)
    (hloads : ∀ i pc, loads' i = some pc → loads i = some pc ∨ ∃ call : LoadCall, pc = call.start) :
    CacheOk db E cache loads' where
  coherent := h.coherent
  carried i pc hi := by
    rcases hloads i pc hi with hi | ⟨call, rfl⟩
    · exact h.carried i pc hi
    · exact carries_start call

/-- One step of a load. -/
theorem CacheOk.load (hdb : db.StorageNeedsCode) (h : CacheOk db E cache loads) {i : ι}
    (hpc : loads i = some pc) (hmove : LoadMove db cache pc cache' next)
    (hloads : ∀ j pc', loads' j = some pc' →
      loads j = some pc' ∨ next = some pc' ∨ ∃ call : LoadCall, pc' = call.start)
    (hrace : ∀ spc address, next = some (.storage spc) → (E address).cleared = true →
      spc.fetches db address = false) : CacheOk db E cache' loads' where
  coherent address := (h.coherent address).load hdb hmove (h.carried i pc hpc)
  carried j pc' hj := by
    rcases hloads j pc' hj with hj | rfl | ⟨call, rfl⟩
    · exact (h.carried j pc' hj).mono fun _ _ _ _ _ _ hadm hn => hadm (hmove.storage_eq_none hn)
    · exact (h.carried i pc hpc).load hmove h.coherent fun spc address hp =>
        hrace spc address (by rw [hp])
    · exact carries_start call

/-- One step of a commit, when cache and expectation move together. -/
theorem CacheOk.apply (h : CacheOk db E cache loads)
    (hfollows : ∀ address, Follows db address cache (E address) cache' (E' address))
    (hrace : ∀ i spc address, loads i = some (.storage spc) → (E' address).cleared = true →
      spc.fetches db address = false) : CacheOk db E' cache' loads where
  coherent address := (hfollows address).coherent (h.coherent address)
  carried i pc hi := by
    refine (h.carried i pc hi).mono fun spc address index value hpc hb hadm hn => ?_
    refine (hfollows address).admits index value (fun hcl => ?_) hadm hn
    exact hb.eq_zero (hrace i spc address (hpc ▸ hi) hcl)

end

/-- A commit that has not begun changes no expectation. -/
theorem ApplyPc.expect_start (before : Address → Plain Err) (state : EvmState)
    (address : Address) :
    (ApplyPc.start state).expect before (Plain.applyState before state) address =
      { plain := before address } := by
  by_cases hmem : address ∈ (ApplyPc.start state).pending.map Prod.fst
  · exact ApplyPc.expect_of_mem _ _ _ hmem
  · have hlook : state.lookup address = none := by
      refine AList.lookup_eq_none.mpr fun hk => hmem ?_
      simpa [start, ApplyPc.pending, List.map_map, Function.comp_def, AList.mem_keys,
        AList.keys, List.keys] using hk
    rw [ApplyPc.expect_of_notMem _ _ _ hmem, Plain.applyState, hlook]
    rfl

theorem CacheState.expect_of_commit {state : EvmState} {pc : ApplyPc}
    (h : s.commit = some (state, pc)) : s.expect db =
      pc.expect (s.reference db) (Plain.applyState (s.reference db) state) := by
  funext address
  rw [expect, h]

theorem CacheState.expect_of_no_commit (h : s.commit = none) (address : Address) :
    s.expect db address = { plain := s.reference db address } := by
  rw [expect, h]

/-- One step of the system keeps the invariant when no load races with
the removal of a slot map. -/
theorem CacheInv.step (hdb : db.StorageNeedsCode) (h : CacheInv db s) {a : CacheAction n}
    (hs : cacheStep db s a = some s') (hrace : s'.raceFree db = true) : CacheInv db s' := by
  have hsafe : ∀ w spc address, s'.loads w = some (.storage spc) →
      (s'.expect db address).cleared = true → spc.fetches db address = false :=
    fun w spc address hw hcl => not_fetches_of_raceFree hrace hcl hw
  cases a with
  | call w call =>
    simp only [cacheStep] at hs
    split at hs
    · cases hs
    · cases hs
      refine ⟨h.call fun w' pc hw => ?_, h.commit⟩
      by_cases hww : w' = w
      · subst hww
        exact .inr ⟨call, by simpa using hw.symm⟩
      · exact .inl (by simpa [hww] using hw)
  | load w =>
    obtain ⟨pc, hpc, heq⟩ := Option.map_eq_some_iff.mp hs
    cases heq
    have hmove : LoadMove db s.cache pc (s.cache.loadStep db pc).1 (s.cache.loadStep db pc).2 :=
      loadMove_of_loadStep rfl
    refine ⟨h.load hdb hpc hmove (fun w' pc' hw => ?_)
      fun spc address hnext hcl => ?_, h.commit⟩
    · by_cases hww : w' = w
      · subst hww
        exact .inr (.inl (by simpa using hw))
      · exact .inl (by simpa [hww] using hw)
    · exact hsafe w spc address (by simpa using hnext) hcl
  | commit state =>
    simp only [cacheStep] at hs
    split at hs
    · cases hs
    next hc =>
      cases hs
      have hnone : s.commit = none := by simpa using hc
      refine ⟨h.apply (fun address => .congr rfl rfl ?_) hsafe, fun st pc hp => ?_⟩
      · rw [CacheState.expect_of_no_commit hnone]
        exact ApplyPc.expect_start (s.reference db) state address
      · cases hp
        exact ApplyPc.ok_start state
  | apply c =>
    obtain ⟨⟨state, pc⟩, hcommit, hs⟩ := Option.bind_eq_some_iff.mp hs
    obtain ⟨⟨cache', next⟩, happly, heq⟩ := Option.map_eq_some_iff.mp hs
    obtain ⟨hok, hfollows⟩ := follows_of_applyStep hdb (h.commit state pc hcommit) rfl happly
    rw [← CacheState.expect_of_commit hcommit] at hfollows
    cases next with
    | some pc' =>
      cases heq
      refine ⟨h.apply hfollows hsafe, fun st pc hp => ?_⟩
      cases hp
      exact hok pc' rfl
    | none =>
      cases heq
      refine ⟨h.apply (fun address => ?_) hsafe, nofun⟩
      change Follows _ _ _ _ _
        { plain := Plain.overlay (Plain.ofDatabase db) (s.committed ++ [state]) address }
      rw [Plain.overlay_append]
      exact hfollows address

theorem cacheInv_of_reach (hdb : db.StorageNeedsCode)
    (h : Reach (cacheStep db) (fun s a => raceFreeStep db s a = true) ({} : CacheState n) s) :
    CacheInv db s :=
  h.invariant cacheInv_initial fun s a s' _ ih hok hs =>
    ih.step hdb hs (by simpa [raceFreeStep, hs] using hok)

/-! ## The coherent cache -/

/-- With no commit in progress, `db_basic` and `db_storage` give the
reference. -/
theorem Coherent.dbBasic {p : Plain Err} (h : Coherent db cache address { plain := p }) :
    (cache.dbBasic db address).2 = p.basic := by
  unfold ParallelCacheState.dbBasic
  split
  next c hc => exact (h.account c hc).symm
  next hvac =>
    rw [h.vacant hvac, Plain.ofDatabase]
    split
    next info hinfo =>
      rw [hinfo]
      simp only [ParallelCacheState.insertLoaded, hvac]
      rfl
    next e he =>
      rw [he]
      rfl

theorem Coherent.dbStorage {p : Plain Err} (h : Coherent db cache address { plain := p }) :
    (cache.dbStorage db address index).2 = p.storage index := by
  unfold ParallelCacheState.dbStorage
  split
  next v hv =>
    have := h.slot index v hv
    rw [Expect.Admits, if_neg (by simp)] at this
    exact (this (by simp)).symm
  next hn =>
    have hrest := h.rest rfl index (by simp) hn
    rw [Database.uncached] at hrest
    rw [hrest]
    split
    next v hv =>
      simp only [ParallelCacheState.insertSlot, hn]
      exact hv.symm
    next e he => exact he.symm

end

/-- **Coherence of the shared cache.** In every run in which no load of
an account carries a non-zero database value while a commit has removed
the slot map of that account and not yet changed its status, whenever no
call is in progress the cache answers with the database overlaid by the
committed change sets. -/
theorem coherent_cache_of_race_free {db : Database Err} (hdb : db.StorageNeedsCode) {n : Nat}
    {s : CacheState n}
    (hreach : Reach (cacheStep db) (fun s a => raceFreeStep db s a = true) {} s)
    (hquiet : s.Quiet) (address : Address) (index : U256) :
    (s.cache.dbBasic db address).2 =
        (Plain.overlay (Plain.ofDatabase db) s.committed address).basic ∧
      (s.cache.dbStorage db address index).2 =
        (Plain.overlay (Plain.ofDatabase db) s.committed address).storage index := by
  have hco := (cacheInv_of_reach hdb hreach).coherent address
  rw [CacheState.expect_of_no_commit hquiet.2] at hco
  exact ⟨hco.dbBasic, hco.dbStorage⟩

/-! ## The race -/

/-- A contract with seven in each slot. -/
def Database.oneContract : Database Unit where
  basic address :=
    .ok (if address = 1 then some { balance := 1, nonce := 1, codeHash := 1, code := none } else none)
  code _ := .ok [0]
  storage address _ := .ok (if address = 1 then 7 else 0)

theorem Database.oneContract_storageNeedsCode : Database.oneContract.StorageNeedsCode := by
  intro address info index hb hn
  by_cases ha : address = 1
  · subst ha
    cases hb
    exact absurd hn (by decide)
  · exact congrArg Except.ok (if_neg ha)

/-- The change set of a transaction that destroys the contract. -/
def destroyContract : EvmState :=
  (∅ : EvmState).insert 1
    { Account.ofInfo .empty with touched := true, selfdestructed := true }

/-- The contract is loaded, destroyed and committed, and one of its slots
is read afterwards. -/
def loadThenDestroy : List (CacheAction 1) :=
  [.call 0 (.basic 1), .load 0, .load 0, .load 0,
    .commit destroyContract, .apply 0, .apply 0, .apply 0, .apply 0,
    .call 0 (.storage 1 0), .load 0, .load 0, .load 0]

theorem coherent_cache_of_race_free_destroyed :
    ∃ s : CacheState 1, s.committed = [destroyContract] ∧
      (s.cache.dbStorage .oneContract 1 0).2 = .ok 0 := by
  have hrun : (exec (guarded (cacheStep .oneContract) (raceFreeStep .oneContract))
      ({} : CacheState 1) loadThenDestroy).isSome := by decide
  refine ⟨Option.get _ hrun, rfl, ?_⟩
  exact (coherent_cache_of_race_free Database.oneContract_storageNeedsCode
    (reach_get hrun).of_guarded ⟨Fin.forall_fin_one.mpr rfl, rfl⟩ 1 0).2.trans rfl

/-- The slot is looked up and found unknown before the contract is
destroyed; the database value comes in after it. -/
def loadAcrossDestroy : List (CacheAction 1) :=
  [.call 0 (.basic 1), .load 0, .load 0, .load 0,
    .call 0 (.storage 1 0), .load 0, .load 0,
    .commit destroyContract, .apply 0, .apply 0, .apply 0, .apply 0,
    .load 0, .load 0]

/-- **A removed slot comes back.** A load that passed the status look-up
before the commit of a deletion inserts the value of the database after
it: with no call in progress the cache answers seven for a slot that the
reference has cleared. -/
theorem removed_slot_comes_back :
    Database.oneContract.StorageNeedsCode ∧
      ∃ s : CacheState 1, Reach (cacheStep .oneContract) Free {} s ∧ s.Quiet ∧
        (s.cache.dbStorage .oneContract 1 0).2 = .ok 7 ∧
        (Plain.overlay (Plain.ofDatabase .oneContract) s.committed 1).storage 0 = .ok 0 := by
  have hrun : (exec (cacheStep .oneContract) ({} : CacheState 1) loadAcrossDestroy).isSome := by
    decide
  exact ⟨Database.oneContract_storageNeedsCode, Option.get _ hrun, reach_get hrun,
    ⟨Fin.forall_fin_one.mpr rfl, rfl⟩, rfl, rfl⟩

end Grevm
