/-
Grevm.Precompile.Internals — the journal that a precompile works on.

`EvmInternals` as `src/precompile.rs` uses it: revm's journal over a
database, with the four operations of the facade. An account is loaded
before its slots, a load warms what it reads, and a write enters the old
value into the journal. The database may fail at any of its calls: which
one fails is a function of the number of calls made so far.

A balance or slot that the journal has not loaded has the value of the
database. Reading, which loads and warms, changes no value in that sense
(`SameValues`).
-/
import Grevm.Delegated.Journal

namespace Grevm

/-! ## The journal -/

/-- revm's `StateLoad`. -/
structure StateLoad (α : Type) where
  data : α
  isCold : Bool
  deriving DecidableEq

/-- A loaded slot; `isCold` when it has not been accessed in this
transaction. -/
structure JournalSlot where
  originalValue : U256
  presentValue : U256
  isCold : Bool
  deriving DecidableEq

structure JournalAccount where
  info : AccountInfo
  storage : U256 → Option JournalSlot := fun _ => none
  touched : Bool := false
  created : Bool := false
  isCold : Bool := false

def JournalAccount.setSlot (account : JournalAccount) (key : U256) (slot : JournalSlot) :
    JournalAccount :=
  { account with storage := Function.update account.storage key (some slot) }

/-- A database whose calls may fail: `fails n` is the error of the call
after `n` others. The journal asks for every account and slot once, so
the values may be taken as fixed. -/
structure FailingDatabase (Err : Type) where
  basic : Address → Option AccountInfo
  storage : Address → U256 → U256
  fails : Nat → Option Err

structure EvmInternals where
  accounts : Address → Option JournalAccount := fun _ => none
  /-- Precompiles, the beneficiary and the access list. -/
  warmAddresses : Address → Bool := fun _ => false
  entries : List JournalEntry := []
  /-- The calls made to the database. -/
  queries : Nat := 0

/-- revm's `SStoreResult`. -/
structure SStoreResult where
  originalValue : U256
  presentValue : U256
  newValue : U256
  deriving DecidableEq

namespace EvmInternals

def setAccount (j : EvmInternals) (address : Address) (account : JournalAccount) : EvmInternals :=
  { j with accounts := Function.update j.accounts address (some account) }

def push (j : EvmInternals) (entry : JournalEntry) : EvmInternals :=
  { j with entries := j.entries ++ [entry] }

/-- The account as accessed, with a journal entry when the access was
cold. -/
def access (j : EvmInternals) (address : Address) (account : JournalAccount) (isCold : Bool) :
    EvmInternals :=
  let j := j.setAccount address account
  if isCold then j.push .other else j

variable {Err : Type} (db : FailingDatabase Err)

/-- One call of the database, with the value it has when it does not
fail. -/
def query {α : Type} (j : EvmInternals) (value : α) : EvmInternals × Except Err α :=
  ({ j with queries := j.queries + 1 },
    match db.fails j.queries with
    | some e => .error e
    | none => .ok value)

/-- `load_account_mut`, which is `load_account` as well: an account in
the journal becomes warm, another one is asked from the database. -/
def loadAccountMut (j : EvmInternals) (address : Address) :
    EvmInternals × Except Err (StateLoad JournalAccount) :=
  match j.accounts address with
  | some account =>
    let isCold := account.isCold && !j.warmAddresses address
    let account := { account with isCold := false }
    (j.access address account isCold, .ok ⟨account, isCold⟩)
  | none =>
    match j.query db (db.basic address) with
    | (j, .error e) => (j, .error e)
    | (j, .ok info) =>
      let isCold := !j.warmAddresses address
      let account := { info := info.getD .empty }
      (j.access address account isCold, .ok ⟨account, isCold⟩)

/-- The slot of a loaded account. A created account has no storage in
the database. -/
def loadSlot (j : EvmInternals) (address : Address) (account : JournalAccount) (key : U256) :
    EvmInternals × Except Err (StateLoad JournalSlot) :=
  match account.storage key with
  | some slot =>
    let warm := { slot with isCold := false }
    (j.access address (account.setSlot key warm) slot.isCold, .ok ⟨warm, slot.isCold⟩)
  | none =>
    match if account.created then (j, .ok 0) else j.query db (db.storage address key) with
    | (j, .error e) => (j, .error e)
    | (j, .ok value) =>
      let slot := ⟨value, value, false⟩
      (j.access address (account.setSlot key slot) true, .ok ⟨slot, true⟩)

/-- `sload`: the account first. -/
def sload (j : EvmInternals) (address : Address) (key : U256) :
    EvmInternals × Except Err (StateLoad U256) :=
  match j.loadAccountMut db address with
  | (j, .error e) => (j, .error e)
  | (j, .ok account) =>
    match j.loadSlot db address account.data key with
    | (j, .error e) => (j, .error e)
    | (j, .ok slot) => (j, .ok ⟨slot.data.presentValue, slot.isCold⟩)

/-- The account is touched, with a journal entry the first time. -/
def touch (j : EvmInternals) (address : Address) (account : JournalAccount) :
    EvmInternals × JournalAccount :=
  if account.touched then (j, account)
  else
    let account := { account with touched := true }
    ((j.setAccount address account).push .other, account)

/-- `load_account_mut` and `set_balance` of the account. -/
def setBalance (j : EvmInternals) (address : Address) (balance : U256) :
    EvmInternals × Except Err (StateLoad Unit) :=
  match j.loadAccountMut db address with
  | (j, .error e) => (j, .error e)
  | (j, .ok load) =>
    let (j, account) := j.touch address load.data
    let j :=
      if account.info.balance = balance then j
      else
        (j.push (.balanceChange address account.info.balance)).setAccount address
          { account with info := { account.info with balance } }
    (j, .ok ⟨(), load.isCold⟩)

/-- `sstore`: the account and the slot are loaded, and a new value is
written. -/
def sstore (j : EvmInternals) (address : Address) (key value : U256) :
    EvmInternals × Except Err (StateLoad SStoreResult) :=
  match j.loadAccountMut db address with
  | (j, .error e) => (j, .error e)
  | (j, .ok load) =>
    let (j, account) := j.touch address load.data
    match j.loadSlot db address account key with
    | (j, .error e) => (j, .error e)
    | (j, .ok ⟨slot, isCold⟩) =>
      let j :=
        if slot.presentValue = value then j
        else
          (j.push (.storageChanged address key slot.presentValue)).setAccount address
            (account.setSlot key { slot with presentValue := value })
      (j, .ok ⟨⟨slot.originalValue, slot.presentValue, value⟩, isCold⟩)

end EvmInternals

/-! ## Values -/

section

variable {Err : Type} (db : FailingDatabase Err)

/-- The value of a slot of a loaded account. -/
def JournalAccount.value (address : Address) (account : JournalAccount) (key : U256) : U256 :=
  match account.storage key with
  | some slot => slot.presentValue
  | none => if account.created then 0 else db.storage address key

namespace EvmInternals

def balanceOf (j : EvmInternals) (address : Address) : U256 :=
  match j.accounts address with
  | some account => account.info.balance
  | none => ((db.basic address).getD .empty).balance

def storageOf (j : EvmInternals) (address : Address) (key : U256) : U256 :=
  match j.accounts address with
  | some account => account.value db address key
  | none => db.storage address key

/-- No balance and no slot has changed. -/
structure SameValues (j j' : EvmInternals) : Prop where
  balance : ∀ address, j'.balanceOf db address = j.balanceOf db address
  storage : ∀ address key, j'.storageOf db address key = j.storageOf db address key

end EvmInternals

end

namespace EvmInternals

variable {Err : Type} {db : FailingDatabase Err} {j j' j'' : EvmInternals} {address : Address}
  {account : JournalAccount}

theorem SameValues.refl : SameValues db j j := ⟨fun _ => rfl, fun _ _ => rfl⟩

theorem SameValues.trans (h : SameValues db j j') (h' : SameValues db j' j'') :
    SameValues db j j'' :=
  ⟨fun a => (h'.balance a).trans (h.balance a), fun a key => (h'.storage a key).trans (h.storage a key)⟩

/-- Values are those of the accounts. -/
theorem SameValues.of_accounts (h : j'.accounts = j.accounts) : SameValues db j j' :=
  ⟨fun a => by rw [balanceOf, balanceOf, h], fun a key => by rw [storageOf, storageOf, h]⟩

/-- A query changes no account and answers with the value of the
database. -/
theorem query_cases {α : Type} {value : α} {result : Except Err α}
    (h : j.query db value = (j', result)) :
    j'.accounts = j.accounts ∧ ∀ answer, result = .ok answer → answer = value := by
  unfold query at h
  split at h <;> cases h
  · exact ⟨rfl, nofun⟩
  · exact ⟨rfl, fun answer heq => by cases heq; rfl⟩

theorem access_accounts (isCold : Bool) :
    (j.access address account isCold).accounts =
      Function.update j.accounts address (some account) := by
  cases isCold <;> rfl

/-- An access changes no value if the account keeps its balance and its
slots. -/
theorem sameValues_access {isCold : Bool}
    (hbalance : account.info.balance = j.balanceOf db address)
    (hstorage : ∀ key, account.value db address key = j.storageOf db address key) :
    SameValues db j (j.access address account isCold) := by
  refine ⟨fun a => ?_, fun a key => ?_⟩
  · by_cases heq : a = address
    · subst heq
      rw [← hbalance]
      simp [balanceOf, access_accounts]
    · simp [balanceOf, access_accounts, heq]
  · by_cases heq : a = address
    · subst heq
      rw [← hstorage key]
      simp [storageOf, access_accounts]
    · simp [storageOf, access_accounts, heq]

/-- Loading an account changes no value, and the account is in the
journal. -/
theorem sameValues_loadAccountMut {result : Except Err (StateLoad JournalAccount)}
    (h : j.loadAccountMut db address = (j', result)) :
    SameValues db j j' ∧ ∀ load, result = .ok load → j'.accounts address = some load.data := by
  unfold loadAccountMut at h
  split at h
  · rename_i account haccount
    cases h
    refine ⟨sameValues_access (by rw [balanceOf, haccount]) fun key => ?_, fun load heq => ?_⟩
    · rw [storageOf, haccount]
      rfl
    · cases heq
      simp [access_accounts]
  · rename_i hnone
    split at h
    · rename_i hquery
      cases h
      exact ⟨.of_accounts (query_cases hquery).1, nofun⟩
    · rename_i j₁ info hquery
      cases h
      obtain ⟨haccounts, hanswer⟩ := query_cases hquery
      have hinfo := hanswer info rfl
      have hnone₁ : j₁.accounts address = none := by rw [haccounts, hnone]
      refine ⟨(SameValues.of_accounts haccounts).trans (sameValues_access ?_ fun key => ?_),
        fun load heq => ?_⟩
      · rw [balanceOf, hnone₁, hinfo]
      · rw [storageOf, hnone₁]
        rfl
      · cases heq
        simp [access_accounts]

/-- A slot that gets the value it has changes no value. -/
theorem value_setSlot {key : U256} {slot : JournalSlot}
    (h : slot.presentValue = account.value db address key) (other : U256) :
    (account.setSlot key slot).value db address other = account.value db address other := by
  by_cases heq : other = key
  · subst heq
    rw [← h]
    simp [JournalAccount.value, JournalAccount.setSlot]
  · have hother : (account.setSlot key slot).storage other = account.storage other := by
      simp [JournalAccount.setSlot, heq]
    rw [JournalAccount.value, JournalAccount.value, hother]
    rfl

theorem sameValues_loadSlot {key : U256} {result : Except Err (StateLoad JournalSlot)}
    (haccount : j.accounts address = some account)
    (h : j.loadSlot db address account key = (j', result)) : SameValues db j j' := by
  have hinsert : ∀ (j₁ : EvmInternals) (slot : JournalSlot) (isCold : Bool),
      j₁.accounts = j.accounts → slot.presentValue = account.value db address key →
        SameValues db j (j₁.access address (account.setSlot key slot) isCold) := by
    intro j₁ slot isCold haccounts hvalue
    refine (SameValues.of_accounts haccounts).trans (sameValues_access ?_ fun other => ?_)
    · rw [balanceOf, haccounts, haccount]
      rfl
    · rw [storageOf, haccounts, haccount]
      exact value_setSlot hvalue other
  unfold loadSlot at h
  split at h
  · rename_i slot hslot
    cases h
    exact hinsert j _ _ rfl (by rw [JournalAccount.value, hslot])
  · rename_i hslot
    split at h
    · rename_i hquery
      cases h
      split at hquery
      · cases hquery
      · exact .of_accounts (query_cases hquery).1
    · rename_i j₁ value hquery
      cases h
      split at hquery
      · rename_i hcreated
        cases hquery
        exact hinsert j _ _ rfl (by simp [JournalAccount.value, hslot, hcreated])
      · rename_i hcreated
        obtain ⟨haccounts, hanswer⟩ := query_cases hquery
        refine hinsert j₁ _ _ haccounts ?_
        simp [JournalAccount.value, hslot, hcreated, hanswer value rfl]

theorem sameValues_sload {key : U256} {result : Except Err (StateLoad U256)}
    (h : j.sload db address key = (j', result)) : SameValues db j j' := by
  unfold sload at h
  split at h
  · rename_i hload
    cases h
    exact (sameValues_loadAccountMut hload).1
  · rename_i load hload
    obtain ⟨hsame, haccount⟩ := sameValues_loadAccountMut hload
    split at h
    · rename_i hslot
      cases h
      exact hsame.trans (sameValues_loadSlot (haccount _ rfl) hslot)
    · rename_i hslot
      cases h
      exact hsame.trans (sameValues_loadSlot (haccount _ rfl) hslot)

end EvmInternals

end Grevm
