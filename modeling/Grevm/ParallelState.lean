/-
Grevm.ParallelState — the cache shared by workers and ordered commit.

`src/parallel_state.rs`, without the transitions it collects for the
bundle. The three concurrent maps are functions to `Option`; the slot map
of an account is `none` everywhere when the account has no map, since no
look-up tells the two apart. A call is a machine whose steps are the map
operations it makes, and the database call of a load lies between its
look-ups and its insertion. `parallelState db` is the `Backing` the
scheduler's threads use.

`AccountStatus` is revm's, with the transitions the cache calls. An
`expect` or `unwrap` of the source that fails is `none` here.
-/
import Grevm.IncarnationDb
import Mathlib.Logic.Function.Basic

namespace Grevm

/-! ## Account status -/

inductive AccountStatus where
  | loadedNotExisting
  | loaded
  | loadedEmptyEIP161
  | inMemoryChange
  | changed
  | destroyed
  | destroyedChanged
  | destroyedAgain
  deriving DecidableEq, Repr

namespace AccountStatus

/-- The storage of the account is in the cache as a whole. -/
def isStorageKnown : AccountStatus → Bool
  | .loadedNotExisting | .inMemoryChange | .destroyed | .destroyedChanged | .destroyedAgain => true
  | _ => false

def onCreated : AccountStatus → AccountStatus
  | .destroyed | .destroyedChanged | .destroyedAgain => .destroyedChanged
  | _ => .inMemoryChange

def onTouchedEmptyPostEip161 : AccountStatus → AccountStatus
  | .loadedNotExisting => .loadedNotExisting
  | .inMemoryChange | .destroyed | .loadedEmptyEIP161 => .destroyed
  | .destroyedAgain | .destroyedChanged => .destroyedAgain
  -- an account of the database that the transaction has emptied
  | .loaded | .changed => .destroyed

def onChanged (hadNoNonceAndCode : Bool) : AccountStatus → AccountStatus
  | .loadedNotExisting | .loadedEmptyEIP161 => .inMemoryChange
  | .loaded => if hadNoNonceAndCode then .inMemoryChange else .changed
  | .changed => .changed
  | .inMemoryChange => .inMemoryChange
  | .destroyedChanged | .destroyed | .destroyedAgain => .destroyedChanged

def onSelfdestructed : AccountStatus → AccountStatus
  | .loadedNotExisting => .loadedNotExisting
  | .destroyedChanged | .destroyedAgain | .destroyed => .destroyedAgain
  | _ => .destroyed

end AccountStatus

/-! ## The cache -/

structure CacheAccountInfo where
  account : Option AccountInfo
  status : AccountStatus
  deriving DecidableEq

namespace CacheAccountInfo

/-- What a load caches: an empty account is the default account. -/
def ofDatabase : Option AccountInfo → CacheAccountInfo
  | none => ⟨none, .loadedNotExisting⟩
  | some info =>
    if info.isEmpty then ⟨some .empty, .loadedEmptyEIP161⟩ else ⟨some info, .loaded⟩

def selfdestruct (c : CacheAccountInfo) : CacheAccountInfo :=
  ⟨none, c.status.onSelfdestructed⟩

def newlyCreated (c : CacheAccountInfo) (info : AccountInfo) : CacheAccountInfo :=
  ⟨some info, c.status.onCreated⟩

def touchEmptyEip161 (c : CacheAccountInfo) : CacheAccountInfo :=
  ⟨none, c.status.onTouchedEmptyPostEip161⟩

def change (c : CacheAccountInfo) (info : AccountInfo) : CacheAccountInfo :=
  ⟨some info, c.status.onChanged ((c.account.map AccountInfo.hasNoCodeAndNonce).getD false)⟩

/-- `db_storage` answers zero without asking the database. -/
def isStorageKnown (c : CacheAccountInfo) : Bool :=
  c.status.isStorageKnown || c.account.isNone

end CacheAccountInfo

/-- `ParallelCacheState`. -/
structure ParallelCacheState where
  accounts : Address → Option CacheAccountInfo := fun _ => none
  storage : Address → U256 → Option U256 := fun _ _ => none
  contracts : B256 → Option Bytecode := fun _ => none

namespace ParallelCacheState

def setAccount (cache : ParallelCacheState) (address : Address) (account : CacheAccountInfo) :
    ParallelCacheState :=
  { cache with accounts := Function.update cache.accounts address (some account) }

def setSlot (cache : ParallelCacheState) (address : Address) (index value : U256) :
    ParallelCacheState :=
  { cache with
    storage := Function.update cache.storage address
      (Function.update (cache.storage address) index (some value)) }

/-- `storage.remove(&address)`. -/
def removeStorage (cache : ParallelCacheState) (address : Address) : ParallelCacheState :=
  { cache with storage := Function.update cache.storage address fun _ => none }

/-- Insert the loaded account into a vacant entry; the entry's account. -/
def insertLoaded (cache : ParallelCacheState) (address : Address) (info : Option AccountInfo) :
    ParallelCacheState × Option AccountInfo :=
  match cache.accounts address with
  | some c => (cache, c.account)
  | none => (cache.setAccount address (.ofDatabase info), (CacheAccountInfo.ofDatabase info).account)

/-- `or_insert` on a slot; its value. -/
def insertSlot (cache : ParallelCacheState) (address : Address) (index value : U256) :
    ParallelCacheState × U256 :=
  match cache.storage address index with
  | some value => (cache, value)
  | none => (cache.setSlot address index value, value)

/-- `or_insert` on a contract; its code. -/
def insertCode (cache : ParallelCacheState) (codeHash : B256) (code : Bytecode) :
    ParallelCacheState × Bytecode :=
  match cache.contracts codeHash with
  | some code => (cache, code)
  | none =>
    ({ cache with contracts := Function.update cache.contracts codeHash (some code) }, code)

/-- The status look-up of `db_storage`. -/
def isStorageKnown (cache : ParallelCacheState) (address : Address) : Bool :=
  (cache.accounts address).any CacheAccountInfo.isStorageKnown

end ParallelCacheState

/-! ## Loads -/

/-- The database behind the cache. -/
structure Database (Err : Type) where
  basic : Address → Except Err (Option AccountInfo)
  code : B256 → Except Err Bytecode
  storage : Address → U256 → Except Err U256

/-- A database without accounts. -/
def Database.absent : Database Unit :=
  { basic := fun _ => .ok none, code := fun _ => .ok [], storage := fun _ _ => .ok 0 }

/-- Program points of `db_basic`. -/
inductive BasicLoadPc where
  | lookup (address : Address)
  | database (address : Address)
  | insert (address : Address) (info : Option AccountInfo)
  deriving DecidableEq

/-- Program points of `db_code_by_hash`. -/
inductive CodeLoadPc where
  | lookup (codeHash : B256)
  | database (codeHash : B256)
  | insert (codeHash : B256) (code : Bytecode)
  deriving DecidableEq

/-- Program points of `db_storage`. -/
inductive StorageLoadPc where
  | slot (address : Address) (index : U256)
  | status (address : Address) (index : U256)
  | database (address : Address) (index : U256)
  | insert (address : Address) (index value : U256)
  deriving DecidableEq

namespace ParallelCacheState

variable {Err : Type} (db : Database Err)

def basicLoadStep (cache : ParallelCacheState) :
    BasicLoadPc → ParallelCacheState × (BasicLoadPc ⊕ Except Err (Option AccountInfo))
  | .lookup address =>
    match cache.accounts address with
    | some c => (cache, .inr (.ok c.account))
    | none => (cache, .inl (.database address))
  | .database address =>
    match db.basic address with
    | .ok info => (cache, .inl (.insert address info))
    | .error e => (cache, .inr (.error e))
  | .insert address info =>
    let (cache, account) := cache.insertLoaded address info
    (cache, .inr (.ok account))

def codeLoadStep (cache : ParallelCacheState) :
    CodeLoadPc → ParallelCacheState × (CodeLoadPc ⊕ Except Err Bytecode)
  | .lookup codeHash =>
    match cache.contracts codeHash with
    | some code => (cache, .inr (.ok code))
    | none => (cache, .inl (.database codeHash))
  | .database codeHash =>
    match db.code codeHash with
    | .ok code => (cache, .inl (.insert codeHash code))
    | .error e => (cache, .inr (.error e))
  | .insert codeHash code =>
    let (cache, code) := cache.insertCode codeHash code
    (cache, .inr (.ok code))

def storageLoadStep (cache : ParallelCacheState) :
    StorageLoadPc → ParallelCacheState × (StorageLoadPc ⊕ Except Err U256)
  | .slot address index =>
    match cache.storage address index with
    | some value => (cache, .inr (.ok value))
    | none => (cache, .inl (.status address index))
  | .status address index =>
    if cache.isStorageKnown address then (cache, .inl (.insert address index 0))
    else (cache, .inl (.database address index))
  | .database address index =>
    match db.storage address index with
    | .ok value => (cache, .inl (.insert address index value))
    | .error e => (cache, .inr (.error e))
  | .insert address index value =>
    let (cache, value) := cache.insertSlot address index value
    (cache, .inr (.ok value))

/-- `db_basic` without interleaving. -/
def dbBasic (cache : ParallelCacheState) (address : Address) :
    ParallelCacheState × Except Err (Option AccountInfo) :=
  match cache.accounts address with
  | some c => (cache, .ok c.account)
  | none =>
    match db.basic address with
    | .ok info =>
      let (cache, account) := cache.insertLoaded address info
      (cache, .ok account)
    | .error e => (cache, .error e)

/-- `db_code_by_hash` without interleaving. -/
def dbCodeByHash (cache : ParallelCacheState) (codeHash : B256) :
    ParallelCacheState × Except Err Bytecode :=
  match cache.contracts codeHash with
  | some code => (cache, .ok code)
  | none =>
    match db.code codeHash with
    | .ok code =>
      let (cache, code) := cache.insertCode codeHash code
      (cache, .ok code)
    | .error e => (cache, .error e)

/-- `db_storage` without interleaving. -/
def dbStorage (cache : ParallelCacheState) (address : Address) (index : U256) :
    ParallelCacheState × Except Err U256 :=
  match cache.storage address index with
  | some value => (cache, .ok value)
  | none =>
    match if cache.isStorageKnown address then .ok 0 else db.storage address index with
    | .ok value =>
      let (cache, value) := cache.insertSlot address index value
      (cache, .ok value)
    | .error e => (cache, .error e)

end ParallelCacheState

/-! ## Commits -/

/-- Program points of `apply_evm_state_inner`: between two accounts, or
inside `apply_account_state` of one. -/
inductive ApplyPc where
  | next (accounts : List (Address × Account))
  | removeStorage (address : Address) (account : Account) (accounts : List (Address × Account))
  | change (address : Address) (account : Account) (accounts : List (Address × Account))
  | contract (address : Address) (account : Account) (accounts : List (Address × Account))
  | slots (address : Address) (slots : List (U256 × U256)) (accounts : List (Address × Account))

namespace ParallelCacheState

/-- The account map operation of `apply_account_state` on a touched
account. -/
def changeAccount (account : Account) (c : CacheAccountInfo) : CacheAccountInfo :=
  if account.selfdestructed then c.selfdestruct
  else if account.created then c.newlyCreated account.info
  else if account.isEmpty then c.touchEmptyEip161
  else c.change account.info

/-- The contract map operation, for a created account. -/
def addContract (cache : ParallelCacheState) (info : AccountInfo) : Option ParallelCacheState :=
  match cache.contracts info.codeHash, info.code with
  | some _, _ => some cache
  | none, some code =>
    some { cache with contracts := Function.update cache.contracts info.codeHash (some code) }
  | none, none => none

/-- One map operation of a commit, or the choice of the next account or
slot. -/
def applyStep (cache : ParallelCacheState) (c : Nat) :
    ApplyPc → Option (ParallelCacheState × Option ApplyPc)
  | .next accounts =>
    if accounts.isEmpty then some (cache, none)
    else
      (pick? accounts c).map fun ((address, account), accounts) =>
        (cache, some
          (if !account.touched then .next accounts
          else if account.selfdestructed || account.created || account.isEmpty then
            .removeStorage address account accounts
          else .change address account accounts))
  | .removeStorage address account accounts =>
    some (cache.removeStorage address, some (.change address account accounts))
  | .change address account accounts =>
    (cache.accounts address).map fun current =>
      (cache.setAccount address (changeAccount account current), some
        (if account.selfdestructed then .next accounts
        else if account.created then .contract address account accounts
        else if account.isEmpty then .next accounts
        else .slots address account.changedStorageSlots accounts))
  | .contract address account accounts =>
    (cache.addContract account.info).map fun cache =>
      (cache, some (.slots address account.changedStorageSlots accounts))
  | .slots address slots accounts =>
    if slots.isEmpty then some (cache, some (.next accounts))
    else
      (pick? slots c).map fun ((index, value), slots) =>
        (cache.setSlot address index value, some (.slots address slots accounts))

/-- `update_storage_slot`. -/
def updateStorageSlot (cache : ParallelCacheState) (address : Address)
    (slots : List (U256 × U256)) : ParallelCacheState :=
  slots.foldl (fun cache slot => cache.setSlot address slot.1 slot.2) cache

/-- `apply_account_state` without interleaving. -/
def applyAccountState (cache : ParallelCacheState) (address : Address) (account : Account) :
    Option ParallelCacheState :=
  if !account.touched then some cache
  else if account.selfdestructed then
    let cache := cache.removeStorage address
    (cache.accounts address).map fun c => cache.setAccount address c.selfdestruct
  else if account.created then
    let cache := cache.removeStorage address
    (cache.accounts address).bind fun c =>
      ((cache.setAccount address (c.newlyCreated account.info)).addContract account.info).map
        fun cache => cache.updateStorageSlot address account.changedStorageSlots
  else if account.isEmpty then
    let cache := cache.removeStorage address
    (cache.accounts address).map fun c => cache.setAccount address c.touchEmptyEip161
  else
    (cache.accounts address).map fun c =>
      (cache.setAccount address (c.change account.info)).updateStorageSlot address
        account.changedStorageSlots

/-- `apply_evm_state` without interleaving. -/
def applyEvmState (cache : ParallelCacheState) (state : EvmState) : Option ParallelCacheState :=
  state.entries.foldlM (fun cache e => cache.applyAccountState e.1 e.2) cache

/-- What a commit step does to the account map: nothing, or one change. -/
theorem accounts_applyStep {cache cache' : ParallelCacheState} {c : Nat} {pc : ApplyPc}
    {next : Option ApplyPc}
    (h : cache.applyStep c pc = some (cache', next)) :
    cache'.accounts = cache.accounts ∨ ∃ address account c,
      cache.accounts address = some c ∧ cache'.accounts =
        Function.update cache.accounts address (some (changeAccount account c)) := by
  cases pc with
  | next accounts | slots a slots accounts =>
    simp only [applyStep] at h
    split at h
    · cases h
      exact .inl rfl
    · obtain ⟨_, _, heq⟩ := Option.map_eq_some_iff.mp h
      cases heq
      exact .inl rfl
  | removeStorage a account accounts =>
    cases h
    exact .inl rfl
  | change a account accounts =>
    obtain ⟨current, hcurrent, heq⟩ := Option.map_eq_some_iff.mp h
    cases heq
    exact .inr ⟨a, account, current, hcurrent, rfl⟩
  | contract a account accounts =>
    obtain ⟨cache₁, hadd, heq⟩ := Option.map_eq_some_iff.mp h
    cases heq
    unfold addContract at hadd
    split at hadd <;> cases hadd <;> exact .inl rfl

/-! ## Accounts of the cache -/

/-- The cache holds an account for the address. -/
def HasAccount (cache : ParallelCacheState) (address : Address) : Prop :=
  (cache.accounts address).isSome

/-- Every account of `cache` is in `cache'`. -/
def GrowsTo (cache cache' : ParallelCacheState) : Prop :=
  ∀ address, cache.HasAccount address → cache'.HasAccount address

/-- `get_account_mut` succeeds for every touched account of a change
set. -/
def Covers (cache : ParallelCacheState) (state : EvmState) : Prop :=
  ∀ address account, state.lookup address = some account → account.touched = true →
    cache.HasAccount address

variable {cache cache' : ParallelCacheState}

theorem GrowsTo.of_eq (h : cache'.accounts = cache.accounts) : cache.GrowsTo cache' := by
  intro address hmem
  simpa [HasAccount, h] using hmem

theorem Covers.mono {state : EvmState} (hgrow : cache.GrowsTo cache') (h : cache.Covers state) :
    cache'.Covers state :=
  fun address account hlookup htouched => hgrow address (h address account hlookup htouched)

theorem growsTo_setAccount {address : Address} {account : CacheAccountInfo} :
    cache.GrowsTo (cache.setAccount address account) := by
  intro a hmem
  by_cases ha : a = address
  · simp [HasAccount, setAccount, ha]
  · simpa [HasAccount, setAccount, Function.update_of_ne ha] using hmem

end ParallelCacheState

/-- The cache over a database as the backing of the scheduler. -/
def parallelState {Err : Type} (db : Database Err) : Backing Err where
  State := ParallelCacheState
  BasicPc := BasicLoadPc
  CodePc := CodeLoadPc
  StoragePc := StorageLoadPc
  CommitPc := ApplyPc
  basicStart := .lookup
  basicStep cache pc := cache.basicLoadStep db pc
  codeStart := .lookup
  codeStep cache pc := cache.codeLoadStep db pc
  storageStart := .slot
  storageStep cache pc := cache.storageLoadStep db pc
  commitStart state := .next (state.entries.map fun e => (e.1, e.2))
  commitStep cache pc c := cache.applyStep c pc
  basicNow cache address := cache.dbBasic db address
  codeNow cache codeHash := cache.dbCodeByHash db codeHash
  storageNow cache address index := cache.dbStorage db address index
  commitNow cache state := cache.applyEvmState state

end Grevm
