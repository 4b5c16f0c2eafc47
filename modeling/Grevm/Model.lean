/-
Grevm.Model — the data model of the parallel executor.

The types of `src/model.rs`, `src/account.rs` and `src/outcome.rs`, and
the part of revm's account types that those files read. Words keep their
width (`Address` 160 bits, `U256` and `B256` 256 bits, nonces 64 bits);
`usize` counters (`TxId` indices, incarnations, cursors, logical
timestamps) are natural numbers, since nothing in the scheduler depends
on their wrapping.

A revm `HashMap` whose iteration order the code observes is an
association list without duplicate keys (`AList`): the order of its
entries is the order of the iteration. A `HashSet` is the list of its
elements.
-/
import Mathlib.Data.BitVec
import Mathlib.Data.List.AList
import Mathlib.Tactic.Common

namespace Grevm

/-! ## Words -/

abbrev Address := BitVec 160
abbrev U256 := BitVec 256
abbrev B256 := BitVec 256
abbrev Bytecode := List UInt8

theorem U256.one_ne_zero : (1 : U256) ≠ 0 := by decide

/-- Hash of the empty byte string: the code hash of an account without
code. -/
def keccakEmpty : B256 :=
  0xc5d2460186f7233c927e7db2dcc703c0e500b653ca82273b7bfad8045d85a470#256

/-! ## Accounts -/

/-- revm's `AccountInfo`. `code` is absent when the code was not loaded
together with the account. -/
structure AccountInfo where
  balance : U256
  nonce : BitVec 64
  codeHash : B256
  code : Option Bytecode
  deriving DecidableEq

/-- `AccountInfo::default()`. -/
def AccountInfo.empty : AccountInfo :=
  { balance := 0, nonce := 0, codeHash := keccakEmpty, code := some [] }

def AccountInfo.isEmptyCodeHash (info : AccountInfo) : Bool :=
  info.codeHash == keccakEmpty

/-- An account is empty when it has no balance, no nonce and no code; a
zero code hash counts as no code here. -/
def AccountInfo.isEmpty (info : AccountInfo) : Bool :=
  (info.isEmptyCodeHash || info.codeHash == 0) && info.balance == 0 && info.nonce == 0

def AccountInfo.hasNoCodeAndNonce (info : AccountInfo) : Bool :=
  info.isEmptyCodeHash && info.nonce == 0

/-- What the EVM observes of a loaded account: its fields and the bytes
of its code. -/
structure AccountView where
  balance : U256
  nonce : BitVec 64
  codeHash : B256
  code : Bytecode
  deriving DecidableEq

/-- The observation of `info`; an account without code has empty code
whatever its `code` field holds. -/
def AccountInfo.view (info : AccountInfo) : AccountView :=
  { balance := info.balance
    nonce := info.nonce
    codeHash := info.codeHash
    code := if info.isEmptyCodeHash then [] else info.code.getD [] }

/-- A journal slot: the value at the start of the transaction and the
value it leaves. -/
structure EvmStorageSlot where
  originalValue : U256
  presentValue : U256
  deriving DecidableEq

def EvmStorageSlot.isChanged (slot : EvmStorageSlot) : Bool :=
  slot.originalValue != slot.presentValue

/-- A finalized journal account with the status flags the executor
reads. -/
structure Account where
  info : AccountInfo
  storage : AList (fun _ : U256 => EvmStorageSlot)
  touched : Bool
  created : Bool
  selfdestructed : Bool
  deriving DecidableEq

/-- `Account::from(info)`: loaded, not touched. -/
def Account.ofInfo (info : AccountInfo) : Account :=
  { info, storage := ∅, touched := false, created := false, selfdestructed := false }

def Account.markTouch (account : Account) : Account := { account with touched := true }

def Account.isEmpty (account : Account) : Bool := account.info.isEmpty

/-- The slots whose value changed, in the journal's order. -/
def Account.changedStorageSlots (account : Account) : List (U256 × U256) :=
  (account.storage.entries.filter fun e => e.2.isChanged).map fun e => (e.1, e.2.presentValue)

/-- The change set of one transaction. -/
abbrev EvmState := AList (fun _ : Address => Account)

/-- `FinalizedAccount` of `src/account.rs`: the consensus-visible change
that one finalized journal account represents. -/
inductive FinalizedAccount where
  | unchanged
  | deleted
  | created (info : AccountInfo)
  | updated (info : AccountInfo)
  deriving DecidableEq

/-- `FinalizedAccount::from`. A selfdestruct wins over a creation, and
a touched empty account that was not created is a deletion. -/
def FinalizedAccount.ofAccount (account : Account) : FinalizedAccount :=
  if !account.touched then .unchanged
  else if account.selfdestructed then .deleted
  else if account.created then .created account.info
  else if account.isEmpty then .deleted
  else .updated account.info

/-! ## Transactions and their versions -/

inductive TransactionStatus where
  | initial
  | executing
  | executed
  | validating
  | unconfirmed
  | conflict
  | finality
  deriving DecidableEq, Repr

structure TxState where
  status : TransactionStatus := .initial
  incarnation : Nat := 0
  dependency : Option Nat := none
  deriving DecidableEq, Repr

structure TxVersion where
  txid : Nat
  incarnation : Nat
  deriving DecidableEq, Repr

/-- `BeneficiaryReadVersion`: the in-block writes one beneficiary read
was rebuilt from, newest first. -/
structure BeneficiaryReadVersion where
  origins : List TxVersion
  deriving DecidableEq, Repr

inductive ReadVersion where
  | mvMemory (version : TxVersion)
  | beneficiary (version : BeneficiaryReadVersion)
  | storage
  deriving DecidableEq, Repr

/-- The account fields an incarnation compares its result with. -/
structure AccountBasic where
  balance : U256
  nonce : BitVec 64
  codeHash : Option B256
  deriving DecidableEq

def AccountBasic.ofInfo (info : AccountInfo) : AccountBasic :=
  { balance := info.balance
    nonce := info.nonce
    codeHash := if info.isEmptyCodeHash then none else some info.codeHash }

/-! ## Multi-version memory -/

inductive MemoryValue where
  | basic (account : Option AccountInfo)
  | code (code : Bytecode)
  | storage (value : U256)
  | storageReset
  deriving DecidableEq

structure MemoryEntry where
  incarnation : Nat
  data : MemoryValue
  estimate : Bool
  deriving DecidableEq

inductive LocationAndType where
  | basic (address : Address)
  | storage (address : Address) (slot : U256)
  | storageReset (address : Address)
  | code (address : Address)
  deriving DecidableEq

/-! ## Results and errors -/

/-- revm's `InvalidTransaction`, with the nonce verdicts spelled out. -/
inductive InvalidTransaction where
  | nonceOverflowInTransaction
  | nonceTooHigh (tx state : BitVec 64)
  | nonceTooLow (tx state : BitVec 64)
  | other (reason : String)
  deriving DecidableEq

/-- revm's `EVMError`. -/
inductive EVMError (Err : Type) where
  | transaction (error : InvalidTransaction)
  | header (reason : String)
  | database (error : Err)
  | custom (message : String)
  deriving DecidableEq

/-- Only an invalid transaction is skipped; every other error is fatal
for the block. -/
def EVMError.isTransaction {Err : Type} : EVMError Err → Bool
  | .transaction _ => true
  | _ => false

structure GrevmError (Err : Type) where
  txid : Nat
  error : EVMError Err
  deriving DecidableEq

/-- `AbortReason` of `src/model.rs`. -/
inductive AbortReason (Err : Type) where
  | fatalEvmError (txid : Nat)
  | commitError (error : GrevmError Err)
  | parallelError (txid : Nat) (message : String)
  | fallbackSequential
  deriving DecidableEq

/-- `TxExecutionOutcome` of `src/outcome.rs`; `R` is revm's
`ExecutionResult`. -/
inductive TxExecutionOutcome (R : Type) where
  | executed (result : R)
  | skipped (error : InvalidTransaction)
  deriving DecidableEq

/-- A protocol reward left for ordered commit; never zero. -/
structure DeferredBeneficiaryReward where
  amount : U256
  nonzero : amount ≠ 0
  deriving DecidableEq

/-- `SpeculativeResult`: the execution result, the finalized state and
the reward intentionally left out of it. -/
structure SpeculativeResult (R : Type) where
  result : R
  state : EvmState
  deferredReward : Option DeferredBeneficiaryReward
  deriving DecidableEq

/-- The read set of an incarnation. A `HashMap` keeps one version per
location: inserting replaces. -/
abbrev ReadSet := AList (fun _ : LocationAndType => ReadVersion)

structure TransactionResult (Err R : Type) where
  readSet : ReadSet
  writeSet : List LocationAndType
  executeResult : Except (EVMError Err) (SpeculativeResult R)

inductive Task where
  | execution (version : TxVersion)
  | validation (version : TxVersion)
  deriving DecidableEq

end Grevm
