/-
Grevm.IncarnationDb — reads, read set and publications of one incarnation.

`src/incarnation_db.rs`. `CallPc` are the program points of
`Database::basic` and `Database::storage` between two accesses to shared
state, and `callStep` is one access: a look-up of one location in the
multi-version memory, a visit of one beneficiary entry, or a step of a
call to the backing database. `Publishing` is the state of
`publish_writes` between two publications, and `checkRead` the
comparison that validation makes for one location.
-/
import Grevm.Database
import Grevm.MVMemory
import Mathlib.Data.List.Perm.Basic

namespace Grevm

/-! ## Reads -/

/-- The scratch state of `IncarnationDb`, its version apart. -/
structure IncarnationDb where
  readSet : ReadSet := ∅
  accountSnapshots : AList (fun _ : Address => AccountBasic) := ∅
  blockingTxs : List Nat := []
  blockedByBeneficiary : Bool := false

namespace IncarnationDb

def recordRead (db : IncarnationDb) (location : LocationAndType) (version : ReadVersion) :
    IncarnationDb :=
  { db with readSet := db.readSet.insert location version }

/-- An estimate blocks the incarnation on its writer. -/
def blockOn (db : IncarnationDb) (txid : Nat) (estimate : Bool) : IncarnationDb :=
  if estimate then { db with blockingTxs := db.blockingTxs.insert txid } else db

/-- An absent account leaves no snapshot. -/
def snapshot (db : IncarnationDb) (address : Address) (account : Option AccountInfo) :
    IncarnationDb :=
  match account with
  | some info =>
    { db with accountSnapshots := db.accountSnapshots.insert address (AccountBasic.ofInfo info) }
  | none => db

/-- `IncarnationAccesses::is_blocked`. -/
def isBlocked (db : IncarnationDb) : Bool := !db.blockingTxs.isEmpty

end IncarnationDb

section Calls

variable {Err : Type} (B : Backing Err)

/-- Program points of a state read. -/
inductive CallPc where
  | basicMv (address : Address)
  | basicScan (address : Address) (scan : ScanState)
  | basicBacking (address : Address) (pc : B.BasicPc)
  | codeMv (address : Address) (info : AccountInfo)
  | codeBacking (address : Address) (info : AccountInfo) (pc : B.CodePc)
  | storageReset (address : Address) (index : U256)
  | storageSlot (address : Address) (index : U256) (resetTxid : Option Nat)
  | storageBacking (address : Address) (index : U256) (pc : B.StoragePc)

variable {B}

/-- Where a state read of transaction `txid` begins. -/
def Call.start (beneficiary : Address) (txid : Nat) : Call → CallPc B
  | .basic address =>
    if address = beneficiary then .basicScan address { writer := txid } else .basicMv address
  | .storage address index => .storageReset address index

/-- The state read of a program point. -/
def CallPc.call : CallPc B → Call
  | .basicMv address | .basicScan address _ | .basicBacking address _
  | .codeMv address _ | .codeBacking address _ _ => .basic address
  | .storageReset address index | .storageSlot address index _
  | .storageBacking address index _ => .storage address index

theorem CallPc.call_start (beneficiary : Address) (txid : Nat) (call : Call) :
    (call.start beneficiary txid : CallPc B).call = call := by
  cases call with
  | basic address =>
    simp only [Call.start]
    split <;> rfl
  | storage address index => rfl

/-- After the account is known: look for its code where it is missing. -/
def finishBasic (address : Address) (result : Option AccountInfo) :
    CallPc B ⊕ Except Err Value :=
  match result with
  | some info =>
    if !info.isEmptyCodeHash && info.code.isNone then .inl (.codeMv address info)
    else .inr (.ok (.account (some info.view)))
  | none => .inr (.ok (.account none))

/-- A look-up takes an entry only when it holds the kind of value the
location is for. -/
def MemoryValue.matchesLocation : MemoryValue → LocationAndType → Bool
  | .basic _, .basic _ | .code _, .code _ | .storage _, .storage _ _
  | .storageReset, .storageReset _ => true
  | _, _ => false

/-- The latest preceding entry that a look-up of `location` takes. -/
def lookup (mv : MVMemory) (txid : Nat) (location : LocationAndType) :
    Option (Nat × MemoryEntry) :=
  (MVMemory.latestBefore (mv location) txid).filter fun found =>
    found.2.data.matchesLocation location

/-- A look-up: block on an estimate and record the version. -/
def IncarnationDb.look (db : IncarnationDb) (location : LocationAndType)
    (found : Option (Nat × MemoryEntry)) : IncarnationDb :=
  match found with
  | some (txid, entry) =>
    (db.blockOn txid entry.estimate).recordRead location (.mvMemory ⟨txid, entry.incarnation⟩)
  | none => db.recordRead location .storage

/-- `code_by_address` is done. -/
def withCode (info : AccountInfo) (code : Bytecode) : Except Err Value :=
  .ok (.account (some { info with code := some code }.view))

/-- One access of a state read of transaction `txid`: the backing state
and the scratch state after it, and the next program point or the
answer. -/
def callStep (anchor : Option AccountInfo) (txid : Nat) (mv : MVMemory)
    (history : Nat → EntryState) (backing : B.State) (db : IncarnationDb) :
    CallPc B → B.State × IncarnationDb × (CallPc B ⊕ Except Err Value)
  | .basicScan address scan =>
    match scan.step anchor history with
    | .more scan => (backing, db, .inl (.basicScan address scan))
    | .done scan =>
      let account := scan.resolve
      let db := db.recordRead (.basic address) (.beneficiary scan.version)
      (backing, db.snapshot address account, finishBasic address account)
    | .blocked writer =>
      let db := db.blockOn writer true
      (backing, { db with blockedByBeneficiary := true }, .inr (.ok (.account none)))
  | .basicMv address =>
    match lookup mv txid (.basic address) with
    | some (writer, entry) =>
      match entry.data with
      | .basic account =>
        let db := (db.look (.basic address) (some (writer, entry))).snapshot address account
        (backing, db, finishBasic address account)
      | _ => (backing, db, .inl (.basicBacking address (B.basicStart address)))
    | none => (backing, db, .inl (.basicBacking address (B.basicStart address)))
  | .basicBacking address pc =>
    match B.basicStep backing pc with
    | (backing, .inl pc) => (backing, db, .inl (.basicBacking address pc))
    | (backing, .inr (.error e)) => (backing, db, .inr (.error e))
    | (backing, .inr (.ok account)) =>
      let db := (db.snapshot address account).recordRead (.basic address) .storage
      (backing, db, finishBasic address account)
  | .codeMv address info =>
    match lookup mv txid (.code address) with
    | some (writer, entry) =>
      match entry.data with
      | .code code =>
        (backing, db.look (.code address) (some (writer, entry)), .inr (withCode info code))
      | _ => (backing, db, .inl (.codeBacking address info (B.codeStart info.codeHash)))
    | none => (backing, db, .inl (.codeBacking address info (B.codeStart info.codeHash)))
  | .codeBacking address info pc =>
    match B.codeStep backing pc with
    | (backing, .inl pc) => (backing, db, .inl (.codeBacking address info pc))
    | (backing, .inr (.error e)) => (backing, db, .inr (.error e))
    | (backing, .inr (.ok code)) =>
      (backing, db.recordRead (.code address) .storage, .inr (withCode info code))
  | .storageReset address index =>
    let found := lookup mv txid (.storageReset address)
    (backing, db.look (.storageReset address) found,
      .inl (.storageSlot address index (found.map Prod.fst)))
  | .storageSlot address index resetTxid =>
    let found := lookup mv txid (.storage address index)
    let db := db.look (.storage address index) found
    match found, resetTxid with
    | some (slotTxid, { data := .storage value, .. }), some reset =>
      if reset ≤ slotTxid then (backing, db, .inr (.ok (.word value)))
      else (backing, db, .inr (.ok (.word 0)))
    | some (_, { data := .storage value, .. }), none => (backing, db, .inr (.ok (.word value)))
    | _, some _ => (backing, db, .inr (.ok (.word 0)))
    | _, none =>
      (backing, db, .inl (.storageBacking address index (B.storageStart address index)))
  | .storageBacking address index pc =>
    match B.storageStep backing pc with
    | (backing, .inl pc) => (backing, db, .inl (.storageBacking address index pc))
    | (backing, .inr result) => (backing, db, .inr (result.map .word))

end Calls

/-! ## What an access can do -/

section Cases

variable {mv : MVMemory} {txid : Nat}

theorem matches_of_lookup {l : LocationAndType} {writer : Nat} {entry : MemoryEntry}
    (h : lookup mv txid l = some (writer, entry)) : entry.data.matchesLocation l = true :=
  (Option.filter_eq_some_iff.mp h).2

theorem basic_of_lookup {address : Address} {writer : Nat} {entry : MemoryEntry}
    (h : lookup mv txid (.basic address) = some (writer, entry)) :
    ∃ account, entry.data = .basic account := by
  have hkind := matches_of_lookup h
  cases hdata : entry.data <;> simp [hdata, MemoryValue.matchesLocation] at hkind ⊢

theorem code_of_lookup {address : Address} {writer : Nat} {entry : MemoryEntry}
    (h : lookup mv txid (.code address) = some (writer, entry)) :
    ∃ code, entry.data = .code code := by
  have hkind := matches_of_lookup h
  cases hdata : entry.data <;> simp [hdata, MemoryValue.matchesLocation] at hkind ⊢

theorem storage_of_lookup {address : Address} {index : U256} {writer : Nat} {entry : MemoryEntry}
    (h : lookup mv txid (.storage address index) = some (writer, entry)) :
    ∃ value, entry.data = .storage value := by
  have hkind := matches_of_lookup h
  cases hdata : entry.data <;> simp [hdata, MemoryValue.matchesLocation] at hkind ⊢

variable {Err : Type} {B : Backing Err}

section

variable (anchor : Option AccountInfo) (txid : Nat) (mv : MVMemory)
  (history : Nat → EntryState) (backing : B.State) (db : IncarnationDb)

/-- The accesses of a state read, one constructor for each way in which
`callStep` returns. -/
inductive CallStep :
    CallPc B → B.State → IncarnationDb → CallPc B ⊕ Except Err Value → Prop where
  | visit {address scan scan'} (h : scan.step anchor history = .more scan') :
      CallStep (.basicScan address scan) backing db (.inl (.basicScan address scan'))
  | resolve {address scan found next} (h : scan.step anchor history = .done found)
      (hnext : finishBasic address found.resolve = next) :
      CallStep (.basicScan address scan) backing
        ((db.recordRead (.basic address) (.beneficiary found.version)).snapshot address
          found.resolve) next
  | block {address scan writer} (h : scan.step anchor history = .blocked writer) :
      CallStep (.basicScan address scan) backing
        { db.blockOn writer true with blockedByBeneficiary := true } (.inr (.ok (.account none)))
  | basicHit {address writer entry account next}
      (h : lookup mv txid (.basic address) = some (writer, entry))
      (hdata : entry.data = .basic account) (hnext : finishBasic address account = next) :
      CallStep (.basicMv address) backing
        ((db.look (.basic address) (some (writer, entry))).snapshot address account) next
  | basicMiss {address} (h : lookup mv txid (.basic address) = none) :
      CallStep (.basicMv address) backing db
        (.inl (.basicBacking address (B.basicStart address)))
  | basicMore {address pc backing' pc'} (h : B.basicStep backing pc = (backing', .inl pc')) :
      CallStep (.basicBacking address pc) backing' db (.inl (.basicBacking address pc'))
  | basicFails {address pc backing' e}
      (h : B.basicStep backing pc = (backing', .inr (.error e))) :
      CallStep (.basicBacking address pc) backing' db (.inr (.error e))
  | basicLoads {address pc backing' account next}
      (h : B.basicStep backing pc = (backing', .inr (.ok account)))
      (hnext : finishBasic address account = next) :
      CallStep (.basicBacking address pc) backing'
        ((db.snapshot address account).recordRead (.basic address) .storage) next
  | codeHit {address info writer entry code}
      (h : lookup mv txid (.code address) = some (writer, entry))
      (hdata : entry.data = .code code) :
      CallStep (.codeMv address info) backing (db.look (.code address) (some (writer, entry)))
        (.inr (withCode info code))
  | codeMiss {address info} (h : lookup mv txid (.code address) = none) :
      CallStep (.codeMv address info) backing db
        (.inl (.codeBacking address info (B.codeStart info.codeHash)))
  | codeMore {address info pc backing' pc'} (h : B.codeStep backing pc = (backing', .inl pc')) :
      CallStep (.codeBacking address info pc) backing' db (.inl (.codeBacking address info pc'))
  | codeFails {address info pc backing' e}
      (h : B.codeStep backing pc = (backing', .inr (.error e))) :
      CallStep (.codeBacking address info pc) backing' db (.inr (.error e))
  | codeLoads {address info pc backing' code}
      (h : B.codeStep backing pc = (backing', .inr (.ok code))) :
      CallStep (.codeBacking address info pc) backing' (db.recordRead (.code address) .storage)
        (.inr (withCode info code))
  | reset {address index} :
      CallStep (.storageReset address index) backing
        (db.look (.storageReset address) (lookup mv txid (.storageReset address)))
        (.inl (.storageSlot address index
          ((lookup mv txid (.storageReset address)).map Prod.fst)))
  | slotHit {address index resetTxid writer entry value}
      (h : lookup mv txid (.storage address index) = some (writer, entry))
      (hdata : entry.data = .storage value)
      (hreset : ∀ reset, resetTxid = some reset → reset ≤ writer) :
      CallStep (.storageSlot address index resetTxid) backing
        (db.look (.storage address index) (lookup mv txid (.storage address index)))
        (.inr (.ok (.word value)))
  | slotCleared {address index reset}
      (h : ∀ writer entry, lookup mv txid (.storage address index) = some (writer, entry) →
        writer < reset) :
      CallStep (.storageSlot address index (some reset)) backing
        (db.look (.storage address index) (lookup mv txid (.storage address index)))
        (.inr (.ok (.word 0)))
  | slotMiss {address index} (h : lookup mv txid (.storage address index) = none) :
      CallStep (.storageSlot address index none) backing
        (db.look (.storage address index) (lookup mv txid (.storage address index)))
        (.inl (.storageBacking address index (B.storageStart address index)))
  | storageMore {address index pc backing' pc'}
      (h : B.storageStep backing pc = (backing', .inl pc')) :
      CallStep (.storageBacking address index pc) backing' db
        (.inl (.storageBacking address index pc'))
  | storageFails {address index pc backing' e}
      (h : B.storageStep backing pc = (backing', .inr (.error e))) :
      CallStep (.storageBacking address index pc) backing' db (.inr (.error e))
  | storageLoads {address index pc backing' value}
      (h : B.storageStep backing pc = (backing', .inr (.ok value))) :
      CallStep (.storageBacking address index pc) backing' db (.inr (.ok (.word value)))

end

theorem callStep_sound {anchor : Option AccountInfo} {history : Nat → EntryState}
    {backing backing' : B.State} {db db' : IncarnationDb} {pc : CallPc B}
    {next : CallPc B ⊕ Except Err Value}
    (h : callStep anchor txid mv history backing db pc = (backing', db', next)) :
    CallStep anchor txid mv history backing db pc backing' db' next := by
  cases pc with
  | basicScan address scan =>
    simp only [callStep] at h
    split at h <;> cases h <;> rename_i hstep
    · exact .visit hstep
    · exact .resolve hstep rfl
    · exact .block hstep
  | basicMv address =>
    simp only [callStep] at h
    split at h
    · rename_i hfound
      obtain ⟨account, hdata⟩ := basic_of_lookup hfound
      simp only [hdata] at h
      cases h
      exact .basicHit hfound hdata rfl
    · cases h
      exact .basicMiss ‹_›
  | basicBacking address pc =>
    simp only [callStep] at h
    split at h <;> cases h <;> rename_i hstep
    · exact .basicMore hstep
    · exact .basicFails hstep
    · exact .basicLoads hstep rfl
  | codeMv address info =>
    simp only [callStep] at h
    split at h
    · rename_i hfound
      obtain ⟨code, hdata⟩ := code_of_lookup hfound
      simp only [hdata] at h
      cases h
      exact .codeHit hfound hdata
    · cases h
      exact .codeMiss ‹_›
  | codeBacking address info pc =>
    simp only [callStep] at h
    split at h <;> cases h <;> rename_i hstep
    · exact .codeMore hstep
    · exact .codeFails hstep
    · exact .codeLoads hstep
  | storageReset address index =>
    cases h
    exact .reset
  | storageSlot address index resetTxid =>
    simp only [callStep] at h
    cases hfound : lookup mv txid (.storage address index) with
    | none =>
      rw [hfound] at h
      cases resetTxid <;> cases h <;> rw [← hfound]
      · exact .slotMiss hfound
      · exact .slotCleared (by simp [hfound])
    | some found =>
      obtain ⟨writer, n, data, estimate⟩ := found
      obtain ⟨value, rfl⟩ := storage_of_lookup hfound
      rw [hfound] at h
      cases resetTxid with
      | none =>
        cases h
        rw [← hfound]
        exact .slotHit hfound rfl (by rintro _ ⟨⟩)
      | some reset =>
        simp only at h
        split at h <;> cases h <;> rename_i hle <;> rw [← hfound]
        · exact .slotHit hfound rfl fun _ heq => Option.some.inj heq ▸ hle
        · exact .slotCleared fun w e hw => by
            rw [hfound] at hw
            cases hw
            omega
  | storageBacking address index pc =>
    simp only [callStep] at h
    split at h
    · cases h
      exact .storageMore ‹_›
    · rename_i result hstep
      cases h
      cases result with
      | error e => exact .storageFails hstep
      | ok value => exact .storageLoads hstep

end Cases

/-! ## Publications -/

/-- One publication: a location and its new value. -/
abbrev Write := LocationAndType × MemoryValue

/-- The writes of one finalized account in the order of
`publish_writes`: those that come first, and the changed slots. -/
def accountWrites (beneficiary : Address) (snapshot : Option AccountBasic) (address : Address)
    (account : Account) : List Write × List Write :=
  let written (info : AccountInfo) (created : Bool) : List Write × List Write :=
    let codeChanged := !info.isEmptyCodeHash && info.code.isSome &&
      snapshot.all fun basic => basic.codeHash != some info.codeHash
    let basicChanged := codeChanged ||
      snapshot.all fun basic => basic.nonce != info.nonce || basic.balance != info.balance
    ((if created then [(.storageReset address, .storageReset)] else []) ++
      (if codeChanged then [(.code address, .code (info.code.getD []))] else []) ++
      (if address != beneficiary && basicChanged then
        [(.basic address, .basic (some { info with code := none }))] else []),
      account.changedStorageSlots.map fun slot =>
        (.storage address slot.1, .storage slot.2))
  match FinalizedAccount.ofAccount account with
  | .unchanged => ([], [])
  | .deleted =>
    ((if address != beneficiary then [(.basic address, .basic none)] else []) ++
      [(.storageReset address, .storageReset)], [])
  | .created info => written info true
  | .updated info => written info false

/-- `publish_writes` between two publications. The account at hand has
`first` still to be published in order, then `slots` in any order;
`accounts` are the accounts not reached yet. -/
structure Publishing where
  first : List Write := []
  slots : List Write := []
  accounts : List (Address × Account)
  writeSet : List LocationAndType := []

/-- The element at a chosen position, and the others. -/
def pick? {α : Type} (l : List α) (c : Nat) : Option (α × List α) :=
  l[c]?.map fun x => (x, l.eraseIdx c)

theorem perm_of_pick? {α : Type} {l rest : List α} {c : Nat} {x : α}
    (h : pick? l c = some (x, rest)) : (x :: rest).Perm l := by
  obtain ⟨y, hy, heq⟩ := Option.map_eq_some_iff.mp h
  obtain ⟨hc, rfl⟩ := List.getElem?_eq_some_iff.mp hy
  cases heq
  exact List.getElem_cons_eraseIdx_perm hc

theorem mem_of_pick? {α : Type} {l rest : List α} {c : Nat} {x : α}
    (h : pick? l c = some (x, rest)) (y : α) : y ∈ l ↔ y = x ∨ y ∈ rest := by
  rw [← (perm_of_pick? h).mem_iff, List.mem_cons]

namespace Publishing

def start (changes : EvmState) : Publishing :=
  { accounts := changes.entries.map fun e => (e.1, e.2) }

/-- Nothing is left to publish. -/
def finished (p : Publishing) : Bool :=
  p.first.isEmpty && p.slots.isEmpty && p.accounts.isEmpty

/-- One step of `publish_writes`: the next publication, or, between two
accounts, the choice of the next one. -/
def next (beneficiary : Address) (snapshots : AList (fun _ : Address => AccountBasic))
    (p : Publishing) (c : Nat) : Option (Option Write × Publishing) :=
  match p.first with
  | write :: first =>
    some (some write, { p with first, writeSet := p.writeSet.insert write.1 })
  | [] =>
    if p.slots.isEmpty then
      (pick? p.accounts c).map fun ((address, account), accounts) =>
        let (first, slots) :=
          accountWrites beneficiary (snapshots.lookup address) address account
        (none, { p with first, slots, accounts })
    else
      (pick? p.slots c).map fun (write, slots) =>
        (some write, { p with slots, writeSet := p.writeSet.insert write.1 })

section

variable {beneficiary : Address} {snapshots : AList (fun _ : Address => AccountBasic)}
  {p p' : Publishing} {c : Nat} {write : Write}

/-- A publication adds its location to the write set. -/
theorem writeSet_of_next (h : p.next beneficiary snapshots c = some (some write, p')) :
    p'.writeSet = p.writeSet.insert write.1 := by
  unfold next at h
  split at h
  · cases h
    rfl
  · split at h
    · simp [Option.map_eq_some_iff] at h
    · obtain ⟨_, _, heq⟩ := Option.map_eq_some_iff.mp h
      cases heq
      rfl

theorem writeSet_of_choose (h : p.next beneficiary snapshots c = some (none, p')) :
    p'.writeSet = p.writeSet := by
  unfold next at h
  split at h
  · cases h
  · split at h
    · obtain ⟨_, _, heq⟩ := Option.map_eq_some_iff.mp h
      cases heq
      rfl
    · simp [Option.map_eq_some_iff] at h

end

end Publishing

/-! ## Validation of one read -/

/-- The comparison of `validate` for one location outside the
beneficiary history: whether it conflicts, and the writer it found. -/
def checkRead (mv : MVMemory) (txid : Nat) (location : LocationAndType) (version : ReadVersion) :
    Bool × Option Nat :=
  match MVMemory.latestBefore (mv location) txid with
  | some (previousId, latest) =>
    (latest.estimate || match version with
      | .mvMemory v => v.txid != previousId || v.incarnation != latest.incarnation
      | _ => true, some previousId)
  | none => (version != .storage, none)

/-- `Beneficiary::validate` over entries that do not change. -/
def validateBeneficiary (history : Nat → EntryState) (anchor : Option AccountInfo) (txid : Nat)
    (expected : BeneficiaryReadVersion) : BeneficiaryValidation :=
  match scanBefore history anchor txid with
  | .ok scan => scan.validate expected
  | .error writer => { valid := false, dependency := some writer }

/-- One read still resolves to the version recorded for it. -/
def readHolds (mv : MVMemory) (history : Nat → EntryState) (anchor : Option AccountInfo)
    (txid : Nat) (location : LocationAndType) (version : ReadVersion) : Bool :=
  match version with
  | .beneficiary expected => (validateBeneficiary history anchor txid expected).valid
  | _ => !(checkRead mv txid location version).1

/-- The read-set scan of `validate` as one atomic check. -/
def readSetHolds (mv : MVMemory) (history : Nat → EntryState) (anchor : Option AccountInfo)
    (txid : Nat) (readSet : ReadSet) : Bool :=
  readSet.entries.all fun e => readHolds mv history anchor txid e.1 e.2

end Grevm
