/-
Grevm.ViewAgreement — the multi-version view and the committed view.

A list of change sets is encoded twice. `publish_writes` turns each of
them into `Basic`, `Code`, `Storage` and `StorageReset` entries at its
own transaction index, leaving out what the snapshot of the account says
did not change; ordered commit turns it into account statuses and slot
maps. Both are compared with the database overlaid by the change sets:
`Grevm.CommittedView` has done it for the cache, and this module does it
for the memory, one publication (`View.Follows`) at a time. Of an account
the invariant is that its fields apart from the code are those of the
overlay and that the code found for it is the one of its hash
(`AccountAgrees`); of a slot it is the value itself. Both views then give
the same answers (`memory_view_agrees_with_committed_view`).
-/
import Grevm.CommittedView
import Grevm.ReadCoverage

namespace Grevm

variable {Err : Type}

/-! ## Publications of one change set -/

def LocationAndType.address : LocationAndType → Address
  | .basic address | .storage address _ | .storageReset address | .code address => address

/-- The writes of an account are at its own address. -/
theorem address_of_mem_accountWrites {beneficiary address : Address}
    {snapshot : Option AccountBasic} {account : Account} {l : LocationAndType} {x : MemoryValue}
    (h : (l, x) ∈ (accountWrites beneficiary snapshot address account).1 ++
      (accountWrites beneficiary snapshot address account).2) : l.address = address := by
  unfold accountWrites at h
  cases l <;> cases hf : FinalizedAccount.ofAccount account <;> simp [hf] at h <;>
    grind [LocationAndType.address]

/-- The change set has a write of `x` at `l`. -/
def Writes (beneficiary : Address) (snapshots : AList (fun _ : Address => AccountBasic))
    (state : EvmState) (l : LocationAndType) (x : MemoryValue) : Prop :=
  ∃ account, state.lookup l.address = some account ∧
    (l, x) ∈ (accountWrites beneficiary (snapshots.lookup l.address) l.address account).1 ++
      (accountWrites beneficiary (snapshots.lookup l.address) l.address account).2

/-- What is left to publish. -/
def Publishing.pending (beneficiary : Address)
    (snapshots : AList (fun _ : Address => AccountBasic)) (p : Publishing) : List Write :=
  p.first ++ p.slots ++ p.accounts.flatMap fun e =>
    (accountWrites beneficiary (snapshots.lookup e.1) e.1 e.2).1 ++
      (accountWrites beneficiary (snapshots.lookup e.1) e.1 e.2).2

/-- A run of `publish_writes` from one memory to another; nothing is
published as an estimate. -/
inductive PublishRun (beneficiary : Address) (snapshots : AList (fun _ : Address => AccountBasic))
    (version : TxVersion) : MVMemory → Publishing → MVMemory → Prop where
  | done {mv p} : p.finished = true → PublishRun beneficiary snapshots version mv p mv
  | choose {mv p p' mv'} (c : Nat) : p.next beneficiary snapshots c = some (none, p') →
      PublishRun beneficiary snapshots version mv p' mv' →
      PublishRun beneficiary snapshots version mv p mv'
  | publish {mv p p' mv'} {write : Write} (c : Nat) :
      p.next beneficiary snapshots c = some (some write, p') →
      PublishRun beneficiary snapshots version
        (mv.insert write.1 version.txid ⟨version.incarnation, write.2, false⟩) p' mv' →
      PublishRun beneficiary snapshots version mv p mv'

section

variable {beneficiary : Address} {snapshots : AList (fun _ : Address => AccountBasic)}
  {version : TxVersion} {mv mv' : MVMemory} {p p' : Publishing} {c : Nat} {write w : Write}
  {state : EvmState} {l : LocationAndType} {x : MemoryValue}

theorem Publishing.mem_pending_of_choose (h : p.next beneficiary snapshots c = some (none, p')) :
    w ∈ p.pending beneficiary snapshots ↔ w ∈ p'.pending beneficiary snapshots := by
  unfold next at h
  split at h
  · cases h
  · rename_i hfirst
    split at h
    · rename_i hslots
      obtain ⟨⟨⟨address, account⟩, accounts⟩, hpick, heq⟩ := Option.map_eq_some_iff.mp h
      cases heq
      have hperm := (perm_of_pick? hpick).flatMap_right fun e : Address × Account =>
        (accountWrites beneficiary (snapshots.lookup e.1) e.1 e.2).1 ++
          (accountWrites beneficiary (snapshots.lookup e.1) e.1 e.2).2
      simp only [pending, hfirst, List.isEmpty_iff.mp hslots, List.nil_append]
      rw [← hperm.mem_iff, List.flatMap_cons]
      exact Iff.rfl
    · simp [Option.map_eq_some_iff] at h

theorem Publishing.mem_pending_of_publish
    (h : p.next beneficiary snapshots c = some (some write, p')) :
    w ∈ p.pending beneficiary snapshots ↔
      w = write ∨ w ∈ p'.pending beneficiary snapshots := by
  unfold next at h
  split at h
  · rename_i hfirst
    cases h
    simp [pending, hfirst]
  · rename_i hfirst
    split at h
    · simp [Option.map_eq_some_iff] at h
    · obtain ⟨⟨write', slots⟩, hpick, heq⟩ := Option.map_eq_some_iff.mp h
      cases heq
      simp only [pending, hfirst, List.nil_append, List.mem_append, mem_of_pick? hpick w, or_assoc]

theorem Publishing.mem_pending_start :
    (l, x) ∈ (start state).pending beneficiary snapshots ↔
      Writes beneficiary snapshots state l x := by
  simp only [pending, start, List.nil_append, List.mem_flatMap, List.mem_map]
  constructor
  · rintro ⟨e, ⟨⟨address, account⟩, hentry, rfl⟩, hw⟩
    obtain rfl : l.address = address := address_of_mem_accountWrites hw
    exact ⟨account, AList.mem_lookup_iff.mpr hentry, hw⟩
  · rintro ⟨account, hlook, hw⟩
    exact ⟨_, ⟨⟨l.address, account⟩, AList.mem_lookup_iff.mp hlook, rfl⟩, hw⟩

/-- The entries of the other transactions stay. -/
theorem PublishRun.entry_of_ne (h : PublishRun beneficiary snapshots version mv p mv') {t : Nat}
    (ht : t ≠ version.txid) : mv' l t = mv l t := by
  induction h with
  | done => rfl
  | choose _ _ _ ih => exact ih
  | publish _ _ _ ih => rw [ih, MVMemory.insert_of_ne ht]

/-- A location ends with one of the values left for it, or as it was if
there is none. -/
theorem PublishRun.entry (h : PublishRun beneficiary snapshots version mv p mv') :
    (∃ x, (l, x) ∈ p.pending beneficiary snapshots ∧
      mv' l version.txid = some ⟨version.incarnation, x, false⟩) ∨
    (∀ x, (l, x) ∉ p.pending beneficiary snapshots) ∧
      mv' l version.txid = mv l version.txid := by
  induction h with
  | @done mv p hdone =>
    right
    simp only [Publishing.finished, Bool.and_eq_true, List.isEmpty_iff] at hdone
    simp [Publishing.pending, hdone]
  | choose c hnext _ ih =>
    simpa only [Publishing.mem_pending_of_choose hnext] using ih
  | @publish mv p p' mv' write c hnext _ ih =>
    simp only [Publishing.mem_pending_of_publish hnext]
    rcases ih with ⟨x, hx, hentry⟩ | ⟨hnone, hentry⟩
    · exact .inl ⟨x, .inr hx, hentry⟩
    · by_cases hl : l = write.1
      · subst hl
        exact .inl ⟨write.2, .inl rfl, by rw [hentry, MVMemory.insert_self]⟩
      · refine .inr ⟨fun x hx => ?_, by rw [hentry]; simp [MVMemory.insert, hl]⟩
        rcases hx with heq | hx
        · exact hl (congrArg Prod.fst heq)
        · exact hnone x hx

end

/-! ## Views before and after a publication -/

/-- `V'` is the view `V` of transaction `txid` after the publication of
its change set. -/
structure View.Follows (txid : Nat) (snapshots : AList (fun _ : Address => AccountBasic))
    (state : EvmState) (V V' : View Err) : Prop where
  beneficiary : V'.beneficiary = V.beneficiary
  basic : V'.basic = V.basic
  code : V'.code = V.code
  storage : V'.storage = V.storage
  before : ∀ l t x, V.latest l = some (t, x) → t < txid
  latest : ∀ l, (∃ x, Writes V.beneficiary snapshots state l x ∧ V'.latest l = some (txid, x)) ∨
    (∀ x, ¬ Writes V.beneficiary snapshots state l x) ∧ V'.latest l = V.latest l

theorem PublishRun.follows {base : Base Err} {snapshots : AList (fun _ : Address => AccountBasic)}
    {version : TxVersion} {mv mv' : MVMemory} {state : EvmState}
    (h : PublishRun base.beneficiary snapshots version mv (.start state) mv')
    (hfresh : ∀ l, mv l version.txid = none) (history history' : Nat → EntryState) :
    (base.view mv history version.txid).Follows version.txid snapshots state
      (base.view mv' history' (version.txid + 1)) where
  beneficiary := rfl
  basic := rfl
  code := rfl
  storage := rfl
  before := by
    intro l t x hl
    obtain ⟨⟨t', entry⟩, hfound, heq⟩ := Option.map_eq_some_iff.mp hl
    cases heq
    exact MVMemory.latestBefore_lt hfound
  latest := by
    intro l
    have hentry := h.entry (l := l)
    simp only [Publishing.mem_pending_start] at hentry
    rcases hentry with ⟨x, hx, hentry⟩ | ⟨hnone, hentry⟩
    · refine .inl ⟨x, hx, ?_⟩
      simp only [Base.view, MVMemory.latestBefore_succ_some hentry, Option.map_some]
    · refine .inr ⟨hnone, ?_⟩
      rw [hfresh] at hentry
      simp only [Base.view, MVMemory.latestBefore_succ_none hentry]
      rw [MVMemory.latestBefore_congr fun k hk => h.entry_of_ne (Nat.ne_of_lt hk)]

section

variable {V V' : View Err} {txid : Nat} {snapshots : AList (fun _ : Address => AccountBasic)}
  {state : EvmState} {address : Address} {account : Account} {l : LocationAndType}
  {x : MemoryValue}

/-- A location with a single value is written with it. -/
theorem View.Follows.latest_of_writes (h : V.Follows txid snapshots state V')
    (hw : ∀ y, Writes V.beneficiary snapshots state l y ↔ y = x) :
    V'.latest l = some (txid, x) := by
  rcases h.latest l with ⟨y, hy, hl⟩ | ⟨hnone, -⟩
  · rw [hl, (hw y).mp hy]
  · exact absurd ((hw x).mpr rfl) (hnone x)

theorem View.Follows.latest_of_not_writes (h : V.Follows txid snapshots state V')
    (hw : ∀ y, ¬ Writes V.beneficiary snapshots state l y) : V'.latest l = V.latest l := by
  rcases h.latest l with ⟨y, hy, -⟩ | ⟨-, hl⟩
  · exact absurd hy (hw y)
  · exact hl

/-- An account that is not part of the change set, or did not change,
has no write. -/
theorem not_writes_of_unchanged {beneficiary : Address}
    (h : ∀ account, state.lookup l.address = some account →
      FinalizedAccount.ofAccount account = .unchanged) :
    ¬ Writes beneficiary snapshots state l x := by
  rintro ⟨account, hlook, hw⟩
  simp [accountWrites, h account hlook] at hw

theorem Plain.applyState_of_unchanged {q : Address → Plain Err}
    (h : ∀ account, state.lookup address = some account →
      FinalizedAccount.ofAccount account = .unchanged) :
    applyState q state address = q address := by
  unfold applyState
  split
  · rename_i account hlook
    rw [apply, h account hlook]
  · rfl

/-! ## Storage -/

/-- The change removes the storage of the account. -/
def FinalizedAccount.resets : FinalizedAccount → Bool
  | .deleted | .created _ => true
  | .unchanged | .updated _ => false

/-- The last entries of a slot and of a reset decide the slot. -/
theorem View.storageAt_congr (hstorage : V'.storage = V.storage) {index : U256}
    (hreset : V'.latest (.storageReset address) = V.latest (.storageReset address))
    (hslot : V'.latest (.storage address index) = V.latest (.storage address index)) :
    V'.storageAt address index = V.storageAt address index := by
  simp only [storageAt, hreset, hslot, hstorage]

/-- A slot that is as new as every reset is read. -/
theorem View.storageAt_of_slot {index value : U256}
    (hslot : V.latest (.storage address index) = some (txid, .storage value))
    (hreset : ∀ t x, V.latest (.storageReset address) = some (t, x) → t ≤ txid) :
    V.storageAt address index = .ok value := by
  simp only [storageAt, hslot]
  rcases hr : V.latest (.storageReset address) with _ | ⟨t, data⟩
  · rfl
  · cases data with
    | storageReset => exact if_pos (hreset t _ hr)
    | _ => rfl

/-- A reset that is newer than the slot leaves zero. -/
theorem View.storageAt_of_reset {index : U256}
    (hreset : V.latest (.storageReset address) = some (txid, .storageReset))
    (hslot : ∀ t x, V.latest (.storage address index) = some (t, x) → t < txid) :
    V.storageAt address index = .ok 0 := by
  simp only [storageAt, hreset]
  rcases hs : V.latest (.storage address index) with _ | ⟨t, data⟩
  · rfl
  · cases data with
    | storage value => exact if_neg (Nat.not_le_of_lt (hslot t _ hs))
    | _ => rfl

/-- The changed slots of an account that is left in place are written. -/
theorem writes_storage_iff {beneficiary : Address} {index : U256}
    (hlook : state.lookup address = some account) :
    Writes beneficiary snapshots state (.storage address index) x ↔
      (FinalizedAccount.ofAccount account).info?.isSome = true ∧
        ∃ value, account.changedSlot index = some value ∧ .storage value = x := by
  simp only [Writes, LocationAndType.address, hlook, Option.some.injEq, exists_eq_left',
    ← Account.mem_changedStorageSlots]
  cases hf : FinalizedAccount.ofAccount account <;>
    simp [accountWrites, hf, FinalizedAccount.info?]

/-- A deletion and a creation reset the storage. -/
theorem writes_storageReset_iff {beneficiary : Address}
    (hlook : state.lookup address = some account) :
    Writes beneficiary snapshots state (.storageReset address) x ↔
      (FinalizedAccount.ofAccount account).resets = true ∧ x = .storageReset := by
  simp only [Writes, LocationAndType.address, hlook, Option.some.injEq, exists_eq_left']
  cases hf : FinalizedAccount.ofAccount account <;>
    simp [accountWrites, hf, FinalizedAccount.resets]

/-- The publication of a change set is its effect on the slots. -/
theorem View.Follows.storageAt (h : V.Follows txid snapshots state V') {q : Address → Plain Err}
    {index : U256} (hbefore : V.storageAt address index = (q address).storage index) :
    V'.storageAt address index = (Plain.applyState q state address).storage index := by
  cases hlook : state.lookup address with
  | none =>
    rw [Plain.applyState, hlook, ← hbefore]
    refine storageAt_congr h.storage ?_ ?_ <;> refine h.latest_of_not_writes fun y => ?_ <;>
      simp [Writes, LocationAndType.address, hlook]
  | some account =>
    rw [Plain.applyState_of_lookup hlook, Plain.apply]
    -- the entries of the account after the publication
    have hkept : (∀ value, ¬ ((FinalizedAccount.ofAccount account).info?.isSome = true ∧
          account.changedSlot index = some value)) →
        V'.latest (.storage address index) = V.latest (.storage address index) := by
      intro hnone
      refine h.latest_of_not_writes fun y hy => ?_
      obtain ⟨hinfo, value, hvalue, -⟩ := (writes_storage_iff hlook).mp hy
      exact hnone value ⟨hinfo, hvalue⟩
    have hwritten : ∀ value, (FinalizedAccount.ofAccount account).info?.isSome = true →
        account.changedSlot index = some value →
        V'.storageAt address index = .ok value := by
      intro value hinfo hvalue
      refine storageAt_of_slot (h.latest_of_writes fun y => ?_) fun t y ht => ?_
      · rw [writes_storage_iff hlook]
        simp [hinfo, hvalue, eq_comm]
      · rcases h.latest (.storageReset address) with ⟨_, _, hl⟩ | ⟨_, hl⟩
        · rw [ht] at hl
          cases hl
          exact le_rfl
        · exact Nat.le_of_lt (h.before _ t y (hl ▸ ht))
    have hreset : (FinalizedAccount.ofAccount account).resets = true →
        V'.latest (.storage address index) = V.latest (.storage address index) →
        V'.storageAt address index = .ok 0 := by
      intro hresets hslot
      refine storageAt_of_reset (h.latest_of_writes fun y => ?_) fun t y ht => ?_
      · rw [writes_storageReset_iff hlook]
        simp [hresets]
      · exact h.before _ t y (hslot ▸ ht)
    have hsame : (FinalizedAccount.ofAccount account).resets = false →
        V'.latest (.storage address index) = V.latest (.storage address index) →
        V'.storageAt address index = (q address).storage index := by
      intro hresets hslot
      rw [← hbefore]
      refine storageAt_congr h.storage (h.latest_of_not_writes fun y hy => ?_) hslot
      rw [writes_storageReset_iff hlook, hresets] at hy
      exact Bool.false_ne_true hy.1
    cases hf : FinalizedAccount.ofAccount account with
    | unchanged => exact hsame (by rw [hf]; rfl) (hkept (by simp [hf, FinalizedAccount.info?]))
    | deleted => exact hreset (by rw [hf]; rfl) (hkept (by simp [hf, FinalizedAccount.info?]))
    | created info =>
      cases hv : account.changedSlot index with
      | none =>
        rw [hreset (by rw [hf]; rfl) (hkept (by simp [hv]))]
        simp [hv]
      | some value =>
        rw [hwritten value (by rw [hf]; rfl) hv]
        simp [hv]
    | updated info =>
      cases hv : account.changedSlot index with
      | none =>
        rw [hsame (by rw [hf]; rfl) (hkept (by simp [hv]))]
        simp [hv]
      | some value =>
        rw [hwritten value (by rw [hf]; rfl) hv]
        simp [hv]

/-! ## Accounts -/

/-- The fields apart from the code. -/
def AccountInfo.bare (info : AccountInfo) : AccountInfo := { info with code := none }

/-- The account with the code of its hash. -/
def AccountInfo.resolved (codeOf : B256 → Bytecode) (info : AccountInfo) : AccountInfo :=
  if info.isEmptyCodeHash then info else { info with code := some (codeOf info.codeHash) }

theorem AccountInfo.view_resolved (codeOf : B256 → Bytecode) (info : AccountInfo) :
    (info.resolved codeOf).view = info.observed codeOf := by
  cases h : info.isEmptyCodeHash <;> simp_all [resolved, view, observed, isEmptyCodeHash]

theorem AccountInfo.observed_bare (codeOf : B256 → Bytecode) (info : AccountInfo) :
    info.bare.observed codeOf = info.observed codeOf := rfl

/-- The view has the account of `p` at `address`, and the code it finds
for it is the one of the account's hash. -/
structure AccountAgrees (codeOf : B256 → Bytecode) (V : View Err) (p : Plain Err)
    (address : Address) : Prop where
  bare : (V.account address).map (Option.map AccountInfo.bare) =
    p.basic.map (Option.map AccountInfo.bare)
  code : ∀ info, V.account address = .ok (some info) → info.isEmptyCodeHash = false →
    V.codeByAddress address info.codeHash = .ok (codeOf info.codeHash) ∧
      ∀ code, info.code = some code → code = codeOf info.codeHash

variable {codeOf : B256 → Bytecode} {p : Plain Err}

/-- `IncarnationDb::basic` returns the account with its code. -/
theorem AccountAgrees.basicInfo (h : AccountAgrees codeOf V p address) :
    V.basicInfo address = (V.account address).map (Option.map (AccountInfo.resolved codeOf)) := by
  rw [View.basicInfo_eq]
  cases ha : V.account address with
  | error e => rfl
  | ok info? =>
    cases info? with
    | none => rfl
    | some info =>
      simp only [Except.bind, Except.map, Option.map, View.withCode, AccountInfo.resolved]
      cases he : info.isEmptyCodeHash with
      | true => rfl
      | false =>
        obtain ⟨hfound, hcarried⟩ := h.code info ha he
        cases hc : info.code with
        | none =>
          rw [if_pos (by rfl), hfound]
          rfl
        | some code =>
          rw [if_neg (by simp), ← hcarried code hc, ← hc]
          rfl

theorem AccountAgrees.eval (h : AccountAgrees codeOf V p address) :
    V.eval (.basic address) =
      (p.basic.map (Option.map (AccountInfo.observed codeOf))).map .account := by
  have hbare := congrArg (Except.map (Option.map (AccountInfo.observed codeOf))) h.bare
  rw [View.eval, h.basicInfo]
  cases hv : V.account address <;> cases hp : p.basic <;>
    simp only [hv, hp, Except.map, Except.ok.injEq, Except.error.injEq, reduceCtorEq,
      Option.map_map] at hbare ⊢
  · exact hbare
  · rename_i info? info?'
    have hview : AccountInfo.view ∘ AccountInfo.resolved codeOf = AccountInfo.observed codeOf :=
      funext (AccountInfo.view_resolved codeOf)
    have hobserved : AccountInfo.observed codeOf ∘ AccountInfo.bare = AccountInfo.observed codeOf :=
      funext (AccountInfo.observed_bare codeOf)
    rw [hobserved] at hbare
    rw [hview, hbare]

/-- What revm guarantees of a finalized account that was loaded as
`loaded`: a changed or created code is carried and another one is as it
was loaded, and the code becomes empty only together with a change of the
nonce or the balance. -/
structure Account.ProducedFrom (codeOf : B256 → Bytecode) (loaded : Option AccountInfo)
    (account : Account) : Prop where
  code : ∀ info, (FinalizedAccount.ofAccount account).info? = some info →
    info.isEmptyCodeHash = false → info.code = some (codeOf info.codeHash) ∨
      ∃ before, loaded = some before ∧ before.codeHash = info.codeHash ∧ info.code = before.code
  emptied : ∀ info before, (FinalizedAccount.ofAccount account).info? = some info →
    info.isEmptyCodeHash = true → loaded = some before → before.isEmptyCodeHash = false →
      info.nonce ≠ before.nonce ∨ info.balance ≠ before.balance

/-- The change set was produced against the view: a touched account was
loaded through `basic`, which left its snapshot. -/
structure Produced (codeOf : B256 → Bytecode) (V : View Err)
    (snapshots : AList (fun _ : Address => AccountBasic)) (state : EvmState) : Prop where
  created : state.CreatesCode codeOf
  loaded : ∀ address account, state.lookup address = some account → account.touched = true →
    address ≠ V.beneficiary → ∃ info, V.basicInfo address = .ok info ∧
      snapshots.lookup address = info.map AccountBasic.ofInfo ∧ account.ProducedFrom codeOf info

theorem AccountInfo.codeHash_resolved (codeOf : B256 → Bytecode) (info : AccountInfo) :
    (info.resolved codeOf).codeHash = info.codeHash := by
  unfold resolved
  split <;> rfl

theorem AccountInfo.nonce_resolved (codeOf : B256 → Bytecode) (info : AccountInfo) :
    (info.resolved codeOf).nonce = info.nonce := by
  unfold resolved
  split <;> rfl

theorem AccountInfo.balance_resolved (codeOf : B256 → Bytecode) (info : AccountInfo) :
    (info.resolved codeOf).balance = info.balance := by
  unfold resolved
  split <;> rfl

theorem AccountInfo.isEmptyCodeHash_congr {info info' : AccountInfo}
    (h : info.codeHash = info'.codeHash) : info.isEmptyCodeHash = info'.isEmptyCodeHash := by
  rw [isEmptyCodeHash, h, isEmptyCodeHash]

theorem AccountBasic.ofInfo_resolved (codeOf : B256 → Bytecode) (info : AccountInfo) :
    AccountBasic.ofInfo (info.resolved codeOf) = AccountBasic.ofInfo info := by
  unfold AccountInfo.resolved
  split <;> rfl

/-- What `basic` has returned is the account of the view with its code. -/
theorem AccountAgrees.account_of_loaded (h : AccountAgrees codeOf V p address)
    {loaded : Option AccountInfo} (hloaded : V.basicInfo address = .ok loaded) :
    ∃ found, V.account address = .ok found ∧
      loaded = found.map (AccountInfo.resolved codeOf) := by
  rw [h.basicInfo] at hloaded
  cases ha : V.account address with
  | error e =>
    rw [ha] at hloaded
    cases hloaded
  | ok found =>
    rw [ha] at hloaded
    exact ⟨found, rfl, (Except.ok.inj hloaded).symm⟩

/-- A touched account carries the code of its hash. -/
theorem AccountAgrees.carriesCode (h : AccountAgrees codeOf V p address)
    {loaded : Option AccountInfo} (hloaded : V.basicInfo address = .ok loaded)
    (hproduced : account.ProducedFrom codeOf loaded) : account.CarriesCode codeOf := by
  intro info hinfo hcode
  rcases hproduced.code info hinfo hcode with hcarried | ⟨before, hbefore, hhash, hkept⟩
  · exact hcarried
  · obtain ⟨found, -, rfl⟩ := h.account_of_loaded hloaded
    obtain ⟨found, rfl, rfl⟩ := Option.map_eq_some_iff.mp hbefore
    rw [AccountInfo.codeHash_resolved] at hhash
    rw [hkept, AccountInfo.resolved,
      if_neg (by simp [AccountInfo.isEmptyCodeHash_congr hhash, hcode]), hhash]

/-- `code_changed` of `publish_writes`. -/
def codeChanged (snapshot : Option AccountBasic) (info : AccountInfo) : Bool :=
  !info.isEmptyCodeHash && info.code.isSome &&
    snapshot.all fun basic => basic.codeHash != some info.codeHash

/-- `basic_changed` of `publish_writes`. -/
def basicChanged (snapshot : Option AccountBasic) (info : AccountInfo) : Bool :=
  codeChanged snapshot info ||
    snapshot.all fun basic => basic.nonce != info.nonce || basic.balance != info.balance

theorem writes_basic_iff {beneficiary : Address} {info : AccountInfo}
    (hlook : state.lookup address = some account) (hne : address ≠ beneficiary)
    (hinfo : (FinalizedAccount.ofAccount account).info? = some info) :
    Writes beneficiary snapshots state (.basic address) x ↔
      basicChanged (snapshots.lookup address) info = true ∧ x = .basic (some info.bare) := by
  simp only [Writes, LocationAndType.address, hlook, Option.some.injEq, exists_eq_left']
  cases hf : FinalizedAccount.ofAccount account <;> rw [hf] at hinfo <;> cases hinfo <;>
    simp [accountWrites, hf, basicChanged, codeChanged, AccountInfo.bare, hne]

theorem writes_code_iff {beneficiary : Address} {info : AccountInfo}
    (hlook : state.lookup address = some account)
    (hinfo : (FinalizedAccount.ofAccount account).info? = some info) :
    Writes beneficiary snapshots state (.code address) x ↔
      codeChanged (snapshots.lookup address) info = true ∧ x = .code (info.code.getD []) := by
  simp only [Writes, LocationAndType.address, hlook, Option.some.injEq, exists_eq_left']
  cases hf : FinalizedAccount.ofAccount account <;> rw [hf] at hinfo <;> cases hinfo <;>
    simp [accountWrites, hf, codeChanged]

/-- A change set has at most one value for a location. -/
theorem Writes.functional {beneficiary : Address} {y : MemoryValue}
    (hx : Writes beneficiary snapshots state l x) (hy : Writes beneficiary snapshots state l y) :
    x = y := by
  have ⟨account, hlook, hmemx⟩ := hx
  have ⟨account', hlook', hmemy⟩ := hy
  rw [hlook] at hlook'
  cases hlook'
  cases l with
  | basic address | code address =>
    cases hf : FinalizedAccount.ofAccount account <;> simp [accountWrites, hf] at hmemx hmemy <;>
      grind
  | storage address index =>
    obtain ⟨-, value, hvalue, rfl⟩ := (writes_storage_iff hlook).mp hx
    obtain ⟨-, value', hvalue', rfl⟩ := (writes_storage_iff hlook).mp hy
    rw [hvalue] at hvalue'
    rw [Option.some.inj hvalue']
  | storageReset address =>
    rw [((writes_storageReset_iff hlook).mp hx).2, ((writes_storageReset_iff hlook).mp hy).2]

/-- What the publication of a touched account relies on: a snapshot is
the one of the account of the view, code is carried, and it becomes empty
only together with a change of the nonce or the balance. -/
structure Account.Publishable (codeOf : B256 → Bytecode) (V : View Err)
    (snapshots : AList (fun _ : Address => AccountBasic)) (address : Address)
    (account : Account) : Prop where
  snapshot : ∀ basic, snapshots.lookup address = some basic →
    ∃ before, V.account address = .ok (some before) ∧ AccountBasic.ofInfo before = basic
  carries : account.CarriesCode codeOf
  emptied : ∀ info before, (FinalizedAccount.ofAccount account).info? = some info →
    V.account address = .ok (some before) →
    snapshots.lookup address = some (AccountBasic.ofInfo before) →
    info.isEmptyCodeHash = true → before.isEmptyCodeHash = false →
      info.nonce ≠ before.nonce ∨ info.balance ≠ before.balance

/-- A code that is carried and not published has the hash of the
snapshot. -/
theorem snapshot_of_not_codeChanged {snapshot : Option AccountBasic} {info : AccountInfo}
    (h : codeChanged snapshot info = false) (hcode : info.isEmptyCodeHash = false)
    (hcarried : info.code.isSome = true) :
    ∃ basic, snapshot = some basic ∧ basic.codeHash = some info.codeHash := by
  cases snapshot with
  | none => simp [codeChanged, hcode, hcarried] at h
  | some basic =>
    refine ⟨basic, rfl, ?_⟩
    simpa only [codeChanged, hcode, hcarried, Bool.not_false, Bool.and_self, Bool.true_and,
      Option.all_some, bne_eq_false_iff_eq] using h

theorem codeHash_of_ofInfo {info : AccountInfo} {codeHash : B256}
    (h : (AccountBasic.ofInfo info).codeHash = some codeHash) : info.codeHash = codeHash := by
  simp only [AccountBasic.ofInfo] at h
  split at h
  · cases h
  · exact Option.some.inj h

/-- An account that is not published is the one of the snapshot. -/
theorem bare_of_not_basicChanged {before info : AccountInfo}
    (h : basicChanged (some (AccountBasic.ofInfo before)) info = false)
    (hcarries : info.isEmptyCodeHash = false → info.code.isSome = true)
    (hemptied : info.isEmptyCodeHash = true → before.isEmptyCodeHash = false →
      info.nonce ≠ before.nonce ∨ info.balance ≠ before.balance) :
    before.bare = info.bare := by
  obtain ⟨hcode, hfields⟩ := Bool.or_eq_false_iff.mp h
  simp only [Option.all_some, AccountBasic.ofInfo, Bool.or_eq_false_iff,
    bne_eq_false_iff_eq] at hfields
  obtain ⟨hnonce, hbalance⟩ := hfields
  have hhash : before.codeHash = info.codeHash := by
    cases he : info.isEmptyCodeHash with
    | false =>
      obtain ⟨_, heq, hhash⟩ := snapshot_of_not_codeChanged hcode he (hcarries he)
      cases heq
      exact codeHash_of_ofInfo hhash
    | true =>
      cases hb : before.isEmptyCodeHash with
      | true => exact (beq_iff_eq.mp hb).trans (beq_iff_eq.mp he).symm
      | false =>
        rcases hemptied he hb with hn | hn
        · exact absurd hnonce.symm hn
        · exact absurd hbalance.symm hn
  simp only [AccountInfo.bare, hhash, hnonce, hbalance]

/-! ### One publication -/

theorem View.Follows.account_congr (h : V.Follows txid snapshots state V')
    (hne : address ≠ V.beneficiary) (hbasic : V'.latest (.basic address) = V.latest (.basic address)) :
    V'.account address = V.account address := by
  have hne' : address ≠ V'.beneficiary := h.beneficiary ▸ hne
  simp only [View.account, if_neg hne, if_neg hne', hbasic, h.basic]

theorem View.Follows.codeByAddress_congr (h : V.Follows txid snapshots state V')
    (hcode : V'.latest (.code address) = V.latest (.code address)) (codeHash : B256) :
    V'.codeByAddress address codeHash = V.codeByAddress address codeHash := by
  simp only [View.codeByAddress, hcode, h.code]

theorem View.account_of_latest (hne : address ≠ V.beneficiary) {info : Option AccountInfo}
    (hbasic : V.latest (.basic address) = some (txid, .basic info)) :
    V.account address = .ok info := by
  simp only [account, if_neg hne, hbasic]

/-- The code found for an account that stays in place, whether it is
published or not. -/
theorem View.Follows.codeByAddress_of_info (h : V.Follows txid snapshots state V')
    (hagree : AccountAgrees codeOf V p address) (hlook : state.lookup address = some account)
    {info : AccountInfo} (hinfo : (FinalizedAccount.ofAccount account).info? = some info)
    (hpub : account.Publishable codeOf V snapshots address)
    (he : info.isEmptyCodeHash = false) :
    V'.codeByAddress address info.codeHash = .ok (codeOf info.codeHash) := by
  have hcarried := hpub.carries info hinfo he
  cases hc : codeChanged (snapshots.lookup address) info with
  | true =>
    have hlatest : V'.latest (.code address) = some (txid, .code (info.code.getD [])) :=
      h.latest_of_writes fun y => by rw [writes_code_iff hlook hinfo, hc]; simp
    simp only [View.codeByAddress, hlatest, hcarried, Option.getD_some]
  | false =>
    have hlatest : V'.latest (.code address) = V.latest (.code address) :=
      h.latest_of_not_writes fun y => by rw [writes_code_iff hlook hinfo, hc]; simp
    obtain ⟨basic, hbasic, hhash⟩ :=
      snapshot_of_not_codeChanged hc he (by rw [hcarried]; rfl)
    obtain ⟨before, hbefore, rfl⟩ := hpub.snapshot basic hbasic
    have heq := codeHash_of_ofInfo hhash
    rw [h.codeByAddress_congr hlatest, ← heq]
    exact (hagree.code before hbefore ((AccountInfo.isEmptyCodeHash_congr heq).trans he)).1

/-- An account of the change set that stays in place. -/
theorem View.Follows.accountAgrees_of_info (h : V.Follows txid snapshots state V')
    (hagree : AccountAgrees codeOf V p address) (hne : address ≠ V.beneficiary)
    (hlook : state.lookup address = some account) {info : AccountInfo}
    (hinfo : (FinalizedAccount.ofAccount account).info? = some info) {p' : Plain Err}
    (hp' : p'.basic = .ok (some info)) (hpub : account.Publishable codeOf V snapshots address) :
    AccountAgrees codeOf V' p' address := by
  have hcode := h.codeByAddress_of_info hagree hlook hinfo hpub
  cases hb : basicChanged (snapshots.lookup address) info with
  | true =>
    have haccount : V'.account address = .ok (some info.bare) :=
      View.account_of_latest (h.beneficiary ▸ hne)
        (h.latest_of_writes fun y => by rw [writes_basic_iff hlook hne hinfo, hb]; simp)
    refine ⟨by rw [haccount, hp']; rfl, fun info' hinfo' he => ?_⟩
    rw [haccount] at hinfo'
    cases hinfo'
    exact ⟨hcode he, nofun⟩
  | false =>
    have haccount : V'.account address = V.account address :=
      h.account_congr hne
        (h.latest_of_not_writes fun y => by rw [writes_basic_iff hlook hne hinfo, hb]; simp)
    cases hs : snapshots.lookup address with
    | none => simp [basicChanged, hs] at hb
    | some basic =>
      obtain ⟨before, hbefore, rfl⟩ := hpub.snapshot basic hs
      rw [hs] at hb
      have hbare : before.bare = info.bare :=
        bare_of_not_basicChanged hb (fun he => by rw [hpub.carries info hinfo he]; rfl)
          (hpub.emptied info before hinfo hbefore hs)
      have hhash : before.bare.codeHash = info.bare.codeHash := by rw [hbare]
      change before.codeHash = info.codeHash at hhash
      refine ⟨?_, fun info' hinfo' he => ?_⟩
      · rw [haccount, hbefore, hp']
        exact congrArg (fun i => Except.ok (some i)) hbare
      · rw [haccount, hbefore] at hinfo'
        cases hinfo'
        rw [hhash]
        refine ⟨hcode ((AccountInfo.isEmptyCodeHash_congr hhash).symm.trans he), fun code hc => ?_⟩
        rw [← hhash]
        exact (hagree.code before hbefore he).2 code hc

/-- The publication of a change set is its effect on an account. -/
theorem View.Follows.accountAgrees (h : V.Follows txid snapshots state V')
    (hne : address ≠ V.beneficiary) {q : Address → Plain Err}
    (hagree : AccountAgrees codeOf V (q address) address)
    (hpub : ∀ account, state.lookup address = some account → account.touched = true →
      account.Publishable codeOf V snapshots address) :
    AccountAgrees codeOf V' (Plain.applyState q state address) address := by
  by_cases hunchanged : ∀ account, state.lookup address = some account →
      FinalizedAccount.ofAccount account = .unchanged
  · have hlatest : ∀ l, l.address = address → V'.latest l = V.latest l := by
      rintro l rfl
      exact h.latest_of_not_writes fun _ => not_writes_of_unchanged hunchanged
    have haccount := h.account_congr hne (hlatest (.basic address) rfl)
    rw [Plain.applyState_of_unchanged hunchanged]
    refine ⟨by rw [haccount]; exact hagree.bare, fun info hinfo he => ?_⟩
    rw [haccount] at hinfo
    rw [h.codeByAddress_congr (hlatest (.code address) rfl)]
    exact hagree.code info hinfo he
  · push Not at hunchanged
    obtain ⟨account, hlook, hchanged⟩ := hunchanged
    have htouched : account.touched = true := by
      by_contra ht
      exact hchanged (by simp [FinalizedAccount.ofAccount, ht])
    rw [Plain.applyState_of_lookup hlook]
    cases hf : FinalizedAccount.ofAccount account with
    | unchanged => exact absurd hf hchanged
    | deleted =>
      have haccount : V'.account address = .ok none := by
        refine View.account_of_latest (h.beneficiary ▸ hne) (h.latest_of_writes fun y => ?_)
        simp [Writes, LocationAndType.address, hlook, accountWrites, hf, hne]
      refine ⟨by rw [haccount, Plain.apply, hf], fun info hinfo => ?_⟩
      rw [haccount] at hinfo
      cases hinfo
    | created info | updated info =>
      exact h.accountAgrees_of_info hagree hne hlook (by rw [hf]; rfl)
        (by rw [Plain.apply, hf]) (hpub account hlook htouched)

/-- A touched account of a change set that was produced against the
view. -/
theorem Produced.publishable (h : Produced codeOf V snapshots state)
    (hagree : AccountAgrees codeOf V p address) (hne : address ≠ V.beneficiary)
    (hlook : state.lookup address = some account) (htouched : account.touched = true) :
    account.Publishable codeOf V snapshots address := by
  obtain ⟨loaded, hloaded, hsnapshot, hfrom⟩ := h.loaded address account hlook htouched hne
  have hcarries := hagree.carriesCode hloaded hfrom
  obtain ⟨found, hfound, rfl⟩ := hagree.account_of_loaded hloaded
  refine ⟨fun basic hbasic => ?_, hcarries, fun info before hinfo hbefore _ he hb => ?_⟩
  · rw [hsnapshot] at hbasic
    obtain ⟨resolved, hresolved, rfl⟩ := Option.map_eq_some_iff.mp hbasic
    obtain ⟨before, rfl, rfl⟩ := Option.map_eq_some_iff.mp hresolved
    exact ⟨before, hfound, (AccountBasic.ofInfo_resolved codeOf before).symm⟩
  · rw [hfound] at hbefore
    cases hbefore
    rw [← AccountInfo.nonce_resolved codeOf before, ← AccountInfo.balance_resolved codeOf before]
    refine hfrom.emptied info _ hinfo he rfl ?_
    rwa [AccountInfo.isEmptyCodeHash_congr (AccountInfo.codeHash_resolved codeOf before)]

end

/-! ## Lists of publications -/

/-- What a `ParallelState` answers where no earlier transaction has
written. -/
def Base.ofState (beneficiary : Address) (anchor : Option AccountInfo) (db : Database Err)
    (cache : ParallelCacheState) : Base Err where
  beneficiary
  anchor
  basic address := (cache.dbBasic db address).2
  code codeHash := (cache.dbCodeByHash db codeHash).2
  storage address index := (cache.dbStorage db address index).2

/-- Each change set was produced against the view before it and then
published at its own index. -/
inductive Published (codeOf : B256 → Bytecode) (base : Base Err) :
    List EvmState → MVMemory → Prop where
  | nil : Published codeOf base [] fun _ _ => none
  | publish {states mv snapshots state mv'} (history : Nat → EntryState) (incarnation : Nat) :
      Published codeOf base states mv →
      Produced codeOf (base.view mv history states.length) snapshots state →
      PublishRun base.beneficiary snapshots ⟨states.length, incarnation⟩ mv (.start state) mv' →
      Published codeOf base (states ++ [state]) mv'

section

variable {codeOf : B256 → Bytecode} {base : Base Err} {states : List EvmState} {mv : MVMemory}
  {db : Database Err} {address : Address}

theorem Published.fresh (h : Published codeOf base states mv) {l : LocationAndType} {t : Nat}
    (ht : states.length ≤ t) : mv l t = none := by
  induction h with
  | nil => rfl
  | publish _ _ _ _ hrun ih =>
    rw [List.length_append, List.length_singleton] at ht
    rw [hrun.entry_of_ne (Nat.ne_of_gt ht), ih (Nat.le_of_lt ht)]

theorem Published.creates (h : Published codeOf base states mv) :
    ∀ state, state ∈ states → EvmState.CreatesCode codeOf state := by
  induction h with
  | nil => exact nofun
  | publish _ _ _ hproduced _ ih =>
    intro state hs
    rcases List.mem_append.mp hs with hs | hs
    · exact ih state hs
    · rw [List.mem_singleton.mp hs]
      exact hproduced.created

theorem Published.storageAt {q : Address → Plain Err} (h : Published codeOf base states mv)
    {index : U256} (hbase : base.storage address index = (q address).storage index)
    (history : Nat → EntryState) :
    (base.view mv history states.length).storageAt address index =
      (Plain.overlay q states address).storage index := by
  induction h generalizing history with
  | nil => exact hbase
  | publish history' _ hpub _ hrun ih =>
    rw [Plain.overlay_append, List.length_append, List.length_singleton]
    exact (hrun.follows (fun _ => hpub.fresh le_rfl) history' history).storageAt (ih history')

theorem Published.accountAgrees {q : Address → Plain Err} (h : Published codeOf base states mv)
    (hne : address ≠ base.beneficiary)
    (hbase : ∀ history, AccountAgrees codeOf (base.view (fun _ _ => none) history 0) (q address)
      address) (history : Nat → EntryState) :
    AccountAgrees codeOf (base.view mv history states.length) (Plain.overlay q states address)
      address := by
  induction h generalizing history with
  | nil => exact hbase history
  | publish history' _ hpub hproduced hrun ih =>
    rw [Plain.overlay_append, List.length_append, List.length_singleton]
    exact (hrun.follows (fun _ => hpub.fresh le_rfl) history' history).accountAgrees hne
      (ih history') fun account => hproduced.publishable (ih history') hne

theorem Published.carries {q : Address → Plain Err} (h : Published codeOf base states mv)
    (hne : address ≠ base.beneficiary)
    (hbase : ∀ history, AccountAgrees codeOf (base.view (fun _ _ => none) history 0) (q address)
      address) :
    ∀ state : EvmState, state ∈ states → ∀ account, state.lookup address = some account →
      account.CarriesCode codeOf := by
  induction h with
  | nil => exact nofun
  | publish history _ hpub hproduced _ ih =>
    intro state hs account hlook
    rcases List.mem_append.mp hs with hs | hs
    · exact ih state hs account hlook
    · obtain rfl := List.mem_singleton.mp hs
      cases ht : account.touched with
      | false =>
        intro info hinfo
        simp [FinalizedAccount.ofAccount, ht, FinalizedAccount.info?] at hinfo
      | true =>
        obtain ⟨loaded, hloaded, -, hfrom⟩ := hproduced.loaded address account hlook ht hne
        exact (hpub.accountAgrees hne hbase history).carriesCode hloaded hfrom

/-- An uncommitted `ParallelState` has the accounts of the database. -/
theorem accountAgrees_base (hdb : db.StorageNeedsCode) (hbook : db.CodeBook codeOf)
    {start : ParallelCacheState} (hstart : Commits db start []) {beneficiary : Address}
    (anchor : Option AccountInfo) (hne : address ≠ beneficiary) (history : Nat → EntryState) :
    AccountAgrees codeOf
      ((Base.ofState beneficiary anchor db start).view (fun _ _ => none) history 0)
      (Plain.ofDatabase db address) address := by
  have hbasic : (start.dbBasic db address).2 = (Plain.ofDatabase db address).basic :=
    (hstart.coherent hdb address).dbBasic
  have haccount : ((Base.ofState beneficiary anchor db start).view (fun _ _ => none) history
      0).account address = (Plain.ofDatabase db address).basic := by
    rw [← hbasic, View.account]
    exact if_neg hne
  refine ⟨by rw [haccount], fun info hinfo he => ?_⟩
  rw [haccount] at hinfo
  have hloaded := Plain.ofDatabase_info hinfo he
  refine ⟨?_, fun code hc => hbook.carried address info code hloaded he hc⟩
  exact (hstart.contractsOk (fun _ h => by cases h)).dbCodeByHash
    (by simpa [AccountInfo.isEmptyCodeHash] using he) (hbook.code address info hloaded he)

/-- **The two views agree.** Change sets that were each produced against
the view before and published at its own index give the next transaction
the accounts, other than the beneficiary, and the slots that a
`ParallelState` over the same database has after committing them. -/
theorem memory_view_agrees_with_committed_view (hdb : db.StorageNeedsCode)
    (hbook : db.CodeBook codeOf) {start cache : ParallelCacheState} (hstart : Commits db start [])
    {beneficiary : Address} {anchor : Option AccountInfo}
    (hpublished : Published codeOf (Base.ofState beneficiary anchor db start) states mv)
    (hcommits : Commits db cache states) (history : Nat → EntryState) (scratch : IncarnationDb) :
    (∀ a, a ≠ beneficiary →
      callNow (Base.ofState beneficiary anchor db start) mv history states.length
          (states.length + 4) scratch (Call.start beneficiary states.length (.basic a)) =
        some ((cache.resolvedBasic db a).map .account)) ∧
    ∀ a index,
      callNow (Base.ofState beneficiary anchor db start) mv history states.length
          (states.length + 4) scratch (Call.start beneficiary states.length (.storage a index)) =
        some ((cache.dbStorage db a index).2.map .word) := by
  constructor
  · intro a hne
    have hbase := accountAgrees_base hdb hbook hstart anchor hne
    have hagrees := hpublished.accountAgrees hne hbase history
    have hcarries := hpublished.carries hne hbase
    refine (callNow_eq_eval (.basic a)).trans ?_
    rw [hagrees.eval, hcommits.resolvedBasic hdb hbook hpublished.creates hcarries]
  · intro a index
    have hbase : (start.dbStorage db a index).2 = (Plain.ofDatabase db a).storage index :=
      (hstart.coherent hdb a).dbStorage
    refine (callNow_eq_eval (.storage a index)).trans ?_
    rw [(hcommits.coherent hdb a).dbStorage, View.eval, hpublished.storageAt hbase history]

end

/-! ## A contract that is paid -/

theorem Database.oneContract_codeBook : Database.oneContract.CodeBook fun _ => [0] where
  code _ _ _ _ := rfl
  carried := by
    intro address info code hinfo _ hcode
    simp only [oneContract, Except.ok.injEq] at hinfo
    split at hinfo <;> cases hinfo
    cases hcode

/-- The contract of `Database.oneContract`, paid once and with one slot
changed. -/
def paidContract : Account :=
  { Account.ofInfo { balance := 2, nonce := 1, codeHash := 1, code := some [0] } with
    storage := (∅ : AList fun _ : U256 => EvmStorageSlot).insert 0 ⟨7, 9⟩
    touched := true }

def payContract : EvmState := (∅ : EvmState).insert 1 paidContract

/-- The snapshot that `basic` leaves of the contract. -/
def contractSnapshot : AList (fun _ : Address => AccountBasic) :=
  (∅ : AList fun _ : Address => AccountBasic).insert 1 ⟨1, 1, some 1⟩

theorem eq_of_lookup_payContract {address : Address} {account : Account}
    (h : payContract.lookup address = some account) : address = 1 ∧ account = paidContract := by
  by_cases ha : address = 1
  · subst ha
    cases h
    exact ⟨rfl, rfl⟩
  · rw [payContract, AList.lookup_insert_ne ha] at h
    cases h

theorem produced_payContract :
    Produced (fun _ => [0])
      ((Base.ofState 2 none .oneContract {}).view (fun _ _ => none) (fun _ => {}) 0)
      contractSnapshot payContract where
  created := by
    intro address account hlook hcreated
    obtain ⟨rfl, rfl⟩ := eq_of_lookup_payContract hlook
    cases hcreated
  loaded := by
    intro address account hlook _ _
    obtain ⟨rfl, rfl⟩ := eq_of_lookup_payContract hlook
    refine ⟨some { balance := 1, nonce := 1, codeHash := 1, code := some [0] }, rfl, rfl, ?_, ?_⟩
    · intro info hinfo _
      cases hinfo
      exact .inl rfl
    · intro info before hinfo he
      cases hinfo
      cases he

theorem memory_view_agrees_with_committed_view_paid :
    ∃ mv cache, Published (fun _ => [0]) (Base.ofState 2 none .oneContract {}) [payContract] mv ∧
      Commits .oneContract cache [payContract] ∧
      callNow (Base.ofState 2 none .oneContract {}) mv (fun _ => {}) 1 5 {}
        (Call.start 2 1 (.basic 1)) =
          some (.ok (.account (some { balance := 2, nonce := 1, codeHash := 1, code := [0] }))) ∧
      callNow (Base.ofState 2 none .oneContract {}) mv (fun _ => {}) 1 5 {}
        (Call.start 2 1 (.storage 1 0)) = some (.ok (.word 9)) := by
  have hrun : PublishRun 2 contractSnapshot ⟨0, 0⟩ (fun _ _ => none) (.start payContract) _ :=
    .choose 0 rfl (.publish 0 rfl (.publish 0 rfl (.done rfl)))
  have hpublished := Published.nil.publish (fun _ => {}) 0 produced_payContract hrun
  have hcommits : Commits .oneContract _ [payContract] := (Commits.fresh.basic 1).commit rfl
  have hagree := memory_view_agrees_with_committed_view Database.oneContract_storageNeedsCode
    Database.oneContract_codeBook .fresh hpublished hcommits (fun _ => {}) {}
  exact ⟨_, _, hpublished, hcommits, (hagree.1 1 (by decide)).trans rfl, (hagree.2 1 0).trans rfl⟩

end Grevm
