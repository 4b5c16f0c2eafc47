/-
Grevm.Plain — the state of the chain as plain values.

The reference against which caches and views are compared: each account
has its information and its slots, and the finalized change sets overlay
it one after the other. Deleting or creating an account first clears all
its slots. Nothing here knows how a change set is stored or looked up:
`Plain.apply` follows `FinalizedAccount`, the classification both
encodings of a change set are written against.
-/
import Grevm.Model

namespace Grevm

/-! ## Changed slots -/

/-- The value a finalized account leaves in a slot that it changed. -/
def Account.changedSlot (account : Account) (index : U256) : Option U256 :=
  ((account.storage.lookup index).filter EvmStorageSlot.isChanged).map
    EvmStorageSlot.presentValue

theorem Account.mem_changedStorageSlots {account : Account} {index value : U256} :
    (index, value) ∈ account.changedStorageSlots ↔ account.changedSlot index = some value := by
  simp only [changedStorageSlots, changedSlot, List.mem_map, List.mem_filter, Prod.mk.injEq,
    Option.map_eq_some_iff, Option.filter_eq_some_iff]
  constructor
  · rintro ⟨⟨i, slot⟩, ⟨hmem, hch⟩, rfl, rfl⟩
    exact ⟨slot, ⟨AList.mem_lookup_iff.mpr hmem, hch⟩, rfl⟩
  · rintro ⟨slot, ⟨hl, hch⟩, rfl⟩
    exact ⟨⟨index, slot⟩, ⟨AList.mem_lookup_iff.mp hl, hch⟩, rfl, rfl⟩

theorem Account.changedSlot_eq_none {account : Account} {index : U256}
    (h : index ∉ account.changedStorageSlots.map Prod.fst) : account.changedSlot index = none := by
  refine Option.eq_none_iff_forall_ne_some.mpr fun v hv => h ?_
  exact List.mem_map.mpr ⟨(index, v), mem_changedStorageSlots.mpr hv, rfl⟩

/-! ## Plain accounts -/

/-- What a state read of one account can return. -/
@[ext]
structure Plain (Err : Type) where
  basic : Except Err (Option AccountInfo)
  storage : U256 → Except Err U256

namespace Plain

variable {Err : Type}

/-- The account after one finalized change. -/
def apply (p : Plain Err) (account : Account) : Plain Err :=
  match FinalizedAccount.ofAccount account with
  | .unchanged => p
  | .deleted => { basic := .ok none, storage := fun _ => .ok 0 }
  | .created info =>
    { basic := .ok (some info), storage := fun index => .ok ((account.changedSlot index).getD 0) }
  | .updated info =>
    { basic := .ok (some info)
      storage := fun index =>
        match account.changedSlot index with
        | some value => .ok value
        | none => p.storage index }

/-- All accounts after one change set. -/
def applyState (p : Address → Plain Err) (state : EvmState) (address : Address) : Plain Err :=
  match state.lookup address with
  | some account => (p address).apply account
  | none => p address

/-- All accounts after a sequence of change sets. -/
def overlay (p : Address → Plain Err) (states : List EvmState) : Address → Plain Err :=
  states.foldl applyState p

@[simp]
theorem overlay_append (p : Address → Plain Err) (states : List EvmState) (state : EvmState) :
    overlay p (states ++ [state]) = applyState (overlay p states) state := by
  simp [overlay]

variable {p : Plain Err} {account : Account} {index value : U256}

theorem applyState_of_lookup {q : Address → Plain Err} {state : EvmState} {address : Address}
    (h : state.lookup address = some account) :
    applyState q state address = (q address).apply account := by
  rw [applyState, h]

theorem apply_untouched (h : account.touched = false) : p.apply account = p := by
  simp [apply, FinalizedAccount.ofAccount, h]

/-- A touched account that is neither deleted nor created keeps the slots
that did not change. -/
theorem apply_updated (h : account.touched = true) (hd : account.selfdestructed = false)
    (hc : account.created = false) (he : account.isEmpty = false) :
    p.apply account =
      { basic := .ok (some account.info)
        storage := fun index =>
          match account.changedSlot index with
          | some value => .ok value
          | none => p.storage index } := by
  simp [apply, FinalizedAccount.ofAccount, h, hd, hc, he]

theorem apply_created (h : account.touched = true) (hd : account.selfdestructed = false)
    (hc : account.created = true) :
    p.apply account =
      { basic := .ok (some account.info)
        storage := fun index => .ok ((account.changedSlot index).getD 0) } := by
  simp [apply, FinalizedAccount.ofAccount, h, hd, hc]

theorem apply_deleted (h : account.touched = true)
    (hd : account.selfdestructed = true ∨ account.created = false ∧ account.isEmpty = true) :
    p.apply account = { basic := .ok none, storage := fun _ => .ok 0 } := by
  rcases hd with hd | ⟨hc, he⟩
  · simp [apply, FinalizedAccount.ofAccount, h, hd]
  · cases hs : account.selfdestructed <;> simp [apply, FinalizedAccount.ofAccount, h, hc, he, hs]

end Plain

end Grevm
