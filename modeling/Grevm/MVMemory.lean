/-
Grevm.MVMemory — multi-version memory.

`MVMemory` of `src/model.rs` is a concurrent map from a location to the
`BTreeMap` of its writers. The model is the function that gives the entry
of a location and a transaction; a location without a map and one with an
empty map read the same. Each operation below is what the code does under
the shard lock of one location, so each is one step of an interleaving.
-/
import Grevm.Model

namespace Grevm

abbrev MVMemory := LocationAndType → Nat → Option MemoryEntry

namespace MVMemory

/-- `range(..txid).next_back()`: the latest writer before `txid`. -/
def latestBefore (entries : Nat → Option MemoryEntry) : Nat → Option (Nat × MemoryEntry)
  | 0 => none
  | n + 1 =>
    match entries n with
    | some entry => some (n, entry)
    | none => latestBefore entries n

/-- `publish_value`: insert the entry of one writer at one location. -/
def insert (mv : MVMemory) (location : LocationAndType) (txid : Nat) (entry : MemoryEntry) :
    MVMemory :=
  fun l t => if l = location ∧ t = txid then some entry else mv l t

/-- Remove the entry of one writer at one location. -/
def remove (mv : MVMemory) (location : LocationAndType) (txid : Nat) : MVMemory :=
  fun l t => if l = location ∧ t = txid then none else mv l t

/-- Mark the entry of one writer at one location as an estimate, if it
has one there. -/
def markEstimate (mv : MVMemory) (location : LocationAndType) (txid : Nat) : MVMemory :=
  fun l t =>
    if l = location ∧ t = txid then (mv l t).map fun entry => { entry with estimate := true }
    else mv l t

variable {mv : MVMemory} {entries entries' : Nat → Option MemoryEntry}
  {location l : LocationAndType} {txid t i j : Nat} {entry e : MemoryEntry}

@[simp] theorem insert_self : mv.insert location txid entry location txid = some entry := by
  simp [insert]

theorem insert_of_ne (h : t ≠ txid) : mv.insert location txid entry l t = mv l t := by
  simp [insert, h]

theorem remove_of_ne (h : t ≠ txid) : mv.remove location txid l t = mv l t := by
  simp [remove, h]

theorem markEstimate_of_ne (h : t ≠ txid) : mv.markEstimate location txid l t = mv l t := by
  simp [markEstimate, h]

/-! ## The latest writer -/

theorem latestBefore_succ_some (h : entries i = some entry) :
    latestBefore entries (i + 1) = some (i, entry) := by
  simp [latestBefore, h]

theorem latestBefore_succ_none (h : entries i = none) :
    latestBefore entries (i + 1) = latestBefore entries i := by
  simp [latestBefore, h]

/-- The latest writer precedes the reader, holds the entry found, and no
writer between the two has one. -/
theorem latestBefore_eq_some_iff :
    latestBefore entries i = some (j, entry) ↔
      j < i ∧ entries j = some entry ∧ ∀ k, j < k → k < i → entries k = none := by
  induction i with
  | zero => simp [latestBefore]
  | succ n ih =>
    cases hn : entries n with
    | some e =>
      rw [latestBefore_succ_some hn]
      constructor
      · intro h
        cases h
        exact ⟨Nat.lt_succ_self _, hn, fun k hk hk' => by omega⟩
      · rintro ⟨hj, he, hgap⟩
        have hjn : j = n := by
          by_contra hne
          have := hgap n (by omega) (Nat.lt_succ_self n)
          rw [hn] at this
          cases this
        subst hjn
        rw [hn] at he
        cases he
        rfl
    | none =>
      rw [latestBefore_succ_none hn, ih]
      constructor
      · rintro ⟨hj, he, hgap⟩
        refine ⟨by omega, he, fun k hk hk' => ?_⟩
        rcases Nat.lt_succ_iff_lt_or_eq.mp hk' with h | rfl
        · exact hgap k hk h
        · exact hn
      · rintro ⟨hj, he, hgap⟩
        have hjn : j ≠ n := by
          rintro rfl
          rw [hn] at he
          cases he
        exact ⟨by omega, he, fun k hk hk' => hgap k hk (by omega)⟩

/-- No writer is found exactly when no earlier transaction has an
entry. -/
theorem latestBefore_eq_none_iff :
    latestBefore entries i = none ↔ ∀ k, k < i → entries k = none := by
  induction i with
  | zero => simp [latestBefore]
  | succ n ih =>
    cases hn : entries n with
    | some e =>
      rw [latestBefore_succ_some hn]
      constructor
      · intro h; cases h
      · intro h
        have := h n (Nat.lt_succ_self n)
        rw [hn] at this
        cases this
    | none =>
      rw [latestBefore_succ_none hn, ih]
      constructor
      · intro h k hk
        rcases Nat.lt_succ_iff_lt_or_eq.mp hk with hlt | rfl
        · exact h k hlt
        · exact hn
      · exact fun h k hk => h k (by omega)

theorem latestBefore_lt (h : latestBefore entries i = some (j, entry)) : j < i :=
  (latestBefore_eq_some_iff.mp h).1

theorem latestBefore_entry (h : latestBefore entries i = some (j, entry)) :
    entries j = some entry :=
  (latestBefore_eq_some_iff.mp h).2.1

/-- Only the entries of earlier transactions matter. -/
theorem latestBefore_congr (h : ∀ k, k < i → entries k = entries' k) :
    latestBefore entries i = latestBefore entries' i := by
  induction i with
  | zero => rfl
  | succ n ih =>
    have hn := h n (Nat.lt_succ_self n)
    have htail := ih fun k hk => h k (by omega)
    simp only [latestBefore, hn, htail]

end MVMemory

end Grevm
