/-
Grevm.PartitionPoint — binary search for the end of a prefix.

`partition_point` of a slice: the number of leading elements that satisfy
a predicate, found by halving. It is right for a slice in which every
element that satisfies the predicate comes before every element that does
not (`Partitioned`); an ascending slice is partitioned by `· ≤ bound`.
-/
import Mathlib.Data.List.TakeWhile
import Mathlib.Tactic.Common

namespace Grevm

variable {α : Type*}

/-- The search in `lo .. hi`, of at most `fuel` halvings. -/
def partitionSearch (p : α → Bool) (l : List α) : Nat → Nat → Nat → Nat
  | 0, lo, _ => lo
  | fuel + 1, lo, hi =>
    if lo < hi then
      let mid := lo + (hi - lo) / 2
      if (l[mid]?).any p then partitionSearch p l fuel (mid + 1) hi
      else partitionSearch p l fuel lo mid
    else lo

/-- `partition_point`. -/
def partitionPoint (p : α → Bool) (l : List α) : Nat :=
  partitionSearch p l l.length 0 l.length

/-- The elements that satisfy the predicate come first. -/
def Partitioned (p : α → Bool) (l : List α) : Prop :=
  l.Pairwise fun x y => p y = true → p x = true

variable {p : α → Bool} {l : List α}

/-- Up to the end of the prefix the elements satisfy the predicate. -/
theorem Partitioned.any_getElem? (h : Partitioned p l) {k : Nat} (hk : k < l.length) :
    (l[k]?).any p = true ↔ k < (l.takeWhile p).length := by
  induction l generalizing k with
  | nil => simp at hk
  | cons x l ih =>
    obtain ⟨hx, hl⟩ := List.pairwise_cons.mp h
    by_cases hp : p x = true
    · rw [List.takeWhile_cons_of_pos hp]
      cases k with
      | zero => simp [hp]
      | succ k => simpa using ih hl (by simpa using hk)
    · rw [List.takeWhile_cons_of_neg hp]
      cases k with
      | zero => simp [hp]
      | succ k =>
        have hk' : k < l.length := by simpa using hk
        have hpy : p l[k] ≠ true := fun hpy => hp (hx _ (List.getElem_mem hk') hpy)
        simp [hk', hpy]

/-- The end of the prefix stays between the bounds of the search. -/
theorem Partitioned.search_eq (h : Partitioned p l) {fuel lo hi : Nat} (hfuel : hi - lo ≤ fuel)
    (hhi : hi ≤ l.length) (hlo : lo ≤ (l.takeWhile p).length)
    (hend : (l.takeWhile p).length ≤ hi) :
    partitionSearch p l fuel lo hi = (l.takeWhile p).length := by
  induction fuel generalizing lo hi with
  | zero =>
    simp only [partitionSearch]
    omega
  | succ fuel ih =>
    simp only [partitionSearch]
    split
    · rename_i hlt
      have hmid : lo + (hi - lo) / 2 < hi := by omega
      split
      · rename_i hany
        have := (h.any_getElem? (by omega)).mp hany
        exact ih (by omega) hhi (by omega) hend
      · rename_i hany
        have := mt (h.any_getElem? (k := lo + (hi - lo) / 2) (by omega)).mpr hany
        exact ih (by omega) (by omega) hlo (by omega)
    · omega

/-- **Binary search.** On a partitioned list the partition point is the
length of the prefix. -/
theorem partitionPoint_eq (h : Partitioned p l) :
    partitionPoint p l = (l.takeWhile p).length :=
  h.search_eq (by simp) le_rfl (Nat.zero_le _) (List.takeWhile_sublist p).length_le

theorem drop_partitionPoint (h : Partitioned p l) :
    l.drop (partitionPoint p l) = l.dropWhile p := by
  rw [partitionPoint_eq h]
  calc l.drop (l.takeWhile p).length
      = (l.takeWhile p ++ l.dropWhile p).drop (l.takeWhile p).length := by
        rw [List.takeWhile_append_dropWhile]
    _ = l.dropWhile p := List.drop_left

/-- What follows the prefix are the elements that fail the predicate. -/
theorem Partitioned.dropWhile_eq (h : Partitioned p l) :
    l.dropWhile p = l.filter fun x => !p x := by
  induction l with
  | nil => rfl
  | cons x l ih =>
    obtain ⟨hx, hl⟩ := List.pairwise_cons.mp h
    by_cases hp : p x = true
    · rw [List.dropWhile_cons_of_pos hp, List.filter_cons_of_neg (by simp [hp]), ih hl]
    · have hall : ∀ y ∈ l, (!p y) = true := fun y hy => by
        simpa using mt (hx y hy) hp
      rw [List.dropWhile_cons_of_neg hp, List.filter_cons_of_pos (by simp [hp]),
        List.filter_eq_self.mpr hall]

end Grevm
