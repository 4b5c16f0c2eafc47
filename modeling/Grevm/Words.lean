/-
Grevm.Words — saturating and checked arithmetic on machine words.

`saturating_add`, `saturating_sub`, `checked_add` and `checked_sub` over
words of any width, each with the equation that gives its value as a
natural number. A saturating sum of a list of words is the plain sum cut
off at the largest word, in whatever order it is taken
(`toNat_satSum`).
-/
import Mathlib.Data.BitVec
import Mathlib.Tactic.Common

namespace Grevm.Words

variable {w : Nat} {x y z : BitVec w}

/-- The largest word. -/
def top (w : Nat) : BitVec w := BitVec.allOnes w

theorem toNat_top (w : Nat) : (top w).toNat = 2 ^ w - 1 := by
  simp [top]

/-- `saturating_add`. -/
def satAdd (x y : BitVec w) : BitVec w :=
  if x.toNat + y.toNat < 2 ^ w then x + y else top w

/-- `saturating_sub`. -/
def satSub (x y : BitVec w) : BitVec w :=
  if y.toNat ≤ x.toNat then x - y else 0

/-- `checked_add`. -/
def checkedAdd (x y : BitVec w) : Option (BitVec w) :=
  if x.toNat + y.toNat < 2 ^ w then some (x + y) else none

/-- `checked_sub`. -/
def checkedSub (x y : BitVec w) : Option (BitVec w) :=
  if y.toNat ≤ x.toNat then some (x - y) else none

theorem toNat_add_of_lt (h : x.toNat + y.toNat < 2 ^ w) : (x + y).toNat = x.toNat + y.toNat := by
  rw [BitVec.toNat_add, Nat.mod_eq_of_lt h]

theorem toNat_sub_of_le (h : y.toNat ≤ x.toNat) : (x - y).toNat = x.toNat - y.toNat :=
  BitVec.toNat_sub_of_le (BitVec.le_def.mpr h)

theorem toNat_satAdd (x y : BitVec w) :
    (satAdd x y).toNat = min (x.toNat + y.toNat) (2 ^ w - 1) := by
  unfold satAdd
  split
  · rename_i h
    rw [toNat_add_of_lt h]
    omega
  · rename_i h
    rw [toNat_top]
    omega

/-- A saturating addition of a positive word moves every word but the
largest. -/
theorem satAdd_eq_self_iff (h : 0 < y.toNat) : satAdd x y = x ↔ x = top w := by
  rw [← BitVec.toNat_inj, ← BitVec.toNat_inj, toNat_satAdd, toNat_top]
  have hlt := x.isLt
  omega

theorem lt_satAdd_of_ne (h : satAdd x y ≠ x) : x.toNat < (satAdd x y).toNat := by
  have hne : (satAdd x y).toNat ≠ x.toNat := fun heq => h (BitVec.eq_of_toNat_eq heq)
  have hlt := x.isLt
  rw [toNat_satAdd] at hne ⊢
  omega

/-! ## Exact steps -/

theorem checkedAdd_eq_some (h : z.toNat = x.toNat + y.toNat) : checkedAdd x y = some z := by
  have hlt : x.toNat + y.toNat < 2 ^ w := h ▸ z.isLt
  rw [checkedAdd, if_pos hlt]
  exact congrArg some (BitVec.eq_of_toNat_eq ((toNat_add_of_lt hlt).trans h.symm))

theorem checkedSub_eq_some (h : z.toNat + y.toNat = x.toNat) : checkedSub x y = some z := by
  have hle : y.toNat ≤ x.toNat := by omega
  rw [checkedSub, if_pos hle]
  refine congrArg some (BitVec.eq_of_toNat_eq ?_)
  rw [toNat_sub_of_le hle]
  omega

/-- Where the checked operation succeeds the saturating one gives its
result. -/
theorem satAdd_of_checkedAdd (h : checkedAdd x y = some z) : satAdd x y = z := by
  unfold checkedAdd at h
  split at h
  · rename_i hlt
    cases h
    exact if_pos hlt
  · cases h

theorem satSub_of_checkedSub (h : checkedSub x y = some z) : satSub x y = z := by
  unfold checkedSub at h
  split at h
  · rename_i hle
    cases h
    exact if_pos hle
  · cases h

/-! ## Saturating sums -/

/-- The saturating sum of a list, taken from its end. -/
def satSum (l : List (BitVec w)) : BitVec w :=
  l.foldr (fun x sum => satAdd sum x) 0

@[simp] theorem satSum_nil : satSum ([] : List (BitVec w)) = 0 := rfl

@[simp] theorem satSum_cons (x : BitVec w) (l : List (BitVec w)) :
    satSum (x :: l) = satAdd (satSum l) x := rfl

theorem toNat_satSum (l : List (BitVec w)) :
    (satSum l).toNat = min (l.map BitVec.toNat).sum (2 ^ w - 1) := by
  induction l with
  | nil => simp
  | cons x l ih =>
    rw [satSum_cons, toNat_satAdd, ih, List.map_cons, List.sum_cons]
    omega

end Grevm.Words
