/-
Grevm.Locks — locks, their holders and those who wait for them.

A table says which locks are taken; what a thread holds and which locks
its next access takes are relations. `Exclusive` says that a lock has one
holder at most and `Owned` that it has one at all, and both have a rule
for a step of one thread. When the threads take their locks downwards in
a well-founded order (`Ordered`), no thread waits for itself and behind
every taken lock stands a thread that finds all it wants free
(`Ordered.exists_free`).
-/
import Mathlib.Logic.Relation
import Mathlib.Order.WellFounded

namespace Grevm.Locks

universe u v w

variable {T : Type u} {L : Type v} {locked locked' : L → Bool} {holds holds' wants : T → L → Prop}

/-! ## Holders -/

/-- Whoever holds a lock holds it alone, and the table knows. -/
structure Exclusive (locked : L → Bool) (holds : T → L → Prop) : Prop where
  taken : ∀ t l, holds t l → locked l = true
  unique : ∀ t t' l, holds t l → holds t' l → t = t'

/-- A lock that is taken has a holder. -/
def Owned (locked : L → Bool) (holds : T → L → Prop) : Prop :=
  ∀ l, locked l = true → ∃ t, holds t l

/-- One thread moves: it takes free locks and releases its own. -/
theorem Exclusive.step (h : Exclusive locked holds) (t : T)
    (hothers : ∀ t', t' ≠ t → ∀ l, holds' t' l → holds t' l)
    (htake : ∀ l, holds' t l → locked' l = true ∧ (holds t l ∨ locked l = false))
    (hkeep : ∀ l, locked l = true → locked' l = true ∨ holds t l) :
    Exclusive locked' holds' := by
  have hmover : ∀ t' l, t' ≠ t → holds' t l → ¬ holds' t' l := by
    intro t' l hne hl hl'
    have hold := hothers t' hne l hl'
    rcases (htake l hl).2 with hown | hfree
    · exact hne (h.unique t' t l hold hown)
    · simp [h.taken t' l hold] at hfree
  refine ⟨fun t' l hl => ?_, fun t₁ t₂ l h₁ h₂ => ?_⟩
  · by_cases heq : t' = t
    · exact (htake l (heq ▸ hl)).1
    · have hold := hothers t' heq l hl
      exact (hkeep l (h.taken t' l hold)).resolve_right fun hown =>
        heq (h.unique t' t l hold hown)
  · by_cases heq₁ : t₁ = t
    · by_cases heq₂ : t₂ = t
      · rw [heq₁, heq₂]
      · exact absurd h₂ (hmover t₂ l heq₂ (heq₁ ▸ h₁))
    · by_cases heq₂ : t₂ = t
      · exact absurd h₁ (hmover t₁ l heq₁ (heq₂ ▸ h₂))
      · exact h.unique t₁ t₂ l (hothers t₁ heq₁ l h₁) (hothers t₂ heq₂ l h₂)

/-- One thread moves: what it takes it holds, and what it lets go is free. -/
theorem Owned.step (h : Owned locked holds) (t : T)
    (hothers : ∀ t', t' ≠ t → ∀ l, holds t' l → holds' t' l)
    (hnew : ∀ l, locked' l = true → holds' t l ∨ locked l = true ∧ ¬ holds t l) :
    Owned locked' holds' := by
  intro l hl
  rcases hnew l hl with hown | ⟨hold, hnot⟩
  · exact ⟨t, hown⟩
  · obtain ⟨t', ht'⟩ := h l hold
    have hne : t' ≠ t := fun heq => hnot (heq ▸ ht')
    exact ⟨t', hothers t' hne l ht'⟩

/-! ## Waiting -/

/-- The next access of `t` takes a lock that `t'` holds. -/
def WaitsFor (wants holds : T → L → Prop) (t t' : T) : Prop :=
  ∃ l, wants t l ∧ holds t' l

/-- Whoever holds a lock wants none but lower ones. -/
def Ordered {α : Type w} [LT α] (rank : L → α) (wants holds : T → L → Prop) : Prop :=
  ∀ t l l', holds t l → wants t l' → rank l' < rank l

section

variable {α : Type w} [Preorder α] {rank : L → α} {t t' : T}

/-- Whoever is waited for, directly or through others, holds a lock that
is at most as high as one the first thread wants. -/
theorem Ordered.rank_le (hord : Ordered rank wants holds)
    (h : Relation.TransGen (WaitsFor wants holds) t t') :
    ∃ l, wants t l ∧ ∃ l', holds t' l' ∧ rank l' ≤ rank l := by
  induction h with
  | single h =>
    obtain ⟨l, hl, hholds⟩ := h
    exact ⟨l, hl, l, hholds, le_rfl⟩
  | tail _ h ih =>
    obtain ⟨l, hl, l', hholds, hle⟩ := ih
    obtain ⟨l'', hl'', hholds'⟩ := h
    exact ⟨l, hl, l'', hholds', (hord _ l' l'' hholds hl'').le.trans hle⟩

/-- **No thread waits for itself.** -/
theorem Ordered.not_waitsFor_self (hord : Ordered rank wants holds) :
    ¬ Relation.TransGen (WaitsFor wants holds) t t := by
  intro h
  obtain ⟨l, hl, l', hholds, hle⟩ := hord.rank_le h
  exact (hord t l' l hholds hl).not_ge hle

/-- **Behind a taken lock stands a thread that finds its locks free.** -/
theorem Ordered.exists_free [WellFoundedLT α] (hord : Ordered rank wants holds)
    (howned : Owned locked holds) {l : L} (hwants : wants t l) (hl : locked l = true) :
    ∃ t', Relation.TransGen (WaitsFor wants holds) t t' ∧ (∃ l', holds t' l') ∧
      ∀ l', wants t' l' → locked l' = false := by
  -- by induction on the rank of the lock that is waited for
  induction hrank : rank l using WellFoundedLT.induction generalizing l t with
  | _ r ih =>
    obtain ⟨holder, hholds⟩ := howned l hl
    have hwaits : WaitsFor wants holds t holder := ⟨l, hwants, hholds⟩
    by_cases hfree : ∀ l', wants holder l' → locked l' = false
    · exact ⟨holder, .single hwaits, ⟨l, hholds⟩, hfree⟩
    · obtain ⟨l', hl', hheld⟩ : ∃ l', wants holder l' ∧ locked l' = true := by
        simpa using hfree
      have hlt : rank l' < r := hrank ▸ hord holder l l' hholds hl'
      obtain ⟨t', hchain, hlast⟩ := ih (rank l') hlt hl' hheld rfl
      exact ⟨t', hchain.head hwaits, hlast⟩

end

end Grevm.Locks
