/-
Grevm.Runs — runs of a step function.

A system is a partial step function `step : σ → α → Option σ`: the
action says which thread moves and how a choice the program leaves open
is resolved, and `none` means that the thread cannot move (it waits for
a lock, or the choice does not exist). `Reach step ok start s` holds when
`s` is reached from `start` by steps that all satisfy `ok`, a condition
on the state before the step and the action; `Free` is the condition
that restricts nothing.

`Reach.invariant` is the induction rule: what holds at the start and is
preserved by every admitted step holds in every state reached. The
lemmas that weaken and join runs are instances of it, with "reached" as
the invariant.
-/
import Mathlib.Tactic.Common

namespace Grevm.Runs

universe u v

variable {σ : Type u} {α : Type v}

/-- The condition every step satisfies. -/
def Free : σ → α → Prop := fun _ _ => True

/-- The states that steps satisfying `ok` reach from `start`. -/
inductive Reach (step : σ → α → Option σ) (ok : σ → α → Prop) (start : σ) : σ → Prop where
  | refl : Reach step ok start start
  | tail {s s' : σ} (a : α) : Reach step ok start s → ok s a → step s a = some s' →
      Reach step ok start s'

variable {step : σ → α → Option σ} {ok ok' : σ → α → Prop} {start s s' : σ}

/-- **Invariant rule.** The step case may use that its source state is
reachable. -/
theorem Reach.invariant {I : σ → Prop} (h : Reach step ok start s) (base : I start)
    (ind : ∀ s a s', Reach step ok start s → I s → ok s a → step s a = some s' → I s') :
    I s := by
  induction h with
  | refl => exact base
  | tail a hr hok hs ih => exact ind _ a _ hr ih hok hs

/-- Fewer restrictions, more runs. -/
theorem Reach.mono (h : Reach step ok start s) (imp : ∀ s a, ok s a → ok' s a) :
    Reach step ok' start s :=
  h.invariant (I := Reach step ok' start) .refl fun _ a _ _ ih hok hs =>
    .tail a ih (imp _ a hok) hs

theorem Reach.free (h : Reach step ok start s) : Reach step Free start s :=
  h.mono fun _ _ _ => trivial

theorem Reach.trans (h : Reach step ok start s) (h' : Reach step ok s s') :
    Reach step ok start s' :=
  h'.invariant (I := Reach step ok start) h fun _ a _ _ ih hok hs => .tail a ih hok hs

/-- The state after a list of actions, when every one of them can be
taken. -/
def exec (step : σ → α → Option σ) : σ → List α → Option σ
  | s, [] => some s
  | s, a :: as => (step s a).bind fun s' => exec step s' as

/-- What `exec` computes is reached. -/
theorem reach_of_exec : ∀ {as : List α} {s : σ}, exec step s as = some s' →
    Reach step Free s s' := by
  intro as
  induction as with
  | nil =>
    intro s h
    cases h
    exact .refl
  | cons a as ih =>
    intro s h
    obtain ⟨s₁, hs, h⟩ := Option.bind_eq_some_iff.mp h
    exact (Reach.tail a .refl trivial hs).trans (ih h)

theorem reach_get {as : List α} (h : (exec step s as).isSome) :
    Reach step Free s ((exec step s as).get h) :=
  reach_of_exec (Option.some_get h).symm

/-- Only the steps that pass a check. -/
def guarded (step : σ → α → Option σ) (check : σ → α → Bool) : σ → α → Option σ :=
  fun s a => if check s a then step s a else none

/-- A run of the guarded system is a run whose steps pass the check. -/
theorem Reach.of_guarded {check : σ → α → Bool} (h : Reach (guarded step check) ok start s) :
    Reach step (fun s a => check s a = true) start s := by
  refine h.invariant (I := Reach step (fun s a => check s a = true) start) .refl ?_
  intro s a s' _ ih _ hs
  by_cases hc : check s a = true
  · exact .tail a ih hc (by simpa [guarded, hc] using hs)
  · simp [guarded, hc] at hs

end Grevm.Runs
