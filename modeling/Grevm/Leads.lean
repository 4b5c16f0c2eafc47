/-
Grevm.Leads — states that a run can still reach.

`Leads step ok Q s` holds when some run of admitted steps takes `s` to a
state with `Q`. Such runs compose (`Leads.bind`); a measure that some run
can lower from every state that lacks `Q` leads to `Q` (`leads_of_variant`);
and what can be brought about for one index after the other, without
undoing it for the others, can be brought about for all of finitely many
(`leads_forall`).
-/
import Grevm.Runs
import Mathlib.Data.Fintype.EquivFin
import Mathlib.Order.WellFounded

namespace Grevm.Runs

universe u v w

variable {σ : Type u} {α : Type v} {step : σ → α → Option σ} {ok ok' : σ → α → Prop}
  {P Q Q' : σ → Prop} {s s' : σ}

/-- Some run leads from `s` to a state with `Q`. -/
def Leads (step : σ → α → Option σ) (ok : σ → α → Prop) (Q : σ → Prop) (s : σ) : Prop :=
  ∃ s', Reach step ok s s' ∧ Q s'

namespace Leads

theorem here (h : Q s) : Leads step ok Q s := ⟨s, .refl, h⟩

theorem of_step (a : α) (hok : ok s a) (hs : step s a = some s') (h : Q s') :
    Leads step ok Q s :=
  ⟨s', .tail a .refl hok hs, h⟩

/-- One run after the other. -/
theorem bind (h : Leads step ok Q s)
    (next : ∀ s', Reach step ok s s' → Q s' → Leads step ok Q' s') : Leads step ok Q' s := by
  obtain ⟨s₁, hrun, hq⟩ := h
  obtain ⟨s₂, hrun', hq'⟩ := next s₁ hrun hq
  exact ⟨s₂, hrun.trans hrun', hq'⟩

theorem imp (h : Leads step ok Q s) (hq : ∀ s', Reach step ok s s' → Q s' → Q' s') :
    Leads step ok Q' s :=
  h.bind fun s' hrun hs' => here (hq s' hrun hs')

/-- Fewer restrictions, more runs. -/
theorem mono (h : Leads step ok Q s) (hok : ∀ s a, ok s a → ok' s a) : Leads step ok' Q s := by
  obtain ⟨s', hrun, hq⟩ := h
  exact ⟨s', hrun.mono hok, hq⟩

end Leads

/-- **Variant rule.** -/
theorem leads_of_variant {β : Type w} [Preorder β] [WellFoundedLT β] (μ : σ → β)
    (lower : ∀ s, P s → ¬ Q s → Leads step ok (fun s' => P s' ∧ (Q s' ∨ μ s' < μ s)) s) (h : P s) :
    Leads step ok (fun s => P s ∧ Q s) s := by
  -- by well-founded induction on the value of the measure
  suffices H : ∀ m s, μ s = m → P s → Leads step ok (fun s => P s ∧ Q s) s from H _ s rfl h
  intro m
  induction m using WellFoundedLT.induction with
  | _ m ih =>
    intro s hm hp
    by_cases hq : Q s
    · exact .here ⟨hp, hq⟩
    · refine (lower s hp hq).bind fun s' _ hs' => ?_
      obtain ⟨hp', hq' | hlt⟩ := hs'
      · exact .here ⟨hp', hq'⟩
      · exact ih (μ s') (hm ▸ hlt) s' rfl hp'

/-- **One index after the other.** -/
theorem leads_forall {ι : Type w} [Finite ι] {Q : ι → σ → Prop}
    (one : ∀ i s, P s →
      Leads step ok (fun s' => P s' ∧ Q i s' ∧ ∀ j, j ≠ i → Q j s → Q j s') s) (h : P s) :
    Leads step ok (fun s => P s ∧ ∀ i, Q i s) s := by
  classical
  have _ := Fintype.ofFinite ι
  suffices H : ∀ I : Finset ι, Leads step ok (fun s => P s ∧ ∀ i ∈ I, Q i s) s by
    refine (H Finset.univ).imp fun s' _ hs' => ⟨hs'.1, fun i => hs'.2 i (Finset.mem_univ i)⟩
  intro I
  induction I using Finset.induction_on with
  | empty => exact .here ⟨h, fun i hi => absurd hi (Finset.notMem_empty i)⟩
  | insert i I hi ih =>
    refine ih.bind fun s₁ _ hs₁ => (one i s₁ hs₁.1).imp fun s₂ _ hs₂ => ⟨hs₂.1, fun j hj => ?_⟩
    rcases Finset.mem_insert.mp hj with rfl | hj
    · exact hs₂.2.1
    · by_cases heq : j = i
      · exact heq ▸ hs₂.2.1
      · exact hs₂.2.2 j heq (hs₁.2 j hj)

end Grevm.Runs
