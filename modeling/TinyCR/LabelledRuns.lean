import Mathlib.Data.List.Induction

/-! # Runs of a labelled step relation

A run goes through a list of events, one step each. Runs are put together and taken apart with
their lists, and proved about by induction on the last step. -/
namespace LabelledRuns

variable {σ ε : Type*}

inductive Runs (step : σ → ε → σ → Prop) : σ → List ε → σ → Prop
  | nil (s : σ) : Runs step s [] s
  | cons {s s₁ s' : σ} {e : ε} {l : List ε} : step s e s₁ → Runs step s₁ l s' →
      Runs step s (e :: l) s'

variable {step : σ → ε → σ → Prop} {s s₁ s' : σ} {e : ε} {l l' : List ε}

theorem runs_nil_iff : Runs step s [] s' ↔ s' = s := by
  constructor
  · rintro ⟨⟩
    rfl
  · rintro rfl
    exact .nil s'

theorem runs_cons_iff : Runs step s (e :: l) s' ↔ ∃ s₁, step s e s₁ ∧ Runs step s₁ l s' := by
  constructor
  · intro h
    cases h with
    | cons hstep hrest => exact ⟨_, hstep, hrest⟩
  · rintro ⟨s₁, hstep, hrest⟩
    exact .cons hstep hrest

theorem runs_append_iff :
    Runs step s (l ++ l') s' ↔ ∃ s₁, Runs step s l s₁ ∧ Runs step s₁ l' s' := by
  induction l generalizing s with
  | nil =>
    constructor
    · intro h
      exact ⟨s, .nil s, h⟩
    · rintro ⟨s₁, hnil, h⟩
      obtain rfl := runs_nil_iff.mp hnil
      exact h
  | cons e l ih =>
    rw [List.cons_append, runs_cons_iff]
    constructor
    · rintro ⟨s₁, hstep, hrest⟩
      obtain ⟨s₂, hl, hl'⟩ := ih.mp hrest
      exact ⟨s₂, .cons hstep hl, hl'⟩
    · rintro ⟨s₂, hl, hl'⟩
      obtain ⟨s₁, hstep, hrest⟩ := runs_cons_iff.mp hl
      exact ⟨s₁, hstep, ih.mpr ⟨s₂, hrest, hl'⟩⟩

theorem runs_one_iff : Runs step s [e] s' ↔ step s e s' := by
  rw [runs_cons_iff]
  constructor
  · rintro ⟨s₁, hstep, hnil⟩
    obtain rfl := runs_nil_iff.mp hnil
    exact hstep
  · intro hstep
    exact ⟨s', hstep, .nil s'⟩

theorem runs_snoc_iff :
    Runs step s (l ++ [e]) s' ↔ ∃ s₁, Runs step s l s₁ ∧ step s₁ e s' := by
  rw [runs_append_iff]
  exact exists_congr fun s₁ => and_congr_right fun _ => runs_one_iff

/-- Induction on the last step of a run. -/
@[elab_as_elim]
theorem Runs.snoc_induction {s : σ} {motive : ∀ l s', Runs step s l s' → Prop}
    (nil : motive [] s (.nil s))
    (snoc : ∀ l s₁ e s' (h : Runs step s l s₁) (hstep : step s₁ e s'), motive l s₁ h →
      motive (l ++ [e]) s' (runs_snoc_iff.mpr ⟨s₁, h, hstep⟩))
    {l : List ε} {s' : σ} (h : Runs step s l s') : motive l s' h := by
  induction l using List.reverseRecOn generalizing s' with
  | nil =>
    obtain rfl := runs_nil_iff.mp h
    exact nil
  | append_singleton l e ih =>
    obtain ⟨s₁, hl, hstep⟩ := runs_snoc_iff.mp h
    exact snoc l s₁ e s' hl hstep (ih hl)

end LabelledRuns
