import Mathlib.Data.List.Basic

/-!
# Runs of a labelled transition relation

A step either shows a label or is silent. A run collects the labels shown, in
order, and an invariant is proved once for each kind of step.
-/

namespace LabelledSteps

variable {σ l : Type*} (step : σ → Option l → σ → Prop)

/-- Finitely many steps, with the labels they show. -/
inductive Steps : σ → List l → σ → Prop
  | refl (s : σ) : Steps s [] s
  | shown {s t u : σ} {a : l} {as : List l} :
      step s (some a) t → Steps t as u → Steps s (a :: as) u
  | silent {s t u : σ} {as : List l} :
      step s none t → Steps t as u → Steps s as u

variable {step}

theorem Steps.trans {s t u : σ} {as bs : List l} (h₁ : Steps step s as t)
    (h₂ : Steps step t bs u) : Steps step s (as ++ bs) u := by
  induction h₁ with
  | refl s => exact h₂
  | shown hs _ ih => exact Steps.shown hs (ih h₂)
  | silent hs _ ih => exact Steps.silent hs (ih h₂)

/-- What every step preserves, together with the labels seen so far, every run
preserves; the newest label comes first. -/
theorem Steps.invariant {P : σ → List l → Prop}
    (hshown : ∀ s a t as, step s (some a) t → P s as → P t (a :: as))
    (hsilent : ∀ s t as, step s none t → P s as → P t as)
    {s t : σ} {as : List l} (run : Steps step s as t) (seen : List l) (h : P s seen) :
    P t (as.reverse ++ seen) := by
  induction run generalizing seen with
  | refl s => exact h
  | @shown s t u a as hs _ ih =>
      simpa using ih (a :: seen) (hshown s a t seen hs h)
  | @silent s t u as hs _ ih => exact ih seen (hsilent s t seen hs h)

/-- What the silent steps preserve, a run that shows no label preserves. -/
theorem Steps.silent_invariant {P : σ → Prop} (hsilent : ∀ s t, step s none t → P s → P t)
    {s t : σ} (run : Steps step s [] t) (h : P s) : P t := by
  generalize hlabels : ([] : List l) = as at run
  induction run with
  | refl s => exact h
  | shown _ _ _ => simp at hlabels
  | silent hs _ ih => exact ih (hsilent _ _ hs h) hlabels

/-- Every label of a run is shown by one of its steps, between two runs. -/
theorem Steps.exists_of_mem {s t : σ} {as : List l} (run : Steps step s as t) {a : l}
    (ha : a ∈ as) :
    ∃ u v bs cs, Steps step s bs u ∧ step u (some a) v ∧ Steps step v cs t := by
  induction run with
  | refl s => simp at ha
  | @shown s u t b bs hs hrest ih =>
      rcases List.mem_cons.mp ha with rfl | ha
      · exact ⟨s, u, [], bs, .refl s, hs, hrest⟩
      · obtain ⟨v, w, cs, ds, hbefore, hstep, hafter⟩ := ih ha
        exact ⟨v, w, b :: cs, ds, .shown hs hbefore, hstep, hafter⟩
  | silent hs _ ih =>
      obtain ⟨v, w, cs, ds, hbefore, hstep, hafter⟩ := ih ha
      exact ⟨v, w, cs, ds, .silent hs hbefore, hstep, hafter⟩

/-- Where a related state answers each step with the same label and any number
of silent steps, it answers each run with the same labels. -/
theorem Steps.simulated {τ : Type*} {step' : τ → Option l → τ → Prop} {R : σ → τ → Prop}
    (hsim : ∀ s shown s', step s shown s' → ∀ t, R s t →
      ∃ t', Steps step' t shown.toList t' ∧ R s' t')
    {s s' : σ} {as : List l} (run : Steps step s as s') {t : τ} (h : R s t) :
    ∃ t', Steps step' t as t' ∧ R s' t' := by
  induction run generalizing t with
  | refl s => exact ⟨t, .refl t, h⟩
  | shown hs _ ih =>
      obtain ⟨t₁, hfirst, h₁⟩ := hsim _ _ _ hs t h
      obtain ⟨t', hrest, h'⟩ := ih h₁
      exact ⟨t', hfirst.trans hrest, h'⟩
  | silent hs _ ih =>
      obtain ⟨t₁, hfirst, h₁⟩ := hsim _ _ _ hs t h
      obtain ⟨t', hrest, h'⟩ := ih h₁
      exact ⟨t', hfirst.trans hrest, h'⟩

end LabelledSteps
