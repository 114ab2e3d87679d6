import Mathlib.Data.List.Basic
import Mathlib.Data.List.Forall2

/-!
# Simulations and invariants of fallible steps

A machine is a step function into `Option`: `none` is a step that fails. A
relation that one step keeps is kept by a whole list of operations, and by a
map over a list of machines.
-/

namespace Simulation

variable {σ τ o : Type*}

/-- A successful abstract run is matched step by step. -/
theorem foldlM_simulates {R : σ → τ → Prop} {step₁ : σ → o → Option σ} {step₂ : τ → o → Option τ}
    (h : ∀ s t a t', R s t → step₂ t a = some t' → ∃ s', step₁ s a = some s' ∧ R s' t')
    (ops : List o) {s : σ} {t t' : τ} (hR : R s t) (hrun : ops.foldlM step₂ t = some t') :
    ∃ s', ops.foldlM step₁ s = some s' ∧ R s' t' := by
  induction ops generalizing s t with
  | nil =>
      obtain rfl := Option.some.inj hrun
      exact ⟨s, rfl, hR⟩
  | cons a ops ih =>
      rw [List.foldlM_cons, Option.bind_eq_bind, Option.bind_eq_some_iff] at hrun
      obtain ⟨t₁, hstep, hrest⟩ := hrun
      obtain ⟨s₁, hstep₁, hR₁⟩ := h s t a t₁ hR hstep
      obtain ⟨s', hrun', hR'⟩ := ih hR₁ hrest
      exact ⟨s', by simpa [List.foldlM_cons, hstep₁] using hrun', hR'⟩

/-- The last operation of a run comes after the others. -/
theorem foldlM_snoc (step : σ → o → Option σ) (s : σ) (ops : List o) (a : o) :
    (ops ++ [a]).foldlM step s = (ops.foldlM step s).bind (step · a) := by
  simp only [List.foldlM_append, List.foldlM_cons, List.foldlM_nil, Option.bind_eq_bind]
  congr 1
  funext s
  cases step s a <;> rfl

/-- What every successful step keeps, every successful run keeps. -/
theorem foldlM_invariant {P : σ → Prop} {step : σ → o → Option σ}
    (h : ∀ s a s', P s → step s a = some s' → P s') (ops : List o) {s s' : σ} (hs : P s)
    (hrun : ops.foldlM step s = some s') : P s' := by
  induction ops generalizing s with
  | nil =>
      obtain rfl := Option.some.inj hrun
      exact hs
  | cons a ops ih =>
      rw [List.foldlM_cons, Option.bind_eq_bind, Option.bind_eq_some_iff] at hrun
      obtain ⟨s₁, hstep, hrest⟩ := hrun
      exact ih (h s a s₁ hs hstep) hrest

/-- A run all of whose operations meet a condition on the state before them. -/
inductive GuardedRun (step : σ → o → Option σ) (guard : σ → o → Prop) (s : σ) :
    List o → σ → Prop
  | nil : GuardedRun step guard s [] s
  | snoc {ops : List o} {a : o} {t u : σ} (h : GuardedRun step guard s ops t)
      (hguard : guard t a) (hstep : step t a = some u) : GuardedRun step guard s (ops ++ [a]) u

theorem GuardedRun.foldlM_eq {step : σ → o → Option σ} {guard : σ → o → Prop} {s t : σ}
    {ops : List o} (h : GuardedRun step guard s ops t) : ops.foldlM step s = some t := by
  induction h with
  | nil => rfl
  | snoc _ _ hstep ih => rw [foldlM_snoc, ih, Option.bind_some, hstep]

/-- Related machines have related results when each takes its step. -/
theorem mapM_simulates {σ' τ' : Type*} {R : σ → τ → Prop} {R' : σ' → τ' → Prop}
    {step₁ : σ → Option σ'} {step₂ : τ → Option τ'}
    (h : ∀ s t t', R s t → step₂ t = some t' → ∃ s', step₁ s = some s' ∧ R' s' t')
    {ss : List σ} {ts : List τ} {ts' : List τ'} (hR : List.Forall₂ R ss ts)
    (hrun : ts.mapM step₂ = some ts') :
    ∃ ss', ss.mapM step₁ = some ss' ∧ List.Forall₂ R' ss' ts' := by
  induction hR generalizing ts' with
  | nil =>
      obtain rfl := Option.some.inj hrun
      exact ⟨[], rfl, List.Forall₂.nil⟩
  | @cons s t ss ts hst _ ih =>
      simp only [List.mapM_cons, Option.bind_eq_bind, Option.bind_eq_some_iff,
        Option.pure_def, Option.some.injEq] at hrun
      obtain ⟨t', hstep, rest, hrest, rfl⟩ := hrun
      obtain ⟨s', hstep', hR'⟩ := h s t t' hst hstep
      obtain ⟨ss', hrun', hss⟩ := ih hrest
      exact ⟨s' :: ss', by simp [List.mapM_cons, hstep', hrun'], List.Forall₂.cons hR' hss⟩

/-- Machines in another order have the same results in another order. -/
theorem mapM_perm {step : σ → Option τ} {ss ss' : List σ} (h : ss.Perm ss') {ts' : List τ}
    (hrun : ss'.mapM step = some ts') : ∃ ts, ss.mapM step = some ts ∧ ts.Perm ts' := by
  induction h generalizing ts' with
  | nil => exact ⟨ts', hrun, List.Perm.refl _⟩
  | cons s _ ih =>
      simp only [List.mapM_cons, Option.bind_eq_bind, Option.bind_eq_some_iff, Option.pure_def,
        Option.some.injEq] at hrun
      obtain ⟨t, hstep, rest, hrest, rfl⟩ := hrun
      obtain ⟨ts, hts, hperm⟩ := ih hrest
      exact ⟨t :: ts, by simp [List.mapM_cons, hstep, hts], hperm.cons t⟩
  | swap s s' ss =>
      simp only [List.mapM_cons, Option.bind_eq_bind, Option.bind_eq_some_iff, Option.pure_def,
        Option.some.injEq] at hrun
      obtain ⟨t, hstep, _, ⟨t', hstep', rest, hrest, rfl⟩, rfl⟩ := hrun
      exact ⟨t' :: t :: rest, by simp [List.mapM_cons, hstep, hstep', hrest], List.Perm.swap t t' rest⟩
  | trans _ _ ih₁ ih₂ =>
      obtain ⟨ts, hts, hperm⟩ := ih₂ hrun
      obtain ⟨ts₁, hts₁, hperm₁⟩ := ih₁ hts
      exact ⟨ts₁, hts₁, hperm₁.trans hperm⟩

section Places

variable {R : σ → τ → Prop} {p : σ → Bool} {q : τ → Bool} {ss : List σ} {ts : List τ}

/-- Searches of lists that are related place by place end at the same place. -/
theorem forall₂_find? (hpq : ∀ s t, R s t → p s = q t) (h : List.Forall₂ R ss ts) :
    (ss.find? p = none ∧ ts.find? q = none) ∨
      ∃ s t, ss.find? p = some s ∧ ts.find? q = some t ∧ s ∈ ss ∧ R s t := by
  induction h with
  | nil => exact Or.inl ⟨rfl, rfl⟩
  | @cons s t ss ts hst _ ih =>
      cases hp : p s with
      | true =>
          have hq : q t = true := hpq s t hst ▸ hp
          exact Or.inr ⟨s, t, List.find?_cons_of_pos hp, List.find?_cons_of_pos hq,
            List.mem_cons_self, hst⟩
      | false =>
          have hq : q t = false := hpq s t hst ▸ hp
          rw [List.find?_cons_of_neg (by simp [hp]), List.find?_cons_of_neg (by simp [hq])]
          refine ih.imp_right ?_
          rintro ⟨s', t', hs', ht', hmem, hR⟩
          exact ⟨s', t', hs', ht', List.mem_cons_of_mem _ hmem, hR⟩

theorem forall₂_any (hpq : ∀ s t, R s t → p s = q t) (h : List.Forall₂ R ss ts) :
    ss.any p = ts.any q := by
  induction h with
  | nil => rfl
  | cons hst _ ih => rw [List.any_cons, List.any_cons, hpq _ _ hst, ih]

theorem forall₂_eraseP (hpq : ∀ s t, R s t → p s = q t) (h : List.Forall₂ R ss ts) :
    List.Forall₂ R (ss.eraseP p) (ts.eraseP q) := by
  induction h with
  | nil => exact List.Forall₂.nil
  | @cons s t ss ts hst hrest ih =>
      cases hp : p s with
      | true =>
          have hq : q t = true := hpq s t hst ▸ hp
          rwa [List.eraseP_cons_of_pos hp, List.eraseP_cons_of_pos hq]
      | false =>
          have hq : q t = false := hpq s t hst ▸ hp
          rw [List.eraseP_cons_of_neg (by simp [hp]), List.eraseP_cons_of_neg (by simp [hq])]
          exact List.Forall₂.cons hst ih

end Places

/-- A map over a list of machines gives one result for each. -/
theorem forall₂_of_mapM {step : σ → Option τ} {ss : List σ} {ts : List τ}
    (hrun : ss.mapM step = some ts) : List.Forall₂ (fun s t => step s = some t) ss ts := by
  induction ss generalizing ts with
  | nil =>
      obtain rfl := Option.some.inj hrun
      exact List.Forall₂.nil
  | cons s ss ih =>
      simp only [List.mapM_cons, Option.bind_eq_bind, Option.bind_eq_some_iff,
        Option.pure_def, Option.some.injEq] at hrun
      obtain ⟨t, hstep, rest, hrest, rfl⟩ := hrun
      exact List.Forall₂.cons hstep (ih hrest)

/-- A map over a list succeeds exactly when every step does. -/
theorem exists_mapM_iff {step : σ → Option τ} (ss : List σ) :
    (∃ ts, ss.mapM step = some ts) ↔ ∀ s ∈ ss, ∃ t, step s = some t := by
  induction ss with
  | nil => exact iff_of_true ⟨[], rfl⟩ (by simp)
  | cons s ss ih =>
      rw [List.forall_mem_cons, ← ih]
      constructor
      · rintro ⟨ts, hts⟩
        simp only [List.mapM_cons, Option.bind_eq_bind, Option.bind_eq_some_iff] at hts
        obtain ⟨t, ht, rest, hrest, -⟩ := hts
        exact ⟨⟨t, ht⟩, rest, hrest⟩
      · rintro ⟨⟨t, ht⟩, rest, hrest⟩
        exact ⟨t :: rest, by simp [List.mapM_cons, ht, hrest]⟩

/-- What can always follow a step does not decide whether there is one. -/
theorem exists_and_iff_of_total {s? : Option σ} {R : τ → σ → Prop} (h : ∀ s, ∃ t, R t s) :
    (∃ t s, s? = some s ∧ R t s) ↔ ∃ s, s? = some s := by
  constructor
  · rintro ⟨_, s, hs, -⟩
    exact ⟨s, hs⟩
  · rintro ⟨s, hs⟩
    obtain ⟨t, ht⟩ := h s
    exact ⟨t, s, hs, ht⟩

/-- Lists whose elements agree on a key, place by place, have the same keys. -/
theorem map_eq_of_forall₂ {K : Type*} {key : σ → K} {key' : τ → K} {ss : List σ} {ts : List τ}
    (h : List.Forall₂ (fun s t => key' t = key s) ss ts) : ts.map key' = ss.map key := by
  induction h with
  | nil => rfl
  | cons hhead _ ih => rw [List.map_cons, List.map_cons, hhead, ih]

/-- What every step reads off and keeps, a map over a list keeps. -/
theorem map_eq_of_mapM {K : Type*} {key : σ → K} {key' : τ → K} {step : σ → Option τ}
    (h : ∀ s t, step s = some t → key' t = key s) {ss : List σ} {ts : List τ}
    (hrun : ss.mapM step = some ts) : ts.map key' = ss.map key :=
  map_eq_of_forall₂ ((forall₂_of_mapM hrun).imp h)

/-- A map over a list of machines commutes with a map of the machines that each
step commutes with. -/
theorem mapM_map {step : σ → Option σ} {step' : τ → Option τ} {F : σ → τ}
    (h : ∀ s, step' (F s) = (step s).map F) (ss : List σ) :
    (ss.map F).mapM step' = (ss.mapM step).map (List.map F) := by
  induction ss with
  | nil => rfl
  | cons s ss ih =>
      rw [List.map_cons, List.mapM_cons, List.mapM_cons, h, ih]
      cases step s with
      | none => rfl
      | some s => cases ss.mapM step <;> rfl

/-- Related results go on to related results, and there is none of the one kind
exactly when there is none of the other. -/
theorem rel_bind {σ' τ' : Type*} {R : σ → τ → Prop} {S : σ' → τ' → Prop} {x : Option σ}
    {y : Option τ} {f : σ → Option σ'} {g : τ → Option τ'} (h : Option.Rel R x y)
    (hbind : ∀ s t, R s t → Option.Rel S (f s) (g t)) : Option.Rel S (x.bind f) (y.bind g) := by
  cases h with
  | none => exact .none
  | some hR => exact hbind _ _ hR

theorem rel_foldlM {o' : Type*} {R : σ → τ → Prop} {step : σ → o → Option σ}
    {step' : τ → o' → Option τ} {F : o → o'}
    (h : ∀ s t a, R s t → Option.Rel R (step s a) (step' t (F a))) (ops : List o) {s : σ} {t : τ}
    (hR : R s t) : Option.Rel R (ops.foldlM step s) ((ops.map F).foldlM step' t) := by
  induction ops generalizing s t with
  | nil => exact .some hR
  | cons a ops ih => exact rel_bind (h s t a hR) fun s t hR => ih hR

/-- What each step relates its state to, a run relates its start to. -/
theorem foldlM_related {R : σ → σ → Prop} (hrefl : ∀ s, R s s)
    (htrans : ∀ {s t u}, R s t → R t u → R s u) {step : σ → o → Option σ} {ops : List o}
    (hstep : ∀ a ∈ ops, ∀ s t, step s a = some t → R s t) {s t : σ}
    (hrun : ops.foldlM step s = some t) : R s t := by
  induction ops generalizing s with
  | nil =>
      obtain rfl := Option.some.inj hrun
      exact hrefl s
  | cons a ops ih =>
      rw [List.foldlM_cons, Option.bind_eq_bind, Option.bind_eq_some_iff] at hrun
      obtain ⟨s', hfirst, hrest⟩ := hrun
      exact htrans (hstep a List.mem_cons_self s s' hfirst)
        (ih (fun b hb => hstep b (List.mem_cons_of_mem _ hb)) hrest)

theorem forall₂_trans {R : σ → σ → Prop} (htrans : ∀ {s t u}, R s t → R t u → R s u)
    {ss ts us : List σ} (h : List.Forall₂ R ss ts) (h' : List.Forall₂ R ts us) :
    List.Forall₂ R ss us := by
  induction h generalizing us with
  | nil =>
      cases h'
      exact List.Forall₂.nil
  | cons hst _ ih =>
      cases h' with
      | cons htu hrest => exact List.Forall₂.cons (htrans hst htu) (ih hrest)

theorem exists_of_mem_forall₂ {R : σ → τ → Prop} {ss : List σ} {ts : List τ}
    (h : List.Forall₂ R ss ts) {t : τ} (ht : t ∈ ts) : ∃ s ∈ ss, R s t := by
  induction h with
  | nil => simp at ht
  | @cons s t' ss ts hst _ ih =>
      rcases List.mem_cons.mp ht with rfl | ht
      · exact ⟨s, List.mem_cons_self, hst⟩
      · obtain ⟨s', hs', hR⟩ := ih ht
        exact ⟨s', List.mem_cons_of_mem _ hs', hR⟩

end Simulation
