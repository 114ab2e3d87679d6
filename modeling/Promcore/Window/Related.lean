import Promcore.Library.Simulation
import Promcore.Window.TimeWindowQuantiles

/-!
# The same window over related buckets

When each bucket of one ring can do what the related bucket of another ring
does, the two windows stay related over any calls, and every call the second
one completes the first one completes too.
-/

namespace Promcore.TimeWindowQuantiles

open Simulation

variable {α β γ : Type} [Bucket β α] [Bucket γ α]

/-- Buckets of the first kind can do what related buckets of the second do. -/
structure BucketSimulation (R : β → γ → Prop) : Prop where
  insert : ∀ b c v c', R b c → Bucket.insert c v = some c' →
    ∃ b', Bucket.insert b v = some b' ∧ R b' c'
  get : ∀ b c q c' y, R b c → Bucket.get c q = some (c', y) →
    ∃ b' x, Bucket.get b q = some (b', x) ∧ R b' c'
  reset : ∀ b c, R b c → R (Bucket.reset b) (Bucket.reset c)

/-- The same window over related buckets. -/
structure Related (R : β → γ → Prop) (w : TimeWindowQuantiles β) (v : TimeWindowQuantiles γ) :
    Prop where
  buckets : List.Forall₂ R w.ckms_quantiles_ v.ckms_quantiles_
  current : w.current_bucket_ = v.current_bucket_
  last : w.last_rotation_ = v.last_rotation_
  interval : w.rotation_interval_ = v.rotation_interval_

variable {R : β → γ → Prop} {w : TimeWindowQuantiles β} {v : TimeWindowQuantiles γ}

theorem forall₂_getElem? {bs : List β} {cs : List γ} (h : List.Forall₂ R bs cs) {i : ℕ} {c : γ}
    (hc : cs[i]? = some c) : ∃ b, bs[i]? = some b ∧ R b c := by
  induction h generalizing i with
  | nil => simp at hc
  | cons hbc _ ih =>
      cases i with
      | zero =>
          obtain rfl : _ = c := by simpa using hc
          exact ⟨_, rfl, hbc⟩
      | succ i => exact ih (by simpa using hc)

theorem forall₂_set {bs : List β} {cs : List γ} (h : List.Forall₂ R bs cs) (i : ℕ) {b : β} {c : γ}
    (hbc : R b c) : List.Forall₂ R (bs.set i b) (cs.set i c) := by
  induction h generalizing i with
  | nil => exact List.Forall₂.nil
  | cons hhead htail ih =>
      cases i with
      | zero => exact List.Forall₂.cons hbc htail
      | succ i => exact List.Forall₂.cons hhead (ih i)

omit [Bucket β α] [Bucket γ α] in
theorem Related.setCurrent (h : Related R w v) {b : β} {c : γ} (hbc : R b c) :
    Related R (w.setCurrent b) (v.setCurrent c) where
  buckets := by
    simp only [TimeWindowQuantiles.setCurrent, h.current]
    exact forall₂_set h.buckets _ hbc
  current := h.current
  last := h.last
  interval := h.interval

omit [Bucket β α] [Bucket γ α] in
theorem Related.advance (h : Related R w v) : Related R w.advance v.advance where
  buckets := h.buckets
  current := by simp only [TimeWindowQuantiles.advance, h.current, h.buckets.length_eq]
  last := by simp only [TimeWindowQuantiles.advance, h.last, h.interval]
  interval := h.interval

theorem Related.rotateStep (sim : BucketSimulation R) (h : Related R w v)
    {v' : TimeWindowQuantiles γ} (hstep : v.rotateStep = some v') :
    ∃ w', w.rotateStep = some w' ∧ Related R w' v' := by
  simp only [TimeWindowQuantiles.rotateStep, Option.bind_eq_bind, Option.bind_eq_some_iff] at hstep
  obtain ⟨c, hc, hv'⟩ := hstep
  obtain rfl := Option.some.inj hv'
  obtain ⟨b, hb, hbc⟩ := forall₂_getElem? h.buckets hc
  rw [← h.current] at hb
  exact ⟨(w.setCurrent (Bucket.reset b)).advance, by simp [TimeWindowQuantiles.rotateStep, hb],
    (h.setCurrent (sim.reset b c hbc)).advance⟩

theorem Related.rotateLoop (sim : BucketSimulation R) (tests : ℕ) (delta : ℤ)
    {w : TimeWindowQuantiles β} {v v' : TimeWindowQuantiles γ} (h : Related R w v)
    (hloop : TimeWindowQuantiles.rotateLoop tests delta v = some v') :
    ∃ w', TimeWindowQuantiles.rotateLoop tests delta w = some w' ∧ Related R w' v' := by
  induction tests generalizing delta w v with
  | zero => simp [TimeWindowQuantiles.rotateLoop] at hloop
  | succ tests ih =>
      rw [TimeWindowQuantiles.rotateLoop] at hloop ⊢
      rw [h.interval]
      split at hloop
      · rename_i hdue
        rw [Option.bind_eq_bind, Option.bind_eq_some_iff] at hloop
        obtain ⟨v₁, hstep, hrest⟩ := hloop
        obtain ⟨w₁, hstep₁, h₁⟩ := h.rotateStep sim hstep
        rw [if_pos hdue, hstep₁]
        exact ih _ h₁ hrest
      · rename_i hdue
        obtain rfl := Option.some.inj hloop
        exact ⟨w, by rw [if_neg hdue], h⟩

theorem Related.rotate (sim : BucketSimulation R) (h : Related R w v) {now : ℤ}
    {v' : TimeWindowQuantiles γ} (hrotate : v.rotate now = some v') :
    ∃ w', w.rotate now = some w' ∧ Related R w' v' := by
  rw [TimeWindowQuantiles.rotate] at hrotate ⊢
  rw [h.last]
  exact h.rotateLoop sim _ _ hrotate

theorem Related.insert (sim : BucketSimulation R) (h : Related R w v) {now : ℤ} {value : α}
    {v' : TimeWindowQuantiles γ} (hinsert : v.insert now value = some v') :
    ∃ w', w.insert now value = some w' ∧ Related R w' v' := by
  simp only [TimeWindowQuantiles.insert, Option.bind_eq_bind, Option.bind_eq_some_iff] at hinsert
  obtain ⟨v₁, hrotate, cs, hcs, hv'⟩ := hinsert
  obtain rfl := Option.some.inj hv'
  obtain ⟨w₁, hrotate₁, h₁⟩ := h.rotate sim hrotate
  obtain ⟨bs, hbs, hrel⟩ := mapM_simulates
    (fun b c c' hbc hc => sim.insert b c value c' hbc hc) h₁.buckets hcs
  exact ⟨{ w₁ with ckms_quantiles_ := bs }, by simp [TimeWindowQuantiles.insert, hrotate₁, hbs],
    hrel, h₁.current, h₁.last, h₁.interval⟩

theorem Related.get (sim : BucketSimulation R) (h : Related R w v) {now : ℤ} {q : ℚ} {y : Option α}
    {v' : TimeWindowQuantiles γ} (hget : v.get now q = some (v', y)) :
    ∃ w' x, w.get now q = some (w', x) ∧ Related R w' v' := by
  simp only [TimeWindowQuantiles.get, Option.bind_eq_bind, Option.bind_eq_some_iff] at hget
  obtain ⟨v₁, hrotate, c, hc, ⟨c', y'⟩, hc', hv'⟩ := hget
  simp only [Option.pure_def, Option.some.injEq, Prod.mk.injEq] at hv'
  obtain ⟨rfl, rfl⟩ := hv'
  obtain ⟨w₁, hrotate₁, h₁⟩ := h.rotate sim hrotate
  obtain ⟨b, hb, hbc⟩ := forall₂_getElem? h₁.buckets hc
  rw [← h₁.current] at hb
  obtain ⟨b', x, hb', hrel⟩ := sim.get b c q c' y' hbc hc'
  exact ⟨w₁.setCurrent b', x, by simp [TimeWindowQuantiles.get, hrotate₁, hb, hb'],
    h₁.setCurrent hrel⟩

theorem Related.apply (sim : BucketSimulation R) (h : Related R w v) (call : Call α)
    {v' : TimeWindowQuantiles γ} (happly : v.apply call = some v') :
    ∃ w', w.apply call = some w' ∧ Related R w' v' := by
  cases call with
  | insert now value => exact h.insert sim happly
  | get now q =>
      simp only [TimeWindowQuantiles.apply, Option.bind_eq_bind, Option.bind_eq_some_iff] at happly
      obtain ⟨⟨v₁, y⟩, hget, hv'⟩ := happly
      obtain rfl := Option.some.inj hv'
      obtain ⟨w₁, x, hget₁, h₁⟩ := h.get sim hget
      exact ⟨w₁, by simp [TimeWindowQuantiles.apply, hget₁], h₁⟩

theorem Related.run (sim : BucketSimulation R) (h : Related R w v) (calls : List (Call α))
    {v' : TimeWindowQuantiles γ} (hrun : v.run calls = some v') :
    ∃ w', w.run calls = some w' ∧ Related R w' v' :=
  foldlM_simulates (fun _ _ call _ hrel happly => hrel.apply sim call happly) calls h hrun

theorem Related.new {b : β} {c : γ} (hbc : R b c) (max_age now : ℤ) {age_buckets : ℤ}
    {v : TimeWindowQuantiles γ} (hnew : TimeWindowQuantiles.new c max_age age_buckets now = some v) :
    ∃ w, TimeWindowQuantiles.new b max_age age_buckets now = some w ∧ Related R w v := by
  rw [TimeWindowQuantiles.new] at hnew ⊢
  split at hnew
  · rename_i hsize
    obtain rfl := Option.some.inj hnew
    rw [if_pos hsize]
    exact ⟨_, rfl, List.forall₂_iff_get.mpr ⟨by simp, by simp [hbc]⟩, rfl, rfl, rfl⟩
  · simp at hnew

end Promcore.TimeWindowQuantiles
