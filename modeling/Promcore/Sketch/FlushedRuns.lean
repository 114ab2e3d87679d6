import Promcore.Sketch.Represents

/-!
# Runs by their flushes

A call changes the sample in a flush or in a reset only. What every flush that
meets a condition keeps of the sample and the values flushed holds at the end of
a run whose flushes meet it.
-/

namespace Promcore.CKMSQuantiles

open RankSummary

variable {α : Type}

/-- The condition holds of the sketch that the call flushes, if it flushes. -/
def OnFlush (cond : CKMSQuantiles α → Prop) (s : CKMSQuantiles α) : Op α → Prop
  | .insert value =>
      s.buffer_count_ + 1 = bufferSize → cond { s with buffer_ := s.buffer_ ++ [value] }
  | .get _ => cond s
  | .reset => True

instance (cond : CKMSQuantiles α → Prop) [DecidablePred cond] (s : CKMSQuantiles α) :
    (op : Op α) → Decidable (OnFlush cond s op)
  | .insert value => inferInstanceAs
      (Decidable (s.buffer_count_ + 1 = bufferSize → cond { s with buffer_ := s.buffer_ ++ [value] }))
  | .get _ => inferInstanceAs (Decidable (cond s))
  | .reset => .isTrue trivial

theorem OnFlush.imp {cond cond' : CKMSQuantiles α → Prop} (himp : ∀ s, cond s → cond' s)
    {s : CKMSQuantiles α} {op : Op α} (h : OnFlush cond s op) : OnFlush cond' s op := by
  cases op with
  | insert value => exact fun hfull => himp _ (h hfull)
  | get q => exact himp _ h
  | reset => trivial

theorem inserted_snoc (ops : List (Op α)) (op : Op α) :
    inserted (ops ++ [op]) = received (inserted ops) op := by
  rw [inserted, inserted, List.foldl_append]
  rfl

variable [LinearOrder α]

/-- A flush that meets the condition keeps the relation between the sample and
the values flushed. -/
def KeptByFlush (quantiles_ : List Quantile) (cond : CKMSQuantiles α → Prop)
    (rel : List (Item α) → List α → Prop) : Prop :=
  ∀ (s s' : CKMSQuantiles α) (data : List α), s.quantiles_ = quantiles_ →
    Summarizes Item.value Item.g s.sample_ data → cond s → rel s.sample_ data →
    s.flush = some s' → rel s'.sample_ (data ++ s.buffer_)

theorem Represents.take_of_flushed {s : CKMSQuantiles α} {data : List α} (h : Represents s data)
    (hflushed : s.buffer_ = []) : data.take s.count_ = data := by
  have hsplit := h.split
  rw [hflushed, List.append_nil] at hsplit
  exact hsplit.symm

/-- A call keeps what its flush keeps. -/
theorem Represents.apply_kept {s s' : CKMSQuantiles α} {data : List α} (h : Represents s data)
    {cond : CKMSQuantiles α → Prop} {rel : List (Item α) → List α → Prop} (hnil : rel [] [])
    (hkept : KeptByFlush s.quantiles_ cond rel) (hrel : rel s.sample_ (data.take s.count_))
    {op : Op α} (hcond : OnFlush cond s op) (happly : s.apply op = some s') :
    rel s'.sample_ ((received data op).take s'.count_) := by
  cases op with
  | insert value =>
      obtain ⟨t, hinsert, hrep, -⟩ := h.insert value
      obtain rfl := Option.some.inj (hinsert.symm.trans happly)
      rw [insert_eq_flush s value h.buffer_lt] at hinsert
      split at hinsert
      · next hfull =>
          -- the buffer is full
          obtain ⟨sample', hflush, -⟩ :=
            flush_spec { s with buffer_ := s.buffer_ ++ [value] } h.sample.sorted
          have hflushed := hkept { s with buffer_ := s.buffer_ ++ [value] } _ _ rfl h.sample
            (hcond hfull) hrel hinsert
          obtain rfl := Option.some.inj (hflush.symm.trans hinsert)
          rw [received, hrep.take_of_flushed rfl]
          rwa [← List.append_assoc, ← h.split] at hflushed
      · obtain rfl := Option.some.inj hinsert
        have hcount : s.count_ ≤ data.length := by
          have := h.count_add
          omega
        rwa [received, List.take_append_of_le_length hcount]
  | get q =>
      obtain ⟨t, hflush, hrep, -, -, hempty, -⟩ := h.flush
      simp only [CKMSQuantiles.apply, get_eq_flush, hflush, Option.map_some, Option.bind_eq_bind,
        Option.bind_some] at happly
      obtain rfl := Option.some.inj happly
      have hflushed := hkept _ _ _ rfl h.sample hcond hrel hflush
      rw [received, hrep.take_of_flushed hempty]
      rwa [← h.split] at hflushed
  | reset =>
      obtain rfl := Option.some.inj happly
      exact hnil

/-- Every flush of the calls meets the condition. -/
def Meets (cond : CKMSQuantiles α → Prop) : CKMSQuantiles α → List (Op α) → Prop
  | _, [] => True
  | s, op :: ops => OnFlush cond s op ∧ ∀ s' ∈ s.apply op, Meets cond s' ops

instance decidableMeets (cond : CKMSQuantiles α → Prop) [DecidablePred cond] :
    ∀ (s : CKMSQuantiles α) (ops : List (Op α)), Decidable (Meets cond s ops)
  | _, [] => .isTrue trivial
  | s, op :: ops =>
      have (s' : CKMSQuantiles α) : Decidable (Meets cond s' ops) := decidableMeets cond s' ops
      inferInstanceAs (Decidable (_ ∧ ∀ s' ∈ s.apply op, Meets cond s' ops))

/-- A run whose flushes since the last reset all meet the condition. -/
inductive SinceReset (quantiles_ : List Quantile) (cond : CKMSQuantiles α → Prop) :
    List (Op α) → CKMSQuantiles α → Prop
  | new : SinceReset quantiles_ cond [] (new quantiles_)
  | step {ops : List (Op α)} {s s' : CKMSQuantiles α} {op : Op α}
      (h : SinceReset quantiles_ cond ops s) (hcond : OnFlush cond s op)
      (happly : s.apply op = some s') : SinceReset quantiles_ cond (ops ++ [op]) s'
  | reset {ops : List (Op α)} {s : CKMSQuantiles α} (hrun : run (new quantiles_) ops = some s) :
      SinceReset quantiles_ cond (ops ++ [.reset]) s.reset

namespace SinceReset

variable {quantiles_ : List Quantile} {cond : CKMSQuantiles α → Prop} {ops : List (Op α)}
  {s : CKMSQuantiles α}

theorem run (h : SinceReset quantiles_ cond ops s) :
    CKMSQuantiles.run (CKMSQuantiles.new quantiles_) ops = some s := by
  induction h with
  | new => rfl
  | step _ _ happly ih => rw [run_snoc, ih, Option.bind_some, happly]
  | reset hrun => rw [run_snoc, hrun, Option.bind_some, apply]

theorem imp {cond' : CKMSQuantiles α → Prop} (himp : ∀ s, cond s → cond' s)
    (h : SinceReset quantiles_ cond ops s) : SinceReset quantiles_ cond' ops s := by
  induction h with
  | new => exact .new
  | step _ hcond happly ih => exact ih.step (hcond.imp himp) happly
  | reset hrun => exact .reset hrun

/-- A run from a fresh sketch whose flushes all meet the condition. -/
theorem of_meets (hmeets : Meets cond (CKMSQuantiles.new quantiles_) ops)
    (hrun : CKMSQuantiles.run (CKMSQuantiles.new quantiles_) ops = some s) :
    SinceReset quantiles_ cond ops s := by
  have hfrom : ∀ (rest earlier : List (Op α)) (s₀ : CKMSQuantiles α),
      SinceReset quantiles_ cond earlier s₀ → Meets cond s₀ rest → s₀.run rest = some s →
        SinceReset quantiles_ cond (earlier ++ rest) s := by
    intro rest
    induction rest with
    | nil =>
        intro earlier s₀ h _ hrest
        obtain rfl := Option.some.inj hrest
        rwa [List.append_nil]
    | cons op rest ih =>
        intro earlier s₀ h hmeets hrest
        rw [CKMSQuantiles.run, List.foldlM_cons] at hrest
        obtain ⟨s₁, happly, hrest⟩ := Option.bind_eq_some_iff.mp hrest
        have hlater := ih _ s₁ (h.step hmeets.1 happly) (hmeets.2 s₁ happly) hrest
        rwa [List.append_assoc] at hlater
  exact hfrom ops [] _ .new hmeets hrun

/-- What a flush that meets the condition keeps holds at the end of the run. -/
theorem kept (h : SinceReset quantiles_ cond ops s) {rel : List (Item α) → List α → Prop}
    (hnil : rel [] []) (hkept : KeptByFlush quantiles_ cond rel) :
    rel s.sample_ ((inserted ops).take s.count_) := by
  induction h with
  | new => exact hnil
  | @step ops s s' op h hcond happly ih =>
      obtain ⟨hrep, htargets⟩ := represents_of_run h.run
      rw [inserted_snoc]
      exact hrep.apply_kept hnil (htargets ▸ hkept) ih hcond happly
  | reset hrun =>
      rw [inserted_snoc]
      exact hnil

end SinceReset

/-- The values `3` and `1`, each flushed by a read. -/
def twoReads : List (Op ℚ) := [.insert 3, .get (1 / 2), .insert 1, .get (1 / 2)]

end Promcore.CKMSQuantiles
