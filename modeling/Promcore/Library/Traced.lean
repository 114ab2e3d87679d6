import Promcore.Library.LabelledSteps

/-!
# Computations that leave a trace

A computation gives a value or fails, and leaves the list of what it did, in
order. Erasing the trace gives a plain fallible computation. What was done can
be read as the labels of a run of a machine, composed along `bind`.
-/

/-- A fallible computation with the list of what it did. -/
structure Traced (ε α : Type) where
  value : Option α
  trace : List ε

namespace Traced

variable {ε α β : Type}

instance : Monad (Traced ε) where
  pure a := ⟨some a, []⟩
  bind x f := ⟨x.value.bind fun a => (f a).value,
    x.trace ++ x.value.elim [] fun a => (f a).trace⟩

/-- Do one thing. -/
def act (e : ε) : Traced ε Unit := ⟨some (), [e]⟩

/-- Do one thing that may fail. -/
def attempt (e : ε) (value : Option α) : Traced ε α := ⟨value, [e]⟩

@[simp] theorem value_pure (a : α) : (pure a : Traced ε α).value = some a := rfl

@[simp] theorem value_act (e : ε) : (act e).value = some () := rfl

@[simp] theorem value_attempt (e : ε) (value : Option α) : (attempt e value).value = value := rfl

@[simp] theorem value_bind (x : Traced ε α) (f : α → Traced ε β) :
    (x >>= f).value = x.value.bind fun a => (f a).value := rfl

/-- Erasing the trace commutes with a loop. -/
theorem value_foldlM {σ o : Type} (step : σ → o → Traced ε σ) (ops : List o) (s : σ) :
    (ops.foldlM step s).value = ops.foldlM (fun s a => (step s a).value) s := by
  induction ops generalizing s with
  | nil => rfl
  | cons a ops ih => simp [List.foldlM_cons, ih]

/-- What the last operation of a run does comes after the rest. -/
theorem trace_foldlM_snoc {σ o : Type} {step : σ → o → Traced ε σ} {ops : List o} {s t : σ}
    (h : (ops.foldlM step s).value = some t) (a : o) :
    ((ops ++ [a]).foldlM step s).trace = (ops.foldlM step s).trace ++ (step t a).trace := by
  induction ops generalizing s with
  | nil =>
      obtain rfl := Option.some.inj h
      change (step s a).trace ++ _ = _
      cases hvalue : (step s a).value <;> simp [pure]
  | cons b ops ih =>
      rw [List.foldlM_cons, value_bind, Option.bind_eq_some_iff] at h
      obtain ⟨u, hstep, hrest⟩ := h
      change (step s b).trace ++ _ = ((step s b).trace ++ _) ++ _
      rw [hstep, List.append_assoc]
      exact congrArg ((step s b).trace ++ ·) (ih hrest)

theorem trace_bind {x : Traced ε α} {a : α} (h : x.value = some a) (f : α → Traced ε β) :
    (x >>= f).trace = x.trace ++ (f a).trace := by
  change x.trace ++ x.value.elim [] (fun a => (f a).trace) = _
  rw [h]
  rfl

section Runs

open LabelledSteps

variable {σ : Type} {step : σ → Option ε → σ → Prop} {s t u : σ}

/-- The computation gives `a`, and what it does takes the machine from `s` to
`t`. -/
structure Runs (step : σ → Option ε → σ → Prop) (x : Traced ε α) (s : σ) (a : α) (t : σ) :
    Prop where
  value_eq : x.value = some a
  steps : Steps step s x.trace t

namespace Runs

variable {x : Traced ε α} {a : α} {b : β} {e : ε}

protected theorem pure (a : α) (s : σ) : Runs step (pure a) s a s := ⟨rfl, .refl s⟩

protected theorem act (h : step s (some e) t) : Runs step (act e) s () t :=
  ⟨rfl, .shown h (.refl t)⟩

protected theorem attempt {value : Option α} (hvalue : value = some a) (h : step s (some e) t) :
    Runs step (attempt e value) s a t := ⟨hvalue, .shown h (.refl t)⟩

protected theorem bind {f : α → Traced ε β} (h : Runs step x s a t)
    (hf : Runs step (f a) t b u) : Runs step (x >>= f) s b u where
  value_eq := by rw [value_bind, h.value_eq, Option.bind_some, hf.value_eq]
  steps := trace_bind h.value_eq f ▸ h.steps.trans hf.steps

end Runs

end Runs

end Traced
