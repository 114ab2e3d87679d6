import Promcore.Metrics.Interleaving

/-!
# The two builds of a change

Where the compiler has `fetch_add` for the type, a change is one atomic step;
elsewhere it is the loop around a weak compare-and-exchange. Callers cannot
tell which: the same calls can take effect in the same order, and leave the
same value in the cell.
-/

namespace Promcore.GaugeType

open LabelledSteps

variable {TYPE : Type} [Arithmetic TYPE] {θ : Type} [DecidableEq θ]

/-- One atomic step of a thread in the build with `fetch_add`, labelled with the
call that it completes. -/
inductive FetchStep : Shared θ TYPE → Option (θ × Call TYPE) → Shared θ TYPE → Prop
  | store {s : Shared θ TYPE} {t : θ} {call : Call TYPE} {calls : List (Call TYPE)} {value : TYPE}
      (hcalls : (s.threads t).calls = call :: calls) (hrequest : call.request = .store value) :
      FetchStep s (some (t, call)) { s.withThread t ⟨none, calls⟩ with value_ := value }
  | fetch_add {s : Shared θ TYPE} {t : θ} {call : Call TYPE} {calls : List (Call TYPE)}
      {value : TYPE} (hcalls : (s.threads t).calls = call :: calls)
      (hrequest : call.request = .change value) :
      FetchStep s (some (t, call))
        { s.withThread t ⟨none, calls⟩ with value_ := Arithmetic.add s.value_ value }

/-- The same value in the cell, and the same calls still to be made. -/
structure Alike (s s' : Shared θ TYPE) : Prop where
  value : s'.value_ = s.value_
  calls : ∀ t, (s'.threads t).calls = (s.threads t).calls

section Alike

variable {s s' u u' : Shared θ TYPE} {t : θ} {call : Call TYPE} {calls : List (Call TYPE)}

omit [Arithmetic TYPE] [DecidableEq θ] in
theorem Alike.symm (h : Alike s s') : Alike s' s :=
  ⟨h.value.symm, fun t => (h.calls t).symm⟩

omit [Arithmetic TYPE] [DecidableEq θ] in
theorem Alike.trans (h : Alike s s') (h' : Alike s' u) : Alike s u :=
  ⟨h'.value.trans h.value, fun t => (h'.calls t).trans (h.calls t)⟩

omit [Arithmetic TYPE] in
/-- Both complete a call of the same thread with the same value. -/
theorem Alike.completed (h : Alike s u) (value : TYPE) :
    Alike { s.withThread t ⟨none, calls⟩ with value_ := value }
      { u.withThread t ⟨none, calls⟩ with value_ := value } where
  value := rfl
  calls v := by
    by_cases hv : v = t
    · subst hv
      simp [Shared.withThread]
    · simp [Shared.withThread, hv, h.calls v]

omit [Arithmetic TYPE] in
/-- What a thread holds in `current` is of no account. -/
theorem alike_withCurrent {current : Option TYPE} (hcalls : (s.threads t).calls = calls) :
    Alike s (s.withThread t ⟨current, calls⟩) where
  value := rfl
  calls v := by
    by_cases hv : v = t
    · subst hv
      simp [Shared.withThread, hcalls]
    · simp [Shared.withThread, hv]

/-- A change can always load the cell, for the first time or again. -/
theorem exists_load {value : TYPE} (hcalls : (s.threads t).calls = call :: calls)
    (hrequest : call.request = .change value) :
    Step s none (s.withThread t ⟨some s.value_, call :: calls⟩) := by
  cases hcurrent : (s.threads t).current with
  | none => exact .load hcalls hrequest hcurrent
  | some current => exact .reload hcalls hrequest hcurrent

/-- The loop takes a step that is a `fetch_add` or leaves all as it was. -/
theorem Step.fetched {shown : Option (θ × Call TYPE)} (hstep : Step s shown s')
    (u : Shared θ TYPE) (h : Alike s u) :
    ∃ u', Steps FetchStep u shown.toList u' ∧ Alike s' u' := by
  cases hstep with
  | store hcalls hrequest =>
      exact ⟨_, .shown (.store ((h.calls _).trans hcalls) hrequest) (.refl _), h.completed _⟩
  | load hcalls _ _ => exact ⟨u, .refl u, (alike_withCurrent hcalls).symm.trans h⟩
  | reload hcalls _ _ => exact ⟨u, .refl u, (alike_withCurrent hcalls).symm.trans h⟩
  | exchange hcalls hrequest _ hequal =>
      -- the cell is still what was loaded, so the sum is that of the cell
      rw [← hequal, ← h.value]
      exact ⟨_, .shown (.fetch_add ((h.calls _).trans hcalls) hrequest) (.refl _), h.completed _⟩

/-- A `fetch_add` is a load and an exchange that succeeds at once. -/
theorem FetchStep.looped {shown : Option (θ × Call TYPE)} (hstep : FetchStep s shown s')
    (u : Shared θ TYPE) (h : Alike s u) :
    ∃ u', Steps Step u shown.toList u' ∧ Alike s' u' := by
  cases hstep with
  | store hcalls hrequest =>
      exact ⟨_, .shown (.store ((h.calls _).trans hcalls) hrequest) (.refl _), h.completed _⟩
  | @fetch_add t call calls value hcalls hrequest =>
      have hcalls' := (h.calls t).trans hcalls
      have hloaded : (u.withThread t ⟨some u.value_, call :: calls⟩).threads t =
          ⟨some u.value_, call :: calls⟩ := Function.update_self ..
      have hexchange := Step.exchange (congrArg Thread.calls hloaded) hrequest
        (congrArg Thread.current hloaded) rfl
      rw [← h.value]
      exact ⟨_, .silent (exists_load hcalls' hrequest) (.shown hexchange (.refl _)),
        (h.trans (alike_withCurrent hcalls')).completed _⟩

end Alike

/-- From any start, the build with `fetch_add` and the loop let the same calls
take effect in the same order, leave the same value, and have the same calls
still to be made. -/
theorem builds_agree (start : Shared θ TYPE) (completed : List (θ × Call TYPE)) (value : TYPE)
    (calls : θ → List (Call TYPE)) :
    (∃ s, Steps FetchStep start completed s ∧ s.value_ = value ∧
        ∀ t, (s.threads t).calls = calls t) ↔
      ∃ s, Steps Step start completed s ∧ s.value_ = value ∧
        ∀ t, (s.threads t).calls = calls t := by
  have hstart : Alike start start := ⟨rfl, fun _ => rfl⟩
  constructor
  · rintro ⟨s, hs, rfl, hcalls⟩
    obtain ⟨s', hs', h⟩ := hs.simulated (fun _ _ _ hstep => hstep.looped) hstart
    exact ⟨s', hs', h.value, fun t => (h.calls t).trans (hcalls t)⟩
  · rintro ⟨s, hs, rfl, hcalls⟩
    obtain ⟨s', hs', h⟩ := hs.simulated (fun _ _ _ hstep => hstep.fetched) hstart
    exact ⟨s', hs', h.value, fun t => (h.calls t).trans (hcalls t)⟩

end Promcore.GaugeType
