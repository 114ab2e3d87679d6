import Mathlib.Data.List.Induction
import Mathlib.Logic.Function.Basic
import Promcore.Library.LabelledSteps

/-!
# Calls on an object under one lock

A call first looks at what never changes of the object. It is then answered at
once, or goes on to a critical section, which runs in small steps while the
thread holds the lock of the object. However the threads interleave, the
object changes and the results are given as if the calls had been made one
after the other, in the order in which they end.
-/

namespace CriticalSections

variable {σ ι κ ρ θ : Type*}

/-- How calls `ι` run on an object `σ`: `κ` are the positions in a critical
section and `ρ` the results. -/
structure Machine (σ ι κ ρ : Type*) where
  /-- Before the lock is taken: a result, or where the section starts. -/
  prelude : ι → σ → ρ ⊕ κ
  /-- One step of the section of the thread that holds the lock. -/
  work : σ → κ → σ → κ → Prop
  /-- The result, at the end of a section. -/
  result : κ → Option ρ

/-- Where a thread is in its first call. -/
inductive Phase (κ : Type*) where
  | outside
  | ready (k : κ)
  | inside (k : κ)

/-- A thread, with the calls that it has not finished. -/
structure Thread (ι κ : Type*) where
  phase : Phase κ
  calls : List ι

/-- The object, the thread that holds its lock, and the threads. -/
structure Shared (θ σ ι κ : Type*) where
  object : σ
  lock : Option θ
  threads : θ → Thread ι κ

/-- Nobody holds the lock or is in a call. -/
structure Shared.Idle (s : Shared θ σ ι κ) : Prop where
  lock : s.lock = none
  threads : ∀ t, (s.threads t).phase = .outside

variable [DecidableEq θ]

def Shared.withThread (s : Shared θ σ ι κ) (t : θ) (thread : Thread ι κ) : Shared θ σ ι κ :=
  { s with threads := Function.update s.threads t thread }

variable (M : Machine σ ι κ ρ)

/-- One step of a thread, labelled with the call that it ends and the result. -/
inductive Step : Shared θ σ ι κ → Option (θ × ι × ρ) → Shared θ σ ι κ → Prop
  | answer {s : Shared θ σ ι κ} {t : θ} {call : ι} {calls : List ι} {r : ρ}
      (hthread : s.threads t = ⟨.outside, call :: calls⟩)
      (hprelude : M.prelude call s.object = .inl r) :
      Step s (some (t, call, r)) (s.withThread t ⟨.outside, calls⟩)
  | prepare {s : Shared θ σ ι κ} {t : θ} {call : ι} {calls : List ι} {k : κ}
      (hthread : s.threads t = ⟨.outside, call :: calls⟩)
      (hprelude : M.prelude call s.object = .inr k) :
      Step s none (s.withThread t ⟨.ready k, call :: calls⟩)
  | acquire {s : Shared θ σ ι κ} {t : θ} {calls : List ι} {k : κ}
      (hthread : s.threads t = ⟨.ready k, calls⟩) (hlock : s.lock = none) :
      Step s none { s.withThread t ⟨.inside k, calls⟩ with lock := some t }
  | work {s : Shared θ σ ι κ} {t : θ} {calls : List ι} {k k' : κ} {object : σ}
      (hthread : s.threads t = ⟨.inside k, calls⟩) (hwork : M.work s.object k object k') :
      Step s none { s.withThread t ⟨.inside k', calls⟩ with object }
  | release {s : Shared θ σ ι κ} {t : θ} {call : ι} {calls : List ι} {k : κ} {r : ρ}
      (hthread : s.threads t = ⟨.inside k, call :: calls⟩) (hresult : M.result k = some r) :
      Step s (some (t, call, r)) { s.withThread t ⟨.outside, calls⟩ with lock := none }

/-- The calls of one thread among the ended ones, in order. -/
def callsOf (t : θ) (ended : List (θ × ι × ρ)) : List ι :=
  ended.filterMap fun c => if c.1 = t then some c.2.1 else none

theorem callsOf_snoc (t u : θ) (call : ι) (r : ρ) (ended : List (θ × ι × ρ)) :
    callsOf t (ended ++ [(u, call, r)]) =
      if u = t then callsOf t ended ++ [call] else callsOf t ended := by
  rw [callsOf, List.filterMap_append]
  split <;> simp [callsOf, *]

/-- `finish` says what a section makes of the object from any position on: no
step of the section changes that, or what preludes look at. -/
structure Machine.Finishes (finish : κ → σ → Option (ρ × σ)) : Prop where
  work : ∀ {s k s' k'}, M.work s k s' k' → finish k' s' = finish k s
  prelude : ∀ {s k s' k'}, M.work s k s' k' → ∀ call, M.prelude call s' = M.prelude call s
  result : ∀ {s k r}, M.result k = some r → finish k s = some (r, s)

/-- A whole call that nothing interrupts: its result, and the object after it. -/
def Machine.effect (finish : κ → σ → Option (ρ × σ)) (call : ι) (s : σ) : Option (ρ × σ) :=
  (M.prelude call s).elim (fun r => some (r, s)) fun k => finish k s

/-- The calls that ended, one after the other and with these results. -/
inductive Serial (effect : ι → σ → Option (ρ × σ)) (start : σ) : List (θ × ι × ρ) → σ → Prop
  | nil : Serial effect start [] start
  | snoc {ended : List (θ × ι × ρ)} {s s' : σ} {t : θ} {call : ι} {r : ρ}
      (h : Serial effect start ended s) (hcall : effect call s = some (r, s')) :
      Serial effect start (ended ++ [(t, call, r)]) s'

variable {M} {finish : κ → σ → Option (ρ × σ)}

/-- Where a thread can stand when the calls that ended have left the object as
`base`; `mine` says that the thread holds the lock. -/
inductive Stands (M : Machine σ ι κ ρ) (finish : κ → σ → Option (ρ × σ)) (base object : σ)
    (mine : Prop) : Thread ι κ → Prop
  | outside {calls : List ι} (hmine : ¬ mine) : Stands M finish base object mine ⟨.outside, calls⟩
  | ready {call : ι} {calls : List ι} {k : κ} (hmine : ¬ mine)
      (hprelude : M.prelude call base = .inr k) :
      Stands M finish base object mine ⟨.ready k, call :: calls⟩
  | inside {call : ι} {calls : List ι} {k : κ} (hmine : mine)
      (heffect : M.effect finish call base = finish k object) :
      Stands M finish base object mine ⟨.inside k, call :: calls⟩

/-- A thread without the lock does not see what the others do. -/
theorem Stands.elsewhere {base base' object object' : σ} {mine mine' : Prop}
    {thread : Thread ι κ} (h : Stands M finish base object mine thread) (hmine : ¬ mine)
    (hmine' : ¬ mine') (hprelude : ∀ call, M.prelude call base' = M.prelude call base) :
    Stands M finish base' object' mine' thread := by
  cases h with
  | outside _ => exact .outside hmine'
  | ready _ hready => exact .ready hmine' ((hprelude _).trans hready)
  | inside hheld _ => exact absurd hheld hmine

/-- What holds in every state: `base` is the object as the calls that ended have
left it. -/
structure Ordered (M : Machine σ ι κ ρ) (finish : κ → σ → Option (ρ × σ))
    (start s : Shared θ σ ι κ) (ended : List (θ × ι × ρ)) (base : σ) : Prop where
  serial : Serial (M.effect finish) start.object ended base
  prelude : ∀ call, M.prelude call s.object = M.prelude call base
  free : s.lock = none → s.object = base
  threads : ∀ t, Stands M finish base s.object (s.lock = some t) (s.threads t)
  calls : ∀ t, callsOf t ended ++ (s.threads t).calls = (start.threads t).calls

section Steps

variable {start s s' : Shared θ σ ι κ} {ended : List (θ × ι × ρ)} {base : σ} {t : θ} {call : ι}
  {calls : List ι} {k : κ} {r : ρ}

theorem Ordered.of_idle (hidle : start.Idle) : Ordered M finish start start [] start.object where
  serial := .nil
  prelude _ := rfl
  free _ := rfl
  threads t := by
    have hphase := hidle.threads t
    generalize start.threads t = thread at hphase
    cases thread
    cases hphase
    exact .outside (by simp [hidle.lock])
  calls _ := rfl

/-- A thread inside its section holds the lock, so no two threads are inside. -/
theorem Ordered.holds (h : Ordered M finish start s ended base)
    (hthread : s.threads t = ⟨.inside k, calls⟩) : s.lock = some t := by
  have hstands := h.threads t
  rw [hthread] at hstands
  cases hstands
  assumption

/-- The threads exclude each other. -/
theorem Ordered.inside_unique (h : Ordered M finish start s ended base) {u : θ} {k' : κ}
    {calls' : List ι} (ht : s.threads t = ⟨.inside k, calls⟩)
    (hu : s.threads u = ⟨.inside k', calls'⟩) : t = u :=
  Option.some.inj ((h.holds ht).symm.trans (h.holds hu))

/-- One thread is replaced, and the others are as they were. -/
theorem forall_withThread {P : θ → Thread ι κ → Prop} {thread : Thread ι κ} (ht : P t thread)
    (hothers : ∀ u, u ≠ t → P u (s.threads u)) (u : θ) :
    P u ((s.withThread t thread).threads u) := by
  by_cases hu : u = t
  · subst hu
    simpa [Shared.withThread] using ht
  · simpa [Shared.withThread, hu] using hothers u hu

theorem Ordered.calls_ended (h : Ordered M finish start s ended base)
    (hcalls : (s.threads t).calls = call :: calls) (phase : Phase κ) (u : θ) :
    callsOf u (ended ++ [(t, call, r)]) ++ ((s.withThread t ⟨phase, calls⟩).threads u).calls =
      (start.threads u).calls := by
  apply forall_withThread (P := fun u thread =>
    callsOf u (ended ++ [(t, call, r)]) ++ thread.calls = (start.threads u).calls)
  · rw [callsOf_snoc, if_pos rfl, List.append_assoc, List.singleton_append, ← hcalls, h.calls]
  · intro u hu
    rw [callsOf_snoc, if_neg (Ne.symm hu), h.calls]

theorem Ordered.calls_kept (h : Ordered M finish start s ended base)
    (hcalls : (s.threads t).calls = calls) (phase : Phase κ) (u : θ) :
    callsOf u ended ++ ((s.withThread t ⟨phase, calls⟩).threads u).calls =
      (start.threads u).calls := by
  apply forall_withThread (P := fun u thread =>
    callsOf u ended ++ thread.calls = (start.threads u).calls)
  · rw [← hcalls, h.calls]
  · exact fun u _ => h.calls u

/-- A thread outside its section does not hold the lock. -/
theorem Ordered.not_holds (h : Ordered M finish start s ended base)
    (hthread : s.threads t = ⟨.outside, calls⟩) : s.lock ≠ some t := by
  have hstands := h.threads t
  rw [hthread] at hstands
  cases hstands
  assumption

/-- A call that is answered before its section leaves the object alone. -/
theorem Ordered.answer (h : Ordered M finish start s ended base)
    (hthread : s.threads t = ⟨.outside, call :: calls⟩)
    (hprelude : M.prelude call s.object = .inl r) :
    Ordered M finish start (s.withThread t ⟨.outside, calls⟩) (ended ++ [(t, call, r)]) base where
  serial := h.serial.snoc (by rw [Machine.effect, ← h.prelude, hprelude]; rfl)
  prelude := h.prelude
  free := h.free
  threads := forall_withThread
    (P := fun u => Stands M finish base s.object (s.lock = some u))
    (.outside (h.not_holds hthread)) fun u _ => h.threads u
  calls := h.calls_ended (by rw [hthread]) _

theorem Ordered.prepare (h : Ordered M finish start s ended base)
    (hthread : s.threads t = ⟨.outside, call :: calls⟩)
    (hprelude : M.prelude call s.object = .inr k) :
    Ordered M finish start (s.withThread t ⟨.ready k, call :: calls⟩) ended base where
  serial := h.serial
  prelude := h.prelude
  free := h.free
  threads := forall_withThread
    (P := fun u => Stands M finish base s.object (s.lock = some u))
    (.ready (h.not_holds hthread) (h.prelude call ▸ hprelude)) fun u _ => h.threads u
  calls := h.calls_kept (by rw [hthread]) _

/-- The lock is free, so the object is as the calls that ended have left it. -/
theorem Ordered.acquire (h : Ordered M finish start s ended base)
    (hthread : s.threads t = ⟨.ready k, calls⟩) (hlock : s.lock = none) :
    Ordered M finish start { s.withThread t ⟨.inside k, calls⟩ with lock := some t } ended base where
  serial := h.serial
  prelude := h.prelude
  free hfree := by cases hfree
  threads := by
    apply forall_withThread (P := fun u => Stands M finish base s.object (some t = some u))
    · have hstands := h.threads t
      rw [hthread] at hstands
      cases hstands with
      | ready _ hprelude =>
          refine .inside rfl ?_
          rw [Machine.effect, hprelude, h.free hlock]
          rfl
    · intro u hu
      exact (h.threads u).elsewhere (by simp [hlock]) (by simpa using Ne.symm hu) fun _ => rfl
  calls := h.calls_kept (by rw [hthread]) _

/-- A step inside the section keeps what the whole call comes to. -/
theorem Ordered.work (hM : M.Finishes finish) (h : Ordered M finish start s ended base)
    {k' : κ} {object : σ} (hthread : s.threads t = ⟨.inside k, calls⟩)
    (hwork : M.work s.object k object k') :
    Ordered M finish start { s.withThread t ⟨.inside k', calls⟩ with object } ended base where
  serial := h.serial
  prelude call := (hM.prelude hwork call).trans (h.prelude call)
  free hfree := absurd ((h.holds hthread).symm.trans hfree) (Option.some_ne_none t)
  threads := by
    apply forall_withThread (P := fun u => Stands M finish base object (s.lock = some u))
    · have hstands := h.threads t
      rw [hthread] at hstands
      cases hstands with
      | inside hmine heffect => exact .inside hmine (heffect.trans (hM.work hwork).symm)
    · intro u hu
      have hother : s.lock ≠ some u := by simpa [h.holds hthread] using Ne.symm hu
      exact (h.threads u).elsewhere hother hother fun _ => rfl
  calls := h.calls_kept (by rw [hthread]) _

/-- The section has made of the object what the whole call makes of it. -/
theorem Ordered.release (hM : M.Finishes finish) (h : Ordered M finish start s ended base)
    (hthread : s.threads t = ⟨.inside k, call :: calls⟩) (hresult : M.result k = some r) :
    Ordered M finish start { s.withThread t ⟨.outside, calls⟩ with lock := none }
      (ended ++ [(t, call, r)]) s.object where
  serial := by
    have hstands := h.threads t
    rw [hthread] at hstands
    cases hstands with
    | inside _ heffect => exact h.serial.snoc (heffect.trans (hM.result hresult))
  prelude _ := rfl
  free _ := rfl
  threads := by
    apply forall_withThread
      (P := fun u => Stands M finish s.object s.object ((none : Option θ) = some u))
    · exact .outside (Option.some_ne_none t).symm
    · intro u hu
      have hother : s.lock ≠ some u := by simpa [h.holds hthread] using Ne.symm hu
      exact (h.threads u).elsewhere hother (Option.some_ne_none u).symm h.prelude
  calls := h.calls_ended (by rw [hthread]) _

theorem Ordered.shown (hM : M.Finishes finish) {c : θ × ι × ρ}
    (h : Ordered M finish start s ended base) (hstep : Step M s (some c) s') :
    ∃ base, Ordered M finish start s' (ended ++ [c]) base := by
  cases hstep with
  | answer hthread hprelude => exact ⟨base, h.answer hthread hprelude⟩
  | release hthread hresult => exact ⟨_, h.release hM hthread hresult⟩

theorem Ordered.silent (hM : M.Finishes finish) (h : Ordered M finish start s ended base)
    (hstep : Step M s none s') : Ordered M finish start s' ended base := by
  cases hstep with
  | prepare hthread hprelude => exact h.prepare hthread hprelude
  | acquire hthread hlock => exact h.acquire hthread hlock
  | work hthread hwork => exact h.work hM hthread hwork

/-- In every interleaving the calls that ended, in this order and one after the
other, have these results and leave the object as it is when the lock is free. -/
theorem ordered (hM : M.Finishes finish) (hidle : start.Idle)
    (h : LabelledSteps.Steps (Step M) start ended s) :
    ∃ base, Ordered M finish start s ended base := by
  have hrun := h.invariant (P := fun s seen => ∃ base, Ordered M finish start s seen.reverse base)
    (fun s c s' seen hstep hs => by
      obtain ⟨base, hs⟩ := hs
      simpa using hs.shown hM hstep)
    (fun s s' seen hstep hs => by
      obtain ⟨base, hs⟩ := hs
      exact ⟨base, hs.silent hM hstep⟩) [] ⟨_, .of_idle hidle⟩
  simpa using hrun

end Steps

section Serial

variable {effect : ι → σ → Option (ρ × σ)} {start s : σ}

omit [DecidableEq θ] in
/-- Each call has the result that it has after those that ended before it. -/
theorem Serial.split {before after : List (θ × ι × ρ)} {t : θ} {call : ι} {r : ρ}
    (h : Serial effect start (before ++ (t, call, r) :: after) s) :
    ∃ s₁ s₂, Serial effect start before s₁ ∧ effect call s₁ = some (r, s₂) := by
  induction after using List.reverseRecOn generalizing s with
  | nil =>
      generalize hended : before ++ [(t, call, r)] = ended at h
      cases h with
      | nil => simp at hended
      | snoc hbefore hcall =>
          obtain ⟨rfl, heq⟩ := List.append_inj' hended rfl
          cases heq
          exact ⟨_, _, hbefore, hcall⟩
  | append_singleton after c ih =>
      generalize hended : before ++ (t, call, r) :: (after ++ [c]) = ended at h
      cases h with
      | nil => simp at hended
      | snoc hbefore hcall =>
          rw [← List.cons_append, ← List.append_assoc] at hended
          obtain ⟨rfl, -⟩ := List.append_inj' hended rfl
          exact ih hbefore

omit [DecidableEq θ] in
/-- Calls that always come to an end leave what they make of the object, one
after the other. -/
theorem Serial.foldl_eq {whole : ι → σ → ρ × σ}
    (hwhole : ∀ call s, effect call s = some (whole call s)) {ended : List (θ × ι × ρ)}
    (h : Serial effect start ended s) :
    s = (ended.map fun c => c.2.1).foldl (fun s call => (whole call s).2) start := by
  induction h with
  | nil => rfl
  | snoc _ hcall ih =>
      rw [hwhole, ih] at hcall
      rw [List.map_append, List.foldl_append]
      exact (congrArg Prod.snd (Option.some.inj hcall)).symm

omit [DecidableEq θ] in
theorem Serial.result_eq {whole : ι → σ → ρ × σ}
    (hwhole : ∀ call s, effect call s = some (whole call s)) {before after : List (θ × ι × ρ)}
    {t : θ} {call : ι} {r : ρ} (h : Serial effect start (before ++ (t, call, r) :: after) s) :
    r = (whole call
      ((before.map fun c => c.2.1).foldl (fun s call => (whole call s).2) start)).1 := by
  obtain ⟨s₁, s₂, hbefore, hcall⟩ := h.split
  rw [hwhole, hbefore.foldl_eq hwhole] at hcall
  exact (congrArg Prod.fst (Option.some.inj hcall)).symm

end Serial

end CriticalSections
