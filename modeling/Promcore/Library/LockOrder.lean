import Mathlib.Data.DFinsupp.WellFounded
import Mathlib.Data.Set.Finite.Lemmas
import Mathlib.Logic.Relation
import Mathlib.SetTheory.Ordinal.Rank

/-!
# Locks taken in order

Threads take and release locks around pieces of code that work on a shared
object. What a piece goes on to do may depend on the object as it finds it.
When every thread takes its locks in increasing order and releases them in the
opposite one, the threads are never all blocked, and every run ends with all
locks free.
-/

namespace LockOrder

variable {σ L ι θ : Type*}

/-- What a thread has still to do. -/
inductive Task (L ι : Type*) where
  | acquire (l : L)
  | run (i : ι)
  | release (l : L)

/-- A body under a lock guard. -/
def guarded (l : L) (body : List (Task L ι)) : List (Task L ι) :=
  .acquire l :: (body ++ [.release l])

/-- The object, who holds which lock, and the tasks of the threads. -/
structure Shared (θ σ L ι : Type*) where
  object : σ
  holder : L → Option θ
  tasks : θ → List (Task L ι)

/-- No lock is held. -/
def Shared.start (object : σ) (tasks : θ → List (Task L ι)) : Shared θ σ L ι :=
  ⟨object, fun _ => none, tasks⟩

section Steps

variable [DecidableEq θ] [DecidableEq L] (code : ι → σ → Option (σ × List (Task L ι)))

/-- One step of a thread. A piece of code changes the object and says what else
there is to do first; it has no result where it never ends. -/
inductive Step : Shared θ σ L ι → Shared θ σ L ι → Prop
  | acquire {s : Shared θ σ L ι} {t : θ} {l : L} {rest : List (Task L ι)}
      (htasks : s.tasks t = .acquire l :: rest) (hfree : s.holder l = none) :
      Step s { s with holder := Function.update s.holder l (some t),
                      tasks := Function.update s.tasks t rest }
  | run {s : Shared θ σ L ι} {t : θ} {i : ι} {rest more : List (Task L ι)} {object : σ}
      (htasks : s.tasks t = .run i :: rest) (hcode : code i s.object = some (object, more)) :
      Step s { s with object, tasks := Function.update s.tasks t (more ++ rest) }
  | release {s : Shared θ σ L ι} {t : θ} {l : L} {rest : List (Task L ι)}
      (htasks : s.tasks t = .release l :: rest) :
      Step s { s with holder := Function.update s.holder l none,
                      tasks := Function.update s.tasks t rest }

end Steps

section Order

variable (code : ι → σ → Option (σ × List (Task L ι))) (rank : L → ℕ) (Inv : σ → Prop)

/-- With the locks `held`, the newest one first, the tasks take locks in
increasing order and release them all, and each piece of code ends on a sound
object and leaves a sound one. -/
inductive WellLocked : List L → List (Task L ι) → Prop
  | nil : WellLocked [] []
  | acquire {held : List L} {l : L} {rest : List (Task L ι)}
      (horder : ∀ l' ∈ held, rank l' < rank l) (h : WellLocked (l :: held) rest) :
      WellLocked held (.acquire l :: rest)
  | run {held : List L} {i : ι} {rest : List (Task L ι)}
      (hends : ∀ s, Inv s → ∃ result, code i s = some result)
      (hkept : ∀ {s s' more}, Inv s → code i s = some (s', more) → Inv s')
      (h : ∀ {s s' more}, Inv s → code i s = some (s', more) → WellLocked held (more ++ rest)) :
      WellLocked held (.run i :: rest)
  | release {held : List L} {l : L} {rest : List (Task L ι)} (h : WellLocked held rest) :
      WellLocked (l :: held) (.release l :: rest)

/-- Tasks that leave the held locks as they find them. -/
def Balanced (held : List L) (body : List (Task L ι)) : Prop :=
  ∀ rest, WellLocked code rank Inv held rest → WellLocked code rank Inv held (body ++ rest)

variable {code rank Inv} {held : List L}

theorem Balanced.nil : Balanced code rank Inv held [] := fun _ h => h

theorem Balanced.append {body body' : List (Task L ι)} (h : Balanced code rank Inv held body)
    (h' : Balanced code rank Inv held body') : Balanced code rank Inv held (body ++ body') := by
  intro rest hrest
  rw [List.append_assoc]
  exact h _ (h' _ hrest)

theorem Balanced.flatMap {α : Type*} {items : List α} {body : α → List (Task L ι)}
    (h : ∀ a ∈ items, Balanced code rank Inv held (body a)) :
    Balanced code rank Inv held (items.flatMap body) := by
  induction items with
  | nil => exact Balanced.nil
  | cons a items ih =>
      exact (h a List.mem_cons_self).append (ih fun b hb => h b (List.mem_cons_of_mem _ hb))

theorem Balanced.guarded {l : L} {body : List (Task L ι)} (horder : ∀ l' ∈ held, rank l' < rank l)
    (h : Balanced code rank Inv (l :: held) body) :
    Balanced code rank Inv held (guarded l body) := by
  intro rest hrest
  have hbody := h _ (.release hrest)
  rw [List.append_cons] at hbody
  exact .acquire horder hbody

theorem Balanced.run {i : ι} (hends : ∀ s, Inv s → ∃ result, code i s = some result)
    (hkept : ∀ {s s' more}, Inv s → code i s = some (s', more) →
      Inv s' ∧ Balanced code rank Inv held more) :
    Balanced code rank Inv held [.run i] := fun rest hrest =>
  .run hends (fun hs hcode => (hkept hs hcode).1) fun hs hcode => (hkept hs hcode).2 rest hrest

theorem Balanced.wellLocked {body : List (Task L ι)} (h : Balanced code rank Inv [] body) :
    WellLocked code rank Inv [] body := by
  simpa using h [] .nil

end Order

section Runs

variable [DecidableEq θ] [DecidableEq L] {code : ι → σ → Option (σ × List (Task L ι))}
  {rank : L → ℕ} {Inv : σ → Prop} {s s' : Shared θ σ L ι} {t : θ}

/-- The locks of a thread. -/
structure Holds (code : ι → σ → Option (σ × List (Task L ι))) (rank : L → ℕ) (Inv : σ → Prop)
    (s : Shared θ σ L ι) (t : θ) (held : List L) : Prop where
  tasks : WellLocked code rank Inv held (s.tasks t)
  nodup : held.Nodup
  holder : ∀ l, s.holder l = some t ↔ l ∈ held

/-- What holds in every state. -/
structure Ordered (code : ι → σ → Option (σ × List (Task L ι))) (rank : L → ℕ) (Inv : σ → Prop)
    (s : Shared θ σ L ι) : Prop where
  object : Inv s.object
  threads : ∀ t, ∃ held, Holds code rank Inv s t held

omit [DecidableEq θ] [DecidableEq L] in
theorem ordered_start {object : σ} {tasks : θ → List (Task L ι)} (hobject : Inv object)
    (h : ∀ t, WellLocked code rank Inv [] (tasks t)) :
    Ordered code rank Inv (Shared.start object tasks) :=
  ⟨hobject, fun t => ⟨[], h t, List.nodup_nil, fun _ => iff_of_false
    (Option.some_ne_none t).symm List.not_mem_nil⟩⟩

theorem Holds.acquire {l : L} {rest : List (Task L ι)} {held : List L}
    (h : Holds code rank Inv s t held) (htasks : s.tasks t = .acquire l :: rest)
    (hfree : s.holder l = none) :
    Holds code rank Inv { s with holder := Function.update s.holder l (some t),
                                 tasks := Function.update s.tasks t rest } t (l :: held) := by
  obtain ⟨hlocked, hnodup, hholder⟩ := h
  rw [htasks] at hlocked
  cases hlocked with
  | acquire _ hrest =>
      have hl : l ∉ held := by
        rw [← hholder, hfree]
        exact (Option.some_ne_none t).symm
      refine ⟨by simpa using hrest, List.nodup_cons.mpr ⟨hl, hnodup⟩, fun l' => ?_⟩
      by_cases hl' : l' = l
      · simp [hl']
      · simp [hl', hholder]

theorem Holds.release {l : L} {rest : List (Task L ι)} {held : List L}
    (h : Holds code rank Inv s t held) (htasks : s.tasks t = .release l :: rest) :
    s.holder l = some t ∧ ∃ held',
      Holds code rank Inv { s with holder := Function.update s.holder l none,
                                   tasks := Function.update s.tasks t rest } t held' := by
  obtain ⟨hlocked, hnodup, hholder⟩ := h
  rw [htasks] at hlocked
  cases hlocked with
  | @release held' _ _ hrest =>
      obtain ⟨hl, hnodup⟩ := List.nodup_cons.mp hnodup
      refine ⟨(hholder l).mpr List.mem_cons_self, held', by simpa using hrest, hnodup,
        fun l' => ?_⟩
      by_cases hl' : l' = l
      · simp [hl', hl]
      · simp [hl', hholder]

omit [DecidableEq θ] [DecidableEq L] in
/-- A thread does not see what the others do with locks it does not hold. -/
theorem Holds.elsewhere {held : List L} (h : Holds code rank Inv s t held)
    (htasks : s'.tasks t = s.tasks t)
    (hholder : ∀ l, s'.holder l = some t ↔ s.holder l = some t) :
    Holds code rank Inv s' t held :=
  ⟨htasks ▸ h.tasks, h.nodup, fun l => (hholder l).trans (h.holder l)⟩

theorem Ordered.step (h : Ordered code rank Inv s) (hstep : Step code s s') :
    Ordered code rank Inv s' := by
  cases hstep with
  | @acquire t l rest htasks hfree =>
      refine ⟨h.object, fun u => ?_⟩
      obtain ⟨held, hheld⟩ := h.threads u
      by_cases hu : u = t
      · subst hu
        exact ⟨_, hheld.acquire htasks hfree⟩
      · refine ⟨held, hheld.elsewhere (Function.update_of_ne hu _ _) fun l' => ?_⟩
        by_cases hl' : l' = l
        · simp [hl', hfree, Ne.symm hu]
        · simp [hl']
  | @run t i rest more object htasks hcode =>
      obtain ⟨held, hheld⟩ := h.threads t
      have hlocked := htasks ▸ hheld.tasks
      cases hlocked with
      | run _ hkept hmore =>
          refine ⟨hkept h.object hcode, fun u => ?_⟩
          by_cases hu : u = t
          · subst hu
            exact ⟨held, by simpa using hmore h.object hcode, hheld.nodup, hheld.holder⟩
          · obtain ⟨held', hheld'⟩ := h.threads u
            exact ⟨held', hheld'.elsewhere (Function.update_of_ne hu _ _) fun _ => Iff.rfl⟩
  | @release t l rest htasks =>
      obtain ⟨held, hheld⟩ := h.threads t
      obtain ⟨hholder, hreleased⟩ := hheld.release htasks
      refine ⟨h.object, fun u => ?_⟩
      by_cases hu : u = t
      · subst hu
        exact hreleased
      · obtain ⟨held', hheld'⟩ := h.threads u
        refine ⟨held', hheld'.elsewhere (Function.update_of_ne hu _ _) fun l' => ?_⟩
        by_cases hl' : l' = l
        · simp [hl', hholder, Ne.symm hu]
        · simp [hl']

theorem Ordered.steps (h : Ordered code rank Inv s)
    (hsteps : Relation.ReflTransGen (Step code) s s') : Ordered code rank Inv s' := by
  induction hsteps with
  | refl => exact h
  | tail _ hstep ih => exact ih.step hstep

omit [DecidableEq θ] [DecidableEq L] in
/-- A thread without tasks has no lock. -/
theorem Holds.eq_nil {held : List L} (h : Holds code rank Inv s t held) (hdone : s.tasks t = []) :
    held = [] := by
  have hlocked := hdone ▸ h.tasks
  cases hlocked
  rfl

/-- A thread that cannot go on waits for a lock that another thread holds and
that comes after all of its own. -/
theorem Ordered.waits (h : Ordered code rank Inv s) (hstuck : ∀ s', ¬ Step code s s')
    (htasks : s.tasks t ≠ []) :
    ∃ l rest u, s.tasks t = .acquire l :: rest ∧ s.holder l = some u ∧
      ∀ l', s.holder l' = some t → rank l' < rank l := by
  obtain ⟨held, hheld⟩ := h.threads t
  obtain ⟨task, rest, htask⟩ := List.exists_cons_of_ne_nil htasks
  cases task with
  | acquire l =>
      cases hholder : s.holder l with
      | none => exact absurd (Step.acquire htask hholder) (hstuck _)
      | some u =>
          refine ⟨l, rest, u, htask, hholder, fun l' hl' => ?_⟩
          have hlocked := htask ▸ hheld.tasks
          cases hlocked with
          | acquire horder _ => exact horder l' ((hheld.holder l').mp hl')
  | run i =>
      have hlocked := htask ▸ hheld.tasks
      cases hlocked with
      | run hends _ _ =>
          obtain ⟨⟨object, more⟩, hcode⟩ := hends s.object h.object
          exact absurd (Step.run htask hcode) (hstuck _)
  | release l => exact absurd (Step.release htask) (hstuck _)

/-- The rank of the lock that a thread waits for. -/
def wanted (rank : L → ℕ) : List (Task L ι) → ℕ
  | .acquire l :: _ => rank l
  | _ => 0

/-- Of the threads that are not done, one that waits for a lock of the highest
rank would wait for a thread that can go on. -/
theorem Ordered.progress [Finite θ] (h : Ordered code rank Inv s) :
    (∀ t, s.tasks t = []) ∨ ∃ s', Step code s s' := by
  by_contra! hnot
  obtain ⟨⟨t₀, ht₀⟩, hstuck⟩ := hnot
  obtain ⟨t, ht, hmax⟩ := Set.exists_max_image {t | s.tasks t ≠ []}
    (fun t => wanted rank (s.tasks t)) (Set.toFinite _) ⟨t₀, ht₀⟩
  obtain ⟨l, rest, u, htask, hholder, -⟩ := h.waits hstuck ht
  have hu : s.tasks u ≠ [] := by
    intro hdone
    obtain ⟨held, hheld⟩ := h.threads u
    have hmem := (hheld.holder l).mp hholder
    rw [hheld.eq_nil hdone] at hmem
    exact List.not_mem_nil hmem
  obtain ⟨l', rest', -, htask', -, horder⟩ := h.waits hstuck hu
  have hle := hmax u hu
  rw [htask, htask'] at hle
  exact absurd (horder l hholder) (Nat.not_lt.mpr hle)

omit [DecidableEq θ] [DecidableEq L] in
/-- When all threads are done, all locks are free. -/
theorem Ordered.free (h : Ordered code rank Inv s) (hdone : ∀ t, s.tasks t = []) (l : L) :
    s.holder l = none := by
  rw [Option.eq_none_iff_forall_ne_some]
  intro t hholder
  obtain ⟨held, hheld⟩ := h.threads t
  have hmem := (hheld.holder l).mp hholder
  rw [hheld.eq_nil (hdone t)] at hmem
  exact List.not_mem_nil hmem

end Runs

section Ends

variable {code : ι → σ → Option (σ × List (Task L ι))} {rank : L → ℕ} {Inv : σ → Prop}

/-- What a step of a thread leaves of its tasks. -/
inductive Next (code : ι → σ → Option (σ × List (Task L ι))) (Inv : σ → Prop) :
    List (Task L ι) → List (Task L ι) → Prop
  | acquire (l : L) (rest : List (Task L ι)) : Next code Inv rest (.acquire l :: rest)
  | run {i : ι} {s s' : σ} {more : List (Task L ι)} (hs : Inv s)
      (hcode : code i s = some (s', more)) (rest : List (Task L ι)) :
      Next code Inv (more ++ rest) (.run i :: rest)
  | release (l : L) (rest : List (Task L ι)) : Next code Inv rest (.release l :: rest)

theorem WellLocked.acc {held : List L} {tasks : List (Task L ι)}
    (h : WellLocked code rank Inv held tasks) : Acc (Next code Inv) tasks := by
  induction h with
  | nil => exact ⟨_, fun rest hnext => by cases hnext⟩
  | acquire _ _ ih =>
      refine ⟨_, fun rest hnext => ?_⟩
      cases hnext
      exact ih
  | run _ _ _ ih =>
      refine ⟨_, fun rest hnext => ?_⟩
      cases hnext with
      | run hs hcode _ => exact ih hs hcode
  | release _ ih =>
      refine ⟨_, fun rest hnext => ?_⟩
      cases hnext
      exact ih

open Classical in
/-- A bound for the steps that a thread has still to take. It is an ordinal, since
a piece of code can go on to any number of tasks. -/
noncomputable def height (code : ι → σ → Option (σ × List (Task L ι))) (Inv : σ → Prop)
    (tasks : List (Task L ι)) : Ordinal :=
  if h : Acc (Next code Inv) tasks then h.rank else 0

theorem height_lt {tasks rest : List (Task L ι)} (h : Acc (Next code Inv) tasks)
    (hnext : Next code Inv rest tasks) : height code Inv rest < height code Inv tasks := by
  rw [height, height, dif_pos h, dif_pos (h.inv hnext)]
  exact h.rank_lt_of_rel hnext

variable [DecidableEq θ] [DecidableEq L] {s s' : Shared θ σ L ι}

theorem Ordered.next (h : Ordered code rank Inv s) (hstep : Step code s s') :
    ∃ t, Next code Inv (s'.tasks t) (s.tasks t) ∧ ∀ u, u ≠ t → s'.tasks u = s.tasks u := by
  cases hstep with
  | @acquire t l rest htasks _ =>
      refine ⟨t, ?_, fun u hu => Function.update_of_ne hu _ _⟩
      simp only [htasks, Function.update_self]
      exact .acquire l rest
  | @run t i rest more object htasks hcode =>
      refine ⟨t, ?_, fun u hu => Function.update_of_ne hu _ _⟩
      simp only [htasks, Function.update_self]
      exact .run h.object hcode rest
  | @release t l rest htasks =>
      refine ⟨t, ?_, fun u hu => Function.update_of_ne hu _ _⟩
      simp only [htasks, Function.update_self]
      exact .release l rest

/-- Each step lowers the bound of one thread and leaves the others' alone. -/
theorem Ordered.heights_lt (h : Ordered code rank Inv s) (hstep : Step code s s') :
    (fun t => height code Inv (s'.tasks t)) < fun t => height code Inv (s.tasks t) := by
  obtain ⟨t, hnext, hothers⟩ := h.next hstep
  obtain ⟨held, hheld⟩ := h.threads t
  have hlt := height_lt hheld.tasks.acc hnext
  refine Pi.lt_def.mpr ⟨fun u => ?_, t, hlt⟩
  by_cases hu : u = t
  · rw [hu]
    exact hlt.le
  · exact (congrArg (height code Inv) (hothers u hu)).le

theorem Ordered.acc [Finite θ] (h : Ordered code rank Inv s) :
    Acc (fun s' s => Step code s s') s := by
  induction hheights : (fun t => height code Inv (s.tasks t)) using WellFoundedLT.induction
    generalizing s with
  | ind heights ih =>
      subst hheights
      exact ⟨_, fun s' hstep => ih _ (h.heights_lt hstep) (h.step hstep) rfl⟩

/-- From every state the threads get done, and no run goes on for ever. -/
theorem Ordered.ends [Finite θ] (h : Ordered code rank Inv s) :
    (∃ s', Relation.ReflTransGen (Step code) s s' ∧ ∀ t, s'.tasks t = []) ∧
      ¬ ∃ run : ℕ → Shared θ σ L ι, run 0 = s ∧ ∀ n, Step code (run n) (run (n + 1)) := by
  have hacc := h.acc
  constructor
  · induction hacc with
    | intro s _ ih =>
        rcases h.progress with hdone | ⟨s₁, hstep⟩
        · exact ⟨s, .refl, hdone⟩
        · obtain ⟨s', hsteps, hdone⟩ := ih s₁ hstep (h.step hstep)
          exact ⟨s', .head hstep hsteps, hdone⟩
  · rintro ⟨run, hrun, hsteps⟩
    exact (acc_iff_isEmpty_descending_chain.mp hacc).false ⟨run, hrun, hsteps⟩

end Ends

end LockOrder
