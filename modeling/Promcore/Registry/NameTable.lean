import Promcore.Registry.NameMap

/-!
# What the registry is for

A table that binds a name to at most one family. Each call on a registry is a
step of the table, and calls on the families held are none; so the registry
answers what the table does.
-/

namespace Promcore

/-- What a name is bound to. -/
structure Binding where
  type : MetricKind
  address : ℕ
  labels : Labels
deriving DecidableEq

abbrev NameTable : Type := Str → Option Binding

namespace NameTable

def empty : NameTable := fun _ => none

/-- The name and the labels may be used for a family of the type. -/
def Valid (T : MetricKind) (name : Str) (labels : Labels) : Prop :=
  checkMetricName name = true ∧
    ∀ label_name ∈ labels.names, checkLabelName label_name T.metricType = true

instance (T : MetricKind) (name : Str) (labels : Labels) : Decidable (Valid T name labels) :=
  inferInstanceAs (Decidable (_ ∧ _))

/-- Bind a name, or find it bound to the same; no result where that is refused. -/
def register (table : NameTable) (mode : InsertBehavior) (name : Str) (b : Binding) :
    Option (ℕ × NameTable) :=
  match table name with
  | some held =>
      if mode = .merge ∧ held.type = b.type ∧ held.labels = b.labels then some (held.address, table)
      else none
  | none =>
      if Valid b.type name b.labels then some (b.address, Function.update table name (some b))
      else none

/-- Unbind the name of the family at an address. -/
def remove (table : NameTable) (T : MetricKind) (family : ℕ) : NameTable := fun name =>
  (table name).filter fun b => ¬ (b.type = T ∧ b.address = family)

/-- The step of the table for a call. -/
def apply (mode : InsertBehavior) (table : NameTable) : Registry.Op → NameTable
  | .register T address name _ labels =>
      ((table.register mode name ⟨T, address, labels⟩).map Prod.snd).getD table
  | .remove T family => table.remove T family
  | _ => table

end NameTable

namespace Registry

variable {mode : InsertBehavior} {r r' : Registry} {table : NameTable}

/-- The table binds exactly the names of the families held. -/
def Represents (r : Registry) (table : NameTable) : Prop :=
  ∀ name b, table name = some b ↔ ∃ f ∈ r.getFamilies b.type,
    f.name_ = name ∧ f.address = b.address ∧ f.constant_labels_ = b.labels

theorem Represents.eq_none_iff (h : Represents r table) (name : Str) :
    table name = none ↔ ∀ T, ∀ f ∈ r.getFamilies T, f.name_ ≠ name := by
  constructor
  · intro hnone T f hf heq
    have hbound := (h name ⟨T, f.address, f.constant_labels_⟩).mpr ⟨f, hf, heq, rfl, rfl⟩
    rw [hnone] at hbound
    exact Option.some_ne_none _ hbound.symm
  · intro hfree
    cases hname : table name with
    | none => rfl
    | some b =>
        obtain ⟨f, hf, heq, -⟩ := (h name b).mp hname
        exact absurd heq (hfree b.type f hf)

theorem new_represents : Represents (new mode) NameTable.empty := by
  intro name b
  constructor
  · intro h
    exact absurd h (Option.some_ne_none b).symm
  · rintro ⟨f, hf, -⟩
    exact absurd hf (not_mem_new f)

/-- Calls on the families held leave the table as it is. -/
theorem Represents.familiesStep (h : Represents r table) (hstep : FamiliesStep r r') :
    Represents r' table := by
  intro name b
  have hkeys := hstep.map_eq (fun _ f => (f.name_, f.address, f.constant_labels_))
    (fun T f f' hf => by
      obtain ⟨haddress, hname, -, hlabels⟩ := hf.same_head
      rw [haddress, hname, hlabels]) b.type
  have hmem (r : Registry) : (∃ f ∈ r.getFamilies b.type,
      f.name_ = name ∧ f.address = b.address ∧ f.constant_labels_ = b.labels) ↔
      (name, b.address, b.labels) ∈
        (r.getFamilies b.type).map fun f => (f.name_, f.address, f.constant_labels_) := by
    rw [List.mem_map]
    simp only [Prod.mk.injEq]
  rw [h name b, hmem r, hmem r', hkeys]

/-- Where `Add` throws, the table refuses. -/
theorem Represents.refused (hr : Reachable mode r) (h : Represents r table) {T : MetricKind}
    {address : ℕ} {name : Str} {labels : Labels}
    (hreason : (∃ T', T' ≠ T ∧ ∃ f ∈ r.getFamilies T', f.name_ = name) ∨
      (∃ f ∈ r.getFamilies T, f.name_ = name ∧
        (r.insert_behavior_ = .throw ∨ f.constant_labels_ ≠ labels)) ∨
      (∀ T', ∀ f ∈ r.getFamilies T', f.name_ ≠ name) ∧
        (checkMetricName name = false ∨
          ∃ label_name ∈ labels.names, checkLabelName label_name T.metricType = false)) :
    table.register mode name ⟨T, address, labels⟩ = none := by
  have hwf := hr.wellformed
  unfold NameTable.register
  cases hheld : table name with
  | some held =>
      obtain ⟨f, hf, hfname, -, hflabels⟩ := (h name held).mp hheld
      apply if_neg
      rintro ⟨hmerge, htype, hsame⟩
      rcases hreason with ⟨T', hT, f', hf', hname'⟩ | ⟨f', hf', hname', hreason⟩ | ⟨hfree, -⟩
      · -- the name would be held by two types
        dsimp only at htype
        exact hwf.names.across T' held.type (htype ▸ hT) f' hf' f hf (hname'.trans hfname.symm)
      · dsimp only at htype hsame
        subst htype
        obtain rfl := hwf.names.eq_of_key hf hf' (hfname.trans hname'.symm)
        rcases hreason with hthrow | hdiffer
        · rw [hr.insert_behavior, hmerge] at hthrow
          exact absurd hthrow (by decide)
        · exact hdiffer (hflabels.trans hsame)
      · exact hfree held.type f hf hfname
  | none =>
      have hfree := (h.eq_none_iff name).mp hheld
      apply if_neg
      rintro ⟨hname, hlabels⟩
      rcases hreason with ⟨T', -, f', hf', hname'⟩ | ⟨f', hf', hname', -⟩ | ⟨-, hbad | hbad⟩
      · exact hfree T' f' hf' hname'
      · exact hfree T f' hf' hname'
      · rw [hname] at hbad
        exact absurd hbad (by decide)
      · obtain ⟨label_name, hmem, hbad⟩ := hbad
        rw [hlabels label_name hmem] at hbad
        exact absurd hbad (by decide)

/-- Appending a family of a new name binds the name. -/
theorem Represents.append (h : Represents r table) {T : MetricKind} (f : Family T)
    (hnew : ∀ T', ∀ f' ∈ r.getFamilies T', f'.name_ ≠ f.name_) :
    Represents (r.setFamilies T (r.getFamilies T ++ [f]))
      (Function.update table f.name_ (some ⟨T, f.address, f.constant_labels_⟩)) := by
  intro name b
  rw [getFamilies_setFamilies]
  simp only [Directory.mem_update_append]
  by_cases hsame : name = f.name_
  · subst hsame
    rw [Function.update_self, Option.some.injEq]
    constructor
    · rintro rfl
      exact ⟨_, Or.inr rfl, rfl, rfl, rfl⟩
    · rintro ⟨f', hf | heq, hname, haddress, hlabels⟩
      · exact absurd hname (hnew b.type f' hf)
      · obtain ⟨type, address, labels⟩ := b
        cases heq
        dsimp only at haddress hlabels
        rw [haddress, hlabels]
  · rw [Function.update_of_ne hsame, h name b]
    apply exists_congr
    intro f'
    constructor
    · rintro ⟨hf, hrest⟩
      exact ⟨Or.inl hf, hrest⟩
    · rintro ⟨hf | heq, hname, hrest⟩
      · exact ⟨hf, hname, hrest⟩
      · obtain ⟨type, address, labels⟩ := b
        cases heq
        exact absurd hname.symm hsame

/-- Registering is a step of the table: both refuse, or both succeed with the
same address. -/
theorem Represents.register (hr : Reachable mode r) (h : Represents r table) (T : MetricKind)
    (address : ℕ) (name help : Str) (labels : Labels) :
    (∃ e, r.add T address name help labels = (.error e, r) ∧
      table.register mode name ⟨T, address, labels⟩ = none) ∨
    ∃ a r' table', r.add T address name help labels = (.ok a, r') ∧
      table.register mode name ⟨T, address, labels⟩ = some (a, table') ∧ Represents r' table' := by
  rcases r.add_cases T address name help labels with ⟨e, hadd, hreason⟩ |
    ⟨f, hf, hadd, hname, hlabels, hmerge, -⟩ | ⟨hname, hlabels, hnew, hadd⟩
  · exact Or.inl ⟨e, hadd, h.refused hr hreason⟩
  · refine Or.inr ⟨f.address, r, table, hadd, ?_, h⟩
    have hheld := (h name ⟨T, f.address, f.constant_labels_⟩).mpr ⟨f, hf, hname, rfl, rfl⟩
    unfold NameTable.register
    rw [hheld]
    exact if_pos ⟨hr.insert_behavior.symm.trans hmerge, rfl, hlabels⟩
  · refine Or.inr ⟨address, _, Function.update table name (some ⟨T, address, labels⟩), hadd, ?_,
      h.append _ hnew⟩
    unfold NameTable.register
    rw [(h.eq_none_iff name).mpr hnew]
    exact if_pos ⟨hname, hlabels⟩

/-- Removing is a step of the table. -/
theorem Represents.remove (hr : Reachable mode r) (h : Represents r table) (T : MetricKind)
    (family : ℕ) : Represents (r.remove T family).2 (table.remove T family) := by
  have hwf := hr.wellformed
  intro name b
  rw [NameTable.remove, Option.filter_eq_some_iff, h name b, decide_eq_true_iff]
  rcases r.remove_cases T family with ⟨pre, f, post, hsplit, rfl, hremove⟩ | ⟨hnone, hremove⟩
  · have hf : f ∈ r.getFamilies T := by simp [hsplit]
    rw [hremove, getFamilies_setFamilies]
    simp only [hwf.addresses.mem_update_erased hsplit]
    constructor
    · rintro ⟨⟨f', hf', hname, haddress, hlabels⟩, hother⟩
      refine ⟨f', ⟨hf', fun heq => hother ⟨?_, haddress.symm.trans heq⟩⟩, hname, haddress, hlabels⟩
      -- one address is held by one type
      by_contra hT
      exact hwf.addresses.across b.type T hT f' hf' f hf heq
    · rintro ⟨f', ⟨hf', hne⟩, hname, haddress, hlabels⟩
      exact ⟨⟨f', hf', hname, haddress, hlabels⟩, fun hsame => hne (haddress.trans hsame.2)⟩
  · rw [hremove]
    apply and_iff_left_of_imp
    rintro ⟨f', hf', -, haddress, -⟩ ⟨rfl, hsame⟩
    exact hnone f' hf' (haddress.trans hsame)

theorem Represents.apply {op : Op} (hr : Reachable mode r) (h : Represents r table)
    (happly : r.apply op = some r') : Represents r' (NameTable.apply mode table op) := by
  cases op with
  | register T address name help labels =>
      obtain rfl := Option.some.inj happly
      rcases h.register hr T address name help labels with ⟨e, hadd, htable⟩ |
        ⟨a, r', table', hadd, htable, h'⟩
      · rw [hadd, NameTable.apply, htable]
        exact h
      · rw [hadd, NameTable.apply, htable]
        exact h'
  | remove T family =>
      obtain rfl := Option.some.inj happly
      exact h.remove hr T family
  | addMetric | removeMetric | update | collect =>
      rcases apply_cases happly with ⟨T, address, name, help, labels, heq, -⟩ |
        ⟨T, family, heq, -⟩ | hstep
      · cases heq
      · cases heq
      · exact h.familiesStep hstep

/-- A run, with the calls made. -/
inductive Run (mode : InsertBehavior) : List Op → Registry → Prop
  | new : Run mode [] (new mode)
  | step {ops : List Op} {r r' : Registry} {op : Op} (h : Run mode ops r) (hfresh : r.Fresh op)
      (happly : r.apply op = some r') : Run mode (ops ++ [op]) r'

theorem Run.reachable {ops : List Op} (h : Run mode ops r) : Reachable mode r := by
  induction h with
  | new => exact Reachable.new
  | step _ hfresh happly ih => exact ih.step hfresh happly

/-- The table after the calls. -/
def tableOf (mode : InsertBehavior) (ops : List Op) : NameTable :=
  ops.foldl (NameTable.apply mode) NameTable.empty

theorem Run.represents {ops : List Op} (h : Run mode ops r) : Represents r (tableOf mode ops) := by
  induction h with
  | new => exact new_represents
  | step h _ happly ih =>
      rw [tableOf, List.foldl_append]
      exact ih.apply h.reachable happly

/-- After every run the registry holds what the table holds after the same
calls, and then it registers and removes as the table does. -/
theorem registry_refines_table {ops : List Op} (h : Run mode ops r) :
    Represents r (tableOf mode ops) ∧
    (∀ (T : MetricKind) (b : Builder T) (address : ℕ), (b.register r address).1.toOption =
      ((tableOf mode ops).register mode b.name_ ⟨T, address, b.labels_⟩).map Prod.fst) ∧
    ∀ (T : MetricKind) (family : ℕ), (r.remove T family).1 = true ↔
      ∃ name b, tableOf mode ops name = some b ∧ b.type = T ∧ b.address = family := by
  have hrep := h.represents
  refine ⟨hrep, fun T b address => ?_, fun T family => ?_⟩
  · rcases hrep.register h.reachable T address b.name_ b.help_ b.labels_ with
      ⟨e, hadd, htable⟩ | ⟨a, r', table', hadd, htable, -⟩
    · rw [Builder.register, hadd, htable]
      rfl
    · rw [Builder.register, hadd, htable]
      rfl
  · rcases r.remove_cases T family with ⟨pre, f, post, hsplit, rfl, hremove⟩ | ⟨hnone, hremove⟩
    · have hf : f ∈ r.getFamilies T := by simp [hsplit]
      rw [hremove]
      exact iff_of_true rfl ⟨f.name_, ⟨T, f.address, f.constant_labels_⟩,
        (hrep _ _).mpr ⟨f, hf, rfl, rfl, rfl⟩, rfl, rfl⟩
    · rw [hremove]
      refine iff_of_false Bool.false_ne_true ?_
      rintro ⟨name, b, hbound, rfl, rfl⟩
      obtain ⟨f, hf, -, haddress, -⟩ := (hrep name b).mp hbound
      exact hnone f hf haddress

/-- The name of a counter is refused to a gauge, and the counter can be removed. -/
theorem registry_refines_table_requests : ∃ r, Run .merge
    [.register .counterInt 1 "requests".toList [] ⟨[], Labels.sorted_nil⟩] r ∧
      (Builder.register (⟨⟨[], Labels.sorted_nil⟩, "requests".toList, []⟩ : Builder .gaugeInt)
        r 2).1.toOption = none ∧ (r.remove .counterInt 1).1 = true := by
  have hrun : Run .merge [.register .counterInt 1 "requests".toList [] ⟨[], Labels.sorted_nil⟩]
      ((new .merge).add .counterInt 1 "requests".toList [] ⟨[], Labels.sorted_nil⟩).2 := by
    have happly : (new .merge).apply (.register .counterInt 1 "requests".toList []
        ⟨[], Labels.sorted_nil⟩) = some _ := rfl
    refine Run.new.step ?_ happly
    intro T f hf
    exact absurd hf (not_mem_new f)
  have hbound : tableOf .merge [.register .counterInt 1 "requests".toList []
      ⟨[], Labels.sorted_nil⟩] "requests".toList =
        some ⟨.counterInt, 1, ⟨[], Labels.sorted_nil⟩⟩ := rfl
  obtain ⟨-, hregister, hremove⟩ := registry_refines_table hrun
  refine ⟨_, hrun, ?_, (hremove .counterInt 1).mpr ⟨_, _, hbound, rfl, rfl⟩⟩
  rw [hregister, NameTable.register]
  dsimp only
  rw [hbound]
  rfl

end Registry

end Promcore
