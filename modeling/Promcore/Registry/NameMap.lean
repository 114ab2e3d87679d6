import Promcore.Registry.Runs

/-!
# The registry as a map from names to typed families

Registration either changes nothing or adds one name, and removal deletes one.
-/

namespace Promcore.Registry

open Directory

variable {mode : InsertBehavior} {r : Registry}

/-- `Add` throws exactly when the name is taken by another type, taken with
other labels or in the mode that throws, or free and not valid. -/
theorem add_throws_iff (hr : Reachable mode r) (T : MetricKind) (address : ℕ) (name help : Str)
    (labels : Labels) :
    (∃ e, (r.add T address name help labels).1 = .error e) ↔
      (∃ T', T' ≠ T ∧ ∃ f ∈ r.getFamilies T', f.name_ = name) ∨
      (∃ f ∈ r.getFamilies T, f.name_ = name ∧ (mode = .throw ∨ f.constant_labels_ ≠ labels)) ∨
      (∀ T', ∀ f ∈ r.getFamilies T', f.name_ ≠ name) ∧
        (checkMetricName name = false ∨
          ∃ label_name ∈ labels.names, checkLabelName label_name T.metricType = false) := by
  have hmode := hr.insert_behavior
  have hwf := hr.wellformed
  rcases r.add_cases T address name help labels with ⟨e, hadd, hreason⟩ |
    ⟨f, hf, hadd, hname, hlabels, hmerge, hothers⟩ | ⟨hname, hlabels, hnew, hadd⟩
  · rw [hmode] at hreason
    simp [hadd, hreason]
  · -- the family held is returned: none of the reasons applies
    constructor
    · rintro ⟨e, he⟩
      simp [hadd] at he
    · rintro (⟨T', hT, f', hf', heq⟩ | ⟨f', hf', heq, hreason⟩ | ⟨hfree, -⟩)
      · exact absurd heq (hothers T' hT f' hf')
      · obtain rfl := hwf.names.eq_of_key hf hf' (hname.trans heq.symm)
        rcases hreason with hthrow | hdiffer
        · rw [hmode, hthrow] at hmerge
          simp at hmerge
        · exact absurd hlabels hdiffer
      · exact absurd hname (hfree T f hf)
  · constructor
    · rintro ⟨e, he⟩
      simp [hadd] at he
    · rintro (⟨T', -, f', hf', heq⟩ | ⟨f', hf', heq, -⟩ | ⟨-, hbad⟩)
      · exact absurd heq (hnew T' f' hf')
      · exact absurd heq (hnew T f' hf')
      · rcases hbad with hbad | ⟨label_name, hmem, hbad⟩
        · simp [hname] at hbad
        · simp [hlabels label_name hmem] at hbad

/-- A removed family's name is free. -/
theorem remove_frees (hr : Reachable mode r) {T : MetricKind} {f : Family T}
    (hf : f ∈ r.getFamilies T) :
    ∃ pre post, r.getFamilies T = pre ++ f :: post ∧
      r.remove T f.address = (true, r.setFamilies T (pre ++ post)) ∧
      ∀ T', ∀ f' ∈ (r.setFamilies T (pre ++ post)).getFamilies T', f'.name_ ≠ f.name_ := by
  have hwf := hr.wellformed
  rcases r.remove_cases T f.address with ⟨pre, f', post, hsplit, haddress, hremove⟩ | ⟨hnone, -⟩
  · obtain rfl := hwf.addresses.eq_of_key hf (by simp [hsplit]) haddress.symm
    refine ⟨pre, post, hsplit, hremove, fun T' => ?_⟩
    rw [getFamilies_setFamilies]
    exact hwf.names.not_held_of_erased hsplit T'
  · exact absurd rfl (hnone f hf)

/-- In every reachable state: the names of all families are different;
registering throws exactly for a name that is taken or not valid and then
changes nothing; otherwise it returns the family held, or appends one; and
removing deletes exactly the family given and frees its name for any type. -/
theorem registry_is_name_map (hr : Reachable mode r) :
    (kinds.flatMap fun T => (r.getFamilies T).map Family.name_).Nodup ∧
    (∀ (T : MetricKind) (b : Builder T) (address : ℕ),
      ((∃ e, (b.register r address).1 = .error e) ↔
        (∃ T', T' ≠ T ∧ ∃ f ∈ r.getFamilies T', f.name_ = b.name_) ∨
        (∃ f ∈ r.getFamilies T, f.name_ = b.name_ ∧
          (mode = .throw ∨ f.constant_labels_ ≠ b.labels_)) ∨
        (∀ T', ∀ f ∈ r.getFamilies T', f.name_ ≠ b.name_) ∧
          (checkMetricName b.name_ = false ∨
            ∃ label_name ∈ b.labels_.names, checkLabelName label_name T.metricType = false)) ∧
      (∀ e, (b.register r address).1 = .error e → (b.register r address).2 = r) ∧
      ∀ a, (b.register r address).1 = .ok a →
        (∃ f ∈ r.getFamilies T, f.address = a ∧ f.name_ = b.name_ ∧
          f.constant_labels_ = b.labels_ ∧ (b.register r address).2 = r) ∨
        ∃ f : Family T, f.address = a ∧ a = address ∧ f.name_ = b.name_ ∧ f.help_ = b.help_ ∧
          f.constant_labels_ = b.labels_ ∧ f.metrics_ = [] ∧
          (∀ T', ∀ f' ∈ r.getFamilies T', f'.name_ ≠ b.name_) ∧
          (b.register r address).2.insert_behavior_ = r.insert_behavior_ ∧
          (b.register r address).2.getFamilies =
            Function.update r.getFamilies T (r.getFamilies T ++ [f])) ∧
    ∀ (T : MetricKind) (family : ℕ),
      ((r.remove T family).1 = true ↔ ∃ f ∈ r.getFamilies T, f.address = family) ∧
      ((r.remove T family).1 = false → (r.remove T family).2 = r) ∧
      ∀ f ∈ r.getFamilies T, f.address = family →
        ∃ pre post, r.getFamilies T = pre ++ f :: post ∧
          (r.remove T family).2.insert_behavior_ = r.insert_behavior_ ∧
          (r.remove T family).2.getFamilies = Function.update r.getFamilies T (pre ++ post) ∧
          ∀ (T' : MetricKind) (address : ℕ) (help : Str) (labels : Labels),
            (∀ label_name ∈ labels.names, checkLabelName label_name T'.metricType = true) →
              ((r.remove T family).2.add T' address f.name_ help labels).1 = .ok address := by
  refine ⟨hr.wellformed.names.nodup (by decide), fun T b address => ⟨?_, ?_, ?_⟩,
    fun T family => ⟨?_, ?_, ?_⟩⟩
  · exact add_throws_iff hr T address b.name_ b.help_ b.labels_
  · intro e he
    rcases r.add_cases T address b.name_ b.help_ b.labels_ with ⟨e', hadd, -⟩ | ⟨f, -, hadd, -⟩ |
      ⟨hname, hlabels, -, hadd⟩
    · rw [Builder.register, hadd]
    · simp [Builder.register, hadd] at he
    · simp [Builder.register, hadd] at he
  · intro a ha
    rcases r.add_cases T address b.name_ b.help_ b.labels_ with ⟨e', hadd, -⟩ |
      ⟨f, hf, hadd, hname, hlabels, -⟩ | ⟨hname, hlabels, hnew, hadd⟩
    · simp [Builder.register, hadd] at ha
    · rw [Builder.register, hadd, Except.ok.injEq] at ha
      exact Or.inl ⟨f, hf, ha, hname, hlabels, by rw [Builder.register, hadd]⟩
    · rw [Builder.register, hadd, Except.ok.injEq] at ha
      refine Or.inr ⟨⟨address, [], b.name_, b.help_, b.labels_, hname, hlabels⟩, ha, ha.symm, rfl,
        rfl, rfl, rfl, hnew, ?_, ?_⟩
      · rw [Builder.register, hadd, insert_behavior_setFamilies]
      · rw [Builder.register, hadd, getFamilies_setFamilies]
  · rcases r.remove_cases T family with ⟨pre, f, post, hsplit, haddress, hremove⟩ |
      ⟨hnone, hremove⟩
    · simp only [hremove, true_iff]
      exact ⟨f, by simp [hsplit], haddress⟩
    · simp only [hremove, Bool.false_eq_true, false_iff]
      rintro ⟨f, hf, haddress⟩
      exact hnone f hf haddress
  · intro hfalse
    rcases r.remove_cases T family with ⟨pre, f, post, -, -, hremove⟩ | ⟨-, hremove⟩
    · simp [hremove] at hfalse
    · rw [hremove]
  · rintro f hf rfl
    obtain ⟨pre, post, hsplit, hremove, hfree⟩ := remove_frees hr hf
    refine ⟨pre, post, hsplit, by rw [hremove, insert_behavior_setFamilies],
      by rw [hremove, getFamilies_setFamilies], fun T' address help labels hvalid => ?_⟩
    rw [hremove]
    rcases add_cases (r.setFamilies T (pre ++ post)) T' address f.name_ help labels with
      ⟨e, -, ⟨T'', -, f', hf', heq⟩ | ⟨f', hf', heq, -⟩ | ⟨-, hbad⟩⟩ | ⟨f', hf', -, heq, -⟩ |
      ⟨hname, hlabels, -, hadd⟩
    · exact absurd heq (hfree T'' f' hf')
    · exact absurd heq (hfree T' f' hf')
    · rcases hbad with hbad | ⟨label_name, hmem, hbad⟩
      · simp [f.valid_name] at hbad
      · simp [hvalid label_name hmem] at hbad
    · exact absurd heq (hfree T' f' hf')
    · rw [hadd]

/-- The registry after one registration. -/
def oneCounter : Registry :=
  ((new .merge).add .counterInt 1 "requests".toList [] ⟨[], Labels.sorted_nil⟩).2

theorem oneCounter_reachable : Reachable .merge oneCounter := by
  have hregister : (new .merge).apply (.register .counterInt 1 "requests".toList []
      ⟨[], Labels.sorted_nil⟩) = some oneCounter := rfl
  exact Reachable.first_family hregister

/-- The name of the counter is taken for a gauge until the counter is removed. -/
theorem registry_is_name_map_one_counter :
    (∃ e, (oneCounter.add .gaugeInt 2 "requests".toList [] ⟨[], List.Pairwise.nil⟩).1 = .error e) ∧
      (oneCounter.remove .counterInt 1).1 = true := by
  obtain ⟨-, hadd, hremove⟩ := registry_is_name_map oneCounter_reachable
  have hheld : ∃ f ∈ oneCounter.getFamilies .counterInt,
      f.address = 1 ∧ f.name_ = "requests".toList := by
    decide +kernel
  obtain ⟨f, hf, haddress, hname⟩ := hheld
  constructor
  · exact (hadd .gaugeInt ⟨⟨[], List.Pairwise.nil⟩, "requests".toList, []⟩ 2).1.mpr
      (Or.inl ⟨.counterInt, by decide, f, hf, hname⟩)
  · exact (hremove .counterInt 1).1.mpr ⟨f, hf, haddress⟩

end Promcore.Registry
