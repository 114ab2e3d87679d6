import Promcore.Sketch.AccessSteps
import Promcore.Sketch.FlushedRuns

/-!
# What is stored in an `int`

Ranks, weights and deltas are kept in 32 bits while the values are counted in
64. While the count leaves room for the deltas on top of it, no `int` wraps.
-/

namespace Promcore.CKMSQuantiles

open LabelledSteps RankSummary Simulation Traced

/-- From `INT_MIN` to `INT_MAX`. -/
def FitsInt (x : ℤ) : Prop := -2 ^ 31 ≤ x ∧ x ≤ 2 ^ 31 - 1

theorem FitsInt.toInt_ofInt {x : ℤ} (h : FitsInt x) : (Int32.ofInt x).toInt = x :=
  Int32.toInt_ofInt_of_le h.1 (Int.lt_of_le_sub_one h.2)

section Growth

variable {α : Type} (quantiles_ : List Quantile)

/-- What the changes of a call can make of a sample: the weight added bounds
the items added, and each delta is an old one, zero, or one written among no
more items than that. -/
structure Grown (start sample : List (Item α)) : Prop where
  sound : Sound sample
  mass_le : mass Item.g start ≤ mass Item.g sample
  length_le : sample.length + mass Item.g start ≤ start.length + mass Item.g sample
  delta_eq : ∀ x ∈ sample, (∃ y ∈ start, x.delta = y.delta) ∨ x.delta = 0 ∨
    ∃ size idx : ℕ, size + 1 + mass Item.g start ≤ start.length + mass Item.g sample ∧
      idx ≤ size ∧ x.delta = insertDelta quantiles_ size idx

variable {quantiles_}

theorem Grown.refl {sample : List (Item α)} (h : Sound sample) : Grown quantiles_ sample sample where
  sound := h
  mass_le := le_rfl
  length_le := le_rfl
  delta_eq := fun x hx => Or.inl ⟨x, hx, rfl⟩

variable {start : List (Item α)}

theorem Grown.seed (h : Grown quantiles_ start []) (v : α) : Grown quantiles_ start [⟨v, 1, 0⟩] := by
  have hone : mass Item.g [(⟨v, 1, 0⟩ : Item α)] = 1 := rfl
  have hmass := h.mass_le
  have hlength := h.length_le
  rw [mass_nil] at hmass hlength
  rw [List.length_nil, Nat.cast_zero] at hlength
  refine ⟨by simp [Sound], by omega, ?_, fun x hx => Or.inr (Or.inl ?_)⟩
  · rw [List.length_singleton]
    omega
  · rw [List.mem_singleton.mp hx]

theorem Grown.place {pre post : List (Item α)} (h : Grown quantiles_ start (pre ++ post)) (v : α)
    (hq : ∀ q ∈ quantiles_, q.Proper) :
    Grown quantiles_ start
      (pre ++ ⟨v, 1, insertDelta quantiles_ (pre ++ post).length pre.length⟩ :: post) := by
  obtain ⟨hsound, hmass, hlength, hdelta⟩ := h
  rw [sound_append] at hsound
  have hnonneg := insertDelta_nonneg hq (pre ++ post).length pre.length
  refine ⟨?_, ?_, ?_, fun x hx => ?_⟩
  · rw [sound_append, sound_cons]
    exact ⟨hsound.1, ⟨le_rfl, hnonneg⟩, hsound.2⟩
  · simp only [mass_append, mass_cons] at hmass ⊢
    omega
  · simp only [mass_append, mass_cons, List.length_append, List.length_cons] at hlength ⊢
    omega
  · have hcases : x = ⟨v, 1, insertDelta quantiles_ (pre ++ post).length pre.length⟩ ∨
        x ∈ pre ++ post := by
      simp only [List.mem_append, List.mem_cons] at hx ⊢
      tauto
    simp only [mass_append, mass_cons] at hlength hdelta ⊢
    obtain rfl | hx := hcases
    · exact Or.inr (Or.inr ⟨(pre ++ post).length, pre.length, by omega, by simp, rfl⟩)
    · exact (hdelta x hx).imp_right (Or.imp_right fun ⟨size, idx, hsize, hold⟩ =>
        ⟨size, idx, by omega, hold⟩)

theorem Grown.merge {pre post : List (Item α)} {a b : Item α}
    (h : Grown quantiles_ start (pre ++ a :: b :: post)) :
    Grown quantiles_ start (pre ++ { b with g := b.g + a.g } :: post) := by
  obtain ⟨hsound, hmass, hlength, hdelta⟩ := h
  rw [sound_append, sound_cons, sound_cons] at hsound
  obtain ⟨hpre, ha, hb, hpost⟩ := hsound
  simp only [mass_append, mass_cons, List.length_append, List.length_cons]
    at hmass hlength hdelta
  refine ⟨?_, ?_, ?_, fun x hx => ?_⟩
  · rw [sound_append, sound_cons]
    exact ⟨hpre, ⟨by dsimp only; omega, hb.2⟩, hpost⟩
  · simp only [mass_append, mass_cons]
    omega
  · simp only [mass_append, mass_cons, List.length_append, List.length_cons]
    omega
  · -- the merged item keeps the delta of the later one
    have hold : ∃ y ∈ pre ++ a :: b :: post, x.delta = y.delta := by
      obtain hx | hx := List.mem_append.mp hx
      · exact ⟨x, by simp [hx], rfl⟩
      · obtain rfl | hx := List.mem_cons.mp hx
        · exact ⟨b, by simp, rfl⟩
        · exact ⟨x, by simp [hx], rfl⟩
    obtain ⟨y, hy, heq⟩ := hold
    simp only [mass_append, mass_cons]
    rw [heq]
    exact (hdelta y hy).imp_right (Or.imp_right fun ⟨size, idx, hsize, hwritten⟩ =>
      ⟨size, idx, by omega, hwritten⟩)

variable [LinearOrder α] {sample sample' : List (Item α)}

theorem SampleStep.grown (hq : ∀ q ∈ quantiles_, q.Proper) {label : Option α}
    (step : SampleStep quantiles_ sample label sample') (h : Grown quantiles_ start sample) :
    Grown quantiles_ start sample' := by
  cases step with
  | seed v => exact h.seed v
  | place pre post v hne hpre hpost => exact h.place v hq
  | merge pre post a b hfits => exact h.merge

theorem grown_of_steps (hq : ∀ q ∈ quantiles_, q.Proper) {as : List (Access α)}
    (steps : Steps (SampleAccess quantiles_) sample as sample') (h : Sound sample) :
    Grown quantiles_ sample sample' := by
  have hstep : ∀ t label t', SampleAccess quantiles_ t label t' → Grown quantiles_ sample t →
      Grown quantiles_ sample t' := fun t label t' haccess hgrown => by
    obtain rfl | ⟨placed, hstep⟩ := haccess.eq_or_step
    · exact hgrown
    · exact hstep.grown hq hgrown
  exact steps.invariant (P := fun t (_ : List (Access α)) => Grown quantiles_ sample t)
    (fun _ _ _ _ => hstep _ _ _) (fun _ _ _ => hstep _ _ _) [] (.refl h)

end Growth

section Room

variable {α : Type}

/-- Room for a flush: with the buffer counted, there is space for every delta
held and for every delta that the error allows to be written. -/
structure HasRoom (s : CKMSQuantiles α) : Prop where
  count : (s.count_ + s.buffer_count_ + 2 : ℤ) ≤ 2 ^ 31 - 1
  held : ∀ x ∈ s.sample_, s.count_ + s.buffer_count_ + x.delta ≤ 2 ^ 31 - 1
  written : ∀ size idx : ℕ, size < s.sample_.length + s.buffer_count_ → idx ≤ size →
    s.count_ + s.buffer_count_ + insertDelta s.quantiles_ size idx ≤ 2 ^ 31 - 1

variable [LinearOrder α] {quantiles_ : List Quantile}

theorem Represents.mass_eq {s : CKMSQuantiles α} {data : List α} (h : Represents s data) :
    mass Item.g s.sample_ = s.count_ := by
  have hcount := h.count_add
  rw [h.sample.total, List.length_take, Nat.min_eq_left (by omega)]

/-- Along a call that counts at most the buffer, every `int` fits where there is
room. -/
theorem HasRoom.fitsInt {s : CKMSQuantiles α} (hq : ∀ q ∈ s.quantiles_, q.Proper)
    (hroom : s.HasRoom) (hsound : Sound s.sample_) (hmass : mass Item.g s.sample_ = s.count_)
    {as : List (Access α)} {sample : List (Item α)}
    (steps : Steps (SampleAccess s.quantiles_) s.sample_ as sample)
    (hend : mass Item.g sample ≤ s.count_ + s.buffer_count_) {x : ℤ} (hx : Access.int x ∈ as) :
    FitsInt x := by
  obtain ⟨t, t', _, _, hbefore, hstep, hafter⟩ := steps.exists_of_mem hx
  have hgrown := grown_of_steps hq hbefore hsound
  obtain ⟨rfl, hfits⟩ : t' = t ∧ (Access.int x).Fits t := by
    cases hstep with
    | look hfits => exact ⟨rfl, hfits⟩
  obtain ⟨hnonneg, hrank⟩ := hfits hgrown.sound
  have hrest := (grown_of_steps hq hafter hgrown.sound).mass_le
  have hcount := hroom.count
  refine ⟨by omega, ?_⟩
  obtain hrank | ⟨y, hy, hrank⟩ := hrank
  · omega
  · obtain ⟨z, hz, heq⟩ | hzero | ⟨size, idx, hsize, hidx, heq⟩ := hgrown.delta_eq y hy
    · have := hroom.held z hz
      omega
    · omega
    · have := hroom.written size idx (by omega) hidx
      omega

/-- An insert that does not fill the buffer makes one access. -/
theorem Watched.trace_insert {s : CKMSQuantiles α} {value : α} (hlt : s.buffer_count_ < bufferSize)
    (hfull : s.buffer_count_ + 1 ≠ bufferSize) :
    (Watched.insert s value).trace = [.write s.buffer_count_] := by
  have hcount : ({ s with buffer_ := s.buffer_ ++ [value] } : CKMSQuantiles α).buffer_count_ =
      s.buffer_count_ + 1 := by simp [buffer_count_]
  refine (trace_bind (if_pos hlt) _).trans ?_
  rw [if_pos hlt, if_neg (hcount ▸ hfull)]
  rfl

theorem Watched.apply_fitsInt {s : CKMSQuantiles α} {data : List α} (h : Represents s data)
    (hq : ∀ q ∈ s.quantiles_, q.Proper) (hsound : Sound s.sample_) {op : Op α} (hop : op.InUnit)
    (hroom : OnFlush HasRoom s op) {x : ℤ} (hx : Access.int x ∈ (Watched.apply s op).trace) :
    FitsInt x := by
  by_cases hreset : op = .reset
  · subst hreset
    simp [Watched.apply, pure] at hx
  obtain ⟨s', hrun⟩ := apply_runs h hq hop hreset
  obtain ⟨t, happly, hrep, -⟩ := h.apply op
  have hvalue : s.apply op = some s' := (Watched.value_apply s op).symm.trans hrun.value_eq
  obtain rfl := Option.some.inj (happly.symm.trans hvalue)
  have hmass := hrep.mass_eq
  have hcount := h.count_add
  have hcount' := hrep.count_add
  cases op with
  | insert value =>
      by_cases hfull : s.buffer_count_ + 1 = bufferSize
      · refine HasRoom.fitsInt (s := { s with buffer_ := s.buffer_ ++ [value] }) hq (hroom hfull)
          hsound h.mass_eq hrun.steps ?_ hx
        rw [received, List.length_append, List.length_singleton] at hcount'
        simp only [buffer_count_, List.length_append, List.length_singleton] at hcount ⊢
        omega
      · -- only the buffer is written
        rw [Watched.apply, trace_insert h.buffer_lt hfull] at hx
        simp at hx
  | get q =>
      refine hroom.fitsInt hq hsound h.mass_eq hrun.steps ?_ hx
      rw [received] at hcount'
      omega
  | reset => exact absurd rfl hreset

/-- What a run makes of the empty sample. -/
theorem run_grown (hq : ∀ q ∈ quantiles_, q.Proper) {ops : List (Op α)} {s : CKMSQuantiles α}
    (hrun : run (new quantiles_) ops = some s) : Grown quantiles_ [] s.sample_ :=
  run_sample_invariant (.refl (by simp [Sound])) (fun _ _ _ hstep h => hstep.grown hq h) ops hrun

/-- There is room for every call that leaves less than `2 ^ 30 - 1` values held. -/
theorem onFlush_hasRoom (hq : ∀ q ∈ quantiles_, q.Proper) {ops : List (Op α)}
    {s : CKMSQuantiles α} (hrun : run (new quantiles_) ops = some s) (op : Op α)
    (hheld : (inserted (ops ++ [op])).length < 2 ^ 30 - 1) : OnFlush HasRoom s op := by
  obtain ⟨hrep, -⟩ := represents_of_run hrun
  have hgrown := run_grown hq hrun
  have hmass := hrep.mass_eq
  have hlength := hgrown.sound.length_le_mass
  have hroom : ∀ t : CKMSQuantiles α, t.sample_ = s.sample_ → t.count_ = s.count_ →
      t.count_ + t.buffer_count_ < 2 ^ 30 - 1 → t.HasRoom := by
    intro t hsample hcount hpending
    refine ⟨by omega, fun x hx => ?_, fun size idx hsize _ => ?_⟩
    · obtain ⟨y, hy, -⟩ | hzero | ⟨size, idx, hsize, -, heq⟩ := hgrown.delta_eq x (hsample ▸ hx)
      · simp at hy
      · omega
      · rw [mass_nil, List.length_nil] at hsize
        have := insertDelta_le quantiles_ size idx
        omega
    · rw [hsample] at hsize
      have := insertDelta_le t.quantiles_ size idx
      omega
  rw [inserted_snoc] at hheld
  have hcount := hrep.count_add
  cases op with
  | insert value =>
      rw [received, List.length_append, List.length_singleton] at hheld
      refine fun _ => hroom _ rfl rfl ?_
      simp only [buffer_count_, List.length_append, List.length_singleton] at hcount ⊢
      omega
  | get q =>
      rw [received] at hheld
      exact hroom _ rfl rfl (by omega)
  | reset => trivial

omit [LinearOrder α] in
theorem length_inserted_le (ops : List (Op α)) : (inserted ops).length ≤ ops.length := by
  induction ops using List.reverseRecOn with
  | nil => exact le_rfl
  | append_singleton ops op ih =>
      rw [inserted_snoc, List.length_append, List.length_singleton]
      cases op with
      | insert value =>
          rw [received, List.length_append, List.length_singleton]
          omega
      | get q => exact ih.trans (Nat.le_succ _)
      | reset => exact Nat.zero_le _

/-- A run that never holds `2 ^ 30 - 1` values finds room. -/
theorem guardedRun_of_inserted (hq : ∀ q ∈ quantiles_, q.Proper) (ops : List (Op α))
    (hheld : ∀ before, before <+: ops → (inserted before).length < 2 ^ 30 - 1) :
    ∃ s, GuardedRun apply (OnFlush HasRoom) (new quantiles_) ops s := by
  induction ops using List.reverseRecOn with
  | nil => exact ⟨_, .nil⟩
  | append_singleton ops op ih =>
      obtain ⟨s, hrun⟩ := ih fun before hbefore =>
        hheld before (hbefore.trans (List.prefix_append _ _))
      have hstate : CKMSQuantiles.run (new quantiles_) ops = some s := hrun.foldlM_eq
      obtain ⟨t, happly, -⟩ := (represents_of_run hstate).1.apply op
      exact ⟨t, hrun.snoc (onFlush_hasRoom hq hstate op (hheld _ List.prefix_rfl)) happly⟩

end Room

section Count

variable {α : Type} [LinearOrder α] {quantiles_ : List Quantile}

/-- A read at one stores the number of values held. -/
theorem Watched.length_mem_get {s : CKMSQuantiles α} {data : List α} (h : Represents s data)
    (hne : data ≠ []) : Access.int data.length ∈ (Watched.get s 1).trace := by
  obtain ⟨s', hflush, hrep, -, hcount, -⟩ := h.flush
  obtain ⟨placed, hbatch, hcompress⟩ := Option.bind_eq_some_iff.mp hflush
  rw [Watched.get, trace_bind ((value_insertBatch s).trans hbatch),
    trace_bind ((value_compress placed).trans hcompress)]
  refine List.mem_append_right _ (List.mem_append_right _ ?_)
  have hdesired : s'.desired 1 = data.length := by
    rw [desired, one_mul, hcount, truncate, if_neg (not_lt.mpr (Nat.cast_nonneg _)),
      Int.floor_natCast]
  have hsample : s'.sample_ ≠ [] := fun hnil => by
    have htake := hrep.sample_nil_iff.mp hnil
    rw [hcount, List.take_length] at htake
    exact hne htake
  obtain ⟨cur, rest, hcons⟩ := List.exists_cons_of_ne_nil hsample
  rw [hcons, ← hdesired]
  exact List.mem_cons_self

omit [LinearOrder α] in
theorem inserted_replicate (n : ℕ) (value : α) :
    inserted (List.replicate n (.insert value)) = List.replicate n value := by
  induction n with
  | zero => rfl
  | succ n ih => rw [List.replicate_succ', inserted_snoc, ih, received, List.replicate_succ']

theorem Watched.length_mem_run (n : ℕ) (hn : n ≠ 0) (value : α) :
    Access.int n ∈
      (Watched.run (new quantiles_) (List.replicate n (.insert value) ++ [.get 1])).trace := by
  obtain ⟨s, hrun, hrep, -⟩ := run_represents quantiles_ (List.replicate n (.insert value))
  rw [inserted_replicate] at hrep
  have hmem := length_mem_get hrep (by simpa using hn)
  rw [List.length_replicate] at hmem
  rw [trace_run_snoc hrun]
  exact List.mem_append_right _ (List.mem_append_left _ hmem)

/-- In a run all of whose calls find room, every `int` holds its value. -/
theorem ints_fit (hq : ∀ q ∈ quantiles_, 0 < q.quantile ∧ q.quantile < 1 ∧ 0 ≤ q.error)
    {ops : List (Op α)} {s : CKMSQuantiles α}
    (h : GuardedRun apply (OnFlush HasRoom) (new quantiles_) ops s) (hops : ∀ op ∈ ops, op.InUnit)
    {x : ℤ} (hx : Access.int x ∈ (Watched.run (new quantiles_) ops).trace) :
    FitsInt x ∧ (Int32.ofInt x).toInt = x := by
  have hproper : ∀ q ∈ quantiles_, q.Proper := fun q hmem => .of_bounds (hq q hmem)
  suffices hfits : FitsInt x from ⟨hfits, hfits.toInt_ofInt⟩
  induction h with
  | nil => simp [Watched.run, pure] at hx
  | @snoc ops op t u h hguard _ ih =>
      have hrun : CKMSQuantiles.run (new quantiles_) ops = some t := h.foldlM_eq
      obtain ⟨hrep, htargets⟩ := represents_of_run hrun
      rw [Watched.trace_run_snoc hrun, List.mem_append] at hx
      obtain hx | hx := hx
      · exact ih (fun op hop => hops op (List.mem_append_left _ hop)) hx
      · exact Watched.apply_fitsInt hrep (htargets ▸ hproper) (run_grown hproper hrun).sound
          (hops op (by simp)) hguard hx

/-- One value, and a read at one. -/
theorem ints_fit_two_calls : FitsInt 1 ∧ (Int32.ofInt 1).toInt = 1 := by
  have hproper : ∀ q ∈ ([⟨1 / 2, 1 / 20⟩] : List Quantile), q.Proper :=
    List.forall_mem_singleton.mpr (.of_bounds (by norm_num))
  obtain ⟨s, hrun⟩ := guardedRun_of_inserted hproper [.insert (3 : ℚ), .get 1]
    fun before hbefore => by
      have hlength := (length_inserted_le before).trans hbefore.length_le
      exact hlength.trans_lt (by norm_num)
  exact ints_fit (by norm_num) hrun (by norm_num [Op.InUnit])
    (Watched.length_mem_run 1 one_ne_zero 3)

/-- The value `2 ^ 31` is stored in an `int`. -/
theorem not_ints_fit : ∃ x, ¬ FitsInt x ∧ Access.int x ∈ (Watched.run (new [⟨1 / 2, 1 / 20⟩])
    (List.replicate (2 ^ 31) (.insert (1 : ℚ)) ++ [.get 1])).trace :=
  ⟨(2 ^ 31 : ℕ), fun h => by simpa [FitsInt] using h.2, Watched.length_mem_run _ (by simp) 1⟩

end Count

end Promcore.CKMSQuantiles
