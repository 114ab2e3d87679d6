import Promcore.Sketch.FlushedRuns
import Promcore.Sketch.Placing

/-!
# The ends of the sample

The last item is never merged away, the first one may be. A value that is not
below the first item leaves it the first, and one below the last item leaves it
the last.
-/

namespace Promcore.CKMSQuantiles

open LabelledSteps RankSummary

variable {α : Type} [LinearOrder α]

/-- No value of the batch goes in front of a sample of two or more items. -/
def FirstInside (batch : List α) (sample : List (Item α)) : Prop :=
  sample.length ≤ 1 ∨ ∀ first ∈ sample.head?, ∀ v ∈ batch, first.value ≤ v

/-- The value goes before the last item. -/
def BeforeLast (sample : List (Item α)) (v : α) : Prop :=
  (∃ x ∈ sample, v < x.value) ∨ ∃ x ∈ sample.dropLast, v ≤ x.value

/-- No value of the batch goes to the end of two or more items, those placed
before it among them. -/
def LastInside (batch : List α) : List (Item α) → Prop
  | [] => batch.length ≤ 2
  | [x] => batch.length ≤ 1 ∨ ∀ v ∈ batch, v < x.value
  | first :: second :: rest => ∀ v ∈ batch, BeforeLast (first :: second :: rest) v

instance (batch : List α) (sample : List (Item α)) : Decidable (FirstInside batch sample) :=
  inferInstanceAs (Decidable (sample.length ≤ 1 ∨ ∀ first ∈ sample.head?, ∀ v ∈ batch, _))

instance (sample : List (Item α)) (v : α) : Decidable (BeforeLast sample v) :=
  inferInstanceAs (Decidable ((∃ x ∈ sample, v < x.value) ∨ ∃ x ∈ sample.dropLast, v ≤ x.value))

instance (batch : List α) : (sample : List (Item α)) → Decidable (LastInside batch sample)
  | [] => inferInstanceAs (Decidable (batch.length ≤ 2))
  | [x] => inferInstanceAs (Decidable (batch.length ≤ 1 ∨ ∀ v ∈ batch, v < x.value))
  | first :: second :: rest =>
      inferInstanceAs (Decidable (∀ v ∈ batch, BeforeLast (first :: second :: rest) v))

section Placing

variable (quantiles_ : List Quantile)

/-- A value that belongs before the last item is placed before it. -/
theorem insertValue_beforeLast {v : α} {pre post : List (Item α)} {cur : Item α}
    (hsorted : (pre ++ cur :: post).Pairwise (·.value ≤ ·.value))
    (hpre : ∀ x ∈ pre, x.value ≤ v) (hpost : post ≠ [])
    (hbefore : BeforeLast (pre ++ cur :: post) v) :
    ∃ left right, pre ++ cur :: post = left ++ right ∧ right ≠ [] ∧
      (∀ x ∈ left, x.value ≤ v) ∧ (∀ x ∈ right, v ≤ x.value) ∧
      insertValue quantiles_ (pre ++ cur :: post) pre.length (pre.length + 1) v =
        some (left ++ ⟨v, 1, insertDelta quantiles_ (left ++ right).length left.length⟩ :: right,
          left.length, left.length + 1) := by
  obtain ⟨left, right, hsplit, hleft, hright, hrun⟩ :=
    insertValue_spec quantiles_ v pre post cur hsorted hpre
  obtain ⟨passed, cur', post', heq, hpassed, -, left', right', hsplit', hplace, hrun'⟩ :=
    insertValue_place quantiles_ v pre post cur
  have hlength : left.length = left'.length := by
    rw [hrun, Option.some.injEq, Prod.mk.injEq, Prod.mk.injEq] at hrun'
    exact hrun'.2.1
  obtain ⟨rfl, rfl⟩ := List.append_inj (hsplit.symm.trans hsplit') hlength
  refine ⟨left, right, hsplit, ?_, hleft, hright, hrun⟩
  obtain ⟨-, -, rfl⟩ | ⟨hle, rfl, rfl⟩ := hplace
  · simp
  · rintro rfl
    cases passed with
    | nil => exact hpost (List.cons.inj heq).2
    | cons x passed =>
        obtain ⟨rfl, rfl⟩ := List.cons.inj heq
        have hcur : cur.value < v := hpassed cur List.mem_cons_self
        have hfront : ∀ x ∈ pre ++ cur :: passed, x.value < v := by
          intro x hx
          obtain hx | hx := List.mem_append.mp hx
          · have hahead := (List.pairwise_append.mp hsorted).2.2 x hx cur List.mem_cons_self
            exact hahead.trans_lt hcur
          · exact hpassed x hx
        obtain ⟨y, hy, hlt⟩ | ⟨y, hy, hge⟩ := hbefore
        · rw [hsplit, List.append_nil] at hy
          exact absurd (hleft y hy) (not_le.mpr hlt)
        · rw [hsplit, List.append_nil, List.dropLast_concat] at hy
          exact absurd (hfront y hy) (not_lt.mpr hge)

omit [LinearOrder α] in
theorem getLast?_insert {left right : List (Item α)} (x : Item α) (h : right ≠ []) :
    (left ++ x :: right).getLast? = (left ++ right).getLast? := by
  rw [List.getLast?_append_of_ne_nil _ (List.cons_ne_nil _ _), List.getLast?_cons_of_ne_nil h,
    List.getLast?_append_of_ne_nil _ h]

theorem BeforeLast.insert {left right : List (Item α)} {v : α} (h : BeforeLast (left ++ right) v)
    (hright : right ≠ []) (x : Item α) : BeforeLast (left ++ x :: right) v := by
  refine h.imp ?_ ?_
  · rintro ⟨y, hy, hlt⟩
    exact ⟨y, by simp only [List.mem_append, List.mem_cons] at hy ⊢; tauto, hlt⟩
  · rintro ⟨y, hy, hle⟩
    rw [List.dropLast_append_of_ne_nil hright, List.mem_append] at hy
    refine ⟨y, ?_, hle⟩
    rw [List.dropLast_append_of_ne_nil (List.cons_ne_nil _ _), List.dropLast_cons_of_ne_nil hright,
      List.mem_append, List.mem_cons]
    tauto

/-- The `for` loop over values before the last item leaves it the last. -/
theorem insertValues_getLast? (vs : List α) (pre post : List (Item α)) (cur : Item α)
    (hsorted : (pre ++ cur :: post).Pairwise (·.value ≤ ·.value)) (hvs : vs.Pairwise (· ≤ ·))
    (hpre : ∀ v ∈ vs, ∀ x ∈ pre, x.value ≤ v) (hpost : post ≠ [])
    (hbefore : ∀ v ∈ vs, BeforeLast (pre ++ cur :: post) v) {sample' : List (Item α)}
    (hrun : insertValues quantiles_ vs (pre ++ cur :: post) pre.length (pre.length + 1) =
      some sample') : sample'.getLast? = (pre ++ cur :: post).getLast? := by
  induction vs generalizing pre cur post with
  | nil =>
      obtain rfl := Option.some.inj hrun
      rfl
  | cons v vs ih =>
      obtain ⟨left, right, heq, hne, hleft, hright, hplace⟩ := insertValue_beforeLast quantiles_
        hsorted (hpre v List.mem_cons_self) hpost (hbefore v List.mem_cons_self)
      have hvs' := List.pairwise_cons.mp hvs
      simp only [insertValues, hplace, Option.bind_eq_bind, Option.bind_some] at hrun
      rw [heq] at hsorted hbefore ⊢
      have hlast := ih left right _ (sorted_insert hsorted hleft hright) hvs'.2
        (fun w hw x hx => (hleft x hx).trans (hvs'.1 w hw)) hne
        (fun w hw => (hbefore w (List.mem_cons_of_mem _ hw)).insert hne _) hrun
      rwa [getLast?_insert _ hne] at hlast

variable {quantiles_}

/-- The loop over values that are not below the first item leaves it the
first. -/
theorem insertValues_head? {vs : List α} {cur : Item α} {post : List (Item α)}
    (hsorted : (cur :: post).Pairwise (·.value ≤ ·.value)) (hvs : vs.Pairwise (· ≤ ·))
    (hcur : ∀ v ∈ vs, cur.value ≤ v) {sample' : List (Item α)}
    (hrun : insertValues quantiles_ vs (cur :: post) 0 1 = some sample') :
    sample'.head? = some cur := by
  obtain ⟨out, rfl, -⟩ := insertValues_merged (k := 1) (t := 0) (cur :: post).length vs [] post cur
    rfl rfl hsorted hvs hcur hrun
  rfl

/-- A first or a last item has delta zero. -/
def ZeroDelta (item : Option (Item α)) : Prop := ∀ x ∈ item, x.delta = 0

theorem insertValue_single (v : α) (x : Item α) :
    insertValue quantiles_ [x] 0 1 v =
      if v < x.value then some ([⟨v, 1, 0⟩, x], 0, 1) else some ([x, ⟨v, 1, 0⟩], 1, 2) := by
  have hadvance : advance [x] v 0 1 = some (0, 1) := by rw [advance, if_neg (by simp)]
  split
  · next hlt => simp [insertValue, hadvance, hlt, decrement, insertDelta, emplace]
  · next hlt => simp [insertValue, hadvance, hlt, insertDelta, emplace]

/-- A value placed before a single item has delta zero. -/
theorem insertValues_single_head? {vs : List α} {x : Item α} (hvs : vs.Pairwise (· ≤ ·))
    (hx : x.delta = 0) {sample' : List (Item α)}
    (hrun : insertValues quantiles_ vs [x] 0 1 = some sample') : ZeroDelta sample'.head? := by
  have hfirst : ∀ {y : Item α}, y.delta = 0 → ZeroDelta (some y) := fun hy z hz =>
    Option.some.inj hz ▸ hy
  cases vs with
  | nil =>
      obtain rfl := Option.some.inj hrun
      exact hfirst hx
  | cons v vs =>
      have hvs' := List.pairwise_cons.mp hvs
      by_cases hlt : v < x.value
      · simp only [insertValues, insertValue_single, if_pos hlt, Option.bind_eq_bind,
          Option.bind_some] at hrun
        rw [insertValues_head? (by simpa using hlt.le) hvs'.2 hvs'.1 hrun]
        exact hfirst rfl
      · have hle := not_lt.mp hlt
        rw [insertValues_head? (List.pairwise_singleton _ _) hvs
          (List.forall_mem_cons.mpr ⟨hle, fun w hw => hle.trans (hvs'.1 w hw)⟩) hrun]
        exact hfirst hx

/-- Into a sample of one item go one value, or values below it. -/
theorem insertValues_single_getLast? {vs : List α} {x : Item α} (hvs : vs.Pairwise (· ≤ ·))
    (hinside : vs.length ≤ 1 ∨ ∀ v ∈ vs, v < x.value) (hx : x.delta = 0)
    {sample' : List (Item α)} (hrun : insertValues quantiles_ vs [x] 0 1 = some sample') :
    ZeroDelta sample'.getLast? := by
  cases vs with
  | nil =>
      obtain rfl := Option.some.inj hrun
      simpa [ZeroDelta]
  | cons v vs =>
      have hvs' := List.pairwise_cons.mp hvs
      by_cases hlt : v < x.value
      · simp only [insertValues, insertValue_single, if_pos hlt, Option.bind_eq_bind,
          Option.bind_some] at hrun
        have hbefore : ∀ w ∈ vs, BeforeLast [⟨v, 1, 0⟩, x] w := by
          intro w hw
          refine Or.inl ⟨x, by simp, ?_⟩
          obtain hlength | hbelow := hinside
          · rw [List.length_cons] at hlength
            have hpos := List.length_pos_of_mem hw
            omega
          · exact hbelow w (List.mem_cons_of_mem _ hw)
        rw [insertValues_getLast? quantiles_ vs [] [x] ⟨v, 1, 0⟩ (by simpa using hlt.le) hvs'.2
          (by simp) (by simp) hbefore hrun]
        simpa [ZeroDelta]
      · obtain rfl : vs = [] := by
          obtain hlength | hbelow := hinside
          · rw [List.length_cons] at hlength
            exact List.eq_nil_of_length_eq_zero (by omega)
          · exact absurd (hbelow v List.mem_cons_self) hlt
        simp only [insertValues, insertValue_single, if_neg hlt, Option.bind_eq_bind,
          Option.bind_some] at hrun
        obtain rfl := Option.some.inj hrun
        simp [ZeroDelta]

/-- Such a batch keeps the delta of the first item at zero. -/
theorem insertBatch_head? {s placed : CKMSQuantiles α}
    (hsorted : s.sample_.Pairwise (·.value ≤ ·.value)) (hinside : FirstInside s.buffer_ s.sample_)
    (hrun : s.insertBatch = some placed) (h : ZeroDelta s.sample_.head?) :
    ZeroDelta placed.sample_.head? := by
  obtain ⟨-, values, hperm, hvs, hcases⟩ := insertBatch_cases hrun
  obtain ⟨-, -, hplaced⟩ | ⟨b, bs, -, rfl, hloop⟩ | ⟨cur, post, hsample, hloop⟩ := hcases
  · simp [hplaced, ZeroDelta]
  · exact insertValues_single_head? (List.pairwise_cons.mp hvs).2 rfl hloop
  · rw [hsample] at hsorted hinside h
    obtain hlength | hfirst := hinside
    · obtain rfl : post = [] := List.eq_nil_of_length_eq_zero (Nat.le_zero.mp
        (Nat.le_of_succ_le_succ hlength))
      exact insertValues_single_head? hvs (h cur rfl) hloop
    · rw [insertValues_head? hsorted hvs
        (fun v hv => hfirst cur rfl v (hperm.mem_iff.mp hv)) hloop]
      exact h

/-- And such a batch that of the last item. -/
theorem insertBatch_getLast? {s placed : CKMSQuantiles α}
    (hsorted : s.sample_.Pairwise (·.value ≤ ·.value)) (hinside : LastInside s.buffer_ s.sample_)
    (hrun : s.insertBatch = some placed) (h : ZeroDelta s.sample_.getLast?) :
    ZeroDelta placed.sample_.getLast? := by
  obtain ⟨-, values, hperm, hvs, hcases⟩ := insertBatch_cases hrun
  obtain ⟨-, -, hplaced⟩ | ⟨b, bs, hsample, rfl, hloop⟩ | ⟨cur, post, hsample, hloop⟩ := hcases
  · simp [hplaced, ZeroDelta]
  · rw [hsample] at hinside
    have hlength : (b :: bs).length ≤ 2 := hperm.length_eq ▸ hinside
    exact insertValues_single_getLast? (List.pairwise_cons.mp hvs).2
      (Or.inl (Nat.le_of_succ_le_succ hlength)) rfl hloop
  · rw [hsample] at hsorted hinside h
    cases post with
    | nil =>
        have hinside' : values.length ≤ 1 ∨ ∀ v ∈ values, v < cur.value :=
          hinside.imp (hperm.length_eq ▸ ·) fun h v hv => h v (hperm.mem_iff.mp hv)
        exact insertValues_single_getLast? hvs hinside' (h cur rfl) hloop
    | cons next rest =>
        rw [insertValues_getLast? s.quantiles_ values [] (next :: rest) cur hsorted hvs (by simp)
          (by simp) (fun v hv => hinside v (hperm.mem_iff.mp hv)) hloop]
        exact h

/-- Every value has an item that is not above it. -/
def Undercut (sample : List (Item α)) (data : List α) : Prop :=
  ∀ d ∈ data, ∃ x ∈ sample, x.value ≤ d

theorem Undercut.insert {left right : List (Item α)} {data : List α}
    (h : Undercut (left ++ right) data) (x : Item α) :
    Undercut (left ++ x :: right) (x.value :: data) := by
  refine List.forall_mem_cons.mpr ⟨⟨x, by simp, le_rfl⟩, fun d hd => ?_⟩
  obtain ⟨y, hy, hle⟩ := h d hd
  refine ⟨y, ?_, hle⟩
  rw [List.mem_append] at hy
  rw [List.mem_append, List.mem_cons]
  tauto

theorem insertValues_undercut (vs : List α) (pre post : List (Item α)) (cur : Item α)
    {data : List α} (hsorted : (pre ++ cur :: post).Pairwise (·.value ≤ ·.value))
    (hvs : vs.Pairwise (· ≤ ·)) (hpre : ∀ v ∈ vs, ∀ x ∈ pre, x.value ≤ v)
    (h : Undercut (pre ++ cur :: post) data) {sample' : List (Item α)}
    (hrun : insertValues quantiles_ vs (pre ++ cur :: post) pre.length (pre.length + 1) =
      some sample') : Undercut sample' (data ++ vs) := by
  induction vs generalizing pre cur post data with
  | nil =>
      obtain rfl := Option.some.inj hrun
      rwa [List.append_nil]
  | cons v vs ih =>
      obtain ⟨left, right, heq, hleft, hright, hplace⟩ :=
        insertValue_spec quantiles_ v pre post cur hsorted (hpre v List.mem_cons_self)
      have hvs' := List.pairwise_cons.mp hvs
      simp only [insertValues, hplace, Option.bind_eq_bind, Option.bind_some] at hrun
      rw [heq] at hsorted h
      have hrest := ih left right _ (sorted_insert hsorted hleft hright) hvs'.2
        (fun w hw x hx => (hleft x hx).trans (hvs'.1 w hw)) (h.insert _) hrun
      exact fun d hd => hrest d (List.perm_middle.mem_iff.mp hd)

theorem insertBatch_undercut {s placed : CKMSQuantiles α} {data : List α}
    (hsorted : s.sample_.Pairwise (·.value ≤ ·.value)) (h : Undercut s.sample_ data)
    (hrun : s.insertBatch = some placed) : Undercut placed.sample_ (data ++ s.buffer_) := by
  obtain ⟨-, values, hperm, hvs, hcases⟩ := insertBatch_cases hrun
  suffices hvalues : Undercut placed.sample_ (data ++ values) from
    fun d hd => hvalues d ((hperm.append_left data).mem_iff.mpr hd)
  obtain ⟨hsample, rfl, hplaced⟩ | ⟨b, bs, hsample, rfl, hloop⟩ | ⟨cur, post, hsample, hloop⟩ :=
    hcases
  · rw [hsample] at h
    rwa [hplaced, List.append_nil]
  · rw [hsample] at h
    have hseed : Undercut ([] ++ [⟨b, 1, 0⟩]) (b :: data) := Undercut.insert h ⟨b, 1, 0⟩
    have hrest := insertValues_undercut bs [] [] ⟨b, 1, 0⟩ (by simp)
      (List.pairwise_cons.mp hvs).2 (by simp) hseed hloop
    exact fun d hd => hrest d (List.perm_middle.mem_iff.mp hd)
  · rw [hsample] at hsorted h
    exact insertValues_undercut values [] post cur hsorted hvs (by simp) h hloop

end Placing

section Merging

omit [LinearOrder α] in
/-- Where `compress` merges the first item into the second, the two are related
so. -/
def FirstMerge (quantiles_ : List Quantile) (rel : Item α → Item α → Prop) :
    List (Item α) → Prop
  | first :: second :: rest =>
      ((first.g + second.g + second.delta : ℤ) : ℚ) ≤
        allowableError quantiles_ (first :: second :: rest).length 1 → rel first second
  | _ => True

omit [LinearOrder α] in
instance (quantiles_ : List Quantile) (rel : Item α → Item α → Prop) [DecidableRel rel] :
    (sample : List (Item α)) → Decidable (FirstMerge quantiles_ rel sample)
  | [] => .isTrue trivial
  | [_] => .isTrue trivial
  | first :: second :: _ => inferInstanceAs (Decidable (_ → rel first second))

omit [LinearOrder α] in
/-- The first item stays, or becomes the second with the weight of both. -/
theorem compress_head? {s s' : CKMSQuantiles α} {rel : Item α → Item α → Prop}
    (h : FirstMerge s.quantiles_ rel s.sample_) (hrun : s.compress = some s') :
    s'.sample_.head? = s.sample_.head? ∨ ∃ first second merged,
      s.sample_.head? = some first ∧ s'.sample_.head? = some merged ∧ rel first second ∧
        merged.value = second.value ∧ merged.delta = second.delta := by
  unfold compress at hrun
  split at hrun
  · exact Or.inl (Option.some.inj hrun ▸ rfl)
  · next hsize =>
      obtain ⟨quantiles_, count_, sample_, buffer_⟩ := s
      obtain _ | ⟨first, _ | ⟨second, rest⟩⟩ := sample_
      · simp at hsize
      · simp at hsize
      have hloop := compressLoop_spec quantiles_ [] (second :: rest) first
      simp only [List.nil_append, List.length_nil, zero_add] at hloop
      simp only [hloop, Option.bind_eq_bind, Option.bind_some, Option.pure_def,
        Option.some.injEq] at hrun
      subst hrun
      dsimp only at h ⊢
      rw [mergePass]
      split
      · next hfits =>
          have hlength : (first :: second :: rest).length = 0 + 2 + rest.length := by
            simp only [List.length_cons]
            omega
          refine Or.inr ⟨first, second, _, rfl, rfl, h ?_, rfl, rfl⟩
          rw [hlength]
          exact hfits
      · exact Or.inl rfl

theorem compress_getLast? {s s' : CKMSQuantiles α} (hrun : s.compress = some s')
    (h : ZeroDelta s.sample_.getLast?) : ZeroDelta s'.sample_.getLast? := by
  obtain ⟨sample', hcompress, hmerges⟩ := compress_spec s
  obtain rfl := Option.some.inj (hcompress.symm.trans hrun)
  refine Steps.silent_invariant (P := fun sample => ZeroDelta sample.getLast?) ?_ hmerges h
  intro sample sample' hstep hzero
  cases hstep with
  | merge pre post a b _ =>
      cases post with
      | nil =>
          have hb : b.delta = 0 := hzero b (by simp)
          simpa [ZeroDelta] using hb
      | cons x post => simpa [ZeroDelta, List.getLast?_append, List.getLast?_cons_cons] using hzero

end Merging

section Runs

/-- The batch that a flush places leaves the first item the first. -/
def KeepsFirst (s : CKMSQuantiles α) : Prop := FirstInside s.buffer_ s.sample_

/-- And the last item the last. -/
def KeepsLast (s : CKMSQuantiles α) : Prop := LastInside s.buffer_ s.sample_

/-- Where a flush merges the first item, it is related so to the second. -/
def MergesFirst (rel : Item α → Item α → Prop) (s : CKMSQuantiles α) : Prop :=
  ∀ placed ∈ s.insertBatch, FirstMerge s.quantiles_ rel placed.sample_

instance (s : CKMSQuantiles α) : Decidable s.KeepsFirst :=
  inferInstanceAs (Decidable (FirstInside s.buffer_ s.sample_))

instance (s : CKMSQuantiles α) : Decidable s.KeepsLast :=
  inferInstanceAs (Decidable (LastInside s.buffer_ s.sample_))

instance (rel : Item α → Item α → Prop) [DecidableRel rel] (s : CKMSQuantiles α) :
    Decidable (s.MergesFirst rel) :=
  inferInstanceAs (Decidable (∀ placed ∈ s.insertBatch, _))

omit [LinearOrder α] in
theorem FirstMerge.imp {rel rel' : Item α → Item α → Prop} (himp : ∀ a b, rel a b → rel' a b)
    {quantiles_ : List Quantile} {sample : List (Item α)} (h : FirstMerge quantiles_ rel sample) :
    FirstMerge quantiles_ rel' sample := by
  obtain _ | ⟨first, _ | ⟨second, rest⟩⟩ := sample
  · trivial
  · trivial
  · exact fun hfits => himp _ _ (h hfits)

theorem MergesFirst.imp {rel rel' : Item α → Item α → Prop} (himp : ∀ a b, rel a b → rel' a b)
    {s : CKMSQuantiles α} (h : s.MergesFirst rel) : s.MergesFirst rel' :=
  fun placed hplaced => (h placed hplaced).imp himp

variable {quantiles_ : List Quantile}

theorem le_of_head? {sample : List (Item α)} (hsorted : sample.Pairwise (·.value ≤ ·.value))
    {first x : Item α} (hfirst : first ∈ sample.head?) (hx : x ∈ sample) :
    first.value ≤ x.value := by
  obtain ⟨rest, rfl⟩ := List.head?_eq_some_iff.mp hfirst
  obtain rfl | hx := List.mem_cons.mp hx
  · exact le_rfl
  · exact (List.pairwise_cons.mp hsorted).1 x hx

/-- Equal values keep the minimum. -/
theorem undercut_kept :
    KeptByFlush quantiles_ (MergesFirst fun first second => second.value = first.value)
      (Undercut (α := α)) := by
  intro s s' data _ hsum hmerges h hflush
  obtain ⟨placed, hbatch, hcompress⟩ := Option.bind_eq_some_iff.mp hflush
  have hplaced := insertBatch_undercut hsum.sorted h hbatch
  obtain ⟨sample, hspec, hsteps⟩ := insertBatch_spec s hsum.sorted
  have hmerge := hmerges placed hbatch
  obtain rfl := Option.some.inj (hspec.symm.trans hbatch)
  have hsorted := (hsteps.summarizes hsum).sorted
  intro d hd
  obtain ⟨x, hx, hle⟩ := hplaced d hd
  have hne : sample ≠ [] := List.ne_nil_of_mem hx
  have hfirst : sample.head hne ∈ sample.head? := List.head?_eq_some_head hne
  have hlow := (le_of_head? hsorted hfirst hx).trans hle
  obtain hhead | ⟨first, second, merged, hhead, hmerged, hvalue, heq, -⟩ :=
    compress_head? hmerge hcompress
  · exact ⟨_, List.mem_of_mem_head? (hhead ▸ hfirst), hlow⟩
  · obtain rfl : first = sample.head hne := Option.some.inj (hhead.symm.trans hfirst)
    exact ⟨merged, List.mem_of_mem_head? hmerged, (heq.trans hvalue).trans_le hlow⟩

theorem last_kept :
    KeptByFlush quantiles_ (KeepsLast (α := α)) fun sample _ => ZeroDelta sample.getLast? := by
  intro s s' data _ hsum hinside h hflush
  obtain ⟨placed, hbatch, hcompress⟩ := Option.bind_eq_some_iff.mp hflush
  exact compress_getLast? hcompress (insertBatch_getLast? hsum.sorted hinside hbatch h)

theorem first_kept :
    KeptByFlush quantiles_
      (fun s : CKMSQuantiles α => s.KeepsFirst ∧ s.MergesFirst fun _ second => second.delta = 0)
      fun sample _ => ZeroDelta sample.head? := by
  rintro s s' data _ hsum ⟨hinside, hmerges⟩ h hflush
  obtain ⟨placed, hbatch, hcompress⟩ := Option.bind_eq_some_iff.mp hflush
  have hplaced := insertBatch_head? hsum.sorted hinside hbatch h
  have htargets := (insertBatch_cases hbatch).1
  obtain hhead | ⟨first, second, merged, -, hmerged, hzero, -, hdelta⟩ :=
    compress_head? (htargets ▸ hmerges placed hbatch) hcompress
  · rwa [hhead]
  · intro x hx
    obtain rfl := Option.some.inj (hmerged.symm.trans hx)
    exact hdelta.trans hzero

/-- The last item holds the maximum, and has delta zero where no batch has put a
value behind two or more items. The first item holds the minimum where `compress`
has never merged it into another value, and has delta zero where no batch has
put a value before two or more items and no item with another delta was merged
into. -/
theorem ends_of_sample (quantiles_ : List Quantile) (ops : List (Op α)) :
    ∃ s, run (new quantiles_) ops = some s ∧
      (∀ last ∈ s.sample_.getLast?, IsGreatest {d | d ∈ (inserted ops).take s.count_} last.value) ∧
      (SinceReset quantiles_ (MergesFirst fun first second => second.value = first.value) ops s →
        ∀ first ∈ s.sample_.head?, IsLeast {d | d ∈ (inserted ops).take s.count_} first.value) ∧
      (SinceReset quantiles_ KeepsLast ops s → ∀ last ∈ s.sample_.getLast?, last.delta = 0) ∧
      (SinceReset quantiles_
          (fun s => s.KeepsFirst ∧ s.MergesFirst fun _ second => second.delta = 0) ops s →
        ∀ first ∈ s.sample_.head?, first.delta = 0) := by
  obtain ⟨s, hrun, hrep, -⟩ := run_represents quantiles_ ops
  refine ⟨s, hrun, fun last hlast => ?_, fun h first hfirst => ?_, fun h => ?_, fun h => ?_⟩
  · exact ⟨hrep.sample.mem_data last (List.mem_of_getLast? hlast),
      fun d hd => hrep.sample.max_kept last hlast d hd⟩
  · have hundercut : Undercut s.sample_ _ := h.kept (by simp [Undercut]) undercut_kept
    refine ⟨hrep.sample.mem_data first (List.mem_of_mem_head? hfirst), fun d hd => ?_⟩
    obtain ⟨x, hx, hle⟩ := hundercut d hd
    exact (le_of_head? hrep.sample.sorted hfirst hx).trans hle
  · exact h.kept (by simp [ZeroDelta]) last_kept
  · exact h.kept (by simp [ZeroDelta]) first_kept

/-- The flush keeps both ends exact. -/
def KeepsEnds (s : CKMSQuantiles α) : Prop :=
  s.KeepsFirst ∧ s.KeepsLast ∧
    s.MergesFirst fun first second => second.value = first.value ∧ second.delta = 0

instance (s : CKMSQuantiles α) : Decidable s.KeepsEnds :=
  inferInstanceAs (Decidable (_ ∧ _ ∧ s.MergesFirst fun first second =>
    second.value = first.value ∧ second.delta = 0))

/-- The values `3` and `1`, each flushed by a read. -/
theorem ends_of_sample_two : ∃ s, run (new [⟨1 / 2, 1 / 20⟩]) twoReads = some s ∧
    s.sample_.length = 2 ∧
    (∀ first ∈ s.sample_.head?, first.delta = 0 ∧
      IsLeast {d | d ∈ (inserted twoReads).take s.count_} first.value) ∧
    ∀ last ∈ s.sample_.getLast?, last.delta = 0 ∧
      IsGreatest {d | d ∈ (inserted twoReads).take s.count_} last.value := by
  have hsince : SinceReset [⟨1 / 2, 1 / 20⟩] KeepsEnds twoReads
      ⟨[⟨1 / 2, 1 / 20⟩], 2, [⟨1, 1, 0⟩, ⟨3, 1, 0⟩], []⟩ :=
    .of_meets (by decide +kernel) (by decide +kernel)
  obtain ⟨s, hrun, hgreatest, hleast, hlast, hfirst⟩ := ends_of_sample [⟨1 / 2, 1 / 20⟩] twoReads
  obtain rfl := Option.some.inj (hsince.run.symm.trans hrun)
  refine ⟨_, hrun, rfl, fun first hmem => ⟨?_, ?_⟩, fun last hmem => ⟨?_, hgreatest last hmem⟩⟩
  · exact hfirst (hsince.imp fun s h => ⟨h.1, h.2.2.imp fun _ _ hends => hends.2⟩) first hmem
  · exact hleast (hsince.imp fun s h => h.2.2.imp fun _ _ hends => hends.1) first hmem
  · exact hlast (hsince.imp fun s h => h.2.1) last hmem

/-- `1` is merged into `3`. -/
theorem not_ends_of_sample :
    ¬ ∀ (quantiles_ : List Quantile),
      (∀ q ∈ quantiles_, 0 < q.quantile ∧ q.quantile < 1 ∧ 0 < q.error) →
      ∀ (ops : List (Op ℚ)) (s : CKMSQuantiles ℚ), run (new quantiles_) ops = some s →
        (∀ first ∈ s.sample_.head?, first.delta = 0 ∧
          IsLeast {d | d ∈ (inserted ops).take s.count_} first.value) ∧
        (∀ last ∈ s.sample_.getLast?, last.delta = 0 ∧
          IsGreatest {d | d ∈ (inserted ops).take s.count_} last.value) := by
  intro h
  have hrun : run (new [⟨1 / 10, 1 / 10⟩]) [.insert 1, .get (1 / 10), .insert 3, .get (1 / 10)] =
      some (⟨[⟨1 / 10, 1 / 10⟩], 2, [⟨3, 2, 0⟩], []⟩ : CKMSQuantiles ℚ) := by
    decide +kernel
  have hleast := ((h [⟨1 / 10, 1 / 10⟩] (by norm_num) _ _ hrun).1 ⟨3, 2, 0⟩ rfl).2.2
  have hle : (3 : ℚ) ≤ 1 := hleast (by decide +kernel : (1 : ℚ) ∈ [1, 3])
  norm_num at hle

end Runs

end Promcore.CKMSQuantiles
