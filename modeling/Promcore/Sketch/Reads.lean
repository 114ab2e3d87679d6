import Promcore.Sketch.Accuracy

/-!
# Reads in a row

Reads without inserts in between only run further passes of merges. A pass
that changes the sample makes it shorter, so the sample settles, and once a
pass changes nothing all reads are taken from the same sample.
-/

namespace Promcore.CKMSQuantiles

open LabelledSteps

variable {α : Type} [LinearOrder α]

/-- One `get` after the other. -/
def reads : List ℚ → CKMSQuantiles α → Option (CKMSQuantiles α × List (Option α))
  | [], b => some (b, [])
  | q :: qs, b => do
      let (b, value) ← b.get q
      let (b, values) ← reads qs b
      return (b, value :: values)

/-- The same list of reads, a number of times. -/
def rereads (qs : List ℚ) :
    ℕ → CKMSQuantiles α → Option (CKMSQuantiles α × List (List (Option α)))
  | 0, b => some (b, [])
  | n + 1, b => do
      let (b, values) ← reads qs b
      let (b, rest) ← rereads qs n b
      return (b, values :: rest)

/-- A flush changes nothing: the buffer is empty and no item is merged. -/
def Stable (b : CKMSQuantiles α) : Prop := b.flush = some b

/-- Merges alone leave the sample as it is or make it shorter. -/
theorem SampleSteps.eq_or_shorter {quantiles_ : List Quantile} {sample sample' : List (Item α)}
    (steps : SampleSteps quantiles_ sample [] sample') :
    sample' = sample ∨ sample'.length < sample.length := by
  refine Steps.silent_invariant (P := fun s => s = sample ∨ s.length < sample.length) ?_ steps
    (Or.inl rfl)
  intro s t hstep hless
  have hshort : t.length < s.length := by
    cases hstep with
    | merge pre post a b _ =>
        rw [List.length_append, List.length_append, List.length_cons, List.length_cons,
          List.length_cons]
        omega
  rcases hless with rfl | hless
  · exact Or.inr hshort
  · exact Or.inr (hshort.trans hless)

variable {b b₁ : CKMSQuantiles α} {data : List α}

/-- A flush of an empty buffer is a pass of merges. -/
theorem flush_of_flushed (h : Represents b data) (hflushed : b.buffer_ = []) :
    ∃ b', b.flush = some b' ∧ Represents b' data ∧ b'.buffer_ = [] ∧
      b'.quantiles_ = b.quantiles_ ∧ (b' = b ∨ b'.sample_.length < b.sample_.length) := by
  obtain ⟨b', hflush, hrep, hq, hcount, hbuf, hsteps⟩ := h.flush
  refine ⟨b', hflush, hrep, hbuf, hq, ?_⟩
  rw [hflushed] at hsteps
  rcases SampleSteps.eq_or_shorter hsteps with heq | hshort
  · left
    have hlen := h.count_add
    rw [buffer_count_, hflushed] at hlen
    obtain ⟨quantiles_, count_, sample_, buffer_⟩ := b
    obtain ⟨quantiles', count', sample', buffer'⟩ := b'
    simp only [List.length_nil, add_zero] at *
    simp [hq, hcount, hlen, hbuf, hflushed, heq]
  · exact Or.inr hshort

theorem reads_stable (h : Stable b) (qs : List ℚ) : reads qs b = some (b, qs.map b.read) := by
  induction qs with
  | nil => rfl
  | cons q qs ih =>
      have hget : b.get q = some (b, b.read q) := by
        rw [get_eq_flush, show b.flush = some b from h, Option.map_some]
      simp [reads, hget, ih]

/-- All reads after a flush that settles the sample are taken from it. -/
theorem reads_of_flush (hflush : b.flush = some b₁) (h : Stable b₁) (q : ℚ) (qs : List ℚ) :
    reads (q :: qs) b = some (b₁, (q :: qs).map b₁.read) := by
  have hget : b.get q = some (b₁, b₁.read q) := by rw [get_eq_flush, hflush, Option.map_some]
  simp [reads, hget, reads_stable h]

/-- Reads keep the data; they answer NaN exactly when there is none. -/
theorem Represents.reads (h : Represents b data) (qs : List ℚ) :
    ∃ b' values, CKMSQuantiles.reads qs b = some (b', values) ∧ Represents b' data ∧
      values.length = qs.length ∧ ∀ value ∈ values, value = none ↔ data = [] := by
  induction qs generalizing b with
  | nil => exact ⟨b, [], rfl, h, rfl, by simp⟩
  | cons q qs ih =>
      obtain ⟨b₁, -, hget, h₁, -⟩ := h.get q
      obtain ⟨b', x, hget', hx, -⟩ := h.get_mem q
      rw [hget] at hget'
      simp only [Option.some.injEq, Prod.mk.injEq] at hget'
      obtain ⟨rfl, rfl⟩ := hget'
      obtain ⟨b', values, hreads, hrep, hlen, hvalues⟩ := ih h₁
      refine ⟨b', b₁.read q :: values, by simp [CKMSQuantiles.reads, hget, hreads], hrep,
        by simp [hlen], ?_⟩
      intro value hmem
      rcases List.mem_cons.mp hmem with rfl | hmem
      · exact hx
      · exact hvalues value hmem

/-- Reads of a flushed sketch leave it as it is or with a shorter sample. -/
theorem reads_shrink (h : Represents b data) (hflushed : b.buffer_ = []) (qs : List ℚ) :
    ∃ b' values, reads qs b = some (b', values) ∧ Represents b' data ∧ b'.buffer_ = [] ∧
      (b' = b ∨ b'.sample_.length < b.sample_.length) := by
  induction qs generalizing b with
  | nil => exact ⟨b, [], rfl, h, hflushed, Or.inl rfl⟩
  | cons q qs ih =>
      obtain ⟨b₁, hflush, h₁, hbuf, -, hless⟩ := flush_of_flushed h hflushed
      have hget : b.get q = some (b₁, b₁.read q) := by rw [get_eq_flush, hflush, Option.map_some]
      obtain ⟨b', values, hreads, hrep, hbuf', hless'⟩ := ih h₁ hbuf
      refine ⟨b', b₁.read q :: values, by simp [reads, hget, hreads], hrep, hbuf', ?_⟩
      rcases hless with rfl | hless
      · exact hless'
      · rcases hless' with rfl | hless'
        · exact Or.inr hless
        · exact Or.inr (hless'.trans hless)

theorem rereads_stable (h : Stable b) (qs : List ℚ) (n : ℕ) :
    rereads qs n b = some (b, List.replicate n (qs.map b.read)) := by
  induction n with
  | zero => rfl
  | succ n ih => simp [rereads, reads_stable h, ih, List.replicate_succ]

theorem rereads_nil (n : ℕ) : rereads [] n b = some (b, List.replicate n []) := by
  induction n with
  | zero => rfl
  | succ n ih => simp [rereads, reads, ih, List.replicate_succ]

/-- Once the first flush settles the sample, every round of reads is the same. -/
theorem rereads_of_flush (hflush : b.flush = some b₁) (h : Stable b₁) (qs : List ℚ) (n : ℕ) :
    ∃ b', rereads qs n b = some (b', List.replicate n (qs.map b₁.read)) := by
  cases qs with
  | nil => exact ⟨b, rereads_nil n⟩
  | cons q qs =>
      cases n with
      | zero => exact ⟨b, rfl⟩
      | succ n =>
          refine ⟨b₁, ?_⟩
          simp [rereads, reads_of_flush hflush h, rereads_stable h, List.replicate_succ]

/-- Any number of rounds can be read, and each keeps the data. -/
theorem Represents.rereads (h : Represents b data) (qs : List ℚ) (n : ℕ) :
    ∃ b' rounds, CKMSQuantiles.rereads qs n b = some (b', rounds) ∧ rounds.length = n ∧
      ∀ values ∈ rounds, values.length = qs.length ∧
        ∀ value ∈ values, value = none ↔ data = [] := by
  induction n generalizing b with
  | zero => exact ⟨b, [], rfl, rfl, by simp⟩
  | succ n ih =>
      obtain ⟨b₁, values, hreads, h₁, hlen, hvalues⟩ := h.reads qs
      obtain ⟨b', rounds, hrun, hcount, hrounds⟩ := ih h₁
      refine ⟨b', values :: rounds, by simp [CKMSQuantiles.rereads, hreads, hrun],
        by simp [hcount], ?_⟩
      intro values' hmem
      rcases List.mem_cons.mp hmem with rfl | hmem
      · exact ⟨hlen, hvalues⟩
      · exact hrounds values' hmem

/-- A flushed sample has settled, or the next flush makes it shorter. -/
theorem Represents.stable_or_shorter (h : Represents b data) (hflush : b.flush = some b₁) :
    Stable b₁ ∨ ∃ b₂, b₁.flush = some b₂ ∧ b₂.sample_.length < b₁.sample_.length := by
  obtain ⟨b', hflush', h₁, -, -, hbuf, -⟩ := h.flush
  obtain rfl : b' = b₁ := Option.some.inj (hflush'.symm.trans hflush)
  obtain ⟨b₂, hflush₂, -, -, -, heq | hshort⟩ := flush_of_flushed h₁ hbuf
  · exact Or.inl (heq ▸ hflush₂)
  · exact Or.inr ⟨b₂, hflush₂, hshort⟩

/-- After a round of reads the next flush finds a sample shorter than that of
the first flush, unless that one had settled. -/
theorem Represents.next_flush (h : Represents b data) (hflush : b.flush = some b₁)
    (hunsettled : ¬ Stable b₁) (q : ℚ) (qs : List ℚ) :
    ∃ b₂ values b₃, CKMSQuantiles.reads (q :: qs) b = some (b₂, values) ∧ Represents b₂ data ∧
      b₂.flush = some b₃ ∧ b₃.sample_.length < b₁.sample_.length := by
  obtain ⟨b', hflush', h₁, -, -, hbuf, -⟩ := h.flush
  obtain rfl : b' = b₁ := Option.some.inj (hflush'.symm.trans hflush)
  have hget : b.get q = some (b', b'.read q) := by rw [get_eq_flush, hflush, Option.map_some]
  obtain ⟨b₂, values, hreads, h₂, hbuf₂, hless⟩ := reads_shrink h₁ hbuf qs
  obtain ⟨b₃, hflush₃, -, -, -, hless₃⟩ := flush_of_flushed h₂ hbuf₂
  refine ⟨b₂, b'.read q :: values, b₃, by simp [CKMSQuantiles.reads, hget, hreads], h₂, hflush₃, ?_⟩
  rcases hless with rfl | hless
  · rcases hless₃ with rfl | hless₃
    · exact absurd hflush₃ hunsettled
    · exact hless₃
  · rcases hless₃ with rfl | hless₃
    · exact hless
    · exact hless₃.trans hless

/-- From as many rounds on as the flushed sample has items, every round of
reads is the same. -/
theorem rereads_settle (h : Represents b data) (hflush : b.flush = some b₁) (qs : List ℚ)
    (k : ℕ) (hk : b₁.sample_.length ≤ k) {n : ℕ} {b' : CKMSQuantiles α}
    {rounds : List (List (Option α))} (hrun : rereads qs n b = some (b', rounds)) :
    ∃ last, ∀ values ∈ rounds.drop k, values = last := by
  induction k generalizing b b₁ b' n rounds with
  | zero =>
      rcases h.stable_or_shorter hflush with hstable | ⟨b₂, -, hshort⟩
      · obtain ⟨b₂, hall⟩ := rereads_of_flush hflush hstable qs n
        rw [hall, Option.some.injEq, Prod.mk.injEq] at hrun
        exact ⟨_, fun values hmem => List.eq_of_mem_replicate (hrun.2 ▸ hmem)⟩
      · omega
  | succ k ih =>
      by_cases hstable : Stable b₁
      · obtain ⟨b₂, hall⟩ := rereads_of_flush hflush hstable qs n
        rw [hall, Option.some.injEq, Prod.mk.injEq] at hrun
        refine ⟨qs.map b₁.read, fun values hmem => ?_⟩
        rw [← hrun.2] at hmem
        exact List.eq_of_mem_replicate (List.mem_of_mem_drop hmem)
      · cases qs with
        | nil =>
            rw [rereads_nil, Option.some.injEq, Prod.mk.injEq] at hrun
            refine ⟨[], fun values hmem => ?_⟩
            rw [← hrun.2] at hmem
            exact List.eq_of_mem_replicate (List.mem_of_mem_drop hmem)
        | cons q qs =>
            cases n with
            | zero =>
                obtain ⟨-, rfl⟩ := Prod.mk.injEq .. ▸ Option.some.inj hrun
                exact ⟨[], by simp⟩
            | succ n =>
                -- one round later the flushed sample is shorter
                obtain ⟨b₂, values, b₃, hreads, h₂, hflush₃, hshort⟩ :=
                  h.next_flush hflush hstable q qs
                obtain ⟨b₄, rest, hrest, -⟩ := h₂.rereads (q :: qs) n
                simp only [rereads, hreads, hrest, Option.bind_eq_bind, Option.bind_some,
                  Option.pure_def, Option.some.injEq, Prod.mk.injEq] at hrun
                obtain ⟨-, rfl⟩ := hrun
                simpa using ih h₂ hflush₃ (by omega) hrest

section Monotone

/-- On a sorted sample a larger bound never stops the scan at a smaller value. -/
theorem scan_mono {bound bound' : ℚ} (hbound : bound ≤ bound') (r : ℤ) (cur : Item α)
    (rest : List (Item α)) (hsorted : (cur :: rest).Pairwise (·.value ≤ ·.value)) :
    scan bound r cur rest ≤ scan bound' r cur rest := by
  induction rest generalizing r cur with
  | nil => exact le_rfl
  | cons next rest ih =>
      have hrest := List.pairwise_cons.mp hsorted
      rw [scan, scan]
      split
      · split
        · exact le_rfl
        · -- the larger bound steps on, to items that are no smaller
          obtain ⟨k, hk, hscan, -⟩ := scan_spec bound' (r + cur.g) next rest
          rw [hscan]
          exact hrest.1 _ (List.getElem_mem hk)
      · rename_i hwithin
        rw [if_neg (not_lt.mpr ((not_lt.mp hwithin).trans hbound))]
        exact ih _ _ hrest.2

omit [LinearOrder α] in
theorem desired_mono (s : CKMSQuantiles α) {q q' : ℚ} (h : q ≤ q') :
    s.desired q ≤ s.desired q' := by
  have hmul : q * s.count_ ≤ q' * s.count_ :=
    mul_le_mul_of_nonneg_right h (Nat.cast_nonneg s.count_)
  unfold desired truncate
  split
  · split
    · exact Int.ceil_mono hmul
    · -- a negative rank truncates to at most zero, the other one to at least zero
      have hceil : ⌈q * s.count_⌉ ≤ 0 := Int.ceil_le.mpr (by push_cast; linarith)
      have hfloor : 0 ≤ ⌊q' * s.count_⌋ := Int.floor_nonneg.mpr (by linarith)
      omega
  · rw [if_neg (by linarith)]
    exact Int.floor_mono hmul

/-- Reads of one sorted sample are in the order of the quantiles. -/
theorem read_mono (s : CKMSQuantiles α) (hsorted : s.sample_.Pairwise (·.value ≤ ·.value))
    (hq : ∀ q ∈ s.quantiles_, q.Proper ∧ q.error ≤ 1 - q.quantile) {q q' : ℚ}
    (h : q ≤ q') {x x' : α} (hx : s.read q = some x) (hx' : s.read q' = some x') : x ≤ x' := by
  have hbound : s.bound q ≤ s.bound q' :=
    rank_add_half_error_mono hq s.sample_.length (s.desired_mono h)
  unfold read at hx hx'
  cases hsample : s.sample_ with
  | nil => simp [hsample] at hx
  | cons cur rest =>
      simp only [hsample, Option.some.injEq] at hx hx'
      rw [← hx, ← hx']
      exact scan_mono hbound 0 cur rest (hsample ▸ hsorted)

end Monotone

end Promcore.CKMSQuantiles
