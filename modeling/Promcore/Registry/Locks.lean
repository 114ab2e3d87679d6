import Promcore.Library.LockOrder
import Promcore.Metrics.LockedHistogram
import Promcore.Registry.Scrape

/-!
# The locks of the program

The registry, each family, each histogram and each summary have a mutex of
their own. A scrape takes three of them, one inside the other; every other call
takes at most one. No number of threads making any calls can block each other
for ever, as long as the code under the locks ends: the intervals of summaries
are at least one tick, and histograms receive finite amounts.
-/

namespace Promcore

open LockOrder TimeWindowQuantiles Simulation

theorem Histogram.new_counts {buckets : List Double} {h : Histogram}
    (hnew : Histogram.new buckets = .ok h) :
    h.bucket_counts_ = List.replicate (buckets.length + 1) CounterType.new := by
  unfold Histogram.new at hnew
  split at hnew
  · cases hnew
    rfl
  · cases hnew

theorem Summary.observe_isSome {s : Summary} {quantiles_ : List Quantile}
    (h : Serves s.quantile_values_ quantiles_) (hinterval : 1 ≤ s.quantile_values_.rotation_interval_)
    (now : ℤ) (value : ℚ) : ∃ s', s.observe now value = some s' := by
  obtain ⟨w, hrotate⟩ : ∃ w, s.quantile_values_.rotate now = some w :=
    h.turning.rotate_isSome_iff.mpr (Or.inl hinterval)
  obtain ⟨buckets, hbuckets⟩ : ∃ buckets,
      w.ckms_quantiles_.mapM (Bucket.insert · value) = some buckets := by
    rw [exists_mapM_iff]
    intro b hb
    obtain ⟨-, data, hrep⟩ := (h.rotate hrotate).buckets b hb
    obtain ⟨b', hinsert, -⟩ := hrep.insert value
    exact ⟨b', hinsert⟩
  have hinsert : s.quantile_values_.insert now value =
      some { w with ckms_quantiles_ := buckets } := by
    simp [TimeWindowQuantiles.insert, hrotate, hbuckets]
  exact ⟨_, by rw [Summary.observe, hinsert]; rfl⟩

theorem Summary.observe_interval {s s' : Summary} {now : ℤ} {value : ℚ}
    (h : s.observe now value = some s') :
    s'.quantile_values_.rotation_interval_ = s.quantile_values_.rotation_interval_ := by
  obtain ⟨values, hinsert, hs'⟩ := Option.bind_eq_some_iff.mp h
  simp only [TimeWindowQuantiles.insert, Option.bind_eq_bind, Option.bind_eq_some_iff] at hinsert
  obtain ⟨w, hrotate, buckets, -, hvalues⟩ := hinsert
  obtain rfl := Option.some.inj hs'
  obtain rfl := Option.some.inj hvalues
  change w.rotation_interval_ = _
  exact rotateLoop_interval hrotate

theorem Summary.collectQuantiles_interval (quantiles : List Quantile) (clock : ℕ → ℤ)
    {w w' : TimeWindowQuantiles (CKMSQuantiles ℚ)} {entries : List ClientMetric.Quantile}
    (h : Summary.collectQuantiles quantiles clock w = some (w', entries)) :
    w'.rotation_interval_ = w.rotation_interval_ := by
  induction quantiles generalizing clock w entries with
  | nil =>
      obtain ⟨rfl, -⟩ := Prod.mk.injEq .. ▸ Option.some.inj h
      rfl
  | cons quantile quantiles ih =>
      simp only [Summary.collectQuantiles, TimeWindowQuantiles.get, Option.bind_eq_bind,
        Option.bind_eq_some_iff, Option.pure_def, Option.some.injEq, Prod.mk.injEq] at h
      obtain ⟨-, ⟨w₁, hrotate, b, -, read, -, rfl⟩, ⟨w₂, rest⟩, hrest, rfl, -⟩ := h
      rw [ih _ hrest]
      change w₁.rotation_interval_ = _
      exact rotateLoop_interval hrotate

namespace MetricKind

variable {T : MetricKind}

/-- A metric that stays collectable: the interval of a summary is at least one
tick, and the counts of a histogram are finite. -/
def Lasting : (T : MetricKind) → T.Object → Prop
  | .histogram, metric =>
      ∀ c ∈ Promcore.Histogram.bucket_counts_ metric, ∃ x, c.value = .finite x
  | .summary, metric => 1 ≤ (Promcore.Summary.quantile_values_ metric).rotation_interval_
  | _, _ => True

/-- Arguments that make a lasting metric, or that the constructor refuses. -/
def LastingArgs : (T : MetricKind) → T.Args → Prop
  | .summary, (_, max_age, age_buckets, _) =>
      age_buckets < 0 ∨ (1 ≤ age_buckets ∧ age_buckets ≤ max_age)
  | _, _ => True

/-- A call that keeps a metric lasting. -/
def LastingCall : (T : MetricKind) → T.Call → Prop
  | .histogram, call => ∀ bucket_increments sum_of_values,
      call = Promcore.Histogram.Op.observeMultiple bucket_increments sum_of_values →
        ∀ val ∈ bucket_increments, ∃ x, val = .finite x
  | _, _ => True

theorem make_isSome {args : T.Args} (h : T.LastingArgs args) : ∃ made, T.make args = some made := by
  cases T with
  | counterDouble | counterInt | gaugeDouble | gaugeInt | histogram | info => exact ⟨_, rfl⟩
  | summary =>
      obtain ⟨quantiles, max_age, age_buckets, now⟩ := args
      rw [make]
      rcases h with hneg | ⟨hpos, -⟩
      · exact ⟨_, if_pos hneg⟩
      · rw [if_neg (by omega), Promcore.Summary.new, TimeWindowQuantiles.new, if_pos hpos]
        exact ⟨_, rfl⟩

theorem lasting_make {args : T.Args} {metric : T.Object} (h : T.LastingArgs args)
    (hmake : T.make args = some (.ok metric)) : T.Lasting metric := by
  cases T with
  | counterDouble | counterInt | gaugeDouble | gaugeInt | info => trivial
  | histogram =>
      intro c hc
      rw [Promcore.Histogram.new_counts (Option.some.inj hmake)] at hc
      rw [List.eq_of_mem_replicate hc]
      exact ⟨0, rfl⟩
  | summary =>
      obtain ⟨quantiles, max_age, age_buckets, now⟩ := args
      rw [make] at hmake
      split at hmake
      · cases Option.some.inj hmake
      · next hneg =>
          obtain ⟨hpos, hage⟩ := h.resolve_left hneg
          obtain ⟨s, hnew, heq⟩ := Option.map_eq_some_iff.mp hmake
          obtain rfl := Except.ok.inj heq
          obtain ⟨w, hw, hs⟩ := Option.bind_eq_some_iff.mp hnew
          obtain rfl := Option.some.inj hs
          change 1 ≤ w.rotation_interval_
          rw [(turning_new hw).2.interval_eq]
          exact (one_le_tdiv_iff hpos).mpr hage

/-- Every call on a lasting metric ends. -/
theorem apply_isSome {metric : T.Object} (h : T.Sound metric) (hlasting : T.Lasting metric)
    (call : T.Call) : ∃ metric', T.apply metric call = some metric' := by
  cases T with
  | counterDouble | counterInt | gaugeDouble | gaugeInt | histogram => exact ⟨_, rfl⟩
  | info => cases call
  | summary =>
      obtain ⟨now, value⟩ := call
      exact Promcore.Summary.observe_isSome h hlasting now value

theorem lasting_apply {metric metric' : T.Object} {call : T.Call} (hlasting : T.Lasting metric)
    (hcall : T.LastingCall call) (happly : T.apply metric call = some metric') :
    T.Lasting metric' := by
  cases T with
  | counterDouble | counterInt | gaugeDouble | gaugeInt | info => trivial
  | histogram =>
      obtain rfl := Option.some.inj happly
      have hincrementBy (c : CounterType Double) (x : ℚ) (hc : ∃ y, c.value = .finite y) :
          ∃ y, (c.incrementBy (.finite x)).value = .finite y := by
        obtain ⟨y, hy⟩ := hc
        rw [CounterType.incrementBy]
        split
        · exact ⟨y, hy⟩
        · exact ⟨y + x, congrArg (Double.add · (.finite x)) hy⟩
      refine Promcore.Histogram.forall_counters_apply hlasting
        (fun c hc => hincrementBy c 1 hc) (fun incs sum hop val hval c hc => ?_) fun c _ => ⟨0, rfl⟩
      obtain ⟨x, rfl⟩ := hcall incs sum hop val hval
      exact hincrementBy c x hc
  | summary =>
      obtain ⟨now, value⟩ := call
      exact hlasting.trans_eq (Promcore.Summary.observe_interval happly).symm

theorem lasting_collect {metric metric' : T.Object} {clock : ℕ → ℤ} {collected : ClientMetric}
    (hlasting : T.Lasting metric) (hcollect : T.collect metric clock = some (metric', collected)) :
    T.Lasting metric' := by
  cases T with
  | counterDouble | counterInt | gaugeDouble | gaugeInt | info => trivial
  | histogram =>
      obtain ⟨_, -, heq⟩ := Option.map_eq_some_iff.mp hcollect
      obtain ⟨rfl, -⟩ := Prod.mk.injEq .. ▸ heq
      exact hlasting
  | summary =>
      obtain ⟨⟨w, entries⟩, hvalues, heq⟩ := Option.bind_eq_some_iff.mp hcollect
      obtain ⟨rfl, -⟩ := Prod.mk.injEq .. ▸ Option.some.inj heq
      exact hlasting.trans_eq (Promcore.Summary.collectQuantiles_interval _ _ hvalues).symm

theorem Lasting.collectable {metric : T.Object} (hlasting : T.Lasting metric) (clock : ℕ → ℤ) :
    T.Collectable metric clock := by
  cases T with
  | counterDouble | counterInt | gaugeDouble | gaugeInt | info => trivial
  | histogram => exact hlasting
  | summary => exact Or.inl hlasting

/-- Whether the class has a mutex. -/
def Locked : MetricKind → Bool
  | .histogram => true
  | .summary => true
  | _ => false

/-- A call that throws before it takes the lock of the metric. -/
def refuses : (T : MetricKind) → T.Object → T.Call → Bool
  | .histogram, metric, call =>
      match (Promcore.Histogram.prelude (.change call) metric) with
      | .inl _ => true
      | .inr _ => false
  | _, _, _ => false

end MetricKind

/-- All metrics of the family can be changed and collected. -/
def Family.Lasting {T : MetricKind} (f : Family T) : Prop :=
  ∀ entry ∈ f.metrics_, T.Sound entry.object ∧ T.Lasting entry.object

/-- A change of the metrics at an address. -/
theorem Family.Lasting.mapM {T : MetricKind} {f : Family T} (h : f.Lasting) (metric : ℕ)
    (change : Entry T → Option (Entry T))
    (hchange : ∀ entry, T.Sound entry.object ∧ T.Lasting entry.object →
      ∃ entry', change entry = some entry' ∧ T.Sound entry'.object ∧ T.Lasting entry'.object) :
    ∃ metrics, f.metrics_.mapM (fun entry =>
        if entry.address = metric then change entry else some entry) = some metrics ∧
      Family.Lasting { f with metrics_ := metrics } := by
  have hentry (entry : Entry T) (hentry : T.Sound entry.object ∧ T.Lasting entry.object) :
      ∃ entry', (if entry.address = metric then change entry else some entry) = some entry' ∧
        T.Sound entry'.object ∧ T.Lasting entry'.object := by
    split
    · exact hchange entry hentry
    · exact ⟨entry, rfl, hentry⟩
  obtain ⟨metrics, hmetrics⟩ := (exists_mapM_iff f.metrics_).mpr fun entry hmem => by
    obtain ⟨entry', hentry', -⟩ := hentry entry (h entry hmem)
    exact ⟨entry', hentry'⟩
  refine ⟨metrics, hmetrics, fun entry' hentry' => ?_⟩
  obtain ⟨entry, hmem, hmade⟩ := exists_of_mem_forall₂ (forall₂_of_mapM hmetrics) hentry'
  obtain ⟨made, heq, hlasting⟩ := hentry entry (h entry hmem)
  obtain rfl := Option.some.inj (heq.symm.trans hmade)
  exact hlasting

theorem Family.Lasting.update {T : MetricKind} {f : Family T} (h : f.Lasting) (metric : ℕ)
    {call : T.Call} (hcall : T.LastingCall call) :
    ∃ f', f.update metric call = some f' ∧ f'.Lasting := by
  have hmetrics := h.mapM metric (fun entry => do
    let object ← T.apply entry.object call
    return { entry with object }) fun entry hentry => by
      obtain ⟨object, hobject⟩ := MetricKind.apply_isSome hentry.1 hentry.2 call
      exact ⟨{ entry with object }, by rw [hobject]; rfl, MetricKind.sound_apply hentry.1 hobject,
        MetricKind.lasting_apply hentry.2 hcall hobject⟩
  obtain ⟨metrics, hmetrics, hlasting⟩ := hmetrics
  exact ⟨_, by rw [Family.update, hmetrics]; rfl, hlasting⟩

/-- The family after its metric at an address has been collected. -/
def Family.readMetric {T : MetricKind} (f : Family T) (metric : ℕ) (clock : ℕ → ℤ) :
    Option (Family T) := do
  let metrics ← f.metrics_.mapM fun entry =>
    if entry.address = metric then (f.collectMetric entry clock).map Prod.fst else some entry
  return { f with metrics_ := metrics }

theorem Family.Lasting.readMetric {T : MetricKind} {f : Family T} (h : f.Lasting) (metric : ℕ)
    (clock : ℕ → ℤ) : ∃ f', f.readMetric metric clock = some f' ∧ f'.Lasting := by
  have hmetrics := h.mapM metric (fun entry =>
    (f.collectMetric entry clock).map Prod.fst) fun entry hentry => by
      obtain ⟨⟨object, collected⟩, hobject⟩ :=
        (MetricKind.collect_isSome_iff hentry.1 clock).mpr (hentry.2.collectable clock)
      exact ⟨{ entry with object }, by rw [Family.collectMetric, hobject]; rfl,
        MetricKind.sound_collect hentry.1 hobject, MetricKind.lasting_collect hentry.2 hobject⟩
  obtain ⟨metrics, hmetrics, hlasting⟩ := hmetrics
  exact ⟨_, by rw [Family.readMetric, hmetrics]; rfl, hlasting⟩

namespace Registry

/-- The mutexes of the program. -/
inductive Lock where
  | registry
  | family (address : ℕ)
  | metric (family address : ℕ)
deriving DecidableEq

def Lock.level : Lock → ℕ
  | .registry => 0
  | .family _ => 1
  | .metric _ _ => 2

/-- A call of any of the interfaces. -/
inductive Call where
  | op (op : Op)
  | has (T : MetricKind) (family : ℕ) (labels : Labels)
  | collectFamily (T : MetricKind) (family : ℕ) (clock : ℕ → ℕ → ℤ)
  | collectMetric (T : MetricKind) (family metric : ℕ) (clock : ℕ → ℤ)

/-- The code between two changes of the locks. -/
inductive Piece where
  | change (op : Op)
  | look
  | make (T : MetricKind) (family : ℕ) (labels : Labels) (address : ℕ) (args : T.Args)
  | store (T : MetricKind) (family : ℕ) (labels : Labels) (address : ℕ) (object : T.Object)
  | enter (T : MetricKind) (family metric : ℕ) (call : T.Call)
  | collectAll (clock : ℕ → ℕ → ℕ → ℤ)
  | collectFamily (T : MetricKind) (family : ℕ) (clock : ℕ → ℕ → ℤ)
  | collectMetric (T : MetricKind) (family metric : ℕ) (clock : ℕ → ℤ)

/-- Code on a metric, under its lock where it has one. -/
def onMetric (T : MetricKind) (family metric : ℕ) (piece : Piece) : List (Task Lock Piece) :=
  if T.Locked then guarded (.metric family metric) [.run piece] else [.run piece]

/-- What a call does with the locks. -/
def Call.tasks : Call → List (Task Lock Piece)
  | .op (.register T address name help labels) =>
      guarded .registry [.run (.change (.register T address name help labels))]
  | .op (.remove T family) => guarded .registry [.run (.change (.remove T family))]
  | .op (.addMetric T family labels address args) => [.run (.make T family labels address args)]
  | .op (.removeMetric T family metric) =>
      guarded (.family family) [.run (.change (.removeMetric T family metric))]
  | .op (.update T family metric call) => [.run (.enter T family metric call)]
  | .op (.collect clock) => guarded .registry [.run (.collectAll clock)]
  | .has _ family _ => guarded (.family family) [.run .look]
  | .collectFamily T family clock =>
      guarded (.family family) [.run (.collectFamily T family clock)]
  | .collectMetric T family metric clock =>
      onMetric T family metric (.collectMetric T family metric clock)

/-- The metric at an address in the family at another one. -/
def findMetric (r : Registry) (T : MetricKind) (family metric : ℕ) : Option (Entry T) := do
  let f ← (r.getFamilies T).find? fun f => f.address = family
  f.metrics_.find? fun entry => entry.address = metric

/-- What a piece of code makes of the registry, and what it goes on to. Code on
an object that is gone does nothing. -/
def Piece.code : Piece → Registry → Option (Registry × List (Task Lock Piece))
  | .change op, r => (r.apply op).map fun r' => (r', [])
  | .look, r => some (r, [])
  | .make T family labels address args, r => (T.make args).map fun
      | .error _ => (r, [])
      | .ok object => (r, guarded (.family family) [.run (.store T family labels address object)])
  | .store T family labels address object, r =>
      (r.onFamily T family fun f => some (f.addObject labels address object).2).map fun r' => (r', [])
  | .enter T family metric call, r =>
      if (r.findMetric T family metric).any fun entry => T.refuses entry.object call then some (r, [])
      else some (r, onMetric T family metric (.change (.update T family metric call)))
  | .collectAll clock, r => some (r, r.families.flatMap fun held =>
      guarded (.family held.2.address)
        [.run (.collectFamily held.1 held.2.address (clock held.2.address))])
  | .collectFamily T family clock, r => some (r,
      ((r.getFamilies T).filter fun f => f.address = family).flatMap fun f =>
        f.metrics_.flatMap fun entry => onMetric T family entry.address
          (.collectMetric T family entry.address (clock entry.address)))
  | .collectMetric T family metric clock, r =>
      (r.onFamily T family fun f => f.readMetric metric clock).map fun r' => (r', [])

/-- Nothing in a call keeps a metric from being lasting. -/
def Call.Lasting : Call → Prop
  | .op (.addMetric T _ _ _ args) => T.LastingArgs args
  | .op (.update T _ _ call) => T.LastingCall call
  | _ => True

/-- All metrics can be changed and collected. -/
def Lasting (r : Registry) : Prop := ∀ T, ∀ f ∈ r.getFamilies T, f.Lasting

theorem lasting_new (mode : InsertBehavior) : (new mode).Lasting := by
  intro T f hf
  exact absurd hf (not_mem_new f)

section Pieces

variable {r : Registry} {T : MetricKind} {family metric : ℕ}

theorem Lasting.onFamily (h : r.Lasting) (family : ℕ) {call : Family T → Option (Family T)}
    (hcall : ∀ f : Family T, f.Lasting → ∃ f', call f = some f' ∧ f'.Lasting) :
    ∃ r', r.onFamily T family call = some r' ∧ r'.Lasting := by
  obtain ⟨families, hfamilies⟩ : ∃ families, (r.getFamilies T).mapM
      (fun f => if f.address = family then call f else some f) = some families := by
    rw [exists_mapM_iff]
    intro f hf
    split
    · obtain ⟨f', hf', -⟩ := hcall f (h T f hf)
      exact ⟨f', hf'⟩
    · exact ⟨f, rfl⟩
  have hmade : r.onFamily T family call = some (r.setFamilies T families) := by
    rw [Registry.onFamily, hfamilies]
    rfl
  refine ⟨_, hmade, fun T' f' hf' => ?_⟩
  obtain ⟨f, hf, hcalled⟩ := exists_of_mem_forall₂ (onFamily_called hmade T') hf'
  cases hcalled with
  | elsewhere _ => exact h T' f' hf
  | @called f f' _ heq =>
      obtain ⟨f'', hf'', hlasting⟩ := hcall f (h T f hf)
      obtain rfl := Option.some.inj (hf''.symm.trans heq)
      exact hlasting

theorem Lasting.register (h : r.Lasting) (T : MetricKind) (address : ℕ) (name help : Str)
    (labels : Labels) : (r.add T address name help labels).2.Lasting := by
  intro T' f hf
  rcases mem_of_register hf with hf | hempty
  · exact h T' f hf
  · intro entry hentry
    rw [hempty] at hentry
    exact absurd hentry List.not_mem_nil

theorem Lasting.store (h : r.Lasting) (labels : Labels) (address : ℕ) {object : T.Object}
    (hobject : T.Sound object ∧ T.Lasting object) :
    ∃ r', Piece.code (.store T family labels address object) r = some (r', []) ∧ r'.Lasting := by
  have hadd (f : Family T) (hf : f.Lasting) : (f.addObject labels address object).2.Lasting := by
    rcases f.addObject_cases labels address object with ⟨entry, -, hadd⟩ |
      ⟨-, -, exception, hadd⟩ | ⟨-, -, hadd⟩
    · rwa [hadd]
    · rwa [hadd]
    · rw [hadd]
      intro entry hentry
      rcases List.mem_append.mp hentry with hentry | hentry
      · exact hf entry hentry
      · rwa [List.mem_singleton.mp hentry]
  obtain ⟨r', hr', hlasting⟩ := h.onFamily family fun f hf => ⟨_, rfl, hadd f hf⟩
  exact ⟨r', by rw [Piece.code, hr', Option.map_some], hlasting⟩

theorem Lasting.removeMetric (h : r.Lasting) (metric : Option ℕ) :
    ∃ r', Piece.code (.change (.removeMetric T family metric)) r = some (r', []) ∧ r'.Lasting := by
  obtain ⟨r', hr', hlasting⟩ := h.onFamily family fun (f : Family T) hf =>
    ⟨f.remove metric, rfl, fun entry hentry => hf entry (List.mem_of_mem_eraseP hentry)⟩
  exact ⟨r', by rw [Piece.code, Registry.apply, hr', Option.map_some], hlasting⟩

theorem Lasting.update (h : r.Lasting) {call : T.Call} (hcall : T.LastingCall call) :
    ∃ r', Piece.code (.change (.update T family metric call)) r = some (r', []) ∧ r'.Lasting := by
  obtain ⟨r', hr', hlasting⟩ := h.onFamily family fun (f : Family T) hf => hf.update metric hcall
  exact ⟨r', by rw [Piece.code, Registry.apply, hr', Option.map_some], hlasting⟩

theorem Lasting.collectMetric (h : r.Lasting) (clock : ℕ → ℤ) :
    ∃ r', Piece.code (.collectMetric T family metric clock) r = some (r', []) ∧ r'.Lasting := by
  obtain ⟨r', hr', hlasting⟩ := h.onFamily family fun (f : Family T) hf => hf.readMetric metric clock
  exact ⟨r', by rw [Piece.code, hr', Option.map_some], hlasting⟩

end Pieces

section Balance

/-- Code that leaves the held locks as it finds them and all metrics lasting. -/
abbrev Fine (held : List Lock) (body : List (Task Lock Piece)) : Prop :=
  Balanced Piece.code Lock.level Lasting held body

variable {held : List Lock}

/-- A piece that goes on to nothing. -/
theorem fine_leaf {piece : Piece}
    (h : ∀ r : Registry, r.Lasting → ∃ r', piece.code r = some (r', []) ∧ r'.Lasting) :
    Fine held [.run piece] := by
  refine Balanced.run (fun r hr => ?_) fun {r r' more} hr hcode => ?_
  · obtain ⟨r', hr', -⟩ := h r hr
    exact ⟨_, hr'⟩
  · obtain ⟨r₁, hr₁, hlasting⟩ := h r hr
    obtain ⟨rfl, rfl⟩ := Prod.mk.injEq .. ▸ Option.some.inj (hr₁.symm.trans hcode)
    exact ⟨hlasting, Balanced.nil⟩

/-- A piece that only says what to go on to. -/
theorem fine_plan {piece : Piece} (plan : Registry → List (Task Lock Piece))
    (hcode : ∀ r, piece.code r = some (r, plan r)) (hplan : ∀ r : Registry, Fine held (plan r)) :
    Fine held [.run piece] := by
  refine Balanced.run (fun r _ => ⟨_, hcode r⟩) fun {r r' more} hr hresult => ?_
  obtain ⟨rfl, rfl⟩ := Prod.mk.injEq .. ▸ Option.some.inj ((hcode r).symm.trans hresult)
  exact ⟨hr, hplan r⟩

/-- The lock of a metric comes after all others. -/
theorem fine_onMetric {T : MetricKind} {family metric : ℕ} {piece : Piece}
    (horder : ∀ l ∈ held, l.level < 2) (h : ∀ held, Fine held [.run piece]) :
    Fine held (onMetric T family metric piece) := by
  rw [onMetric]
  split
  · exact Balanced.guarded horder (h _)
  · exact h held

theorem fine_collectFamily {T : MetricKind} {family : ℕ} {clock : ℕ → ℕ → ℤ}
    (horder : ∀ l ∈ held, l.level < 2) : Fine held [.run (.collectFamily T family clock)] :=
  fine_plan _ (fun _ => rfl) fun _ => Balanced.flatMap fun _ _ => Balanced.flatMap fun _ _ =>
    fine_onMetric horder fun _ => fine_leaf fun _ hr => hr.collectMetric _

theorem fine_collectAll {clock : ℕ → ℕ → ℕ → ℤ} (horder : ∀ l ∈ held, l.level < 1) :
    Fine held [.run (.collectAll clock)] := by
  refine fine_plan _ (fun _ => rfl) fun r => Balanced.flatMap fun f _ => Balanced.guarded horder ?_
  refine fine_collectFamily fun l hl => ?_
  rcases List.mem_cons.mp hl with rfl | hl
  · exact Nat.one_lt_two
  · exact (horder l hl).trans Nat.one_lt_two

theorem fine_make {T : MetricKind} {family address : ℕ} {labels : Labels} {args : T.Args}
    (h : T.LastingArgs args) : Fine [] [.run (.make T family labels address args)] := by
  obtain ⟨made, hmade⟩ := MetricKind.make_isSome h
  cases made with
  | error exception =>
      exact fine_leaf fun r hr => ⟨r, by rw [Piece.code, hmade]; rfl, hr⟩
  | ok object =>
      refine fine_plan _ (fun r => by rw [Piece.code, hmade]; rfl) fun _ =>
        Balanced.guarded (by simp) (fine_leaf fun r hr => hr.store labels address
          ⟨MetricKind.sound_make hmade, MetricKind.lasting_make h hmade⟩)

theorem fine_enter {T : MetricKind} {family metric : ℕ} {call : T.Call} (h : T.LastingCall call) :
    Fine [] [.run (.enter T family metric call)] := by
  refine fine_plan (fun r =>
    if (r.findMetric T family metric).any fun entry => T.refuses entry.object call then []
    else onMetric T family metric (.change (.update T family metric call))) (fun r => ?_) fun r => ?_
  · rw [Piece.code]
    split <;> rfl
  · split
    · exact Balanced.nil
    · exact fine_onMetric (by simp) fun _ => fine_leaf fun r hr => hr.update h

/-- Every call takes the locks in their order and gives them back. -/
theorem fine_call {call : Call} (h : call.Lasting) : Fine [] call.tasks := by
  cases call with
  | op op =>
      cases op with
      | register T address name help labels =>
          exact Balanced.guarded (by simp) (fine_leaf fun r hr =>
            ⟨_, rfl, hr.register T address name help labels⟩)
      | remove T family =>
          exact Balanced.guarded (by simp) (fine_leaf fun r hr =>
            ⟨_, rfl, fun T' f hf => hr T' f (mem_of_remove hf)⟩)
      | addMetric T family labels address args => exact fine_make h
      | removeMetric T family metric =>
          exact Balanced.guarded (by simp) (fine_leaf fun r hr => hr.removeMetric metric)
      | update T family metric call => exact fine_enter h
      | collect clock => exact Balanced.guarded (by simp) (fine_collectAll (by simp [Lock.level]))
  | has T family labels => exact Balanced.guarded (by simp) (fine_leaf fun r hr => ⟨r, rfl, hr⟩)
  | collectFamily T family clock =>
      exact Balanced.guarded (by simp) (fine_collectFamily (by simp [Lock.level]))
  | collectMetric T family metric clock =>
      exact fine_onMetric (by simp) fun _ => fine_leaf fun r hr => hr.collectMetric clock

end Balance

/-- Threads that make calls on a new registry. -/
def startOf {θ : Type} (mode : InsertBehavior) (calls : θ → List Call) :
    LockOrder.Shared θ Registry Lock Piece :=
  LockOrder.Shared.start (new mode) fun t => (calls t).flatMap Call.tasks

theorem ordered_startOf {θ : Type} {mode : InsertBehavior} {calls : θ → List Call}
    (h : ∀ t, ∀ call ∈ calls t, call.Lasting) :
    Ordered Piece.code Lock.level Lasting (startOf mode calls) :=
  ordered_start (lasting_new mode) fun t =>
    (Balanced.flatMap fun call hcall => fine_call (h t call hcall)).wellLocked

/-- However the threads interleave, one of them can go on until all calls are
done; no run goes on for ever, and in the end all locks are free. -/
theorem calls_end {θ : Type} [Finite θ] [DecidableEq θ] {mode : InsertBehavior}
    {calls : θ → List Call} (h : ∀ t, ∀ call ∈ calls t, call.Lasting)
    {s : LockOrder.Shared θ Registry Lock Piece}
    (hs : Relation.ReflTransGen (LockOrder.Step Piece.code) (startOf mode calls) s) :
    ((∀ t, s.tasks t = []) ∨ ∃ s', LockOrder.Step Piece.code s s') ∧
      ((∀ t, s.tasks t = []) → ∀ l, s.holder l = none) ∧
      (∃ s', Relation.ReflTransGen (LockOrder.Step Piece.code) s s' ∧ ∀ t, s'.tasks t = []) ∧
      ¬ ∃ run : ℕ → LockOrder.Shared θ Registry Lock Piece,
        run 0 = s ∧ ∀ n, LockOrder.Step Piece.code (run n) (run (n + 1)) := by
  have hordered := (ordered_startOf h).steps hs
  exact ⟨hordered.progress, hordered.free, hordered.ends⟩

/-- One thread registers a family of summaries and adds one, the other one
scrapes. -/
def summaryCalls : Bool → List Call
  | false => [.op (.register .summary 0 "wait".toList [] ⟨[], Labels.sorted_nil⟩),
      .op (.addMetric .summary 0 ⟨[], Labels.sorted_nil⟩ 1 ([⟨1 / 2, 1 / 20⟩], 10, 2, 0)),
      .op (.update .summary 0 1 ((3, 7) : ℤ × ℚ))]
  | true => [.op (.collect fun _ _ _ => 12), .has .summary 0 ⟨[], Labels.sorted_nil⟩]

theorem calls_end_summary :
    ∃ s', Relation.ReflTransGen (LockOrder.Step Piece.code) (startOf .merge summaryCalls) s' ∧
      ∀ t, s'.tasks t = [] := by
  have hlasting : ∀ t, ∀ call ∈ summaryCalls t, call.Lasting := by
    intro t
    cases t with
    | false =>
        simp only [summaryCalls, List.forall_mem_cons]
        exact ⟨trivial, Or.inr ⟨by decide, by decide⟩, trivial, by simp⟩
    | true =>
        simp only [summaryCalls, List.forall_mem_cons]
        exact ⟨trivial, trivial, by simp⟩
  exact (calls_end hlasting .refl).2.2.1

end Registry

end Promcore
