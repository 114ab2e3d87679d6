import Promcore.Metrics.Histogram
import Promcore.Metrics.Summary
import Promcore.Registry.Names

/-!
# Families of metrics

`Family<T>` for the seven types of metrics. Objects on the heap carry their
address, since callers refer to a family or a metric by it. The map of a
family is kept in the order of insertion; the order of an unordered map is not
specified, and nothing here depends on it.
-/

namespace Promcore

/-- `Info` has no state. -/
structure Info where
deriving DecidableEq

def Info.collect (_ : Info) : ClientMetric := { info := .finite 1 }

/-- The type parameter of `Family`. -/
inductive MetricKind where
  | counterDouble
  | counterInt
  | gaugeDouble
  | gaugeInt
  | histogram
  | info
  | summary
deriving DecidableEq

namespace MetricKind

/-- `T::metric_type`. -/
def metricType : MetricKind → MetricType
  | .counterDouble => .counter
  | .counterInt => .counter
  | .gaugeDouble => .gauge
  | .gaugeInt => .gauge
  | .histogram => .histogram
  | .info => .info
  | .summary => .summary

/-- The class `T` itself. -/
def Object : MetricKind → Type
  | .counterDouble => CounterType Double
  | .counterInt => CounterType Int64
  | .gaugeDouble => GaugeType Double
  | .gaugeInt => GaugeType Int64
  | .histogram => Promcore.Histogram
  | .info => Promcore.Info
  | .summary => Promcore.Summary

instance (T : MetricKind) : DecidableEq T.Object :=
  match T with
  | .counterDouble => inferInstanceAs (DecidableEq (CounterType Double))
  | .counterInt => inferInstanceAs (DecidableEq (CounterType Int64))
  | .gaugeDouble => inferInstanceAs (DecidableEq (GaugeType Double))
  | .gaugeInt => inferInstanceAs (DecidableEq (GaugeType Int64))
  | .histogram => inferInstanceAs (DecidableEq Promcore.Histogram)
  | .info => inferInstanceAs (DecidableEq Promcore.Info)
  | .summary => inferInstanceAs (DecidableEq Promcore.Summary)

/-- The arguments of `T`'s constructor; a summary's start with its targets and
end with the clock reading it takes. -/
def Args : MetricKind → Type
  | .counterDouble => Unit
  | .counterInt => Unit
  | .gaugeDouble => Double
  | .gaugeInt => Int64
  | .histogram => List Double
  | .info => Unit
  | .summary => List Quantile × ℤ × ℤ × ℤ

/-- `make_unique<T>(args...)`; no result where the constructor has none. A ring
of a negative number of buckets is refused by the vector's constructor. -/
def make : (T : MetricKind) → T.Args → Option (Except Exception T.Object)
  | .counterDouble, _ => some (.ok (CounterType.new : CounterType Double))
  | .counterInt, _ => some (.ok (CounterType.new : CounterType Int64))
  | .gaugeDouble, value => some (.ok (GaugeType.new (value : Double)))
  | .gaugeInt, value => some (.ok (GaugeType.new (value : Int64)))
  | .histogram, buckets => some (Promcore.Histogram.new buckets)
  | .info, _ => some (.ok Promcore.Info.mk)
  | .summary, (quantiles, max_age, age_buckets, now) =>
      if age_buckets < 0 then
        some (.error (.length_error "cannot create std::vector larger than max_size()"))
      else (Promcore.Summary.new quantiles max_age age_buckets now).map .ok

/-- `T::Collect`, with the clock readings a summary takes; reading a summary
changes it. -/
def collect : (T : MetricKind) → T.Object → (ℕ → ℤ) → Option (T.Object × ClientMetric)
  | .counterDouble, metric, _ => some (metric, CounterType.collect (metric : CounterType Double))
  | .counterInt, metric, _ => some (metric, CounterType.collect (metric : CounterType Int64))
  | .gaugeDouble, metric, _ => some (metric, GaugeType.collect (metric : GaugeType Double))
  | .gaugeInt, metric, _ => some (metric, GaugeType.collect (metric : GaugeType Int64))
  | .histogram, metric, _ => (Promcore.Histogram.collect metric).map fun collected =>
      (metric, collected)
  | .info, metric, _ => some (metric, Promcore.Info.collect metric)
  | .summary, metric, clock => Promcore.Summary.collect metric clock

/-- A call that changes a metric; a summary's is the clock reading and the
value of `Observe`. -/
def Call : MetricKind → Type
  | .counterDouble => CounterType.Call Double
  | .counterInt => CounterType.Call Int64
  | .gaugeDouble => GaugeType.Call Double
  | .gaugeInt => GaugeType.Call Int64
  | .histogram => Promcore.Histogram.Op
  | .info => Empty
  | .summary => ℤ × ℚ

def apply : (T : MetricKind) → T.Object → T.Call → Option T.Object
  | .counterDouble, metric, call => some (CounterType.apply (metric : CounterType Double) call)
  | .counterInt, metric, call => some (CounterType.apply (metric : CounterType Int64) call)
  | .gaugeDouble, metric, call => some (GaugeType.apply (metric : GaugeType Double) call)
  | .gaugeInt, metric, call => some (GaugeType.apply (metric : GaugeType Int64) call)
  | .histogram, metric, call => some (Promcore.Histogram.apply metric call)
  | .info, _, call => nomatch call
  | .summary, metric, (now, value) => Promcore.Summary.observe metric now value

end MetricKind

structure MetricFamily where
  name : Str
  help : Str
  type : MetricType := .untyped
  metric : List ClientMetric
deriving DecidableEq

/-- An entry of a family's map: the labels, and the metric they lead to. -/
structure Entry (T : MetricKind) where
  labels : Labels
  address : ℕ
  object : T.Object
deriving DecidableEq

structure Family (T : MetricKind) where
  address : ℕ
  metrics_ : List (Entry T)
  name_ : Str
  help_ : Str
  constant_labels_ : Labels
  valid_name : checkMetricName name_ = true
  valid_labels : ∀ name ∈ constant_labels_.names, checkLabelName name T.metricType = true
deriving DecidableEq

namespace Family

variable {T : MetricKind}

/-- The constructor, which throws on a name that is not valid. -/
def new (T : MetricKind) (address : ℕ) (name help : Str) (constant_labels : Labels) :
    Except Exception (Family T) :=
  if hname : checkMetricName name = true then
    if hlabels : ∀ label_name ∈ constant_labels.names,
        checkLabelName label_name T.metricType = true then
      .ok ⟨address, [], name, help, constant_labels, hname, hlabels⟩
    else .error (.invalid_argument "Invalid label name")
  else .error (.invalid_argument "Invalid metric name")

def getName (f : Family T) : Str := f.name_

def getConstantLabels (f : Family T) : Labels := f.constant_labels_

/-- `metrics_.find(labels)`. -/
def find (f : Family T) (labels : Labels) : Option (Entry T) :=
  f.metrics_.find? fun entry => entry.labels = labels

def has (f : Family T) (labels : Labels) : Bool := (f.find labels).isSome

/-- The loop of `Add` over the names of the new labels. -/
def checkLabels (f : Family T) : List Str → Option Exception
  | [] => none
  | label_name :: rest =>
      if !checkLabelName label_name T.metricType then
        some (.invalid_argument "Invalid label name")
      else if f.constant_labels_.count label_name then
        some (.invalid_argument "Duplicate label name")
      else f.checkLabels rest

/-- The private `Add`, which stores an object. The result is the address of the
metric stored under the labels, and the family after the call. -/
def addObject (f : Family T) (labels : Labels) (address : ℕ) (object : T.Object) :
    Except Exception ℕ × Family T :=
  match f.find labels with
  | some entry => (.ok entry.address, f)
  | none =>
      let inserted := f.metrics_ ++ [⟨labels, address, object⟩]
      match f.checkLabels labels.names with
      | some exception =>
          (.error exception, { f with metrics_ := inserted.filter fun entry => entry.labels ≠ labels })
      | none => (.ok address, { f with metrics_ := inserted })

/-- `Add(labels, args...)`: construct the metric first, then store it. -/
def add (f : Family T) (labels : Labels) (address : ℕ) (args : T.Args) :
    Option (Except Exception ℕ × Family T) :=
  (T.make args).map fun
    | .error exception => (.error exception, f)
    | .ok object => f.addObject labels address object

/-- `Remove(metric)`; a null pointer is no address. -/
def remove (f : Family T) (metric : Option ℕ) : Family T :=
  { f with metrics_ := f.metrics_.eraseP fun entry => some entry.address = metric }

def collectMetric (f : Family T) (entry : Entry T) (clock : ℕ → ℤ) :
    Option (Entry T × ClientMetric) := do
  let (object, collected) ← T.collect entry.object clock
  let label := (f.constant_labels_.pairs ++ entry.labels.pairs).map fun label_pair =>
    { name := label_pair.1, value := label_pair.2 }
  return ({ entry with object }, { collected with label := collected.label ++ label })

/-- `Collect`, where `clock m` are the readings taken for the metric at `m`. -/
def collect (f : Family T) (clock : ℕ → ℕ → ℤ) : Option (Family T × List MetricFamily) :=
  if f.metrics_.isEmpty then some (f, [])
  else do
    let collected ← f.metrics_.mapM fun entry => f.collectMetric entry (clock entry.address)
    return ({ f with metrics_ := collected.map Prod.fst },
      [{ name := f.name_, help := f.help_, type := T.metricType, metric := collected.map Prod.snd }])

/-- A call that changes the metric at an address. -/
def update (f : Family T) (metric : ℕ) (call : T.Call) : Option (Family T) := do
  let metrics ← f.metrics_.mapM fun entry =>
    if entry.address = metric then do
      let object ← T.apply entry.object call
      return { entry with object }
    else some entry
  return { f with metrics_ := metrics }

end Family

end Promcore
