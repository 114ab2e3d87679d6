import Promcore.Registry.Family

/-!
# The registry

Seven vectors of families, one for each type of metrics, with a check of a
family's name against the other six.
-/

namespace Promcore

inductive InsertBehavior where
  | merge
  | throw
deriving DecidableEq

structure Registry where
  insert_behavior_ : InsertBehavior
  countersDouble_ : List (Family .counterDouble)
  countersInt_ : List (Family .counterInt)
  gaugesDouble_ : List (Family .gaugeDouble)
  gaugesInt_ : List (Family .gaugeInt)
  histograms_ : List (Family .histogram)
  infos_ : List (Family .info)
  summaries_ : List (Family .summary)
deriving DecidableEq

namespace Registry

def new (insert_behavior : InsertBehavior := .merge) : Registry :=
  ⟨insert_behavior, [], [], [], [], [], [], []⟩

def getFamilies (r : Registry) : (T : MetricKind) → List (Family T)
  | .counterDouble => r.countersDouble_
  | .counterInt => r.countersInt_
  | .gaugeDouble => r.gaugesDouble_
  | .gaugeInt => r.gaugesInt_
  | .histogram => r.histograms_
  | .info => r.infos_
  | .summary => r.summaries_

/-- Write to the vector that `GetFamilies` refers to. -/
def setFamilies (r : Registry) : (T : MetricKind) → List (Family T) → Registry
  | .counterDouble, families => { r with countersDouble_ := families }
  | .counterInt, families => { r with countersInt_ := families }
  | .gaugeDouble, families => { r with gaugesDouble_ := families }
  | .gaugeInt, families => { r with gaugesInt_ := families }
  | .histogram, families => { r with histograms_ := families }
  | .info, families => { r with infos_ := families }
  | .summary, families => { r with summaries_ := families }

/-- `FamilyNameExists` for one of its vectors. -/
def familyNameExists {T : MetricKind} (name : Str) (families : List (Family T)) : Bool :=
  (families.find? fun entry => name = entry.getName).isSome

def nameExistsInOtherType (r : Registry) : MetricKind → Str → Bool
  | .counterDouble, name =>
      familyNameExists name r.countersInt_ || familyNameExists name r.gaugesDouble_ ||
        familyNameExists name r.gaugesInt_ || familyNameExists name r.histograms_ ||
        familyNameExists name r.infos_ || familyNameExists name r.summaries_
  | .counterInt, name =>
      familyNameExists name r.countersDouble_ || familyNameExists name r.gaugesDouble_ ||
        familyNameExists name r.gaugesInt_ || familyNameExists name r.histograms_ ||
        familyNameExists name r.infos_ || familyNameExists name r.summaries_
  | .gaugeDouble, name =>
      familyNameExists name r.countersDouble_ || familyNameExists name r.countersInt_ ||
        familyNameExists name r.gaugesInt_ || familyNameExists name r.histograms_ ||
        familyNameExists name r.infos_ || familyNameExists name r.summaries_
  | .gaugeInt, name =>
      familyNameExists name r.countersDouble_ || familyNameExists name r.countersInt_ ||
        familyNameExists name r.gaugesDouble_ || familyNameExists name r.histograms_ ||
        familyNameExists name r.infos_ || familyNameExists name r.summaries_
  | .histogram, name =>
      familyNameExists name r.countersDouble_ || familyNameExists name r.countersInt_ ||
        familyNameExists name r.gaugesDouble_ || familyNameExists name r.gaugesInt_ ||
        familyNameExists name r.infos_ || familyNameExists name r.summaries_
  | .info, name =>
      familyNameExists name r.countersDouble_ || familyNameExists name r.countersInt_ ||
        familyNameExists name r.gaugesDouble_ || familyNameExists name r.gaugesInt_ ||
        familyNameExists name r.histograms_ || familyNameExists name r.summaries_
  | .summary, name =>
      familyNameExists name r.countersDouble_ || familyNameExists name r.countersInt_ ||
        familyNameExists name r.gaugesDouble_ || familyNameExists name r.gaugesInt_ ||
        familyNameExists name r.histograms_ || familyNameExists name r.infos_

/-- `Add<T>`, with the address a new family would get. The result is the
address of the family returned, and the registry after the call. -/
def add (r : Registry) (T : MetricKind) (address : ℕ) (name help : Str) (labels : Labels) :
    Except Exception ℕ × Registry :=
  if r.nameExistsInOtherType T name then
    (.error (.invalid_argument "Family name already exists with different type"), r)
  else
    let families := r.getFamilies T
    match families.find? fun family => name = family.getName with
    | some family =>
        if r.insert_behavior_ = .merge then
          if family.getConstantLabels = labels then (.ok family.address, r)
          else
            (.error (.invalid_argument "Family name already exists with different constant labels"), r)
        else (.error (.invalid_argument "Family name already exists"), r)
    | none =>
        match Family.new T address name help labels with
        | .error exception => (.error exception, r)
        | .ok family => (.ok address, r.setFamilies T (families ++ [family]))

/-- `Remove<T>`, of the family at an address. -/
def remove (r : Registry) (T : MetricKind) (family : ℕ) : Bool × Registry :=
  let families := r.getFamilies T
  if families.any fun entry => entry.address = family then
    (true, r.setFamilies T (families.eraseP fun entry => entry.address = family))
  else (false, r)

end Registry

/-- `Builder<T>`. -/
structure Builder (T : MetricKind) where
  labels_ : Labels
  name_ : Str
  help_ : Str

def Builder.register {T : MetricKind} (b : Builder T) (r : Registry) (address : ℕ) :
    Except Exception ℕ × Registry :=
  r.add T address b.name_ b.help_ b.labels_

namespace Registry

/-- The loop of `CollectAll` over one vector. -/
def collectAll {T : MetricKind} (families : List (Family T)) (clock : ℕ → ℕ → ℕ → ℤ) :
    Option (List (Family T) × List MetricFamily) := do
  let collected ← families.mapM fun family => family.collect (clock family.address)
  return (collected.map Prod.fst, (collected.map Prod.snd).flatten)

/-- `Collect`; the readings for a metric depend on the addresses of its family
and itself. -/
def collect (r : Registry) (clock : ℕ → ℕ → ℕ → ℤ) : Option (Registry × List MetricFamily) := do
  let (countersDouble_, results₁) ← collectAll r.countersDouble_ clock
  let (countersInt_, results₂) ← collectAll r.countersInt_ clock
  let (gaugesDouble_, results₃) ← collectAll r.gaugesDouble_ clock
  let (gaugesInt_, results₄) ← collectAll r.gaugesInt_ clock
  let (histograms_, results₅) ← collectAll r.histograms_ clock
  let (infos_, results₆) ← collectAll r.infos_ clock
  let (summaries_, results₇) ← collectAll r.summaries_ clock
  return ({ r with countersDouble_, countersInt_, gaugesDouble_, gaugesInt_, histograms_, infos_,
                   summaries_ },
    results₁ ++ results₂ ++ results₃ ++ results₄ ++ results₅ ++ results₆ ++ results₇)

end Registry

end Promcore
