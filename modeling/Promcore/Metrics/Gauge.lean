import Promcore.Metrics.ClientMetric

/-!
# Gauges and counters

Both are written once for a type of values, `double` or `int64_t`; integer
arithmetic wraps. A counter is a gauge that ignores negative increments.
-/

namespace Promcore

/-- What the templates use of their type parameter. -/
class Arithmetic (TYPE : Type) where
  ofInt : ℤ → TYPE
  add : TYPE → TYPE → TYPE
  mul : TYPE → TYPE → TYPE
  lt : TYPE → TYPE → Bool
  /-- The member of the reported union, with its tag. -/
  number : TYPE → ClientMetric.Number

instance : Arithmetic Double where
  ofInt n := .finite n
  add := Double.add
  mul := Double.mul
  lt := Double.lt
  number := .double

instance : Arithmetic Int64 where
  ofInt := Int64.ofInt
  add := (· + ·)
  mul := (· * ·)
  lt x y := x < y
  number := .int

structure GaugeType (TYPE : Type) where
  value_ : TYPE
deriving DecidableEq

namespace GaugeType

variable {TYPE : Type} [Arithmetic TYPE]

open Arithmetic

def new (value : TYPE) : GaugeType TYPE := ⟨value⟩

def change (g : GaugeType TYPE) (value : TYPE) : GaugeType TYPE := ⟨add g.value_ value⟩

/-- `Increment(value)`. -/
def incrementBy (g : GaugeType TYPE) (value : TYPE) : GaugeType TYPE := g.change value

def increment (g : GaugeType TYPE) : GaugeType TYPE := g.incrementBy (ofInt 1)

/-- `Decrement(value)`. -/
def decrementBy (g : GaugeType TYPE) (value : TYPE) : GaugeType TYPE :=
  g.change (mul (ofInt (-1)) value)

def decrement (g : GaugeType TYPE) : GaugeType TYPE := g.decrementBy (ofInt 1)

def set (_ : GaugeType TYPE) (value : TYPE) : GaugeType TYPE := ⟨value⟩

/-- `SetToCurrentTime`, at the unix time `time`. -/
def setToCurrentTime (g : GaugeType TYPE) (time : ℤ) : GaugeType TYPE := g.set (ofInt time)

def value (g : GaugeType TYPE) : TYPE := g.value_

def collect (g : GaugeType TYPE) : ClientMetric := { gauge := number g.value }

/-- A call that changes a gauge. -/
inductive Call (TYPE : Type) where
  | increment
  | incrementBy (value : TYPE)
  | decrement
  | decrementBy (value : TYPE)
  | set (value : TYPE)
  | setToCurrentTime (time : ℤ)
deriving DecidableEq

def apply (g : GaugeType TYPE) : Call TYPE → GaugeType TYPE
  | .increment => g.increment
  | .incrementBy value => g.incrementBy value
  | .decrement => g.decrement
  | .decrementBy value => g.decrementBy value
  | .set value => g.set value
  | .setToCurrentTime time => g.setToCurrentTime time

end GaugeType

structure CounterType (TYPE : Type) where
  gauge_ : GaugeType TYPE
deriving DecidableEq

namespace CounterType

variable {TYPE : Type} [Arithmetic TYPE]

open Arithmetic

def new : CounterType TYPE := ⟨GaugeType.new (ofInt 0)⟩

def increment (c : CounterType TYPE) : CounterType TYPE := ⟨c.gauge_.increment⟩

/-- `Increment(val)`. -/
def incrementBy (c : CounterType TYPE) (val : TYPE) : CounterType TYPE :=
  if lt val (ofInt 0) then c else ⟨c.gauge_.incrementBy val⟩

def value (c : CounterType TYPE) : TYPE := c.gauge_.value

def reset (c : CounterType TYPE) : CounterType TYPE := ⟨c.gauge_.set (ofInt 0)⟩

def collect (c : CounterType TYPE) : ClientMetric := { counter := number c.value }

/-- A call that changes a counter. -/
inductive Call (TYPE : Type) where
  | increment
  | incrementBy (val : TYPE)
  | reset
deriving DecidableEq

def apply (c : CounterType TYPE) : Call TYPE → CounterType TYPE
  | .increment => c.increment
  | .incrementBy val => c.incrementBy val
  | .reset => c.reset

end CounterType

end Promcore
