import Reckon.Decimal.Layout
import Reckon.Decimal.Significant

/-!
Physical quantities. A unit measures a base dimension and has a size in the SI unit of that base;
a quantity holds its SI value together with the unit in which it is written.
-/
namespace Reckon

/-- Base dimensions, measured in metres, square and cubic metres, kilograms, seconds, radians and
amperes. -/
inductive Base where
  | length | surface | volume | mass | time | angle | current
  deriving DecidableEq, Repr

def Base.name : Base → String
  | length => "length"
  | surface => "surface"
  | volume => "volume"
  | mass => "mass"
  | time => "time"
  | angle => "angle"
  | current => "current"

structure MeasureUnit where
  name : String
  base : Base
  /-- Its size in SI units. -/
  factor : Float

namespace MeasureUnit

def pi : Float := 3.141592653589793

def table : List MeasureUnit := [
  ⟨"m", .length, 1⟩, ⟨"cm", .length, 0.01⟩, ⟨"mm", .length, 0.001⟩, ⟨"km", .length, 1000⟩,
  ⟨"inch", .length, 0.0254⟩, ⟨"ft", .length, 0.3048⟩, ⟨"yd", .length, 0.9144⟩,
  ⟨"mi", .length, 1609.344⟩,
  ⟨"m2", .surface, 1⟩, ⟨"cm2", .surface, 1e-4⟩, ⟨"km2", .surface, 1e6⟩,
  ⟨"sqft", .surface, 0.09290304⟩, ⟨"acre", .surface, 4046.8564224⟩, ⟨"ha", .surface, 10000⟩,
  ⟨"m3", .volume, 1⟩, ⟨"l", .volume, 0.001⟩, ⟨"ml", .volume, 1e-6⟩,
  ⟨"gallon", .volume, 0.003785411784⟩,
  ⟨"kg", .mass, 1⟩, ⟨"g", .mass, 0.001⟩, ⟨"mg", .mass, 1e-6⟩, ⟨"ton", .mass, 1000⟩,
  ⟨"lb", .mass, 0.45359237⟩, ⟨"oz", .mass, 0.028349523125⟩,
  ⟨"s", .time, 1⟩, ⟨"ms", .time, 0.001⟩, ⟨"min", .time, 60⟩, ⟨"h", .time, 3600⟩,
  ⟨"day", .time, 86400⟩, ⟨"week", .time, 604800⟩,
  ⟨"rad", .angle, 1⟩, ⟨"deg", .angle, pi / 180⟩, ⟨"grad", .angle, pi / 200⟩,
  ⟨"cycle", .angle, 2 * pi⟩,
  ⟨"A", .current, 1⟩, ⟨"mA", .current, 0.001⟩]

def find? (name : String) : Option MeasureUnit := table.find? (fun u => u.name = name)

protected def beq (u v : MeasureUnit) : Bool :=
  u.name == v.name && u.base == v.base && u.factor == v.factor

instance : BEq MeasureUnit := ⟨MeasureUnit.beq⟩

end MeasureUnit

/-- A quantity, or without a value the bare unit, which counts as one of itself. -/
structure Quantity where
  unit : MeasureUnit
  value : Option Float

namespace Quantity

def shownDigits : Nat := 14

def bare? (name : String) : Option Quantity := (MeasureUnit.find? name).map (⟨·, none⟩)

def base (q : Quantity) : Base := q.unit.base

def si (q : Quantity) : Float := q.value.getD q.unit.factor

def scaled (q : Quantity) : Float := q.si / q.unit.factor

def withSi (q : Quantity) (value : Float) : Quantity := { q with value := some value }

def sameBase (q r : Quantity) : Bool := q.base = r.base

/-- The same quantity in the unit of `target`, if that measures the same base. -/
def convert? (q target : Quantity) : Option Quantity :=
  if q.sameBase target then some ⟨target.unit, some q.si⟩ else none

/-- A bare unit differs from one of itself. -/
protected def beq (q r : Quantity) : Bool := q.value == r.value && q.unit == r.unit

instance : BEq Quantity := ⟨Quantity.beq⟩

def render (q : Quantity) : String :=
  if q.value.isNone then q.unit.name
  else Binary64.render (Binary64.roundSignificant q.scaled shownDigits) ++ " " ++ q.unit.name

end Quantity
end Reckon
