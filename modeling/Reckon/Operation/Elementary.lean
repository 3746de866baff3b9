import Reckon.Operation.Binary
import Reckon.Operation.Unary

/-!
Roots, exponentials, logarithms, trigonometric functions and rounding.
-/
namespace Reckon.Operation

def realRoot (x : Float) : Value :=
  if x < 0 then .complex ⟨0, (-x).sqrt⟩ else .number x.sqrt

def root : Value → Outcome Value
  | .number x => return realRoot x
  | .boolean b => return realRoot (Value.ofBool b)
  | .complex z => return .complex z.sqrt
  | .exact q =>
    if q < 0 then return .complex ⟨0, (Exact.toFloat (-q)).sqrt⟩
    else match Exact.root? q with
      | some r => return .exact r
      | none => return realRoot (Exact.toFloat q)
  | v => sqrt.unsupported v

/-- An elementary function by its real and its complex form. The ones of angles take quantities of
that base in radians. -/
def elementary (op : Operation) (real : Float → Float) (complexForm : Complex → Complex)
    (ofAngles : Bool) (v : Value) : Outcome Value :=
  match v with
  | .complex z => return .complex (complexForm z)
  | .quantity q =>
    if ofAngles && q.base = .angle then return .number (real q.si) else op.unsupported v
  | v =>
    match v.real? with
    | some x => return .number (real x)
    | none => op.unsupported v

/-- The natural logarithm. That of a negative number is complex. -/
def naturalLog (v : Value) : Outcome Value :=
  match v with
  | .complex z => return .complex z.ln
  | v =>
    match v.real? with
    | some x =>
      if x < 0 then return .complex (Complex.ofReal x).ln else return .number x.log
    | none => log.unsupported v

/-- The logarithm to a base is a quotient of natural ones. -/
def logToBase (s : Settings) (x base : Value) : Outcome Value := do
  let numerator ← x.mapLeaves naturalLog
  let denominator ← base.mapLeaves naturalLog
  Rule.divide.apply s numerator denominator

/-- Rounding of a value to integers, for the parts of a complex number each. -/
def toIntegers (op : Operation) (real : Float → Float) (exactForm : Rat → Rat) :
    Value → Outcome Value
  | .number x => return .number (real x)
  | .exact q => return .exact (exactForm q)
  | .complex z => return .complex ⟨real z.re, real z.im⟩
  | .boolean b => return .number (real (Value.ofBool b))
  | v => op.unsupported v

def maxPlaces : Nat := 15

def places? (v : Value) : Option Nat :=
  match v.real?.bind Binary64.safeInteger? with
  | some n => if 0 ≤ n ∧ n ≤ maxPlaces then some n.toNat else none
  | none => none

/-- Rounds to the nearest multiple of a negative power of ten, given the power. -/
def roundScaled (x scale : Float) : Float := Binary64.round (x * scale) / scale

def roundExact (q : Rat) (places : Nat) : Rat :=
  let scale := Decimal.tenTo places
  Exact.round (q * scale) / scale

def roundTo (v decimals : Value) : Outcome Value :=
  match places? decimals with
  | none => throw (.invalid round.name .decimals)
  | some places =>
    let scale := Float.ofScientific 1 false places
    match v with
    | .exact q => return .exact (roundExact q places)
    | .complex z => return .complex ⟨roundScaled z.re scale, roundScaled z.im scale⟩
    | v =>
      match v.real? with
      | some x => return .number (roundScaled x scale)
      | none => round.unsupported v

end Reckon.Operation
