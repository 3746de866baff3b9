import Reckon.Operation.Unary

/-!
Conversions between kinds, and the dimensions of a value as a value.
-/
namespace Reckon.Operation

/-- A text that writes a double, blanks around it passed over, or any real number. -/
def toNumber (v : Value) : Outcome Value :=
  match v with
  | .text s =>
    match Binary64.read? (Text.trim s.toList) with
    | some x => return .number x
    | none => throw (.invalid number.name (.notNumeric s))
  | v =>
    match v.real? with
    | some x => return .number x
    | none => number.unsupported v

def notExact (v : Value) : Outcome Value := throw (.invalid exact.name (.notExact v.render))

def toExact (v : Value) : Outcome Value :=
  match v with
  | .exact q => return .exact q
  | .number x =>
    match Exact.ofFloat? x with
    | some q => return .exact q
    | none => notExact v
  | .boolean b => return .exact (if b then 1 else 0)
  | .text s => .ofDecimal s (notExact v)
  | v => exact.unsupported v

def toComplex (v : Value) : Outcome Value :=
  match v.complex? with
  | some z => return .complex z
  | none => complex.unsupported v

def ofParts (re im : Value) : Outcome Value :=
  match re.real?, im.real? with
  | some x, some y => return .complex ⟨x, y⟩
  | _, _ => throw (.unsupportedBy complex.name [re, im])

def toText : Value → Value
  | .text s => .text s
  | v => .text v.render

def dimensionsOf (v : Value) : Outcome Value := do
  return .array ((← v.dimensions).map fun d => .number (Float.ofNat d))

end Reckon.Operation
