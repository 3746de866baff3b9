import Reckon.Value

/-!
Bringing two operands of different kinds to one. Promotion runs in one direction: truth values
become numbers, numbers become exact next to an exact number, real values become complex, and
exact numbers become plain next to a quantity.
-/
namespace Reckon.Value

def isNumeric : Value → Bool
  | number _ | exact _ | complex _ | quantity _ | boolean _ => true
  | _ => false

def booleanToNumber : Value → Value
  | boolean b => number (ofBool b)
  | v => v

/-- The operands after one step, or nothing if no promotion applies. A number that no decimal
writes makes the exact number beside it plain. -/
def promote? : Value → Value → Option (Value × Value)
  | boolean b, y =>
    if y.isNumeric then some (number (ofBool b), y.booleanToNumber) else none
  | x, boolean b =>
    if x.isNumeric then some (x, number (ofBool b)) else none
  | number x, exact q =>
    match Exact.ofFloat? x with
    | some p => some (exact p, exact q)
    | none => some (number x, number (Exact.toFloat q))
  | exact p, number y =>
    match Exact.ofFloat? y with
    | some q => some (exact p, exact q)
    | none => some (number (Exact.toFloat p), number y)
  | number x, complex w => some (complex (.ofReal x), complex w)
  | exact p, complex w => some (complex (.ofReal (Exact.toFloat p)), complex w)
  | complex z, number y => some (complex z, complex (.ofReal y))
  | complex z, exact q => some (complex z, complex (.ofReal (Exact.toFloat q)))
  | exact p, quantity r => some (number (Exact.toFloat p), quantity r)
  | quantity r, exact q => some (quantity r, number (Exact.toFloat q))
  | _, _ => none

end Reckon.Value
