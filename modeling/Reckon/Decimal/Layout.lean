import Reckon.Decimal.Shortest

/-!
Writing doubles. A double is written with the fewest digits that read back, without an exponent,
or in scientific notation with one digit before the point.
-/
namespace Reckon

namespace Decimal

def digitsOf (n : Nat) : String := toString n

def zeros (n : Nat) : String := String.ofList (List.replicate n '0')

def positional (d : Decimal) : String :=
  let text := (digitsOf d.digits).toList
  if 0 ≤ d.exponent then String.ofList text ++ zeros d.exponent.toNat
  else
    let places := (-d.exponent).toNat
    if places < text.length then
      String.ofList (text.take (text.length - places)) ++ "." ++
        String.ofList (text.drop (text.length - places))
    else "0." ++ zeros (places - text.length) ++ String.ofList text

def scientific (d : Decimal) : String :=
  let text := (digitsOf d.digits).toList
  let exponent := d.exponent + text.length - 1
  let fraction := if text.length ≤ 1 then "" else "." ++ String.ofList (text.drop 1)
  String.ofList (text.take 1) ++ fraction ++ "e" ++ toString exponent

end Decimal

namespace Binary64

def signed (negative : Bool) (text : String) : String := if negative then "-" ++ text else text

def decimal (m : Nat) (e : Int) : Decimal := if m = 0 then ⟨0, 0⟩ else Decimal.shortest m e

def render (x : Float) : String :=
  match ofFloat x with
  | nan => "NaN"
  | infinite negative => signed negative "Infinity"
  | finite negative m e => signed negative (decimal m e).positional

def renderScientific (x : Float) : String :=
  match ofFloat x with
  | nan => "NaN"
  | infinite negative => signed negative "inf"
  | finite negative m e => signed negative (decimal m e).scientific

end Binary64
end Reckon
