import Reckon.Operation.Direct
import Reckon.Promotion
import Reckon.Shape

/-!
Applying a binary operation to any two values: arrays leaf by leaf, leaves by the direct rule for
their kinds, and if there is none by the rule for the kinds they are promoted to.
-/
namespace Reckon.Rule

/-- No pair of operands can be promoted more often. -/
def maxPromotions : Nat := 2

/-- A binary operation on two values that are no arrays, with `steps` promotions left. -/
def applyLeaves (r : Rule) (s : Settings) : (steps : Nat) → Value → Value → Outcome Value
  | 0, x, y => (r.direct s x y).getD (throw (.unsupportedBy r.name [x, y]))
  | steps + 1, x, y =>
    match r.direct s x y with
    | some result => result
    | none =>
      match x.promote? y with
      | some (x', y') => applyLeaves r s steps x' y'
      | none => throw (.unsupportedBy r.name [x, y])

def apply (r : Rule) (s : Settings) (x y : Value) : Outcome Value :=
  Value.zipLeaves r.name (r.applyLeaves s maxPromotions) x y

end Reckon.Rule
