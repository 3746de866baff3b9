import Reckon.Expr
import Reckon.Expr.Cursor

/-!
The levels of binary operators above a unary expression, from the loosest: `or`, `xor`, `and`,
comparison, conversion, sum, product. All but the comparison associate to the left, and two
adjacent operands are a product.
-/
namespace Reckon

def Token.binaryOperator? : Token → Option BinaryOperator
  | symbol .plus => some .add
  | symbol .minus => some .sub
  | symbol .star => some .mul
  | symbol .slash => some .div
  | symbol .percent => some .mod
  | symbol .caret => some .pow
  | symbol .less => some .less
  | symbol .greater => some .greater
  | symbol .lessEqual => some .lessEqual
  | symbol .greaterEqual => some .greaterEqual
  | symbol .equalEqual => some .equal
  | symbol .bangEqual => some .notEqual
  | symbol .and => some .and
  | symbol .or => some .or
  | symbol .xor => some .xor
  | symbol .inUnit => some .convert
  | symbol .toUnit => some .convert
  | _ => none

/-- Whether the token after an operand makes a product with it. -/
def Token.startsFactor : Token → Bool
  | number _ | identifier _ | symbol .leftParen => true
  | _ => false

namespace Parse

def peekOperator : Parse (Option BinaryOperator) := do
  return (← peek).bind Token.binaryOperator?

/-- Continues `left` with operators of one level and their right operands. -/
def chain (operand : Parse Expr) (level : List BinaryOperator) :
    (turns : List Located) → Expr → Parse Expr
  | [], left => return left
  | _ :: turns, left => do
    match ← peekOperator with
    | some op =>
      if op ∈ level then
        let offset ← offset
        advance
        let right ← operand
        chain operand level turns (.binary op left right offset)
      else return left
    | none => return left

def leftAssociative (operand : Parse Expr) (level : List BinaryOperator) : Parse Expr := do
  let left ← operand
  chain operand level (← ahead) left

def factors (unary : Parse Expr) : (turns : List Located) → Expr → Parse Expr
  | [], left => return left
  | _ :: turns, left => do
    let offset ← offset
    match ← peek with
    | some token =>
      if token.startsFactor then
        let right ← unary
        factors unary turns (.binary .mul left right offset)
      else
        match token.binaryOperator? with
        | some op =>
          if op ∈ [BinaryOperator.mul, .div, .mod] then
            advance
            let right ← unary
            factors unary turns (.binary op left right offset)
          else return left
        | none => return left
    | none => return left

def product (unary : Parse Expr) : Parse Expr := do
  let left ← unary
  factors unary (← ahead) left

def sum (unary : Parse Expr) : Parse Expr := leftAssociative (product unary) [.add, .sub]

def conversion (unary : Parse Expr) : Parse Expr := leftAssociative (sum unary) [.convert]

def peekComparison : Parse (Option BinaryOperator) := do
  return (← peekOperator).filter BinaryOperator.isComparison

/-- At most one comparison; a second one behind it is a mistake, not a comparison of a truth
value. -/
def comparison (unary : Parse Expr) : Parse Expr := do
  let left ← conversion unary
  match ← peekComparison with
  | some op =>
    let here ← offset
    advance
    let right ← conversion unary
    if (← peekComparison).isSome then
      fail (.chainedComparison (← offset))
    else
      return .binary op left right here
  | none => return left

def conjunction (unary : Parse Expr) : Parse Expr := leftAssociative (comparison unary) [.and]

def exclusion (unary : Parse Expr) : Parse Expr := leftAssociative (conjunction unary) [.xor]

def disjunction (unary : Parse Expr) : Parse Expr := leftAssociative (exclusion unary) [.or]

end Parse
end Reckon
