import Reckon.Expr
import Reckon.Expr.Cursor

/-!
Operands: signs, powers, postfix operators and primary expressions. The readers take the ones for
a unary and for a whole expression at the next level of nesting.
-/
namespace Reckon.Parse

/-- Further elements of a matrix row, each behind a comma, and whether another row follows. -/
def rowElements (expression : Parse Expr) : (turns : List Located) → Parse (List Expr × Bool)
  | [] => missing .rowEnd
  | _ :: turns => do
    if ← accept .comma then
      let next ← expression
      let (others, more) ← rowElements expression turns
      return (next :: others, more)
    else if ← accept .semicolon then
      return ([], true)
    else if ← accept .rightBracket then
      return ([], false)
    else missing .rowEnd

def matrixRow (expression : Parse Expr) : Parse ((List Expr × Nat) × Bool) := do
  let offset ← offset
  let first ← expression
  let (others, more) ← rowElements expression (← ahead)
  return ((first :: others, offset), more)

/-- The rows of a matrix. A row has an element, so without tokens ahead there is none. -/
def matrixRows (expression : Parse Expr) : (turns : List Located) → Parse (List (List Expr × Nat))
  | [] => do
    let (row, _) ← matrixRow expression
    return [row]
  | _ :: turns => do
    let (row, more) ← matrixRow expression
    if more then
      return row :: (← matrixRows expression turns)
    else return [row]

/-- A single row is a plain list of elements; of several, each is a matrix of its own. -/
def matrix (expression : Parse Expr) : Parse Expr := do
  let offset ← offset
  expect .leftBracket
  if ← accept .rightBracket then
    return .matrix [] offset
  else
    match ← matrixRows expression (← ahead) with
    | [(elements, _)] => return .matrix elements offset
    | rows => return .matrix (rows.map fun row => .matrix row.1 row.2) offset

/-- A name directly followed by a parenthesis is a call. -/
def primary (expression : Parse Expr) : Parse Expr := do
  let offset ← offset
  match ← peek with
  | some (.number digits) =>
    advance
    return .literal (.number digits) offset
  | some (.text content) =>
    advance
    return .literal (.text content) offset
  | some (.boolean value) =>
    advance
    return .literal (.boolean value) offset
  | some (.identifier name) =>
    advance
    if ← accept .leftParen then
      return .call name (← commaSeparated expression .rightParen) offset
    else return .name name offset
  | some (.symbol .leftParen) =>
    advance
    let inner ← expression
    expect .rightParen
    return inner
  | some (.symbol .leftBracket) => matrix expression
  | _ => missing .expression

def indices (expression : Parse Expr) : Parse (List Expr) := do
  if (← peek) = some (.symbol .rightBracket) then
    missing .index
  else
    commaSeparated expression .rightBracket

def postfixes (expression : Parse Expr) : (turns : List Located) → Expr → Parse Expr
  | [], operand => return operand
  | _ :: turns, operand => do
    let offset ← offset
    match ← peek with
    | some (.symbol .bang) =>
      advance
      postfixes expression turns (.unary .factorial operand offset)
    | some (.symbol .apostrophe) =>
      advance
      postfixes expression turns (.unary .transpose operand offset)
    | some (.symbol .leftBracket) =>
      advance
      let is ← indices expression
      postfixes expression turns (.index operand is offset)
    | _ => return operand

def postfixed (expression : Parse Expr) : Parse Expr := do
  let operand ← primary expression
  postfixes expression (← ahead) operand

/-- The exponent may carry signs, so powers associate to the right. -/
def power (unary expression : Parse Expr) : Parse Expr := do
  let base ← postfixed expression
  let offset ← offset
  if ← accept .caret then
    return .binary .pow base (← unary) offset
  else return base

def sign? : Option Token → Option UnaryOperator
  | some (.symbol .minus) => some .negate
  | some (.symbol .plus) => some .plus
  | some (.symbol .bang) => some .not
  | some (.symbol .not) => some .not
  | _ => none

/-- Signs stand in front of a whole power. -/
def signed (unary expression : Parse Expr) : Parse Expr := do
  match sign? (← peek) with
  | some op =>
    let offset ← offset
    advance
    return .unary op (← unary) offset
  | none => power unary expression

end Reckon.Parse
