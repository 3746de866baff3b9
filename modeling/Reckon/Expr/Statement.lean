import Reckon.Expr.Levels
import Reckon.Expr.Operand

/-!
Assignments, definitions and programs. `level` ties the readers of unary and of whole expressions
together: each is given the ones that may still nest one level less, so reading ends.
-/
namespace Reckon

structure Level where
  unary : Parse Expr
  expression : Parse Expr

namespace Parse

/-- A name before an equals sign; the assigned expression lies one level deeper. -/
def assignment (value otherwise : Parse Expr) : Parse Expr := fun c =>
  match c.rest with
  | ⟨.identifier name, offset⟩ :: ⟨.symbol .equals, _⟩ :: _ =>
    (do
      advance
      advance
      return .assign name (← value) offset : Parse Expr) c
  | _ => otherwise c

def level : (room : Nat) → Level
  | 0 => ⟨tooDeep, assignment tooDeep (disjunction tooDeep)⟩
  | room + 1 =>
    let inner := level room
    let unary := nested (signed inner.unary inner.expression)
    ⟨unary, assignment (nested inner.expression) (disjunction unary)⟩

def expression : Parse Expr := (level maxNesting).expression

/-- Whether the list that is open at `nesting` parentheses ends before the statement does and an
equals sign follows it. -/
def closesBeforeEquals (nesting : Nat) : List Located → Bool
  | [] => false
  | ⟨.symbol .leftParen, _⟩ :: rest => closesBeforeEquals (nesting + 1) rest
  | ⟨.symbol .rightParen, _⟩ :: rest =>
    if nesting ≤ 1 then
      match rest with
      | ⟨.symbol .equals, _⟩ :: _ => true
      | _ => false
    else closesBeforeEquals (nesting - 1) rest
  | ⟨.symbol .newline, _⟩ :: _ => false
  | ⟨.symbol .semicolon, _⟩ :: _ => false
  | _ :: rest => closesBeforeEquals nesting rest

/-- A definition starts with its keyword, or is a name with a list and an equals sign. -/
def startsDefinition : List Located → Bool
  | ⟨.symbol .function, _⟩ :: _ => true
  | ⟨.identifier _, _⟩ :: ⟨.symbol .leftParen, _⟩ :: rest => closesBeforeEquals 1 rest
  | _ => false

def firstRepeated (seen : List String) : List String → Option String
  | [] => none
  | name :: names => if name ∈ seen then some name else firstRepeated (name :: seen) names

/-- Mistakes in the list are reported as mistakes of the definition that starts at `start`. -/
def parameters (name : String) (start : Nat) : Parse (List String) := fun c =>
  match commaSeparated identifier .rightParen c with
  | (.error (.missing m), after) => (.error (.definition name (.parameter m) start), after)
  | (.error e, after) => (.error e, after)
  | (.ok names, after) =>
    match firstRepeated [] names with
    | some repeated => (.error (.definition name (.repeated repeated) start), after)
    | none => (.ok names, after)

def definition : Parse Expr := do
  let start ← offset
  let _ ← accept .function
  let name ← identifier
  expect .leftParen
  let names ← parameters name start
  expect .equals
  return .define name names (← expression) start

def statement : Parse Expr := fun c =>
  if startsDefinition c.rest then definition c else expression c

def isSeparator (t : Located) : Bool :=
  t.token = .symbol .newline || t.token = .symbol .semicolon

def skipSeparators : Parse Unit := fun c => (.ok (), { c with rest := c.rest.dropWhile isSeparator })

def endOfStatement : Parse Unit := fun c =>
  match c.rest with
  | [] => (.ok (), c)
  | next :: _ =>
    if isSeparator next then (.ok (), c) else (.error (.trailing next.token next.offset), c)

def statements : (turns : List Located) → Parse (List Expr)
  | [] => return []
  | _ :: turns => do
    skipSeparators
    match ← peek with
    | none => return []
    | some _ =>
      let first ← statement
      endOfStatement
      return first :: (← statements turns)

/-- One statement stands for itself; none or several are a block. -/
def program : Parse Expr := do
  let start ← offset
  match ← statements (← ahead) with
  | [only] => return only
  | several => return .block several start

end Parse

/-- The tree of a whole token list of a source with `stop` bytes. -/
def Expr.ofTokens (tokens : List Located) (stop : Nat) : Except Malformed Expr :=
  (Parse.program (Cursor.ofTokens tokens stop)).1

end Reckon
