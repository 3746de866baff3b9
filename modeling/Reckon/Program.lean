import Reckon.Expr
import Reckon.Fault

/-!
Compiling trees. Operators become operations and literals become values of the kind that the
settings ask for; names stay. All that can stop it is an exact literal on which reading runs over.
-/
namespace Reckon

/-- A compiled expression with the settings it was compiled for. -/
structure Program where
  root : Executable
  settings : Settings

def UnaryOperator.operation : UnaryOperator → Operation
  | negate => .unaryMinus
  | plus => .unaryPlus
  | not => .not
  | factorial => .factorial
  | transpose => .transpose

def BinaryOperator.rule : BinaryOperator → Rule
  | add => .add
  | sub => .subtract
  | mul => .multiply
  | div => .divide
  | mod => .mod
  | pow => .pow
  | less => .smaller
  | greater => .larger
  | lessEqual => .smallerEq
  | greaterEqual => .largerEq
  | equal => .equal
  | notEqual => .unequal
  | and => .and
  | or => .or
  | xor => .xor
  | convert => .convert

def plainNumber (digits : String) : Value :=
  .number ((Binary64.read? digits.toList).getD (0 / 0))

/-- A number whose exponent is too large for an exact value is a plain one. -/
def numberLiteral (mode : LiteralMode) (digits : String) : Outcome Value :=
  match mode with
  | .plain => return plainNumber digits
  | .exact => .ofDecimal digits (return plainNumber digits)

def Literal.value (mode : LiteralMode) : Literal → Outcome Value
  | .number digits => numberLiteral mode digits
  | .text content => return .text content
  | .boolean b => return .boolean b

namespace Expr

mutual

def compile (mode : LiteralMode) : Expr → Outcome Executable
  | literal value _ => return .constant (← value.value mode)
  | name n _ => return .symbol n
  | unary op operand _ => return .unary op.operation (← compile mode operand)
  | binary op left right _ =>
    return .binary (.rule op.rule) (← compile mode left) (← compile mode right)
  | call callee arguments _ => return .call callee (← compileAll mode arguments)
  | define n parameters body _ => return .define n parameters (← compile mode body)
  | assign n value _ => return .assign n (← compile mode value)
  | block statements _ => return .block (← compileAll mode statements)
  | matrix elements _ => return .matrix (← compileAll mode elements)
  | index object indices _ => return .index (← compile mode object) (← compileAll mode indices)

def compileAll (mode : LiteralMode) : List Expr → Outcome (List Executable)
  | [] => return []
  | e :: es => return (← compile mode e) :: (← compileAll mode es)

end

end Expr

def Program.ofExpr (e : Expr) (s : Settings) : Outcome Program :=
  return ⟨← e.compile s.literals, s⟩

end Reckon
