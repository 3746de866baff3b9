import Reckon.Expr

/-!
Writing a tree back as source text. Operands that are operations, assignments or definitions stand
in parentheses, so the text shows the grouping of the tree.
-/
namespace Reckon

def Literal.render : Literal → String
  | .number digits => digits
  | .text content => "\"" ++ content ++ "\""
  | .boolean value => toString value

namespace Expr

/-- Whether the expression takes parentheses as an operand. -/
def isCompound : Expr → Bool
  | binary .. | unary .. | assign .. | define .. => true
  | _ => false

def enclose (compound : Bool) (text : String) : String :=
  if compound then "(" ++ text ++ ")" else text

def renderUnary : UnaryOperator → String → String
  | .negate, operand => "-" ++ operand
  | .plus, operand => "+" ++ operand
  | .not, operand => "not " ++ operand
  | .factorial, operand => operand ++ "!"
  | .transpose, operand => operand ++ "'"

def commas (texts : List String) : String := String.intercalate ", " texts

mutual

def render : Expr → String
  | literal value _ => value.render
  | name n _ => n
  | unary op operand _ => renderUnary op (enclose operand.isCompound operand.render)
  | binary op left right _ =>
    enclose left.isCompound left.render ++ " " ++ op.spelling ++ " " ++
      enclose right.isCompound right.render
  | call callee arguments _ => callee ++ "(" ++ commas (renderAll arguments) ++ ")"
  | define n parameters body _ => n ++ "(" ++ commas parameters ++ ") = " ++ body.render
  | assign n value _ => n ++ " = " ++ value.render
  | block statements _ => String.intercalate "; " (renderAll statements)
  | matrix elements _ => "[" ++ commas (renderAll elements) ++ "]"
  | index object indices _ =>
    enclose object.isCompound object.render ++ "[" ++ commas (renderAll indices) ++ "]"

def renderAll : List Expr → List String
  | [] => []
  | e :: es => e.render :: renderAll es

end

end Expr
end Reckon
