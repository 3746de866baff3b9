import Reckon.Expr.Statement

/-! The grammar of token lists, stated apart from any way to read them. A phrase relates the
tokens ahead, a tree, and the tokens left over; trees are compared without their offsets. Each
production is given the phrases one level of nesting deeper, as the readers are.

```
primary    := NUMBER | TEXT | BOOLEAN | ID | ID "(" list? ")" | "(" expression ")"
            | "[" (list (";" list)*)? "]"
list       := expression ("," expression)*
postfixed  := primary ("!" | "'" | "[" list "]")*
power      := postfixed ("^" unary)?
unary      := ("-" | "+" | "!" | "not") unary | power
product    := unary (("*" | "/" | "%") unary | unary)*
comparison := conversion (operator conversion)?
expression := ID "=" expression | disjunction
definition := ID "(" (ID ("," ID)*)? ")" "=" expression
statement  := "function"? definition | expression
program    := SEP* (statement (SEP+ statement)*)? SEP*
```

A name in front of a parenthesis always makes a call with it, a factor that no operator joins starts
with a number, a name or a parenthesis, and the parameters of a definition are different. Sums,
conversions and the three connectives associate to the left. -/
namespace Reckon

namespace Expr

mutual

def skeleton : Expr → Expr
  | literal value _ => literal value 0
  | name n _ => name n 0
  | unary op operand _ => unary op operand.skeleton 0
  | binary op left right _ => binary op left.skeleton right.skeleton 0
  | call callee arguments _ => call callee (skeletons arguments) 0
  | define n parameters body _ => define n parameters body.skeleton 0
  | assign n value _ => assign n value.skeleton 0
  | block statements _ => block (skeletons statements) 0
  | matrix elements _ => matrix (skeletons elements) 0
  | index object indices _ => index object.skeleton (skeletons indices) 0

def skeletons : List Expr → List Expr
  | [] => []
  | e :: es => e.skeleton :: skeletons es

end

@[simp] theorem skeletons_eq_map (es : List Expr) : skeletons es = es.map skeleton := by
  induction es with
  | nil => rfl
  | cons e es ih => simp [skeletons, ih]

end Expr

namespace Grammar

/-- `L ts a us`: the tokens `ts` up to `us` derive `a`. -/
abbrev Phrase (α : Type) := List Token → α → List Token → Prop

def signs : List (Symbol × UnaryOperator) :=
  [(.minus, .negate), (.plus, .plus), (.bang, .not), (.not, .not)]

def marks : List (Symbol × UnaryOperator) := [(.bang, .factorial), (.apostrophe, .transpose)]

def products : List (Symbol × BinaryOperator) := [(.star, .mul), (.slash, .div), (.percent, .mod)]

def sums : List (Symbol × BinaryOperator) := [(.plus, .add), (.minus, .sub)]

def conversions : List (Symbol × BinaryOperator) := [(.inUnit, .convert), (.toUnit, .convert)]

def comparisons : List (Symbol × BinaryOperator) := [
  (.less, .less), (.greater, .greater), (.lessEqual, .lessEqual),
  (.greaterEqual, .greaterEqual), (.equalEqual, .equal), (.bangEqual, .notEqual)]

def conjunctions : List (Symbol × BinaryOperator) := [(.and, .and)]

def exclusions : List (Symbol × BinaryOperator) := [(.xor, .xor)]

def disjunctions : List (Symbol × BinaryOperator) := [(.or, .or)]

inductive Separated (s : Symbol) (item : Phrase α) : Phrase (List α)
  | single : item ts a us → Separated s item ts [a] us
  | more : item ts a (.symbol s :: us) → Separated s item us as vs →
      Separated s item ts (a :: as) vs

theorem Separated.ne_nil (h : Separated s item ts as us) : as ≠ [] := by
  cases h <;> simp

theorem Separated.of_singleton (h : Separated s item ts [a] us) : item ts a us := by
  cases h with
  | single h => exact h
  | more _ rest => exact absurd rfl rest.ne_nil

inductive Enclosed (closing : Symbol) (item : Phrase α) : Phrase (List α)
  | empty : Enclosed closing item (.symbol closing :: us) [] us
  | items : Separated .comma item ts as (.symbol closing :: us) → Enclosed closing item ts as us

inductive Primary (expression : Phrase Expr) : Phrase Expr
  | number : Primary expression (.number digits :: us) (.literal (.number digits) 0) us
  | text : Primary expression (.text content :: us) (.literal (.text content) 0) us
  | boolean : Primary expression (.boolean value :: us) (.literal (.boolean value) 0) us
  | name : us.head? ≠ some (.symbol .leftParen) →
      Primary expression (.identifier n :: us) (.name n 0) us
  | call : Enclosed .rightParen expression ts as us →
      Primary expression (.identifier n :: .symbol .leftParen :: ts) (.call n as 0) us
  | group : expression ts e (.symbol .rightParen :: us) →
      Primary expression (.symbol .leftParen :: ts) e us
  | noElements : Primary expression (.symbol .leftBracket :: .symbol .rightBracket :: us)
      (.matrix [] 0) us
  | row : Separated .comma expression ts es (.symbol .rightBracket :: us) →
      Primary expression (.symbol .leftBracket :: ts) (.matrix es 0) us
  | rows : Separated .semicolon (Separated .comma expression) ts rows
        (.symbol .rightBracket :: us) → 2 ≤ rows.length →
      Primary expression (.symbol .leftBracket :: ts) (.matrix (rows.map (.matrix · 0)) 0) us

inductive Postfixed (expression : Phrase Expr) : Phrase Expr
  | primary : Primary expression ts e us → Postfixed expression ts e us
  | mark : Postfixed expression ts e (.symbol s :: us) → (s, op) ∈ marks →
      Postfixed expression ts (.unary op e 0) us
  | index : Postfixed expression ts e (.symbol .leftBracket :: us) →
      Separated .comma expression us is (.symbol .rightBracket :: vs) →
      Postfixed expression ts (.index e is 0) vs

inductive Power (unary expression : Phrase Expr) : Phrase Expr
  | base : Postfixed expression ts e us → Power unary expression ts e us
  | power : Postfixed expression ts b (.symbol .caret :: us) → unary us e vs →
      Power unary expression ts (.binary .pow b e 0) vs

inductive Signed (unary expression : Phrase Expr) : Phrase Expr
  | sign : (s, op) ∈ signs → unary ts e us →
      Signed unary expression (.symbol s :: ts) (.unary op e 0) us
  | power : Power unary expression ts e us → Signed unary expression ts e us

inductive Product (unary : Phrase Expr) : Phrase Expr
  | factor : unary ts e us → Product unary ts e us
  | operator : Product unary ts l (.symbol s :: us) → (s, op) ∈ products → unary us r vs →
      Product unary ts (.binary op l r 0) vs
  | adjacent : Product unary ts l (t :: us) → t.startsFactor = true → unary (t :: us) r vs →
      Product unary ts (.binary .mul l r 0) vs

inductive LeftAssociative (operators : List (Symbol × BinaryOperator)) (operand : Phrase Expr) :
    Phrase Expr
  | operand : operand ts e us → LeftAssociative operators operand ts e us
  | operator : LeftAssociative operators operand ts l (.symbol s :: us) → (s, op) ∈ operators →
      operand us r vs → LeftAssociative operators operand ts (.binary op l r 0) vs

inductive Comparison (operand : Phrase Expr) : Phrase Expr
  | operand : operand ts e us → Comparison operand ts e us
  | comparison : operand ts l (.symbol s :: us) → (s, op) ∈ comparisons → operand us r vs →
      Comparison operand ts (.binary op l r 0) vs

def Conversion (unary : Phrase Expr) : Phrase Expr :=
  LeftAssociative conversions (LeftAssociative sums (Product unary))

def Disjunction (unary : Phrase Expr) : Phrase Expr :=
  LeftAssociative disjunctions (LeftAssociative exclusions (LeftAssociative conjunctions
    (Comparison (Conversion unary))))

inductive Assignment (value otherwise : Phrase Expr) : Phrase Expr
  | assign : value ts e us →
      Assignment value otherwise (.identifier n :: .symbol .equals :: ts) (.assign n e 0) us
  | otherwise : otherwise ts e us → Assignment value otherwise ts e us

structure Layer where
  unary : Phrase Expr
  expression : Phrase Expr

/-- What derives with at most so many levels of nesting. A unary and the value of an assignment
are one level each; groups, calls, matrices and indices contain unaries. -/
def layer : (nesting : Nat) → Layer
  | 0 => ⟨fun _ _ _ => False, fun _ _ _ => False⟩
  | nesting + 1 =>
    let inner := layer nesting
    let unary := Signed inner.unary inner.expression
    ⟨unary, Assignment inner.expression (Disjunction unary)⟩

inductive Identifier : Phrase String
  | identifier : Identifier (.identifier n :: us) n us

inductive Definition (expression : Phrase Expr) : Phrase Expr
  | define : Enclosed .rightParen Identifier ts ps (.symbol .equals :: us) → ps.Nodup →
      expression us e vs →
      Definition expression (.identifier n :: .symbol .leftParen :: ts) (.define n ps e 0) vs

inductive Statement (expression : Phrase Expr) : Phrase Expr
  | definition : Definition expression ts e us → Statement expression ts e us
  | function : Definition expression ts e us →
      Statement expression (.symbol .function :: ts) e us
  | expression : expression ts e us → Statement expression ts e us

def separators : List Token := [.symbol .newline, .symbol .semicolon]

inductive Statements (statement : Phrase Expr) : List Token → List Expr → Prop
  | none : Statements statement [] []
  | separator : t ∈ separators → Statements statement ts es → Statements statement (t :: ts) es
  | last : statement ts e [] → Statements statement ts [e]
  | next : statement ts e (t :: us) → t ∈ separators → Statements statement us es →
      Statements statement ts (e :: es)

def ofStatements : List Expr → Expr
  | [only] => only
  | several => .block several 0

theorem ofStatements_of_ne_singleton (h : ∀ only, es ≠ [only]) : ofStatements es = .block es 0 := by
  unfold ofStatements
  split
  · exact absurd rfl (h _)
  · rfl

def Program (nesting : Nat) (ts : List Token) (tree : Expr) : Prop :=
  ∃ es, Statements (Statement (layer nesting).expression) ts es ∧ tree = ofStatements es

end Grammar
end Reckon
