import Reckon.Expr.Printer
import Reckon.Proofs.Grammar.Phrases
import Reckon.Proofs.Lexer

/-! The tokens of a printed tree, and which trees are printed at all: those that a source derives
have only names and literals that can be read again. -/
namespace Reckon

open Grammar Lexer

def Literal.token : Literal → Token
  | .number digits => .number digits
  | .text content => .text content
  | .boolean value => .boolean value

def BinaryOperator.symbol : BinaryOperator → Symbol
  | .add => .plus
  | .sub => .minus
  | .mul => .star
  | .div => .slash
  | .mod => .percent
  | .pow => .caret
  | .less => .less
  | .greater => .greater
  | .lessEqual => .lessEqual
  | .greaterEqual => .greaterEqual
  | .equal => .equalEqual
  | .notEqual => .bangEqual
  | .and => .and
  | .or => .or
  | .xor => .xor
  | .convert => .toUnit

theorem BinaryOperator.spelling_symbol (op : BinaryOperator) :
    op.symbol.spelling = op.spelling := by
  cases op <;> rfl

namespace Expr

def joined (s : Symbol) (items : List (List Token)) : List Token := [.symbol s].intercalate items

def enclosed (compound : Bool) (ts : List Token) : List Token :=
  if compound then .symbol .leftParen :: ts ++ [.symbol .rightParen] else ts

def printedUnary : UnaryOperator → List Token → List Token
  | .negate, operand => .symbol .minus :: operand
  | .plus, operand => .symbol .plus :: operand
  | .not, operand => .symbol .not :: operand
  | .factorial, operand => operand ++ [.symbol .bang]
  | .transpose, operand => operand ++ [.symbol .apostrophe]

mutual

def printed : Expr → List Token
  | literal value _ => [value.token]
  | name n _ => [.identifier n]
  | unary op operand _ => printedUnary op (enclosed operand.isCompound operand.printed)
  | binary op left right _ =>
    enclosed left.isCompound left.printed ++ .symbol op.symbol ::
      enclosed right.isCompound right.printed
  | call callee arguments _ =>
    .identifier callee :: .symbol .leftParen :: joined .comma (printedAll arguments) ++
      [.symbol .rightParen]
  | define n parameters body _ =>
    .identifier n :: .symbol .leftParen ::
      joined .comma (parameters.map fun p => [.identifier p]) ++
      .symbol .rightParen :: .symbol .equals :: body.printed
  | assign n value _ => .identifier n :: .symbol .equals :: value.printed
  | block statements _ => joined .semicolon (printedAll statements)
  | matrix elements _ =>
    .symbol .leftBracket :: joined .comma (printedAll elements) ++ [.symbol .rightBracket]
  | index object indices _ =>
    enclosed object.isCompound object.printed ++ .symbol .leftBracket ::
      joined .comma (printedAll indices) ++ [.symbol .rightBracket]

def printedAll : List Expr → List (List Token)
  | [] => []
  | e :: es => e.printed :: printedAll es

end

@[simp] theorem printedAll_eq_map (es : List Expr) : printedAll es = es.map printed := by
  induction es with
  | nil => rfl
  | cons e es ih => simp [printedAll, ih]

@[simp] theorem renderAll_eq_map (es : List Expr) : renderAll es = es.map render := by
  induction es with
  | nil => rfl
  | cons e es ih => simp [renderAll, ih]

/-- The expressions of sources: definitions and blocks stand below no other node, an index is
never empty, and names and literals can be read from their own text. -/
inductive Printable : Expr → Prop
  | literal : Lexable v.token → Printable (literal v o)
  | name : Lexable (.identifier n) → Printable (name n o)
  | unary : Printable e → Printable (unary op e o)
  | binary : Printable l → Printable r → Printable (binary op l r o)
  | call : Lexable (.identifier n) → (∀ a ∈ as, Printable a) → Printable (call n as o)
  | assign : Lexable (.identifier n) → Printable e → Printable (assign n e o)
  | matrix : (∀ e ∈ es, Printable e) → Printable (matrix es o)
  | index : Printable e → is ≠ [] → (∀ i ∈ is, Printable i) → Printable (index e is o)

inductive PrintableStatement : Expr → Prop
  | define : Lexable (.identifier n) → (∀ p ∈ ps, Lexable (.identifier p)) → ps.Nodup →
      Printable e → PrintableStatement (define n ps e o)
  | expression : Printable e → PrintableStatement e

end Expr

namespace Grammar

def Makes (P : α → Prop) (L : Phrase α) : Prop :=
  ∀ ⦃ts a us⦄, L ts a us → (∀ t ∈ ts, Lexable t) → P a ∧ ∀ t ∈ us, Lexable t

theorem Identifier.makes : Makes (fun n => Lexable (.identifier n)) Identifier := by
  rintro _ n us ⟨⟩ lexable
  exact List.forall_mem_cons.mp lexable

theorem Separated.makes {P : α → Prop} {L : Phrase α} (item : Makes P L) :
    Makes (fun as => ∀ a ∈ as, P a) (Separated s L) := by
  intro ts as us h lexable
  induction h with
  | single h => simpa using item h lexable
  | more h _ ih =>
    obtain ⟨first, rest⟩ := item h lexable
    obtain ⟨others, rest⟩ := ih (List.forall_mem_cons.mp rest).2
    exact ⟨List.forall_mem_cons.mpr ⟨first, others⟩, rest⟩

theorem Enclosed.makes {P : α → Prop} {L : Phrase α} (item : Makes P L) :
    Makes (fun as => ∀ a ∈ as, P a) (Enclosed closing L) := by
  intro ts as us h lexable
  cases h with
  | empty => exact ⟨by simp, (List.forall_mem_cons.mp lexable).2⟩
  | items h =>
    obtain ⟨items, rest⟩ := Separated.makes item h lexable
    exact ⟨items, (List.forall_mem_cons.mp rest).2⟩

section

open Reckon.Expr

variable {E U L V O : Phrase Expr}

theorem Primary.makes (expression : Makes Printable E) : Makes Printable (Primary E) := by
  intro ts e us h lexable
  cases h with
  | number | text | boolean =>
    obtain ⟨first, rest⟩ := List.forall_mem_cons.mp lexable
    exact ⟨.literal first, rest⟩
  | name =>
    obtain ⟨first, rest⟩ := List.forall_mem_cons.mp lexable
    exact ⟨.name first, rest⟩
  | call h =>
    obtain ⟨first, rest⟩ := List.forall_mem_cons.mp lexable
    obtain ⟨arguments, rest⟩ := Enclosed.makes expression h (List.forall_mem_cons.mp rest).2
    exact ⟨.call first arguments, rest⟩
  | group h =>
    obtain ⟨inner, rest⟩ := expression h (List.forall_mem_cons.mp lexable).2
    exact ⟨inner, (List.forall_mem_cons.mp rest).2⟩
  | noElements =>
    obtain ⟨_, rest⟩ := List.forall_mem_cons.mp lexable
    exact ⟨.matrix (by simp), (List.forall_mem_cons.mp rest).2⟩
  | row h =>
    obtain ⟨elements, rest⟩ := Separated.makes expression h (List.forall_mem_cons.mp lexable).2
    exact ⟨.matrix elements, (List.forall_mem_cons.mp rest).2⟩
  | rows h =>
    obtain ⟨rows, rest⟩ := Separated.makes (Separated.makes expression) h
      (List.forall_mem_cons.mp lexable).2
    refine ⟨.matrix fun e he => ?_, (List.forall_mem_cons.mp rest).2⟩
    obtain ⟨row, member, rfl⟩ := List.mem_map.mp he
    exact .matrix (rows row member)

theorem Postfixed.makes (expression : Makes Printable E) : Makes Printable (Postfixed E) := by
  intro ts e us h lexable
  induction h with
  | primary h => exact Primary.makes expression h lexable
  | mark _ _ ih =>
    obtain ⟨operand, rest⟩ := ih lexable
    exact ⟨.unary operand, (List.forall_mem_cons.mp rest).2⟩
  | index _ h ih =>
    obtain ⟨object, rest⟩ := ih lexable
    obtain ⟨indices, rest⟩ := Separated.makes expression h (List.forall_mem_cons.mp rest).2
    exact ⟨.index object h.ne_nil indices, (List.forall_mem_cons.mp rest).2⟩

theorem Power.makes (unary : Makes Printable U) (expression : Makes Printable E) :
    Makes Printable (Power U E) := by
  intro ts e us h lexable
  cases h with
  | base h => exact Postfixed.makes expression h lexable
  | power hb he =>
    obtain ⟨base, rest⟩ := Postfixed.makes expression hb lexable
    obtain ⟨exponent, rest⟩ := unary he (List.forall_mem_cons.mp rest).2
    exact ⟨.binary base exponent, rest⟩

theorem Signed.makes (unary : Makes Printable U) (expression : Makes Printable E) :
    Makes Printable (Signed U E) := by
  intro ts e us h lexable
  cases h with
  | sign _ h =>
    obtain ⟨operand, rest⟩ := unary h (List.forall_mem_cons.mp lexable).2
    exact ⟨.unary operand, rest⟩
  | power h => exact Power.makes unary expression h lexable

theorem Product.makes (unary : Makes Printable U) : Makes Printable (Product U) := by
  intro ts e us h lexable
  induction h with
  | factor h => exact unary h lexable
  | operator _ _ hr ih =>
    obtain ⟨left, rest⟩ := ih lexable
    obtain ⟨right, rest⟩ := unary hr (List.forall_mem_cons.mp rest).2
    exact ⟨.binary left right, rest⟩
  | adjacent _ _ hr ih =>
    obtain ⟨left, rest⟩ := ih lexable
    obtain ⟨right, rest⟩ := unary hr rest
    exact ⟨.binary left right, rest⟩

theorem LeftAssociative.makes (operand : Makes Printable L) :
    Makes Printable (LeftAssociative operators L) := by
  intro ts e us h lexable
  induction h with
  | operand h => exact operand h lexable
  | operator _ _ hr ih =>
    obtain ⟨left, rest⟩ := ih lexable
    obtain ⟨right, rest⟩ := operand hr (List.forall_mem_cons.mp rest).2
    exact ⟨.binary left right, rest⟩

theorem Comparison.makes (operand : Makes Printable L) : Makes Printable (Comparison L) := by
  intro ts e us h lexable
  cases h with
  | operand h => exact operand h lexable
  | comparison hl _ hr =>
    obtain ⟨left, rest⟩ := operand hl lexable
    obtain ⟨right, rest⟩ := operand hr (List.forall_mem_cons.mp rest).2
    exact ⟨.binary left right, rest⟩

theorem Disjunction.makes (unary : Makes Printable U) : Makes Printable (Disjunction U) :=
  LeftAssociative.makes (LeftAssociative.makes (LeftAssociative.makes
    (Comparison.makes (LeftAssociative.makes (LeftAssociative.makes (Product.makes unary))))))

theorem Assignment.makes (value : Makes Printable V) (otherwise : Makes Printable O) :
    Makes Printable (Assignment V O) := by
  intro ts e us h lexable
  cases h with
  | assign h =>
    obtain ⟨first, rest⟩ := List.forall_mem_cons.mp lexable
    obtain ⟨assigned, rest⟩ := value h (List.forall_mem_cons.mp rest).2
    exact ⟨.assign first assigned, rest⟩
  | otherwise h => exact otherwise h lexable

theorem layer_makes (nesting : Nat) :
    Makes Printable (layer nesting).unary ∧ Makes Printable (layer nesting).expression := by
  induction nesting with
  | zero => exact ⟨fun _ _ _ h => h.elim, fun _ _ _ h => h.elim⟩
  | succ nesting ih =>
    have unary := Signed.makes ih.1 ih.2
    exact ⟨unary, Assignment.makes ih.2 (Disjunction.makes unary)⟩

theorem Definition.makes (expression : Makes Printable E) :
    Makes PrintableStatement (Definition E) := by
  rintro _ _ _ ⟨hps, distinct, hb⟩ lexable
  obtain ⟨first, rest⟩ := List.forall_mem_cons.mp lexable
  obtain ⟨parameters, rest⟩ := Enclosed.makes Identifier.makes hps (List.forall_mem_cons.mp rest).2
  obtain ⟨body, rest⟩ := expression hb (List.forall_mem_cons.mp rest).2
  exact ⟨.define first parameters distinct body, rest⟩

theorem Statement.makes (expression : Makes Printable E) :
    Makes PrintableStatement (Statement E) := by
  intro ts e us h lexable
  cases h with
  | definition h => exact Definition.makes expression h lexable
  | function h => exact Definition.makes expression h (List.forall_mem_cons.mp lexable).2
  | expression h =>
    obtain ⟨printable, rest⟩ := expression h lexable
    exact ⟨.expression printable, rest⟩

theorem Statements.makes (statement : Makes PrintableStatement L) (h : Statements L ts es)
    (lexable : ∀ t ∈ ts, Lexable t) : ∀ e ∈ es, PrintableStatement e := by
  induction h with
  | none => simp
  | separator _ _ ih => exact ih (List.forall_mem_cons.mp lexable).2
  | last h => simpa using (statement h lexable).1
  | next h _ _ ih =>
    obtain ⟨first, rest⟩ := statement h lexable
    exact List.forall_mem_cons.mpr ⟨first, ih (List.forall_mem_cons.mp rest).2⟩

end

end Grammar
end Reckon
