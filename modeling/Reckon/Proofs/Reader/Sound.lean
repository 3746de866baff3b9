import Reckon.Proofs.Grammar.Phrases
import Reckon.Proofs.Reader.Run

/-! Every reader is sound for its production: what it takes off the front of the tokens derives the
tree that it returns. The readers of one depth of nesting are sound if those of the next one are. -/
namespace Reckon

open Grammar

theorem Cursor.tokens_eq_cons {c : Cursor} (h : c.tokens.head? = some t) :
    c.tokens = t :: c.advance.tokens := by
  rw [tokens_advance]
  obtain ⟨us, hc⟩ := List.head?_eq_some_iff.mp h
  rw [hc, List.tail_cons]

namespace Parse

/-- The reader takes tokens off the front that derive its result. -/
def Sound (p : Parse α) (view : α → β) (L : Phrase β) : Prop :=
  ∀ ⦃c a d⦄, run p c = (.ok a, d) → L c.tokens (view a) d.tokens

theorem identifier_sound : Sound identifier id Identifier := by
  intro c n d h
  simp only [identifier, run_peek_bind] at h
  split at h
  · rename_i name hc
    simp only [run_advance_bind, run_pure, Prod.mk.injEq, Except.ok.injEq] at h
    obtain ⟨rfl, rfl⟩ := h
    rw [Cursor.tokens_eq_cons hc]
    exact .identifier
  · simp at h

inductive Tail (item : Phrase α) (closing : Symbol) : Phrase (List α)
  | close : Tail item closing (.symbol closing :: us) [] us
  | comma : Separated .comma item ts as (.symbol closing :: us) →
      Tail item closing (.symbol .comma :: ts) as us

theorem Tail.separated (first : L ts a us) (rest : Tail L closing us as vs) :
    Separated .comma L ts (a :: as) (.symbol closing :: vs) := by
  cases rest with
  | close => exact .single first
  | comma rest => exact .more first rest

theorem commaItems_sound (item : Sound p view L) (turns : List Located) :
    Sound (commaItems p closing turns) (List.map view) (Tail L closing) := by
  induction turns with
  | nil => intro c as d h; simp [commaItems] at h
  | cons t turns ih =>
    intro c as d h
    simp only [commaItems, run_accept_bind, reduceIte] at h
    split at h
    · rename_i comma
      simp only [run_bind_eq_ok, run_pure, Prod.mk.injEq, Except.ok.injEq] at h
      obtain ⟨a, m, ha, as, m', has, rfl, rfl⟩ := h
      rw [Cursor.tokens_eq_cons comma]
      exact .comma (Tail.separated (item ha) (ih has))
    · simp only [Bool.false_eq_true, reduceIte, run_accept_bind] at h
      split at h
      · rename_i close
        simp only [run_pure, Prod.mk.injEq, Except.ok.injEq] at h
        obtain ⟨rfl, rfl⟩ := h
        rw [Cursor.tokens_eq_cons close]
        exact .close
      · simp at h

theorem commaSeparated_sound (item : Sound p view L) :
    Sound (commaSeparated p closing) (List.map view) (Enclosed closing L) := by
  intro c as d h
  simp only [commaSeparated, run_accept_bind, reduceIte] at h
  split at h
  · rename_i close
    simp only [run_pure, Prod.mk.injEq, Except.ok.injEq] at h
    obtain ⟨rfl, rfl⟩ := h
    rw [Cursor.tokens_eq_cons close]
    exact .empty
  · simp only [Bool.false_eq_true, reduceIte, run_bind_eq_ok, run_ahead_bind, run_pure,
      Prod.mk.injEq, Except.ok.injEq] at h
    obtain ⟨a, m, ha, as, m', has, rfl, rfl⟩ := h
    exact .items (Tail.separated (item ha) (commaItems_sound item _ has))

section

variable {p unary : Parse Expr} {E U : Phrase Expr}

def rowEnd (more : Bool) : Symbol := if more then .semicolon else .rightBracket

theorem rowElements_sound (expression : Sound p Expr.skeleton E) (turns : List Located)
    (h : run (rowElements p turns) c = (.ok (es, more), d)) :
    Tail E (rowEnd more) c.tokens (es.map Expr.skeleton) d.tokens := by
  induction turns generalizing c es with
  | nil => simp [rowElements] at h
  | cons t turns ih =>
    simp only [rowElements, run_accept_bind, reduceIte, Bool.false_eq_true] at h
    split at h
    · rename_i comma
      simp only [run_bind_eq_ok, run_pure, Prod.mk.injEq, Except.ok.injEq] at h
      obtain ⟨e, m, he, ⟨es', more'⟩, m', hes, ⟨rfl, rfl⟩, rfl⟩ := h
      rw [Cursor.tokens_eq_cons comma]
      exact .comma (Tail.separated (expression he) (ih hes))
    · split at h
      · rename_i close
        simp only [run_pure, Prod.mk.injEq, Except.ok.injEq] at h
        obtain ⟨⟨rfl, rfl⟩, rfl⟩ := h
        rw [Cursor.tokens_eq_cons close]
        exact .close
      · split at h
        · rename_i close
          simp only [run_pure, Prod.mk.injEq, Except.ok.injEq] at h
          obtain ⟨⟨rfl, rfl⟩, rfl⟩ := h
          rw [Cursor.tokens_eq_cons close]
          exact .close
        · simp at h

theorem matrixRow_sound (expression : Sound p Expr.skeleton E)
    (h : run (matrixRow p) c = (.ok ((es, o), more), d)) :
    Separated .comma E c.tokens (es.map Expr.skeleton) (.symbol (rowEnd more) :: d.tokens) := by
  simp only [matrixRow, run_offset_bind, run_bind_eq_ok, run_ahead_bind, run_pure, Prod.mk.injEq,
    Except.ok.injEq] at h
  obtain ⟨e, m, he, ⟨es', more'⟩, m', hes, ⟨⟨rfl, _⟩, rfl⟩, rfl⟩ := h
  exact Tail.separated (expression he) (rowElements_sound expression _ hes)

/-- The turns suffice for the tokens ahead, so the last row is not cut off. -/
theorem matrixRows_sound (regular : Regular E) (expression : Sound p Expr.skeleton E)
    (turns : List Located) (enough : c.tokens.length ≤ turns.length)
    (h : run (matrixRows p turns) c = (.ok rows, d)) :
    Separated .semicolon (Separated .comma E) c.tokens (rows.map (·.1.map Expr.skeleton))
      (.symbol .rightBracket :: d.tokens) := by
  have row : Regular (Separated .comma E) := regular.items
  induction turns generalizing c rows with
  | nil =>
    simp only [matrixRows, run_bind_eq_ok] at h
    obtain ⟨⟨⟨es, o⟩, more⟩, m, hr, _⟩ := h
    have := (row (matrixRow_sound expression hr)).length_lt
    simp only [List.length_nil] at enough
    omega
  | cons t turns ih =>
    simp only [matrixRows, run_bind_eq_ok] at h
    obtain ⟨⟨⟨es, o⟩, more⟩, m, hr, h⟩ := h
    have hr := matrixRow_sound expression hr
    cases more with
    | false =>
      simp only [Bool.false_eq_true, reduceIte, run_pure, Prod.mk.injEq, Except.ok.injEq] at h
      obtain ⟨rfl, rfl⟩ := h
      exact .single hr
    | true =>
      simp only [reduceIte, run_bind_eq_ok, run_pure, Prod.mk.injEq, Except.ok.injEq] at h
      obtain ⟨rows, m', hrs, rfl, rfl⟩ := h
      have shorter := (row hr).length_lt
      simp only [List.length_cons] at enough shorter
      exact .more hr (ih (by omega) hrs)

theorem matrix_sound (regular : Regular E) (expression : Sound p Expr.skeleton E) :
    Sound (matrix p) Expr.skeleton (Primary E) := by
  intro c e d h
  simp only [matrix, run_offset_bind, run_expect_bind, run_accept_bind, reduceIte,
    Bool.false_eq_true] at h
  split at h
  · rename_i opened
    rw [Cursor.tokens_eq_cons opened]
    split at h
    · rename_i close
      simp only [run_pure, Prod.mk.injEq, Except.ok.injEq] at h
      obtain ⟨rfl, rfl⟩ := h
      rw [Cursor.tokens_eq_cons close]
      exact .noElements
    · simp only [run_ahead_bind, run_bind_eq_ok] at h
      obtain ⟨rows, m, hrs, h⟩ := h
      have hrs := matrixRows_sound regular expression _ (by simp) hrs
      split at h
      · simp only [run_pure, Prod.mk.injEq, Except.ok.injEq] at h
        obtain ⟨rfl, rfl⟩ := h
        rw [Expr.skeleton, Expr.skeletons_eq_map]
        exact .row hrs.of_singleton
      · rename_i several
        simp only [run_pure, Prod.mk.injEq, Except.ok.injEq] at h
        obtain ⟨rfl, rfl⟩ := h
        have two : 2 ≤ rows.length := by
          rcases rows with _ | ⟨⟨es, o⟩, _ | ⟨row, rows⟩⟩
          · exact absurd rfl hrs.ne_nil
          · exact absurd rfl (several es o)
          · simp
        have derived := Primary.rows hrs (by simpa using two)
        simpa [Expr.skeleton, Function.comp_def] using derived
  · simp at h

theorem primary_sound (regular : Regular E) (expression : Sound p Expr.skeleton E) :
    Sound (primary p) Expr.skeleton (Primary E) := by
  intro c e d h
  simp only [primary, run_offset_bind, run_peek_bind] at h
  split at h
  · rename_i digits hc
    simp only [run_advance_bind, run_pure, Prod.mk.injEq, Except.ok.injEq] at h
    obtain ⟨rfl, rfl⟩ := h
    rw [Cursor.tokens_eq_cons hc]
    exact .number
  · rename_i content hc
    simp only [run_advance_bind, run_pure, Prod.mk.injEq, Except.ok.injEq] at h
    obtain ⟨rfl, rfl⟩ := h
    rw [Cursor.tokens_eq_cons hc]
    exact .text
  · rename_i value hc
    simp only [run_advance_bind, run_pure, Prod.mk.injEq, Except.ok.injEq] at h
    obtain ⟨rfl, rfl⟩ := h
    rw [Cursor.tokens_eq_cons hc]
    exact .boolean
  · rename_i n hc
    simp only [run_advance_bind, run_accept_bind, reduceIte, Bool.false_eq_true] at h
    rw [Cursor.tokens_eq_cons hc]
    split at h
    · rename_i opened
      simp only [run_bind_eq_ok, run_pure, Prod.mk.injEq, Except.ok.injEq] at h
      obtain ⟨as, m, has, rfl, rfl⟩ := h
      rw [Cursor.tokens_eq_cons opened, Expr.skeleton, Expr.skeletons_eq_map]
      exact .call (commaSeparated_sound expression has)
    · rename_i apart
      simp only [run_pure, Prod.mk.injEq, Except.ok.injEq] at h
      obtain ⟨rfl, rfl⟩ := h
      exact .name apart
  · rename_i hc
    simp only [run_advance_bind, run_bind_eq_ok, run_expect_bind] at h
    obtain ⟨inner, m, hi, h⟩ := h
    rw [Cursor.tokens_eq_cons hc]
    split at h
    · rename_i close
      simp only [run_pure, Prod.mk.injEq, Except.ok.injEq] at h
      obtain ⟨rfl, rfl⟩ := h
      exact .group (Cursor.tokens_eq_cons close ▸ expression hi)
    · simp at h
  · exact matrix_sound regular expression h
  · simp at h

def joining : List (Symbol × BinaryOperator) :=
  (.caret, .pow) :: products ++ sums ++ conversions ++ comparisons ++ conjunctions ++
    exclusions ++ disjunctions

theorem binaryOperator?_eq_some {t : Token} :
    t.binaryOperator? = some op ↔ ∃ s, t = .symbol s ∧ (s, op) ∈ joining := by
  constructor
  · intro h
    unfold Token.binaryOperator? at h
    split at h <;> cases h <;> exact ⟨_, rfl, by decide⟩
  · rintro ⟨s, rfl, member⟩
    have spelled : ∀ x ∈ joining, (Token.symbol x.1).binaryOperator? = some x.2 := by decide
    exact spelled _ member

theorem products_of_joining : ∀ x ∈ joining, x.2 ∈ [BinaryOperator.mul, .div, .mod] →
    x ∈ products := by decide

theorem comparisons_of_joining : ∀ x ∈ joining, x.2.isComparison = true → x ∈ comparisons := by
  decide

theorem indices_sound (expression : Sound p Expr.skeleton E) :
    Sound (indices p) (List.map Expr.skeleton)
      (fun ts is us => Separated .comma E ts is (.symbol .rightBracket :: us)) := by
  intro c is d h
  simp only [indices, run_peek_bind] at h
  split at h
  · simp at h
  · rename_i occupied
    generalize his : is.map Expr.skeleton = js
    have listed := commaSeparated_sound expression h
    rw [his] at listed
    generalize hc : c.tokens = ts at listed
    cases listed with
    | empty => simp [hc] at occupied
    | items h => exact h

/-- The loop goes on with an operand that is already derived from tokens `ts`. -/
theorem postfixes_sound (expression : Sound p Expr.skeleton E) (turns : List Located)
    (operand : Postfixed E ts o.skeleton c.tokens) (h : run (postfixes p turns o) c = (.ok e, d)) :
    Postfixed E ts e.skeleton d.tokens := by
  induction turns generalizing c o with
  | nil =>
    simp only [postfixes, run_pure, Prod.mk.injEq, Except.ok.injEq] at h
    obtain ⟨rfl, rfl⟩ := h
    exact operand
  | cons t turns ih =>
    simp only [postfixes, run_offset_bind, run_peek_bind] at h
    split at h
    · rename_i hc
      rw [run_advance_bind] at h
      rw [Cursor.tokens_eq_cons hc] at operand
      refine ih ?_ h
      exact .mark operand (by decide)
    · rename_i hc
      rw [run_advance_bind] at h
      rw [Cursor.tokens_eq_cons hc] at operand
      refine ih ?_ h
      exact .mark operand (by decide)
    · rename_i hc
      simp only [run_advance_bind, run_bind_eq_ok] at h
      obtain ⟨is, m, his, h⟩ := h
      rw [Cursor.tokens_eq_cons hc] at operand
      refine ih ?_ h
      rw [Expr.skeleton, Expr.skeletons_eq_map]
      exact .index operand (indices_sound expression his)
    · simp only [run_pure, Prod.mk.injEq, Except.ok.injEq] at h
      obtain ⟨rfl, rfl⟩ := h
      exact operand

theorem postfixed_sound (regular : Regular E) (expression : Sound p Expr.skeleton E) :
    Sound (postfixed p) Expr.skeleton (Postfixed E) := by
  intro c e d h
  simp only [postfixed, run_bind_eq_ok, run_ahead_bind] at h
  obtain ⟨o, m, ho, h⟩ := h
  exact postfixes_sound expression _ (.primary (primary_sound regular expression ho)) h

theorem power_sound (regular : Regular E) (unary_ : Sound unary Expr.skeleton U)
    (expression : Sound p Expr.skeleton E) :
    Sound (power unary p) Expr.skeleton (Power U E) := by
  intro c e d h
  simp only [power, run_bind_eq_ok, run_offset_bind, run_accept_bind] at h
  obtain ⟨b, m, hb, h⟩ := h
  have hb := postfixed_sound regular expression hb
  split at h
  · rename_i caret
    simp only [reduceIte, run_bind_eq_ok, run_pure, Prod.mk.injEq, Except.ok.injEq] at h
    obtain ⟨x, m', hx, rfl, rfl⟩ := h
    exact .power (Cursor.tokens_eq_cons caret ▸ hb) (unary_ hx)
  · simp only [Bool.false_eq_true, reduceIte, run_pure, Prod.mk.injEq, Except.ok.injEq] at h
    obtain ⟨rfl, rfl⟩ := h
    exact .base hb

theorem sign?_eq_some (h : sign? t = some op) : ∃ s, t = some (.symbol s) ∧ (s, op) ∈ signs := by
  unfold sign? at h
  split at h <;> simp_all [signs]

theorem signed_sound (regular : Regular E) (unary_ : Sound unary Expr.skeleton U)
    (expression : Sound p Expr.skeleton E) :
    Sound (signed unary p) Expr.skeleton (Signed U E) := by
  intro c e d h
  simp only [signed, run_peek_bind] at h
  split at h
  · rename_i op sign
    simp only [run_offset_bind, run_advance_bind, run_bind_eq_ok, run_pure, Prod.mk.injEq,
      Except.ok.injEq] at h
    obtain ⟨x, m, hx, rfl, rfl⟩ := h
    obtain ⟨s, hs, member⟩ := sign?_eq_some sign
    rw [Cursor.tokens_eq_cons hs]
    exact .sign member (unary_ hx)
  · exact .power (power_sound regular unary_ expression h)

/-- The loop goes on with a product that is already derived from tokens `ts`. -/
theorem factors_sound (unary_ : Sound unary Expr.skeleton U)
    (turns : List Located) (left : Product U ts l.skeleton c.tokens)
    (h : run (factors unary turns l) c = (.ok e, d)) : Product U ts e.skeleton d.tokens := by
  induction turns generalizing c l with
  | nil =>
    simp only [factors, run_pure, Prod.mk.injEq, Except.ok.injEq] at h
    obtain ⟨rfl, rfl⟩ := h
    exact left
  | cons t turns ih =>
    simp only [factors, run_offset_bind, run_peek_bind] at h
    split at h
    · rename_i token hc
      split at h
      · rename_i starts
        simp only [run_bind_eq_ok] at h
        obtain ⟨r, m, hr, h⟩ := h
        have hr := unary_ hr
        rw [Cursor.tokens_eq_cons hc] at hr left
        refine ih ?_ h
        exact .adjacent left starts hr
      · split at h
        · rename_i op hop
          split at h
          · rename_i level
            simp only [run_advance_bind, run_bind_eq_ok] at h
            obtain ⟨r, m, hr, h⟩ := h
            obtain ⟨s, rfl, member⟩ := binaryOperator?_eq_some.mp hop
            rw [Cursor.tokens_eq_cons hc] at left
            refine ih ?_ h
            exact .operator left (products_of_joining _ member level) (unary_ hr)
          · simp only [run_pure, Prod.mk.injEq, Except.ok.injEq] at h
            obtain ⟨rfl, rfl⟩ := h
            exact left
        · simp only [run_pure, Prod.mk.injEq, Except.ok.injEq] at h
          obtain ⟨rfl, rfl⟩ := h
          exact left
    · simp only [run_pure, Prod.mk.injEq, Except.ok.injEq] at h
      obtain ⟨rfl, rfl⟩ := h
      exact left

theorem product_sound (unary_ : Sound unary Expr.skeleton U) :
    Sound (product unary) Expr.skeleton (Product U) := by
  intro c e d h
  simp only [product, run_bind_eq_ok, run_ahead_bind] at h
  obtain ⟨l, m, hl, h⟩ := h
  exact factors_sound unary_ _ (.factor (unary_ hl)) h

/-- The loop goes on with a tree that is already derived from tokens `ts`. -/
theorem chain_sound {level : List BinaryOperator} {operators : List (Symbol × BinaryOperator)}
    (spelled : ∀ x ∈ joining, x.2 ∈ level → x ∈ operators)
    (operand : Sound p Expr.skeleton E) (turns : List Located)
    (left : LeftAssociative operators E ts l.skeleton c.tokens)
    (h : run (chain p level turns l) c = (.ok e, d)) :
    LeftAssociative operators E ts e.skeleton d.tokens := by
  induction turns generalizing c l with
  | nil =>
    simp only [chain, run_pure, Prod.mk.injEq, Except.ok.injEq] at h
    obtain ⟨rfl, rfl⟩ := h
    exact left
  | cons t turns ih =>
    simp only [chain, run_peekOperator_bind] at h
    split at h
    · rename_i op hop
      split at h
      · rename_i member
        simp only [run_offset_bind, run_advance_bind, run_bind_eq_ok] at h
        obtain ⟨r, m, hr, h⟩ := h
        obtain ⟨t, hc, hop⟩ := Option.bind_eq_some_iff.mp hop
        obtain ⟨s, rfl, joins⟩ := binaryOperator?_eq_some.mp hop
        rw [Cursor.tokens_eq_cons hc] at left
        refine ih ?_ h
        exact .operator left (spelled _ joins member) (operand hr)
      · simp only [run_pure, Prod.mk.injEq, Except.ok.injEq] at h
        obtain ⟨rfl, rfl⟩ := h
        exact left
    · simp only [run_pure, Prod.mk.injEq, Except.ok.injEq] at h
      obtain ⟨rfl, rfl⟩ := h
      exact left

theorem leftAssociative_sound {level : List BinaryOperator}
    {operators : List (Symbol × BinaryOperator)}
    (spelled : ∀ x ∈ joining, x.2 ∈ level → x ∈ operators)
    (operand : Sound p Expr.skeleton E) :
    Sound (leftAssociative p level) Expr.skeleton (LeftAssociative operators E) := by
  intro c e d h
  simp only [leftAssociative, run_bind_eq_ok, run_ahead_bind] at h
  obtain ⟨l, m, hl, h⟩ := h
  exact chain_sound spelled operand _ (.operand (operand hl)) h

theorem conversion_sound (unary_ : Sound unary Expr.skeleton U) :
    Sound (conversion unary) Expr.skeleton (Conversion U) :=
  leftAssociative_sound (by decide)
    (leftAssociative_sound (by decide) (product_sound unary_))

theorem comparison_sound (operand : Sound (conversion unary) Expr.skeleton E) :
    Sound (comparison unary) Expr.skeleton (Comparison E) := by
  intro c e d h
  simp only [comparison, run_bind_eq_ok, run_peekComparison_bind] at h
  obtain ⟨l, m, hl, h⟩ := h
  have hl := operand hl
  split at h
  · rename_i op hop
    simp only [run_offset_bind, run_advance_bind, run_bind_eq_ok, run_peekComparison_bind] at h
    obtain ⟨r, m', hr, h⟩ := h
    split at h
    · simp at h
    · simp only [run_pure, Prod.mk.injEq, Except.ok.injEq] at h
      obtain ⟨rfl, rfl⟩ := h
      obtain ⟨hop, compares⟩ := Option.filter_eq_some_iff.mp hop
      obtain ⟨t, hc, hop⟩ := Option.bind_eq_some_iff.mp hop
      obtain ⟨s, rfl, joins⟩ := binaryOperator?_eq_some.mp hop
      rw [Cursor.tokens_eq_cons hc] at hl
      exact .comparison hl (comparisons_of_joining _ joins compares) (operand hr)
  · simp only [run_pure, Prod.mk.injEq, Except.ok.injEq] at h
    obtain ⟨rfl, rfl⟩ := h
    exact .operand hl

theorem disjunction_sound (unary_ : Sound unary Expr.skeleton U) :
    Sound (disjunction unary) Expr.skeleton (Disjunction U) :=
  leftAssociative_sound (by decide) (leftAssociative_sound (by decide)
    (leftAssociative_sound (by decide) (comparison_sound (conversion_sound unary_))))

theorem assignment_sound {value otherwise : Parse Expr} {V O : Phrase Expr}
    (value_ : Sound value Expr.skeleton V) (otherwise_ : Sound otherwise Expr.skeleton O) :
    Sound (assignment value otherwise) Expr.skeleton (Assignment V O) := by
  intro c e d h
  rw [run_assignment] at h
  split at h
  · rename_i n o o' rest hc
    simp only [run_advance_bind, run_bind_eq_ok, run_pure, Prod.mk.injEq, Except.ok.injEq] at h
    obtain ⟨v, m, hv, rfl, rfl⟩ := h
    have tokens : c.tokens = .identifier n :: .symbol .equals :: c.advance.advance.tokens := by
      simp [Cursor.tokens, Cursor.advance, hc]
    rw [tokens]
    exact .assign (value_ hv)
  · exact .otherwise (otherwise_ h)

theorem nested_sound (inner : Sound p Expr.skeleton E) : Sound (nested p) Expr.skeleton E := by
  intro c e d h
  rw [run_nested] at h
  split at h
  · simp only [Prod.mk.injEq] at h
    obtain ⟨h, rfl⟩ := h
    exact inner (c := { c with depth := c.depth + 1 }) (d := (run p _).2) (Prod.ext h rfl)
  · simp at h

end

/-- Without room for a unary there is none for an operation either. -/
theorem run_disjunction_tooDeep (c : Cursor) :
    run (disjunction tooDeep) c = (.error (.tooDeep c.offset), c) := by
  simp only [disjunction, exclusion, conjunction, comparison, conversion, sum, product,
    leftAssociative, run_bind, run_tooDeep]

/-- The readers of one depth of nesting are sound for the grammar of that depth. -/
theorem level_sound (nesting : Nat) :
    Sound (level nesting).unary Expr.skeleton (layer nesting).unary ∧
    Sound (level nesting).expression Expr.skeleton (layer nesting).expression := by
  induction nesting with
  | zero =>
    refine ⟨fun c e d h => ?_, fun c e d h => ?_⟩
    · simp [level] at h
    · rw [level, run_assignment] at h
      split at h
      · simp only [run_advance_bind, run_tooDeep_bind, Prod.mk.injEq, reduceCtorEq,
          false_and] at h
      · simp [run_disjunction_tooDeep] at h
  | succ nesting ih =>
    have regular := layer_regular nesting
    have unary := nested_sound (signed_sound regular.2 ih.1 ih.2)
    exact ⟨unary, assignment_sound (nested_sound ih.2)
      (disjunction_sound unary)⟩

theorem firstRepeated_eq_none : firstRepeated seen names = none ↔
    names.Nodup ∧ ∀ n ∈ names, n ∉ seen := by
  induction names generalizing seen with
  | nil => simp [firstRepeated]
  | cons name names ih =>
    rw [firstRepeated]
    split
    · rename_i repeated
      simp only [reduceCtorEq, false_iff, not_and]
      exact fun _ apart => apart name List.mem_cons_self repeated
    · rename_i fresh
      rw [ih]
      grind

theorem parameters_sound : Sound (parameters name start) id
    (fun ts ps us => Enclosed .rightParen Identifier ts ps us ∧ ps.Nodup) := by
  intro c ps d h
  rw [run_parameters] at h
  split at h
  · simp at h
  · simp at h
  · rename_i names after hn
    split at h
    · simp at h
    · rename_i distinct
      simp only [Prod.mk.injEq, Except.ok.injEq] at h
      obtain ⟨rfl, rfl⟩ := h
      have listed := commaSeparated_sound identifier_sound hn
      rw [List.map_id] at listed
      exact ⟨listed, (firstRepeated_eq_none.mp distinct).1⟩

theorem signature_sound :
    Sound (signature start) Expr.skeleton (Definition (layer maxNesting).expression) := by
  intro c e d h
  simp only [signature, run_identifier_bind] at h
  split at h
  · rename_i n hc
    simp only [run_expect_bind] at h
    rw [Cursor.tokens_eq_cons hc]
    split at h
    · rename_i opened
      simp only [run_bind_eq_ok (p := parameters n start), run_expect_bind] at h
      obtain ⟨ps, m, hps, h⟩ := h
      obtain ⟨listed, distinct⟩ := parameters_sound hps
      rw [Cursor.tokens_eq_cons opened]
      split at h
      · rename_i equals
        simp only [run_bind_eq_ok, run_pure, Prod.mk.injEq, Except.ok.injEq] at h
        obtain ⟨b, m', hb, rfl, rfl⟩ := h
        rw [Cursor.tokens_eq_cons equals] at listed
        exact .define listed distinct ((level_sound maxNesting).2 hb)
      · simp at h
    · simp at h
  · simp at h

theorem statement_sound :
    Sound statement Expr.skeleton (Statement (layer maxNesting).expression) := by
  intro c e d h
  rw [run_statement] at h
  split at h
  · rw [run_definition] at h
    split at h
    · rename_i keyword
      rw [Cursor.tokens_eq_cons keyword]
      exact .function (signature_sound h)
    · exact .definition (signature_sound h)
  · exact .expression ((level_sound maxNesting).2 h)

/-- Separators in front of statements change nothing. -/
theorem statements_of_dropWhile (h : Statements S (ts.dropWhile (· ∈ separators)) es) :
    Statements S ts es := by
  induction ts with
  | nil => exact h
  | cons t ts ih =>
    by_cases ht : t ∈ separators
    · rw [List.dropWhile_cons_of_pos (by simpa using ht)] at h
      exact .separator ht (ih h)
    · rwa [List.dropWhile_cons_of_neg (by simpa using ht)] at h

/-- A statement up to a separator or the end, and the statements behind it. -/
theorem statements_cons {S : Phrase Expr} (regular : Regular S) (first : S ts e us)
    (ended : ∀ t ∈ us.head?, t ∈ separators)
    (rest : Statements S (us.dropWhile (· ∈ separators)) es) : Statements S ts (e :: es) := by
  cases us with
  | nil =>
    rw [rest.eq_nil regular]
    exact .last first
  | cons t us =>
    have separates : t ∈ separators := ended t rfl
    rw [List.dropWhile_cons_of_pos (by simpa using separates)] at rest
    exact .next first separates (statements_of_dropWhile rest)

/-- The turns suffice for the tokens ahead, so no statement is left out. -/
theorem statements_sound (turns : List Located) (enough : c.tokens.length ≤ turns.length)
    (h : run (statements turns) c = (.ok es, d)) :
    Statements (Statement (layer maxNesting).expression)
      (c.tokens.dropWhile (· ∈ separators)) (es.map Expr.skeleton) := by
  have regular := Statement.regular (layer_regular maxNesting).2
  induction turns generalizing c es with
  | nil =>
    simp only [statements, run_pure, Prod.mk.injEq, Except.ok.injEq] at h
    obtain ⟨rfl, rfl⟩ := h
    rw [List.eq_nil_of_length_eq_zero (Nat.le_zero.mp enough)]
    exact .none
  | cons t turns ih =>
    have skipped := tokens_dropWhile c.rest
    simp only [statements, run_skipSeparators_bind, run_peek_bind] at h
    generalize hc₁ : ({ c with rest := c.rest.dropWhile isSeparator } : Cursor) = c₁ at h
    have hts : c.tokens.dropWhile (· ∈ separators) = c₁.tokens := by
      rw [← hc₁]
      exact skipped.symm
    have shorter : c₁.tokens.length ≤ c.tokens.length :=
      hts ▸ (List.dropWhile_sublist _).length_le
    rw [hts]
    split at h
    · rename_i ended
      simp only [run_pure, Prod.mk.injEq, Except.ok.injEq] at h
      obtain ⟨rfl, rfl⟩ := h
      rw [List.head?_eq_none_iff.mp ended]
      exact .none
    · simp only [run_bind_eq_ok (p := statement)] at h
      obtain ⟨e, m, he, h⟩ := h
      have he := statement_sound he
      have consumed := (regular he).length_lt
      simp only [List.length_cons] at enough
      by_cases ended : ∀ t ∈ m.tokens.head?, t ∈ separators
      · simp only [run_endOfStatement_bind ended, run_bind_eq_ok, run_pure, Prod.mk.injEq,
          Except.ok.injEq] at h
        obtain ⟨es, m', hes, rfl, rfl⟩ := h
        exact statements_cons regular he ended (ih (by omega) hes)
      · rw [run_bind_of_error (run_endOfStatement_of_not ended).choose_spec] at h
        simp at h

/-- A program that is read derives from its tokens. -/
theorem program_sound (h : run program c = (.ok e, d)) :
    Program maxNesting c.tokens e.skeleton := by
  simp only [program, run_offset_bind, run_ahead_bind, run_bind_eq_ok] at h
  obtain ⟨es, m, hes, h⟩ := h
  have derived := statements_of_dropWhile (statements_sound c.rest (by simp) hes)
  refine ⟨_, derived, ?_⟩
  split at h
  · simp only [run_pure, Prod.mk.injEq, Except.ok.injEq] at h
    obtain ⟨rfl, rfl⟩ := h
    rfl
  · rename_i several
    simp only [run_pure, Prod.mk.injEq, Except.ok.injEq] at h
    obtain ⟨rfl, rfl⟩ := h
    rw [Expr.skeleton, Expr.skeletons_eq_map, ofStatements_of_ne_singleton]
    rintro only hes
    obtain ⟨e, rfl, _⟩ := List.map_eq_singleton_iff.mp hes
    exact several e rfl

end Parse
end Reckon
