import Reckon.Proofs.Printer.Tokens

/-! The tokens of a printed tree derive the tree, once enough nesting is allowed. The parentheses
make every operand a primary expression, so the levels of operators play no part. -/
namespace Reckon

open Grammar

namespace Grammar

def Eventually (P : Nat → Prop) : Prop := ∃ n, ∀ m, n ≤ m → P m

theorem Eventually.of_forall (h : ∀ m, P m) : Eventually P := ⟨0, fun m _ => h m⟩

theorem Eventually.imp (h : Eventually P) (weaker : ∀ m, P m → Q m) : Eventually Q := by
  obtain ⟨n, h⟩ := h
  exact ⟨n, fun m le => weaker m (h m le)⟩

theorem Eventually.and (hp : Eventually P) (hq : Eventually Q) :
    Eventually fun m => P m ∧ Q m := by
  obtain ⟨n, hp⟩ := hp
  obtain ⟨k, hq⟩ := hq
  exact ⟨max n k, fun m le => ⟨hp m (by omega), hq m (by omega)⟩⟩

theorem Eventually.succ (h : Eventually fun m => P (m + 1)) : Eventually P := by
  obtain ⟨n, h⟩ := h
  refine ⟨n + 1, fun m le => ?_⟩
  obtain ⟨m, rfl⟩ : ∃ k, m = k + 1 := ⟨m - 1, by omega⟩
  exact h m (by omega)

theorem Eventually.all {P : α → Nat → Prop} {as : List α} (h : ∀ a ∈ as, Eventually (P a)) :
    Eventually fun m => ∀ a ∈ as, P a m := by
  induction as with
  | nil => exact .of_forall (by simp)
  | cons a as ih =>
    obtain ⟨first, others⟩ := List.forall_mem_cons.mp h
    exact (first.and (ih others)).imp fun m h => List.forall_mem_cons.mpr h

/-- The tokens derive the result in front of all others that do not open a parenthesis. -/
def Derives (L : Phrase α) (ts : List Token) (a : α) : Prop :=
  ∀ us, us.head? ≠ some (.symbol .leftParen) → L (ts ++ us) a us

theorem Derives.joined {f : α → β} {g : α → List Token} {L : Phrase β} {as : List α}
    (h : ∀ a ∈ as, Derives L (g a) (f a)) (occupied : as ≠ []) (apart : s ≠ .leftParen) :
    Derives (Separated s L) (Expr.joined s (as.map g)) (as.map f) := by
  intro us hus
  induction as with
  | nil => contradiction
  | cons a as ih =>
    obtain ⟨first, others⟩ := List.forall_mem_cons.mp h
    cases as with
    | nil => simpa [Expr.joined] using Separated.single (first us hus)
    | cons b as =>
      have next := ih others (by simp)
      rw [Expr.joined] at next ⊢
      simp only [List.map_cons, List.intercalate_cons_cons, List.append_assoc,
        List.cons_append, List.nil_append] at next ⊢
      exact .more (first _ (by simpa using apart)) next

theorem Derives.enclosed {f : α → β} {g : α → List Token} {L : Phrase β} {as : List α}
    (h : ∀ a ∈ as, Derives L (g a) (f a)) (apart : closing ≠ .leftParen) (us : List Token) :
    Enclosed closing L (Expr.joined .comma (as.map g) ++ .symbol closing :: us) (as.map f) us := by
  cases as with
  | nil => exact .empty
  | cons a as =>
    exact .items (Derives.joined h (by simp) (by decide) _ (by simpa using apart))

section

variable {U E : Phrase Expr}

theorem Disjunction.of_unary (h : U ts e us) : Disjunction U ts e us :=
  .operand (.operand (.operand (.operand (.operand (.operand (.factor h))))))

/-- Two unary expressions with an operator between them are an operation, whatever its level. -/
theorem Disjunction.of_operation (other : op ≠ .pow) (hl : U ts l (.symbol op.symbol :: us))
    (hr : U us r vs) : Disjunction U ts (.binary op l r 0) vs := by
  have compared {op} (hl : U ts l (.symbol op.symbol :: us))
      (member : (op.symbol, op) ∈ comparisons) : Disjunction U ts (.binary op l r 0) vs :=
    .operand (.operand (.operand (.comparison (.operand (.operand (.factor hl))) member
      (.operand (.operand (.factor hr))))))
  have multiplied {op} (hl : U ts l (.symbol op.symbol :: us))
      (member : (op.symbol, op) ∈ products) : Disjunction U ts (.binary op l r 0) vs :=
    .operand (.operand (.operand (.operand (.operand (.operand
      (.operator (.factor hl) member hr))))))
  have added {op} (hl : U ts l (.symbol op.symbol :: us))
      (member : (op.symbol, op) ∈ sums) : Disjunction U ts (.binary op l r 0) vs :=
    .operand (.operand (.operand (.operand (.operand
      (.operator (.operand (.factor hl)) member (.factor hr))))))
  cases op with
  | pow => contradiction
  | mul | div | mod => exact multiplied hl (by decide)
  | add | sub => exact added hl (by decide)
  | less | greater | lessEqual | greaterEqual | equal | notEqual => exact compared hl (by decide)
  | convert =>
    exact .operand (.operand (.operand (.operand
      (.operator (.operand (.operand (.factor hl))) (by decide) (.operand (.factor hr))))))
  | and =>
    exact .operand (.operand (.operator
      (.operand (.operand (.operand (.operand (.factor hl))))) (by decide)
      (.operand (.operand (.operand (.factor hr))))))
  | xor =>
    exact .operand (.operator
      (.operand (.operand (.operand (.operand (.operand (.factor hl)))))) (by decide)
      (.operand (.operand (.operand (.operand (.factor hr))))))
  | or =>
    exact .operator
      (.operand (.operand (.operand (.operand (.operand (.operand (.factor hl))))))) (by decide)
      (.operand (.operand (.operand (.operand (.operand (.factor hr))))))

end

end Grammar

namespace Expr

def Derivable (e : Expr) : Prop :=
  (Eventually fun m => Derives (layer m).expression e.printed e.skeleton) ∧
  Eventually fun m =>
    Derives (Postfixed (layer m).expression) (enclosed e.isCompound e.printed) e.skeleton

/-- In parentheses every expression is an operand. -/
theorem Derivable.of_compound (compound : e.isCompound = true)
    (h : Eventually fun m => Derives (layer m).expression e.printed e.skeleton) :
    Derivable e := by
  refine ⟨h, h.imp fun m h us hus => ?_⟩
  rw [compound]
  have inner := h (.symbol .rightParen :: us) (by simp)
  simpa [enclosed] using Postfixed.primary (.group inner)

theorem Derivable.of_operation (compound : e.isCompound = true)
    (h : Eventually fun m => Derives (Disjunction (layer m).unary) e.printed e.skeleton) :
    Derivable e := by
  refine .of_compound compound (Eventually.succ ?_)
  obtain ⟨n, h⟩ := h
  exact ⟨n, fun m le us hus => .otherwise (h (m + 1) (by omega) us hus)⟩

theorem Derivable.of_postfixed (simple : e.isCompound = false)
    (h : Eventually fun m => Derives (Postfixed (layer m).expression) e.printed e.skeleton) :
    Derivable e := by
  refine ⟨Eventually.succ (h.imp fun m h us hus => ?_), h.imp fun m h => by rwa [simple]⟩
  exact .otherwise (Disjunction.of_unary (.power (.base (h us hus))))

theorem Derivable.unary (h : Derivable e) :
    Eventually fun m => Derives (layer m).unary (enclosed e.isCompound e.printed) e.skeleton :=
  Eventually.succ (h.2.imp fun _ h us hus => .power (.base (h us hus)))

theorem Derivable.of_sign (member : (s, op) ∈ signs)
    (spelled : ∀ ts, printedUnary op ts = .symbol s :: ts) (h : Derivable e) :
    Derivable (.unary op e o) := by
  refine .of_operation rfl (Eventually.succ (h.unary.imp fun m h us hus => ?_))
  rw [printed, spelled]
  exact Disjunction.of_unary (.sign member (h us hus))

theorem Derivable.of_mark (member : (s, op) ∈ marks)
    (spelled : ∀ ts, printedUnary op ts = ts ++ [.symbol s]) (h : Derivable e) :
    Derivable (.unary op e o) := by
  refine .of_operation rfl (Eventually.succ (h.2.imp fun m h us hus => ?_))
  have apart : ∀ x ∈ marks, Token.symbol x.1 ≠ .symbol .leftParen := by decide
  have operand := h (.symbol s :: us) (by simpa using apart _ member)
  rw [printed, spelled, List.append_assoc]
  exact Disjunction.of_unary (.power (.base (.mark operand member)))

theorem Derivable.of_unary (op : UnaryOperator) (h : Derivable e) :
    Derivable (.unary op e o) := by
  cases op with
  | negate => exact h.of_sign (s := .minus) (by decide) fun _ => rfl
  | plus => exact h.of_sign (s := .plus) (by decide) fun _ => rfl
  | not => exact h.of_sign (s := .not) (by decide) fun _ => rfl
  | factorial => exact h.of_mark (s := .bang) (by decide) fun _ => rfl
  | transpose => exact h.of_mark (s := .apostrophe) (by decide) fun _ => rfl

theorem Derivable.of_binary (op : BinaryOperator) (hl : Derivable l) (hr : Derivable r) :
    Derivable (.binary op l r o) := by
  have apart : Token.symbol op.symbol ≠ .symbol .leftParen := by cases op <;> decide
  by_cases power : op = .pow
  · subst power
    refine .of_operation rfl (Eventually.succ ((hl.2.and hr.unary).imp ?_))
    rintro m ⟨hl, hr⟩ us hus
    have base := hl (.symbol .caret :: (enclosed r.isCompound r.printed ++ us)) (by simp)
    rw [printed, List.append_assoc]
    exact Disjunction.of_unary (.power (.power base (hr us hus)))
  · refine .of_operation rfl ((hl.unary.and hr.unary).imp ?_)
    rintro m ⟨hl, hr⟩ us hus
    have left := hl (.symbol op.symbol :: (enclosed r.isCompound r.printed ++ us))
      (by simpa using apart)
    rw [printed, List.append_assoc]
    exact Disjunction.of_operation power left (hr us hus)

theorem Printable.derivable (h : Printable e) : Derivable e := by
  induction h with
  | @literal v o _ =>
    refine .of_postfixed rfl (.of_forall fun m us hus => .primary ?_)
    cases v with
    | number => exact .number
    | text => exact .text
    | boolean => exact .boolean
  | name => exact .of_postfixed rfl (.of_forall fun m us hus => .primary (.name hus))
  | unary _ ih => exact .of_unary _ ih
  | binary _ _ ihl ihr => exact .of_binary _ ihl ihr
  | call _ _ ih =>
    refine .of_postfixed rfl ((Eventually.all fun a ha => (ih a ha).1).imp fun m h us _ => ?_)
    have arguments : Enclosed .rightParen _ _ _ us := Derives.enclosed h (by decide) us
    simpa [printed, skeleton] using Postfixed.primary (.call arguments)
  | assign _ _ ih =>
    exact .of_compound rfl (Eventually.succ (ih.1.imp fun m h us hus => .assign (h us hus)))
  | @matrix es o _ ih =>
    refine .of_postfixed rfl ((Eventually.all fun e he => (ih e he).1).imp fun m h us _ => ?_)
    cases es with
    | nil => exact .primary .noElements
    | cons e es =>
      have row := Derives.joined (s := .comma) h (by simp) (by decide)
        (.symbol .rightBracket :: us) (by simp)
      simpa [printed, skeleton] using Postfixed.primary (.row row)
  | index _ some_ _ iho ih =>
    refine .of_postfixed rfl ((iho.2.and (Eventually.all fun i hi => (ih i hi).1)).imp ?_)
    rintro m ⟨ho, hi⟩ us _
    have indices := Derives.joined (s := .comma) hi some_ (by decide)
      (.symbol .rightBracket :: us) (by simp)
    have whole := Postfixed.index (ho _ (by simp)) indices
    simpa [printed, skeleton] using whole

/-- The tokens of a statement that was read derive the statement. -/
theorem PrintableStatement.derives (h : PrintableStatement e) :
    Eventually fun m =>
      Derives (Statement (layer m).expression) e.printed e.skeleton := by
  cases h with
  | expression h => exact h.derivable.1.imp fun m h us hus => .expression (h us hus)
  | @define n ps e o _ _ distinct body =>
    refine body.derivable.1.imp fun m h us hus => ?_
    have named : ∀ p ∈ ps, Derives Identifier [.identifier p] (id p) :=
      fun _ _ _ _ => .identifier
    have parameters : Enclosed .rightParen _ _ _ (.symbol .equals :: (e.printed ++ us)) :=
      Derives.enclosed named (by decide) _
    rw [List.map_id] at parameters
    simpa [printed, skeleton] using
      Statement.definition (.define parameters distinct (h us hus))

theorem statements_joined {es : List Expr} {L : Phrase Expr}
    (h : ∀ e ∈ es, Derives L e.printed e.skeleton) :
    Statements L (joined .semicolon (es.map printed)) (es.map skeleton) := by
  induction es with
  | nil => exact .none
  | cons e es ih =>
    obtain ⟨first, others⟩ := List.forall_mem_cons.mp h
    cases es with
    | nil =>
      have only := first [] (by simp)
      rw [List.append_nil] at only
      simpa [joined] using Statements.last only
    | cons e' es =>
      have next := ih others
      rw [joined] at next ⊢
      simp only [List.map_cons, List.intercalate_cons_cons, List.append_assoc,
        List.cons_append, List.nil_append] at next ⊢
      exact .next (first _ (by simp)) (by decide) next

/-- The tokens of a printed program derive the program. -/
theorem program_printed {es : List Expr} (h : ∀ e ∈ es, PrintableStatement e) :
    Eventually fun m =>
      Grammar.Program m (joined .semicolon (es.map printed)) (ofStatements (es.map skeleton)) :=
  (Eventually.all fun e he => (h e he).derives).imp fun _ h => ⟨_, statements_joined h, rfl⟩

end Expr
end Reckon
