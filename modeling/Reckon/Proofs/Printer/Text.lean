import Reckon.Proofs.Printer.Tokens

/-! The text of a printed tree is read as the tokens of the tree. What stands between two tokens
keeps them apart, so nothing is read across them. -/
namespace Reckon

open Lexer

namespace Lexer

/-- The text in front of others adds these tokens, if nothing behind it continues it. -/
def Spells (text : List Char) (ts : List Token) : Prop :=
  ∀ rest us, Loose rest → Lexes rest us [] → Lexes (text ++ rest) (ts ++ us) []

def Firm (text : List Char) (ts : List Token) : Prop :=
  ∀ rest us, Lexes rest us [] → Lexes (text ++ rest) (ts ++ us) []

def Apart (text : List Char) : Prop := ∀ rest, Loose (text ++ rest)

theorem Apart.cons (h : continues c = false) : Apart (c :: cs) := fun _ => Loose.cons h

theorem Lexable.spells (h : Lexable t) : Spells (chars t) [t] :=
  fun rest _ loose next => (h rest loose).append next

theorem Spells.nil : Spells [] [] := fun _ _ _ next => next

theorem Firm.append_spells (first : Firm text ts) (next : Spells text' ts') :
    Spells (text ++ text') (ts ++ ts') := by
  intro rest us loose h
  rw [List.append_assoc, List.append_assoc]
  exact first _ _ (next rest us loose h)

theorem Spells.append_firm (first : Spells text ts) (apart : Apart text')
    (next : Firm text' ts') : Firm (text ++ text') (ts ++ ts') := by
  intro rest us h
  rw [List.append_assoc, List.append_assoc]
  exact first _ _ (apart rest) (next rest us h)

theorem Spells.append (first : Spells text ts) (apart : Apart text') (next : Spells text' ts') :
    Spells (text ++ text') (ts ++ ts') := by
  intro rest us loose h
  rw [List.append_assoc, List.append_assoc]
  exact first _ _ (apart rest) (next rest us loose h)

theorem Firm.append (first : Firm text ts) (next : Firm text' ts') :
    Firm (text ++ text') (ts ++ ts') := by
  intro rest us h
  rw [List.append_assoc, List.append_assoc]
  exact first _ _ (next rest us h)

/-- A space in front of a text changes no token. -/
theorem Firm.space : Firm [' '] [] := by
  intro cs us h
  have passed : ∀ cs us, Lexes cs us [] → Lexes (cs.dropWhile isSpace) us [] := by
    intro cs us h
    cases cs with
    | nil => exact h
    | cons c r =>
      by_cases space : isSpace c = true
      · have piece := lexeme_of_space space r
        cases h with
        | token other => 
          rw [piece] at other
          contradiction
        | skipped same rest =>
          rw [piece] at same
          obtain ⟨rfl, rfl⟩ := Piece.skipped.inj same
          exact rest
      · rwa [List.dropWhile_cons_of_neg space]
  exact .skipped (lexeme_of_space rfl cs) (passed cs us h)

theorem lexable_symbol (s : Symbol) : Lexable (.symbol s) := by
  have spelled : ∃ c r, s.spelling.toList = c :: r ∧
      lexeme c r = .token (.symbol s) (c :: r) [] := by
    cases s <;> exact ⟨_, _, rfl, by decide⟩
  obtain ⟨c, r, hs, piece⟩ := spelled
  exact Lexes.lexable (.token piece .done) _ (List.mem_singleton_self _)

/-- Symbols that are a token by themselves whatever follows. -/
theorem Firm.symbol (s : Symbol) (spelled : s.spelling.toList = text)
    (h : s ∈ [Symbol.minus, .plus, .leftParen, .leftBracket]) : Firm text [.symbol s] := by
  subst spelled
  have alone : ∀ s ∈ [Symbol.minus, .plus, .leftParen, .leftBracket], ∃ c,
      s.spelling.toList = [c] ∧ ∀ r, lexeme c r = .token (.symbol s) [c] r := by
    simp only [List.forall_mem_cons]
    exact ⟨⟨_, rfl, fun _ => rfl⟩, ⟨_, rfl, fun _ => rfl⟩, ⟨_, rfl, fun _ => rfl⟩,
      ⟨_, rfl, fun _ => rfl⟩, by simp⟩
  obtain ⟨c, hc, piece⟩ := alone s h
  intro rest us next
  rw [hc]
  exact .token (piece rest) next

/-- A symbol with a space behind it. -/
theorem Firm.spaced (s : Symbol) (spelled : s.spelling.toList ++ [' '] = text) :
    Firm text [.symbol s] :=
  spelled ▸ (lexable_symbol s).spells.append_firm (.cons (by decide)) .space

theorem Spells.symbol (s : Symbol) (spelled : s.spelling.toList = text) :
    Spells text [.symbol s] :=
  spelled ▸ (lexable_symbol s).spells

end Lexer

namespace Expr

/-- Items that are spelled one by one are spelled with a separator and a space between them. -/
theorem spells_joined {as : List α} {separator : String} {f : α → String} {g : α → List Token}
    (spelled : s.spelling.toList ++ [' '] = separator.toList) (apart : Apart separator.toList)
    (h : ∀ a ∈ as, Spells (f a).toList (g a)) :
    Spells (String.intercalate separator (as.map f)).toList (joined s (as.map g)) := by
  induction as with
  | nil =>
    rw [joined, List.map_nil, List.map_nil, String.intercalate_nil]
    exact .nil
  | cons a as ih =>
    obtain ⟨first, others⟩ := List.forall_mem_cons.mp h
    cases as with
    | nil => simpa [joined] using first
    | cons b as =>
      have next := (Firm.spaced s spelled).append_spells (ih others)
      rw [joined] at next ⊢
      simp only [List.map_cons, String.intercalate_cons_cons, List.intercalate_cons_cons,
        String.toList_append, List.append_assoc] at next ⊢
      exact first.append (fun rest => by simpa using apart _) next

theorem spells_commas {as : List α} {f : α → String} {g : α → List Token}
    (h : ∀ a ∈ as, Spells (f a).toList (g a)) :
    Spells (commas (as.map f)).toList (joined .comma (as.map g)) :=
  spells_joined rfl (.cons (by decide)) h

theorem spells_enclosed {text : String} (compound : Bool) (h : Spells text.toList ts) :
    Spells (enclose compound text).toList (enclosed compound ts) := by
  cases compound with
  | false => exact h
  | true =>
    have inner := h.append (.cons (by decide)) (.symbol .rightParen (rfl : _ = [')']))
    have whole := (Firm.symbol .leftParen (rfl : _ = ['(']) (by simp)).append_spells inner
    simpa [enclose, enclosed] using whole

theorem spells_unary {text : String} (op : UnaryOperator) (h : Spells text.toList ts) :
    Spells (renderUnary op text).toList (printedUnary op ts) := by
  cases op with
  | negate =>
    have whole := (Firm.symbol .minus (rfl : _ = ['-']) (by simp)).append_spells h
    simpa [renderUnary, printedUnary] using whole
  | plus =>
    have whole := (Firm.symbol .plus (rfl : _ = ['+']) (by simp)).append_spells h
    simpa [renderUnary, printedUnary] using whole
  | not =>
    have whole := (Firm.spaced .not (rfl : _ = ['n', 'o', 't', ' '])).append_spells h
    simpa [renderUnary, printedUnary] using whole
  | factorial =>
    have whole := h.append (.cons (by decide)) (.symbol .bang (rfl : _ = ['!']))
    simpa [renderUnary, printedUnary] using whole
  | transpose =>
    have whole := h.append (.cons (by decide)) (.symbol .apostrophe (rfl : _ = ['\'']))
    simpa [renderUnary, printedUnary] using whole

/-- Items between an opening and a closing symbol. -/
theorem spells_list {as : List α} {f : α → String} {g : α → List Token}
    (opening closing : Symbol) (hl : opening.spelling.toList = [l])
    (hr : closing.spelling.toList = [r]) (apart : continues r = false)
    (firm : opening ∈ [Symbol.minus, .plus, .leftParen, .leftBracket])
    (h : ∀ a ∈ as, Spells (f a).toList (g a)) :
    Spells (l :: ((commas (as.map f)).toList ++ [r]))
      (.symbol opening :: (joined .comma (as.map g) ++ [.symbol closing])) :=
  (Firm.symbol opening hl firm).append_spells
    ((spells_commas h).append (.cons apart) (.symbol closing hr))

theorem spells_parentheses {as : List α} {f : α → String} {g : α → List Token}
    (h : ∀ a ∈ as, Spells (f a).toList (g a)) :
    Spells ('(' :: ((commas (as.map f)).toList ++ [')']))
      (.symbol .leftParen :: (joined .comma (as.map g) ++ [.symbol .rightParen])) :=
  spells_list .leftParen .rightParen rfl rfl (by decide) (by simp) h

theorem spells_brackets {as : List α} {f : α → String} {g : α → List Token}
    (h : ∀ a ∈ as, Spells (f a).toList (g a)) :
    Spells ('[' :: ((commas (as.map f)).toList ++ [']']))
      (.symbol .leftBracket :: (joined .comma (as.map g) ++ [.symbol .rightBracket])) :=
  spells_list .leftBracket .rightBracket rfl rfl (by decide) (by simp) h

theorem Printable.spells (h : Printable e) : Spells e.render.toList e.printed := by
  induction h with
  | @literal v o lexable =>
    have same : (render (.literal v o)).toList = chars v.token := by
      cases v <;> simp [render, Literal.render, Literal.token, chars]
    rw [same]
    exact lexable.spells
  | name lexable => exact lexable.spells
  | unary _ ih => exact spells_unary _ (spells_enclosed _ ih)
  | @binary l r op o _ _ ihl ihr =>
    have right := (Firm.space.append (Firm.spaced op.symbol rfl)).append_spells
      (spells_enclosed r.isCompound ihr)
    have whole := (spells_enclosed l.isCompound ihl).append (.cons (by decide)) right
    simpa [render, printed, BinaryOperator.spelling_symbol] using whole
  | call lexable _ ih =>
    have whole := lexable.spells.append (.cons (by decide)) (spells_parentheses ih)
    simpa [render, printed, chars] using whole
  | assign lexable _ ih =>
    have behind := (Firm.space.append (Firm.spaced .equals (rfl : _ = ['=', ' ']))).append_spells ih
    have whole := lexable.spells.append (.cons (by decide)) behind
    simpa [render, printed, chars] using whole
  | matrix _ ih =>
    simpa [render, printed] using spells_brackets ih
  | @index e is o _ _ _ iho ih =>
    have whole := (spells_enclosed e.isCompound iho).append (.cons (by decide))
      (spells_brackets ih)
    simpa [render, printed] using whole

theorem PrintableStatement.spells (h : PrintableStatement e) :
    Spells e.render.toList e.printed := by
  cases h with
  | expression h => exact h.spells
  | define lexable parameters _ body =>
    have listed := spells_parentheses (f := id) fun p hp => (parameters p hp).spells
    have equals := Firm.space.append (Firm.spaced .equals (rfl : _ = ['=', ' ']))
    have behind := listed.append (.cons (by decide)) (equals.append_spells body.spells)
    have whole := lexable.spells.append (.cons (by decide)) behind
    simpa [render, printed, chars] using whole

end Expr
end Reckon
