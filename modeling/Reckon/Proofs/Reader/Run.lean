import Reckon.Proofs.Grammar

/-! How readers run: what each primitive reader does to a cursor, and how a sequence of readers
succeeds. -/
namespace Reckon

def Cursor.tokens (c : Cursor) : List Token := c.rest.map Located.token

namespace Cursor

@[simp] theorem peek_eq_head (c : Cursor) : c.peek = c.tokens.head? := by
  simp [peek, tokens]

@[simp] theorem tokens_advance (c : Cursor) : c.advance.tokens = c.tokens.tail := by
  simp [advance, tokens]

@[simp] theorem depth_advance (c : Cursor) : c.advance.depth = c.depth := rfl

@[simp] theorem length_rest (c : Cursor) : c.rest.length = c.tokens.length := by
  simp [tokens]

end Cursor

namespace Parse

open Grammar

def run (p : Parse α) (c : Cursor) : Except Malformed α × Cursor := p c

variable {p : Parse α} {f : α → Parse β} {c d : Cursor}

theorem run_bind (p : Parse α) (f : α → Parse β) (c : Cursor) :
    run (p >>= f) c = match run p c with
      | (.ok a, d) => run (f a) d
      | (.error e, d) => (.error e, d) := by
  change ExceptT.bindCont (m := StateM Cursor) f (run p c).1 (run p c).2 = _
  rcases run p c with ⟨_ | _, d⟩ <;> rfl

theorem run_bind_of_ok (h : run p c = (.ok a, d)) : run (p >>= f) c = run (f a) d := by
  rw [run_bind, h]

theorem run_bind_of_error (h : run p c = (.error e, d)) : run (p >>= f) c = (.error e, d) := by
  rw [run_bind, h]

theorem run_bind_eq_ok :
    run (p >>= f) c = (.ok b, d) ↔ ∃ a m, run p c = (.ok a, m) ∧ run (f a) m = (.ok b, d) := by
  rw [run_bind]
  cases h : run p c with
  | mk r m =>
    cases r with
    | error e => simp
    | ok a =>
      constructor
      · exact fun h => ⟨a, m, rfl, h⟩
      · rintro ⟨a, m, ⟨⟩, h⟩
        exact h

@[simp] theorem run_pure (a : α) (c : Cursor) : run (pure a) c = (.ok a, c) := rfl

@[simp] theorem run_missing (e : Expected) (c : Cursor) :
    run (missing e : Parse α) c = (.error (.missing ⟨e, c.peek, c.offset⟩), c) := rfl

@[simp] theorem run_fail (m : Malformed) (c : Cursor) :
    run (fail m : Parse α) c = (.error m, c) := rfl

@[simp] theorem run_tooDeep (c : Cursor) :
    run (tooDeep : Parse α) c = (.error (.tooDeep c.offset), c) := rfl

@[simp] theorem run_tooDeep_bind (f : α → Parse β) (c : Cursor) :
    run (tooDeep >>= f) c = (.error (.tooDeep c.offset), c) := run_bind_of_error rfl

@[simp] theorem run_offset_bind (f : Nat → Parse β) (c : Cursor) :
    run (offset >>= f) c = run (f c.offset) c := run_bind_of_ok rfl

@[simp] theorem run_peek_bind (f : Option Token → Parse β) (c : Cursor) :
    run (peek >>= f) c = run (f c.tokens.head?) c := by
  rw [← Cursor.peek_eq_head]
  exact run_bind_of_ok rfl

@[simp] theorem run_advance_bind (f : Unit → Parse β) (c : Cursor) :
    run (advance >>= f) c = run (f ()) c.advance := run_bind_of_ok rfl

@[simp] theorem run_ahead_bind (f : List Located → Parse β) (c : Cursor) :
    run (ahead >>= f) c = run (f c.rest) c := run_bind_of_ok rfl

@[simp] theorem run_accept_bind (s : Symbol) (f : Bool → Parse β) (c : Cursor) :
    run (accept s >>= f) c =
      if c.tokens.head? = some (.symbol s) then run (f true) c.advance else run (f false) c := by
  have accept_run : run (accept s) c =
      if c.peek = some (.symbol s) then (.ok true, c.advance) else (.ok false, c) := rfl
  rw [run_bind, accept_run, Cursor.peek_eq_head]
  by_cases h : c.tokens.head? = some (.symbol s)
  · simp only [if_pos h]
  · simp only [if_neg h]

@[simp] theorem run_expect_bind (s : Symbol) (f : Unit → Parse β) (c : Cursor) :
    run (expect s >>= f) c =
      if c.tokens.head? = some (.symbol s) then run (f ()) c.advance
      else (.error (.missing ⟨.symbol s, c.peek, c.offset⟩), c) := by
  simp only [expect, bind_assoc, run_accept_bind]
  split
  · simp only [reduceIte, pure_bind]
  · simp only [Bool.false_eq_true, reduceIte, run_bind, run_missing]

@[simp] theorem run_peekOperator_bind (f : Option BinaryOperator → Parse β) (c : Cursor) :
    run (peekOperator >>= f) c = run (f (c.tokens.head?.bind Token.binaryOperator?)) c := by
  simp only [peekOperator, bind_assoc, run_peek_bind, pure_bind]

@[simp] theorem run_peekComparison_bind (f : Option BinaryOperator → Parse β) (c : Cursor) :
    run (peekComparison >>= f) c = run (f
      ((c.tokens.head?.bind Token.binaryOperator?).filter BinaryOperator.isComparison)) c := by
  simp only [peekComparison, bind_assoc, run_peekOperator_bind, pure_bind]

theorem run_nested (p : Parse α) (c : Cursor) :
    run (nested p) c =
      if c.depth < maxNesting then
        let after := run p { c with depth := c.depth + 1 }
        (after.1, { after.2 with depth := after.2.depth - 1 })
      else (.error (.tooDeep c.offset), c) := rfl

theorem run_assignment (value otherwise : Parse Expr) (c : Cursor) :
    run (assignment value otherwise) c =
      match c.rest with
      | ⟨.identifier name, offset⟩ :: ⟨.symbol .equals, _⟩ :: _ =>
        run (do
          advance
          advance
          return .assign name (← value) offset) c
      | _ => run otherwise c := rfl

theorem run_identifier_bind (f : String → Parse β) (c : Cursor) :
    run (identifier >>= f) c =
      match c.tokens.head? with
      | some (.identifier name) => run (f name) c.advance
      | _ => (.error (.missing ⟨.identifier, c.peek, c.offset⟩), c) := by
  have absent : run (missing .identifier >>= f) c =
      (.error (.missing ⟨.identifier, c.peek, c.offset⟩), c) := by
    simp only [run_bind, run_missing]
  simp only [identifier, bind_assoc, run_peek_bind]
  cases c.tokens.head? with
  | none => exact absent
  | some t =>
    cases t with
    | identifier name => simp only [bind_assoc, run_advance_bind, pure_bind]
    | _ => exact absent

theorem run_parameters (name : String) (start : Nat) (c : Cursor) :
    run (parameters name start) c =
      match run (commaSeparated identifier .rightParen) c with
      | (.error (.missing m), after) => (.error (.definition name (.parameter m) start), after)
      | (.error e, after) => (.error e, after)
      | (.ok names, after) =>
        match firstRepeated [] names with
        | some repeated => (.error (.definition name (.repeated repeated) start), after)
        | none => (.ok names, after) := rfl

def signature (start : Nat) : Parse Expr := do
  let name ← identifier
  expect .leftParen
  let names ← parameters name start
  expect .equals
  return .define name names (← expression) start

theorem run_definition (c : Cursor) :
    run definition c =
      if c.tokens.head? = some (.symbol .function) then run (signature c.offset) c.advance
      else run (signature c.offset) c := by
  simp only [definition, run_offset_bind, run_accept_bind]
  rfl

theorem run_statement (c : Cursor) :
    run statement c = if startsDefinition c.rest then run definition c else run expression c := by
  change (if startsDefinition c.rest then definition c else expression c) = _
  split <;> rfl

theorem isSeparator_iff (l : Located) : isSeparator l = true ↔ l.token ∈ separators := by
  simp [isSeparator, separators]

theorem tokens_dropWhile (ls : List Located) :
    (ls.dropWhile isSeparator).map Located.token =
      (ls.map Located.token).dropWhile (· ∈ separators) := by
  rw [List.dropWhile_map]
  congr 2
  funext l
  rw [Bool.eq_iff_iff]
  simpa using isSeparator_iff l

theorem run_endOfStatement (c : Cursor) : run endOfStatement c =
    match c.rest with
    | [] => (.ok (), c)
    | next :: _ =>
      if isSeparator next then (.ok (), c)
      else (.error (.trailing next.token next.offset), c) := rfl

theorem run_endOfStatement_bind {f : Unit → Parse β}
    (ended : ∀ t ∈ c.tokens.head?, t ∈ separators) :
    run (endOfStatement >>= f) c = run (f ()) c := by
  apply run_bind_of_ok
  rw [run_endOfStatement]
  split
  · rfl
  · rename_i next rest hc
    rw [if_pos ((isSeparator_iff next).mpr (ended _ (by simp [Cursor.tokens, hc])))]

theorem run_endOfStatement_of_not (trailing : ¬∀ t ∈ c.tokens.head?, t ∈ separators) :
    ∃ m, run endOfStatement c = (.error m, c) := by
  rw [run_endOfStatement]
  split
  · rename_i hc
    simp [Cursor.tokens, hc] at trailing
  · rename_i next rest hc
    have other : ¬isSeparator next = true := by
      rw [isSeparator_iff]
      simpa [Cursor.tokens, hc] using trailing
    exact ⟨_, if_neg other⟩

@[simp] theorem run_skipSeparators_bind (f : Unit → Parse β) (c : Cursor) :
    run (skipSeparators >>= f) c = run (f ()) { c with rest := c.rest.dropWhile isSeparator } :=
  run_bind_of_ok rfl

end Parse
end Reckon
