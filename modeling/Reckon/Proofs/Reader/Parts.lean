import Reckon.Proofs.Reader.Nesting
import Reckon.Proofs.Reader.Turns

/-! The readers of all parts of a program. Each comes back to the depth it was started at and takes
tokens from the front, at least one if it succeeds; nothing that it calls goes past the limit of
nesting, and its loops and its recursion end. -/
namespace Reckon.Parse

def definitionWith (expression : Parse Expr) : Parse Expr := do
  let start ← offset
  let _ ← accept .function
  let name ← identifier
  expect .leftParen
  let names ← parameters name start
  expect .equals
  return .define name names (← expression) start

def statementWith (expression : Parse Expr) : Parse Expr := fun c =>
  if startsDefinition c.rest then definitionWith expression c else expression c

theorem definitionWith_expression : definitionWith Parse.expression = definition := rfl

theorem statementWith_expression : statementWith Parse.expression = statement := rfl

/-- The readers of the parts of a program, from the readers of a level of nesting. -/
inductive Part : {α : Type} → (Level → Parse α) → Prop
  | statement : Part fun l => statementWith l.expression
  | definition : Part fun l => definitionWith l.expression
  | expression : Part fun l => l.expression
  | disjunction : Part fun l => disjunction l.unary
  | exclusion : Part fun l => exclusion l.unary
  | conjunction : Part fun l => conjunction l.unary
  | comparison : Part fun l => comparison l.unary
  | conversion : Part fun l => conversion l.unary
  | sum : Part fun l => sum l.unary
  | product : Part fun l => product l.unary
  | unary : Part fun l => l.unary
  | signed : Part fun l => signed l.unary l.expression
  | power : Part fun l => power l.unary l.expression
  | postfixed : Part fun l => postfixed l.expression
  | primary : Part fun l => primary l.expression
  | matrix : Part fun l => matrix l.expression
  | list (closing : Symbol) : Part fun l => commaSeparated l.expression closing
  | names (closing : Symbol) : Part fun _ => commaSeparated identifier closing
  | name : Part fun _ => identifier

/-- Every loop that the readers of a level are in ends by itself, within a turn for each token
ahead. -/
structure LoopsEnd (l : Level) : Prop where
  operators : ∀ operand ∈ [product l.unary, sum l.unary, comparison l.unary, conjunction l.unary,
    exclusion l.unary], ∀ level left, Halts fun turns => chain operand level turns left
  factors : ∀ left, Halts fun turns => factors l.unary turns left
  postfixes : ∀ operand, Halts fun turns => postfixes l.expression turns operand
  elements : Halts (rowElements l.expression)
  rows : Halts (matrixRows l.expression)
  items : ∀ closing, Halts (commaItems l.expression closing)
  names : ∀ closing, Halts (commaItems identifier closing)
  statements : Halts statements

section

variable {k : Nat} {α : Type} {p : Level → Parse α} {l l' : Level} {ts : List Located}

/-- The list of a definition ends where its names do, whatever is wrong with them. -/
theorem parameters_cursor (name : String) (start : Nat) (c : Cursor) :
    (run (parameters name start) c).2 = (run (commaSeparated identifier .rightParen) c).2 := by
  rw [run_parameters]
  rcases run (commaSeparated identifier .rightParen) c with ⟨m | names, d⟩
  · cases m <;> rfl
  · dsimp only
    split <;> rfl

theorem agree_parameters (name : String) (start : Nat) :
    AgreeAt k (parameters name start) (parameters name start) := by
  refine .same fun c => ?_
  rw [parameters_cursor]
  exact (AgreeAt.of_reads (fun ts => Reads.commaSeparated Reads.identifier .rightParen) c rfl).2

theorem agree_definitionWith {expression expression' : Parse Expr}
    (agree : AgreeAt k expression expression') :
    AgreeAt k (definitionWith expression) (definitionWith expression') :=
  AgreeAt.offset.bind fun start => (AgreeAt.accept .function).bind fun _ =>
    (AgreeAt.of_reads fun _ => Reads.identifier).bind fun name =>
    (AgreeAt.expect .leftParen).bind fun _ => (agree_parameters name start).bind fun _ =>
    (AgreeAt.expect .equals).bind fun _ => agree.bind fun _ => .pure _

theorem agree_statementWith {expression expression' : Parse Expr}
    (agree : AgreeAt k expression expression') :
    AgreeAt k (statementWith expression) (statementWith expression') := by
  have run_statementWith (expression : Parse Expr) (c : Cursor) : run (statementWith expression) c =
      if startsDefinition c.rest then run (definitionWith expression) c else run expression c := by
    change (if startsDefinition c.rest then definitionWith expression c else expression c) = _
    split <;> rfl
  intro c depth
  rw [run_statementWith, run_statementWith]
  split
  · exact agree_definitionWith agree c depth
  · exact agree c depth

/-- A part runs alike where the readers that it is given do. -/
theorem Part.agree (part : Part p) (unary : AgreeAt k l.unary l'.unary)
    (expression : AgreeAt k l.expression l'.expression) : AgreeAt k (p l) (p l') := by
  cases part with
  | statement => exact agree_statementWith expression
  | definition => exact agree_definitionWith expression
  | expression => exact expression
  | disjunction => exact agree_disjunction unary
  | exclusion => exact agree_exclusion unary
  | conjunction => exact agree_conjunction unary
  | comparison => exact agree_comparison unary
  | conversion => exact agree_conversion unary
  | sum => exact agree_sum unary
  | product => exact agree_product unary
  | unary => exact unary
  | signed => exact agree_signed expression unary
  | power => exact agree_power expression unary
  | postfixed => exact agree_postfixed expression
  | primary => exact agree_primary expression
  | matrix => exact agree_matrix expression
  | list closing => exact agree_commaSeparated expression closing
  | names closing => exact .of_reads fun _ => Reads.commaSeparated Reads.identifier closing
  | name => exact .of_reads fun _ => Reads.identifier

/-- A part takes tokens from the front, and at least one if it succeeds. -/
theorem Part.reads (part : Part p) : Reads ts (p (level maxNesting)) fun us _ => us ≠ [] := by
  obtain ⟨unary, expression⟩ : Reads ts (level maxNesting).unary Placed ∧
    Reads ts (level maxNesting).expression Placed := reads_level maxNesting
  have tree {q : Parse Expr} (reads : Reads ts q Placed) : Reads ts q fun us _ => us ≠ [] :=
    fun c => (reads c).mono fun _ _ _ _ placed => placed.1
  have conjunction := reads_leftAssociative (reads_comparison unary) [.and]
  cases part with
  | statement => exact tree reads_statement
  | definition => exact tree reads_definition
  | expression => exact tree expression
  | disjunction => exact tree (reads_disjunction unary)
  | exclusion => exact tree (reads_leftAssociative conjunction _)
  | conjunction => exact tree conjunction
  | comparison => exact tree (reads_comparison unary)
  | conversion => exact tree (reads_conversion unary)
  | sum => exact tree (reads_leftAssociative (reads_product unary) _)
  | product => exact tree (reads_product unary)
  | unary => exact tree unary
  | signed => exact tree (reads_signed expression unary)
  | power => exact tree (reads_power expression unary)
  | postfixed => exact tree (reads_postfixed expression)
  | primary => exact tree (reads_primary expression)
  | matrix => exact tree (reads_matrix expression)
  | list closing =>
    exact fun c => (Reads.commaSeparated expression closing c).mono fun _ _ _ _ items => items.1
  | names closing =>
    exact fun c => (Reads.commaSeparated .identifier closing c).mono fun _ _ _ _ items => items.1
  | name => exact Reads.identifier

theorem Part.takes (part : Part p) : Takes (p (level maxNesting)) :=
  takes_of_reads (fun _ => part.reads) fun _ _ some_ => some_

theorem loopsEnd : LoopsEnd (level maxNesting) where
  operators := by
    intro operand member level left
    refine halts_chain ?_ level left
    simp only [List.mem_cons, List.not_mem_nil, or_false] at member
    rcases member with rfl | rfl | rfl | rfl | rfl
    · exact Part.product.takes
    · exact Part.sum.takes
    · exact Part.comparison.takes
    · exact Part.conjunction.takes
    · exact Part.exclusion.takes
  factors := halts_factors Part.unary.takes
  postfixes := halts_postfixes fun _ => reads_expression
  elements := halts_rowElements Part.expression.takes
  rows := halts_matrixRows fun _ => reads_expression
  items := halts_commaItems Part.expression.takes
  names := halts_commaItems Part.name.takes
  statements := halts_statements

/-- Past some tokens of a list, a cursor is at a later position in it. -/
theorem past_position {tokens us : List Located} {position depth stop : Nat} {d : Cursor}
    (past : Cursor.Past ⟨tokens.drop position, depth, stop⟩ us d) :
    d = ⟨tokens.drop (position + us.length), depth, stop⟩ := by
  obtain ⟨ls, depth', stop'⟩ := d
  obtain ⟨rest, rfl, rfl⟩ := past
  have rest : tokens.drop position = us ++ ls := rest
  rw [← List.drop_drop, rest, List.drop_left]

theorem Part.position (part : Part p) (tokens : List Located) {position : Nat} (depth stop : Nat)
    (inside : position ≤ tokens.length) :
    let outcome := run (p (level maxNesting)) ⟨tokens.drop position, depth, stop⟩
    ∃ after, position ≤ after ∧ after ≤ tokens.length ∧
      outcome.2 = ⟨tokens.drop after, depth, stop⟩ ∧ ∀ a, outcome.1 = .ok a → position < after := by
  intro outcome
  obtain ⟨us, past, post⟩ := part.reads ⟨tokens.drop position, depth, stop⟩ (List.Subset.refl _)
  have rest : tokens.drop position = us ++ outcome.2.rest := past.rest
  have fewer := congrArg List.length rest
  rw [List.length_drop, List.length_append] at fewer
  refine ⟨position + us.length, Nat.le_add_right _ _, by omega, past_position past, ?_⟩
  intro a made
  have made : (run (p (level maxNesting)) ⟨tokens.drop position, depth, stop⟩).1 = .ok a := made
  rw [made] at post
  exact Nat.lt_add_of_pos_right (List.length_pos_iff.mpr post)

/-- The reader of any part of a program, at any position and any depth of nesting. It comes to a
position that is not before its own and not past the end, at the depth it started at, and if it
succeeds it has taken a token. The recursion is over after one round for each level of nesting and
one more, with no reader started past the limit: an alarm in the place of what would be is never
raised. And every loop of the readers ends. -/
theorem Part.behaves (part : Part p) (tokens : List Located) (position depth stop : Nat)
    (inside : position ≤ tokens.length) (shallow : depth ≤ maxNesting) :
    let c : Cursor := ⟨tokens.drop position, depth, stop⟩
    let outcome := run (p (level maxNesting)) c
    (∃ after, position ≤ after ∧ after ≤ tokens.length ∧
      outcome.2 = ⟨tokens.drop after, depth, stop⟩ ∧ ∀ a, outcome.1 = .ok a → position < after) ∧
    (∀ alarm, run (p (watched alarm (maxNesting + 1))) c = outcome) ∧
    LoopsEnd (level maxNesting) := by
  refine ⟨part.position tokens depth stop inside, fun alarm => ?_, loopsEnd⟩
  obtain ⟨unary, expression⟩ :=
    agree_watched alarm (maxNesting + 1) depth maxNesting (by omega) (by omega) shallow
  exact (part.agree unary expression _ rfl).1

/-- A sign in front of a number with one level of nesting left, and a closing parenthesis at the
limit. -/
theorem sign_behaves :
    let tokens : List Located := [⟨.symbol .minus, 0⟩, ⟨.number "1", 1⟩, ⟨.symbol .rightParen, 2⟩]
    let sign := run (signed (level maxNesting).unary (level maxNesting).expression) ⟨tokens, 63, 3⟩
    let statement := run (statementWith (level maxNesting).expression) ⟨tokens.drop 2, 64, 3⟩
    (0 ≤ tokens.length ∧ 63 ≤ maxNesting ∧ 2 ≤ tokens.length ∧ 64 ≤ maxNesting) ∧
      (∃ after, after ≤ 3 ∧ sign.2 = ⟨tokens.drop after, 63, 3⟩) ∧
      (∃ after, 2 ≤ after ∧ after ≤ 3 ∧ statement.2 = ⟨tokens.drop after, 64, 3⟩) ∧
      ∀ alarm, run (statementWith (watched alarm (maxNesting + 1)).expression)
        ⟨tokens.drop 2, 64, 3⟩ = statement := by
  intro tokens sign statement
  obtain ⟨⟨after, -, high, back, -⟩, -⟩ :=
    Part.behaves .signed tokens 0 63 3 (by decide) (by decide)
  obtain ⟨⟨after', low', high', back', -⟩, quiet, -⟩ :=
    Part.behaves .statement tokens 2 64 3 (by decide) (by decide)
  exact ⟨by decide, ⟨after, high, back⟩, ⟨after', low', high', back'⟩, quiet⟩

end

end Reckon.Parse
