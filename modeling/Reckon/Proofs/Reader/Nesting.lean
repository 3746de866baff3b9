import Reckon.Proofs.Reader.Outcome

/-! The depth of nesting while a reader runs. Readers go deeper in one place only, which asks for
the limit first, and all others run their parts at the depth that they were started at. So the
recursion needs no more rounds than there are levels of nesting, whatever would come behind them. -/
namespace Reckon.Parse

def AgreeAt (k : Nat) (p q : Parse α) : Prop :=
  ∀ c : Cursor, c.depth = k → run q c = run p c ∧ (run p c).2.depth = k

/-- A reader that gives way to an alarm where the nesting is past the limit. -/
def watch (alarm p : Parse α) : Parse α := fun c => if c.depth ≤ maxNesting then p c else alarm c

/-- The readers after so many rounds of recursion, behind which there are alarms in their place.
Each round watches the depth, too. -/
def watched (alarm : Level) : (rounds : Nat) → Level
  | 0 => alarm
  | rounds + 1 =>
    let inner := watched alarm rounds
    let unary := nested (watch alarm.unary (signed inner.unary inner.expression))
    ⟨unary, assignment (nested (watch alarm.expression inner.expression)) (disjunction unary)⟩

section

variable {k : Nat} {α β : Type} {p q : Parse α} {f g : α → Parse β}

namespace AgreeAt

theorem same (kept : ∀ c, (run p c).2.depth = c.depth) : AgreeAt k p p :=
  fun c depth => ⟨rfl, (kept c).trans depth⟩

theorem of_reads {Q : List Located → α → Prop} (reads : ∀ ts, Reads ts p Q) : AgreeAt k p p := by
  refine same fun c => ?_
  obtain ⟨us, past, -⟩ := reads c.rest c (List.Subset.refl _)
  exact past.depth

theorem pure (a : α) : AgreeAt k (Pure.pure a) (Pure.pure a) := same fun _ => rfl

theorem missing (e : Expected) : AgreeAt k (missing e : Parse α) (missing e) := same fun _ => rfl

theorem bind (first : AgreeAt k p q) (next : ∀ a, AgreeAt k (f a) (g a)) :
    AgreeAt k (p >>= f) (q >>= g) := by
  intro c depth
  obtain ⟨alike, kept⟩ := first c depth
  rw [run_bind, run_bind, alike]
  generalize run p c = r at kept ⊢
  rcases r with ⟨_ | a, d⟩
  · exact ⟨rfl, kept⟩
  · exact next a d kept

theorem offset : AgreeAt k offset offset := same fun _ => rfl

theorem peek : AgreeAt k peek peek := same fun _ => rfl

theorem advance : AgreeAt k advance advance := same fun _ => rfl

theorem ahead : AgreeAt k ahead ahead := same fun _ => rfl

theorem accept (s : Symbol) : AgreeAt k (accept s) (accept s) := by
  have run_accept (c : Cursor) : run (Parse.accept s) c =
      if c.peek = some (.symbol s) then (.ok true, c.advance) else (.ok false, c) := rfl
  refine same fun c => ?_
  rw [run_accept]
  split <;> rfl

theorem ite {p' q' : Parse α} {b : Prop} [Decidable b] (yes : AgreeAt k p q)
    (no : AgreeAt k p' q') : AgreeAt k (if b then p else p') (if b then q else q') := by
  split
  · exact yes
  · exact no

theorem expect (s : Symbol) : AgreeAt k (expect s) (expect s) :=
  (accept s).bind fun _ => .ite (.pure _) (.missing _)

end AgreeAt

end

section Readers

variable {k : Nat} {α : Type}

theorem agree_commaItems {item item' : Parse α} (agree : AgreeAt k item item') (closing : Symbol)
    (turns : List Located) :
    AgreeAt k (commaItems item closing turns) (commaItems item' closing turns) := by
  induction turns with
  | nil => exact .missing _
  | cons t turns ih =>
    refine (AgreeAt.accept .comma).bind fun _ => .ite ?_ ?_
    · exact agree.bind fun next => ih.bind fun others => .pure _
    · exact (AgreeAt.accept closing).bind fun _ => .ite (.pure _) (.missing _)

theorem agree_commaSeparated {item item' : Parse α} (agree : AgreeAt k item item')
    (closing : Symbol) : AgreeAt k (commaSeparated item closing) (commaSeparated item' closing) :=
  (AgreeAt.accept closing).bind fun _ => .ite (.pure _) <| agree.bind fun _ =>
    AgreeAt.ahead.bind fun turns => (agree_commaItems agree closing turns).bind fun _ => .pure _

variable {unary unary' expression expression' : Parse Expr}

section

variable (agree : AgreeAt k expression expression')

include agree

theorem agree_rowElements (turns : List Located) :
    AgreeAt k (rowElements expression turns) (rowElements expression' turns) := by
  induction turns with
  | nil => exact .missing _
  | cons t turns ih =>
    refine (AgreeAt.accept .comma).bind fun _ => .ite ?_ ?_
    · exact agree.bind fun next => ih.bind fun row => .pure _
    · refine (AgreeAt.accept .semicolon).bind fun _ => .ite (.pure _) ?_
      exact (AgreeAt.accept .rightBracket).bind fun _ => .ite (.pure _) (.missing _)

theorem agree_matrixRow : AgreeAt k (matrixRow expression) (matrixRow expression') :=
  AgreeAt.offset.bind fun _ => agree.bind fun _ => AgreeAt.ahead.bind fun turns =>
    (agree_rowElements agree turns).bind fun _ => .pure _

theorem agree_matrixRows (turns : List Located) :
    AgreeAt k (matrixRows expression turns) (matrixRows expression' turns) := by
  induction turns with
  | nil => exact (agree_matrixRow agree).bind fun row => .pure _
  | cons t turns ih =>
    exact (agree_matrixRow agree).bind fun row => .ite (ih.bind fun rows => .pure _) (.pure _)

theorem agree_matrix : AgreeAt k (matrix expression) (matrix expression') := by
  refine AgreeAt.offset.bind fun o => (AgreeAt.expect .leftBracket).bind fun _ =>
    (AgreeAt.accept .rightBracket).bind fun _ => .ite (.pure _) ?_
  refine AgreeAt.ahead.bind fun turns => (agree_matrixRows agree turns).bind fun rows => ?_
  split <;> exact .pure _

theorem agree_primary : AgreeAt k (primary expression) (primary expression') := by
  refine AgreeAt.offset.bind fun o => AgreeAt.peek.bind fun t => ?_
  split
  · exact AgreeAt.advance.bind fun _ => .pure _
  · exact AgreeAt.advance.bind fun _ => .pure _
  · exact AgreeAt.advance.bind fun _ => .pure _
  · refine AgreeAt.advance.bind fun _ => (AgreeAt.accept .leftParen).bind fun _ => .ite ?_ (.pure _)
    exact (agree_commaSeparated agree .rightParen).bind fun _ => .pure _
  · exact AgreeAt.advance.bind fun _ => agree.bind fun _ =>
      (AgreeAt.expect .rightParen).bind fun _ => .pure _
  · exact agree_matrix agree
  · exact .missing _

theorem agree_indices : AgreeAt k (indices expression) (indices expression') :=
  AgreeAt.peek.bind fun _ => .ite (.missing _) (agree_commaSeparated agree .rightBracket)

theorem agree_postfixes (turns : List Located) (operand : Expr) :
    AgreeAt k (postfixes expression turns operand) (postfixes expression' turns operand) := by
  induction turns generalizing operand with
  | nil => exact .pure _
  | cons t turns ih =>
    refine AgreeAt.offset.bind fun o => AgreeAt.peek.bind fun t => ?_
    split
    · exact AgreeAt.advance.bind fun _ => ih _
    · exact AgreeAt.advance.bind fun _ => ih _
    · exact AgreeAt.advance.bind fun _ => (agree_indices agree).bind fun is => ih _
    · exact .pure _

theorem agree_postfixed : AgreeAt k (postfixed expression) (postfixed expression') :=
  (agree_primary agree).bind fun operand => AgreeAt.ahead.bind fun turns =>
    agree_postfixes agree turns operand

variable (agree_ : AgreeAt k unary unary')

include agree_

theorem agree_power : AgreeAt k (power unary expression) (power unary' expression') :=
  (agree_postfixed agree).bind fun _ => AgreeAt.offset.bind fun _ =>
    (AgreeAt.accept .caret).bind fun _ => .ite (agree_.bind fun _ => .pure _) (.pure _)

theorem agree_signed : AgreeAt k (signed unary expression) (signed unary' expression') := by
  refine AgreeAt.peek.bind fun t => ?_
  split
  · exact AgreeAt.offset.bind fun _ => AgreeAt.advance.bind fun _ => agree_.bind fun _ => .pure _
  · exact agree_power agree agree_

end

section

variable (agree : AgreeAt k unary unary')

theorem agree_peekOperator : AgreeAt k peekOperator peekOperator :=
  AgreeAt.peek.bind fun _ => .pure _

theorem agree_peekComparison : AgreeAt k peekComparison peekComparison :=
  agree_peekOperator.bind fun _ => .pure _

include agree

theorem agree_factors (turns : List Located) (left : Expr) :
    AgreeAt k (factors unary turns left) (factors unary' turns left) := by
  induction turns generalizing left with
  | nil => exact .pure _
  | cons t turns ih =>
    refine AgreeAt.offset.bind fun o => AgreeAt.peek.bind fun token => ?_
    split
    · refine .ite (agree.bind fun right => ih _) ?_
      split
      · exact .ite (AgreeAt.advance.bind fun _ => agree.bind fun right => ih _) (.pure _)
      · exact .pure _
    · exact .pure _

theorem agree_product : AgreeAt k (product unary) (product unary') :=
  agree.bind fun left => AgreeAt.ahead.bind fun turns => agree_factors agree turns left

theorem agree_chain (level : List BinaryOperator) (turns : List Located) (left : Expr) :
    AgreeAt k (chain unary level turns left) (chain unary' level turns left) := by
  induction turns generalizing left with
  | nil => exact .pure _
  | cons t turns ih =>
    refine agree_peekOperator.bind fun op => ?_
    split
    · exact .ite (AgreeAt.offset.bind fun o => AgreeAt.advance.bind fun _ =>
        agree.bind fun right => ih _) (.pure _)
    · exact .pure _

theorem agree_leftAssociative (level : List BinaryOperator) :
    AgreeAt k (leftAssociative unary level) (leftAssociative unary' level) :=
  agree.bind fun left => AgreeAt.ahead.bind fun turns => agree_chain agree level turns left

theorem agree_sum : AgreeAt k (sum unary) (sum unary') :=
  agree_leftAssociative (agree_product agree) _

theorem agree_conversion : AgreeAt k (conversion unary) (conversion unary') :=
  agree_leftAssociative (agree_sum agree) _

theorem agree_comparison : AgreeAt k (comparison unary) (comparison unary') := by
  refine (agree_conversion agree).bind fun left => agree_peekComparison.bind fun op => ?_
  split
  · refine AgreeAt.offset.bind fun o => AgreeAt.advance.bind fun _ =>
      (agree_conversion agree).bind fun right => agree_peekComparison.bind fun _ =>
        .ite ?_ (.pure _)
    exact AgreeAt.offset.bind fun _ => .same fun _ => rfl
  · exact .pure _

theorem agree_conjunction : AgreeAt k (conjunction unary) (conjunction unary') :=
  agree_leftAssociative (agree_comparison agree) _

theorem agree_exclusion : AgreeAt k (exclusion unary) (exclusion unary') :=
  agree_leftAssociative (agree_conjunction agree) _

theorem agree_disjunction : AgreeAt k (disjunction unary) (disjunction unary') :=
  agree_leftAssociative (agree_exclusion agree) _

end

theorem agree_assignment {value value' otherwise otherwise' : Parse Expr}
    (agree : AgreeAt k value value') (other : AgreeAt k otherwise otherwise') :
    AgreeAt k (assignment value otherwise) (assignment value' otherwise') := by
  intro c depth
  rw [run_assignment, run_assignment]
  split
  · rename_i name o o' rest _
    have assigned : AgreeAt k (do advance; advance; return Expr.assign name (← value) o)
        (do advance; advance; return Expr.assign name (← value') o) :=
      AgreeAt.advance.bind fun _ => AgreeAt.advance.bind fun _ => agree.bind fun _ => .pure _
    exact assigned c depth
  · exact other c depth

/-- One level deeper the readers need only agree if there is one. -/
theorem AgreeAt.nested {p q : Parse α} (inner : k < maxNesting → AgreeAt (k + 1) p q) :
    AgreeAt k (nested p) (nested q) := by
  rintro c rfl
  rw [run_nested, run_nested]
  split
  · rename_i open_
    obtain ⟨alike, kept⟩ := inner open_ { c with depth := c.depth + 1 } rfl
    rw [alike]
    exact ⟨rfl, congrArg (· - 1) kept⟩
  · exact ⟨rfl, rfl⟩

/-- At the limit a reader that nests stops as one that has no room left. -/
theorem AgreeAt.tooDeep (full : maxNesting ≤ k) (p : Parse α) :
    AgreeAt k Parse.tooDeep (Parse.nested p) := by
  rintro c rfl
  rw [run_nested, if_neg (Nat.not_lt.mpr full)]
  exact ⟨rfl, rfl⟩

theorem AgreeAt.watch {p q : Parse α} (agree : AgreeAt k p q) (within : k ≤ maxNesting)
    (alarm : Parse α) : AgreeAt k p (watch alarm q) := by
  rintro c rfl
  have run_watch : run (Parse.watch alarm q) c = run q c := if_pos within
  rw [run_watch]
  exact agree c rfl

/-- With a round for each level that is left, and one more, no alarm is raised. -/
theorem agree_watched (alarm : Level) (rounds k room : Nat) (enough : maxNesting < k + rounds)
    (roomy : maxNesting ≤ k + room) (within : k ≤ maxNesting) :
    AgreeAt k (level room).unary (watched alarm rounds).unary ∧
      AgreeAt k (level room).expression (watched alarm rounds).expression := by
  induction rounds generalizing k room with
  | zero => omega
  | succ rounds ih =>
    cases room with
    | zero =>
      have full : maxNesting ≤ k := roomy
      have unary : AgreeAt k (level 0).unary (watched alarm (rounds + 1)).unary :=
        .tooDeep full (Parse.watch alarm.unary
          (signed (watched alarm rounds).unary (watched alarm rounds).expression))
      exact ⟨unary, agree_assignment (.tooDeep full _) (agree_disjunction unary)⟩
    | succ room =>
      have deeper (open_ : k < maxNesting) := ih (k + 1) room (by omega) (by omega) open_
      have unary : AgreeAt k (level (room + 1)).unary (watched alarm (rounds + 1)).unary :=
        .nested fun open_ => (agree_signed (deeper open_).2 (deeper open_).1).watch open_ _
      exact ⟨unary, agree_assignment (.nested fun open_ => (deeper open_).2.watch open_ _)
        (agree_disjunction unary)⟩

end Readers

end Reckon.Parse
