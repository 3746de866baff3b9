import Reckon.Proofs.Reader.Run

/-! No reader looks at an offset. When the tokens are moved and keep their order, each reader takes
the same tokens, and its tree or its mistake is the same with every offset moved. -/
namespace Reckon

def Located.relocate (f : Nat → Nat) (l : Located) : Located := ⟨l.token, f l.offset⟩

namespace Expr

mutual

def relocate (f : Nat → Nat) : Expr → Expr
  | literal value o => literal value (f o)
  | name n o => name n (f o)
  | unary op operand o => unary op (operand.relocate f) (f o)
  | binary op left right o => binary op (left.relocate f) (right.relocate f) (f o)
  | call callee arguments o => call callee (relocateAll f arguments) (f o)
  | define n parameters body o => define n parameters (body.relocate f) (f o)
  | assign n value o => assign n (value.relocate f) (f o)
  | block statements o => block (relocateAll f statements) (f o)
  | matrix elements o => matrix (relocateAll f elements) (f o)
  | index object indices o => index (object.relocate f) (relocateAll f indices) (f o)

def relocateAll (f : Nat → Nat) : List Expr → List Expr
  | [] => []
  | e :: es => e.relocate f :: relocateAll f es

end

@[simp] theorem relocateAll_eq_map (f : Nat → Nat) (es : List Expr) :
    relocateAll f es = es.map (relocate f) := by
  induction es with
  | nil => rfl
  | cons e es ih => simp [relocateAll, ih]

mutual

/-- Only offsets change. -/
theorem skeleton_relocate (f : Nat → Nat) : (e : Expr) → (e.relocate f).skeleton = e.skeleton
  | literal .. => rfl
  | name .. => rfl
  | unary _ e _ => by rw [relocate, skeleton, skeleton_relocate f e, skeleton]
  | binary _ l r _ => by
    rw [relocate, skeleton, skeleton_relocate f l, skeleton_relocate f r, skeleton]
  | call _ as _ => by rw [relocate, skeleton, skeletons_relocateAll f as, skeleton]
  | define _ _ b _ => by rw [relocate, skeleton, skeleton_relocate f b, skeleton]
  | assign _ v _ => by rw [relocate, skeleton, skeleton_relocate f v, skeleton]
  | block es _ => by rw [relocate, skeleton, skeletons_relocateAll f es, skeleton]
  | matrix es _ => by rw [relocate, skeleton, skeletons_relocateAll f es, skeleton]
  | index e is _ => by
    rw [relocate, skeleton, skeleton_relocate f e, skeletons_relocateAll f is, skeleton]

theorem skeletons_relocateAll (f : Nat → Nat) :
    (es : List Expr) → skeletons (relocateAll f es) = skeletons es
  | [] => rfl
  | e :: es => by
    rw [relocateAll, skeletons, skeleton_relocate f e, skeletons_relocateAll f es, skeletons]

end

end Expr

def Missing.relocate (f : Nat → Nat) (m : Missing) : Missing := { m with offset := f m.offset }

def Defect.relocate (f : Nat → Nat) : Defect → Defect
  | parameter m => parameter (m.relocate f)
  | repeated name => repeated name

def Malformed.relocate (f : Nat → Nat) : Malformed → Malformed
  | missing m => missing (m.relocate f)
  | trailing found o => trailing found (f o)
  | chainedComparison o => chainedComparison (f o)
  | definition name defect o => definition name (defect.relocate f) (f o)
  | tooDeep o => tooDeep (f o)

namespace Cursor

def relocate (f : Nat → Nat) (c : Cursor) : Cursor :=
  ⟨c.rest.map (Located.relocate f), c.depth, f c.stop⟩

@[simp] theorem tokens_relocate (f : Nat → Nat) (c : Cursor) : (c.relocate f).tokens = c.tokens := by
  simp [tokens, relocate, Function.comp_def, Located.relocate]

theorem peek_relocate (f : Nat → Nat) (c : Cursor) : (c.relocate f).peek = c.peek := by
  simp

theorem offset_relocate (f : Nat → Nat) (c : Cursor) : (c.relocate f).offset = f c.offset := by
  rcases c with ⟨_ | _, _, _⟩ <;> rfl

theorem advance_relocate (f : Nat → Nat) (c : Cursor) :
    (c.relocate f).advance = c.advance.relocate f := by
  simp [advance, relocate]

end Cursor

namespace Parse

def moved (f : Nat → Nat) (g : α → β) (r : Except Malformed α × Cursor) : Except Malformed β × Cursor :=
  ((r.1.map g).mapError (Malformed.relocate f), r.2.relocate f)

theorem moved_ok (f : Nat → Nat) (g : α → β) (a : α) (c : Cursor) :
    moved f g (.ok a, c) = (.ok (g a), c.relocate f) := rfl

/-- `q` does on moved tokens what `p` does on them in their place, with its result moved. -/
def Moves (f : Nat → Nat) (g : α → β) (p : Parse α) (q : Parse β) : Prop :=
  ∀ c, run q (c.relocate f) = moved f g (run p c)

section

variable {f : Nat → Nat} {α β γ δ : Type}

theorem Moves.pure {g : α → β} (h : g a = b) : Moves f g (Pure.pure a) (Pure.pure b) :=
  h ▸ fun _ => rfl

theorem Moves.bind {g : α → β} {h : γ → δ} {p : Parse α} {q : Parse β} {k : α → Parse γ}
    {l : β → Parse δ} (first : Moves f g p q) (next : ∀ a, Moves f h (k a) (l (g a))) :
    Moves f h (p >>= k) (q >>= l) := by
  intro c
  rw [run_bind, run_bind, first c]
  rcases run p c with ⟨_ | a, d⟩
  · rfl
  · exact next a d

theorem Moves.missing (g : α → β) (e : Expected) :
    Moves f g (missing e : Parse α) (missing e : Parse β) := by
  intro c
  rw [run_missing, run_missing, Cursor.peek_relocate, Cursor.offset_relocate]
  rfl

theorem Moves.tooDeep (g : α → β) : Moves f g (tooDeep : Parse α) (tooDeep : Parse β) := by
  intro c
  rw [run_tooDeep, run_tooDeep, Cursor.offset_relocate]
  rfl

theorem moves_offset : Moves f f offset offset := by
  intro c
  change (Except.ok _, c.relocate f) = _
  rw [Cursor.offset_relocate]
  rfl

theorem moves_peek : Moves f id peek peek := by
  intro c
  change (Except.ok _, c.relocate f) = _
  rw [Cursor.peek_relocate]
  rfl

theorem moves_advance : Moves f id advance advance := by
  intro c
  change (Except.ok (), (c.relocate f).advance) = _
  rw [Cursor.advance_relocate]
  rfl

theorem moves_ahead : Moves f (List.map (Located.relocate f)) ahead ahead := fun _ => rfl

theorem moves_accept (s : Symbol) : Moves f id (accept s) (accept s) := by
  intro c
  have accepted (c : Cursor) : run (accept s) c =
      if c.peek = some (.symbol s) then (.ok true, c.advance) else (.ok false, c) := rfl
  rw [accepted, accepted, Cursor.peek_relocate, Cursor.advance_relocate]
  split <;> rfl

theorem Moves.ite {g : α → β} {p p' : Parse α} {q q' : Parse β} {b : Prop} [Decidable b]
    (yes : Moves f g p q) (no : Moves f g p' q') :
    Moves f g (if b then p else p') (if b then q else q') := by
  split
  · exact yes
  · exact no

theorem moves_expect (s : Symbol) : Moves f id (expect s) (expect s) :=
  (moves_accept s).bind fun _ => .ite (.pure rfl) (.missing id _)

theorem moves_identifier : Moves f id identifier identifier := by
  refine moves_peek.bind fun t => ?_
  dsimp only [id]
  split
  · exact moves_advance.bind fun _ => .pure rfl
  · exact .missing id _

section Lists

variable {g : α → β} {item : Parse α} {item' : Parse β} (moves : Moves f g item item')

include moves

theorem moves_commaItems (closing : Symbol) (turns : List Located) :
    Moves f (List.map g) (commaItems item closing turns)
      (commaItems item' closing (turns.map (Located.relocate f))) := by
  induction turns with
  | nil => exact .missing _ _
  | cons t turns ih =>
    refine (moves_accept .comma).bind fun _ => .ite ?_ ?_
    · exact moves.bind fun a => ih.bind fun as => .pure rfl
    · exact (moves_accept closing).bind fun _ => .ite (.pure rfl) (.missing _ _)

theorem moves_commaSeparated (closing : Symbol) :
    Moves f (List.map g) (commaSeparated item closing) (commaSeparated item' closing) := by
  refine (moves_accept closing).bind fun _ => .ite (.pure rfl) ?_
  exact moves.bind fun a => moves_ahead.bind fun turns =>
    (moves_commaItems moves closing turns).bind fun as => .pure rfl

end Lists

end

section Readers

variable {f : Nat → Nat} {unary unary' expression expression' : Parse Expr}

section

variable (moves : Moves f (Expr.relocate f) expression expression')

include moves

theorem moves_rowElements (turns : List Located) :
    Moves f (Prod.map (List.map (Expr.relocate f)) id) (rowElements expression turns)
      (rowElements expression' (turns.map (Located.relocate f))) := by
  induction turns with
  | nil => exact .missing _ _
  | cons t turns ih =>
    refine (moves_accept .comma).bind fun _ => .ite ?_ ?_
    · exact moves.bind fun e => ih.bind fun row => .pure rfl
    · refine (moves_accept .semicolon).bind fun _ => .ite (.pure rfl) ?_
      exact (moves_accept .rightBracket).bind fun _ => .ite (.pure rfl) (.missing _ _)

theorem moves_matrixRow :
    Moves f (Prod.map (Prod.map (List.map (Expr.relocate f)) f) id) (matrixRow expression)
      (matrixRow expression') :=
  moves_offset.bind fun _ => moves.bind fun _ => moves_ahead.bind fun turns =>
    (moves_rowElements moves turns).bind fun _ => .pure rfl

theorem moves_matrixRows (turns : List Located) :
    Moves f (List.map (Prod.map (List.map (Expr.relocate f)) f)) (matrixRows expression turns)
      (matrixRows expression' (turns.map (Located.relocate f))) := by
  induction turns with
  | nil => exact (moves_matrixRow moves).bind fun row => .pure rfl
  | cons t turns ih =>
    refine (moves_matrixRow moves).bind fun row => .ite ?_ (.pure rfl)
    exact ih.bind fun rows => .pure rfl

theorem moves_matrix : Moves f (Expr.relocate f) (matrix expression) (matrix expression') := by
  refine moves_offset.bind fun o => (moves_expect .leftBracket).bind fun _ =>
    (moves_accept .rightBracket).bind fun _ => .ite (.pure rfl) ?_
  refine moves_ahead.bind fun turns => (moves_matrixRows moves turns).bind fun rows => ?_
  rcases rows with _ | ⟨⟨es, o'⟩, _ | ⟨row, rows⟩⟩ <;>
    exact .pure (by simp [Expr.relocate, Function.comp_def])

theorem moves_primary : Moves f (Expr.relocate f) (primary expression) (primary expression') := by
  refine moves_offset.bind fun o => moves_peek.bind fun t => ?_
  dsimp only [id]
  split
  · exact moves_advance.bind fun _ => .pure rfl
  · exact moves_advance.bind fun _ => .pure rfl
  · exact moves_advance.bind fun _ => .pure rfl
  · refine moves_advance.bind fun _ => (moves_accept .leftParen).bind fun _ => .ite ?_ ?_
    · exact (moves_commaSeparated moves .rightParen).bind fun as =>
        .pure (by rw [Expr.relocate, Expr.relocateAll_eq_map])
    · exact .pure rfl
  · exact moves_advance.bind fun _ => moves.bind fun e => (moves_expect .rightParen).bind fun _ =>
      .pure rfl
  · exact moves_matrix moves
  · exact .missing _ _

theorem moves_indices :
    Moves f (List.map (Expr.relocate f)) (indices expression) (indices expression') :=
  moves_peek.bind fun _ => .ite (.missing _ _) (moves_commaSeparated moves .rightBracket)

theorem moves_postfixes (turns : List Located) (e : Expr) :
    Moves f (Expr.relocate f) (postfixes expression turns e)
      (postfixes expression' (turns.map (Located.relocate f)) (e.relocate f)) := by
  induction turns generalizing e with
  | nil => exact .pure rfl
  | cons t turns ih =>
    refine moves_offset.bind fun o => moves_peek.bind fun t => ?_
    dsimp only [id]
    split
    · exact moves_advance.bind fun _ => ih (.unary .factorial e o)
    · exact moves_advance.bind fun _ => ih (.unary .transpose e o)
    · refine moves_advance.bind fun _ => (moves_indices moves).bind fun is => ?_
      have next := ih (.index e is o)
      rwa [Expr.relocate, Expr.relocateAll_eq_map] at next
    · exact .pure rfl

theorem moves_postfixed : Moves f (Expr.relocate f) (postfixed expression) (postfixed expression') :=
  (moves_primary moves).bind fun e => moves_ahead.bind fun turns => moves_postfixes moves turns e

theorem moves_power (moves_ : Moves f (Expr.relocate f) unary unary') :
    Moves f (Expr.relocate f) (power unary expression) (power unary' expression') :=
  (moves_postfixed moves).bind fun _ => moves_offset.bind fun _ =>
    (moves_accept .caret).bind fun _ => .ite (moves_.bind fun _ => .pure rfl) (.pure rfl)

theorem moves_signed (moves_ : Moves f (Expr.relocate f) unary unary') :
    Moves f (Expr.relocate f) (signed unary expression) (signed unary' expression') := by
  refine moves_peek.bind fun t => ?_
  dsimp only [id]
  split
  · rename_i op _
    exact moves_offset.bind fun o => moves_advance.bind fun _ => moves_.bind fun e =>
      .pure rfl
  · exact moves_power moves moves_

end

section

variable (moves : Moves f (Expr.relocate f) unary unary')

include moves

theorem moves_factors (turns : List Located) (l : Expr) :
    Moves f (Expr.relocate f) (factors unary turns l)
      (factors unary' (turns.map (Located.relocate f)) (l.relocate f)) := by
  induction turns generalizing l with
  | nil => exact .pure rfl
  | cons t turns ih =>
    refine moves_offset.bind fun o => moves_peek.bind fun t => ?_
    dsimp only [id]
    split
    · refine .ite (moves.bind fun r => ih (.binary .mul l r o)) ?_
      split
      · rename_i op _
        exact .ite (moves_advance.bind fun _ => moves.bind fun r => ih (.binary op l r o))
          (.pure rfl)
      · exact .pure rfl
    · exact .pure rfl

theorem moves_product : Moves f (Expr.relocate f) (product unary) (product unary') :=
  moves.bind fun l => moves_ahead.bind fun turns => moves_factors moves turns l

omit moves in
theorem moves_peekOperator : Moves f id peekOperator peekOperator :=
  moves_peek.bind fun _ => .pure rfl

omit moves in
theorem moves_peekComparison : Moves f id peekComparison peekComparison :=
  moves_peekOperator.bind fun _ => .pure rfl

theorem moves_chain (level : List BinaryOperator) (turns : List Located) (l : Expr) :
    Moves f (Expr.relocate f) (chain unary level turns l)
      (chain unary' level (turns.map (Located.relocate f)) (l.relocate f)) := by
  induction turns generalizing l with
  | nil => exact .pure rfl
  | cons t turns ih =>
    refine moves_peekOperator.bind fun t => ?_
    dsimp only [id]
    split
    · rename_i op
      exact .ite (moves_offset.bind fun o => moves_advance.bind fun _ => moves.bind fun r =>
        ih (.binary op l r o)) (.pure rfl)
    · exact .pure rfl

theorem moves_leftAssociative (level : List BinaryOperator) :
    Moves f (Expr.relocate f) (leftAssociative unary level) (leftAssociative unary' level) :=
  moves.bind fun l => moves_ahead.bind fun turns => moves_chain moves level turns l

theorem moves_conversion : Moves f (Expr.relocate f) (conversion unary) (conversion unary') :=
  moves_leftAssociative (moves_leftAssociative (moves_product moves) _) _

theorem moves_comparison : Moves f (Expr.relocate f) (comparison unary) (comparison unary') := by
  refine (moves_conversion moves).bind fun l => moves_peekComparison.bind fun op => ?_
  dsimp only [id]
  split
  · rename_i op
    refine moves_offset.bind fun o => moves_advance.bind fun _ =>
      (moves_conversion moves).bind fun r => moves_peekComparison.bind fun _ => .ite ?_ ?_
    · -- A second comparison is a mistake at its own offset, which has been moved.
      exact moves_offset.bind fun o' => fun c => rfl
    · exact .pure rfl
  · exact .pure rfl

theorem moves_disjunction : Moves f (Expr.relocate f) (disjunction unary) (disjunction unary') :=
  moves_leftAssociative (moves_leftAssociative (moves_leftAssociative (moves_comparison moves) _) _) _

end

theorem Moves.nested {g : α → β} {p : Parse α} {q : Parse β} (moves : Moves f g p q) :
    Moves f g (nested p) (nested q) := by
  intro c
  have inner := moves { c with depth := c.depth + 1 }
  have deeper : (Cursor.relocate f { c with depth := c.depth + 1 }) =
      { c.relocate f with depth := c.depth + 1 } := rfl
  rw [deeper] at inner
  rw [run_nested, run_nested, Cursor.offset_relocate, show (c.relocate f).depth = c.depth from rfl,
    inner]
  split <;> rfl

theorem moves_assignment {value value' otherwise otherwise' : Parse Expr}
    (moves : Moves f (Expr.relocate f) value value')
    (moves_ : Moves f (Expr.relocate f) otherwise otherwise') :
    Moves f (Expr.relocate f) (assignment value otherwise) (assignment value' otherwise') := by
  intro c
  rw [run_assignment, run_assignment]
  split
  · rename_i name o o' rest h
    -- The moved tokens assign, so the tokens that they come from do as well.
    obtain ⟨⟨t, p⟩, tail, hc, first, h⟩ := List.map_eq_cons_iff.mp h
    obtain ⟨⟨t', p'⟩, rest, rfl, second, -⟩ := List.map_eq_cons_iff.mp h
    obtain ⟨rfl, rfl⟩ := Located.mk.inj first
    obtain ⟨rfl, rfl⟩ := Located.mk.inj second
    simp only [hc]
    have assigned : Moves f (Expr.relocate f)
        (do advance; advance; return .assign name (← value) p)
        (do advance; advance; return .assign name (← value') (f p)) :=
      moves_advance.bind fun _ => moves_advance.bind fun _ => moves.bind fun _ => .pure rfl
    exact assigned c
  · rename_i other
    split
    · rename_i name o o' rest hc
      have same : (c.relocate f).rest = _ := congrArg (List.map (Located.relocate f)) hc
      exact absurd same (other name (f o) (f o') _)
    · exact moves_ c

/-- The readers of one depth of nesting. -/
theorem moves_level (room : Nat) :
    Moves f (Expr.relocate f) (level room).unary (level room).unary ∧
    Moves f (Expr.relocate f) (level room).expression (level room).expression := by
  induction room with
  | zero => exact ⟨.tooDeep _, moves_assignment (.tooDeep _) (moves_disjunction (.tooDeep _))⟩
  | succ room ih =>
    have unary := (moves_signed ih.2 ih.1).nested
    exact ⟨unary, moves_assignment ih.2.nested (moves_disjunction unary)⟩

theorem moves_expression :
    Moves f (Expr.relocate f) Parse.expression Parse.expression := (moves_level maxNesting).2

theorem closesBeforeEquals_relocate (f : Nat → Nat) (n : Nat) (ls : List Located) :
    closesBeforeEquals n (ls.map (Located.relocate f)) = closesBeforeEquals n ls := by
  induction ls generalizing n with
  | nil => rfl
  | cons l ls ih =>
    obtain ⟨t, o⟩ := l
    rcases t with _ | _ | _ | _ | s
    case symbol =>
      cases s with
      | rightParen =>
        -- The last parenthesis looks at the token behind it.
        simp only [List.map_cons, Located.relocate, closesBeforeEquals, ih]
        rcases ls with _ | ⟨⟨_ | _ | _ | _ | s, _⟩, ls⟩
        case cons.symbol => cases s <;> rfl
        all_goals rfl
      | _ => simp only [List.map_cons, Located.relocate, closesBeforeEquals, ih]
    all_goals simp only [List.map_cons, Located.relocate, closesBeforeEquals, ih]

theorem startsDefinition_relocate (f : Nat → Nat) (ls : List Located) :
    startsDefinition (ls.map (Located.relocate f)) = startsDefinition ls := by
  rcases ls with _ | ⟨⟨_ | _ | _ | _ | s, _⟩, ls⟩
  case cons.symbol => cases s <;> rfl
  case cons.identifier =>
    rcases ls with _ | ⟨⟨_ | _ | _ | _ | s, _⟩, ls⟩
    case cons.symbol =>
      cases s with
      | leftParen => exact closesBeforeEquals_relocate f 1 ls
      | _ => rfl
    all_goals rfl
  all_goals rfl

theorem moves_parameters (name : String) (start : Nat) :
    Moves f id (parameters name start) (parameters name (f start)) := by
  intro c
  have listed := moves_commaSeparated (moves_identifier (f := f)) .rightParen c
  rw [List.map_id_fun] at listed
  rw [run_parameters, run_parameters, listed]
  rcases run (commaSeparated identifier .rightParen) c with ⟨m | names, d⟩
  · cases m <;> rfl
  · simp only [moved_ok, id]
    cases firstRepeated [] names <;> rfl

theorem moves_signature (start : Nat) :
    Moves f (Expr.relocate f) (signature start) (signature (f start)) :=
  moves_identifier.bind fun name => (moves_expect .leftParen).bind fun _ =>
    (moves_parameters name start).bind fun _ => (moves_expect .equals).bind fun _ =>
      moves_expression.bind fun _ => .pure rfl

theorem moves_statement : Moves f (Expr.relocate f) statement statement := by
  intro c
  rw [run_statement, run_statement, show (c.relocate f).rest = c.rest.map (Located.relocate f) from rfl,
    startsDefinition_relocate]
  split
  · rw [run_definition, run_definition, Cursor.tokens_relocate, Cursor.offset_relocate,
      Cursor.advance_relocate]
    split
    · exact moves_signature _ _
    · exact moves_signature _ _
  · exact moves_expression c

theorem moves_endOfStatement : Moves f id endOfStatement endOfStatement := by
  intro c
  rw [run_endOfStatement, run_endOfStatement]
  rcases c with ⟨_ | ⟨⟨t, o⟩, rest⟩, depth, stop⟩
  · rfl
  · have separates : isSeparator (Located.relocate f ⟨t, o⟩) = isSeparator ⟨t, o⟩ := rfl
    simp only [Cursor.relocate, List.map_cons, separates]
    split <;> rfl

theorem moves_skipSeparators : Moves f id skipSeparators skipSeparators := by
  intro c
  have skipped : (c.rest.map (Located.relocate f)).dropWhile isSeparator =
      (c.rest.dropWhile isSeparator).map (Located.relocate f) := List.dropWhile_map
  exact congrArg (fun rest => (Except.ok (), (⟨rest, c.depth, f c.stop⟩ : Cursor))) skipped

theorem moves_statements (turns : List Located) :
    Moves f (List.map (Expr.relocate f)) (statements turns)
      (statements (turns.map (Located.relocate f))) := by
  induction turns with
  | nil => exact .pure rfl
  | cons t turns ih =>
    refine moves_skipSeparators.bind fun _ => moves_peek.bind fun t => ?_
    cases t with
    | none => exact .pure rfl
    | some t =>
      exact moves_statement.bind fun _ => moves_endOfStatement.bind fun _ =>
        ih.bind fun _ => .pure rfl

theorem moves_program : Moves f (Expr.relocate f) program program := by
  refine moves_offset.bind fun o => moves_ahead.bind fun turns =>
    (moves_statements turns).bind fun es => ?_
  rcases es with _ | ⟨e, _ | ⟨e', es⟩⟩ <;> exact .pure (by simp [Expr.relocate])

end Readers

end Parse

/-- Moved tokens are read as the same tree or with the same mistake, with every offset moved. -/
theorem Expr.ofTokens_relocate (f : Nat → Nat) (ls : List Located) (stop : Nat) :
    Expr.ofTokens (ls.map (Located.relocate f)) (f stop) =
      ((Expr.ofTokens ls stop).map (Expr.relocate f)).mapError (Malformed.relocate f) :=
  congrArg Prod.fst (Parse.moves_program (Cursor.ofTokens ls stop))

end Reckon
