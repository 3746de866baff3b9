import Reckon.Proofs.Reader.Sound

/-! Every reader is complete for its production: where the tokens ahead derive a tree and what
follows cannot go on with it, the reader finds the tree and stops there, or it reports that the
nesting is too deep, and this only if the derivation nests deeper than the reader may. -/
namespace Reckon

open Grammar

/-- How tightly a token is joined to what stands before it, the postfix operators most tightly. An
equals sign comes first of all, since it takes the name before it away from any expression. -/
def Token.binding : Token → Nat
  | symbol .equals => 10
  | symbol .bang | symbol .apostrophe | symbol .leftBracket => 9
  | symbol .caret => 8
  | number _ | identifier _ | symbol .leftParen => 7
  | symbol .star | symbol .slash | symbol .percent => 7
  | symbol .plus | symbol .minus => 6
  | symbol .inUnit | symbol .toUnit => 5
  | symbol .less | symbol .greater | symbol .lessEqual | symbol .greaterEqual => 4
  | symbol .equalEqual | symbol .bangEqual => 4
  | symbol .and => 3
  | symbol .xor => 2
  | symbol .or => 1
  | _ => 0

def Ends (k : Nat) (us : List Token) : Prop := ∀ t ∈ us.head?, t.binding < k

theorem Ends.mono (h : Ends k us) (le : k ≤ l) : Ends l us :=
  fun t ht => Nat.lt_of_lt_of_le (h t ht) le

theorem Ends.cons (h : t.binding < k) : Ends k (t :: us) := by
  intro t' ht
  obtain rfl : t = t' := by simpa using ht
  exact h

theorem Ends.head? (h : Ends k us) (le : k ≤ t.binding) : us.head? ≠ some t := by
  intro ht
  have := h t ht
  omega

namespace Parse

section

variable {shallow : Prop} {room : Nat} {F : List Token → Prop}

/-- The reader succeeds with `Q`; where it is `shallow`, it may also report too deep a nesting. -/
def Yields (shallow : Prop) (p : Parse α) (c : Cursor) (Q : α → Cursor → Prop) : Prop :=
  (∃ a d, run p c = (.ok a, d) ∧ Q a d) ∨
    (shallow ∧ ∃ o d, run p c = (.error (.tooDeep o), d))

theorem Yields.bind {f : α → Parse β} (first : Yields shallow p c Q)
    (next : ∀ a d, Q a d → Yields shallow (f a) d R) : Yields shallow (p >>= f) c R := by
  rcases first with ⟨a, d, hp, hq⟩ | ⟨deep, o, d, hp⟩
  · rcases next a d hq with ⟨b, e, hf, hr⟩ | ⟨deep, o, e, hf⟩
    · exact .inl ⟨b, e, by rw [run_bind_of_ok hp, hf], hr⟩
    · exact .inr ⟨deep, o, e, by rw [run_bind_of_ok hp, hf]⟩
  · exact .inr ⟨deep, o, d, run_bind_of_error hp⟩

theorem Yields.ok (h : run p c = (.ok a, d)) (hq : Q a d) : Yields shallow p c Q :=
  .inl ⟨a, d, h, hq⟩

theorem Yields.imp (h : Yields shallow p c Q) (weaker : ∀ a d, Q a d → R a d) :
    Yields shallow p c R := by
  rcases h with ⟨a, d, hp, hq⟩ | tooDeep
  · exact .inl ⟨a, d, hp, weaker a d hq⟩
  · exact .inr tooDeep

theorem Yields.of_run (h : run p c = run q d) (hq : Yields shallow q d Q) :
    Yields shallow p c Q := by
  unfold Yields
  rw [h]
  exact hq

def Leaves (view : α → β) (c : Cursor) (b : β) (us : List Token) (a : α) (d : Cursor) : Prop :=
  view a = b ∧ d.tokens = us ∧ d.depth = c.depth

/-- Where `L` derives a result and what follows fits `F`, the reader finds it, with `room` levels
of nesting left. -/
def Complete (shallow : Prop) (room : Nat) (p : Parse α) (view : α → β) (L : Phrase β)
    (F : List Token → Prop) : Prop :=
  ∀ ⦃ts b us⦄, L ts b us → F us → ∀ c : Cursor, c.tokens = ts → c.depth + room = maxNesting →
    Yields shallow p c (Leaves view c b us)

theorem identifier_complete : Complete shallow room identifier id Identifier fun _ => True := by
  rintro _ n us ⟨⟩ _ c hc _
  refine .ok (a := n) (d := c.advance) ?_ ⟨rfl, by simp [hc], rfl⟩
  have found := run_identifier_bind pure c
  rw [hc] at found
  simpa [run_bind_of_ok] using found

theorem Tail.of_separated (h : Separated .comma L ts as (.symbol closing :: us)) :
    ∃ a rest vs, as = a :: rest ∧ L ts a vs ∧ Tail L closing vs rest us := by
  generalize hvs : Token.symbol closing :: us = vs at h
  cases h with
  | single h => exact ⟨_, _, _, rfl, h, hvs ▸ .close⟩
  | more h rest => exact ⟨_, _, _, rfl, h, .comma (hvs ▸ rest)⟩

def Closing (s : Symbol) : Prop := (Token.symbol s).binding = 0 ∧ s ≠ .comma

instance (s : Symbol) : Decidable (Closing s) := inferInstanceAs (Decidable (_ ∧ _))

/-- Behind an item stands a comma or the closing symbol. -/
theorem Tail.follows (h : Tail L closing ts as us) (close : Closing closing)
    (loose : ∀ ⦃t us⦄, t.binding = 0 → F (t :: us)) : F ts := by
  cases h with
  | close => exact loose close.1
  | comma => exact loose rfl

theorem commaItems_complete (regular : Regular L) (item : Complete shallow room p view L F)
    (loose : ∀ ⦃t us⦄, t.binding = 0 → F (t :: us)) (close : Closing closing)
    (turns : List Located) (h : Tail L closing ts as us) (c : Cursor) (hc : c.tokens = ts)
    (hr : c.depth + room = maxNesting) (enough : ts.length ≤ turns.length) :
    Yields shallow (commaItems p closing turns) c (Leaves (List.map view) c as us) := by
  induction turns generalizing ts as c with
  | nil =>
    rw [List.eq_nil_of_length_eq_zero (Nat.le_zero.mp enough)] at h
    cases h
  | cons t turns ih =>
    cases h with
    | close =>
      refine .ok (a := []) (d := c.advance) ?_ ⟨rfl, by simp [hc], rfl⟩
      simp [commaItems, hc, close.2]
    | comma h =>
      obtain ⟨a, rest, vs, rfl, ha, tail⟩ := Tail.of_separated h
      have shorter := (regular ha).length_lt
      simp only [List.length_cons] at enough
      have first := item ha (tail.follows close loose) c.advance (by simp [hc]) hr
      refine .of_run (q := p >>= fun next => commaItems p closing turns >>= fun others =>
        pure (next :: others)) (d := c.advance) ?_ (first.bind ?_)
      · simp [commaItems, hc]
      · rintro x d ⟨rfl, hd, depth⟩
        refine (ih tail d hd (depth ▸ hr) (by omega)).bind ?_
        rintro xs e ⟨rfl, he, depth'⟩
        exact .ok (run_pure _ _) ⟨rfl, he, depth'.trans depth⟩

theorem commaSeparated_complete (regular : Regular L) (item : Complete shallow room p view L F)
    (loose : ∀ ⦃t us⦄, t.binding = 0 → F (t :: us)) (close : Closing closing)
    (starts : ∀ ⦃ts a us⦄, L ts a us → F us → ts.head? ≠ some (.symbol closing)) :
    Complete shallow room (commaSeparated p closing) (List.map view) (Enclosed closing L)
      fun _ => True := by
  intro ts as us h _ c hc hr
  cases h with
  | empty =>
    refine .ok (a := []) (d := c.advance) ?_ ⟨rfl, by simp [hc], rfl⟩
    simp [commaSeparated, hc]
  | items h =>
    obtain ⟨a, rest, vs, rfl, ha, tail⟩ := Tail.of_separated h
    have follows := tail.follows close loose
    refine .of_run (q := p >>= fun first => ahead >>= fun turns =>
      commaItems p closing turns >>= fun others => pure (first :: others)) (d := c) ?_ ?_
    · simp [commaSeparated, hc, starts ha follows]
    · refine (item ha follows c hc hr).bind ?_
      rintro x d ⟨rfl, hd, depth⟩
      refine .of_run (run_ahead_bind _ _) ((commaItems_complete regular item loose close _ tail d hd
        (depth ▸ hr) (by simp [hd])).bind ?_)
      rintro xs e ⟨rfl, he, depth'⟩
      exact .ok (run_pure _ _) ⟨rfl, he, depth'.trans depth⟩

end

section

variable {shallow : Prop} {room : Nat} {p unary : Parse Expr} {E U : Phrase Expr}

structure Inner (shallow : Prop) (room : Nat) (p : Parse Expr) (E : Phrase Expr) : Prop where
  regular : Regular E
  complete : Complete shallow room p Expr.skeleton E (Ends 1)
  starts : BeforeEquals LikeEnd E

theorem Inner.not_end (inner : Inner shallow room p E) (h : E ts e us) (follows : Ends 1 us)
    (last : t ∈ ends) : ts.head? ≠ some t := by
  intro head
  obtain ⟨rest, rfl⟩ := List.head?_eq_some_iff.mp head
  exact follows.head? (by decide) (inner.starts h ⟨t, rest, rfl, last⟩)

theorem loose_ends ⦃t : Token⦄ ⦃us : List Token⦄ (h : t.binding = 0) : Ends 1 (t :: us) :=
  Ends.cons (by omega)

theorem arguments_complete (inner : Inner shallow room p E) :
    Complete shallow room (commaSeparated p .rightParen) (List.map Expr.skeleton)
      (Enclosed .rightParen E) fun _ => True :=
  commaSeparated_complete inner.regular inner.complete loose_ends (by decide)
    fun _ _ _ h follows => inner.not_end h follows (by decide)

theorem indices_complete (inner : Inner shallow room p E) :
    Complete shallow room (indices p) (List.map Expr.skeleton)
      (Until .rightBracket (Separated .comma E)) fun _ => True := by
  have listed : Complete shallow room (commaSeparated p .rightBracket) (List.map Expr.skeleton)
      (Enclosed .rightBracket E) fun _ => True :=
    commaSeparated_complete inner.regular inner.complete loose_ends (by decide)
      fun _ _ _ h follows => inner.not_end h follows (by decide)
  intro ts is us h _ c hc hr
  obtain ⟨a, rest, vs, rfl, ha, tail⟩ := Tail.of_separated h
  have occupied := inner.not_end (t := .symbol .rightBracket) ha
    (tail.follows (by decide) loose_ends) (by decide)
  refine .of_run (q := commaSeparated p .rightBracket) (d := c) ?_
    (listed (.items h) trivial c hc hr)
  simp [indices, hc, occupied]

theorem rowElements_complete (inner : Inner shallow room p E) (turns : List Located)
    (h : Tail E (rowEnd more) ts es us) (c : Cursor) (hc : c.tokens = ts)
    (hr : c.depth + room = maxNesting) (enough : ts.length ≤ turns.length) :
    Yields shallow (rowElements p turns) c
      (Leaves (fun r => (r.1.map Expr.skeleton, r.2)) c (es, more) us) := by
  have close : Closing (rowEnd more) := by cases more <;> decide
  induction turns generalizing ts es c with
  | nil =>
    rw [List.eq_nil_of_length_eq_zero (Nat.le_zero.mp enough)] at h
    cases h
  | cons t turns ih =>
    cases h with
    | close =>
      refine .ok (a := ([], more)) (d := c.advance) ?_ ⟨rfl, by simp [hc], rfl⟩
      cases more <;> simp [rowElements, hc, rowEnd]
    | comma h =>
      obtain ⟨a, rest, vs, rfl, ha, tail⟩ := Tail.of_separated h
      have shorter := (inner.regular ha).length_lt
      simp only [List.length_cons] at enough
      have first := inner.complete ha (tail.follows close loose_ends) c.advance (by simp [hc]) hr
      refine .of_run (q := p >>= fun next => rowElements p turns >>= fun r =>
        pure (next :: r.1, r.2)) (d := c.advance) ?_ (first.bind ?_)
      · simp [rowElements, hc]
      · rintro x d ⟨rfl, hd, depth⟩
        refine (ih tail d hd (depth ▸ hr) (by omega)).bind ?_
        rintro ⟨xs, more'⟩ e ⟨hx, he, depth'⟩
        obtain ⟨rfl, rfl⟩ := Prod.mk.inj hx
        exact .ok (run_pure _ _) ⟨rfl, he, depth'.trans depth⟩

theorem matrixRow_complete (inner : Inner shallow room p E) :
    Complete shallow room (matrixRow p) (fun r => (r.1.1.map Expr.skeleton, r.2))
      (fun ts r us => Separated .comma E ts r.1 (.symbol (rowEnd r.2) :: us)) fun _ => True := by
  rintro ts ⟨es, more⟩ us h _ c hc hr
  obtain ⟨a, rest, vs, rfl, ha, tail⟩ := Tail.of_separated h
  have close : Closing (rowEnd more) := by cases more <;> decide
  refine .of_run (run_offset_bind _ _) ?_
  refine (inner.complete ha (tail.follows close loose_ends) c hc hr).bind ?_
  rintro x d ⟨rfl, hd, depth⟩
  refine .of_run (run_ahead_bind _ _) ((rowElements_complete inner _ tail d hd (depth ▸ hr)
    (by simp [hd])).bind ?_)
  rintro ⟨xs, more'⟩ e ⟨hx, he, depth'⟩
  obtain ⟨rfl, rfl⟩ := Prod.mk.inj hx
  exact .ok (run_pure _ _) ⟨rfl, he, depth'.trans depth⟩

theorem matrixRows_complete (inner : Inner shallow room p E) (turns : List Located)
    (h : Separated .semicolon (Separated .comma E) ts rows (.symbol .rightBracket :: us))
    (c : Cursor) (hc : c.tokens = ts) (hr : c.depth + room = maxNesting)
    (enough : ts.length ≤ turns.length) :
    Yields shallow (matrixRows p turns) c
      (Leaves (List.map fun r => r.1.map Expr.skeleton) c rows us) := by
  have row : Regular (Separated .comma E) := inner.regular.items
  have rows_ : Regular (Separated .semicolon (Separated .comma E)) := inner.regular.rows
  induction turns generalizing ts rows c with
  | nil =>
    have := (rows_ h).length_lt
    simp only [List.length_nil] at enough
    omega
  | cons t turns ih =>
    generalize hvs : Token.symbol .rightBracket :: us = vs at h
    cases h with
    | @single _ es _ h =>
      have first := matrixRow_complete inner (b := (es, false)) (hvs ▸ h) trivial c hc hr
      refine .of_run (q := matrixRow p >>= fun r => if r.2 = true then
        matrixRows p turns >>= fun rows => pure (r.1 :: rows) else pure [r.1]) (d := c) rfl
        (first.bind ?_)
      rintro ⟨x, more⟩ d ⟨hx, hd, depth⟩
      obtain ⟨rfl, rfl⟩ := Prod.mk.inj hx
      exact .ok (run_pure _ _) ⟨rfl, hd, depth⟩
    | @more _ es us' rows _ h rest =>
      have shorter := (row h).length_lt
      simp only [List.length_cons] at enough shorter
      have first := matrixRow_complete inner (b := (es, true)) h trivial c hc hr
      refine .of_run (q := matrixRow p >>= fun r => if r.2 = true then
        matrixRows p turns >>= fun rows => pure (r.1 :: rows) else pure [r.1]) (d := c) rfl
        (first.bind ?_)
      rintro ⟨x, more⟩ d ⟨hx, hd, depth⟩
      obtain ⟨rfl, rfl⟩ := Prod.mk.inj hx
      simp only [reduceIte]
      refine (ih (hvs ▸ rest) d hd (depth ▸ hr) (by omega)).bind ?_
      rintro xs e ⟨rfl, he, depth'⟩
      exact .ok (run_pure _ _) ⟨rfl, he, depth'.trans depth⟩

def ofRows (offset : Nat) : List (List Expr × Nat) → Expr
  | [(elements, _)] => .matrix elements offset
  | rows => .matrix (rows.map fun row => .matrix row.1 row.2) offset

theorem matrix_complete (inner : Inner shallow room p E)
    (h : Separated .semicolon (Separated .comma E) ts rows (.symbol .rightBracket :: us))
    (c : Cursor) (hc : c.tokens = .symbol .leftBracket :: ts) (hr : c.depth + room = maxNesting) :
    Yields shallow (matrix p) c fun e d => ∃ xs,
      e = ofRows c.offset xs ∧ xs.map (fun r => r.1.map Expr.skeleton) = rows ∧
      d.tokens = us ∧ d.depth = c.depth := by
  have occupied : ts.head? ≠ some (.symbol .rightBracket) := by
    have first : ∃ es vs, Separated .comma E ts es vs ∧
        ∃ t vs', vs = .symbol t :: vs' ∧ Closing t := by
      generalize hvs : Token.symbol .rightBracket :: us = vs at h
      cases h with
      | single h => exact ⟨_, _, h, _, _, hvs.symm, by decide⟩
      | more h _ => exact ⟨_, _, h, _, _, rfl, by decide⟩
    obtain ⟨es, _, h, t, vs, rfl, close⟩ := first
    obtain ⟨a, rest, vs', rfl, ha, tail⟩ := Tail.of_separated h
    exact inner.not_end ha (tail.follows close loose_ends) (by decide)
  refine .of_run (q := matrixRows p c.advance.rest >>= fun rows => pure (ofRows c.offset rows))
    (d := c.advance) ?_ ?_
  · simp only [matrix, run_offset_bind, run_expect_bind, run_accept_bind, run_ahead_bind, hc,
      List.head?_cons, reduceIte, Cursor.tokens_advance, List.tail_cons, occupied,
      Bool.false_eq_true]
    congr 2
    funext rows
    rcases rows with _ | ⟨⟨elements, o⟩, _ | ⟨row, rows⟩⟩ <;> rfl
  · refine (matrixRows_complete inner _ h c.advance (by simp [hc]) hr (by simp [hc])).bind ?_
    rintro xs d ⟨hx, hd, depth⟩
    exact .ok (run_pure _ _) ⟨xs, rfl, hx, hd, depth⟩

theorem primary_complete (inner : Inner shallow room p E) :
    Complete shallow room (primary p) Expr.skeleton (Primary E) fun _ => True := by
  intro ts e us h _ c hc hr
  cases h with
  | @number digits =>
    refine .ok (a := .literal (.number digits) c.offset) (d := c.advance) ?_
      ⟨rfl, by simp [hc], rfl⟩
    simp [primary, hc, -bind_pure_comp]
  | @text content =>
    refine .ok (a := .literal (.text content) c.offset) (d := c.advance) ?_ ⟨rfl, by simp [hc], rfl⟩
    simp [primary, hc, -bind_pure_comp]
  | @boolean value =>
    refine .ok (a := .literal (.boolean value) c.offset) (d := c.advance) ?_
      ⟨rfl, by simp [hc], rfl⟩
    simp [primary, hc, -bind_pure_comp]
  | @name n us apart =>
    refine .ok (a := .name n c.offset) (d := c.advance) ?_ ⟨rfl, by simp [hc], rfl⟩
    simp [primary, hc, apart, -bind_pure_comp]
  | @call ts as us n h =>
    refine .of_run (q := commaSeparated p .rightParen >>= fun as => pure (.call n as c.offset))
      (d := c.advance.advance) ?_ ?_
    · simp [primary, hc, -bind_pure_comp]
    · refine (arguments_complete inner h trivial c.advance.advance (by simp [hc]) hr).bind ?_
      rintro xs d ⟨rfl, hd, depth⟩
      exact .ok (run_pure _ _) ⟨by simp [Expr.skeleton], hd, depth⟩
  | group h =>
    refine .of_run (q := p >>= fun inner => expect .rightParen >>= fun _ => pure inner)
      (d := c.advance) ?_ ?_
    · simp [primary, hc, -bind_pure_comp]
    · refine (inner.complete h (loose_ends rfl) c.advance (by simp [hc]) hr).bind ?_
      rintro x d ⟨rfl, hd, depth⟩
      exact .ok (a := x) (d := d.advance) (by simp [hd, -bind_pure_comp])
        ⟨rfl, by simp [hd], depth⟩
  | noElements =>
    refine .ok (a := .matrix [] c.offset) (d := c.advance.advance) ?_ ⟨rfl, by simp [hc], rfl⟩
    simp [primary, matrix, hc, -bind_pure_comp]
  | row h =>
    refine .of_run (q := matrix p) (d := c) (by simp [primary, hc]) ?_
    refine (matrix_complete inner (.single h) c hc hr).imp ?_
    rintro x d ⟨xs, rfl, hx, hd, depth⟩
    obtain ⟨⟨es, o⟩, rfl, rfl⟩ := List.map_eq_singleton_iff.mp hx
    exact ⟨by simp [ofRows, Expr.skeleton], hd, depth⟩
  | rows h several =>
    refine .of_run (q := matrix p) (d := c) (by simp [primary, hc]) ?_
    refine (matrix_complete inner h c hc hr).imp ?_
    rintro x d ⟨xs, rfl, rfl, hd, depth⟩
    refine ⟨?_, hd, depth⟩
    rcases xs with _ | ⟨x, _ | ⟨y, xs⟩⟩
    · simp at several
    · simp at several
    · simp [ofRows, Expr.skeleton, Function.comp_def]

/-- The reader comes to a turn of its loop with the operand `e` behind it and `us` ahead, and with
turns enough for these. -/
def Arrives (shallow : Prop) (p : Parse Expr) (loop : List Located → Expr → Parse Expr)
    (c : Cursor) (e : Expr) (us : List Token) : Prop :=
  (∃ turns o d, run p c = run (loop turns o) d ∧ us.length ≤ turns.length ∧
    Leaves Expr.skeleton c e us o d) ∨
    (shallow ∧ ∃ o d, run p c = (.error (.tooDeep o), d))

section

variable {loop : List Located → Expr → Parse Expr}

/-- An operand that is read starts the loop. -/
theorem Arrives.start (first : Yields shallow q c (Leaves Expr.skeleton c e us))
    (h : run p c = run (q >>= fun o => ahead >>= fun turns => loop turns o) c) :
    Arrives shallow p loop c e us := by
  rcases first with ⟨o, d, hq, leaves⟩ | ⟨deep, o, d, hq⟩
  · refine .inl ⟨d.rest, o, d, ?_, by simp [leaves.2.1], leaves⟩
    rw [h, run_bind_of_ok hq, run_ahead_bind]
  · exact .inr ⟨deep, o, d, by rw [h, run_bind_of_error hq]⟩

/-- One turn of the loop takes it from one operand to the next. -/
theorem Arrives.turn (before : Arrives shallow p loop c e us) (shorter : vs.length < us.length)
    (step : ∀ t turns o d, Leaves Expr.skeleton c e us o d → ∃ q : Parse Expr,
      run (loop (t :: turns) o) d = run (q >>= fun e => loop turns e) d ∧
      Yields shallow q d (Leaves Expr.skeleton c e' vs)) :
    Arrives shallow p loop c e' vs := by
  rcases before with ⟨_ | ⟨t, turns⟩, o, d, h, enough, leaves⟩ | tooDeep
  · simp only [List.length_nil] at enough
    omega
  · obtain ⟨q, hq, ⟨o', d', hq', leaves'⟩ | ⟨deep, o', d', hq'⟩⟩ := step t turns o d leaves
    · refine .inl ⟨turns, o', d', by rw [h, hq, run_bind_of_ok hq'], ?_, leaves'⟩
      simp only [List.length_cons] at enough
      omega
    · exact .inr ⟨deep, o', d', by rw [h, hq, run_bind_of_error hq']⟩
  · exact .inr tooDeep

/-- Where the loop stops, the operand is the result. -/
theorem Arrives.stop (last : Arrives shallow p loop c e us)
    (done : ∀ turns o d, d.tokens = us → run (loop turns o) d = (.ok o, d)) :
    Yields shallow p c (Leaves Expr.skeleton c e us) := by
  rcases last with ⟨turns, o, d, h, _, leaves⟩ | tooDeep
  · exact .ok (by rw [h, done turns o d leaves.2.1]) leaves
  · exact .inr tooDeep

end

theorem postfixed_arrives (inner : Inner shallow room p E) (h : Postfixed E ts e us) (c : Cursor)
    (hc : c.tokens = ts) (hr : c.depth + room = maxNesting) :
    Arrives shallow (postfixed p) (postfixes p) c e us := by
  induction h with
  | primary h => exact .start (primary_complete inner h trivial c hc hr) rfl
  | @mark ts e s us op h member ih =>
    refine (ih hc).turn (by simp) ?_
    rintro t turns o d ⟨ho, hd, depth⟩
    refine ⟨advance >>= fun _ => pure (.unary op o d.offset), ?_, ?_⟩
    · simp only [marks, List.mem_cons, Prod.mk.injEq, List.not_mem_nil, or_false] at member
      rcases member with ⟨rfl, rfl⟩ | ⟨rfl, rfl⟩ <;>
        simp [postfixes, hd, -bind_pure_comp]
    · refine .ok (d := d.advance) (run_advance_bind _ _) ⟨?_, by simp [hd], depth⟩
      rw [Expr.skeleton, ho]
  | @index ts e us is vs h his ih =>
    have shorter := (inner.regular.items his).length_lt
    simp only [List.length_cons] at shorter
    refine (ih hc).turn (by simp only [List.length_cons]; omega) ?_
    rintro t turns o d ⟨ho, hd, depth⟩
    refine ⟨advance >>= fun _ => indices p >>= fun is => pure (.index o is d.offset), ?_, ?_⟩
    · simp [postfixes, hd, -bind_pure_comp]
    · refine .of_run (run_advance_bind _ _) ((indices_complete inner his trivial d.advance
        (by simp [hd]) (by simpa [depth] using hr)).bind ?_)
      rintro xs d' ⟨rfl, hd', depth'⟩
      exact .ok (run_pure _ _) ⟨by simp [Expr.skeleton, ho], hd', depth'.trans depth⟩

theorem postfixed_complete (inner : Inner shallow room p E) :
    Complete shallow room (postfixed p) Expr.skeleton (Postfixed E) (Ends 9) := by
  intro ts e us h follows c hc hr
  refine (postfixed_arrives inner h c hc hr).stop fun turns o d hd => ?_
  cases turns with
  | nil => rfl
  | cons t turns =>
    have bang := follows.head? (t := .symbol .bang) (by decide)
    have apostrophe := follows.head? (t := .symbol .apostrophe) (by decide)
    have bracket := follows.head? (t := .symbol .leftBracket) (by decide)
    simp only [postfixes, run_offset_bind, run_peek_bind, hd, run_pure]

theorem power_complete (inner : Inner shallow room p E)
    (unary_ : Complete shallow room unary Expr.skeleton U (Ends 8)) :
    Complete shallow room (power unary p) Expr.skeleton (Power U E) (Ends 8) := by
  intro ts e us h follows c hc hr
  cases h with
  | base h =>
    refine (postfixed_complete inner h (follows.mono (by decide)) c hc hr).bind ?_
    rintro x d ⟨rfl, hd, depth⟩
    refine .ok (a := x) (d := d) ?_ ⟨rfl, hd, depth⟩
    simp [hd, follows.head? (t := .symbol .caret) (by decide), -bind_pure_comp]
  | power hb he =>
    refine (postfixed_complete inner hb (.cons (by decide)) c hc hr).bind ?_
    rintro x d ⟨rfl, hd, depth⟩
    refine .of_run (q := unary >>= fun e => pure (.binary .pow x e d.offset)) (d := d.advance)
      (by simp [hd, -bind_pure_comp]) ?_
    refine (unary_ he follows d.advance (by simp [hd]) (by simpa [depth] using hr)).bind ?_
    rintro y d' ⟨rfl, hd', depth'⟩
    exact .ok (run_pure _ _) ⟨rfl, hd', depth'.trans depth⟩

theorem sign?_of_mem (member : (s, op) ∈ signs) : sign? (some (.symbol s)) = some op := by
  have spelled : ∀ x ∈ signs, sign? (some (.symbol x.1)) = some x.2 := by decide
  exact spelled _ member

theorem Postfixed.no_sign (h : Postfixed E ts e us) : sign? ts.head? = none := by
  induction h with
  | primary h => cases h <;> rfl
  | mark _ _ ih => exact ih
  | index _ _ ih => exact ih

theorem Power.no_sign (h : Power U E ts e us) : sign? ts.head? = none := by
  cases h with
  | base h => exact Postfixed.no_sign h
  | power h => exact Postfixed.no_sign h

theorem signed_complete (inner : Inner shallow room p E)
    (unary_ : Complete shallow room unary Expr.skeleton U (Ends 8)) :
    Complete shallow room (signed unary p) Expr.skeleton (Signed U E) (Ends 8) := by
  intro ts e us h follows c hc hr
  cases h with
  | @sign s op ts e us member h =>
    refine .of_run (q := unary >>= fun e => pure (.unary op e c.offset)) (d := c.advance) ?_ ?_
    · simp [signed, hc, sign?_of_mem member, -bind_pure_comp]
    · refine (unary_ h follows c.advance (by simp [hc]) hr).bind ?_
      rintro x d ⟨rfl, hd, depth⟩
      exact .ok (run_pure _ _) ⟨rfl, hd, depth⟩
  | power h =>
    refine .of_run (q := power unary p) (d := c) ?_ (power_complete inner unary_ h follows c hc hr)
    simp [signed, hc, Power.no_sign h]

section

variable {level : List BinaryOperator} {operators : List (Symbol × BinaryOperator)}
  {op : BinaryOperator} {t : Token}

structure Spelled (level : List BinaryOperator) (operators : List (Symbol × BinaryOperator))
    (k : Nat) : Prop where
  listed : ∀ x ∈ joining, x.2 ∈ level → x ∈ operators
  joins : ∀ x ∈ operators, x ∈ joining ∧ x.2 ∈ level
  binds : ∀ x ∈ operators, (Token.symbol x.1).binding = k

theorem Spelled.operator (spelled : Spelled level operators k) (member : (s, op) ∈ operators) :
    (Token.symbol s).binaryOperator? = some op ∧ op ∈ level :=
  ⟨binaryOperator?_eq_some.mpr ⟨s, rfl, (spelled.joins _ member).1⟩, (spelled.joins _ member).2⟩

/-- The level goes no further where nothing binds as tightly as its operators. -/
theorem Spelled.not_mem (spelled : Spelled level operators k) (follows : Ends k us)
    (h : us.head?.bind Token.binaryOperator? = some op) : op ∉ level := by
  intro member
  obtain ⟨t, ht, hop⟩ := Option.bind_eq_some_iff.mp h
  obtain ⟨s, rfl, joins⟩ := binaryOperator?_eq_some.mp hop
  have := follows _ ht
  rw [spelled.binds _ (spelled.listed _ joins member)] at this
  omega

theorem spelled_products : Spelled [.mul, .div, .mod] products 7 :=
  ⟨by decide, by decide, by decide⟩

theorem spelled_sums : Spelled [.add, .sub] sums 6 := ⟨by decide, by decide, by decide⟩

theorem spelled_conversions : Spelled [.convert] conversions 5 :=
  ⟨by decide, by decide, by decide⟩

theorem spelled_conjunctions : Spelled [.and] conjunctions 3 := ⟨by decide, by decide, by decide⟩

theorem spelled_exclusions : Spelled [.xor] exclusions 2 := ⟨by decide, by decide, by decide⟩

theorem spelled_disjunctions : Spelled [.or] disjunctions 1 := ⟨by decide, by decide, by decide⟩

/-- The operand behind an operator, and the operation they make with the one before. -/
theorem operand_complete
    (operand : Complete shallow room p Expr.skeleton E F) (h : E us r vs) (follows : F vs)
    (before : Leaves Expr.skeleton c l (t :: us) o d) (hr : c.depth + room = maxNesting) :
    Yields shallow (advance >>= fun _ => p >>= fun r => pure (.binary op o r d.offset)) d
      (Leaves Expr.skeleton c (.binary op l r 0) vs) := by
  obtain ⟨ho, hd, depth⟩ := before
  refine .of_run (run_advance_bind _ _) ((operand h follows d.advance
    (by simp [hd]) (by simpa [depth] using hr)).bind ?_)
  rintro x d' ⟨rfl, hd', depth'⟩
  exact .ok (run_pure _ _) ⟨by rw [Expr.skeleton, ho], hd', depth'.trans depth⟩

theorem factor_binding (starts : t.startsFactor = true) : t.binding = 7 := by
  unfold Token.startsFactor at starts
  split at starts <;> first | rfl | contradiction

theorem product_arrives (regular : Regular U)
    (unary_ : Complete shallow room unary Expr.skeleton U (Ends 8)) (h : Product U ts e us)
    (follows : Ends 8 us) (c : Cursor) (hc : c.tokens = ts) (hr : c.depth + room = maxNesting) :
    Arrives shallow (product unary) (factors unary) c e us := by
  induction h with
  | factor h => exact .start (unary_ h follows c hc hr) rfl
  | @operator ts l s us op r vs h member hr_ ih =>
    have shorter := (regular hr_).length_lt
    have binds : Ends 8 (.symbol s :: us) := .cons (by rw [spelled_products.binds _ member]; decide)
    refine (ih binds hc).turn (by simp only [List.length_cons]; omega) fun t turns o d leaves =>
      ⟨_, ?_, operand_complete unary_ hr_ follows leaves hr⟩
    have plain : ∀ x ∈ products, (Token.symbol x.1).startsFactor = false := by decide
    obtain ⟨hop, listed⟩ := spelled_products.operator member
    simp only [factors, run_offset_bind, run_peek_bind, leaves.2.1, List.head?_cons,
      plain _ member, hop, listed, bind_assoc, pure_bind, reduceIte, Bool.false_eq_true]
  | @adjacent ts l t us r vs h starts hr_ ih =>
    have shorter := (regular hr_).length_lt
    have binds : Ends 8 (t :: us) := .cons (by rw [factor_binding starts]; decide)
    refine (ih binds hc).turn shorter ?_
    rintro _ turns o d ⟨ho, hd, depth⟩
    refine ⟨unary >>= fun r => pure (.binary .mul o r d.offset), ?_, ?_⟩
    · simp only [factors, run_offset_bind, run_peek_bind, hd, List.head?_cons, starts,
        bind_assoc, pure_bind, reduceIte]
    · refine (unary_ hr_ follows d hd (by simpa [depth] using hr)).bind ?_
      rintro x d' ⟨rfl, hd', depth'⟩
      exact .ok (run_pure _ _) ⟨by rw [Expr.skeleton, ho], hd', depth'.trans depth⟩

theorem product_complete (regular : Regular U)
    (unary_ : Complete shallow room unary Expr.skeleton U (Ends 8)) :
    Complete shallow room (product unary) Expr.skeleton (Product U) (Ends 7) := by
  intro ts e us h follows c hc hr
  refine (product_arrives regular unary_ h (follows.mono (by decide)) c hc hr).stop
    fun turns o d hd => ?_
  cases turns with
  | nil => rfl
  | cons t turns =>
    simp only [factors, run_offset_bind, run_peek_bind, hd]
    split
    · rename_i t ht
      have loose := follows t ht
      split
      · rename_i starts
        rw [factor_binding starts] at loose
        omega
      · split
        · rename_i op hop
          rw [if_neg (spelled_products.not_mem follows (by rw [ht]; exact hop)), run_pure]
        · rw [run_pure]
    · rw [run_pure]

theorem leftAssociative_arrives (spelled : Spelled level operators k)
    (regular : Regular E) (operand : Complete shallow room p Expr.skeleton E (Ends (k + 1)))
    (h : LeftAssociative operators E ts e us) (follows : Ends (k + 1) us) (c : Cursor)
    (hc : c.tokens = ts) (hr : c.depth + room = maxNesting) :
    Arrives shallow (leftAssociative p level) (chain p level) c e us := by
  induction h with
  | operand h => exact .start (operand h follows c hc hr) rfl
  | @operator ts l s us op r vs h member hr_ ih =>
    have shorter := (regular hr_).length_lt
    have binds : Ends (k + 1) (.symbol s :: us) := .cons (by rw [spelled.binds _ member]; omega)
    refine (ih binds hc).turn (by simp only [List.length_cons]; omega) fun t turns o d leaves =>
      ⟨_, ?_, operand_complete operand hr_ follows leaves hr⟩
    obtain ⟨hop, listed⟩ := spelled.operator member
    simp only [chain, run_peekOperator_bind, run_offset_bind, leaves.2.1, List.head?_cons,
      Option.bind_some, hop, listed, bind_assoc, pure_bind, reduceIte]

theorem leftAssociative_complete (spelled : Spelled level operators k)
    (regular : Regular E) (operand : Complete shallow room p Expr.skeleton E (Ends (k + 1))) :
    Complete shallow room (leftAssociative p level) Expr.skeleton (LeftAssociative operators E)
      (Ends k) := by
  intro ts e us h follows c hc hr
  refine (leftAssociative_arrives spelled regular operand h (follows.mono (by omega)) c hc
    hr).stop fun turns o d hd => ?_
  cases turns with
  | nil => rfl
  | cons t turns =>
    simp only [chain, run_peekOperator_bind, hd]
    split
    · rename_i op hop
      rw [if_neg (spelled.not_mem follows hop), run_pure]
    · rw [run_pure]

theorem spelled_comparison (member : (s, op) ∈ comparisons) :
    (Token.symbol s).binaryOperator? = some op ∧ op.isComparison = true ∧
      (Token.symbol s).binding = 4 := by
  have spelled : ∀ x ∈ comparisons, (Token.symbol x.1).binaryOperator? = some x.2 ∧
      x.2.isComparison = true ∧ (Token.symbol x.1).binding = 4 := by decide
  exact spelled _ member

/-- No comparison is ahead where nothing binds as tightly as one. -/
theorem no_comparison (follows : Ends 4 us) :
    (us.head?.bind Token.binaryOperator?).filter BinaryOperator.isComparison = none := by
  refine Option.filter_eq_none_iff.mpr fun op hop compares => ?_
  obtain ⟨t, ht, hop⟩ := Option.bind_eq_some_iff.mp hop
  obtain ⟨s, rfl, joins⟩ := binaryOperator?_eq_some.mp hop
  have := follows _ ht
  rw [(spelled_comparison (comparisons_of_joining _ joins compares)).2.2] at this
  omega

theorem comparison_complete
    (operand : Complete shallow room (conversion unary) Expr.skeleton E (Ends 5)) :
    Complete shallow room (comparison unary) Expr.skeleton (Comparison E) (Ends 4) := by
  intro ts e us h follows c hc hr
  cases h with
  | operand h =>
    refine (operand h (follows.mono (by decide)) c hc hr).bind ?_
    rintro x d ⟨rfl, hd, depth⟩
    refine .ok (a := x) (d := d) ?_ ⟨rfl, hd, depth⟩
    simp only [run_peekComparison_bind, hd, no_comparison follows, run_pure]
  | @comparison ts l s us op r vs hl member hr_ =>
    obtain ⟨hop, compares, binding⟩ := spelled_comparison member
    have binds : Ends 5 (.symbol s :: us) := .cons (by rw [binding]; decide)
    refine (operand hl binds c hc hr).bind ?_
    rintro x d ⟨rfl, hd, depth⟩
    refine .of_run (q := conversion unary >>= fun r => peekComparison >>= fun again =>
      if again.isSome then offset >>= fun o => fail (.chainedComparison o)
      else pure (.binary op x r d.offset)) (d := d.advance) ?_ ?_
    · simp only [run_peekComparison_bind, hd, List.head?_cons, Option.bind_some, hop,
        Option.filter_some, compares, reduceIte, run_offset_bind, run_advance_bind]
    · refine (operand hr_ (follows.mono (by decide)) d.advance (by simp [hd])
        (by simpa [depth] using hr)).bind ?_
      rintro y d' ⟨rfl, hd', depth'⟩
      refine .ok (a := .binary op x y d.offset) (d := d') ?_ ⟨rfl, hd', depth'.trans depth⟩
      simp only [run_peekComparison_bind, hd', no_comparison follows, Option.isSome_none,
        Bool.false_eq_true, reduceIte, run_pure]

theorem disjunction_complete (regular : Regular U)
    (unary_ : Complete shallow room unary Expr.skeleton U (Ends 8)) :
    Complete shallow room (disjunction unary) Expr.skeleton (Disjunction U) (Ends 1) := by
  have product_ := Product.regular regular
  have sum_ := leftAssociative_complete spelled_sums product_ (product_complete regular unary_)
  have conversion_ := leftAssociative_complete spelled_conversions
    (LeftAssociative.regular plain_sums product_) sum_
  have compared := Comparison.regular (Conversion.regular regular)
  have conjunction_ := leftAssociative_complete spelled_conjunctions compared
    (comparison_complete conversion_)
  have conjoined := LeftAssociative.regular plain_conjunctions compared
  have exclusion_ := leftAssociative_complete spelled_exclusions conjoined conjunction_
  exact leftAssociative_complete spelled_disjunctions
    (LeftAssociative.regular plain_exclusions conjoined) exclusion_

theorem run_assignment_of_not (other : ¬LikeAssignment c.tokens) (value otherwise : Parse Expr) :
    run (assignment value otherwise) c = run otherwise c := by
  rw [run_assignment]
  split
  · rename_i n o o' rest hc
    exact absurd ⟨n, rest.map Located.token, by simp [Cursor.tokens, hc]⟩ other
  · rfl

theorem assignment_complete {value otherwise : Parse Expr} {V O : Phrase Expr}
    (value_ : Complete shallow room value Expr.skeleton V (Ends 1))
    (otherwise_ : Complete shallow room otherwise Expr.skeleton O (Ends 1))
    (apart : BeforeEquals LikeAssignment O) :
    Complete shallow room (assignment value otherwise) Expr.skeleton (Assignment V O)
      (Ends 1) := by
  intro ts e us h follows c hc hr
  cases h with
  | @assign ts e us n h =>
    obtain ⟨⟨_, o⟩, rest, hrest, rfl, tail⟩ := List.map_eq_cons_iff.mp hc
    obtain ⟨⟨_, o'⟩, rest, rfl, rfl, -⟩ := List.map_eq_cons_iff.mp tail
    refine .of_run (q := value >>= fun v => pure (.assign n v o)) (d := c.advance.advance) ?_ ?_
    · simp only [run_assignment, hrest, run_advance_bind]
    · refine (value_ h follows c.advance.advance (by simp [hc]) hr).bind ?_
      rintro x d ⟨rfl, hd, depth⟩
      exact .ok (run_pure _ _) ⟨rfl, hd, depth⟩
  | otherwise h =>
    have other : ¬LikeAssignment c.tokens := fun like =>
      follows.head? (by decide) (apart h (hc ▸ like))
    exact .of_run (run_assignment_of_not other _ _) (otherwise_ h follows c hc hr)

theorem nested_complete {F : List Token → Prop} {p : Parse Expr} {E : Phrase Expr}
    (inner : Complete shallow room p Expr.skeleton E F) :
    Complete shallow (room + 1) (nested p) Expr.skeleton E F := by
  intro ts e us h follows c hc hr
  have first := inner h follows { c with depth := c.depth + 1 } hc
    (by simp only [Nat.add_assoc, Nat.add_comm 1, hr])
  have open_ : c.depth < maxNesting := by omega
  rcases first with ⟨a, d, hp, ha, hd, depth⟩ | ⟨deep, o, d, hp⟩
  · refine .ok (a := a) (d := { d with depth := d.depth - 1 }) ?_ ⟨ha, hd, by simp [depth]⟩
    rw [run_nested, if_pos open_, hp]
  · refine .inr ⟨deep, o, { d with depth := d.depth - 1 }, ?_⟩
    rw [run_nested, if_pos open_, hp]

end

end

/-- The readers with `room` levels left are complete for the grammar of any depth of nesting. They
may only fail for a derivation that nests deeper than they may. -/
theorem level_complete (room nesting : Nat) :
    Complete (room < nesting) room (level room).unary Expr.skeleton (layer nesting).unary
      (Ends 8) ∧
    Complete (room < nesting) room (level room).expression Expr.skeleton
      (layer nesting).expression (Ends 1) := by
  induction room generalizing nesting with
  | zero =>
    cases nesting with
    | zero => exact ⟨fun _ _ _ h => h.elim, fun _ _ _ h => h.elim⟩
    | succ nesting =>
      refine ⟨fun _ _ _ _ _ c _ _ => ?_, fun _ _ _ _ _ c _ _ => ?_⟩
      · exact .inr ⟨Nat.succ_pos _, _, _, run_tooDeep c⟩
      · refine .inr ⟨Nat.succ_pos _, ?_⟩
        simp only [level, run_assignment]
        split
        · exact ⟨_, c.advance.advance, by simp only [run_advance_bind, run_tooDeep_bind]; rfl⟩
        · exact ⟨_, _, run_disjunction_tooDeep c⟩
  | succ room ih =>
    cases nesting with
    | zero => exact ⟨fun _ _ _ h => h.elim, fun _ _ _ h => h.elim⟩
    | succ nesting =>
      have regular := layer_regular nesting
      have deeper := ih nesting
      rw [← Nat.add_lt_add_iff_right (k := 1)] at deeper
      have inner : Inner _ room (level room).expression (layer nesting).expression :=
        ⟨regular.2, deeper.2, expression_beforeEquals_end nesting⟩
      have unary := nested_complete (signed_complete inner deeper.1)
      exact ⟨unary, assignment_complete (nested_complete deeper.2)
        (disjunction_complete (Signed.regular regular.1 regular.2) unary)
        Disjunction.beforeEquals_assignment⟩

section

variable {shallow : Prop} {room nesting : Nat}

theorem parameters_complete :
    Complete shallow room (parameters name start) id
      (fun ts ps us => Enclosed .rightParen Identifier ts ps us ∧ ps.Nodup) fun _ => True := by
  have listed : Complete shallow room (commaSeparated identifier .rightParen) (List.map id)
      (Enclosed .rightParen Identifier) fun _ => True := by
    refine commaSeparated_complete Identifier.regular identifier_complete (fun _ _ _ => trivial)
      (by decide) ?_
    rintro _ n us ⟨⟩ _
    simp
  rintro ts ps us ⟨h, distinct⟩ _ c hc hr
  rcases listed h trivial c hc hr with ⟨names, d, hn, hnames, leaves⟩ | ⟨deep, o, d, hn⟩
  · obtain rfl : names = ps := by simpa using hnames
    refine .ok (a := names) (d := d) ?_ ⟨rfl, leaves⟩
    have fresh : firstRepeated [] names = none := firstRepeated_eq_none.mpr ⟨distinct, by simp⟩
    simp only [run_parameters, hn, fresh]
  · exact .inr ⟨deep, o, d, by simp only [run_parameters, hn]⟩

theorem signature_complete (start : Nat) :
    Complete (maxNesting < nesting) maxNesting (signature start) Expr.skeleton
      (Definition (layer nesting).expression) (Ends 1) := by
  rintro ts e us ⟨hps, distinct, hb⟩ follows c hc hr
  rename_i ps us' b n
  refine .of_run (q := parameters n start >>= fun ps => expect .equals >>= fun _ =>
    expression >>= fun b => pure (.define n ps b start)) (d := c.advance.advance) ?_ ?_
  · simp only [signature, run_identifier_bind, hc, List.head?_cons, run_expect_bind,
      Cursor.tokens_advance, List.tail_cons, reduceIte]
  · refine (parameters_complete ⟨hps, distinct⟩ trivial c.advance.advance (by simp [hc]) hr).bind ?_
    rintro names d ⟨rfl, hd, depth⟩
    refine .of_run (q := expression >>= fun b => pure (.define n names b start)) (d := d.advance)
      (by simp only [run_expect_bind, hd, List.head?_cons, reduceIte]) ?_
    refine ((level_complete maxNesting nesting).2 hb follows d.advance (by simp [hd])
      (by simpa [depth] using hr)).bind ?_
    rintro x d' ⟨rfl, hd', depth'⟩
    exact .ok (run_pure _ _) ⟨rfl, hd', depth'.trans depth⟩

/-- The end of a list of parameters before an equals sign is found. -/
theorem closes_parameters (h : Enclosed .rightParen Identifier ts ps (.symbol .equals :: us))
    (ls : List Located) (hls : ls.map Located.token = ts) : closesBeforeEquals 1 ls = true := by
  have closes (ls : List Located)
      (h : ls.map Located.token = .symbol .rightParen :: .symbol .equals :: us) :
      closesBeforeEquals 1 ls = true := by
    obtain ⟨⟨_, o⟩, ls, rfl, rfl, tail⟩ := List.map_eq_cons_iff.mp h
    obtain ⟨⟨_, o'⟩, ls, rfl, rfl, -⟩ := List.map_eq_cons_iff.mp tail
    rfl
  cases h with
  | empty => exact closes ls hls
  | items h =>
    generalize hvs : Token.symbol .rightParen :: .symbol .equals :: us = vs at h
    induction h generalizing ls with
    | single h =>
      cases h
      obtain ⟨⟨_, o⟩, ls, rfl, rfl, tail⟩ := List.map_eq_cons_iff.mp hls
      exact closes ls (tail.trans hvs.symm)
    | more h _ ih =>
      cases h
      obtain ⟨⟨_, o⟩, ls, rfl, rfl, tail⟩ := List.map_eq_cons_iff.mp hls
      obtain ⟨⟨_, o'⟩, ls, rfl, rfl, tail'⟩ := List.map_eq_cons_iff.mp tail
      exact ih ls tail' hvs

theorem statement_complete :
    Complete (maxNesting < nesting) maxNesting statement Expr.skeleton
      (Statement (layer nesting).expression) (Ends 1) := by
  intro ts e us h follows c hc hr
  cases h with
  | @definition ts e us h =>
    refine .of_run (q := signature c.offset) (d := c) ?_ (signature_complete _ h follows c hc hr)
    cases h with
    | @define ps us ts b vs n hps =>
      obtain ⟨⟨_, o⟩, rest, hrest, rfl, tail⟩ := List.map_eq_cons_iff.mp hc
      obtain ⟨⟨_, o'⟩, rest, rfl, rfl, tail'⟩ := List.map_eq_cons_iff.mp tail
      have starts : startsDefinition c.rest = true := by
        rw [hrest]
        exact closes_parameters hps rest tail'
      rw [run_statement, if_pos starts, run_definition, hc]
      rfl
  | @function ts e us h =>
    refine .of_run (q := signature c.offset) (d := c.advance) ?_
      (signature_complete _ h follows c.advance (by simp [hc]) hr)
    obtain ⟨⟨_, o⟩, rest, hrest, rfl, tail⟩ := List.map_eq_cons_iff.mp hc
    have starts : startsDefinition c.rest = true := by
      rw [hrest]
      rfl
    rw [run_statement, if_pos starts, run_definition, hc]
    rfl
  | expression h =>
    have other : ¬startsDefinition c.rest = true := fun starts =>
      follows.head? (by decide) (expression_beforeEquals_definition nesting h ⟨_, hc, starts⟩)
    refine .of_run (q := expression) (d := c) ?_ ((level_complete _ _).2 h follows c hc hr)
    rw [run_statement, if_neg other]

theorem run_statements_nil (turns : List Located) (hc : c.tokens = []) :
    ∃ d, run (statements turns) c = (.ok [], d) := by
  have hrest : c.rest = [] := List.map_eq_nil_iff.mp hc
  cases turns with
  | nil => exact ⟨c, rfl⟩
  | cons t turns =>
    refine ⟨c, ?_⟩
    simp [statements, hrest, Cursor.tokens]
    rw [← hrest]

/-- A separator in front of the statements is skipped. -/
theorem run_statements_separator (turn : Located) (turns : List Located)
    (hc : c.tokens = t :: us) (ht : t ∈ separators) :
    run (statements (turn :: turns)) c = run (statements (turn :: turns)) c.advance := by
  obtain ⟨l, rest, hrest, rfl, -⟩ := List.map_eq_cons_iff.mp hc
  simp only [statements, run_skipSeparators_bind, Cursor.advance, hrest, List.tail_cons,
    List.dropWhile_cons_of_pos ((isSeparator_iff l).mpr ht)]

theorem run_statements_cons (turn : Located) (turns : List Located) (hc : c.tokens = t :: us)
    (ht : t ∉ separators) :
    run (statements (turn :: turns)) c = run (statement >>= fun first => endOfStatement >>= fun _ =>
      statements turns >>= fun others => pure (first :: others)) c := by
  obtain ⟨l, rest, hrest, rfl, -⟩ := List.map_eq_cons_iff.mp hc
  have other : ¬isSeparator l = true := fun h => ht ((isSeparator_iff l).mp h)
  have same : ({ c with rest := c.rest.dropWhile isSeparator } : Cursor) = c := by
    rw [hrest, List.dropWhile_cons_of_neg other, ← hrest]
  simp only [statements, run_skipSeparators_bind, same, run_peek_bind, hc, List.head?_cons]

/-- A statement and the ones behind it, which the reader finds with the turns that are left. -/
theorem statements_cons_complete (h : Statement (layer nesting).expression ts e us)
    (ended : ∀ t ∈ us.head?, t ∈ separators)
    (rest : ∀ turns d, us.length ≤ turns.length → d.tokens = us → d.depth = 0 →
      Yields (maxNesting < nesting) (statements turns) d fun xs _ => xs.map Expr.skeleton = es)
    (turns : List Located) (c : Cursor) (hc : c.tokens = ts) (hr : c.depth = 0)
    (enough : ts.length ≤ turns.length) :
    Yields (maxNesting < nesting) (statements turns) c
      fun xs _ => xs.map Expr.skeleton = e :: es := by
  have shorter := (Statement.regular (layer_regular nesting).2 h).length_lt
  have loose : ∀ t ∈ separators, t.binding < 1 := by decide
  have follows : Ends 1 us := fun t ht => loose t (ended t ht)
  obtain ⟨t, ts, rfl⟩ := List.exists_cons_of_length_pos (Nat.zero_lt_of_lt shorter)
  obtain ⟨turn, turns, rfl⟩ := List.exists_cons_of_length_pos (Nat.lt_of_lt_of_le (by simp) enough)
  have apart : t ∉ separators := fun ht =>
    Statement.not_end h (follows.head? (by decide)) ⟨t, ts, rfl, by simp [ends, ht]⟩
  refine .of_run (run_statements_cons turn turns hc apart)
    ((statement_complete h follows c hc (by simp [hr])).bind ?_)
  rintro x d ⟨rfl, hd, depth⟩
  refine .of_run (run_endOfStatement_bind (by simpa [hd] using ended)) ?_
  simp only [List.length_cons] at enough shorter
  refine (rest turns d (by omega) hd (depth.trans hr)).bind ?_
  rintro xs d' rfl
  exact .ok (run_pure _ _) rfl

/-- A separator in front takes no turn. -/
theorem statements_separator_complete (ht : t ∈ separators)
    (rest : ∀ turns d, us.length ≤ turns.length → d.tokens = us → d.depth = 0 →
      Yields shallow (statements turns) d Q)
    (turns : List Located) (c : Cursor) (hc : c.tokens = t :: us) (hr : c.depth = 0)
    (enough : (t :: us).length ≤ turns.length) : Yields shallow (statements turns) c Q := by
  obtain ⟨turn, turns, rfl⟩ := List.exists_cons_of_length_pos (Nat.lt_of_lt_of_le (by simp) enough)
  refine .of_run (run_statements_separator turn turns hc ht)
    (rest _ c.advance ?_ (by simp [hc]) hr)
  simp only [List.length_cons] at enough ⊢
  omega

/-- The turns suffice for the tokens ahead, so no statement is left out. -/
theorem statements_complete (h : Statements (Statement (layer nesting).expression) ts es)
    (turns : List Located) (c : Cursor) (enough : ts.length ≤ turns.length) (hc : c.tokens = ts)
    (hr : c.depth = 0) :
    Yields (maxNesting < nesting) (statements turns) c
      fun xs _ => xs.map Expr.skeleton = es := by
  induction h generalizing turns c with
  | none =>
    obtain ⟨d, hd⟩ := run_statements_nil turns hc
    exact .ok hd rfl
  | separator ht _ ih => exact statements_separator_complete ht ih turns c hc hr enough
  | last h =>
    refine statements_cons_complete h (by simp) (fun turns d _ hd _ => ?_) turns c hc hr enough
    obtain ⟨d', hd'⟩ := run_statements_nil turns hd
    exact .ok hd' rfl
  | next h ht _ ih =>
    refine statements_cons_complete h (by simpa using ht) (fun turns d enough hd hr => ?_) turns c
      hc hr enough
    exact statements_separator_complete ht ih turns d hd hr enough

def enblock (offset : Nat) : List Expr → Expr
  | [only] => only
  | several => .block several offset

/-- A program that derives with any nesting is read, unless it nests too deep. -/
theorem program_complete (h : Program nesting c.tokens t) (hr : c.depth = 0) :
    Yields (maxNesting < nesting) program c fun e _ => e.skeleton = t := by
  obtain ⟨es, h, rfl⟩ := h
  refine .of_run (q := statements c.rest >>= fun es => pure (enblock c.offset es)) (d := c) ?_ ?_
  · simp only [program, run_offset_bind, run_ahead_bind]
    congr 2
    funext es
    rcases es with _ | ⟨e, _ | ⟨e', es⟩⟩ <;> rfl
  · refine (statements_complete h c.rest c (by simp) rfl hr).bind ?_
    rintro xs d rfl
    rcases xs with _ | ⟨x, _ | ⟨y, xs⟩⟩ <;>
      exact .ok (run_pure _ _) (by simp [enblock, ofStatements, Expr.skeleton])

end

end Parse
end Reckon
