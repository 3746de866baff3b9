import Reckon.Proofs.Reader.Locations

/-! The loops of the readers. A turn that goes on takes a token, so a loop that has a turn for each
token ahead comes to its own end, and further turns are never used. -/
namespace Reckon.Parse

def AlikeWithin (n : Nat) (p q : Parse α) : Prop :=
  ∀ c : Cursor, c.rest.length ≤ n → run p c = run q c

def Takes (p : Parse α) : Prop :=
  ∀ ⦃c a d⦄, run p c = (.ok a, d) → d.rest.length < c.rest.length

/-- A loop that ends by itself once it has a turn for each token ahead. -/
def Halts (loop : List Located → Parse α) : Prop :=
  ∀ (c : Cursor) turns, c.rest.length ≤ turns.length → run (loop turns) c = run (loop c.rest) c

section

variable {n : Nat} {c : Cursor} {α β : Type} {p q : Parse α} {f g : α → Parse β}

theorem taken_of_reads {Q : List Located → α → Prop} (reads : ∀ ts, Reads ts p Q)
    (made : run p c = (.ok a, d)) :
    ∃ us, Q us a ∧ c.rest.length = us.length + d.rest.length := by
  obtain ⟨us, past, post⟩ := reads c.rest c (List.Subset.refl _)
  rw [made] at past post
  exact ⟨us, post, by rw [past.rest, List.length_append]⟩

theorem kept_of_reads {Q : List Located → α → Prop} (reads : ∀ ts, Reads ts p Q)
    (made : run p c = (.ok a, d)) : d.rest.length ≤ c.rest.length := by
  obtain ⟨us, -, taken⟩ := taken_of_reads reads made
  exact taken ▸ Nat.le_add_left _ _

theorem takes_of_reads {Q : List Located → α → Prop} (reads : ∀ ts, Reads ts p Q)
    (some_ : ∀ us a, Q us a → us ≠ []) : Takes p := by
  intro c a d made
  obtain ⟨us, post, taken⟩ := taken_of_reads reads made
  exact taken ▸ Nat.lt_add_of_pos_left (List.length_pos_iff.mpr (some_ us a post))

theorem Takes.le (takes : Takes p) (made : run p c = (.ok a, d)) :
    d.rest.length ≤ c.rest.length :=
  (takes made).le

namespace AlikeWithin

theorem refl (p : Parse α) : AlikeWithin n p p := fun _ _ => rfl

theorem bind (kept : ∀ {c a d}, run p c = (.ok a, d) → d.rest.length ≤ c.rest.length)
    (next : ∀ a, AlikeWithin n (f a) (g a)) : AlikeWithin n (p >>= f) (p >>= g) := by
  intro c within
  rw [run_bind, run_bind]
  rcases made : run p c with ⟨_ | a, d⟩
  · rfl
  · exact next a d ((kept made).trans within)

theorem bind_same (first : AlikeWithin n p q) : AlikeWithin n (p >>= f) (q >>= f) := by
  intro c within
  rw [run_bind, run_bind, first c within]

/-- Behind a reader that takes a token there is one less ahead. -/
theorem bind_takes (takes : Takes p) (next : ∀ a, AlikeWithin n (f a) (g a)) :
    AlikeWithin (n + 1) (p >>= f) (p >>= g) := by
  intro c within
  rw [run_bind, run_bind]
  rcases made : run p c with ⟨_ | a, d⟩
  · rfl
  · exact next a d (by have := takes made; omega)

theorem peek {f g : Option Token → Parse β} (next : ∀ t, AlikeWithin n (f t) (g t)) :
    AlikeWithin n (peek >>= f) (peek >>= g) := by
  intro c within
  rw [run_peek_bind, run_peek_bind]
  exact next _ c within

theorem peekOperator {f g : Option BinaryOperator → Parse β}
    (next : ∀ op, AlikeWithin n (f op) (g op)) :
    AlikeWithin n (peekOperator >>= f) (peekOperator >>= g) := by
  intro c within
  rw [run_peekOperator_bind, run_peekOperator_bind]
  exact next _ c within

theorem offset {f g : Nat → Parse β} (next : ∀ o, AlikeWithin n (f o) (g o)) :
    AlikeWithin n (offset >>= f) (offset >>= g) := by
  intro c within
  rw [run_offset_bind, run_offset_bind]
  exact next _ c within

theorem advance {f g : Unit → Parse β} (next : AlikeWithin n (f ()) (g ())) :
    AlikeWithin (n + 1) (advance >>= f) (advance >>= g) := by
  intro c within
  rw [run_advance_bind, run_advance_bind]
  refine next _ ?_
  rw [Cursor.advance, List.length_tail]
  omega

theorem accept {s : Symbol} {f g : Bool → Parse β} (taken : AlikeWithin n (f true) (g true))
    (other : AlikeWithin (n + 1) (f false) (g false)) :
    AlikeWithin (n + 1) (accept s >>= f) (accept s >>= g) := by
  intro c within
  rw [run_accept_bind, run_accept_bind]
  split
  · refine taken _ ?_
    rw [Cursor.advance, List.length_tail]
    omega
  · exact other c within

end AlikeWithin

/-- A loop that stops where the tokens end, and whose turns take a token before they go on, ends. -/
theorem halts_of_turns {L : List Located → σ → Parse α}
    (stops : ∀ c s t turns, c.rest = [] → run (L (t :: turns) s) c = run (L [] s) c)
    (turn : ∀ n t t' turns turns', (∀ s, AlikeWithin n (L turns s) (L turns' s)) →
      ∀ s, AlikeWithin (n + 1) (L (t :: turns) s) (L (t' :: turns') s)) (s : σ) :
    Halts fun turns => L turns s := by
  have stopped {c : Cursor} (none : c.rest = []) (turns s) :
      run (L turns s) c = run (L [] s) c := by
    cases turns with
    | nil => rfl
    | cons t turns => exact stops c s t turns none
  have alike (n : Nat) : ∀ turns turns' s, n ≤ turns.length → n ≤ turns'.length →
      AlikeWithin n (L turns s) (L turns' s) := by
    induction n with
    | zero =>
      intro turns turns' s _ _ c within
      have none : c.rest = [] := List.length_eq_zero_iff.mp (Nat.le_zero.mp within)
      exact (stopped none turns s).trans (stopped none turns' s).symm
    | succ n ih =>
      intro turns turns' s enough enough'
      cases turns with
      | nil => exact absurd enough (Nat.not_succ_le_zero n)
      | cons t turns =>
        cases turns' with
        | nil => exact absurd enough' (Nat.not_succ_le_zero n)
        | cons t' turns' =>
          exact turn n t t' turns turns' (fun s => ih turns turns' s (Nat.le_of_succ_le_succ enough)
            (Nat.le_of_succ_le_succ enough')) s
  exact fun c turns enough => alike c.rest.length turns c.rest s enough le_rfl c le_rfl

theorem halts_chain {operand : Parse Expr} (takes : Takes operand) (level : List BinaryOperator)
    (left : Expr) : Halts fun turns => chain operand level turns left := by
  refine halts_of_turns (L := chain operand level) (fun c left t turns none => ?_)
    (fun n t t' turns turns' more left => ?_) left
  · simp [chain, Cursor.tokens, none]
  · refine .peekOperator fun op => ?_
    cases op with
    | none => exact .refl _
    | some op =>
      dsimp only
      split
      · exact .offset fun o => .advance (.bind takes.le fun right => more _)
      · exact .refl _

theorem halts_factors {unary : Parse Expr} (takes : Takes unary) (left : Expr) :
    Halts fun turns => factors unary turns left := by
  refine halts_of_turns (L := factors unary) (fun c left t turns none => ?_)
    (fun n t t' turns turns' more left => ?_) left
  · simp [factors, Cursor.tokens, none]
  · refine .offset fun o => .peek fun token => ?_
    cases token with
    | none => exact .refl _
    | some token =>
      dsimp only
      split
      · exact .bind_takes takes fun right => more _
      · split
        · split
          · exact .advance (.bind takes.le fun right => more _)
          · exact .refl _
        · exact .refl _

theorem takes_indices {expression : Parse Expr} (reads : ∀ ts, Reads ts expression Placed) :
    Takes (indices expression) :=
  takes_of_reads (fun ts => reads_indices (reads ts)) fun _ _ post => post.1

theorem halts_postfixes {expression : Parse Expr} (reads : ∀ ts, Reads ts expression Placed)
    (operand : Expr) : Halts fun turns => postfixes expression turns operand := by
  refine halts_of_turns (L := postfixes expression) (fun c operand t turns none => ?_)
    (fun n t t' turns turns' more operand => ?_) operand
  · simp [postfixes, Cursor.tokens, none]
  · refine .offset fun o => .peek fun token => ?_
    split
    · exact .advance (more _)
    · exact .advance (more _)
    · exact .advance (.bind (takes_indices reads).le fun is => more _)
    · exact .refl _

/-- Such a loop may have no operand to continue. -/
theorem halts_of_plain_turns {L : List Located → Parse α}
    (stops : ∀ c t turns, c.rest = [] → run (L (t :: turns)) c = run (L []) c)
    (turn : ∀ n t t' turns turns', AlikeWithin n (L turns) (L turns') →
      AlikeWithin (n + 1) (L (t :: turns)) (L (t' :: turns'))) : Halts L :=
  halts_of_turns (L := fun turns (_ : Unit) => L turns) (fun c _ => stops c)
    (fun n t t' turns turns' more _ => turn n t t' turns turns' (more ())) ()

theorem halts_commaItems {item : Parse α} (takes : Takes item) (closing : Symbol) :
    Halts (commaItems item closing) := by
  refine halts_of_plain_turns (fun c t turns none => ?_) fun n t t' turns turns' more => ?_
  · simp [commaItems, Cursor.tokens, none]
  · exact .accept (.bind takes.le fun next => .bind_same more) (.refl _)

theorem halts_rowElements {expression : Parse Expr} (takes : Takes expression) :
    Halts (rowElements expression) := by
  refine halts_of_plain_turns (fun c t turns none => ?_) fun n t t' turns turns' more => ?_
  · simp [rowElements, Cursor.tokens, none]
  · exact .accept (.bind takes.le fun next => .bind_same more) (.refl _)

/-- A row has an element, so there is none where the tokens end. -/
theorem halts_matrixRows {expression : Parse Expr} (reads : ∀ ts, Reads ts expression Placed) :
    Halts (matrixRows expression) := by
  have takes : Takes (matrixRow expression) :=
    takes_of_reads (fun ts => reads_matrixRow (reads ts)) fun us row placed => by
      obtain ⟨t, vs, rfl, -⟩ := placed
      exact List.cons_ne_nil t vs
  refine halts_of_plain_turns (fun c t turns none => ?_) fun n t t' turns turns' more => ?_
  · rcases made : run (matrixRow expression) c with ⟨e | row, d⟩
    · rw [matrixRows, matrixRows, run_bind_of_error made, run_bind_of_error made]
    · have := takes made
      simp [none] at this
  · refine .bind_takes takes fun row => ?_
    dsimp only
    split
    · exact .bind_same more
    · exact .refl _

theorem halts_statements : Halts statements := by
  have takes : Takes statement :=
    takes_of_reads (fun _ => reads_statement) fun _ _ placed => placed.1
  refine halts_of_plain_turns (fun c t turns none => ?_) fun n t t' turns turns' more => ?_
  · obtain ⟨rest, depth, stop⟩ := c
    obtain rfl : rest = [] := none
    rfl
  · refine .bind (kept_of_reads fun _ => reads_skipSeparators) fun _ => .peek fun token => ?_
    cases token with
    | none => exact .refl _
    | some token =>
      exact .bind_takes takes fun first =>
        .bind (kept_of_reads fun _ => reads_endOfStatement) fun _ => .bind_same more

end

end Reckon.Parse
