import Reckon.Failure
import Reckon.Proofs.Lexer.Laid
import Reckon.Proofs.Reader.Listing
import Reckon.Proofs.Reader.Outcome

/-! Where nodes and mistakes are located. Every node of a tree stands at a token that was read for it
and in the order of the source, and a mistake is located at the token that it names, or at the end. -/
namespace Reckon

namespace Parse

variable {ts : List Located}

/-- Items side by side are listed one after the other. -/
theorem Each.traced {Q : List Located → α → Prop} {nodes : α → List Expr}
    (each : ∀ us a, Q us a → Traced us (nodes a)) (h : Each Q us as) :
    Traced us (as.flatMap nodes) := by
  induction h with
  | nil => exact .nil _
  | item post _ ih => exact (each _ _ post).append ih
  | skip _ ih => exact ih.skip

theorem Each.nodes (h : Each Placed us es) : Traced us (es.flatMap Expr.nodes) :=
  h.traced fun _ _ placed => placed.2

def RowPlaced (us : List Located) (row : List Expr × Nat) : Prop :=
  ∃ t vs, us = t :: vs ∧ row.2 = t.offset ∧ Each Placed us row.1

theorem RowPlaced.items (h : RowPlaced us row) : Each Placed us row.1 := by
  obtain ⟨_, _, _, _, items⟩ := h
  exact items

theorem nodes_matrix (es : List Expr) (o : Nat) :
    (Expr.matrix es o).nodes = .matrix es o :: es.flatMap Expr.nodes := by
  rw [Expr.nodes, Expr.nodesAll_eq_flatMap]

theorem RowPlaced.placed (h : RowPlaced us row) : Placed us (.matrix row.1 row.2) := by
  obtain ⟨t, vs, rfl, here, items⟩ := h
  exact .parent (nodes_matrix _ _) rfl here items.nodes

def Continues (operand : Expr) (us : List Located) (e : Expr) : Prop :=
  ∀ vs, Placed vs operand → Placed (vs ++ us) e

theorem Continues.refl (e : Expr) : Continues e [] e := fun vs placed => by rwa [List.append_nil]

theorem Continues.trans (first : Continues e₁ us e₂) (second : Continues e₂ vs e₃) :
    Continues e₁ (us ++ vs) e₃ := fun ws placed => by
  rw [← List.append_assoc]
  exact second _ (first ws placed)

/-- An operand, and what continues it. -/
theorem reads_continued {operand : Parse Expr} {rest : List Located → Expr → Parse Expr}
    (first : Reads ts operand Placed) (more : ∀ turns e, Reads ts (rest turns e) (Continues e)) :
    Reads ts (do let e ← operand; rest (← ahead) e) Placed := fun c =>
  (first c).bind fun us e d _ placed => .ahead <|
    (more d.rest e d).mono fun _ _ _ _ continues => continues us placed

/-- A sign stands in front of its operand. -/
theorem sign_spec (h : sign? t? = some op) : (∃ t, t? = some t) ∧
    ∀ e o, (Expr.unary op e o).nodes = .unary op e o :: e.nodes ∧ (Expr.unary op e o).lead = none := by
  unfold sign? at h
  split at h
  all_goals first | contradiction | (cases h; exact ⟨⟨_, rfl⟩, fun _ _ => ⟨rfl, rfl⟩⟩)

section

variable {unary expression : Parse Expr}

section

variable (reads : Reads ts expression Placed)

include reads

theorem reads_rowElements (turns : List Located) :
    Reads ts (rowElements expression turns) fun us r => us ≠ [] ∧ Each Placed us r.1 := by
  induction turns with
  | nil => exact fun c => .missing _
  | cons t turns ih =>
    intro c
    refine .accept (fun o ls _ => ?_) fun _ => .accept (fun o ls _ => ?_) fun _ =>
      .accept (fun o ls _ => ?_) fun _ => .missing _
    · exact (reads _).bind fun us e d _ first => (ih d).map fun vs r _ _ others =>
        ⟨List.cons_ne_nil _ _, .skip (.item first others.2)⟩
    · exact .pure ⟨List.cons_ne_nil _ _, .nil⟩
    · exact .pure ⟨List.cons_ne_nil _ _, .nil⟩

theorem reads_matrixRow : Reads ts (matrixRow expression) fun us r => RowPlaced us r.1 := by
  intro c
  refine .offset <| (reads c).bind fun us e d past first => .ahead <|
    (reads_rowElements reads d.rest d).map fun vs r _ _ others => ?_
  obtain ⟨t, us, rfl⟩ := List.exists_cons_of_ne_nil first.1
  exact ⟨t, us ++ vs, rfl, Cursor.offset_of_rest past.rest, .item first others.2⟩

theorem reads_matrixRows (turns : List Located) :
    Reads ts (matrixRows expression turns) (Each RowPlaced) := by
  induction turns with
  | nil =>
    exact fun c => (reads_matrixRow reads c).bind fun us r d _ row => .pure (.item row .nil)
  | cons t turns ih =>
    intro c
    refine (reads_matrixRow reads c).bind fun us ⟨row, more⟩ d _ placed => ?_
    dsimp only
    split
    · exact (ih d).map fun vs rows _ _ others => .item placed others
    · exact .pure (.item placed .nil)

theorem reads_matrix : Reads ts (matrix expression) Placed := by
  intro c
  refine .offset <| .expect fun o ls here => .accept (fun _ _ _ => .pure ?_) fun _ => .ahead <|
    (reads_matrixRows reads _ _).bind fun us rows d _ placed => ?_
  · exact .leaf rfl rfl (Cursor.offset_of_rest here)
  · have parent {es : List Expr} (elements : Traced us (es.flatMap Expr.nodes)) :
        Placed (⟨.symbol .leftBracket, o⟩ :: us) (.matrix es c.offset) :=
      .parent (nodes_matrix _ _) rfl (Cursor.offset_of_rest here) elements.skip
    have several : Traced us ((rows.map fun row => Expr.matrix row.1 row.2).flatMap Expr.nodes) := by
      rw [List.flatMap_map]
      exact placed.traced fun _ _ row => row.placed.2
    split
    · rename_i elements _
      refine .pure ?_
      rw [List.append_nil]
      have single : Traced us ([(elements, _)].flatMap fun row => row.1.flatMap Expr.nodes) :=
        placed.traced fun _ _ row => row.items.nodes
      exact parent (by simpa using single)
    · refine .pure ?_
      rw [List.append_nil]
      exact parent several

theorem reads_primary : Reads ts (primary expression) Placed := by
  intro c
  have leaf {t : Token} {e : Expr} (next : c.peek = some t) (nodes : e.nodes = [e])
      (lead : e.lead = none) (here : e.offset = c.offset) :
      Meets ts (do advance; return e) c Placed := by
    obtain ⟨o, ls, ahead⟩ := Cursor.rest_of_peek next
    exact .advance ahead (.pure (.leaf nodes lead (here.trans (Cursor.offset_of_rest ahead))))
  refine .offset <| .peek ?_
  split
  · rename_i next
    exact leaf next rfl rfl rfl
  · rename_i next
    exact leaf next rfl rfl rfl
  · rename_i next
    exact leaf next rfl rfl rfl
  · rename_i name next
    obtain ⟨o, ls, ahead⟩ := Cursor.rest_of_peek next
    have here := Cursor.offset_of_rest ahead
    refine .advance ahead <| .accept (fun o' ls' _ => ?_) fun _ => .pure (.leaf rfl rfl here)
    refine (Reads.commaSeparated reads _ _).map fun us as d _ items => ?_
    refine .parent ?_ rfl here items.2.nodes.skip.skip
    rw [Expr.nodes, Expr.nodesAll_eq_flatMap]
  · rename_i next
    obtain ⟨o, ls, ahead⟩ := Cursor.rest_of_peek next
    refine .advance ahead <| (reads _).bind fun us e d _ placed => .expect fun o' ls' _ => .pure ?_
    refine ⟨List.cons_ne_nil _ _, placed.2.mono ?_⟩
    exact .trans (List.sublist_append_left ..) (List.sublist_cons_self ..)
  · exact reads_matrix reads c
  · exact .missing _

theorem reads_indices :
    Reads ts (indices expression) fun us is => us ≠ [] ∧ Each Placed us is := by
  intro c
  refine .peek ?_
  split
  · exact .missing _
  · exact Reads.commaSeparated reads _ c

theorem reads_postfixes (turns : List Located) (operand : Expr) :
    Reads ts (postfixes expression turns operand) (Continues operand) := by
  induction turns generalizing operand with
  | nil => exact fun c => .pure (.refl operand)
  | cons t turns ih =>
    intro c
    have mark {s : Symbol} {e : Expr} (next : c.peek = some (.symbol s))
        (nodes : e.nodes = operand.nodes ++ [e]) (lead : e.lead = some operand)
        (here : e.offset = c.offset) :
        Meets ts (do advance; postfixes expression turns e) c (Continues operand) := by
      obtain ⟨o, ls, ahead⟩ := Cursor.rest_of_peek next
      have first : Continues operand [⟨.symbol s, o⟩] e := fun ws placed =>
        placed.follow nodes lead (here.trans (Cursor.offset_of_rest ahead)) (.nil _)
      exact .advance ahead <| (ih e _).mono fun _ _ _ _ rest => first.trans rest
    refine .offset <| .peek ?_
    split
    · rename_i next
      exact mark next rfl rfl rfl
    · rename_i next
      exact mark next rfl rfl rfl
    · rename_i next
      obtain ⟨o, ls, ahead⟩ := Cursor.rest_of_peek next
      refine .advance ahead <| (reads_indices reads _).bind fun us is d _ items => ?_
      have first : Continues operand (⟨.symbol .leftBracket, o⟩ :: us) (.index operand is c.offset) :=
        fun ws placed => by
          refine placed.follow ?_ rfl (Cursor.offset_of_rest ahead) items.2.nodes.skip
          rw [Expr.nodes, Expr.nodesAll_eq_flatMap]
      exact (ih _ _).mono fun _ _ _ _ rest => first.trans rest
    · exact .pure (.refl operand)

theorem reads_postfixed : Reads ts (postfixed expression) Placed :=
  reads_continued (reads_primary reads) (reads_postfixes reads)

variable (reads_ : Reads ts unary Placed)

include reads_

theorem reads_power : Reads ts (power unary expression) Placed := by
  intro c
  refine (reads_postfixed reads c).bind fun us base d _ placed => .offset <|
    .accept (fun o ls here => ?_) fun _ => .pure (by rwa [List.append_nil])
  refine (reads_ _).map fun vs e _ _ exponent => ?_
  rw [Cursor.offset_of_rest here]
  exact placed.binary .pow exponent.2.skip

theorem reads_signed : Reads ts (signed unary expression) Placed := by
  intro c
  refine .peek ?_
  split
  · rename_i op sign
    obtain ⟨⟨t, next⟩, node⟩ := sign_spec sign
    obtain ⟨o, ls, ahead⟩ := Cursor.rest_of_peek next
    refine .offset <| .advance ahead <| (reads_ _).map fun us e _ _ operand => ?_
    obtain ⟨nodes, lead⟩ := node e c.offset
    exact .parent nodes lead (Cursor.offset_of_rest ahead) operand.2.skip
  · exact reads_power reads reads_ c

end

section

variable (reads : Reads ts unary Placed)

include reads

/-- An operator with its right operand continues the left one. -/
theorem meets_operator {rest : Expr → Parse Expr} (more : ∀ e, Reads ts (rest e) (Continues e))
    (next : c.peek = some t) (op : BinaryOperator) (left : Expr) :
    Meets ts (do advance; let right ← unary; rest (.binary op left right c.offset)) c
      (Continues left) := by
  obtain ⟨o, ls, ahead⟩ := Cursor.rest_of_peek next
  rw [Cursor.offset_of_rest ahead]
  refine .advance ahead <| (reads _).bind fun us right d _ placed => ?_
  have first : Continues left (⟨t, o⟩ :: us) (.binary op left right o) := fun ws placed_ =>
    placed_.binary op placed.2.skip
  exact (more _ d).mono fun _ _ _ _ rest => first.trans rest

theorem reads_factors (turns : List Located) (left : Expr) :
    Reads ts (factors unary turns left) (Continues left) := by
  induction turns generalizing left with
  | nil => exact fun c => .pure (.refl left)
  | cons t turns ih =>
    intro c
    refine .offset <| .peek ?_
    split
    · rename_i token next
      split
      · -- The product of adjacent factors stands where the second one starts.
        refine (reads c).bind fun us right d past placed => ?_
        obtain ⟨t, us, rfl⟩ := List.exists_cons_of_ne_nil placed.1
        rw [Cursor.offset_of_rest past.rest]
        have first : Continues left (t :: us) (.binary .mul left right t.offset) :=
          fun ws placed_ => placed_.binary .mul placed.2
        exact (ih _ d).mono fun _ _ _ _ rest => first.trans rest
      · split
        · rename_i op _
          split
          · exact meets_operator reads ih next op left
          · exact .pure (.refl left)
        · exact .pure (.refl left)
    · exact .pure (.refl left)

theorem reads_product : Reads ts (product unary) Placed := reads_continued reads (reads_factors reads)

theorem reads_chain (level : List BinaryOperator) (turns : List Located) (left : Expr) :
    Reads ts (chain unary level turns left) (Continues left) := by
  induction turns generalizing left with
  | nil => exact fun c => .pure (.refl left)
  | cons t turns ih =>
    intro c
    refine .peekOperator ?_
    split
    · rename_i op found
      obtain ⟨t, next, -⟩ := Option.bind_eq_some_iff.mp found
      split
      · exact .offset (meets_operator reads ih next op left)
      · exact .pure (.refl left)
    · exact .pure (.refl left)

theorem reads_leftAssociative (level : List BinaryOperator) :
    Reads ts (leftAssociative unary level) Placed :=
  reads_continued reads (reads_chain reads level)

theorem reads_conversion : Reads ts (conversion unary) Placed :=
  reads_leftAssociative (reads_leftAssociative (reads_product reads) _) _

theorem reads_comparison : Reads ts (comparison unary) Placed := by
  intro c
  refine (reads_conversion reads c).bind fun us left d _ placed => .peekComparison ?_
  split
  · rename_i op found
    obtain ⟨found, -⟩ := Option.filter_eq_some_iff.mp found
    obtain ⟨t, next, -⟩ := Option.bind_eq_some_iff.mp found
    obtain ⟨o, ls, ahead⟩ := Cursor.rest_of_peek next
    refine .offset <| .advance ahead <| (reads_conversion reads _).bind fun vs right d' _ right_ =>
      .peekComparison ?_
    split
    · rename_i again
      obtain ⟨op', again⟩ := Option.isSome_iff_exists.mp again
      obtain ⟨found', comparison⟩ := Option.filter_eq_some_iff.mp again
      obtain ⟨t', next', operator⟩ := Option.bind_eq_some_iff.mp found'
      obtain ⟨o', ls', ahead'⟩ := Cursor.rest_of_peek next'
      refine .offset (meets_of_error rfl (.refl d') fun within =>
        ⟨t', op', ?_, operator, comparison⟩)
      rw [Cursor.offset_of_rest ahead']
      exact within (ahead' ▸ List.mem_cons_self)
    · refine .pure ?_
      rw [List.append_nil, Cursor.offset_of_rest ahead]
      exact placed.binary op right_.2.skip
  · exact .pure (by rwa [List.append_nil])

theorem reads_disjunction : Reads ts (disjunction unary) Placed :=
  reads_leftAssociative (reads_leftAssociative (reads_leftAssociative (reads_comparison reads) _) _) _

end

theorem reads_assignment {value otherwise : Parse Expr} (assigned : Reads ts value Placed)
    (other : Reads ts otherwise Placed) : Reads ts (assignment value otherwise) Placed := by
  intro c
  have run := run_assignment value otherwise c
  split at run
  · rename_i name o o' ls ahead
    have behind : c.advance.rest = ⟨.symbol .equals, o'⟩ :: ls := by rw [Cursor.advance, ahead]; rfl
    refine meets_of_run run (.refl c) <| .advance ahead <| .advance behind <|
      (assigned _).map fun us e _ _ placed => ?_
    exact .parent rfl rfl rfl (placed.2.mono (.cons _ (List.sublist_cons_self ..)))
  · exact meets_of_run run (.refl c) (other c)

/-- The readers of one depth of nesting. -/
theorem reads_level (room : Nat) :
    Reads ts (level room).unary Placed ∧ Reads ts (level room).expression Placed := by
  have tooDeep : Reads ts (tooDeep : Parse Expr) Placed := fun c => .tooDeep
  -- With no room left both readers stop at once; with more, each reads what the room below allows.
  induction room with
  | zero => exact ⟨tooDeep, reads_assignment tooDeep (reads_disjunction tooDeep)⟩
  | succ room ih =>
    have unary := (reads_signed ih.2 ih.1).nested
    exact ⟨unary, reads_assignment ih.2.nested (reads_disjunction unary)⟩

theorem reads_expression : Reads ts Parse.expression Placed := (reads_level maxNesting).2

/-- A mistake in the list of a definition is located where the definition starts. -/
theorem reads_parameters (name : String) (here : start ∈ ts.map Located.offset) :
    Reads ts (parameters name start) fun us _ => us ≠ [] := by
  intro c within
  obtain ⟨us, past, post⟩ := Reads.commaSeparated Reads.identifier .rightParen c within
  rw [run_parameters]
  rcases h : run (commaSeparated identifier .rightParen) c with ⟨m | names, d⟩ <;>
    rw [h] at past post
  · cases m with
    | missing => exact ⟨us, past, here, post⟩
    | _ => exact ⟨us, past, post⟩
  · dsimp only
    split
    · exact ⟨us, past, here, trivial⟩
    · exact ⟨us, past, post.1⟩

/-- A tree whose node stands in front of its children, at an offset that is known. -/
def Heads (start : Nat) (us : List Located) (e : Expr) : Prop :=
  ∃ ns, e.nodes = e :: ns ∧ e.lead = none ∧ e.offset = start ∧ Traced us ns

theorem Heads.placed (h : Heads start us e) (first : start = t.offset)
    (fewer : us.Sublist (t :: vs)) : Placed (t :: vs) e := by
  obtain ⟨ns, nodes, lead, rfl, traced⟩ := h
  exact .parent nodes lead first (traced.mono fewer)

theorem meets_signature (here : c.rest ≠ [] → start ∈ ts.map Located.offset) :
    Meets ts (signature start) c fun us e => us ≠ [] ∧ Heads start us e := by
  refine (Reads.identifier c).bind fun us name d past some_ => .expect fun o ls _ =>
    (reads_parameters name (here (by simp [past.rest, some_])) _).bind fun vs names d' _ _ =>
    .expect fun o' ls' _ => (reads_expression _).map fun ws e _ _ body => ?_
  exact ⟨by simp, _, rfl, rfl, rfl, body.2.mono <|
    (List.sublist_cons_of_sublist _ (List.sublist_append_of_sublist_right
      (List.sublist_cons_self ..))).trans (List.sublist_append_right us _)⟩

/-- A definition is located at its first token, which may be its keyword. -/
theorem reads_definition : Reads ts definition Placed := by
  intro c within
  have known (some_ : c.rest ≠ []) : c.offset ∈ ts.map Located.offset := by
    obtain ⟨l, ls, ahead⟩ := List.exists_cons_of_ne_nil some_
    rw [Cursor.offset_of_rest ahead]
    exact List.mem_map_of_mem (within (ahead ▸ List.mem_cons_self))
  refine Meets.offset (.accept (fun o ls ahead => ?_) fun _ => ?_) within
  · exact (meets_signature fun _ => known (by simp [ahead])).mono fun us e _ _ heads =>
      heads.2.placed (Cursor.offset_of_rest ahead) (List.sublist_cons_self ..)
  · refine (meets_signature known).mono fun us e d past heads => ?_
    obtain ⟨t, us, rfl⟩ := List.exists_cons_of_ne_nil heads.1
    exact heads.2.placed (Cursor.offset_of_rest past.rest) (.refl _)

theorem reads_statement : Reads ts statement Placed := by
  intro c within
  rw [run_statement]
  split
  · exact reads_definition c within
  · exact reads_expression c within

theorem reads_endOfStatement : Reads ts endOfStatement fun us _ => us = [] := by
  intro c within
  rw [run_endOfStatement]
  split
  · exact ⟨[], .refl c, rfl⟩
  · rename_i next rest ahead
    split
    · exact ⟨[], .refl c, rfl⟩
    · exact ⟨[], .refl c, within (ahead ▸ List.mem_cons_self)⟩

theorem reads_skipSeparators : Reads ts skipSeparators fun _ _ => True := by
  intro c _
  exact ⟨c.rest.takeWhile isSeparator, ⟨List.takeWhile_append_dropWhile.symm, rfl, rfl⟩, trivial⟩

theorem reads_statements (turns : List Located) : Reads ts (statements turns) (Each Placed) := by
  induction turns with
  | nil => exact fun c => .pure .nil
  | cons t turns ih =>
    intro c
    refine (reads_skipSeparators c).bind fun us _ d _ _ => .peek ?_
    split
    · exact .pure .nil
    · refine (reads_statement d).bind fun vs e d' _ placed =>
        (reads_endOfStatement d').bind fun ws _ d'' _ ended => (ih d'').map fun xs es _ _ others => ?_
      subst ended
      exact .skips us (.item placed others)

/-- Tokens without an item hold no items. -/
theorem Each.eq_nil (h : Each Placed [] es) : es = [] := by
  generalize none : ([] : List Located) = us at h
  cases h with
  | nil => rfl
  | item placed => exact absurd (List.append_eq_nil_iff.mp none.symm).1 placed.1
  | skip => cases none

/-- A program is located at its first token, which may be a separator, or at the end. -/
theorem meets_program (c : Cursor) : Meets ts program c fun _ e =>
    (c.rest = [] → e = .block [] c.stop) ∧ (c.rest ≠ [] → Traced c.rest e.nodes) := by
  refine .offset <| .ahead <| (reads_statements c.rest c).bind fun us es d past items => ?_
  have whole : Traced c.rest (es.flatMap Expr.nodes) :=
    items.nodes.mono (past.rest ▸ List.sublist_append_left us d.rest)
  cases ahead : c.rest with
  | nil =>
    obtain rfl : us = [] := (List.append_eq_nil_iff.mp (past.rest.symm.trans ahead)).1
    obtain rfl := items.eq_nil
    have stop : c.offset = c.stop := by rw [Cursor.offset, ahead]
    exact .pure ⟨fun _ => by rw [stop], fun some_ => absurd rfl some_⟩
  | cons t ls =>
    rw [ahead] at whole
    split
    · exact .pure ⟨fun none => absurd none (List.cons_ne_nil t ls), fun _ => by simpa using whole⟩
    · refine .pure ⟨fun none => absurd none (List.cons_ne_nil t ls), fun _ => ?_⟩
      have placed : Placed (t :: ls) (.block es c.offset) :=
        .parent (by rw [Expr.nodes, Expr.nodesAll_eq_flatMap]) rfl (Cursor.offset_of_rest ahead) whole
      exact placed.2

end

end Parse

/-- When a source has tokens and cannot be read, the mistake is about one of the tokens, which stands
where the mistake says, or about the end. When it can be read, every node is located at a token,
unless there are none, in the order in which the source lists the nodes; what an operator follows is
entirely in front of it. -/
theorem Expr.read_locations {source : String} (tokens : tokenize source = .ok ls) :
    (∀ m, Expr.read source = .error (.malformed m) → m.Occurs ls source.utf8ByteSize ∧
      (m.offset ∈ ls.map Located.offset ∨ m.offset = source.utf8ByteSize)) ∧
    (∀ e, Expr.read source = .ok e →
      (ls = [] → e = .block [] source.utf8ByteSize) ∧
      (ls ≠ [] → ∀ n ∈ e.nodes, n.offset ∈ ls.map Located.offset) ∧
      (e.nodes.map Expr.offset).Pairwise (· ≤ ·) ∧ ∀ n ∈ e.nodes, n.Follows) := by
  have sorted : Sorted ls := (Lexer.laid_of_scan tokens).offsets.2
  obtain ⟨us, -, post⟩ :=
    Parse.meets_program (Cursor.ofTokens ls source.utf8ByteSize) (List.Subset.refl ls)
  have read : Expr.read source =
      (Parse.run Parse.program (Cursor.ofTokens ls source.utf8ByteSize)).1.mapError .malformed := by
    rw [read_of_tokens tokens]
    rfl
  cases outcome : (Parse.run Parse.program (Cursor.ofTokens ls source.utf8ByteSize)).1 with
  | error m =>
    rw [outcome] at read post
    have read : Expr.read source = .error (.malformed m) := read
    refine ⟨fun m' failed => ?_, fun e made => ?_⟩
    · cases read.symm.trans failed
      exact ⟨post, post.offset⟩
    · cases read.symm.trans made
  | ok e =>
    rw [outcome] at read post
    have read : Expr.read source = .ok e := read
    refine ⟨fun m failed => ?_, fun e' made => ?_⟩
    · cases read.symm.trans failed
    · cases read.symm.trans made
      obtain ⟨empty, traced⟩ := post
      by_cases none : ls = []
      · obtain rfl := empty none
        exact ⟨fun _ => rfl, fun some_ => absurd none some_, by simp [Expr.nodes],
          by simp [Expr.nodes, Expr.Follows, Expr.lead]⟩
      · obtain ⟨⟨located, ordered⟩, follows⟩ := traced none sorted
        exact ⟨fun empty => absurd empty none, fun _ => located, ordered, follows⟩

/-- Two rows, which are located at their first elements, with a product of adjacent factors in one. -/
theorem Expr.read_locations_rows :
    let ls : List Located := [⟨.symbol .leftBracket, 0⟩, ⟨.number "2", 1⟩, ⟨.identifier "a", 3⟩,
      ⟨.symbol .semicolon, 4⟩, ⟨.identifier "b", 6⟩, ⟨.symbol .apostrophe, 7⟩,
      ⟨.symbol .rightBracket, 8⟩]
    tokenize "[2 a; b']" = .ok ls ∧ ∃ e, Expr.read "[2 a; b']" = .ok e ∧
      e.nodes.map Expr.offset = [0, 1, 1, 3, 3, 6, 6, 7] ∧
      (∀ n ∈ e.nodes, n.offset ∈ ls.map Located.offset) ∧ ∀ n ∈ e.nodes, n.Follows := by
  intro ls
  have tokens : tokenize "[2 a; b']" = .ok ls := by with_unfolding_all rfl
  have read : Expr.read "[2 a; b']" = .ok (.matrix [
      .matrix [.binary .mul (.literal (.number "2") 1) (.name "a" 3) 3] 1,
      .matrix [.unary .transpose (.name "b" 6) 7] 6] 0) := by
    rw [read_of_tokens tokens]
    rfl
  obtain ⟨-, located, -, follows⟩ := (read_locations tokens).2 _ read
  exact ⟨tokens, _, read, by simp [nodes, offset], located (List.cons_ne_nil _ _), follows⟩

end Reckon
