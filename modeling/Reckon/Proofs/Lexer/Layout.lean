import Reckon.Proofs.Lexer.Mistake
import Reckon.Proofs.Reader.Relocation

/-! Text between tokens. Blanks and comments may be put in front of a token, behind one or at the end of
the source: the tokens stay, and those behind the new text move by its length. -/
namespace Reckon.Lexer

theorem chars_of_pattern (h : Pattern t text) : chars t = text := by
  cases h <;> simp [chars]

/-- Every token stands in its source with its characters, at its offset. -/
theorem Laid.locate (h : Laid start cs ls) (member : l ∈ ls) :
    ∃ front back, cs = front ++ (chars l.token ++ back) ∧ start + bytes front = l.offset := by
  induction h with
  | done => contradiction
  | @space c start cs ls _ _ ih =>
    obtain ⟨front, back, rfl, place⟩ := ih member
    exact ⟨c :: front, back, rfl, by rw [bytes, ← Nat.add_assoc, place]⟩
  | @comment text start rest ls _ _ _ ih =>
    obtain ⟨front, back, rfl, place⟩ := ih member
    exact ⟨'#' :: text ++ front, back, by simp, by rw [bytes_append, ← Nat.add_assoc, place]⟩
  | @token t text rest start ls munch _ ih =>
    rcases List.mem_cons.mp member with rfl | later
    · exact ⟨[], rest, by rw [chars_of_pattern munch.pattern]; rfl, rfl⟩
    · obtain ⟨front, back, rfl, place⟩ := ih later
      exact ⟨text ++ front, back, by simp, by rw [bytes_append, ← Nat.add_assoc, place]⟩

/-- Text that may stand in front of the rest of a source: blanks, or a comment up to a line break or the
end. -/
inductive Gap (rest : List Char) : List Char → Prop
  | blanks : (∀ c ∈ gap, isSpace c = true) → Gap rest gap
  | comment : '\n' ∉ text → (∀ c ∈ rest.head?, c = '\n') → Gap rest ('#' :: text)

theorem Gap.loose (h : Gap rest (c :: gap)) : Loose (c :: more) := by
  apply Loose.cons
  cases h with
  | blanks all =>
    have space := all c List.mem_cons_self
    have plain : c = ' ' ∨ c = '\t' ∨ c = '\r' ∨ c = '\x0c' := by
      simpa [isSpace, or_assoc] using space
    rcases plain with rfl | rfl | rfl | rfl <;> decide
  | comment => decide

/-- A gap continues a comment before it. -/
theorem Gap.one_line (h : Gap rest gap) : '\n' ∉ gap := by
  cases h with
  | blanks all => exact fun line => absurd (all _ line) (by decide)
  | comment line => simp [line]

def shift (place width : Nat) (o : Nat) : Nat := if o < place then o else o + width

theorem Laid.shift (h : Laid start cs ls) (width : Nat) :
    Laid (start + width) cs (ls.map (Located.relocate (· + width))) := by
  induction h with
  | done => exact .done
  | space space _ ih => exact .space space (by rwa [Nat.add_right_comm])
  | comment line ends _ ih => exact .comment line ends (by rwa [Nat.add_right_comm])
  | token munch _ ih => exact .token munch (by rwa [Nat.add_right_comm])

theorem Laid.gap (gap : Gap cs w) (h : Laid (start + bytes w) cs ls) : Laid start (w ++ cs) ls := by
  cases gap with
  | blanks all => exact h.spaces all
  | comment line ends => exact .comment line ends h

/-- The move at the front moves all tokens. -/
theorem Laid.shift_front (h : Laid start cs ls) (width : Nat) :
    Laid (start + width) cs (ls.map (Located.relocate (Lexer.shift start width))) := by
  have moved : ls.map (Located.relocate (Lexer.shift start width)) =
      ls.map (Located.relocate (· + width)) := by
    refine List.map_congr_left fun l member => ?_
    have behind := h.offsets.1 l member
    simp [Located.relocate, Lexer.shift, Nat.not_lt.mpr behind]
  rw [moved]
  exact h.shift width

theorem Laid.insert_front (h : Laid start cs ls) (gap : Gap cs w) :
    Laid start (w ++ cs) (ls.map (Located.relocate (Lexer.shift start (bytes w)))) :=
  (h.shift_front (bytes w)).gap gap

/-- A token stays the longest match when a gap is put somewhere behind it. -/
theorem Munch.insert (h : Munch t text (front ++ back)) (gap : Gap back w) :
    Munch t text (front ++ (w ++ back)) := by
  cases w with
  | nil => exact h
  | cons c w =>
    obtain ⟨d, r, rfl⟩ := List.exists_cons_of_ne_nil h.pattern.ne_nil
    have piece := lexeme_of_munch h.cut rfl
    exact lexeme_munch (lexeme_extend gap.loose piece)

inductive Between (ls : List Located) (place : Nat) (back : List Char) : Prop
  | before : l ∈ ls → place = l.offset → Between ls place back
  | after : l ∈ ls → place = l.offset + bytes (chars l.token) → Between ls place back
  | ended : back = [] → Between ls place back

/-- A place that is neither in front of the first token nor behind it is between the others. -/
theorem Between.tail (h : Between (l :: ls) place back) (before : place ≠ l.offset)
    (after : place ≠ l.offset + bytes (chars l.token)) : Between ls place back := by
  cases h with
  | before member at_ =>
    rcases List.mem_cons.mp member with rfl | later
    · exact absurd at_ before
    · exact .before later at_
  | after member at_ =>
    rcases List.mem_cons.mp member with rfl | later
    · exact absurd at_ after
    · exact .after later at_
  | ended none => exact .ended none

/-- A place between tokens is not inside of a text in front of them. -/
theorem Between.outside (between : Between ls place (inside ++ rest)) (some_ : inside ≠ [])
    (later : ∀ l ∈ ls, place < l.offset) : False := by
  cases between with
  | before member at_ | after member at_ =>
    have := later _ member
    omega
  | ended none => exact some_ (List.append_eq_nil_iff.mp none).1

/-- Further behind a token a place is between the tokens that follow. -/
theorem Between.behind_token (munch : Munch t text rest)
    (h : Between (⟨t, start⟩ :: ls) (start + bytes (text ++ behind)) back) :
    behind = [] ∨ Between ls (start + bytes text + bytes behind) back := by
  rw [bytes_append, ← Nat.add_assoc] at h
  have width := bytes_pos munch.pattern.ne_nil
  rcases behind with _ | ⟨c, behind⟩
  · exact .inl rfl
  · have more := bytes_pos (List.cons_ne_nil c behind)
    refine .inr (h.tail ?_ ?_)
    · change _ ≠ start
      omega
    · change _ ≠ start + bytes (chars t)
      rw [chars_of_pattern munch.pattern]
      omega

/-- A text is cut behind its first part, or inside of it. -/
theorem append_split {front : List Char} (whole : front ++ back = text ++ rest) :
    (∃ behind, front = text ++ behind ∧ rest = behind ++ back) ∨
    ∃ inside, inside ≠ [] ∧ text = front ++ inside ∧ back = inside ++ rest := by
  rcases List.append_eq_append_iff.mp whole with ⟨inside, rfl, rfl⟩ | ⟨behind, rfl, rfl⟩
  · cases inside with
    | nil => exact .inl ⟨[], by simp, rfl⟩
    | cons c inside => exact .inr ⟨c :: inside, nofun, rfl, rfl⟩
  · exact .inl ⟨behind, rfl, rfl⟩

/-- A gap between tokens moves the ones behind it. -/
theorem Laid.insert (h : Laid start (front ++ back) ls) (gap : Gap back w)
    (between : front = [] ∨ Between ls (start + bytes front) back) :
    Laid start (front ++ (w ++ back))
      (ls.map (Located.relocate (Lexer.shift (start + bytes front) (bytes w)))) := by
  -- The place is found by going through the source. With nothing more in front of it, all that is left
  -- moves; until then it is not inside of what is passed over.
  generalize whole : front ++ back = cs at h
  induction h generalizing front with
  | done =>
    obtain ⟨rfl, rfl⟩ := List.append_eq_nil_iff.mp whole
    exact insert_front .done gap
  | @space c start cs ls space laid ih =>
    rcases front with _ | ⟨d, front⟩
    · subst whole
      exact insert_front (.space space laid) gap
    obtain ⟨rfl, tail⟩ := List.cons.inj whole
    have between := between.resolve_left (List.cons_ne_nil d front)
    rw [bytes, ← Nat.add_assoc] at between ⊢
    exact .space space (ih (.inr between) tail)
  | @comment text start rest ls line ends laid ih =>
    rcases front with _ | ⟨d, front⟩
    · subst whole
      exact insert_front (.comment line ends laid) gap
    have between := between.resolve_left (List.cons_ne_nil d front)
    rcases append_split whole with ⟨behind, split, rfl⟩ | ⟨inside, some_, same, rfl⟩
    · rw [split] at between ⊢
      rw [bytes_append, ← Nat.add_assoc] at between ⊢
      cases behind with
      | nil =>
        -- Right behind a comment the gap becomes a part of it.
        have tail := laid.shift_front (bytes w)
        rw [Nat.add_assoc, ← bytes_append] at tail
        have joined := Laid.comment (show '\n' ∉ text ++ w by simp [line, gap.one_line]) ends tail
        simpa [bytes] using joined
      | cons d behind =>
        rw [List.append_assoc]
        exact .comment line (fun c hc => ends c hc) (ih (.inr between) rfl)
    · refine (between.outside some_ fun l member => ?_).elim
      have later := laid.offsets.1 l member
      have width := bytes_pos some_
      rw [same, bytes_append] at later
      omega
  | @token t text rest start ls munch laid ih =>
    rcases front with _ | ⟨d, front⟩
    · subst whole
      exact insert_front (.token munch laid) gap
    have between := between.resolve_left (List.cons_ne_nil d front)
    have first : 0 < bytes (d :: front) := bytes_pos (List.cons_ne_nil d front)
    rcases append_split whole with ⟨behind, split, rfl⟩ | ⟨inside, some_, rfl, rfl⟩
    · rw [split] at between first ⊢
      have tail := ih (between.behind_token munch) rfl
      have stays : Located.relocate (Lexer.shift (start + bytes (text ++ behind)) (bytes w))
          ⟨t, start⟩ = ⟨t, start⟩ := by
        simp only [Located.relocate, Lexer.shift]
        rw [if_pos (by omega)]
      rw [List.map_cons, stays, List.append_assoc, bytes_append, ← Nat.add_assoc]
      exact .token (munch.insert gap) tail
    · have width := bytes_pos some_
      have whole := chars_of_pattern munch.pattern
      refine ((between.tail ?_ ?_).outside some_ fun l member => ?_).elim
      · change _ ≠ start
        omega
      · change _ ≠ start + bytes (chars t)
        rw [whole, bytes_append]
        omega
      · have later := laid.offsets.1 l member
        rw [bytes_append] at later
        omega

end Reckon.Lexer
