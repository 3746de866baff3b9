import Reckon.Proofs.Lexer.Laid
import Mathlib.Data.List.TakeWhile
import Mathlib.Data.String.Basic

/-! Where a source has no tokens. Scanning stops at text that starts no token, and what stands in front
of it is a source of its own: no token there is longer or shorter for being cut off from the rest. -/
namespace Reckon.Lexer

/-- The byte length of a text is that of its characters. -/
theorem utf8ByteSize_ofList (cs : List Char) : (String.ofList cs).utf8ByteSize = bytes cs := by
  rw [String.utf8ByteSize_ofList]
  induction cs with
  | nil => rfl
  | cons c cs ih => rw [String.utf8Len_cons, bytes, ih, Nat.add_comm]

theorem bytes_append (cs ds : List Char) : bytes (cs ++ ds) = bytes cs + bytes ds := by
  induction cs with
  | nil => simp [bytes]
  | cons c cs ih => rw [List.cons_append, bytes, bytes, ih, Nat.add_assoc]

/-- A token is still the longest match when only some of what follows it is left. -/
theorem Munch.cut (h : Munch t text (rest ++ more)) : Munch t text rest where
  pattern := h.pattern
  longest t' text' pattern front :=
    h.longest t' text' pattern (front.trans (by simp [← List.append_assoc]))
  identifier := h.identifier
  number digits isNumber c r same := h.number digits isNumber c (r ++ more) (by simp [same])

/-- Text that starts no token, in front of the rest: a character with which no pattern begins, a quote
without another one behind it, or a number and all digits and points behind it, which are a further
fraction at least. -/
inductive Mistake : List Char → List Char → Prop
  | character : (∀ t text, Pattern t text → ¬text <+: c :: rest) → c ≠ '"' → c ≠ '#' →
      isSpace c = false → Mistake [c] rest
  | quote : '"' ∉ rest → Mistake ['"'] rest
  | fraction : NumberPattern numeral →
      (∀ t text, Pattern t text → text <+: numeral ++ run ++ rest →
        text.length ≤ numeral.length) →
      (∃ d more, run = '.' :: d :: more ∧ d.isDigit = true) →
      (∀ c ∈ run, c = '.' ∨ c.isDigit = true) →
      (∀ c ∈ rest.head?, c ≠ '.' ∧ c.isDigit = false) → Mistake (numeral ++ run) rest

theorem Mistake.ne_nil (h : Mistake text rest) : text ≠ [] := by
  cases h with
  | character | quote => simp
  | fraction numeral => simp [numeral.ne_nil]

theorem startsFraction_iff {cs : List Char} :
    startsFraction cs = true ↔ ∃ d more, cs = '.' :: d :: more ∧ d.isDigit = true := by
  constructor
  · intro h
    unfold startsFraction at h
    split at h
    · rename_i r
      cases r with
      | nil => contradiction
      | cons d more => exact ⟨d, more, rfl, h⟩
    · contradiction
  · rintro ⟨d, more, rfl, digit⟩
    exact digit

theorem numberPiece_mistake (starts : StartsNumber c r)
    (h : numberPiece (c :: r) = .unrecognized text) :
    ∃ rest, text ++ rest = c :: r ∧ Mistake text rest := by
  simp only [numberPiece] at h
  split at h
  · rename_i further
    obtain rfl := Piece.unrecognized.inj h
    generalize hp : (fun c : Char => c == '.' || c.isDigit) = inRun
    have whole := List.takeWhile_append_dropWhile (p := inRun) (l := (number (c :: r)).2)
    refine ⟨(number (c :: r)).2.dropWhile inRun, ?_,
      .fraction (numberPattern_of_starts starts) (fun t text pattern front => ?_) ?_
        (fun x hx => ?_) fun x hx => ?_⟩
    · rw [List.append_assoc, whole, number_append]
    · rw [List.append_assoc, whole, number_append] at front
      exact number_longest starts pattern front
    · obtain ⟨d, more, behind, digit⟩ := startsFraction_iff.mp further
      refine ⟨d, more.takeWhile inRun, ?_, digit⟩
      simp [behind, ← hp, digit]
    · simpa [← hp] using List.mem_takeWhile_imp hx
    · have stops := List.head?_dropWhile_not inRun (number (c :: r)).2
      rw [hx] at stops
      simpa [← hp] using stops
  · contradiction

theorem textPiece_mistake (h : textPiece r = .unrecognized text) :
    ∃ rest, text ++ rest = '"' :: r ∧ Mistake text rest := by
  unfold textPiece at h
  split at h
  · contradiction
  · rename_i content hs
    obtain rfl := Piece.unrecognized.inj h
    refine ⟨r, rfl, .quote fun quote => ?_⟩
    have none : r.dropWhile (· != '"') = [] := congrArg Prod.snd hs
    simpa using List.dropWhile_eq_nil_iff.mp none _ quote

theorem symbolPiece_mistake (number : ¬StartsNumber c r) (letter : isLetter c = false)
    (quote : c ≠ '"') (comment : c ≠ '#') (space : isSpace c = false)
    (h : symbolPiece c r = .unrecognized text) :
    ∃ rest, text ++ rest = c :: r ∧ Mistake text rest := by
  unfold symbolPiece at h
  split at h
  · contradiction
  · rename_i none
    obtain rfl := Piece.unrecognized.inj h
    refine ⟨r, rfl, .character (fun t text pattern front => ?_) quote comment space⟩
    cases pattern.front front with
    | number starts => exact number starts
    | word other => simp [letter] at other
    | text other => exact quote other
    | symbol s mark same =>
      subst same
      have apart := List.find?_eq_none.mp none s mark
      exact apart (by simpa using List.isPrefixOf_iff_prefix.mpr front)

/-- Text that is not recognized starts no token. -/
theorem lexeme_mistake (h : lexeme c r = .unrecognized text) :
    ∃ rest, text ++ rest = c :: r ∧ Mistake text rest := by
  unfold lexeme at h
  split at h
  · rename_i starts
    exact numberPiece_mistake starts h
  · rename_i number
    split at h
    · contradiction
    · rename_i letter
      split at h
      · rename_i quote
        obtain rfl : c = '"' := by simpa using quote
        exact textPiece_mistake h
      · rename_i quote
        split at h
        · contradiction
        · rename_i comment
          split at h
          · contradiction
          · rename_i space
            exact symbolPiece_mistake number (by simpa using letter) (by simpa using quote)
              (by simpa using comment) (by simpa using space) h

/-- A text without tokens is made of a front part that has some, a mistake, and what follows it. -/
theorem scan_mistake (h : scan start cs = .error u) :
    ∃ front back ls, cs = front ++ (u.text.toList ++ back) ∧ start + bytes front = u.offset ∧
      Laid start front ls ∧ Mistake u.text.toList back := by
  -- Each turn of the scan takes a token or a gap off the front and goes on behind it.
  fun_induction scan start cs with
  | case1 => contradiction
  | case2 start c r t text rest piece _ ih =>
    have cut := lexeme_cuts c r
    rw [piece] at cut
    cases cut with | token _ _ _ whole =>
    cases hs : scan (start + bytes text) rest with
    | ok ls => simp [hs, Except.map] at h
    | error u' =>
      obtain rfl : u' = u := by simpa [hs, Except.map] using h
      obtain ⟨front, back, ls, rfl, place, laid, mistake⟩ := ih hs
      refine ⟨text ++ front, back, _, ?_, ?_, .token (lexeme_munch piece).cut laid, mistake⟩
      · rw [List.append_assoc, whole]
      · rw [bytes_append, ← Nat.add_assoc, place]
  | case3 start c r text rest piece _ ih =>
    have cut := lexeme_cuts c r
    rw [piece] at cut
    cases cut with | skipped _ _ whole =>
    obtain ⟨front, back, ls, rfl, place, laid, mistake⟩ := ih h
    refine ⟨text ++ front, back, ls, ?_, ?_, .skipped piece laid, mistake⟩
    · rw [List.append_assoc, whole]
    · rw [bytes_append, ← Nat.add_assoc, place]
  | case4 start c r text piece =>
    obtain rfl : (⟨String.ofList text, start⟩ : Unrecognized) = u := Except.error.inj h
    obtain ⟨rest, whole, mistake⟩ := lexeme_mistake piece
    refine ⟨[], rest, [], ?_, rfl, .done, ?_⟩
    · simpa using whole.symm
    · simpa using mistake

/-- A source without tokens is reported by a text that starts no token. The text stands in the source at
its offset, it is not empty, and the part of the source in front of it has tokens. -/
theorem tokenize_mistake {source : String} (h : tokenize source = .error u) :
    ∃ front back : String, source = front ++ u.text ++ back ∧ front.utf8ByteSize = u.offset ∧
      u.text ≠ "" ∧ (∃ ls, tokenize front = .ok ls) ∧ Mistake u.text.toList back.toList := by
  obtain ⟨front, back, ls, whole, place, laid, mistake⟩ := scan_mistake h
  refine ⟨String.ofList front, String.ofList back, ?_, ?_, ?_, ⟨ls, ?_⟩, ?_⟩
  · rw [← String.toList_inj, whole]
    simp
  · rw [utf8ByteSize_ofList, ← place, Nat.zero_add]
  · rintro empty
    exact mistake.ne_nil (by rw [empty]; rfl)
  · rw [tokenize, String.toList_ofList]
    exact scan_of_laid laid
  · rwa [String.toList_ofList]

/-- A number with further fractions, behind a text with a character of two bytes. -/
theorem tokenize_mistake_fractions :
    let u : Unrecognized := ⟨"1.5.3..4", 7⟩
    tokenize "x=\"é\" 1.5.3..4 y" = .error u ∧
      ∃ front back : String, "x=\"é\" 1.5.3..4 y" = front ++ u.text ++ back ∧
        front.utf8ByteSize = u.offset ∧ u.text ≠ "" ∧ (∃ ls, tokenize front = .ok ls) ∧
        Mistake u.text.toList back.toList := by
  intro u
  have h : tokenize "x=\"é\" 1.5.3..4 y" = .error u := by with_unfolding_all rfl
  exact ⟨h, tokenize_mistake h⟩

end Reckon.Lexer
