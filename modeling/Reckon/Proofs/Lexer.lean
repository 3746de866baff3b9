import Reckon.Token.Lexer

/-! A lexeme does not depend on what follows it, as long as that cannot continue it. So the tokens
of a source do not change when a separator and more text are put behind it, and every token is read
again from its own characters. -/
namespace Reckon.Lexer

def continues (c : Char) : Bool := isWordPart c || c == '.' || c == '=' || c == '+' || c == '-'

def Loose (cs : List Char) : Prop := ∀ c ∈ cs.head?, continues c = false

theorem Loose.nil : Loose [] := by simp [Loose]

theorem Loose.cons (h : continues c = false) : Loose (c :: cs) := by
  simpa [Loose] using h

theorem Loose.head (h : Loose cs) (hc : c ∈ cs.head?) :
    isWordPart c = false ∧ c.isDigit = false ∧ c ≠ '.' ∧ c ≠ '=' ∧ c ≠ '+' ∧ c ≠ '-' ∧
      c ≠ 'e' ∧ c ≠ 'E' := by
  have plain := h c hc
  simp only [continues, Bool.or_eq_false_iff, beq_eq_false_iff_ne] at plain
  obtain ⟨⟨⟨⟨word, point⟩, equals⟩, plus⟩, minus⟩ := plain
  have digit : c.isDigit = false := by
    simp only [isWordPart, Bool.or_eq_false_iff] at word
    exact word.2
  refine ⟨word, digit, point, equals, plus, minus, ?_, ?_⟩ <;>
  · rintro rfl
    revert word
    decide

theorem splitWhile_stop (h : ∀ c ∈ more.head?, p c = false) : splitWhile p more = ([], more) := by
  cases more with
  | nil => rfl
  | cons c more => simp [splitWhile, h c rfl]

theorem splitWhile_extend (h : ∀ c ∈ more.head?, p c = false) (cs : List Char) :
    splitWhile p (cs ++ more) = ((splitWhile p cs).1, (splitWhile p cs).2 ++ more) := by
  induction cs with
  | nil => exact splitWhile_stop h
  | cons c cs ih =>
    simp only [splitWhile, Prod.mk.injEq] at ih
    by_cases hc : p c = true
    · simp [splitWhile, hc, ih]
    · simp [splitWhile, hc]

/-- Where the front part ends before the text does, nothing behind the text matters. -/
theorem splitWhile_inside (h : splitWhile p cs = (front, c :: rest)) (more : List Char) :
    splitWhile p (cs ++ more) = (front, c :: (rest ++ more)) := by
  simp only [splitWhile, Prod.mk.injEq] at h ⊢
  obtain ⟨rfl, after⟩ := h
  have whole := List.takeWhile_append_dropWhile (p := p) (l := cs)
  have shorter : (cs.takeWhile p).length ≠ cs.length := by
    rw [after] at whole
    have := congrArg List.length whole
    simp only [List.length_append, List.length_cons] at this
    omega
  rw [List.takeWhile_append, if_neg shorter, List.dropWhile_append, after]
  exact ⟨rfl, rfl⟩

/-- Where all of the text is the front part, so is a further character of its kind. -/
theorem splitWhile_through (h : splitWhile p cs = (front, [])) (hc : p c = true) :
    splitWhile p (cs ++ [c]) = (front ++ [c], []) := by
  simp only [splitWhile, Prod.mk.injEq] at h ⊢
  obtain ⟨rfl, none⟩ := h
  have whole := List.takeWhile_append_dropWhile (p := p) (l := cs)
  have all : ∀ c ∈ cs.takeWhile p, p c = true := List.all_eq_true.mp List.all_takeWhile
  rw [none, List.append_nil] at whole
  rw [whole] at all
  rw [List.takeWhile_append_of_pos all, List.dropWhile_append_of_pos all, whole]
  simp [hc]

/-- The characters that were split off are split off again. -/
theorem splitWhile_again (h : ∀ c ∈ more.head?, p c = false) (cs : List Char) :
    splitWhile p ((splitWhile p cs).1 ++ more) = ((splitWhile p cs).1, more) := by
  have all : ∀ c ∈ cs.takeWhile p, p c = true := List.all_eq_true.mp List.all_takeWhile
  have stop := splitWhile_stop h
  simp only [splitWhile, Prod.mk.injEq] at stop
  simp only [splitWhile, List.takeWhile_append_of_pos all, List.dropWhile_append_of_pos all, stop,
    List.append_nil]

section Number

variable {more : List Char} (loose : Loose more)

include loose

theorem digits_extend (cs : List Char) :
    digits (cs ++ more) = ((digits cs).1, (digits cs).2 ++ more) :=
  splitWhile_extend (fun _ hc => (loose.head hc).2.1) cs

theorem startsDigit_extend (cs : List Char) : startsDigit (cs ++ more) = startsDigit cs := by
  cases cs with
  | nil =>
    cases more with
    | nil => rfl
    | cons c more => exact (loose.head rfl).2.1
  | cons c cs => rfl

theorem startsFraction_extend (cs : List Char) :
    startsFraction (cs ++ more) = startsFraction cs := by
  cases cs with
  | nil =>
    cases more with
    | nil => rfl
    | cons c more => simp [startsFraction, (loose.head rfl).2.2.1]
  | cons c cs =>
    by_cases hc : c = '.'
    · subst hc
      exact startsDigit_extend loose cs
    · simp [startsFraction, hc]

theorem fraction_extend (cs : List Char) :
    fraction (cs ++ more) = ((fraction cs).1, (fraction cs).2 ++ more) := by
  cases cs with
  | nil =>
    cases more with
    | nil => rfl
    | cons c more => simp [fraction, (loose.head rfl).2.2.1]
  | cons c cs =>
    by_cases hc : c = '.'
    · subst hc
      simp only [List.cons_append, fraction, startsDigit_extend loose, digits_extend loose]
      split <;> rfl
    · simp [fraction, hc]

theorem exponent_extend (cs : List Char) :
    exponent (cs ++ more) = ((exponent cs).1, (exponent cs).2 ++ more) := by
  rcases cs with _ | ⟨c, _ | ⟨s, d⟩⟩
  · cases more with
    | nil => rfl
    | cons c more =>
      obtain ⟨_, _, _, _, _, _, small, large⟩ := loose.head (c := c) rfl
      simp [exponent, small, large]
  · cases more with
    | nil => simp
    | cons s more =>
      obtain ⟨_, digit, _, _, plus, minus, _, _⟩ := loose.head (c := s) rfl
      simp [exponent, digit, plus, minus]
  · simp only [List.cons_append, exponent, startsDigit_extend loose]
    rw [← List.cons_append, digits_extend loose, digits_extend loose]
    split
    · split
      · rfl
      · split <;> rfl
    · rfl

theorem number_extend (cs : List Char) :
    number (cs ++ more) = ((number cs).1, (number cs).2 ++ more) := by
  simp only [number, digits_extend loose, fraction_extend loose, exponent_extend loose]

end Number

theorem digits_again (h : startsDigit more = false) (cs : List Char) :
    digits ((digits cs).1 ++ more) = ((digits cs).1, more) := by
  refine splitWhile_again (fun c hc => ?_) cs
  obtain ⟨more, rfl⟩ := List.head?_eq_some_iff.mp hc
  exact h

/-- An exponent is empty or starts with its letter. -/
theorem exponent_front (cs : List Char) :
    startsDigit (exponent cs).1 = false ∧ ∀ r, (exponent cs).1 ≠ '.' :: r := by
  unfold exponent
  split
  · rename_i c r
    split
    · rename_i letter
      obtain rfl | rfl : c = 'e' ∨ c = 'E' := by simpa using letter
      all_goals
        split
        · split
          · exact ⟨rfl, by simp⟩
          · split <;> exact ⟨rfl, by simp⟩
        · exact ⟨rfl, by simp⟩
    · exact ⟨rfl, by simp⟩
  · exact ⟨rfl, by simp⟩

theorem digits_all (cs : List Char) : digits (digits cs).1 = ((digits cs).1, []) := by
  have again : digits ((digits cs).1 ++ []) = ((digits cs).1, []) := digits_again rfl cs
  rwa [List.append_nil] at again

theorem startsDigit_digits (cs : List Char) : startsDigit (digits cs).1 = startsDigit cs := by
  cases cs with
  | nil => rfl
  | cons c cs => by_cases hc : c.isDigit <;> simp [digits, splitWhile, startsDigit, hc]

theorem exponent_again (cs : List Char) : exponent (exponent cs).1 = ((exponent cs).1, []) := by
  rcases cs with _ | ⟨c, _ | ⟨s, d⟩⟩
  · rfl
  · by_cases letter : c == 'e' || c == 'E' <;> simp [exponent, letter]
  · by_cases letter : (c == 'e' || c == 'E') = true
    · by_cases signed : ((s == '+' || s == '-') && startsDigit d) = true
      · have first : (exponent (c :: s :: d)).1 = c :: s :: (digits d).1 := by
          simp only [exponent, letter, signed, reduceIte]
        rw [first]
        simp only [exponent, letter, startsDigit_digits, signed, digits_all, reduceIte]
      · by_cases digit : s.isDigit = true
        · have first : (exponent (c :: s :: d)).1 = c :: (digits (s :: d)).1 := by
            simp only [exponent, letter, signed, digit, reduceIte, Bool.false_eq_true]
          have again := digits_all (s :: d)
          have tail : (digits (s :: d)).1 = s :: (digits d).1 := by
            simp [digits, splitWhile, digit]
          rw [tail] at first again
          rw [first]
          simp only [exponent, letter, startsDigit_digits, signed, digit, again, reduceIte,
            Bool.false_eq_true]
        · have first : (exponent (c :: s :: d)).1 = [] := by
            simp only [exponent, letter, signed, digit, reduceIte, Bool.false_eq_true]
          rw [first]
          rfl
    · have first : (exponent (c :: s :: d)).1 = [] := by
        simp only [exponent, letter, reduceIte, Bool.false_eq_true]
      rw [first]
      rfl

theorem fraction_eq_nil (h : startsFraction cs = false) : fraction cs = ([], cs) := by
  unfold fraction
  split
  · rename_i r
    have none : startsDigit r = false := h
    simp only [none, reduceIte, Bool.false_eq_true]
  · rfl

theorem fraction_again (h : startsDigit more = false) (point : ∀ r, more ≠ '.' :: r)
    (cs : List Char) : fraction ((fraction cs).1 ++ more) = ((fraction cs).1, more) := by
  have none : startsFraction more = false := by
    unfold startsFraction
    split
    · exact absurd rfl (point _)
    · rfl
  by_cases hf : startsFraction cs = true
  · obtain ⟨r, rfl, starts⟩ : ∃ r, cs = '.' :: r ∧ startsDigit r = true := by
      unfold startsFraction at hf
      split at hf
      · exact ⟨_, rfl, hf⟩
      · contradiction
    have front : startsDigit ((digits r).1 ++ more) = true := by
      have first := startsDigit_digits r
      rw [starts] at first
      cases hr : (digits r).1 with
      | nil => simp [hr, startsDigit] at first
      | cons c r => simpa [hr, startsDigit] using first
    simp only [fraction, starts, List.cons_append, front, digits_again h, reduceIte]
  · have empty : fraction cs = ([], cs) := fraction_eq_nil (by simpa using hf)
    rw [empty]
    exact fraction_eq_nil none

/-- A fraction is empty or starts with its point. -/
theorem fraction_front (h : startsDigit more = false) (cs : List Char) :
    startsDigit ((fraction cs).1 ++ more) = false := by
  unfold fraction
  split
  · split
    · rfl
    · exact h
  · exact h

theorem number_again (cs : List Char) : number (number cs).1 = ((number cs).1, []) := by
  obtain ⟨digit, point⟩ := exponent_front (fraction (digits cs).2).2
  have whole := digits_again (fraction_front digit (digits cs).2) cs
  have part := fraction_again digit point (digits cs).2
  simp only [number, List.append_assoc, whole, part, exponent_again]

theorem numberPiece_extend (loose : Loose more) (h : numberPiece cs = .token t text rest) :
    numberPiece (cs ++ more) = .token t text (rest ++ more) := by
  simp only [numberPiece] at h ⊢
  rw [number_extend loose, startsFraction_extend loose]
  split at h
  · contradiction
  · rename_i whole
    obtain ⟨rfl, rfl, rfl⟩ := Piece.token.inj h
    simp only [whole, reduceIte, Bool.false_eq_true]

theorem wordPiece_extend (loose : Loose more) (h : wordPiece cs = .token t text rest) :
    wordPiece (cs ++ more) = .token t text (rest ++ more) := by
  simp only [wordPiece] at h ⊢
  obtain ⟨rfl, rfl, rfl⟩ := Piece.token.inj h
  rw [splitWhile_extend fun _ hc => (loose.head hc).1]

theorem textPiece_extend (more : List Char) (h : textPiece r = .token t text rest) :
    textPiece (r ++ more) = .token t text (rest ++ more) := by
  unfold textPiece at h
  split at h
  · rename_i content q tail hs
    obtain ⟨rfl, rfl, rfl⟩ := Piece.token.inj h
    rw [textPiece, splitWhile_inside hs]
  · contradiction

/-- Whether a spelling is at the front is seen from the first character and what follows it. -/
theorem isPrefixOf_extend (loose : Loose more) (s : Symbol) (hs : s ∈ Symbol.punctuation)
    (c : Char) (r : List Char) :
    s.spelling.toList.isPrefixOf (c :: (r ++ more)) = s.spelling.toList.isPrefixOf (c :: r) := by
  have short : ∀ s ∈ Symbol.punctuation,
      s.spelling.toList.length = 1 ∨ s.spelling.toList.tail = ['='] := by decide
  cases hd : s.spelling.toList with
  | nil => rfl
  | cons d tail =>
    rcases short s hs with one | two
    · obtain rfl : tail = [] := by simpa [hd] using one
      simp only [List.isPrefixOf]
    · obtain rfl : tail = ['='] := by simpa [hd] using two
      cases r with
      | cons x r => simp only [List.isPrefixOf, List.cons_append]
      | nil =>
        cases more with
        | nil => rfl
        | cons x more =>
          have other : ('=' == x) = false := beq_eq_false_iff_ne.mpr (loose.head rfl).2.2.2.1.symm
          simp only [List.isPrefixOf, List.nil_append, other, Bool.false_and, Bool.and_false]

theorem symbolPiece_extend (loose : Loose more) (h : symbolPiece c r = .token t text rest) :
    symbolPiece c (r ++ more) = .token t text (rest ++ more) := by
  have same := List.filter_congr fun s hs => isPrefixOf_extend loose s hs c r
  unfold symbolPiece at h ⊢
  rw [← List.head?_filter, same, List.head?_filter]
  split at h
  · rename_i s hs
    obtain ⟨rfl, rfl, rfl⟩ := Piece.token.inj h
    have front : s.spelling.toList ++ (c :: r).drop s.spelling.toList.length = c :: r :=
      isPrefix_punctuation (by simpa using List.find?_some hs)
    have fits : s.spelling.toList.length ≤ (c :: r).length := by
      rw [← front]
      simp
    simp only [← List.cons_append, List.drop_append_of_le_length fits]
  · contradiction

abbrev StartsNumber (c : Char) (r : List Char) : Prop :=
  (c.isDigit || startsFraction (c :: r)) = true

theorem lexeme_of_number (h : StartsNumber c r) : lexeme c r = numberPiece (c :: r) := if_pos h

inductive Kind (c : Char) : (List Char → Piece) → Prop
  | word : c ≠ '.' → Kind c fun r => wordPiece (c :: r)
  | text : c = '"' → Kind c textPiece
  | comment : Kind c fun r => commentPiece (c :: r)
  | space : Kind c fun r => spacePiece (c :: r)
  | symbol : Kind c (symbolPiece c)

/-- Apart from numbers, the first character decides about the kind of a piece. -/
theorem lexeme_of_not_number (c : Char) :
    ∃ piece, Kind c piece ∧ ∀ r, ¬StartsNumber c r → lexeme c r = piece r := by
  unfold lexeme
  by_cases letter : isLetter c = true
  · refine ⟨_, .word ?_, fun r h => by rw [if_neg h, if_pos letter]⟩
    rintro rfl
    exact absurd letter (by decide)
  · by_cases quote : (c == '"') = true
    · exact ⟨_, .text (by simpa using quote),
        fun r h => by rw [if_neg h, if_neg letter, if_pos quote]⟩
    · by_cases comment : (c == '#') = true
      · exact ⟨_, .comment, fun r h => by
          rw [if_neg h, if_neg letter, if_neg quote, if_pos comment]⟩
      · by_cases space : isSpace c = true
        · exact ⟨_, .space, fun r h => by
            rw [if_neg h, if_neg letter, if_neg quote, if_neg comment, if_pos space]⟩
        · exact ⟨_, .symbol, fun r h => by
            rw [if_neg h, if_neg letter, if_neg quote, if_neg comment, if_neg space]⟩

theorem startsNumber_extend (loose : Loose more) (c : Char) (r : List Char) :
    StartsNumber c (r ++ more) ↔ StartsNumber c r := by
  unfold StartsNumber
  rw [← List.cons_append, startsFraction_extend loose]

/-- A lexeme is the longest one whatever stands behind it. -/
theorem lexeme_extend (loose : Loose more) (h : lexeme c r = .token t text rest) :
    lexeme c (r ++ more) = .token t text (rest ++ more) := by
  by_cases numeric : StartsNumber c r
  · rw [lexeme_of_number numeric] at h
    rw [lexeme_of_number ((startsNumber_extend loose c r).mpr numeric)]
    exact numberPiece_extend loose h
  · obtain ⟨piece, kind, eq⟩ := lexeme_of_not_number c
    rw [eq _ numeric] at h
    rw [eq _ fun n => numeric ((startsNumber_extend loose c r).mp n)]
    cases kind with
    | word => exact wordPiece_extend loose h
    | text => exact textPiece_extend more h
    | comment => contradiction
    | space => contradiction
    | symbol => exact symbolPiece_extend loose h

theorem lexeme_of_space (h : isSpace c = true) (r : List Char) :
    lexeme c r = spacePiece (c :: r) := by
  have plain : c = ' ' ∨ c = '\t' ∨ c = '\r' ∨ c = '\x0c' := by
    simpa [isSpace, or_assoc] using h
  rcases plain with rfl | rfl | rfl | rfl <;> rfl

/-- What is passed over is split off by the kind of its characters, within its line. -/
theorem lexeme_skipped (h : lexeme c r = .skipped text rest) : ∃ p : Char → Bool,
    p '\n' = false ∧ p '\r' = true ∧ splitWhile p (c :: r) = (text, rest) ∧
    ∀ more, Loose more → lexeme c (r ++ more) =
      .skipped (splitWhile p (c :: (r ++ more))).1 (splitWhile p (c :: (r ++ more))).2 := by
  by_cases numeric : StartsNumber c r
  · rw [lexeme_of_number numeric] at h
    simp only [numberPiece] at h
    split at h <;> contradiction
  · obtain ⟨piece, kind, eq⟩ := lexeme_of_not_number c
    rw [eq _ numeric] at h
    have extended (more : List Char) (loose : Loose more) : lexeme c (r ++ more) =
        piece (r ++ more) := eq _ fun n => numeric ((startsNumber_extend loose c r).mp n)
    cases kind with
    | word => contradiction
    | text =>
      unfold textPiece at h
      split at h <;> contradiction
    | comment =>
      obtain ⟨rfl, rfl⟩ := Piece.skipped.inj h
      exact ⟨(· != '\n'), rfl, rfl, rfl, extended⟩
    | space =>
      obtain ⟨rfl, rfl⟩ := Piece.skipped.inj h
      exact ⟨isSpace, rfl, rfl, rfl, extended⟩
    | symbol =>
      unfold symbolPiece at h
      split at h <;> contradiction

/-- What is passed over ends before a line break. -/
theorem lexeme_extend_skipped (h : lexeme c r = .skipped text rest) (more : List Char) :
    lexeme c (r ++ '\n' :: more) = .skipped text (rest ++ '\n' :: more) := by
  obtain ⟨p, line, _, whole, extended⟩ := lexeme_skipped h
  have stops : ∀ d ∈ ('\n' :: more).head?, p d = false := by simpa using line
  rw [extended _ (.cons (by decide)), ← List.cons_append, splitWhile_extend stops, whole]

/-- What is passed over at the end of a text goes on with a carriage return. -/
theorem lexeme_extend_return (h : lexeme c r = .skipped text rest) :
    lexeme c (r ++ ['\r']) =
      if rest = [] then .skipped (text ++ ['\r']) [] else .skipped text (rest ++ ['\r']) := by
  obtain ⟨p, _, return_, whole, extended⟩ := lexeme_skipped h
  rw [extended _ (.cons (by decide)), ← List.cons_append]
  cases rest with
  | nil => simp only [splitWhile_through whole return_, reduceIte]
  | cons d rest =>
    rw [splitWhile_inside whole, if_neg (List.cons_ne_nil d rest)]
    rfl

def chars : Token → List Char
  | .number digits => digits.toList
  | .boolean value => (toString value).toList
  | .text content => '"' :: content.toList ++ ['"']
  | .identifier name => name.toList
  | .symbol s => s.spelling.toList

theorem numberPiece_again (h : numberPiece cs = .token t text rest) :
    text = chars t ∧ text = (number cs).1 ∧ numberPiece text = .token t text [] := by
  simp only [numberPiece] at h
  split at h
  · contradiction
  · obtain ⟨rfl, rfl, rfl⟩ := Piece.token.inj h
    refine ⟨by simp [chars], rfl, ?_⟩
    simp only [numberPiece, number_again]
    rfl

theorem chars_ofWord (word : String) : chars (Token.ofWord word) = word.toList := by
  unfold Token.ofWord
  split
  · rename_i h
    rw [h]
    rfl
  · split
    · rename_i h
      rw [h]
      rfl
    · split
      · rename_i keyword h
        have spelled : keyword.spelling = word := by simpa using List.find?_some h
        rw [chars, spelled]
      · rfl

theorem wordPiece_again (h : wordPiece cs = .token t text rest) :
    text = chars t ∧ wordPiece text = .token t text [] := by
  simp only [wordPiece] at h
  obtain ⟨rfl, rfl, rfl⟩ := Piece.token.inj h
  refine ⟨by simp [chars_ofWord], ?_⟩
  have again : splitWhile isWordPart ((splitWhile isWordPart cs).1 ++ []) = _ :=
    splitWhile_again (by simp) cs
  rw [List.append_nil] at again
  simp only [wordPiece, again]

theorem textPiece_again (h : textPiece r = .token t text rest) :
    text = chars t ∧ ∃ r', text = '"' :: r' ∧ textPiece r' = .token t text [] := by
  unfold textPiece at h
  split at h
  · rename_i content q tail hs
    obtain ⟨rfl, rfl, rfl⟩ := Piece.token.inj h
    refine ⟨by simp [chars], content ++ ['"'], by simp, ?_⟩
    have again : splitWhile (· != '"') ((splitWhile (· != '"') r).1 ++ ['"']) = _ :=
      splitWhile_again (by simp) r
    rw [hs] at again
    simp only [textPiece, again]
  · contradiction

theorem symbolPiece_again (h : symbolPiece c r = .token t text rest) :
    c ≠ '.' ∧ text = chars t ∧ ∃ r', text = c :: r' ∧ symbolPiece c r' = .token t text [] := by
  unfold symbolPiece at h
  split at h
  · rename_i s hs
    obtain ⟨rfl, rfl, rfl⟩ := Piece.token.inj h
    have front : s.spelling.toList ++ (c :: r).drop s.spelling.toList.length = c :: r :=
      isPrefix_punctuation (by simpa using List.find?_some hs)
    have found : ∀ s ∈ Symbol.punctuation, s.spelling.toList.head? ≠ some '.' ∧
        Symbol.punctuation.find? (fun x => x.spelling.toList.isPrefixOf s.spelling.toList) =
          some s := by
      decide
    obtain ⟨point, again⟩ := found s (List.mem_of_find?_eq_some hs)
    obtain ⟨d, r', hd⟩ := List.exists_cons_of_ne_nil (spelling_ne_nil s)
    rw [hd] at front point
    obtain ⟨rfl, -⟩ := List.cons.inj front
    refine ⟨by simpa using point, rfl, r', hd, ?_⟩
    rw [hd] at again
    simp only [symbolPiece, again, hd, List.drop_length]
  · contradiction

/-- The characters of a number are again the start of one: where none starts it would be empty. -/
theorem startsNumber_again (numeric : StartsNumber c r) (front : (number (c :: r)).1 = c :: r') :
    StartsNumber c r' := by
  refine Classical.byContradiction fun none => ?_
  have whole := number_again (c :: r)
  rw [front] at whole
  simp only [StartsNumber, Bool.not_eq_true, Bool.or_eq_false_iff] at numeric none
  obtain rfl : c = '.' := by
    simp only [none.1, Bool.false_or] at numeric
    unfold startsFraction at numeric
    split at numeric
    · simp_all
    · contradiction
  have empty : digits ('.' :: r') = ([], '.' :: r') := splitWhile_stop (by simp)
  simp [number, empty, fraction_eq_nil none.2, exponent] at whole

/-- A token is read again from its own characters. -/
theorem lexeme_again (h : lexeme c r = .token t text rest) :
    text = chars t ∧ ∃ r', text = c :: r' ∧ lexeme c r' = .token t text [] := by
  have cut := lexeme_cuts c r
  rw [h] at cut
  obtain ⟨r', rfl⟩ : ∃ r', text = c :: r' := by
    cases cut with | token _ _ _ whole some_ =>
    obtain ⟨d, r', rfl⟩ := List.exists_cons_of_ne_nil some_
    obtain ⟨rfl, -⟩ := List.cons.inj whole
    exact ⟨r', rfl⟩
  by_cases numeric : StartsNumber c r
  · rw [lexeme_of_number numeric] at h
    obtain ⟨spelled, front, again⟩ := numberPiece_again h
    refine ⟨spelled, r', rfl, ?_⟩
    rw [lexeme_of_number (startsNumber_again numeric front.symm), again]
  · obtain ⟨piece, kind, eq⟩ := lexeme_of_not_number c
    have again (point : c ≠ '.') : lexeme c r' = piece r' :=
      eq _ fun n => numeric (by simpa [StartsNumber, startsFraction, point] using n)
    rw [eq _ numeric] at h
    cases kind with
    | word point =>
      obtain ⟨spelled, same⟩ := wordPiece_again h
      exact ⟨spelled, r', rfl, (again point).trans same⟩
    | text quote =>
      obtain ⟨spelled, r'', hr, same⟩ := textPiece_again h
      obtain ⟨-, rfl⟩ := List.cons.inj hr
      exact ⟨spelled, r', rfl, (again (by simp [quote])).trans same⟩
    | comment => contradiction
    | space => contradiction
    | symbol =>
      obtain ⟨point, spelled, r'', hr, same⟩ := symbolPiece_again h
      obtain ⟨-, rfl⟩ := List.cons.inj hr
      exact ⟨spelled, r', rfl, (again point).trans same⟩

/-- The characters up to the rest are these tokens, with all that is passed over between them. -/
inductive Lexes : List Char → List Token → List Char → Prop
  | done : Lexes cs [] cs
  | token : lexeme c r = .token t text rest → Lexes rest ts us → Lexes (c :: r) (t :: ts) us
  | skipped : lexeme c r = .skipped text rest → Lexes rest ts us → Lexes (c :: r) ts us

theorem Lexes.append (first : Lexes cs ts us) (next : Lexes us ts' vs) :
    Lexes cs (ts ++ ts') vs := by
  induction first with
  | done => exact next
  | token h _ ih => exact .token h (ih next)
  | skipped h _ ih => exact .skipped h (ih next)

theorem lexes_of_scan (h : scan start cs = .ok ls) : Lexes cs (ls.map Located.token) [] := by
  fun_induction scan start cs generalizing ls with
  | case1 =>
    obtain rfl : [] = ls := Except.ok.inj h
    exact .done
  | case2 start c r t text rest piece _ ih =>
    cases hs : scan (start + bytes text) rest with
    | error e => simp [hs, Except.map] at h
    | ok ls' =>
      obtain rfl : ⟨t, start⟩ :: ls' = ls := by simpa [hs, Except.map] using h
      exact .token piece (ih hs)
  | case3 start c r text rest piece _ ih => exact .skipped piece (ih h)
  | case4 => contradiction

theorem scan_of_lexes (h : Lexes cs ts us) (start : Nat) (ended : us = []) :
    ∃ ls, scan start cs = .ok ls ∧ ls.map Located.token = ts := by
  induction h generalizing start with
  | done =>
    subst ended
    exact ⟨[], by simp [scan], rfl⟩
  | @token c r t text rest ts us piece _ ih =>
    obtain ⟨ls, hs, rfl⟩ := ih (start + bytes text) ended
    refine ⟨⟨t, start⟩ :: ls, ?_, rfl⟩
    rw [scan.eq_def]
    grind [Except.map]
  | @skipped c r text rest ts us piece _ ih =>
    obtain ⟨ls, hs, rfl⟩ := ih (start + bytes text) ended
    refine ⟨ls, ?_, rfl⟩
    rw [scan.eq_def]
    grind

/-- A line break behind a source ends its last token or comment, and nothing else changes. -/
theorem Lexes.extend_line (h : Lexes cs ts us) (more : List Char) :
    Lexes (cs ++ '\n' :: more) ts (us ++ '\n' :: more) := by
  induction h with
  | done => exact .done
  | token piece _ ih => exact .token (lexeme_extend (.cons (by decide)) piece) ih
  | skipped piece _ ih => exact .skipped (lexeme_extend_skipped piece more) ih

/-- A carriage return at the end of a source adds no token. -/
theorem Lexes.extend_return (h : Lexes cs ts us) (ended : us = []) :
    Lexes (cs ++ ['\r']) ts [] := by
  induction h with
  | done =>
    subst ended
    exact .skipped (lexeme_of_space rfl _) .done
  | token piece _ ih => exact .token (lexeme_extend (.cons (by decide)) piece) (ih ended)
  | skipped piece tail ih =>
    have extended := lexeme_extend_return piece
    split at extended
    · rename_i none
      subst none ended
      cases tail
      exact .skipped extended .done
    · exact .skipped extended (ih ended)

/-- The characters of a token are read as the token, whatever stands behind them that does not
continue it. -/
def Lexable (t : Token) : Prop := ∀ rest, Loose rest → Lexes (chars t ++ rest) [t] rest

theorem Lexes.lexable (h : Lexes cs ts us) : ∀ t ∈ ts, Lexable t := by
  induction h with
  | done => simp
  | token piece _ ih =>
    rintro t (_ | ⟨_, member⟩)
    · intro rest loose
      obtain ⟨rfl, r', hr, again⟩ := lexeme_again piece
      rw [hr]
      exact .token (lexeme_extend loose again) .done
    · exact ih t member
  | skipped _ _ ih => exact ih

end Reckon.Lexer
