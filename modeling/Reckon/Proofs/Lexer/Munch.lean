import Reckon.Proofs.Lexer

/-! Longest matches. A token is read at a place of the source exactly if its text is the longest one
there that some pattern matches. -/
namespace Reckon.Lexer

structure DigitRun (cs : List Char) : Prop where
  ne_nil : cs ≠ []
  isDigit : ∀ c ∈ cs, c.isDigit = true

inductive Significand : List Char → Prop
  | whole : DigitRun ds → Significand ds
  | fraction : (∀ c ∈ ws, c.isDigit = true) → DigitRun fs → Significand (ws ++ '.' :: fs)

inductive Scaling : List Char → Prop
  | plain : e = 'e' ∨ e = 'E' → DigitRun ds → Scaling (e :: ds)
  | signed : e = 'e' ∨ e = 'E' → s = '+' ∨ s = '-' → DigitRun ds → Scaling (e :: s :: ds)

inductive NumberPattern : List Char → Prop
  | plain : Significand ms → NumberPattern ms
  | scaling : Significand ms → Scaling ps → NumberPattern (ms ++ ps)

/-- The texts that may be tokens. That of a keyword or a truth value may be an identifier, too. -/
inductive Pattern : Token → List Char → Prop
  | number : NumberPattern cs → Pattern (.number (String.ofList cs)) cs
  | identifier : isLetter c = true → (∀ d ∈ r, isWordPart d = true) →
      Pattern (.identifier (String.ofList (c :: r))) (c :: r)
  | boolean (b : Bool) : Pattern (.boolean b) (toString b).toList
  | symbol (s : Symbol) : Pattern (.symbol s) s.spelling.toList
  | text : '"' ∉ content → Pattern (.text (String.ofList content)) ('"' :: content ++ ['"'])

/-- A token is the longest text in front of the rest that a pattern matches. Words with a meaning of
their own are no identifiers, and no further fraction follows a number. -/
structure Munch (t : Token) (text rest : List Char) : Prop where
  pattern : Pattern t text
  longest : ∀ t' text', Pattern t' text' → text' <+: text ++ rest → text'.length ≤ text.length
  identifier : ∀ name, t = .identifier name →
    name ≠ "true" ∧ name ≠ "false" ∧ ∀ s ∈ Symbol.keywords, name ≠ s.spelling
  number : ∀ digits, t = .number digits → ∀ c r, rest = '.' :: c :: r → c.isDigit = false

theorem not_letter_of_digit (h : c.isDigit = true) : isLetter c = false := by
  have bounds : 48 ≤ c.toNat ∧ c.toNat ≤ 57 := by
    simpa [Char.isDigit, UInt32.le_iff_toNat_le] using h
  have letter : c.isAlpha =
      (decide (65 ≤ c.val ∧ c.val ≤ 90) || decide (97 ≤ c.val) && decide (c.val ≤ 122)) := rfl
  have plain : c.isAlpha = false := by
    simp only [letter, UInt32.le_iff_toNat_le, Bool.or_eq_false_iff, Bool.and_eq_false_iff,
      decide_eq_false_iff_not, Char.toNat, UInt32.reduceToNat] at bounds ⊢
    omega
  have other : c ≠ '_' := by
    rintro rfl
    exact absurd h (by decide)
  simp [isLetter, plain, other]

section Number

theorem splitWhile_all (all : ∀ c ∈ front, p c = true) (stop : ∀ c ∈ more.head?, p c = false) :
    splitWhile p (front ++ more) = (front, more) := by
  have none := splitWhile_stop stop
  simp only [splitWhile, Prod.mk.injEq] at none
  simp [splitWhile, List.takeWhile_append_of_pos all, List.dropWhile_append_of_pos all, none]

/-- A text of one kind in front is part of the longest one. -/
theorem prefix_splitWhile (all : ∀ c ∈ front, p c = true) (h : front <+: cs) :
    front <+: (splitWhile p cs).1 := by
  obtain ⟨more, rfl⟩ := h
  rw [splitWhile, List.takeWhile_append_of_pos all]
  exact List.prefix_append _ _

theorem digits_stop (all : ∀ c ∈ ws, c.isDigit = true) (stop : startsDigit more = false) :
    digits (ws ++ more) = (ws, more) := by
  refine splitWhile_all all fun c hc => ?_
  obtain ⟨more, rfl⟩ := List.head?_eq_some_iff.mp hc
  exact stop

theorem DigitRun.starts (h : DigitRun ds) (more : List Char) : startsDigit (ds ++ more) = true := by
  obtain ⟨c, r, rfl⟩ := List.exists_cons_of_ne_nil h.ne_nil
  exact h.isDigit c (by simp)

/-- Digits around a point at the front are taken as they stand, up to the last ones. -/
theorem number_fraction (whole : ∀ c ∈ ws, c.isDigit = true) (part : DigitRun fs)
    (more : List Char) :
    number (ws ++ '.' :: (fs ++ more)) =
      (ws ++ '.' :: ((digits (fs ++ more)).1 ++ (exponent (digits (fs ++ more)).2).1),
        (exponent (digits (fs ++ more)).2).2) := by
  have front : digits (ws ++ '.' :: (fs ++ more)) = (ws, '.' :: (fs ++ more)) :=
    digits_stop whole rfl
  simp [number, front, fraction, part.starts]

theorem Significand.prefix_number (h : Significand ms) (front : ms <+: cs) : ms <+: (number cs).1 := by
  cases h with
  | whole part =>
    refine (prefix_splitWhile part.isDigit front).trans ?_
    simp [number, digits]
  | @fraction ws fs whole part =>
    obtain ⟨more, rfl⟩ := front
    have digits_ : fs <+: (digits (fs ++ more)).1 :=
      prefix_splitWhile part.isDigit (List.prefix_append _ _)
    rw [List.append_assoc, List.cons_append, number_fraction whole part,
      List.prefix_append_right_inj, List.cons_prefix_cons]
    exact ⟨rfl, digits_.trans (List.prefix_append _ _)⟩

/-- A scaling starts with its letter. -/
theorem Scaling.starts (h : Scaling ps) (more : List Char) :
    startsDigit (ps ++ more) = false ∧ startsFraction (ps ++ more) = false := by
  cases h with
  | plain letter => rcases letter with rfl | rfl <;> exact ⟨rfl, by simp [startsFraction]⟩
  | signed letter => rcases letter with rfl | rfl <;> exact ⟨rfl, by simp [startsFraction]⟩

theorem Scaling.prefix_exponent (h : Scaling ps) (more : List Char) :
    ps <+: (exponent (ps ++ more)).1 := by
  cases h with
  | @plain e ds letter scaling =>
    obtain ⟨d, ds, rfl⟩ := List.exists_cons_of_ne_nil scaling.ne_nil
    have digit : d.isDigit = true := scaling.isDigit d (by simp)
    have unsigned : d ≠ '+' ∧ d ≠ '-' := by
      constructor <;> rintro rfl <;> exact absurd digit (by decide)
    have front : d :: ds <+: (digits (d :: (ds ++ more))).1 :=
      prefix_splitWhile scaling.isDigit ⟨more, rfl⟩
    rcases letter with rfl | rfl <;> simpa [exponent, unsigned, digit] using front
  | @signed e s ds letter sign scaling =>
    have front : ds <+: (digits (ds ++ more)).1 :=
      prefix_splitWhile scaling.isDigit (List.prefix_append _ _)
    rcases letter with rfl | rfl <;> rcases sign with rfl | rfl <;>
      simpa [exponent, scaling.starts] using front

/-- With a scaling behind it a significand is taken as it stands. -/
theorem Significand.number_scaling (h : Significand ms) (scaling : Scaling ps) (more : List Char) :
    (number (ms ++ (ps ++ more))).1 = ms ++ (exponent (ps ++ more)).1 := by
  obtain ⟨digit, point⟩ := scaling.starts more
  cases h with
  | whole part =>
    have front : digits (ms ++ (ps ++ more)) = (ms, ps ++ more) := digits_stop part.isDigit digit
    simp only [number, front, fraction_eq_nil point, List.append_nil]
  | @fraction ws fs whole part =>
    have front : digits (fs ++ (ps ++ more)) = (fs, ps ++ more) := digits_stop part.isDigit digit
    rw [List.append_assoc, List.cons_append, number_fraction whole part, front]
    simp

/-- No number in front is longer than the one that is read. -/
theorem NumberPattern.prefix_number (h : NumberPattern text) (front : text <+: cs) :
    text <+: (number cs).1 := by
  cases h with
  | plain significand => exact significand.prefix_number front
  | scaling significand scaling =>
    obtain ⟨more, rfl⟩ := front
    rw [List.append_assoc, significand.number_scaling scaling, List.prefix_append_right_inj]
    exact scaling.prefix_exponent more

theorem digits_of_starts (h : startsDigit cs = true) : DigitRun (digits cs).1 where
  ne_nil := by
    obtain ⟨c, r, rfl⟩ : ∃ c r, cs = c :: r := by
      cases cs with
      | nil => cases h
      | cons c r => exact ⟨c, r, rfl⟩
    exact splitWhile_ne_nil _ c r h
  isDigit := List.all_eq_true.mp List.all_takeWhile

theorem fraction_cases (cs : List Char) :
    (fraction cs).1 = [] ∨ ∃ fs, DigitRun fs ∧ (fraction cs).1 = '.' :: fs := by
  unfold fraction
  split
  · split
    · rename_i digit
      exact .inr ⟨_, digits_of_starts digit, rfl⟩
    · exact .inl rfl
  · exact .inl rfl

theorem exponent_cases (cs : List Char) : (exponent cs).1 = [] ∨ Scaling (exponent cs).1 := by
  unfold exponent
  split
  · split
    · rename_i e r letter
      have letter : e = 'e' ∨ e = 'E' := by simpa using letter
      split
      · split
        · rename_i s ds signed
          obtain ⟨sign, digit⟩ : (s = '+' ∨ s = '-') ∧ startsDigit ds = true := by
            simpa using signed
          exact .inr (.signed letter sign (digits_of_starts digit))
        · split
          · rename_i digit
            exact .inr (.plain letter (digits_of_starts digit))
          · exact .inl rfl
      · exact .inl rfl
    · exact .inl rfl
  · exact .inl rfl

theorem significand_of_starts (h : StartsNumber c r) :
    Significand ((digits (c :: r)).1 ++ (fraction (digits (c :: r)).2).1) := by
  have all : ∀ d ∈ (digits (c :: r)).1, d.isDigit = true :=
    List.all_eq_true.mp List.all_takeWhile
  rcases fraction_cases (digits (c :: r)).2 with none | ⟨fs, part, some_⟩
  · rw [none, List.append_nil]
    refine .whole (digits_of_starts ?_)
    rcases Bool.or_eq_true_iff.mp h with digit | point
    · exact digit
    · obtain ⟨r', rfl, rfl⟩ : ∃ r', c = '.' ∧ r = r' := by
        unfold startsFraction at point
        split at point
        · rename_i same
          obtain ⟨rfl, rfl⟩ := List.cons.inj same
          exact ⟨_, rfl, rfl⟩
        · contradiction
      have stop : digits ('.' :: r) = ([], '.' :: r) := splitWhile_stop (by simp)
      have digit : startsDigit r = true := point
      simp [stop, fraction, digit] at none
  · rw [some_]
    exact .fraction all part

theorem numberPattern_of_starts (h : StartsNumber c r) : NumberPattern (number (c :: r)).1 := by
  have significand := significand_of_starts h
  rcases exponent_cases (fraction (digits (c :: r)).2).2 with none | scaling
  · simp only [number, none, List.append_nil]
    exact .plain significand
  · exact .scaling significand scaling

theorem NumberPattern.starts (h : NumberPattern text) (front : text <+: c :: r) :
    StartsNumber c r := by
  have significand {ms} (h : Significand ms) (front : ms <+: c :: r) : StartsNumber c r := by
    cases h with
    | whole part =>
      obtain ⟨d, ds, rfl⟩ := List.exists_cons_of_ne_nil part.ne_nil
      obtain ⟨rfl, -⟩ := List.cons_prefix_cons.mp front
      simp [StartsNumber, part.isDigit d]
    | @fraction ws fs whole part =>
      obtain ⟨more, same⟩ := front
      cases ws with
      | nil =>
        obtain ⟨rfl, rfl⟩ := List.cons.inj same
        exact Bool.or_eq_true_iff.mpr (.inr (part.starts more))
      | cons d ws =>
        obtain ⟨rfl, -⟩ := List.cons.inj same
        simp [StartsNumber, whole d]
  cases h with
  | plain h => exact significand h front
  | scaling h => exact significand h ((List.prefix_append _ _).trans front)

theorem digit_or_point (h : StartsNumber c r) : c.isDigit = true ∨ c = '.' := by
  refine (Bool.or_eq_true_iff.mp h).imp_right fun point => ?_
  unfold startsFraction at point
  split at point
  · rename_i same
    exact (List.cons.inj same).1
  · contradiction

end Number

inductive Front (c : Char) (r text : List Char) : Prop
  | number : StartsNumber c r → NumberPattern text → Front c r text
  | word : isLetter c = true → (∀ d ∈ text, isWordPart d = true) → Front c r text
  | text : c = '"' → '"' ∉ content → text = '"' :: content ++ ['"'] → Front c r text
  | symbol (s : Symbol) : s ∈ Symbol.punctuation → text = s.spelling.toList → c.isDigit = false →
      isLetter c = false → c ≠ '.' → c ≠ '"' → Front c r text

theorem word_spelling : ∀ s ∈ Symbol.keywords, ∀ c ∈ s.spelling.toList, isLetter c = true := by
  have all : Symbol.keywords.all (fun s => s.spelling.toList.all isLetter) = true := by decide
  exact fun s hs => List.all_eq_true.mp (List.all_eq_true.mp all s hs)

theorem symbol_cases (s : Symbol) : s ∈ Symbol.keywords ∨ s ∈ Symbol.punctuation := by
  cases s <;> decide

theorem punctuation_front : ∀ s ∈ Symbol.punctuation, ∀ c ∈ s.spelling.toList.head?,
    c.isDigit = false ∧ isLetter c = false ∧ c ≠ '.' ∧ c ≠ '"' ∧ c ≠ '#' ∧ isSpace c = false := by
  have all : Symbol.punctuation.all (fun s => s.spelling.toList.head?.all fun c =>
      !c.isDigit && !isLetter c && c != '.' && c != '"' && c != '#' && !isSpace c) = true := by
    decide
  intro s hs c hc
  have front := List.all_eq_true.mp all s hs
  rw [Option.mem_def.mp hc] at front
  simpa [and_assoc] using front

theorem Pattern.front (h : Pattern t cs) (front : cs <+: c :: r) : Front c r cs := by
  have word {cs : List Char} (front : cs <+: c :: r) (some_ : cs ≠ [])
      (letters : ∀ d ∈ cs, isLetter d = true) : Front c r cs := by
    obtain ⟨d, cs, rfl⟩ := List.exists_cons_of_ne_nil some_
    obtain ⟨rfl, -⟩ := List.cons_prefix_cons.mp front
    exact .word (letters d (by simp)) fun d hd => by simp [isWordPart, letters d hd]
  cases h with
  | number number => exact .number (number.starts front) number
  | identifier letter others =>
    obtain ⟨rfl, -⟩ := List.cons_prefix_cons.mp front
    exact .word letter (List.forall_mem_cons.mpr ⟨by simp [isWordPart, letter], others⟩)
  | boolean b =>
    have letters : (toString b).toList.all isLetter = true := by cases b <;> decide
    exact word front (by cases b <;> decide) (List.all_eq_true.mp letters)
  | symbol s =>
    rcases symbol_cases s with keyword | mark
    · exact word front (spelling_ne_nil s) (word_spelling s keyword)
    · obtain ⟨d, rest, spelled⟩ := List.exists_cons_of_ne_nil (spelling_ne_nil s)
      obtain ⟨rfl, -⟩ := List.cons_prefix_cons.mp (spelled ▸ front)
      obtain ⟨digit, letter, point, quote, _⟩ := punctuation_front s mark d (by simp [spelled])
      exact .symbol s mark rfl digit letter point quote
  | text inside =>
    obtain ⟨rfl, -⟩ := List.cons_prefix_cons.mp front
    exact .text rfl inside rfl

/-- What is read as a number is the longest match, whatever follows it. -/
theorem number_longest (starts : StartsNumber c r) (pattern : Pattern t text)
    (front : text <+: c :: r) : text.length ≤ (number (c :: r)).1.length := by
  cases pattern.front front with
  | number _ number => exact (number.prefix_number front).length_le
  | word letter =>
    rcases digit_or_point starts with digit | rfl
    · simp [not_letter_of_digit digit] at letter
    · exact absurd letter (by decide)
  | text quote => rcases digit_or_point starts with digit | rfl <;> simp_all
  | symbol s _ _ digit _ point => rcases digit_or_point starts with h | h <;> simp_all

theorem numberPiece_munch (starts : StartsNumber c r)
    (h : numberPiece (c :: r) = .token t text rest) : Munch t text rest := by
  simp only [numberPiece] at h
  split at h
  · contradiction
  · rename_i whole
    obtain ⟨rfl, rfl, rfl⟩ := Piece.token.inj h
    refine ⟨.number (numberPattern_of_starts starts), fun t' text' pattern front => ?_, by simp,
      fun digits _ d r' same => ?_⟩
    · rw [number_append] at front
      exact number_longest starts pattern front
    · simpa [same, startsFraction, startsDigit] using whole

theorem ofWord_pattern (letter : isLetter c = true) (others : ∀ d ∈ r, isWordPart d = true) :
    Pattern (Token.ofWord (String.ofList (c :: r))) (c :: r) := by
  have spelled : chars (Token.ofWord (String.ofList (c :: r))) = c :: r := by
    rw [chars_ofWord, String.toList_ofList]
  unfold Token.ofWord at spelled ⊢
  split at spelled
  · rename_i same
    rw [if_pos same, ← spelled]
    exact .boolean true
  · rename_i notTrue
    rw [if_neg notTrue]
    split at spelled
    · rename_i same
      rw [if_pos same, ← spelled]
      exact .boolean false
    · rename_i notFalse
      rw [if_neg notFalse]
      split at spelled
      · rename_i keyword _
        rw [← spelled]
        exact .symbol keyword
      · exact .identifier letter others

/-- A word that is a name has no meaning of its own. -/
theorem ofWord_eq_identifier (h : Token.ofWord word = .identifier name) :
    name ≠ "true" ∧ name ≠ "false" ∧ ∀ s ∈ Symbol.keywords, name ≠ s.spelling := by
  unfold Token.ofWord at h
  split at h
  · contradiction
  · rename_i notTrue
    split at h
    · contradiction
    · rename_i notFalse
      split at h
      · contradiction
      · rename_i none
        obtain rfl := Token.identifier.inj h
        refine ⟨notTrue, notFalse, fun s keyword same => ?_⟩
        simpa [same] using List.find?_eq_none.mp none s keyword

theorem wordPiece_munch (letter : isLetter c = true)
    (h : wordPiece (c :: r) = .token t text rest) : Munch t text rest := by
  simp only [wordPiece] at h
  obtain ⟨rfl, rfl, rfl⟩ := Piece.token.inj h
  have part : isWordPart c = true := by simp [isWordPart, letter]
  have digit : c.isDigit = false := by
    cases digit : c.isDigit with
    | false => rfl
    | true => simp [not_letter_of_digit digit] at letter
  have apart : c ≠ '.' ∧ c ≠ '"' := by
    constructor <;> rintro rfl <;> exact absurd letter (by decide)
  have word : (splitWhile isWordPart (c :: r)).1 = c :: (splitWhile isWordPart r).1 := by
    simp [splitWhile, part]
  refine ⟨?_, fun t' text' pattern front => ?_, fun name => ofWord_eq_identifier,
    fun digits number => ?_⟩
  · rw [word]
    exact ofWord_pattern letter (List.all_eq_true.mp List.all_takeWhile)
  · rw [splitWhile_append] at front
    cases pattern.front front with
    | number starts => rcases digit_or_point starts with h | h <;> simp_all
    | word _ parts => exact (prefix_splitWhile parts front).length_le
    | text quote => exact absurd quote apart.2
    | symbol _ _ _ _ other => simp [letter] at other
  · unfold Token.ofWord at number
    repeat' split at number
    all_goals contradiction

/-- What stands in front of the first quote. -/
theorem takeWhile_quote (inside : '"' ∉ content) (more : List Char) :
    (content ++ '"' :: more).takeWhile (· != '"') = content := by
  have all : ∀ c ∈ content, (c != '"') = true := fun c hc => by
    simp only [bne_iff_ne]
    rintro rfl
    exact inside hc
  rw [List.takeWhile_append_of_pos all]
  simp

theorem textPiece_munch (h : textPiece r = .token t text rest) : Munch t text rest := by
  unfold textPiece at h
  split at h
  · rename_i content q tail hs
    obtain ⟨rfl, rfl, rfl⟩ := Piece.token.inj h
    have inside : '"' ∉ content := fun quote => by
      have all : ∀ c ∈ r.takeWhile (· != '"'), (c != '"') = true :=
        List.all_eq_true.mp List.all_takeWhile
      rw [show r.takeWhile (· != '"') = content from congrArg Prod.fst hs] at all
      simpa using all _ quote
    refine ⟨.text inside, fun t' text' pattern front => ?_, nofun, nofun⟩
    cases pattern.front front with
    | number starts => exact absurd (digit_or_point starts) (by decide)
    | word letter => exact absurd letter (by decide)
    | symbol s _ _ _ _ _ quote => exact absurd rfl quote
    | @text content' _ inside' same =>
      subst same
      obtain ⟨more, whole⟩ := front
      have same : content' ++ '"' :: more = content ++ '"' :: tail := by simpa using whole
      have first := takeWhile_quote inside' more
      rw [same, takeWhile_quote inside] at first
      exact Nat.le_of_eq (congrArg (fun content => ('"' :: content ++ ['"']).length) first.symm)
  · contradiction

/-- The longer spellings stand first, so the first one that fits is the longest. -/
theorem symbolPiece_munch (number : ¬StartsNumber c r) (letter : isLetter c = false)
    (quote : c ≠ '"') (h : symbolPiece c r = .token t text rest) : Munch t text rest := by
  have ordered : Symbol.punctuation.Pairwise fun s t =>
      t.spelling.toList.length ≤ s.spelling.toList.length := by decide
  unfold symbolPiece at h
  split at h
  · rename_i s found
    obtain ⟨rfl, rfl, rfl⟩ := Piece.token.inj h
    obtain ⟨fits, before, after, split, none⟩ := List.find?_eq_some_iff_append.mp found
    refine ⟨.symbol s, fun t' text' pattern front => ?_, nofun, nofun⟩
    rw [isPrefix_punctuation fits] at front
    cases pattern.front front with
    | number starts => exact absurd starts number
    | word other => simp [letter] at other
    | text other => exact absurd other quote
    | symbol s' mark same =>
      subst same
      rw [split] at mark ordered
      rcases List.mem_append.mp mark with earlier | later
      · have fits' : s'.spelling.toList.isPrefixOf (c :: r) = true :=
          List.isPrefixOf_iff_prefix.mpr front
        simpa [fits'] using none s' earlier
      · rcases List.mem_cons.mp later with rfl | later
        · exact Nat.le_refl _
        · exact (List.pairwise_cons.mp (List.pairwise_append.mp ordered).2.1).1 s' later
  · contradiction

/-- A token is the longest text in front of what follows it that a pattern matches. -/
theorem lexeme_munch (h : lexeme c r = .token t text rest) : Munch t text rest := by
  unfold lexeme at h
  split at h
  · rename_i starts
    exact numberPiece_munch starts h
  · rename_i number
    split at h
    · rename_i letter
      exact wordPiece_munch letter h
    · rename_i letter
      split at h
      · exact textPiece_munch h
      · rename_i quote
        split at h
        · contradiction
        · split at h
          · contradiction
          · exact symbolPiece_munch number (by simpa using letter) (by simpa using quote) h

theorem NumberPattern.ne_nil (h : NumberPattern cs) : cs ≠ [] := by
  have significand {ms} (h : Significand ms) : ms ≠ [] := by
    cases h with
    | whole part => exact part.ne_nil
    | fraction => simp
  cases h with
  | plain h => exact significand h
  | scaling h => simp [significand h]

theorem Pattern.ne_nil (h : Pattern t cs) : cs ≠ [] := by
  cases h with
  | number h => exact h.ne_nil
  | identifier => simp
  | boolean b => cases b <;> decide
  | symbol s => exact spelling_ne_nil s
  | text => simp

section Converse

variable {t : Token} {text rest : List Char}

/-- A part at the front that a pattern matches and that is no shorter is the longest text. -/
theorem Munch.eq_split (h : Munch t text rest) {p : List Char × List Char}
    (whole : p.1 ++ p.2 = text ++ rest) (longer : text <+: p.1) (pattern : Pattern t' p.1) :
    p = (text, rest) := by
  have shorter := h.longest t' p.1 pattern (whole ▸ List.prefix_append _ _)
  have same : text = p.1 := longer.eq_of_length_le shorter
  rw [← same, List.append_cancel_left_eq] at whole
  exact Prod.ext same.symm whole

theorem Munch.text_unique (h : Munch t text rest) (h' : Munch t' text' rest')
    (whole : text' ++ rest' = text ++ rest) : text' = text ∧ rest' = rest := by
  have shorter := h.longest t' text' h'.pattern (whole ▸ List.prefix_append _ _)
  have longer := h'.longest t text h.pattern (whole ▸ List.prefix_append _ _)
  exact List.append_inj whole (by omega)

theorem ofWord_of_name (plain : name ≠ "true" ∧ name ≠ "false" ∧
    ∀ s ∈ Symbol.keywords, name ≠ s.spelling) : Token.ofWord name = .identifier name := by
  obtain ⟨notTrue, notFalse, noKeyword⟩ := plain
  have missing : Symbol.keywords.find? (fun s => s.spelling = name) = none := by
    rw [List.find?_eq_none]
    exact fun s keyword same => noKeyword s keyword (of_decide_eq_true same).symm
  rw [Token.ofWord, if_neg notTrue, if_neg notFalse, missing]

theorem ofWord_spelling : ∀ s ∈ Symbol.keywords, Token.ofWord s.spelling = .symbol s := by
  decide

theorem spelling_inj (same : Symbol.spelling s = Symbol.spelling s') : s = s' := by
  have found (s : Symbol) : (Symbol.keywords ++ Symbol.punctuation).find?
      (fun s' => s'.spelling = s.spelling) = some s := by
    cases s <;> rfl
  have h := found s
  rw [same, found s'] at h
  exact (Option.some.inj h).symm

theorem lexeme_of_letter (letter : isLetter c = true) (r : List Char) :
    lexeme c r = wordPiece (c :: r) := by
  have number : ¬StartsNumber c r := fun starts => by
    rcases digit_or_point starts with digit | rfl
    · simp [not_letter_of_digit digit] at letter
    · exact absurd letter (by decide)
  rw [lexeme, if_neg number, if_pos letter]

/-- A word is read as far as it goes, and means what it says. -/
theorem lexeme_word (h : Munch t text rest) (whole : text ++ rest = c :: r)
    (letter : isLetter c = true) (parts : ∀ d ∈ text, isWordPart d = true)
    (meaning : Token.ofWord (String.ofList text) = t) : lexeme c r = .token t text rest := by
  have part : isWordPart c = true := by simp [isWordPart, letter]
  have word : (splitWhile isWordPart (c :: r)).1 = c :: (splitWhile isWordPart r).1 := by
    simp [splitWhile, part]
  have pattern := ofWord_pattern letter
    (show ∀ d ∈ (splitWhile isWordPart r).1, isWordPart d = true from
      List.all_eq_true.mp List.all_takeWhile)
  have split : splitWhile isWordPart (c :: r) = (text, rest) :=
    h.eq_split (by rw [splitWhile_append, whole])
      (prefix_splitWhile parts (whole ▸ List.prefix_append _ _)) (word ▸ pattern)
  rw [lexeme_of_letter letter, wordPiece, split]
  simp only [meaning]

theorem lexeme_number (h : Munch (.number ds) text rest) (whole : text ++ rest = c :: r)
    (pattern : NumberPattern text) : lexeme c r = .token (.number (String.ofList text)) text rest := by
  have starts : StartsNumber c r := pattern.starts (whole ▸ List.prefix_append _ _)
  have split : number (c :: r) = (text, rest) :=
    h.eq_split (by rw [number_append, whole])
      (pattern.prefix_number (whole ▸ List.prefix_append _ _))
      (.number (numberPattern_of_starts starts))
  have single : startsFraction rest = false := by
    unfold startsFraction
    split
    · rename_i more
      cases more with
      | nil => rfl
      | cons d more => exact h.number ds rfl d more rfl
    · rfl
  rw [lexeme_of_number starts, numberPiece, split]
  simp [single]

theorem lexeme_text (inside : '"' ∉ content) (rest : List Char) :
    lexeme '"' (content ++ '"' :: rest) =
      .token (.text (String.ofList content)) ('"' :: content ++ ['"']) rest := by
  have split : splitWhile (· != '"') (content ++ '"' :: rest) = (content, '"' :: rest) := by
    refine splitWhile_all (fun c hc => ?_) (by simp)
    rw [bne_iff_ne]
    rintro rfl
    exact inside hc
  change textPiece (content ++ '"' :: rest) = _
  rw [textPiece, split]

theorem lexeme_letters (h : Munch t text rest) (whole : text ++ rest = c :: r)
    (letters : ∀ d ∈ text, isLetter d = true) (meaning : Token.ofWord (String.ofList text) = t) :
    lexeme c r = .token t text rest := by
  obtain ⟨d, ds, rfl⟩ := List.exists_cons_of_ne_nil h.pattern.ne_nil
  obtain ⟨rfl, -⟩ := List.cons.inj whole
  exact lexeme_word h whole (letters d (by simp))
    (fun c hc => by simp [isWordPart, letters c hc]) meaning

theorem lexeme_symbol (h : Munch (.symbol s) s.spelling.toList rest)
    (whole : s.spelling.toList ++ rest = c :: r) (mark : s ∈ Symbol.punctuation) :
    lexeme c r = .token (.symbol s) s.spelling.toList rest := by
  have front : s.spelling.toList <+: c :: r := whole ▸ List.prefix_append _ _
  obtain ⟨d, ds, spelled⟩ := List.exists_cons_of_ne_nil (spelling_ne_nil s)
  obtain ⟨rfl, -⟩ := List.cons_prefix_cons.mp (spelled ▸ front)
  obtain ⟨digit, letter, point, quote, comment, space⟩ :=
    punctuation_front s mark d (by simp [spelled])
  have number : ¬StartsNumber d r := fun starts => by
    rcases digit_or_point starts with h | h <;> simp_all
  have other : lexeme d r = symbolPiece d r := by
    rw [lexeme, if_neg number]
    simp [letter, quote, comment, space]
  obtain ⟨s', found⟩ : ∃ s', Symbol.punctuation.find?
      (fun s => s.spelling.toList.isPrefixOf (d :: r)) = some s' := by
    rw [← Option.isSome_iff_exists, List.find?_isSome]
    exact ⟨s, mark, List.isPrefixOf_iff_prefix.mpr front⟩
  have piece : symbolPiece d r = .token (.symbol s') s'.spelling.toList
      ((d :: r).drop s'.spelling.toList.length) := by rw [symbolPiece, found]
  -- What is found is a longest match as well, and no two symbols are spelled alike.
  have munch := symbolPiece_munch number letter quote piece
  have fits : s'.spelling.toList.isPrefixOf (d :: r) = true := by simpa using List.find?_some found
  obtain ⟨same, rfl⟩ := h.text_unique munch (by rw [isPrefix_punctuation fits, whole])
  obtain rfl : s' = s := spelling_inj (String.toList_inj.mp same)
  rw [other, piece]

/-- The longest text at its place is read, as the token that its pattern makes of it. -/
theorem lexeme_of_munch (h : Munch t text rest) (whole : text ++ rest = c :: r) :
    lexeme c r = .token t text rest := by
  have pattern := h.pattern
  cases pattern with
  | number number => exact lexeme_number h whole number
  | @identifier d ds letter others =>
    obtain ⟨rfl, -⟩ := List.cons.inj whole
    have part : isWordPart d = true := by simp [isWordPart, letter]
    exact lexeme_word h whole letter (List.forall_mem_cons.mpr ⟨part, others⟩)
      (ofWord_of_name (h.identifier _ rfl))
  | boolean b =>
    have letters : (toString b).toList.all isLetter = true := by cases b <;> decide
    exact lexeme_letters h whole (List.all_eq_true.mp letters) (by cases b <;> decide)
  | symbol s =>
    rcases symbol_cases s with keyword | mark
    · refine lexeme_letters h whole (word_spelling s keyword) ?_
      rw [String.ofList_toList]
      exact ofWord_spelling s keyword
    · exact lexeme_symbol h whole mark
  | @text content inside =>
    rw [List.append_assoc] at whole
    obtain ⟨rfl, rfl⟩ := List.cons.inj whole
    exact lexeme_text inside rest

end Converse

end Reckon.Lexer
