import Reckon.Proofs.Lexer.Munch

/-! Tokens and the text between them make up the source: a source is scanned exactly if it can be
laid out as longest matches with blanks and comments between them, and then in one way only. -/
namespace Reckon.Lexer

/-- The characters from a byte on are those of the tokens, which start at their offsets, and between
them blanks and comments, which end before a line break or with the source. -/
inductive Laid : Nat → List Char → List Located → Prop
  | done : Laid start [] []
  | space : isSpace c = true → Laid (start + c.utf8Size) cs ls → Laid start (c :: cs) ls
  | comment : '\n' ∉ text → (∀ c ∈ rest.head?, c = '\n') →
      Laid (start + bytes ('#' :: text)) rest ls → Laid start ('#' :: text ++ rest) ls
  | token : Munch t text rest → Laid (start + bytes text) rest ls →
      Laid start (text ++ rest) (⟨t, start⟩ :: ls)

theorem Laid.spaces (all : ∀ c ∈ gap, isSpace c = true) (h : Laid (start + bytes gap) cs ls) :
    Laid start (gap ++ cs) ls := by
  induction gap generalizing start with
  | nil => exact h
  | cons c gap ih =>
    obtain ⟨first, others⟩ := List.forall_mem_cons.mp all
    exact .space first (ih others (by rwa [Nat.add_assoc]))

/-- What is passed over are blanks, or a comment up to the end of its line. -/
theorem skipped_cases (piece : lexeme c r = .skipped text rest) :
    (∀ c ∈ text, isSpace c = true) ∨
    ∃ body, text = '#' :: body ∧ '\n' ∉ body ∧ ∀ c ∈ rest.head?, c = '\n' := by
  unfold lexeme at piece
  split at piece
  · simp only [numberPiece] at piece
    split at piece <;> contradiction
  · split at piece
    · contradiction
    · split at piece
      · unfold textPiece at piece
        split at piece <;> contradiction
      · split at piece
        · rename_i comment
          obtain rfl : c = '#' := by simpa using comment
          obtain ⟨rfl, rfl⟩ := Piece.skipped.inj piece
          refine .inr ⟨r.takeWhile (· != '\n'), rfl, fun inside => ?_, fun d hd => ?_⟩
          · have all : ∀ c ∈ r.takeWhile (· != '\n'), (c != '\n') = true :=
              List.all_eq_true.mp List.all_takeWhile
            simpa using all _ inside
          · have stops := List.head?_dropWhile_not (· != '\n') ('#' :: r)
            rw [hd] at stops
            simpa using stops
        · split at piece
          · obtain ⟨rfl, rfl⟩ := Piece.skipped.inj piece
            exact .inl (List.all_eq_true.mp List.all_takeWhile)
          · unfold symbolPiece at piece
            split at piece <;> contradiction

/-- What is passed over stays so when only some of what follows it is left. -/
theorem Laid.skipped (piece : lexeme c r = .skipped text (rest ++ more))
    (h : Laid (start + bytes text) rest ls) : Laid start (text ++ rest) ls := by
  rcases skipped_cases piece with spaces | ⟨body, rfl, line, ends⟩
  · exact .spaces spaces h
  · refine .comment line (fun c hc => ends c ?_) h
    simp [Option.mem_def.mp hc]

theorem laid_of_scan (h : scan start cs = .ok ls) : Laid start cs ls := by
  -- Each turn of the scan takes a token or a gap off the front and goes on behind it.
  fun_induction scan start cs generalizing ls with
  | case1 =>
    obtain rfl : [] = ls := Except.ok.inj h
    exact .done
  | case2 start c r t text rest piece _ ih =>
    have cut := lexeme_cuts c r
    rw [piece] at cut
    cases cut with | token _ _ _ whole =>
    cases hs : scan (start + bytes text) rest with
    | error e => simp [hs, Except.map] at h
    | ok ls' =>
      obtain rfl : ⟨t, start⟩ :: ls' = ls := by simpa [hs, Except.map] using h
      exact whole ▸ .token (lexeme_munch piece) (ih hs)
  | case3 start c r text rest piece _ ih =>
    have cut := lexeme_cuts c r
    rw [piece] at cut
    cases cut with | skipped _ _ whole =>
    exact whole ▸ .skipped (List.append_nil rest ▸ piece) (ih h)
  | case4 => contradiction

theorem bytes_pos (h : cs ≠ []) : 0 < bytes cs := by
  obtain ⟨c, r, rfl⟩ := List.exists_cons_of_ne_nil h
  have := c.utf8Size_pos
  rw [bytes]
  omega

/-- Tokens start where they are looked for or later, each one behind those before it. -/
theorem Laid.offsets (h : Laid start cs ls) :
    (∀ l ∈ ls, start ≤ l.offset) ∧ (ls.map Located.offset).Pairwise (· < ·) := by
  induction h with
  | done => exact ⟨nofun, .nil⟩
  | space _ _ ih | comment _ _ _ ih =>
    exact ⟨fun l hl => Nat.le_trans (Nat.le_add_right _ _) (ih.1 l hl), ih.2⟩
  | @token t text rest start ls munch _ ih =>
    have width := bytes_pos munch.pattern.ne_nil
    have behind : ∀ l ∈ ls, start < l.offset := fun l hl => by
      have := ih.1 l hl
      omega
    exact ⟨List.forall_mem_cons.mpr ⟨Nat.le_refl _, fun l hl => Nat.le_of_lt (behind l hl)⟩,
      List.pairwise_cons.mpr ⟨List.forall_mem_map.mpr behind, ih.2⟩⟩

theorem scan_of_token (piece : lexeme c r = .token t text rest)
    (others : scan (start + bytes text) rest = .ok ls) :
    scan start (c :: r) = .ok (⟨t, start⟩ :: ls) := by
  rw [scan.eq_def]
  grind [Except.map]

theorem scan_of_skipped (piece : lexeme c r = .skipped text rest) :
    scan start (c :: r) = scan (start + bytes text) rest := by
  rw [scan.eq_def]
  grind

/-- A run of blanks is passed over as one of its blanks after the other. -/
theorem scan_space (space : isSpace c = true) (start : Nat) (cs : List Char) :
    scan start (c :: cs) = scan (start + c.utf8Size) cs := by
  have piece : lexeme c cs =
      .skipped (c :: (splitWhile isSpace cs).1) (splitWhile isSpace cs).2 := by
    rw [lexeme_of_space space]
    simp [spacePiece, splitWhile, space]
  rw [scan_of_skipped piece, bytes, ← Nat.add_assoc]
  cases cs with
  | nil => rfl
  | cons d cs =>
    cases more : isSpace d with
    | true =>
      have piece : lexeme d cs = .skipped (splitWhile isSpace (d :: cs)).1
          (splitWhile isSpace (d :: cs)).2 := by
        rw [lexeme_of_space more]
        rfl
      rw [scan_of_skipped piece]
    | false =>
      have stop : splitWhile isSpace (d :: cs) = ([], d :: cs) := splitWhile_stop (by simpa using more)
      rw [stop]
      rfl

theorem scan_comment (line : '\n' ∉ text) (ends : ∀ c ∈ rest.head?, c = '\n') (start : Nat) :
    scan start ('#' :: text ++ rest) = scan (start + bytes ('#' :: text)) rest := by
  have split : splitWhile (· != '\n') ('#' :: text ++ rest) = ('#' :: text, rest) := by
    refine splitWhile_all (fun c hc => ?_) fun c hc => by simp [ends c hc]
    rcases List.mem_cons.mp hc with rfl | inside
    · rfl
    · rw [bne_iff_ne]
      rintro rfl
      exact line inside
  have piece : lexeme '#' (text ++ rest) = .skipped ('#' :: text) rest := by
    change commentPiece ('#' :: text ++ rest) = _
    rw [commentPiece, split]
  exact scan_of_skipped piece

theorem scan_of_laid (h : Laid start cs ls) : scan start cs = .ok ls := by
  induction h with
  | done => rw [scan]
  | space space _ ih => rw [scan_space space, ih]
  | comment line ends _ ih => rw [scan_comment line ends, ih]
  | @token t text rest start ls munch _ ih =>
    obtain ⟨c, r, rfl⟩ := List.exists_cons_of_ne_nil munch.pattern.ne_nil
    exact scan_of_token (lexeme_of_munch munch rfl) ih

/-- A source has tokens exactly if it is made of them in order, each the longest text at its place
that a pattern matches and at its offset, with nothing but blanks and comments between them. -/
theorem tokenize_laid (source : String) (ls : List Located) :
    (tokenize source = .ok ls ↔ Laid 0 source.toList ls) ∧
    (tokenize source = .ok ls → (ls.map Located.offset).Pairwise (· < ·)) :=
  ⟨⟨laid_of_scan, scan_of_laid⟩, fun h => (laid_of_scan h).offsets.2⟩

/-- Exponents that are none, a keyword at the start of a name, two spellings that begin alike, and
characters of more than one byte. -/
theorem tokenize_laid_words :
    let source := "1e+.5e2 tot<=\"é\" # ü\nto"
    let ls : List Located := [⟨.number "1", 0⟩, ⟨.identifier "e", 1⟩, ⟨.symbol .plus, 2⟩,
      ⟨.number ".5e2", 3⟩, ⟨.identifier "tot", 8⟩, ⟨.symbol .lessEqual, 11⟩, ⟨.text "é", 13⟩,
      ⟨.symbol .newline, 22⟩, ⟨.symbol .toUnit, 23⟩]
    tokenize source = .ok ls ∧
      Laid 0 source.toList ls ∧ (ls.map Located.offset).Pairwise (· < ·) := by
  intro source ls
  have h : tokenize source = .ok ls := by
    dsimp only [source, ls]
    with_unfolding_all rfl
  obtain ⟨laid, ordered⟩ := tokenize_laid source ls
  exact ⟨h, laid.mp h, ordered h⟩

end Reckon.Lexer
