import Reckon.Proofs.Lexer.Layout
import Reckon.Proofs.Script.Statements

/-! Layout has no meaning. Blanks and comments between the tokens of a source change neither its tokens
nor its tree nor what it evaluates to: only offsets move. -/
namespace Reckon

open Lexer

namespace Lexer

/-- A text is cut at a byte in one way only. -/
theorem split_unique {front : List Char} (whole : front ++ back = front' ++ back')
    (same : bytes front = bytes front') : front = front' ∧ back = back' := by
  have none {text : List Char} (width : bytes text = 0) : text = [] :=
    Classical.byContradiction fun some_ => absurd width (Nat.ne_of_gt (bytes_pos some_))
  rcases List.append_eq_append_iff.mp whole with ⟨inside, rfl, rfl⟩ | ⟨inside, rfl, rfl⟩ <;>
  · rw [bytes_append] at same
    obtain rfl := none (show bytes inside = 0 by omega)
    simp

/-- A place between the tokens of a source, by its byte. -/
theorem Laid.split (h : Laid 0 cs ls)
    (place : p = bytes cs ∨ ∃ l ∈ ls, p = l.offset ∨ p = l.offset + bytes (chars l.token)) :
    ∃ front back, cs = front ++ back ∧ bytes front = p ∧ Between ls p back := by
  rcases place with rfl | ⟨l, member, before | after⟩
  · exact ⟨cs, [], by simp, rfl, .ended rfl⟩
  · obtain ⟨front, back, rfl, at_⟩ := h.locate member
    exact ⟨front, _, rfl, by omega, .before member before⟩
  · obtain ⟨front, back, rfl, at_⟩ := h.locate member
    refine ⟨front ++ chars l.token, back, by simp, ?_, .after member after⟩
    rw [bytes_append]
    omega

/-- A comment may stand in front of a line break or at the end. -/
theorem Laid.comment_gap (h : Laid 0 (front ++ back) ls) (line : '\n' ∉ text)
    (ends : bytes front = bytes (front ++ back) ∨ ⟨.symbol .newline, bytes front⟩ ∈ ls) :
    Gap back ('#' :: text) := by
  refine .comment line ?_
  rcases ends with atEnd | atLine
  · have whole : front ++ back = (front ++ back) ++ [] := (List.append_nil _).symm
    obtain ⟨-, rfl⟩ := split_unique whole atEnd
    nofun
  · obtain ⟨front', back', whole, at_⟩ := h.locate atLine
    rw [Nat.zero_add] at at_
    obtain ⟨-, rfl⟩ := split_unique whole at_.symm
    simp [chars, Symbol.spelling]

end Lexer

def Failure.relocate (f : Nat → Nat) : Failure → Failure
  | unrecognized u => unrecognized ⟨u.text, f u.offset⟩
  | malformed m => malformed (m.relocate f)
  | fault x => fault x

/-- A source whose tokens are moved reads as the same tree or fails with the same mistake, moved. -/
theorem Expr.read_relocate {source source' : String} (tokens : tokenize source = .ok ls)
    (tokens' : tokenize source' = .ok (ls.map (Located.relocate f)))
    (stop : source'.utf8ByteSize = f source.utf8ByteSize) :
    Expr.read source' = ((Expr.read source).map (Expr.relocate f)).mapError (Failure.relocate f) := by
  simp only [Expr.read, tokens, tokens', stop, ofTokens_relocate]
  cases Expr.ofTokens ls source.utf8ByteSize <;> rfl

/-- Sources with the same tree up to offsets do the same in any engine. -/
theorem Engine.eval_relocate {source source' : String}
    (read : Expr.read source' =
      ((Expr.read source).map (Expr.relocate f)).mapError (Failure.relocate f))
    (offered : Host) (e : Engine) : e.eval offered source' =
      ((e.eval offered source).1.mapError (Failure.relocate f), (e.eval offered source).2) := by
  have program (t : Expr) :
      Program.ofExpr (t.relocate f) e.settings = Program.ofExpr t e.settings := by
    rw [Program.ofExpr, ← Expr.compile_skeleton, Expr.skeleton_relocate, Expr.compile_skeleton]
    rfl
  have compiled : e.compile source' = (e.compile source).mapError (Failure.relocate f) := by
    rw [compile, compile, read]
    cases Expr.read source with
    | error failure => rfl
    | ok t =>
      change (Program.ofExpr (t.relocate f) e.settings).mapError Failure.fault =
        ((Program.ofExpr t e.settings).mapError Failure.fault).mapError _
      rw [program]
      cases Program.ofExpr t e.settings <;> rfl
  rw [eval, eval, compiled]
  cases e.compile source with
  | error failure => rfl
  | ok p =>
    simp only [Except.mapError]
    rcases p.evaluate offered e.machine with ⟨_ | _, _⟩ <;> rfl

/-- Blanks between the tokens of a source, or a comment in front of one of its line breaks or at its end,
leave its tokens as they are and move those behind by their bytes. The source is read as the same tree or
fails with the same mistake, up to offsets, and any engine makes the same of it. -/
theorem Engine.eval_layout {source gap : String} (tokens : tokenize source = .ok ls)
    (place : p = source.utf8ByteSize ∨
      ∃ l ∈ ls, p = l.offset ∨ p = l.offset + bytes (chars l.token))
    (blank : (∀ c ∈ gap.toList, c = ' ' ∨ c = '\t' ∨ c = '\r' ∨ c = '\x0c') ∨
      (∃ text, gap.toList = '#' :: text ∧ '\n' ∉ text ∧
        (p = source.utf8ByteSize ∨ ⟨.symbol .newline, p⟩ ∈ ls))) :
    ∃ front back : String, source = front ++ back ∧ front.utf8ByteSize = p ∧
      tokenize (front ++ gap ++ back) =
        .ok (ls.map (Located.relocate (shift p gap.utf8ByteSize))) ∧
      Expr.read (front ++ gap ++ back) =
        ((Expr.read source).map (Expr.relocate (shift p gap.utf8ByteSize))).mapError
          (Failure.relocate (shift p gap.utf8ByteSize)) ∧
      ∀ (offered : Host) (e : Engine), e.eval offered (front ++ gap ++ back) =
        ((e.eval offered source).1.mapError (Failure.relocate (shift p gap.utf8ByteSize)),
          (e.eval offered source).2) := by
  have width (s : String) : s.utf8ByteSize = bytes s.toList := by
    rw [← utf8ByteSize_ofList, String.ofList_toList]
  have laid := laid_of_scan tokens
  rw [width source] at place blank
  obtain ⟨front, back, whole, rfl, between⟩ := laid.split place
  rw [whole] at laid blank
  have filler : Gap back gap.toList := by
    rcases blank with spaces | ⟨text, comment, line, ends⟩
    · exact .blanks fun c hc => by simpa [isSpace, or_assoc] using spaces c hc
    · rw [comment]
      exact laid.comment_gap line ends
  have moved := laid.insert filler (.inr (by rwa [Nat.zero_add]))
  rw [Nat.zero_add, ← width gap] at moved
  have tokens' : tokenize (String.ofList front ++ gap ++ String.ofList back) =
      .ok (ls.map (Located.relocate (shift (bytes front) gap.utf8ByteSize))) := by
    rw [tokenize, String.toList_append, String.toList_append, String.toList_ofList,
      String.toList_ofList, List.append_assoc]
    exact scan_of_laid moved
  have read := Expr.read_relocate tokens tokens' (by
    rw [width source, whole, bytes_append, String.utf8ByteSize_append, String.utf8ByteSize_append,
      utf8ByteSize_ofList, utf8ByteSize_ofList, shift, if_neg (by omega)]
    omega)
  refine ⟨String.ofList front, String.ofList back, ?_, utf8ByteSize_ofList front, tokens', read,
    fun offered e => eval_relocate read offered e⟩
  rw [← String.toList_inj, whole]
  simp

/-- A comment of four bytes behind an assignment. -/
theorem Engine.eval_layout_comment :
    let ls : List Located := [⟨.identifier "a", 0⟩, ⟨.symbol .equals, 2⟩, ⟨.number "1", 4⟩,
      ⟨.symbol .newline, 5⟩, ⟨.number "2", 6⟩, ⟨.identifier "a", 8⟩]
    let f := shift 5 "# ü".utf8ByteSize
    tokenize "a = 1\n2 a" = .ok ls ∧ ⟨.symbol .newline, 5⟩ ∈ ls ∧
      ∃ front back : String, "a = 1\n2 a" = front ++ back ∧ front.utf8ByteSize = 5 ∧
        tokenize (front ++ "# ü" ++ back) = .ok (ls.map (Located.relocate f)) ∧
        Expr.read (front ++ "# ü" ++ back) =
          ((Expr.read "a = 1\n2 a").map (Expr.relocate f)).mapError (Failure.relocate f) ∧
        ∀ (offered : Host) (e : Engine), e.eval offered (front ++ "# ü" ++ back) =
          ((e.eval offered "a = 1\n2 a").1.mapError (Failure.relocate f),
            (e.eval offered "a = 1\n2 a").2) := by
  intro ls f
  have tokens : tokenize "a = 1\n2 a" = .ok ls := by with_unfolding_all rfl
  have line : (⟨.symbol .newline, 5⟩ : Located) ∈ ls := by decide
  exact ⟨tokens, line, eval_layout tokens (.inr ⟨_, line, .inl rfl⟩)
    (.inr ⟨[' ', 'ü'], rfl, by decide, .inr line⟩)⟩

end Reckon
