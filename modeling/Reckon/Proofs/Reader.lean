import Reckon.Failure
import Reckon.Proofs.Lexer
import Reckon.Proofs.Reader.Complete

/-! Reading a whole token list: the reader accepts what the grammar derives with at most
`maxNesting` levels of nesting, with the tree of the derivation, and nothing else. Reading a source
is this for the tokens of its text. -/
namespace Reckon

open Grammar Lexer

/-- A token list that derives a tree with any nesting is read as that tree, or it is too deep. -/
theorem Expr.ofTokens_of_program (h : Grammar.Program nesting (ts.map Located.token) t)
    (stop : Nat) :
    (∃ e, Expr.ofTokens ts stop = .ok e ∧ e.skeleton = t) ∨
    (maxNesting < nesting ∧ ∃ o, Expr.ofTokens ts stop = .error (.tooDeep o)) := by
  rcases Parse.program_complete (c := Cursor.ofTokens ts stop) h rfl with
    ⟨e, d, run, he⟩ | ⟨deep, o, d, run⟩
  · exact .inl ⟨e, congrArg Prod.fst run, he⟩
  · exact .inr ⟨deep, o, congrArg Prod.fst run⟩

theorem Expr.program_of_ofTokens (h : Expr.ofTokens ts stop = .ok e) :
    Grammar.Program maxNesting (ts.map Located.token) e.skeleton :=
  Parse.program_sound (c := Cursor.ofTokens ts stop)
    (d := (Parse.program (Cursor.ofTokens ts stop)).2) (Prod.ext h rfl)

/-- Reading finds a tree exactly where the grammar derives it, and fails exactly where the grammar
derives nothing. -/
theorem Expr.ofTokens_iff_program (ts : List Located) (stop : Nat) :
    (∀ t, (Expr.ofTokens ts stop).map Expr.skeleton = .ok t ↔
      Grammar.Program maxNesting (ts.map Located.token) t) ∧
    ((∃ m, Expr.ofTokens ts stop = .error m) ↔
      ∀ t, ¬Grammar.Program maxNesting (ts.map Located.token) t) := by
  have complete {t} (h : Grammar.Program maxNesting (ts.map Located.token) t) :
      ∃ e, Expr.ofTokens ts stop = .ok e ∧ e.skeleton = t := by
    rcases Expr.ofTokens_of_program h stop with found | ⟨deep, _⟩
    · exact found
    · exact absurd deep (Nat.lt_irrefl _)
  refine ⟨fun t => ⟨fun h => ?_, fun h => ?_⟩, fun failed t derived => ?_, fun none => ?_⟩
  · cases he : Expr.ofTokens ts stop with
    | error m => simp [he, Except.map] at h
    | ok e =>
      obtain rfl : e.skeleton = t := by simpa [he, Except.map] using h
      exact Expr.program_of_ofTokens he
  · obtain ⟨e, he, rfl⟩ := complete h
    rw [he]
    rfl
  · obtain ⟨m, h⟩ := failed
    obtain ⟨e, he, -⟩ := complete derived
    rw [he] at h
    contradiction
  · cases he : Expr.ofTokens ts stop with
    | error m => exact ⟨m, rfl⟩
    | ok e => exact absurd (Expr.program_of_ofTokens he) (none _)

namespace Expr

theorem tokenize_of_lexes {source : String} (h : Lexes source.toList ts []) :
    ∃ ls, tokenize source = .ok ls ∧ ls.map Located.token = ts :=
  scan_of_lexes h 0 rfl

theorem read_eq_ok {source : String} (h : read source = .ok e) :
    ∃ ts, Lexes source.toList ts [] ∧ Grammar.Program maxNesting ts e.skeleton := by
  unfold read at h
  split at h
  · contradiction
  · rename_i ls hls
    cases he : Expr.ofTokens ls source.utf8ByteSize with
    | error m =>
      rw [he] at h
      cases h
    | ok e' =>
      rw [he] at h
      cases h
      exact ⟨ls.map Located.token, lexes_of_scan hls, program_of_ofTokens he⟩

/-- A source whose tokens derive a tree with any nesting is read as that tree, or is too deep. -/
theorem read_of_program {source : String} (hts : Lexes source.toList ts [])
    (h : Grammar.Program nesting ts t) :
    (∃ e, read source = .ok e ∧ e.skeleton = t) ∨
    (maxNesting < nesting ∧ ∃ o, read source = .error (.malformed (.tooDeep o))) := by
  obtain ⟨ls, hls, rfl⟩ := tokenize_of_lexes hts
  rcases ofTokens_of_program h source.utf8ByteSize with ⟨e, he, skeleton⟩ | ⟨deep, o, he⟩
  · refine .inl ⟨e, ?_, skeleton⟩
    rw [read_of_tokens hls, he]
    rfl
  · refine .inr ⟨deep, o, ?_⟩
    rw [read_of_tokens hls, he]
    rfl

end Expr
end Reckon
