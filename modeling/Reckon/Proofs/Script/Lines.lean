import Mathlib.Data.List.Forall2
import Reckon.CommandLine
import Reckon.Proofs.Printer.Tokens
import Reckon.Proofs.Reader

/-! A line break ends a statement and whatever the lexer is reading, so the statements of two texts
with a line break between them are the statements of the one and then those of the other. -/
namespace Reckon

open Grammar Lexer

namespace Grammar

/-- More tokens behind a line break do not change what stands before it. -/
theorem Regular.extend {L : Phrase α} (regular : Regular L) (h : L ts a us) (more : List Token) :
    L (ts ++ .symbol .newline :: more) a (us ++ .symbol .newline :: more) := by
  obtain ⟨p, rfl, front⟩ := regular h
  rw [List.append_assoc]
  refine front.derives _ ?_
  cases us with
  | nil => simp
  | cons t us => exact id

/-- Statements before a line break and statements behind it. -/
theorem Statements.append {S : Phrase Expr} (regular : Regular S) (first : Statements S ts es)
    (next : Statements S us fs) : Statements S (ts ++ .symbol .newline :: us) (es ++ fs) := by
  induction first with
  | none => exact .separator (by decide) next
  | separator ht _ ih => exact .separator ht ih
  | last h => exact .next (regular.extend h us) (by decide) next
  | next h ht _ ih => exact .next (regular.extend h us) ht ih

end Grammar

/-- The text consists of these statements, each nested no deeper than the reader goes. -/
def Contains (cs : List Char) (es : List Expr) : Prop :=
  ∃ ts, Lexes cs ts [] ∧ Statements (Statement (layer maxNesting).expression) ts es

namespace Contains

theorem nil : Contains [] [] := ⟨[], .done, .none⟩

theorem of_read {source : String} (h : Expr.read source = .ok e) :
    ∃ es, Contains source.toList es ∧ e.skeleton = ofStatements es := by
  obtain ⟨ts, lexes, es, derived, tree⟩ := Expr.read_eq_ok h
  exact ⟨es, ⟨ts, lexes, derived⟩, tree⟩

theorem read {source : String} (h : Contains source.toList es) :
    ∃ e, Expr.read source = .ok e ∧ e.skeleton = ofStatements es := by
  obtain ⟨ts, lexes, derived⟩ := h
  rcases Expr.read_of_program lexes ⟨es, derived, rfl⟩ with found | ⟨deep, _⟩
  · exact found
  · exact absurd deep (Nat.lt_irrefl _)

/-- A text, a line break and another text. -/
theorem append (first : Contains cs es) (next : Contains ds fs) :
    Contains (cs ++ '\n' :: ds) (es ++ fs) := by
  obtain ⟨ts, lexes, derived⟩ := first
  obtain ⟨us, lexes', derived'⟩ := next
  have line : Lexes ('\n' :: ds) (.symbol .newline :: us) [] := .token rfl lexes'
  exact ⟨_, (lexes.extend_line ds).append line,
    derived.append (Statement.regular (layer_regular maxNesting).2) derived'⟩

theorem append_return (h : Contains cs es) : Contains (cs ++ ['\r']) es := by
  obtain ⟨ts, lexes, derived⟩ := h
  exact ⟨ts, lexes.extend_return rfl, derived⟩

theorem printable (h : Contains cs es) : ∀ e ∈ es, e.PrintableStatement := by
  obtain ⟨ts, lexes, derived⟩ := h
  exact Statements.makes (Statement.makes (layer_makes maxNesting).2) derived lexes.lexable

end Contains

abbrev Contents (sources : List String) (ess : List (List Expr)) : Prop :=
  List.Forall₂ (fun source es => Contains source.toList es) sources ess

theorem Contents.of_read (read : ∀ source ∈ sources, ∃ e, Expr.read source = .ok e) :
    ∃ ess, Contents sources ess := by
  induction sources with
  | nil => exact ⟨[], .nil⟩
  | cons source sources ih =>
    obtain ⟨first, others⟩ := List.forall_mem_cons.mp read
    obtain ⟨e, he⟩ := first
    obtain ⟨es, contains, _⟩ := Contains.of_read he
    obtain ⟨ess, contents⟩ := ih others
    exact ⟨es :: ess, .cons contains contents⟩

/-- Sources with line breaks between them are one source. -/
theorem Contents.intercalate (h : Contents sources ess) :
    Contains ("\n".intercalate sources).toList ess.flatten := by
  rw [String.toList_intercalate]
  induction h with
  | nil => exact .nil
  | @cons source es sources ess first others ih =>
    cases others with
    | nil => simpa using first
    | cons => exact first.append ih

namespace CommandLine

theorem contains_of_trimReturn (h : Contains (trimReturn line) es) : Contains line es := by
  unfold trimReturn at h
  split at h
  · rename_i cs reversed
    have text : line = cs.reverse ++ ['\r'] := by
      rw [← List.reverse_cons, ← reversed, List.reverse_reverse]
    rw [text]
    exact h.append_return
  · exact h

/-- A text is one source that its lines make up. -/
theorem contains_of_lines (h : Contents (splitLines cs) ess) : Contains cs ess.flatten := by
  fun_induction splitLines cs generalizing ess with
  | case1 cs _ empty =>
    cases h
    rw [List.isEmpty_iff.mp empty]
    exact .nil
  | case2 cs _ _ =>
    obtain _ | ⟨only, ⟨⟩⟩ := h
    simpa using only
  | case3 cs c rest stop _ ih =>
    obtain _ | ⟨line, others⟩ := h
    have isBreak : c = '\n' := by
      have := List.head?_dropWhile_not (· != '\n') cs
      rw [stop] at this
      simpa using this
    subst isBreak
    have text : cs = cs.takeWhile (· != '\n') ++ '\n' :: rest := by
      rw [← stop, List.takeWhile_append_dropWhile]
    rw [String.toList_ofList] at line
    rw [text]
    exact (contains_of_trimReturn line).append (ih others)

end CommandLine

end Reckon
