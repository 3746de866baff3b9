import Reckon.Proofs.Printer.Derivation
import Reckon.Proofs.Printer.Text
import Reckon.Proofs.Reader

/-! Printing a tree that was read and reading the text again gives the same tree, up to offsets,
unless the parentheses that the printer adds nest deeper than the reader goes. -/
namespace Reckon

open Grammar Lexer

namespace Expr

theorem isCompound_skeleton (e : Expr) : e.skeleton.isCompound = e.isCompound := by
  cases e <;> rfl

mutual

/-- No text depends on an offset. -/
theorem render_skeleton : (e : Expr) → e.skeleton.render = e.render
  | literal .. => rfl
  | name .. => rfl
  | unary op e _ => by simp [skeleton, render, render_skeleton e, isCompound_skeleton e]
  | binary op l r _ => by
    simp [skeleton, render, render_skeleton l, render_skeleton r, isCompound_skeleton]
  | call n as _ => by rw [skeleton, render, renderAll_skeletons as, render]
  | define n ps b _ => by rw [skeleton, render, render_skeleton b, render]
  | assign n v _ => by rw [skeleton, render, render_skeleton v, render]
  | block es _ => by rw [skeleton, render, renderAll_skeletons es, render]
  | matrix es _ => by rw [skeleton, render, renderAll_skeletons es, render]
  | index e is _ => by
    rw [skeleton, render, render_skeleton e, isCompound_skeleton e, renderAll_skeletons is, render]

theorem renderAll_skeletons : (es : List Expr) → renderAll (skeletons es) = renderAll es
  | [] => rfl
  | e :: es => by rw [skeletons, renderAll, render_skeleton e, renderAll_skeletons es, renderAll]

end

mutual

theorem skeleton_skeleton : (e : Expr) → e.skeleton.skeleton = e.skeleton
  | literal .. => rfl
  | name .. => rfl
  | unary _ e _ => by rw [skeleton, skeleton, skeleton_skeleton e]
  | binary _ l r _ => by rw [skeleton, skeleton, skeleton_skeleton l, skeleton_skeleton r]
  | call _ as _ => by rw [skeleton, skeleton, skeletons_skeletons as]
  | define _ _ b _ => by rw [skeleton, skeleton, skeleton_skeleton b]
  | assign _ v _ => by rw [skeleton, skeleton, skeleton_skeleton v]
  | block es _ => by rw [skeleton, skeleton, skeletons_skeletons es]
  | matrix es _ => by rw [skeleton, skeleton, skeletons_skeletons es]
  | index e is _ => by rw [skeleton, skeleton, skeleton_skeleton e, skeletons_skeletons is]

theorem skeletons_skeletons : (es : List Expr) → skeletons (skeletons es) = skeletons es
  | [] => rfl
  | e :: es => by rw [skeletons, skeletons, skeleton_skeleton e, skeletons_skeletons es]

end

/-- The text of a program lists its statements. -/
theorem render_ofStatements (es : List Expr) :
    (ofStatements es).render = String.intercalate "; " (es.map render) := by
  unfold ofStatements
  split
  · simp
  · simp [render]

theorem skeleton_ofStatements (es : List Expr) :
    (ofStatements es).skeleton = ofStatements (es.map skeleton) := by
  rcases es with _ | ⟨e, _ | ⟨e', es⟩⟩ <;> simp [ofStatements, skeleton]

/-- The statements of a tree that was read are printable. -/
theorem printable_of_read {source : String} (h : read source = .ok e) :
    ∃ es, e.skeleton = ofStatements es ∧ ∀ e ∈ es, PrintableStatement e := by
  obtain ⟨ts, lexes, es, derived, tree⟩ := read_eq_ok h
  exact ⟨es, tree, Statements.makes (Statement.makes (layer_makes maxNesting).2) derived
    lexes.lexable⟩

/-- The printed text is read as the tree that was printed, and prints as the same text again. The
only failure is nesting beyond what the reader allows. -/
theorem read_render {source : String} (h : read source = .ok e) :
    (∃ o, read e.render = .error (.malformed (.tooDeep o))) ∨
    ∃ e', read e.render = .ok e' ∧ e'.skeleton = e.skeleton ∧ e'.render = e.render := by
  obtain ⟨es, tree, printable⟩ := printable_of_read h
  have text : e.render = String.intercalate "; " (es.map render) := by
    rw [← render_skeleton e, tree, render_ofStatements]
  have spelled : Spells e.render.toList (joined .semicolon (es.map printed)) := by
    rw [text]
    exact spells_joined rfl (.cons (by decide)) fun e he => (printable e he).spells
  have lexes := spelled [] [] .nil .done
  rw [List.append_nil, List.append_nil] at lexes
  obtain ⟨n, derives⟩ := program_printed printable
  have derived := derives n (Nat.le_refl n)
  rw [← skeleton_ofStatements, ← tree, skeleton_skeleton] at derived
  rcases read_of_program lexes derived with ⟨e', he', same⟩ | ⟨_, o, deep⟩
  · refine .inr ⟨e', he', same, ?_⟩
    rw [← render_skeleton e', same, render_skeleton]
  · exact .inl ⟨o, deep⟩

theorem read_render_product :
    read "-x! y" = .ok (.binary .mul (.unary .negate (.unary .factorial (.name "x" 1) 2) 0)
      (.name "y" 4) 4) ∧
    ((∃ o, read "(-(x!)) * y" = .error (.malformed (.tooDeep o))) ∨
      ∃ e', read "(-(x!)) * y" = .ok e' ∧
        e'.skeleton = .binary .mul (.unary .negate (.unary .factorial (.name "x" 0) 0) 0)
          (.name "y" 0) 0 ∧
        e'.render = "(-(x!)) * y") := by
  have h : read "-x! y" = .ok (.binary .mul (.unary .negate (.unary .factorial (.name "x" 1) 2) 0)
      (.name "y" 4) 4) := by
    have tokens : tokenize "-x! y" = .ok [⟨.symbol .minus, 0⟩, ⟨.identifier "x", 1⟩,
        ⟨.symbol .bang, 2⟩, ⟨.identifier "y", 4⟩] := by
      with_unfolding_all rfl
    rw [read_of_tokens tokens]
    rfl
  exact ⟨h, read_render h⟩

end Expr
end Reckon
