import Reckon.Proofs.Evaluate.Results
import Reckon.Proofs.Exact.Text
import Reckon.Proofs.Printer
import Reckon.Proofs.Script
import Reckon.Proofs.Shape

/-! Values are shown as sources that evaluate to them. What is shown of an exact value is the text
of a tree, with a sign in front of the decimal of a negative number and a matrix for an array. -/
namespace Reckon

open Grammar Lexer

namespace Value

/-- Values with a text that can be evaluated: exact numbers with all digits shown, texts that end
at their quotes, and arrays of such values. -/
inductive Writable : Value → Prop
  | exact : q.den ∣ 10 ^ 20 → Writable (.exact q)
  | boolean : Writable (.boolean b)
  | text : '"' ∉ s.toList → Writable (.text s)
  | array : (∀ v ∈ items, Writable v) → Writable (.array items)

mutual

def nesting : Value → Nat
  | array items => nestingAll items + 1
  | _ => 0

def nestingAll : List Value → Nat
  | [] => 0
  | v :: vs => max v.nesting (nestingAll vs)

end

theorem nesting_le (member : v ∈ items) : v.nesting ≤ nestingAll items := by
  induction items with
  | nil => cases member
  | cons w items ih =>
    rw [nestingAll]
    rcases List.mem_cons.mp member with rfl | rest
    · exact Nat.le_max_left _ _
    · exact (ih rest).trans (Nat.le_max_right _ _)

def decimal (q : Rat) : Expr := .literal (.number (Exact.render q)) 0

mutual

def tree : Value → Expr
  | exact q => if q < 0 then .unary .negate (decimal (-q)) 0 else decimal q
  | boolean b => .literal (.boolean b) 0
  | text s => .literal (.text s) 0
  | array items => .matrix (trees items) 0
  | _ => .block [] 0

def trees : List Value → List Expr
  | [] => []
  | v :: vs => v.tree :: trees vs

end

@[simp] theorem trees_eq_map (vs : List Value) : trees vs = vs.map tree := by
  induction vs with
  | nil => rfl
  | cons v vs ih => rw [trees, ih, List.map_cons]

theorem renderAll_eq_map (vs : List Value) : renderAll vs = vs.map render := by
  induction vs with
  | nil => rfl
  | cons v vs ih => rw [renderAll, ih, List.map_cons]

/-- A writable number shows a digit. -/
theorem shows_of_dvd {q : Rat} (fits : q.den ∣ 10 ^ 20) (fractional : q.den ≠ 1)
    (empty : Exact.fraction q = []) : q.num.natAbs / q.den ≠ 0 :=
  absurd empty (Exact.fraction_ne_nil fits fractional)

theorem written_decimal {q : Rat} (nonneg : 0 ≤ q) (fits : q.den ∣ 10 ^ 20) :
    ∃ p ≤ Exact.shownPlaces, Written p (Exact.render q).toList q := by
  obtain ⟨p, short, written, -⟩ := Exact.written_render nonneg (shows_of_dvd fits)
  rw [Exact.shown_of_dvd nonneg fits] at written
  exact ⟨p, short, written⟩

/-- A number by its sign, with the decimal that stands behind it. -/
theorem exact_cases {q : Rat} (fits : q.den ∣ 10 ^ 20) :
    (0 ≤ q ∧ (Value.exact q).tree = decimal q) ∨
    (0 ≤ -q ∧ (-q).den ∣ 10 ^ 20 ∧ (Value.exact q).tree = .unary .negate (decimal (-q)) 0 ∧
      Exact.render q = "-" ++ Exact.render (-q)) := by
  by_cases negative : q < 0
  · refine .inr ⟨by linarith, by rwa [Rat.den_neg_eq_den], by rw [tree, if_pos negative], ?_⟩
    exact Exact.render_neg negative (shows_of_dvd fits)
  · exact .inl ⟨not_lt.mp negative, by rw [tree, if_neg negative]⟩

section Tokens

theorem printable_decimal {q : Rat} (nonneg : 0 ≤ q) (fits : q.den ∣ 10 ^ 20) :
    (decimal q).Printable := by
  obtain ⟨p, _, written⟩ := written_decimal nonneg fits
  have lexes := written.lexes
  rw [String.ofList_toList] at lexes
  exact .literal (lexes.lexable _ (List.mem_singleton_self _))

theorem lexable_boolean (b : Bool) : Lexable (.boolean b) := by
  have lexes : Lexes (toString b).toList [.boolean b] [] := by
    cases b <;> exact .token rfl .done
  exact lexes.lexable _ (List.mem_singleton_self _)

theorem lexable_text {s : String} (unquoted : '"' ∉ s.toList) : Lexable (.text s) := by
  have inside : ∀ c ∈ s.toList, (c != '"') = true := fun c hc => by
    simp only [bne_iff_ne]
    rintro rfl
    exact unquoted hc
  have piece : textPiece (s.toList ++ ['"']) =
      .token (.text s) ('"' :: s.toList ++ ['"']) [] := by
    have split : splitWhile (· != '"') (s.toList ++ ['"']) = (s.toList, ['"']) := by
      simp [splitWhile, List.takeWhile_append_of_pos inside, List.dropWhile_append_of_pos inside]
    rw [textPiece, split]
    simp
  have lexes : Lexes ('"' :: (s.toList ++ ['"'])) [.text s] [] := .token piece .done
  exact lexes.lexable _ (List.mem_singleton_self _)

theorem Writable.printable (h : Writable v) : v.tree.Printable := by
  induction h with
  | exact fits =>
    rcases exact_cases fits with ⟨nonneg, same⟩ | ⟨nonneg, fits, same, _⟩ <;> rw [same]
    · exact printable_decimal nonneg fits
    · exact .unary (printable_decimal nonneg fits)
  | boolean => exact .literal (lexable_boolean _)
  | text unquoted => exact .literal (lexable_text unquoted)
  | array _ ih =>
    rw [tree, trees_eq_map]
    refine .matrix fun e member => ?_
    obtain ⟨v, hv, rfl⟩ := List.mem_map.mp member
    exact ih v hv

theorem render_decimal (q : Rat) : (decimal q).render = Exact.render q := by
  rw [decimal, Expr.render, Literal.render]

theorem render_negated (q : Rat) :
    (Expr.unary .negate (decimal q) 0).render = "-" ++ Exact.render q := by
  have simple : (decimal q).isCompound = false := rfl
  rw [Expr.render, simple, Expr.enclose, if_neg Bool.false_ne_true, render_decimal,
    Expr.renderUnary]

theorem Writable.render_tree (h : Writable v) : v.tree.render = v.render := by
  induction h with
  | exact fits =>
    rcases exact_cases fits with ⟨_, same⟩ | ⟨_, _, same, text⟩
    · rw [same, render_decimal, render]
    · rw [same, render_negated, render, text]
  | boolean => rw [tree, Expr.render, Literal.render, render]
  | text => rw [tree, Expr.render, Literal.render, render]
  | @array items _ ih =>
    have each : (items.map tree).map Expr.render = items.map render := by
      rw [List.map_map]
      exact List.map_congr_left ih
    rw [tree, trees_eq_map, Expr.render, Expr.renderAll_eq_map, each, render, renderAll_eq_map,
      Expr.commas]

end Tokens

section Derivation

/-- What is primary derives with one level of nesting more than its parts. -/
theorem derives_primary {ts : List Token} (h : ∀ us, Primary (layer n).expression (ts ++ us) e us) :
    Derives (layer (n + 1)).expression ts e :=
  fun us _ => .otherwise (Disjunction.of_unary (.power (.base (.primary (h us)))))

theorem derives_negated {ts : List Token} (h : ∀ us, Primary (layer n).expression (ts ++ us) e us) :
    Derives (layer (n + 2)).expression (.symbol .minus :: ts) (.unary .negate e 0) :=
  fun us _ => .otherwise (Disjunction.of_unary
    (.sign (s := .minus) (by decide) (.power (.base (.primary (h us))))))

/-- Every array takes one level of nesting, and a number inside two more for its sign. -/
theorem Writable.derives (h : Writable v) (room : v.nesting + 2 ≤ n) :
    Derives (layer n).expression v.tree.printed v.tree := by
  obtain ⟨n, rfl⟩ : ∃ k, n = k + 2 := ⟨n - 2, by omega⟩
  induction h generalizing n with
  | exact fits =>
    rcases exact_cases fits with ⟨_, same⟩ | ⟨_, _, same, _⟩ <;> rw [same]
    · exact derives_primary fun us => .number
    · exact derives_negated fun us => .number
  | boolean => exact derives_primary fun us => .boolean
  | text => exact derives_primary fun us => .text
  | @array items _ ih =>
    rw [nesting] at room
    -- The brackets of this array are one level, and the elements have the others.
    obtain ⟨n, rfl⟩ : ∃ k, n = k + 1 := ⟨n - 1, by omega⟩
    have each : ∀ v ∈ items, Derives (layer (n + 2)).expression v.tree.printed v.tree :=
      fun v hv => ih v hv n (by have := nesting_le hv; omega)
    refine derives_primary fun us => ?_
    rw [tree, trees_eq_map, Expr.printed, Expr.printedAll_eq_map, List.map_map]
    cases items with
    | nil => exact .noElements
    | cons v items =>
      have row := Derives.joined (s := .comma) each (by simp) (by decide)
        (.symbol .rightBracket :: us) (by simp)
      simpa [Function.comp_def] using Primary.row row

end Derivation

section Evaluation

variable {body : BodyRunner} {offered : Host} {s : Settings} {m : Machine}

theorem compile_decimal {q : Rat} (nonneg : 0 ≤ q) (fits : q.den ∣ 10 ^ 20) :
    (decimal q).compile .exact = .ok (.constant (.exact q)) := by
  obtain ⟨p, short, written⟩ := written_decimal nonneg fits
  exact Expr.compile_exact (written.read .none rfl (short.trans (by decide))) 0

def Evaluates (body : BodyRunner) (offered : Host) (s : Settings) (m : Machine) (v : Value) : Prop :=
  ∃ x, v.tree.compile .exact = .ok x ∧ x.eval body offered s m = (.ok (some v), m)

theorem evalAll_trees (each : ∀ v ∈ vs, Evaluates body offered s m v) :
    ∃ xs, Expr.compileAll .exact (vs.map tree) = .ok xs ∧
      Executable.evalAll body offered s xs m = (.ok vs, m) := by
  induction vs with
  | nil => exact ⟨[], rfl, rfl⟩
  | cons v vs ih =>
    obtain ⟨⟨x, first, run⟩, others⟩ := List.forall_mem_cons.mp each
    obtain ⟨xs, rest, runs⟩ := ih others
    refine ⟨x :: xs, ?_, Executable.evalAll_cons run runs⟩
    rw [Expr.compileAll_eq_ok] at rest ⊢
    exact .cons first rest

theorem Writable.evaluates (h : Writable v) (dims : v.dimensions = .ok ds) :
    Evaluates body offered s m v := by
  induction h generalizing ds with
  | @exact q fits =>
    unfold Evaluates
    rcases exact_cases fits with ⟨nonneg, same⟩ | ⟨nonneg, fits, same, _⟩ <;> rw [same]
    · exact ⟨_, compile_decimal nonneg fits, rfl⟩
    · have operand : Executable.eval body offered s (.constant (.exact (-q))) m =
          (.ok (some (.exact (-q))), m) := rfl
      have negated : UnaryOperator.negate.operation.call s [.exact (-q)] = .ok (.exact q) :=
        congrArg (fun q => Except.ok (Value.exact q)) (neg_neg q)
      refine ⟨_, Expr.compile_eq_ok.mpr (.unary (compile_decimal nonneg fits)), ?_⟩
      rw [Executable.eval_unary operand, negated]
      rfl
  | boolean | text => exact ⟨_, rfl, rfl⟩
  | @array items _ ih =>
    obtain ⟨inner, _, rows, rfl⟩ := dimensions_array.mp dims
    obtain ⟨xs, compiled, elements⟩ := evalAll_trees fun v member => ih v member (rows v member)
    rw [Evaluates, tree, trees_eq_map]
    exact ⟨_, Expr.compile_eq_ok.mpr (.matrix compiled), Executable.eval_matrix elements dims⟩

theorem sameAll_self (each : ∀ v ∈ vs, v.same v) : sameAll vs vs := by
  induction vs with
  | nil => rfl
  | cons v vs ih =>
    obtain ⟨first, others⟩ := List.forall_mem_cons.mp each
    simp [sameAll, first, ih others]

theorem Writable.same (h : Writable v) : v.same v := by
  induction h with
  | array _ ih => exact sameAll_self ih
  | _ => simp [Value.same]

end Evaluation

/-- The text of a writable value is one statement. -/
theorem Writable.contains (h : Writable v) (room : v.nesting + 2 ≤ maxNesting) :
    Contains v.render.toList [v.tree] := by
  have spelled := h.printable.spells [] [] .nil .done
  rw [h.render_tree, List.append_nil, List.append_nil] at spelled
  have derived := h.derives room [] (by simp)
  rw [List.append_nil] at derived
  exact ⟨v.tree.printed, spelled, .last (.expression derived)⟩

end Value

/-- An engine that reads numbers exactly evaluates the text of a value to that value again. -/
theorem Engine.eval_render {v : Value} (writable : v.Writable)
    (rectangular : Value.Full (fun _ => True) ds v) (nested : v.nesting ≤ 62) (offered : Host)
    {e : Engine} (exact : e.settings.literals = .exact) :
    e.eval offered v.render = (.ok (some v), e) ∧ v.same v := by
  obtain ⟨x, compiled, run⟩ : Value.Evaluates
      (Executable.bodies offered (maxCallDepth - e.scope.depth)) offered e.settings e.machine v :=
    writable.evaluates rectangular.dimensions
  have codes : Codes e.settings.literals v.render.toList [x] :=
    ⟨_, writable.contains (Nat.add_le_add_right nested 2),
      Expr.compileAll_eq_ok.mpr (.cons (exact ▸ compiled) .nil)⟩
  refine ⟨?_, writable.same⟩
  rw [eval_of_codes e codes]
  simp only [runStatements, Executable.evalStatements, Run.bind_of_ok run]
  rfl

/-- A matrix with a fraction below zero and a text of two lines in it. -/
theorem Engine.eval_render_matrix :
    let v : Value := .array [.array [.exact (-5 / 2), .text "a\n# [b"],
      .array [.exact 12345678901234567890123, .boolean true]]
    let e := Engine.new { literals := .exact }
    v.Writable ∧ Value.Full (fun _ => True) [2, 2] v ∧ v.nesting ≤ 62 ∧
    e.settings.literals = .exact ∧
    v.render = "[[-2.5, \"a\n# [b\"], [12345678901234567890123, true]]" ∧
    e.eval .none v.render = (.ok (some v), e) ∧ v.same v := by
  intro v e
  have pair {v w : Value} (hv : v.Writable) (hw : w.Writable) : (Value.array [v, w]).Writable :=
    .array (List.forall_mem_cons.mpr ⟨hv, List.forall_mem_singleton.mpr hw⟩)
  have fraction : (Value.exact (-5 / 2)).Writable := .exact (by decide +kernel)
  have integer : (Value.exact 12345678901234567890123).Writable :=
    .exact ⟨_, (Nat.one_mul _).symm⟩
  have writable : v.Writable :=
    pair (pair fraction (.text (by decide))) (pair integer .boolean)
  have rectangular : Value.Full (fun _ => True) [2, 2] v := Value.dimensions_eq_ok.mp rfl
  exact ⟨writable, rectangular, by decide, rfl, by decide +kernel,
    eval_render writable rectangular (by decide) .none rfl⟩

end Reckon
