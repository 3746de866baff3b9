import Reckon.Proofs.Engine.Frames
import Reckon.Proofs.Evaluate.Bindings
import Reckon.Proofs.Operation.Shape
import Reckon.Proofs.Program

/-! No evaluation makes a ragged array. Array literals are checked, operations make full arrays of
full arrays, and a source contains no other values than those of its literals. -/
namespace Reckon

namespace Value

mutual

def parts : Value → List Value
  | array items => array items :: partsAll items
  | v => [v]

def partsAll : List Value → List Value
  | [] => []
  | v :: vs => v.parts ++ partsAll vs

end

/-- Every array in the value, at any depth, has dimensions. -/
def Even (v : Value) : Prop := ∀ part ∈ v.parts, ∃ ds, part.dimensions = .ok ds

/-- No array is ragged, neither in the value itself nor among the values written in the body of a
function. What a host function makes of its arguments is not known, so there must be none. -/
inductive Rectangular : Value → Prop
  | scalar : v.Scalar → Rectangular v
  | array : (array items).dimensions = .ok ds → (∀ v ∈ items, Rectangular v) →
      Rectangular (array items)
  | operation : Rectangular (.function (.operation stamp op))
  | user : (∀ v ∈ code.constants, Rectangular v) →
      Rectangular (.function (.user stamp name parameters code s))

theorem mem_partsAll : part ∈ partsAll items ↔ ∃ v ∈ items, part ∈ v.parts := by
  induction items with
  | nil => simp [partsAll]
  | cons v items ih => simp [partsAll, ih]

namespace Rectangular

theorem even {v : Value} (h : v.Rectangular) : v.Even := by
  have leaf {v : Value} (leaf : v.isArray = false) : v.Even := by
    intro part member
    obtain rfl : part = v := by
      cases v with
      | array => contradiction
      | _ => exact List.mem_singleton.mp member
    exact ⟨[], (Full.leaf leaf trivial : Full (fun _ => True) [] part).dimensions⟩
  induction h with
  | scalar scalar => exact leaf scalar.isArray
  | operation | user => exact leaf rfl
  | array dims _ ih =>
    intro part member
    rcases List.mem_cons.mp member with rfl | inner
    · exact ⟨_, dims⟩
    · obtain ⟨v, hv, inside⟩ := mem_partsAll.mp inner
      exact ih v hv part inside

theorem exists_full {v : Value} (h : v.Rectangular) : ∃ ds, Full Rectangular ds v := by
  induction h with
  | scalar scalar => exact ⟨[], .leaf scalar.isArray (.scalar scalar)⟩
  | operation => exact ⟨[], .leaf rfl .operation⟩
  | user constants => exact ⟨[], .leaf rfl (.user constants)⟩
  | array dims _ ih =>
    obtain ⟨inner, none, same, rfl⟩ := dimensions_array.mp dims
    refine ⟨_, .array rfl none fun v hv => ?_⟩
    obtain ⟨ds, full⟩ := ih v hv
    obtain rfl : ds = inner := Except.ok.inj (full.dimensions.symm.trans (same v hv))
    exact full

end Rectangular

theorem Full.rectangular (h : Full Rectangular ds v) : v.Rectangular := by
  induction h with
  | leaf _ rectangular => exact rectangular
  | array length none items ih =>
    exact .array (Full.array length none items).dimensions ih

/-- A value is rectangular if it is full and its leaves are. -/
theorem rectangular_iff_full {v : Value} : v.Rectangular ↔ ∃ ds, Full Rectangular ds v :=
  ⟨Rectangular.exists_full, fun ⟨_, full⟩ => full.rectangular⟩

theorem kept_rectangular (offered : Host) : Kept Rectangular offered where
  scalar := .scalar
  operation := .operation
  user := by
    refine ⟨fun h => ?_, .user⟩
    cases h with
    | scalar scalar => exact scalar.elim
    | user constants => exact constants
  host h := by
    cases h with
    | scalar scalar => exact scalar.elim
  array items dims := .array dims items
  call arguments made := rectangular_iff_full.mpr <|
    Operation.full_call (fun v hv => (arguments v hv).exists_full) (fun _ => .scalar) made
  select h made := by
    obtain ⟨ds, full⟩ := h.exists_full
    exact rectangular_iff_full.mpr (full.select (fun _ => .scalar) made)

end Value

theorem Literal.value_scalar {mode : LiteralMode} {l : Literal} (made : l.value mode = .ok v) :
    v.Scalar := by
  cases l with
  | number digits =>
    rcases numberLiteral_cases mode digits with ⟨q, same⟩ | same | same <;>
      cases same.symm.trans made
    · exact Value.scalar_exact _
    · exact Value.scalar_number _
  | text | boolean =>
    cases made
    trivial

namespace Expr

mutual

/-- A source contains no values but those of its literals. -/
theorem compile_constants : (e : Expr) → compile mode e = .ok x → ∀ v ∈ x.constants, v.Scalar
  | literal .., h => by
    cases compile_eq_ok.mp h with
    | literal made => exact List.forall_mem_singleton.mpr (Literal.value_scalar made)
  | name .., h => by
    cases compile_eq_ok.mp h
    simp [Executable.constants]
  | unary _ e _, h | define _ _ e _, h | assign _ e _, h => by
    cases compile_eq_ok.mp h
    rw [Executable.constants]
    exact compile_constants e ‹_›
  | binary _ l r _, h => by
    cases compile_eq_ok.mp h with
    | binary left right =>
      exact List.forall_mem_append.mpr ⟨compile_constants l left, compile_constants r right⟩
  | call _ es _, h | block es _, h | matrix es _, h => by
    cases compile_eq_ok.mp h
    rw [Executable.constants]
    exact compileAll_constants es ‹_›
  | index e es _, h => by
    cases compile_eq_ok.mp h with
    | index object indices =>
      exact List.forall_mem_append.mpr ⟨compile_constants e object, compileAll_constants es indices⟩

theorem compileAll_constants :
    (es : List Expr) → compileAll mode es = .ok xs → ∀ v ∈ Executable.constantsAll xs, v.Scalar
  | [], h => by
    cases h
    simp [Executable.constantsAll]
  | e :: es, h => by
    obtain _ | ⟨first, rest⟩ := compileAll_eq_ok.mp h
    exact List.forall_mem_append.mpr
      ⟨compile_constants e first, compileAll_constants es (compileAll_eq_ok.mpr rest)⟩

end

end Expr

namespace Engine

/-- The engines that evaluations of sources lead to. The host may bind and remove names, but it
offers no functions and no ragged arrays. -/
inductive Sourced : Engine → Prop
  | new (s : Settings) : Sourced (new s)
  | eval (offered : Host) (source : String) : Sourced e → Sourced (e.eval offered source).2
  | set (name : String) : v.Rectangular → Sourced e → Sourced (e.set name v)
  | remove (name : String) : Sourced e → Sourced (e.remove name).1
  | clear : Sourced e → Sourced e.clear

/-- A source that is compiled starts an evaluation that finds rectangular values only. -/
theorem holds_ofProgram {e : Engine} (scope : e.scope.Holds Value.Rectangular)
    (compiled : e.compile source = .ok p) :
    (Evaluation.ofProgram p e.machine).Holds Value.Rectangular := by
  refine ⟨scope, fun v member => .scalar ?_⟩
  obtain ⟨t, x, _, made, rfl⟩ := compile_eq_ok.mp compiled
  exact t.compile_constants made v member

theorem Sourced.holds (h : Sourced e) : e.scope.Holds Value.Rectangular := by
  induction h with
  | new s => exact .empty
  | @eval e offered source _ ih =>
    rcases e.eval_cases offered source with ⟨f, _, run⟩ | ⟨p, compiled, run⟩
    · rw [run]
      exact ih
    · rw [run]
      exact ((holds_ofProgram ih compiled).run (Value.kept_rectangular offered)).1
  | set name rectangular _ ih => exact Scope.Holds.set ih name rectangular
  | remove name _ ih => exact Scope.Holds.remove ih name
  | clear => exact .empty

/-- With sources and rectangular values of the host alone, every array is rectangular, and so are
the arrays inside it: what names are bound to, what a source evaluates to, and, whatever evaluation
is looked at inside that of a source, what it finds bound, what it leaves and what it results in. -/
theorem eval_even (h : Sourced e) (offered : Host) :
    e.scope.Holds Value.Even ∧
    (∀ source v, (e.eval offered source).1 = .ok (some v) → v.Even) ∧
    ∀ source p x, e.compile source = .ok p →
      Evaluation.Nested offered (.ofProgram p e.machine) x →
      x.machine.scope.Holds Value.Even ∧ (x.run offered).2.scope.Holds Value.Even ∧
      ∀ v, (x.run offered).1 = .ok (some v) → v.Even := by
  have even : ∀ v : Value, v.Rectangular → v.Even := fun _ => Value.Rectangular.even
  have kept := Value.kept_rectangular offered
  refine ⟨h.holds.mono even, fun source v made => ?_, fun source p x compiled inside => ?_⟩
  · rcases e.eval_cases offered source with ⟨f, _, run⟩ | ⟨p, compiled, run⟩
    · rw [run] at made
      cases made
    · rw [run, Outcome.mapError_eq_ok] at made
      exact (((holds_ofProgram h.holds compiled).run kept).2 v made).even
  · have found := (holds_ofProgram h.holds compiled).nested kept inside
    obtain ⟨left, result⟩ := found.run kept
    exact ⟨found.scope.mono even, left.mono even, fun v made => (result v made).even⟩

/-- Transposing a matrix of one row. -/
theorem eval_even_transpose :
    let row : Value := .array [.boolean true, .boolean false]
    let columns : Value := .array [.array [.boolean true], .array [.boolean false]]
    let e := (new {}).set "m" (.array [row])
    e.Sourced ∧ (e.eval .none "m'").1 = .ok (some columns) ∧ columns.Even := by
  intro row columns e
  have items : ∀ v ∈ [Value.boolean true, .boolean false], v.Rectangular :=
    List.forall_mem_cons.mpr ⟨.scalar trivial, List.forall_mem_singleton.mpr (.scalar trivial)⟩
  have sourced : e.Sourced :=
    .set "m" (.array rfl (List.forall_mem_singleton.mpr (.array rfl items))) (.new {})
  have read : Expr.read "m'" = .ok (.unary .transpose (.name "m" 0) 1) := by
    with_unfolding_all rfl
  have run : (e.eval .none "m'").1 = .ok (some columns) := by
    simp only [eval, compile_of_read read]
    rfl
  exact ⟨sourced, run, (eval_even sourced .none).2.1 "m'" columns run⟩

end Engine

end Reckon
