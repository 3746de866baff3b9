import Reckon.Proofs.Evaluate.Bindings
import Reckon.Proofs.Operation.Hereditary

/-! The function values in a value. Evaluation makes none but operations and the functions that its
own code defines, so what holds of all functions in a scope and of all bodies in the code holds of
all that an evaluation comes by. -/
namespace Reckon

mutual

/-- The functions found in a value: itself, those in an array, and those in the constants of their
bodies. -/
def Value.functions : Value → List Function
  | .array items => Value.functionsAll items
  | .function f => f :: f.written
  | .number _ | .exact _ | .complex _ | .quantity _ | .boolean _ | .text _ => []

def Value.functionsAll : List Value → List Function
  | [] => []
  | v :: vs => v.functions ++ Value.functionsAll vs

def Function.written : Function → List Function
  | .user _ _ _ code _ => code.functions
  | .host _ _ _ | .operation _ _ => []

def Executable.functions : Executable → List Function
  | .constant v => v.functions
  | .symbol _ => []
  | .unary _ operand => operand.functions
  | .binary _ left right => left.functions ++ right.functions
  | .call _ arguments => Executable.functionsAll arguments
  | .define _ _ body => body.functions
  | .assign _ value => value.functions
  | .block statements => Executable.functionsAll statements
  | .matrix elements => Executable.functionsAll elements
  | .index object indices => object.functions ++ Executable.functionsAll indices

def Executable.functionsAll : List Executable → List Function
  | [] => []
  | e :: es => e.functions ++ Executable.functionsAll es

end

def Scope.functions (s : Scope) : List Function :=
  s.frames.flatMap fun f => f.bindings.flatMap fun b => b.2.functions

def Value.Every (F : Function → Prop) (v : Value) : Prop := ∀ f ∈ v.functions, F f

theorem Scope.holds_every {s : Scope} {F : Function → Prop} :
    s.Holds (Value.Every F) ↔ ∀ f ∈ s.functions, F f := by
  simp only [Holds, Frame.Holds, Value.Every, functions, List.mem_flatMap]
  constructor
  · rintro h f ⟨frame, hframe, b, hb, hf⟩
    exact h frame hframe b hb f hf
  · exact fun h frame hframe b hb f hf => h f ⟨frame, hframe, b, hb, hf⟩

namespace Value

variable {F : Function → Prop}

theorem functions_of_scalar (h : Scalar v) : v.functions = [] := by
  cases v with
  | array | function => exact h.elim
  | _ => rfl

theorem every_functionsAll {vs : List Value} :
    (∀ f ∈ functionsAll vs, F f) ↔ ∀ v ∈ vs, v.Every F := by
  induction vs with
  | nil => simp [functionsAll]
  | cons v vs ih => rw [functionsAll, List.forall_mem_append, ih, List.forall_mem_cons, Every]

/-- Arrays have the functions of their elements, and scalars have none. -/
theorem hereditary_every : Hereditary (Every F) where
  scalar h := by simp [Every, functions_of_scalar h]
  array := every_functionsAll

/-- Without host functions all functions come from definitions or are operations. -/
theorem closed_every (operation : ∀ stamp op, F (.operation stamp op))
    (host : ∀ stamp name entry, ¬F (.host stamp name entry)) (Missing : Prop) (offered : Host) :
    Closed (Every F) Missing offered where
  scalar := hereditary_every.scalar
  operation := List.forall_mem_singleton.mpr (operation _ _)
  host callable := absurd (List.forall_mem_singleton.mp callable) (host _ _ _)
  array good _ := hereditary_every.array.mpr good
  call good made := Operation.hereditary_call hereditary_every good made
  select good made := hereditary_every.select good made

theorem every_user : (function (.user stamp name parameters code s)).Every F ↔
    F (.user stamp name parameters code s) ∧ ∀ f ∈ code.functions, F f :=
  List.forall_mem_cons

end Value

namespace Executable

mutual

/-- They stand in the constants and nowhere else. -/
theorem functions_eq_constants : (e : Executable) → e.functions = e.constants.flatMap Value.functions
  | constant v => by simp [functions, constants]
  | symbol _ => rfl
  | unary _ x => functions_eq_constants x
  | binary _ l r => by
    rw [functions, functions_eq_constants l, functions_eq_constants r, constants,
      List.flatMap_append]
  | call _ es => functionsAll_eq_constants es
  | define _ _ body => functions_eq_constants body
  | assign _ x => functions_eq_constants x
  | block es => functionsAll_eq_constants es
  | matrix es => functionsAll_eq_constants es
  | index x es => by
    rw [functions, functions_eq_constants x, functionsAll_eq_constants es, constants,
      List.flatMap_append]

theorem functionsAll_eq_constants :
    (es : List Executable) → functionsAll es = (constantsAll es).flatMap Value.functions
  | [] => rfl
  | e :: es => by
    rw [functionsAll, functions_eq_constants e, functionsAll_eq_constants es, constantsAll,
      List.flatMap_append]

end

theorem functions_of_parts {e : Executable} (member : x ∈ e.parts) :
    x.functions ⊆ e.functions := by
  rw [functions_eq_constants, functions_eq_constants]
  intro f inside
  obtain ⟨v, hv, hf⟩ := List.mem_flatMap.mp inside
  exact List.mem_flatMap.mpr ⟨v, constants_of_parts member hv, hf⟩

structure Every (Code : Executable → Prop) (F : Function → Prop) (e : Executable) : Prop where
  code : Code e
  functions : ∀ f ∈ e.functions, F f

/-- Where functions are as their bodies are, code brings functions like those it contains. -/
theorem brings_every {Code : Executable → Prop} {F : Function → Prop} {Missing : Prop}
    (parts : ∀ e, Code e → ∀ x ∈ e.parts, Code x)
    (define : ∀ stamp name parameters code s, Code (.define name parameters code) →
      F (.user stamp name parameters code s))
    (body : ∀ stamp name parameters code s, F (.user stamp name parameters code s) → Code code)
    (block : Code (.block []) → Missing) :
    Brings (Every Code F) (Value.Every F) Missing where
  parts h x member := ⟨parts _ h.code x member, fun f inside =>
    h.functions f (functions_of_parts member inside)⟩
  constant h := h.functions
  define h := Value.every_user.mpr ⟨define _ _ _ _ _ h.code, h.functions⟩
  body good := ⟨body _ _ _ _ _ (Value.every_user.mp good).1, (Value.every_user.mp good).2⟩
  block h := block h.code

end Executable

end Reckon
