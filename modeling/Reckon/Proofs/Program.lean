import Reckon.Engine
import Reckon.Proofs.Outcome

/-! Compiling. The code of a tree is made of the code of its parts, and nothing can be in the way of
it but an exact literal on which reading runs over. -/
namespace Reckon

namespace Outcome

variable {otherwise : Outcome Value}

theorem ofDecimal_of_ok (read : Exact.read text = .ok q) :
    ofDecimal text otherwise = .ok (.exact q) := by
  rw [ofDecimal, read]
  rfl

theorem ofDecimal_of_refused (read : Exact.read text = .error .refused) :
    ofDecimal text otherwise = otherwise := by
  rw [ofDecimal, read]

theorem ofDecimal_of_overflow (read : Exact.read text = .error .overflow) :
    ofDecimal text otherwise = .error .overflow := by
  rw [ofDecimal, read]
  rfl

theorem ofDecimal_cases (text : String) (otherwise : Outcome Value) :
    (∃ q, ofDecimal text otherwise = .ok (.exact q)) ∨ ofDecimal text otherwise = otherwise ∨
      ofDecimal text otherwise = .error .overflow := by
  match read : Exact.read text with
  | .ok q => exact .inl ⟨q, ofDecimal_of_ok read⟩
  | .error .refused => exact .inr (.inl (ofDecimal_of_refused read))
  | .error .overflow => exact .inr (.inr (ofDecimal_of_overflow read))

def FailsBy (f : Fault) (r : Outcome α) : Prop := ∀ e, r = .error e → e = f

namespace FailsBy

theorem pure (a : α) : FailsBy f (pure a) := nofun

theorem bind {r : Outcome α} {g : α → Outcome β} (first : r.FailsBy f)
    (next : ∀ a, (g a).FailsBy f) : (r >>= g).FailsBy f := by
  intro e failed
  rcases bind_eq_error.mp failed with failed | ⟨a, _, failed⟩
  · exact first e failed
  · exact next a e failed

end FailsBy

end Outcome

theorem numberLiteral_cases (mode : LiteralMode) (digits : String) :
    (∃ q, numberLiteral mode digits = .ok (.exact q)) ∨
    numberLiteral mode digits = .ok (plainNumber digits) ∨
      numberLiteral mode digits = .error .overflow := by
  cases mode with
  | plain => exact .inr (.inl rfl)
  | exact => exact Outcome.ofDecimal_cases digits (pure (plainNumber digits))

theorem Literal.value_fails (mode : LiteralMode) (l : Literal) :
    (l.value mode).FailsBy .overflow := by
  cases l with
  | number digits =>
    intro f failed
    rcases numberLiteral_cases mode digits with ⟨q, made⟩ | made | made <;>
      cases made.symm.trans failed
    rfl
  | text | boolean => exact .pure _

namespace Expr

variable {mode : LiteralMode}

theorem compileAll_eq_mapM (mode : LiteralMode) (es : List Expr) :
    compileAll mode es = es.mapM (compile mode) := by
  induction es with
  | nil => rfl
  | cons e es ih => rw [compileAll, ih, List.mapM_cons]

theorem compileAll_eq_ok : compileAll mode es = .ok xs ↔
    List.Forall₂ (fun e x => compile mode e = .ok x) es xs := by
  rw [compileAll_eq_mapM, Outcome.mapM_eq_ok]

theorem exists_compileAll : (∃ xs, compileAll mode es = .ok xs) ↔
    ∀ e ∈ es, ∃ x, compile mode e = .ok x := by
  rw [compileAll_eq_mapM, Outcome.exists_mapM]

inductive Compiled (mode : LiteralMode) : Expr → Executable → Prop
  | literal : l.value mode = .ok v → Compiled mode (.literal l o) (.constant v)
  | name : Compiled mode (.name n o) (.symbol n)
  | unary : compile mode e = .ok x → Compiled mode (.unary op e o) (.unary op.operation x)
  | binary : compile mode l = .ok x → compile mode r = .ok y →
      Compiled mode (.binary op l r o) (.binary (.rule op.rule) x y)
  | call : compileAll mode es = .ok xs → Compiled mode (.call f es o) (.call f xs)
  | define : compile mode e = .ok x → Compiled mode (.define n ps e o) (.define n ps x)
  | assign : compile mode e = .ok x → Compiled mode (.assign n e o) (.assign n x)
  | block : compileAll mode es = .ok xs → Compiled mode (.block es o) (.block xs)
  | matrix : compileAll mode es = .ok xs → Compiled mode (.matrix es o) (.matrix xs)
  | index : compile mode e = .ok x → compileAll mode es = .ok xs →
      Compiled mode (.index e es o) (.index x xs)

theorem compile_eq_ok : compile mode e = .ok x ↔ Compiled mode e x := by
  constructor
  · intro h
    cases e with
    | name =>
      cases h
      exact .name
    | binary | index =>
      obtain ⟨y, first, h⟩ := Outcome.bind_eq_ok.mp h
      obtain ⟨z, second, h⟩ := Outcome.bind_eq_ok.mp h
      cases h
      constructor <;> assumption
    | _ =>
      obtain ⟨y, first, h⟩ := Outcome.bind_eq_ok.mp h
      cases h
      constructor
      assumption
  · intro h
    cases h with
    | name => rfl
    | binary first second | index first second => rw [compile, first, second]; rfl
    | _ first => rw [compile, first]; rfl

theorem compile_exact (read : Exact.read digits = .ok q) (o : Nat) :
    compile .exact (.literal (.number digits) o) = .ok (.constant (.exact q)) := by
  rw [compile, Literal.value, numberLiteral, Outcome.ofDecimal_of_ok read]
  rfl

mutual

theorem compile_fails : (e : Expr) → (compile mode e).FailsBy .overflow
  | literal l _ => .bind (l.value_fails mode) fun _ => .pure _
  | name .. => .pure _
  | unary _ e _ | define _ _ e _ | assign _ e _ => .bind (compile_fails e) fun _ => .pure _
  | binary _ l r _ => .bind (compile_fails l) fun _ => .bind (compile_fails r) fun _ => .pure _
  | call _ es _ | block es _ | matrix es _ => .bind (compileAll_fails es) fun _ => .pure _
  | index e es _ => .bind (compile_fails e) fun _ => .bind (compileAll_fails es) fun _ => .pure _

theorem compileAll_fails : (es : List Expr) → (compileAll mode es).FailsBy .overflow
  | [] => .pure _
  | e :: es => .bind (compile_fails e) fun _ => .bind (compileAll_fails es) fun _ => .pure _

end

end Expr

namespace Engine

theorem compile_of_read (read : Expr.read source = .ok t) (e : Engine) :
    e.compile source = (Program.ofExpr t e.settings).mapError .fault := by
  rw [compile, read]
  rfl

theorem eval_of_error {e : Engine} (failed : e.compile source = .error f) (offered : Host) :
    e.eval offered source = (.error f, e) := by
  rw [eval, failed]

/-- What a tree is compiled to is what its source is evaluated as. -/
theorem eval_of_compile {e : Engine} (read : Expr.read source = .ok t)
    (compiled : t.compile e.settings.literals = .ok x) (offered : Host) :
    e.eval offered source =
      let r := x.evaluate offered e.settings e.machine
      (r.1.mapError .fault, { e with machine := r.2 }) := by
  have made : e.compile source = .ok ⟨x, e.settings⟩ := by
    rw [compile_of_read read, Program.ofExpr, compiled]
    rfl
  rw [eval, made]
  rfl

theorem compile_eq_ok {e : Engine} : e.compile source = .ok p ↔ ∃ t x, Expr.read source = .ok t ∧
    t.compile e.settings.literals = .ok x ∧ ⟨x, e.settings⟩ = p := by
  cases read : Expr.read source with
  | error f => simp [compile, read, bind, Except.bind]
  | ok t =>
    rw [compile_of_read read, Program.ofExpr]
    cases made : t.compile e.settings.literals <;>
      simp [made, bind, Except.bind, pure, Except.pure, Except.mapError]

/-- A source that is read is compiled as its tree is, which nothing but an overflow stops. -/
theorem compile_cases (read : Expr.read source = .ok t) (e : Engine) :
    (∃ x p, t.compile e.settings.literals = .ok x ∧ e.compile source = .ok p) ∨
    t.compile e.settings.literals = .error .overflow ∧
      e.compile source = .error (.fault .overflow) := by
  rw [compile_of_read read, Program.ofExpr]
  cases compiled : t.compile e.settings.literals with
  | ok x => exact .inl ⟨x, _, rfl, rfl⟩
  | error f =>
    obtain rfl := t.compile_fails f compiled
    exact .inr ⟨rfl, rfl⟩

end Engine
end Reckon
