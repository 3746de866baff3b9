import Reckon.Proofs.Evaluate.Results
import Reckon.Proofs.Program

/-! The ways to an operation. It is found under its name in the table, called by name or through a
variable, or written as an operator. The table checks the number of arguments and so does every
operation itself; both refuse the same numbers in the same words, so all ways lead to one result. -/
namespace Reckon

namespace Operation

section

variable {op : Operation} {f : Value → Outcome Value} {g : Value → Value → Outcome Value}
  {arguments : List Value}

theorem one_of_not_accepts (refused : ¬(Arity.exactly 1).accepts arguments.length) :
    op.one f arguments = op.wrongCount (.exactly 1) arguments := by
  match arguments with
  | [] | _ :: _ :: _ => rfl
  | [_] => exact absurd rfl refused

theorem two_of_not_accepts (refused : ¬(Arity.exactly 2).accepts arguments.length) :
    op.two g arguments = op.wrongCount (.exactly 2) arguments := by
  match arguments with
  | [] | [_] | _ :: _ :: _ :: _ => rfl
  | [_, _] => exact absurd rfl refused

theorem oneOrTwo_of_not_accepts (refused : ¬(Arity.oneOf [1, 2]).accepts arguments.length) :
    op.oneOrTwo f g arguments = op.wrongCount (.oneOf [1, 2]) arguments := by
  match arguments with
  | [] | _ :: _ :: _ :: _ => rfl
  | [_] | [_, _] => exact absurd rfl refused

/-- An operation refuses by itself what the table refuses for it, with the same fault. -/
theorem run_of_not_accepts (s : Settings) (refused : ¬op.arity.accepts arguments.length) :
    op.run s arguments = op.wrongCount op.arity arguments := by
  cases op with
  | rule r => exact two_of_not_accepts refused
  | log | round | complex => exact oneOrTwo_of_not_accepts refused
  | _ => exact one_of_not_accepts refused

/-- Checking the number of arguments first makes no difference. -/
theorem call_eq_run (op : Operation) (s : Settings) (arguments : List Value) :
    op.call s arguments = op.run s arguments := by
  by_cases accepted : op.arity.accepts arguments.length
  · rw [call, if_pos accepted]
  · rw [call, if_neg accepted, run_of_not_accepts s accepted]

end

/-- No two operations have one name, and all are in the table. -/
theorem find?_name (op : Operation) : find? op.name = some op := by
  cases op with
  | rule r => cases r <;> rfl
  | _ => rfl

theorem constant?_name (op : Operation) : constant? op.name = none := by
  cases op with
  | rule r => cases r <;> rfl
  | _ => rfl

theorem dispatch_name (op : Operation) (arguments : List Value) (s : Settings) :
    dispatch op.name arguments s = op.call s arguments := by
  rw [dispatch, find?_name]

end Operation

section

variable {body : BodyRunner} {offered : Host} {s : Settings} {m : Machine}

theorem callNamed_of_operation
    (bound : m.scope.get? callee = some (.function (.operation stamp op))) :
    callNamed body offered s callee arguments m = (op.call s arguments, m) := by
  have looked : Run.lookup callee m = (.ok (some (.function (.operation stamp op))), m) := by
    rw [Run.lookup, bound]
  rw [callNamed, Run.bind_of_ok looked]
  rfl

/-- The name of an operation that is not bound means the operation as a value. -/
theorem resolve_name (op : Operation) (unbound : m.scope.get? op.name = none) :
    resolve op.name m =
      (.ok (.function (.operation m.stamps op)), { m with stamps := m.stamps + 1 }) := by
  have looked : Run.lookup op.name m = (.ok none, m) := by rw [Run.lookup, unbound]
  rw [resolve, Run.bind_of_ok looked]
  simp only [op.constant?_name, op.find?_name]
  rfl

end

namespace Operation

open Executable (eval evalAll)

/-- An operation comes to the same on all ways, faults and their words included: under its name,
with or without the check of the table, in a call where its name is not bound when the arguments
have been evaluated, in a call through a variable that is bound to what the name means elsewhere,
and for an operator as the compiled operator. -/
theorem routes_agree (op : Operation) (s : Settings) (arguments : List Value) :
    dispatch op.name arguments s = op.run s arguments ∧
    op.call s arguments = op.run s arguments ∧
    (∀ body offered nodes m m', evalAll body offered s nodes m = (.ok arguments, m') →
      m'.scope.get? op.name = none →
      eval body offered s (.call op.name nodes) m = ((op.run s arguments).map some, m')) ∧
    (∀ body offered m, m.scope.get? op.name = none → ∃ stamp m', m'.scope = m.scope ∧
      eval body offered s (.symbol op.name) m =
        (.ok (some (.function (.operation stamp op))), m')) ∧
    (∀ body offered nodes m m', evalAll body offered s nodes m = (.ok arguments, m') →
      ∀ name stamp, m'.scope.get? name = some (.function (.operation stamp op)) →
      eval body offered s (.call name nodes) m = ((op.run s arguments).map some, m')) ∧
    (∀ body offered mode m m' (u : UnaryOperator) (e : Expr) o code x, u.operation = op →
      arguments = [x] → e.compile mode = .ok code →
      eval body offered s code m = (.ok (some x), m') →
      ∃ node, (Expr.unary u e o).compile mode = .ok node ∧
        eval body offered s node m = ((op.run s arguments).map some, m')) ∧
    (∀ body offered mode m m' m'' (b : BinaryOperator) (l r : Expr) o left right x y,
      .rule b.rule = op → arguments = [x, y] →
      l.compile mode = .ok left → eval body offered s left m = (.ok (some x), m') →
      r.compile mode = .ok right → eval body offered s right m' = (.ok (some y), m'') →
      ∃ node, (Expr.binary b l r o).compile mode = .ok node ∧
        eval body offered s node m = ((op.run s arguments).map some, m'')) := by
  have checked := op.call_eq_run s arguments
  refine ⟨(op.dispatch_name arguments s).trans checked, checked, ?named, ?symbol, ?through, ?unary,
    ?binary⟩
  case named =>
    intro body offered nodes m m' evaluated unbound
    have called : callNamed body offered s op.name arguments m' = (op.call s arguments, m') :=
      callNamed_of_unbound unbound op.find?_name
    rw [Executable.eval_call evaluated called, checked]
  case symbol =>
    intro body offered m unbound
    refine ⟨m.stamps, { m with stamps := m.stamps + 1 }, rfl, ?_⟩
    rw [eval]
    exact Run.bind_some (resolve_name op unbound)
  case through =>
    intro body offered nodes m m' evaluated name stamp bound
    have called : callNamed body offered s name arguments m' = (op.call s arguments, m') :=
      callNamed_of_operation bound
    rw [Executable.eval_call evaluated called, checked]
  case unary =>
    rintro body offered mode m m' u e o code x rfl rfl compiled evaluated
    refine ⟨_, Expr.compile_eq_ok.mpr (.unary compiled), ?_⟩
    rw [Executable.eval_unary evaluated, checked]
  case binary =>
    rintro body offered mode m m' m'' b l r o _ _ x y rfl rfl compiled left compiled' right
    refine ⟨_, Expr.compile_eq_ok.mpr (.binary compiled compiled'), ?_⟩
    rw [Executable.eval_binary left right, checked]

/-- Two texts added under the name, through a variable and by the operator; the variable without
arguments; and a negation by its operator. -/
theorem routes_agree_add :
    let m : Machine := ⟨Scope.empty.set "plus" (.function (.operation 0 (.rule .add))), 1⟩
    let body : BodyRunner := fun _ _ => Run.fail .callDepth
    let a : Expr := .literal (.text "a") 0
    let b : Expr := .literal (.text "b") 6
    let nodes : List Executable := [.constant (.text "a"), .constant (.text "b")]
    (Expr.compileAll .plain [a, b] = .ok nodes ∧
      evalAll body .none {} nodes m = (.ok [.text "a", .text "b"], m) ∧
      m.scope.get? "add" = none ∧
      eval body .none {} (.call "add" nodes) m = (.ok (some (.text "ab")), m) ∧
      eval body .none {} (.call "plus" nodes) m = (.ok (some (.text "ab")), m) ∧
      ∃ node, (Expr.binary .add a b 4).compile .plain = .ok node ∧
        eval body .none {} node m = (.ok (some (.text "ab")), m)) ∧
    eval body .none {} (.call "plus" []) m =
      (.error (.argumentCount "add" 0 (.exactly 2)), m) ∧
    (∃ stamp m', m'.scope = m.scope ∧ eval body .none {} (.symbol "add") m =
      (.ok (some (.function (.operation stamp (.rule .add)))), m')) ∧
    ∃ node, (Expr.unary .not (.literal (.boolean true) 4) 0).compile .plain = .ok node ∧
      eval body .none {} node m = (.ok (some (.boolean false)), m) := by
  intro m body a b nodes
  have evaluated : evalAll body .none {} nodes m = (.ok [.text "a", .text "b"], m) := rfl
  obtain ⟨-, -, named, symbol, through, -, binary⟩ :=
    routes_agree (.rule .add) {} [.text "a", .text "b"]
  obtain ⟨-, -, -, -, refused, -, -⟩ := routes_agree (.rule .add) {} []
  obtain ⟨-, -, -, -, -, unary, -⟩ := routes_agree .not {} [.boolean true]
  exact ⟨⟨rfl, evaluated, rfl, named body .none nodes m m evaluated rfl,
      through body .none nodes m m evaluated "plus" 0 rfl,
      binary body .none .plain m m m .add a b 4 _ _ _ _ rfl rfl rfl rfl rfl rfl⟩,
    refused body .none [] m m rfl "plus" 0 rfl, symbol body .none m rfl,
    unary body .none .plain m m .not _ 0 _ _ rfl rfl rfl rfl⟩

end Operation
end Reckon
