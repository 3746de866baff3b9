import Reckon.Proofs.Evaluate.Frames

/-! What an executable results in, given what its parts do. Each part finds the machine that the one
before it left, and the first that fails ends the evaluation. -/
namespace Reckon

namespace Run

theorem bind_of_ok {p : Run α} {f : α → Run β} (h : p m = (.ok a, m')) :
    (p >>= f) m = f a m' := by
  rw [bind_apply, h]

theorem bind_of_error {p : Run α} {f : α → Run β} (h : p m = (.error e, m')) :
    (p >>= f) m = (.error e, m') := by
  rw [bind_apply, h]

/-- The end of an evaluation that has a value. -/
theorem bind_some {p : Run Value} (h : p m = (r, m')) :
    (p >>= fun v => (pure (some v) : Run (Option Value))) m = (r.map some, m') := by
  cases r with
  | error e => exact bind_of_error h
  | ok v => exact bind_of_ok h

end Run

theorem callNamed_of_unbound (unbound : m.scope.get? callee = none)
    (found : Operation.find? callee = some op) :
    callNamed body offered s callee arguments m = (op.call s arguments, m) := by
  have looked : Run.lookup callee m = (.ok none, m) := by rw [Run.lookup, unbound]
  rw [callNamed, Run.bind_of_ok looked]
  simp only [found]
  rfl

namespace Executable

section

variable {body : BodyRunner} {offered : Host} {s : Settings}

theorem eval_unary (run : eval body offered s x m = (.ok (some v), m')) (op : Operation) :
    eval body offered s (.unary op x) m = ((op.call s [v]).map some, m') := by
  rw [eval, Run.bind_of_ok run, Run.required, pure_bind]
  exact Run.bind_some rfl

theorem eval_unary_error (run : eval body offered s x m = (.error f, m')) (op : Operation) :
    eval body offered s (.unary op x) m = (.error f, m') := by
  rw [eval, Run.bind_of_error run]

theorem eval_binary (left : eval body offered s x m = (.ok (some v), m'))
    (right : eval body offered s y m' = (.ok (some w), m'')) (op : Operation) :
    eval body offered s (.binary op x y) m = ((op.call s [v, w]).map some, m'') := by
  rw [eval, Run.bind_of_ok left, Run.required, pure_bind, Run.bind_of_ok right, Run.required,
    pure_bind]
  exact Run.bind_some rfl

theorem eval_binary_left_error (left : eval body offered s x m = (.error f, m'))
    (op : Operation) (y : Executable) :
    eval body offered s (.binary op x y) m = (.error f, m') := by
  rw [eval, Run.bind_of_error left]

theorem eval_binary_right_error (left : eval body offered s x m = (.ok (some v), m'))
    (right : eval body offered s y m' = (.error f, m'')) (op : Operation) :
    eval body offered s (.binary op x y) m = (.error f, m'') := by
  rw [eval, Run.bind_of_ok left, Run.required, pure_bind, Run.bind_of_error right]

theorem evalAll_cons (first : eval body offered s x m = (.ok (some v), m'))
    (others : evalAll body offered s xs m' = (.ok vs, m'')) :
    evalAll body offered s (x :: xs) m = (.ok (v :: vs), m'') := by
  rw [evalAll, Run.bind_of_ok first, Run.required, pure_bind, Run.bind_of_ok others]
  rfl

theorem evalAll_one (run : eval body offered s x m = (.ok (some v), m')) :
    evalAll body offered s [x] m = (.ok [v], m') := evalAll_cons run rfl

/-- Executables that leave the machine as it is have the values they have one by one. -/
theorem evalAll_map {f : Value → Executable}
    (each : ∀ v ∈ vs, eval body offered s (f v) m = (.ok (some v), m)) :
    evalAll body offered s (vs.map f) m = (.ok vs, m) := by
  induction vs with
  | nil => rfl
  | cons v vs ih =>
    obtain ⟨first, others⟩ := List.forall_mem_cons.mp each
    exact evalAll_cons first (ih others)

theorem evalAll_cons_error (first : eval body offered s x m = (.error f, m'))
    (xs : List Executable) : evalAll body offered s (x :: xs) m = (.error f, m') := by
  rw [evalAll, Run.bind_of_error first]

theorem eval_matrix (run : evalAll body offered s elements m = (.ok vs, m'))
    (dims : (Value.array vs).dimensions = .ok ds) :
    eval body offered s (.matrix elements) m = (.ok (some (.array vs)), m') := by
  have checked : Run.ofOutcome (Value.array vs).dimensions m' = (.ok ds, m') := by
    rw [Run.ofOutcome, dims]
  rw [eval, Run.bind_of_ok run]
  exact Run.bind_of_ok checked

theorem eval_index (object : eval body offered s x m = (.ok (some v), m'))
    (chosen : evalAll body offered s xs m' = (.ok indices, m'')) :
    eval body offered s (.index x xs) m = ((v.select indices).map some, m'') := by
  rw [eval, Run.bind_of_ok object, Run.required, pure_bind, Run.bind_of_ok chosen]
  exact Run.bind_some rfl

theorem eval_call (run : evalAll body offered s arguments m = (.ok vs, m'))
    (called : callNamed body offered s callee vs m' = (r, m'')) :
    eval body offered s (.call callee arguments) m = (r.map some, m'') := by
  rw [eval, Run.bind_of_ok run]
  exact Run.bind_some called

theorem eval_call_error (run : evalAll body offered s arguments m = (.error f, m'))
    (callee : String) : eval body offered s (.call callee arguments) m = (.error f, m') := by
  rw [eval, Run.bind_of_error run]

end

end Executable
end Reckon
