import Reckon.Proofs.Evaluate.Bodies
import Mathlib.Logic.Relation

/-! The evaluations inside an evaluation: those of operands, arguments, elements and statements,
and those of the bodies that calls run, each with the scope that the ones before it left. -/
namespace Reckon

/-- An evaluation about to start, with `room` calls left for bodies to nest. -/
structure Evaluation where
  room : Nat
  code : Executable
  settings : Settings
  machine : Machine

namespace Evaluation

open Executable

def ofProgram (p : Program) (m : Machine) : Evaluation :=
  ⟨maxCallDepth - m.scope.depth, p.root, p.settings, m⟩

section

variable (offered : Host)

def run (e : Evaluation) : Outcome (Option Value) × Machine :=
  evalWithin offered e.room e.code e.settings e.machine

/-- One evaluation starts another one as a part of it. Parts that come before have succeeded. -/
inductive Starts : Evaluation → Evaluation → Prop
  | operand : Starts ⟨n, .unary op x, s, m⟩ ⟨n, x, s, m⟩
  | left : Starts ⟨n, .binary op x y, s, m⟩ ⟨n, x, s, m⟩
  | right : evalWithin offered n x s m = (.ok (some v), m') →
      Starts ⟨n, .binary op x y, s, m⟩ ⟨n, y, s, m'⟩
  | argument : evalAll (bodies offered n) offered s before m = (.ok vs, m') →
      Starts ⟨n, .call callee (before ++ x :: after), s, m⟩ ⟨n, x, s, m'⟩
  | body : evalAll (bodies offered (n + 1)) offered s arguments m = (.ok vs, m') →
      m'.scope.get? callee = some (.function (.user stamp name parameters x own)) →
      vs.length = parameters.length → m'.scope.depth < maxCallDepth →
      Starts ⟨n + 1, .call callee arguments, s, m⟩
        ⟨n, x, own, { m' with scope := m'.scope.push (.ofArguments parameters vs) }⟩
  | assigned : Starts ⟨n, .assign name x, s, m⟩ ⟨n, x, s, m⟩
  | statement : evalStatements (bodies offered n) offered s none before m = (.ok v, m') →
      Starts ⟨n, .block (before ++ x :: after), s, m⟩ ⟨n, x, s, m'⟩
  | element : evalAll (bodies offered n) offered s before m = (.ok vs, m') →
      Starts ⟨n, .matrix (before ++ x :: after), s, m⟩ ⟨n, x, s, m'⟩
  | object : Starts ⟨n, .index x indices, s, m⟩ ⟨n, x, s, m⟩
  | index : evalWithin offered n object s m = (.ok (some v), m₁) →
      evalAll (bodies offered n) offered s before m₁ = (.ok vs, m₂) →
      Starts ⟨n, .index object (before ++ x :: after), s, m⟩ ⟨n, x, s, m₂⟩

abbrev Nested : Evaluation → Evaluation → Prop := Relation.ReflTransGen (Starts offered)

end

end Evaluation
end Reckon
