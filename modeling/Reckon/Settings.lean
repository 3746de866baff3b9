/-!
How numbers are read and compared. An expression keeps the settings it was compiled with.
-/
namespace Reckon

inductive LiteralMode where
  | plain
  | exact
  deriving DecidableEq, Repr

structure Settings where
  /-- Relative tolerance of comparisons. -/
  epsilon : Float := 1e-14
  literals : LiteralMode := .plain

end Reckon
