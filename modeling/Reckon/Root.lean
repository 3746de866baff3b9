/-!
Integer square roots, by the mean of a guess and its quotient.
-/
namespace Reckon.Root

/-- Improves a guess that is not below the root for as long as it gets smaller. -/
def improve (n guess : Nat) : Nat :=
  let next := (guess + n / guess) / 2
  if next < guess then improve n next else guess
termination_by guess

/-- The largest natural number whose square is at most `n`. The first guess is a power of two above
the root. -/
def floor (n : Nat) : Nat :=
  if n ≤ 1 then n else improve n (Nat.shiftLeft 1 (n.log2 / 2 + 1))

def perfect? (n : Nat) : Option Nat :=
  let r := floor n
  if r * r = n then some r else none

end Reckon.Root
