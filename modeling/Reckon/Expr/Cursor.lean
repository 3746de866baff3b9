import Reckon.Expr.Malformed

/-!
A place in a token list, and readers that move it. A reader leaves the cursor where it stopped
whether it succeeds or fails, so what it consumed and how deep it was can be told in both cases.
-/
namespace Reckon

/-- The tokens ahead, the levels of nesting in use, and the length of the source. -/
structure Cursor where
  rest : List Located
  depth : Nat
  stop : Nat
  deriving DecidableEq, Repr

namespace Cursor

def ofTokens (tokens : List Located) (stop : Nat) : Cursor := ⟨tokens, 0, stop⟩

def peek (c : Cursor) : Option Token := c.rest.head?.map Located.token

def offset (c : Cursor) : Nat :=
  match c.rest with
  | next :: _ => next.offset
  | [] => c.stop

def advance (c : Cursor) : Cursor := { c with rest := c.rest.tail }

end Cursor

abbrev Parse (α : Type) := ExceptT Malformed (StateM Cursor) α

namespace Parse

def fail (m : Malformed) : Parse α := fun c => (.error m, c)

def missing (expected : Expected) : Parse α :=
  fun c => (.error (.missing ⟨expected, c.peek, c.offset⟩), c)

def tooDeep : Parse α := fun c => (.error (.tooDeep c.offset), c)

def offset : Parse Nat := fun c => (.ok c.offset, c)

def peek : Parse (Option Token) := fun c => (.ok c.peek, c)

def advance : Parse Unit := fun c => (.ok (), c.advance)

/-- The tokens ahead. They bound every loop that consumes one on each turn, since it has no more
turns than there are tokens. -/
def ahead : Parse (List Located) := fun c => (.ok c.rest, c)

/-- Runs `p` one level deeper, if the nesting allows it. -/
def nested (p : Parse α) : Parse α := fun c =>
  if c.depth < maxNesting then
    let (result, after) := p { c with depth := c.depth + 1 }
    (result, { after with depth := after.depth - 1 })
  else tooDeep c

def accept (s : Symbol) : Parse Bool := fun c =>
  if c.peek = some (.symbol s) then (.ok true, c.advance) else (.ok false, c)

def expect (s : Symbol) : Parse Unit := do
  unless ← accept s do missing (.symbol s)

def identifier : Parse String := do
  match ← peek with
  | some (.identifier name) =>
    advance
    return name
  | _ => missing .identifier

def commaItems (item : Parse α) (closing : Symbol) : (turns : List Located) → Parse (List α)
  | [] => missing (.commaOr closing)
  | _ :: turns => do
    if ← accept .comma then
      let next ← item
      return next :: (← commaItems item closing turns)
    else if ← accept closing then
      return []
    else missing (.commaOr closing)

/-- A list that may be empty, its opening symbol already consumed. -/
def commaSeparated (item : Parse α) (closing : Symbol) : Parse (List α) := do
  if ← accept closing then
    return []
  else
    let first ← item
    return first :: (← commaItems item closing (← ahead))

end Parse
end Reckon
