import Reckon.Fault

/-!
Arrays and their shapes: applying functions to elements and leaves, dimensions, transposition.
-/
namespace Reckon.Value

mutual

/-- Applies `f` to every value in the array that is none itself, keeping the nesting. -/
def mapLeaves (f : Value → Outcome Value) : Value → Outcome Value
  | array items => do return array (← mapLeavesAll f items)
  | v => f v

def mapLeavesAll (f : Value → Outcome Value) : List Value → Outcome (List Value)
  | [] => return []
  | v :: vs => do
    let w ← mapLeaves f v
    let ws ← mapLeavesAll f vs
    return w :: ws

end

def mapElements (f : Value → Outcome Value) : List Value → Outcome (List Value)
  | [] => return []
  | v :: vs => do
    let w ← f v
    let ws ← mapElements f vs
    return w :: ws

/-- Applies `f` to the elements of two lists pair by pair, as far as both go. -/
def zipElements (f : Value → Value → Outcome Value) :
    List Value → List Value → Outcome (List Value)
  | x :: xs, y :: ys => do
    let z ← f x y
    let zs ← zipElements f xs ys
    return z :: zs
  | _, _ => return []

/-- Combines the elements of two arrays of one length, or every element of one array with a value
that is no array. The elements may be arrays. -/
def combine (name : String) (f : Value → Value → Outcome Value) : Value → Value → Outcome Value
  | array xs, array ys =>
    if xs.length ≠ ys.length then throw (.dimensions name (.lengths xs.length ys.length))
    else do return array (← zipElements f xs ys)
  | array xs, y => do return array (← mapElements (fun x => f x y) xs)
  | x, array ys => do return array (← mapElements (fun y => f x y) ys)
  | x, y => f x y

mutual

/-- Combines the leaves of two values: descends into both where both are arrays, and into one
where only that one is. -/
def zipLeaves (name : String) (f : Value → Value → Outcome Value) : Value → Value → Outcome Value
  | array xs, y =>
    match y with
    | array ys =>
      if xs.length ≠ ys.length then throw (.dimensions name (.lengths xs.length ys.length))
      else do return array (← zipLeavesAll name f xs ys)
    | y => do return array (← zipLeavesLeft name f xs y)
  | x, y => mapLeaves (f x) y

def zipLeavesAll (name : String) (f : Value → Value → Outcome Value) :
    List Value → List Value → Outcome (List Value)
  | x :: xs, y :: ys => do
    let z ← zipLeaves name f x y
    let zs ← zipLeavesAll name f xs ys
    return z :: zs
  | _, _ => return []

def zipLeavesLeft (name : String) (f : Value → Value → Outcome Value) :
    List Value → Value → Outcome (List Value)
  | [], _ => return []
  | x :: xs, y => do
    let z ← zipLeaves name f x y
    let zs ← zipLeavesLeft name f xs y
    return z :: zs

end

mutual

/-- One length for each level of nesting, none for a value that is no array. All elements of an
array must have the same dimensions. -/
def dimensions : Value → Outcome (List Nat)
  | array items => dimensionsOfItems items
  | _ => return []

def dimensionsOfItems : List Value → Outcome (List Nat)
  | [] => return [0]
  | first :: others => do
    let inner ← dimensions first
    haveDimensions inner others
    return (others.length + 1) :: inner

def haveDimensions (inner : List Nat) : List Value → Outcome Unit
  | [] => return ()
  | item :: items => do
    let other ← dimensions item
    if other = inner then haveDimensions inner items
    else throw (.dimensions "size" (.rows inner other))

end

def column (rows : List Value) (j : Nat) : Value :=
  array (rows.filterMap fun row => row.items?.bind (·[j]?))

/-- Rows become columns; values of less than two dimensions stay. -/
def transpose (v : Value) : Outcome Value := do
  match ← v.dimensions with
  | [] | [_] => return v
  | [_, columns] => return array ((List.range columns).map (column (v.items?.getD [])))
  | more => throw (.dimensions "transpose" (.tooMany more.length))

end Reckon.Value
