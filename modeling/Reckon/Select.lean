import Reckon.Fault

/-!
Indexing: elements of arrays and characters of texts by their position, counted from one.
-/
namespace Reckon.Value

def indexNotInteger (index : Value) : Outcome α :=
  throw (.invalid "index" (.indexNotInteger index.render))

def indexInteger (index : Value) : Outcome Int :=
  match index with
  | number x => match Binary64.safeInteger? x with
    | some i => return i
    | none => indexNotInteger index
  | exact q => match Exact.toInt64? q with
    | some i => return i
    | none => indexNotInteger index
  | _ => indexNotInteger index

def element (elements : List α) (index : Value) : Outcome α := do
  let i ← indexInteger index
  if i < 1 then throw (.outOfRange i elements.length)
  else match elements[i.toNat - 1]? with
    | some x => return x
    | none => throw (.outOfRange i elements.length)

/-- Follows one index for each level of an array; a text takes the last index only. -/
def select (object : Value) : List Value → Outcome Value
  | [] => return object
  | index :: others =>
    match object with
    | array items => do
      let item ← element items index
      select item others
    | text s =>
      if others.isEmpty then do
        let c ← element s.toList index
        return text (String.ofList [c])
      else throw (.invalid "index" (.notIndexable object.kind))
    | _ => throw (.invalid "index" (.notIndexable object.kind))

end Reckon.Value
