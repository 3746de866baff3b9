import Reckon.Fault

/-!
Scopes: names and the values they are bound to. The global frame lasts; every function call under
way has a frame of its own above it, and names are looked up from the innermost frame outwards.
-/
namespace Reckon

/-- Bindings of one call or of the global level. No name is bound twice. -/
structure Frame where
  bindings : List (String × Value)
  nodup : (bindings.map Prod.fst).Nodup

namespace Frame

def empty : Frame := ⟨[], .nil⟩

def get? (f : Frame) (name : String) : Option Value := f.bindings.lookup name

def without (name : String) (bindings : List (String × Value)) : List (String × Value) :=
  bindings.filter fun b => b.1 != name

theorem nodup_without (f : Frame) (name : String) :
    ((without name f.bindings).map Prod.fst).Nodup :=
  f.nodup.sublist (List.filter_sublist.map Prod.fst)

theorem not_mem_without (name : String) (bindings : List (String × Value)) :
    name ∉ (without name bindings).map Prod.fst := by
  simp [without]

def erase (f : Frame) (name : String) : Frame where
  bindings := without name f.bindings
  nodup := f.nodup_without name

def insert (f : Frame) (name : String) (v : Value) : Frame where
  bindings := (name, v) :: without name f.bindings
  nodup := List.nodup_cons.2 ⟨not_mem_without name f.bindings, f.nodup_without name⟩

@[simp] theorem get?_empty (name : String) : empty.get? name = none := rfl

theorem lookup_without_self (name : String) (bindings : List (String × Value)) :
    (without name bindings).lookup name = none := by
  rw [List.lookup_eq_none_iff]
  intro b hb
  have hne : b.1 ≠ name := by simpa [without] using (List.mem_filter.1 hb).2
  simpa using hne.symm

theorem lookup_cons_of_ne {name other : String} (h : other ≠ name) (v : Value)
    (bindings : List (String × Value)) :
    ((name, v) :: bindings).lookup other = bindings.lookup other := by
  rw [List.lookup_cons, beq_false_of_ne h]

theorem lookup_without_of_ne {name other : String} (h : other ≠ name) :
    (bindings : List (String × Value)) →
      (without name bindings).lookup other = bindings.lookup other
  | [] => rfl
  | (n, v) :: bs => by
    have ih := lookup_without_of_ne h bs
    by_cases hn : n = name
    · subst hn
      rw [lookup_cons_of_ne h, ← ih]
      simp [without]
    · have keep : without name ((n, v) :: bs) = (n, v) :: without name bs := by
        simp [without, hn]
      rw [keep, List.lookup_cons, List.lookup_cons, ih]

/-- A binding hides what the name meant and leaves other names alone. -/
@[simp] theorem get?_insert (f : Frame) (name other : String) (v : Value) :
    (f.insert name v).get? other = if other = name then some v else f.get? other := by
  by_cases h : other = name
  · simp [get?, insert, h]
  · simp [get?, insert, h, lookup_cons_of_ne h, lookup_without_of_ne h]

@[simp] theorem get?_erase (f : Frame) (name other : String) :
    (f.erase name).get? other = if other = name then none else f.get? other := by
  by_cases h : other = name
  · simp [get?, erase, h, lookup_without_self]
  · simp [get?, erase, h, lookup_without_of_ne h]

def names (f : Frame) : List String := f.bindings.map Prod.fst

/-- Parameters bound to arguments. Of two parameters with one name the later counts. -/
def ofArguments (parameters : List String) (arguments : List Value) : Frame :=
  (parameters.zip arguments).foldl (fun f b => f.insert b.1 b.2) empty

end Frame

/-- The frames of calls stand innermost first. -/
structure Scope where
  global : Frame
  calls : List Frame

namespace Scope

def empty : Scope := ⟨.empty, []⟩

def get? (s : Scope) (name : String) : Option Value :=
  match s.calls.findSome? (fun f => f.get? name) with
  | some v => some v
  | none => s.global.get? name

def update (s : Scope) (change : Frame → Frame) : Scope :=
  match s.calls with
  | [] => { s with global := change s.global }
  | f :: fs => { s with calls := change f :: fs }

def set (s : Scope) (name : String) (v : Value) : Scope := s.update fun f => f.insert name v

def innermost (s : Scope) : Frame := s.calls.head?.getD s.global

/-- Removes a binding of the innermost frame; its value is the second part. -/
def remove (s : Scope) (name : String) : Scope × Option Value :=
  (s.update fun f => f.erase name, s.innermost.get? name)

def contains (s : Scope) (name : String) : Bool := (s.get? name).isSome

def names (s : Scope) : List String := s.global.names

def size (s : Scope) : Nat := s.global.bindings.length

def depth (s : Scope) : Nat := s.calls.length

def push (s : Scope) (f : Frame) : Scope := { s with calls := f :: s.calls }

def pop (s : Scope) : Scope := { s with calls := s.calls.tail }

@[simp] theorem pop_push (s : Scope) (f : Frame) : (s.push f).pop = s := rfl

@[simp] theorem depth_push (s : Scope) (f : Frame) : (s.push f).depth = s.depth + 1 := rfl

@[simp] theorem depth_pop (s : Scope) : s.pop.depth = s.depth - 1 := List.length_tail

@[simp] theorem depth_set (s : Scope) (name : String) (v : Value) :
    (s.set name v).depth = s.depth := by
  unfold set update
  split <;> simp_all [depth]

/-- Setting a name changes what that name means and nothing else. -/
@[simp] theorem get?_set (s : Scope) (name other : String) (v : Value) :
    (s.set name v).get? other = if other = name then some v else s.get? other := by
  unfold set update
  split <;> by_cases h : other = name <;> simp_all [get?, List.findSome?_cons]

end Scope
end Reckon
