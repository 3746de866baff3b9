import Reckon.Token
import Reckon.Expr
import Mathlib.Data.List.Basic
import Mathlib.Order.Nat

/-! Trees as listings of their nodes. What is read from tokens one behind the other is listed in their
order: each node stands at a token, and an operator behind the whole operand in front of it. -/
namespace Reckon

namespace Expr

def lead : Expr → Option Expr
  | unary .factorial operand _ | unary .transpose operand _ | binary _ operand _ _
  | index operand _ _ => some operand
  | _ => none

mutual

/-- The nodes of a tree as the source lists them: an operand in front of its operator, an object in
front of its brackets, and otherwise a node in front of its children. -/
def nodes : Expr → List Expr
  | literal value o => [literal value o]
  | name n o => [name n o]
  | unary op operand o =>
    if op ∈ [.factorial, .transpose] then operand.nodes ++ [unary op operand o]
    else unary op operand o :: operand.nodes
  | binary op left right o => left.nodes ++ binary op left right o :: right.nodes
  | call callee arguments o => call callee arguments o :: nodesAll arguments
  | define n parameters body o => define n parameters body o :: body.nodes
  | assign n value o => assign n value o :: value.nodes
  | block statements o => block statements o :: nodesAll statements
  | matrix elements o => matrix elements o :: nodesAll elements
  | index object indices o => object.nodes ++ index object indices o :: nodesAll indices

def nodesAll : List Expr → List Expr
  | [] => []
  | e :: es => e.nodes ++ nodesAll es

end

@[simp] theorem nodesAll_eq_flatMap (es : List Expr) : nodesAll es = es.flatMap nodes := by
  induction es with
  | nil => rfl
  | cons e es ih => rw [nodesAll, ih, List.flatMap_cons]

end Expr

def Expr.Follows (n : Expr) : Prop := ∀ e ∈ n.lead, ∀ m ∈ e.nodes, m.offset < n.offset

def Sorted (us : List Located) : Prop := (us.map Located.offset).Pairwise (· < ·)

theorem Sorted.append (h : Sorted (us ++ vs)) : Sorted us ∧ Sorted vs ∧
    ∀ a ∈ us.map Located.offset, ∀ b ∈ vs.map Located.offset, a < b := by
  rwa [Sorted, List.map_append, List.pairwise_append] at h

structure Listing (us : List Located) (ns : List Expr) : Prop where
  located : ∀ n ∈ ns, n.offset ∈ us.map Located.offset
  ordered : (ns.map Expr.offset).Pairwise (· ≤ ·)

theorem Listing.mono (h : Listing us ns) (fewer : us ⊆ vs) : Listing vs ns :=
  ⟨fun n hn => List.map_subset _ fewer (h.located n hn), h.ordered⟩

theorem Listing.append (sorted : Sorted (us ++ vs)) (front : Listing us ms) (back : Listing vs ns) :
    Listing (us ++ vs) (ms ++ ns) where
  located := List.forall_mem_append.mpr ⟨(front.mono (List.subset_append_left us vs)).located,
    (back.mono (List.subset_append_right us vs)).located⟩
  ordered := by
    have across : ∀ m ∈ ms, ∀ n ∈ ns, m.offset ≤ n.offset := fun m hm n hn =>
      (sorted.append.2.2 _ (front.located m hm) _ (back.located n hn)).le
    rw [List.map_append, List.pairwise_append]
    simpa only [List.forall_mem_map] using ⟨front.ordered, back.ordered, across⟩

/-- A node at the first token is in front of all others. -/
theorem Listing.cons {n : Expr} (sorted : Sorted (t :: vs)) (here : n.offset = t.offset)
    (back : Listing (t :: vs) ns) : Listing (t :: vs) (n :: ns) where
  located := List.forall_mem_cons.mpr ⟨here ▸ List.mem_cons_self, back.located⟩
  ordered := by
    have least : ∀ m ∈ ns, n.offset ≤ m.offset := fun m hm => by
      rcases List.mem_cons.mp (back.located m hm) with same | later
      · exact (here.trans same.symm).le
      · exact here ▸ ((List.pairwise_cons.mp sorted).1 _ later).le
    rw [List.map_cons, List.pairwise_cons]
    simpa only [List.forall_mem_map] using ⟨least, back.ordered⟩

def Traced (us : List Located) (ns : List Expr) : Prop :=
  Sorted us → Listing us ns ∧ ∀ n ∈ ns, n.Follows

namespace Traced

theorem nil (us : List Located) : Traced us [] := fun _ => ⟨⟨nofun, .nil⟩, nofun⟩

theorem mono (h : Traced us ns) (fewer : us.Sublist vs) : Traced vs ns := fun sorted =>
  (h (sorted.sublist (fewer.map _))).imp_left fun listing => listing.mono fewer.subset

theorem skip (h : Traced us ns) : Traced (t :: us) ns := h.mono (List.sublist_cons_self ..)

theorem append (front : Traced us ms) (back : Traced vs ns) : Traced (us ++ vs) (ms ++ ns) := by
  intro sorted
  obtain ⟨sorted₁, sorted₂, -⟩ := sorted.append
  obtain ⟨listing₁, follows₁⟩ := front sorted₁
  obtain ⟨listing₂, follows₂⟩ := back sorted₂
  exact ⟨.append sorted listing₁ listing₂, List.forall_mem_append.mpr ⟨follows₁, follows₂⟩⟩

/-- A node stands at the first token behind its operand, in front of all that is read from there on. -/
theorem node {n : Expr} (front : Traced us ms) (back : Traced (t :: vs) ns)
    (here : n.offset = t.offset) (lead : ∀ e ∈ n.lead, e.nodes ⊆ ms) :
    Traced (us ++ t :: vs) (ms ++ n :: ns) := by
  intro sorted
  obtain ⟨sorted₁, sorted₂, across⟩ := sorted.append
  obtain ⟨listing₁, follows₁⟩ := front sorted₁
  obtain ⟨listing₂, follows₂⟩ := back sorted₂
  have follows : n.Follows := fun e he m hm => by
    rw [here]
    exact across _ (listing₁.located m (lead e he hm)) _ List.mem_cons_self
  exact ⟨.append sorted listing₁ (.cons sorted₂ here listing₂),
    List.forall_mem_append.mpr ⟨follows₁, List.forall_mem_cons.mpr ⟨follows, follows₂⟩⟩⟩

end Traced

def Placed (us : List Located) (e : Expr) : Prop := us ≠ [] ∧ Traced us e.nodes

namespace Placed

/-- A node in front of its children. -/
theorem parent {e : Expr} (nodes : e.nodes = e :: ns) (lead : e.lead = none)
    (here : e.offset = t.offset) (back : Traced (t :: vs) ns) : Placed (t :: vs) e :=
  ⟨List.cons_ne_nil _ _, nodes ▸ Traced.node (.nil []) back here (by simp [lead])⟩

theorem leaf {e : Expr} (nodes : e.nodes = [e]) (lead : e.lead = none)
    (here : e.offset = t.offset) : Placed (t :: vs) e := parent nodes lead here (.nil _)

/-- An operator behind its operand, and what follows it. -/
theorem follow {e operand : Expr} (placed : Placed us operand)
    (nodes : e.nodes = operand.nodes ++ e :: ns) (lead : e.lead = some operand)
    (here : e.offset = t.offset) (back : Traced (t :: vs) ns) : Placed (us ++ t :: vs) e :=
  ⟨by simp, nodes ▸ Traced.node placed.2 back here (by simp [lead])⟩

theorem binary {l r : Expr} (op : BinaryOperator) (left : Placed us l)
    (right : Traced (t :: vs) r.nodes) : Placed (us ++ t :: vs) (.binary op l r t.offset) :=
  left.follow rfl rfl rfl right

end Placed

end Reckon
