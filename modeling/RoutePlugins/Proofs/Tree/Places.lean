import Mathlib.Data.List.Basic
import RoutePlugins.Tree.Literal

/-!
# Places in trees and sources

A walk goes through a tree by a stack, and comes to its nodes in the order in which a recursion on
the tree lists them. A point of a source tells how much of the source is before it. So within one
source the points at which a node begins and ends tell its bytes.
-/

namespace RoutePlugins

open List

variable {n c : Node}

namespace Visit

/-- The visits of the children of a visited node. -/
def below (v : Visit) : List Visit := v.node.children.map fun c => ⟨c, v.node :: v.above⟩

theorem map_node_below (v : Visit) : v.below.map (·.node) = v.node.children := by
  rw [below, map_map]
  exact map_id _

end Visit

namespace Node

/-! ### The order of a walk -/

theorem size_eq (n : Node) : n.size = 1 + sizes n.children := by
  cases n
  rw [size]

theorem preorder_eq (n : Node) : n.preorder = n :: preorders n.children := by
  cases n
  rw [preorder]

theorem sizes_append (front back : List Node) :
    sizes (front ++ back) = sizes front + sizes back := by
  induction front with
  | nil => simp [sizes]
  | cons n rest ih => rw [cons_append, sizes, sizes, ih, Nat.add_assoc]

theorem preorders_append (front back : List Node) :
    preorders (front ++ back) = preorders front ++ preorders back := by
  induction front with
  | nil => rfl
  | cons n rest ih => rw [cons_append, preorders, preorders, ih, append_assoc]

/-- The visits that come from a stack: a visit is taken from it, and what is below is put in its
place. -/
inductive Unstacks : List Visit → List Visit → Prop
  | nil : Unstacks [] []
  | cons {v : Visit} {rest out : List Visit} (h : Unstacks (v.below ++ rest) out) :
    Unstacks (v :: rest) (v :: out)

/-- A walk with enough fuel goes on until its stack is empty. -/
theorem unstacks_walkStack {fuel : Nat} {stack : List Visit}
    (h : sizes (stack.map (·.node)) ≤ fuel) : Unstacks stack (walkStack fuel stack) := by
  induction fuel generalizing stack with
  | zero =>
    cases stack with
    | nil => exact .nil
    | cons v rest =>
      rw [map_cons, sizes, size_eq] at h
      omega
  | succ fuel ih =>
    cases stack with
    | nil => exact .nil
    | cons v rest =>
      refine .cons (ih ?_)
      rw [map_cons, sizes, size_eq] at h
      rw [map_append, v.map_node_below, sizes_append]
      omega

theorem unstacks_visits (root : Node) : Unstacks [⟨root, []⟩] root.visits :=
  unstacks_walkStack (by simp [sizes])

/-- The trees on a stack are listed one after the other. -/
theorem Unstacks.map_node {stack out : List Visit} (h : Unstacks stack out) :
    out.map (·.node) = preorders (stack.map (·.node)) := by
  induction h with
  | nil => rfl
  | @cons v rest out _ ih =>
    rw [map_cons, ih, map_append, v.map_node_below, preorders_append, map_cons,
      preorders, preorder_eq, cons_append]

/-- A walk visits a node before what is below it, and that from left to right. -/
theorem walk_eq_preorder (root : Node) : root.walk = root.preorder := by
  rw [walk, root.unstacks_visits.map_node, map_cons, map_nil, preorders, preorders,
    append_nil]

theorem mem_preorder_self (root : Node) : root ∈ root.preorder := by
  rw [preorder_eq]
  exact mem_cons_self

theorem mem_preorders_of_mem {nodes : List Node} (h : n ∈ nodes) : n ∈ preorders nodes := by
  induction nodes with
  | nil => cases h
  | cons m rest ih =>
    rw [preorders, mem_append]
    rcases mem_cons.mp h with rfl | h
    · exact .inl n.mem_preorder_self
    · exact .inr (ih h)

mutual

/-- A walk comes to the children of the nodes that it comes to. -/
theorem mem_preorder_of_child (hc : c ∈ n.children) :
    ∀ root : Node, n ∈ root.preorder → c ∈ root.preorder
  | ⟨kind, named, field, start, stop, children⟩, h => by
    rw [preorder] at h ⊢
    rcases mem_cons.mp h with rfl | h
    · exact mem_cons_of_mem _ (mem_preorders_of_mem hc)
    · exact mem_cons_of_mem _ (mem_preorders_of_child hc children h)

theorem mem_preorders_of_child (hc : c ∈ n.children) :
    ∀ nodes : List Node, n ∈ preorders nodes → c ∈ preorders nodes
  | [], h => absurd h not_mem_nil
  | m :: rest, h => by
    rw [preorders, mem_append] at h ⊢
    rcases h with h | h
    · exact .inl (mem_preorder_of_child hc m h)
    · exact .inr (mem_preorders_of_child hc rest h)

end

theorem mem_children_of_childByField {role : Text} (h : n.childByField? role = some c) :
    c ∈ n.children :=
  mem_of_find?_eq_some h

end Node

/-! ### Points -/

/-- A point tells what of a source is before it: each further byte begins a line or a column. -/
theorem take_eq_of_pointAt_le {source : Bytes} {a b : Nat} (hab : a ≤ b)
    (h : pointAt source a = pointAt source b) : source.take a = source.take b := by
  obtain ⟨between, hbetween⟩ : ∃ between, source.take b = source.take a ++ between :=
    (take_prefix_take_left hab).elim fun between h => ⟨between, h.symm⟩
  have hrow : (source.take a).count 10 = (source.take b).count 10 :=
    Int.ofNat_inj.mp (congrArg Point.row h)
  have hcolumn : ((source.take a).reverse.takeWhile (· != 10)).length =
      ((source.take b).reverse.takeWhile (· != 10)).length :=
    Int.ofNat_inj.mp (congrArg Point.column h)
  rw [hbetween, count_append] at hrow
  -- No line begins between the two, so all that is between them counts as columns.
  have hline : ∀ byte ∈ between.reverse, (byte != 10) = true := by
    have hnone : between.count 10 = 0 := by omega
    intro byte hm
    rw [bne_iff_ne]
    rintro rfl
    exact count_eq_zero.mp hnone (mem_reverse.mp hm)
  rw [hbetween, reverse_append, takeWhile_append_of_pos hline, length_append,
    length_reverse] at hcolumn
  have hnil : between = [] := eq_nil_of_length_eq_zero (by omega)
  rw [hbetween, hnil, append_nil]

theorem take_eq_of_pointAt {source : Bytes} {a b : Nat} (h : pointAt source a = pointAt source b) :
    source.take a = source.take b := by
  rcases Nat.le_total a b with hab | hba
  · exact take_eq_of_pointAt_le hab h
  · exact (take_eq_of_pointAt_le hba h.symm).symm

/-- The points of a node in a source tell its bytes. -/
theorem ParsedFile.bytes_eq_of_points (f : ParsedFile) {m : Node}
    (hstart : pointAt f.source n.start = pointAt f.source m.start)
    (hstop : pointAt f.source n.stop = pointAt f.source m.stop) : f.bytes n = f.bytes m := by
  have hbytes (k : Node) : f.bytes k = (f.source.take k.stop).drop k.start :=
    drop_take.symm
  have hlength : min n.start f.source.length = min m.start f.source.length := by
    have := congrArg List.length (take_eq_of_pointAt hstart)
    simpa using this
  rw [hbytes, hbytes, take_eq_of_pointAt hstop]
  rcases Nat.lt_or_ge n.start f.source.length with hlt | hge
  · have hsame : n.start = m.start := by omega
    rw [hsame]
  · rw [drop_eq_nil_of_le, drop_eq_nil_of_le]
    · rw [length_take]
      omega
    · rw [length_take]
      omega

end RoutePlugins
