import Mathlib.Data.List.Lex
import RoutePlugins.Imports.Binding
import RoutePlugins.Proofs.Tree.Places

/-!
# Imports in source order

A walk goes to each place of a tree once, in the order of the places. If the children of every node
lie within its bytes, one after the other, then the nodes of a walk begin at ever later bytes. So
the bindings of a source file come in the order of its imports, and of the names in an import.
-/

namespace RoutePlugins

open List

variable {out : List Visit} {n : Node}

namespace Visit

/-! ### The places of a walk -/

/-- The visit at a place, which is the numbers of the children on the way down. -/
def at? : Visit → List Nat → Option Visit
  | v, [] => some v
  | v, i :: rest => v.below[i]?.bind (at? · rest)

theorem at?_append (v : Visit) (p q : List Nat) : v.at? (p ++ q) = (v.at? p).bind (·.at? q) := by
  induction p generalizing v with
  | nil => rfl
  | cons i rest ih => simp only [cons_append, at?, Option.bind_assoc, ih]

/-- Neither place is above the other, and the first is to the left. -/
def LeftOf (p q : List Nat) : Prop := ∃ r i j s t, i < j ∧ p = r ++ i :: s ∧ q = r ++ j :: t

/-- The places of the children of a place. -/
def placesBelow (p : List Nat) (count : Nat) : List (List Nat) :=
  (List.range count).map fun i => p ++ [i]

theorem leftOf_placesBelow {p : List Nat} {ps : List (List Nat)} (count : Nat)
    (h : (p :: ps).Pairwise LeftOf) : (placesBelow p count ++ ps).Pairwise LeftOf := by
  obtain ⟨hfirst, hrest⟩ := pairwise_cons.mp h
  refine pairwise_append.mpr ⟨?_, hrest, ?_⟩
  · refine pairwise_map.mpr (pairwise_lt_range.imp fun {i j} hij => ?_)
    exact ⟨p, i, j, [], [], hij, rfl, rfl⟩
  · intro c hc q hq
    obtain ⟨k, -, rfl⟩ := mem_map.mp hc
    obtain ⟨r, i, j, s, t, hij, rfl, rfl⟩ := hfirst q hq
    exact ⟨r, i, j, s ++ [k], t, hij, by simp, rfl⟩

/-- Some visits are those at and below some places, each once and in the order of the places. -/
def Covers (root : Visit) (ps : List (List Nat)) (out : List Visit) : Prop :=
  ∃ qs : List (List Nat), qs.Pairwise (List.Lex (· < ·)) ∧
    (∀ q, q ∈ qs ↔ (root.at? q).isSome ∧ ∃ p ∈ ps, p <+: q) ∧ out.map some = qs.map root.at?

section

variable {root v : Visit} {p : List Nat} {ps : List (List Nat)}

/-- What is at or below a place is at the place itself, or at or below one of its children. -/
theorem exists_place_cons (hp : root.at? p = some v) {q : List Nat} (hq : (root.at? q).isSome) :
    (∃ p' ∈ p :: ps, p' <+: q) ↔ q = p ∨ ∃ p' ∈ placesBelow p v.below.length ++ ps, p' <+: q := by
  constructor
  · rintro ⟨p', hm, s, rfl⟩
    rcases mem_cons.mp hm with rfl | hm
    · cases s with
      | nil => exact .inl (append_nil _)
      | cons i s =>
        rw [at?_append, hp, Option.bind_some, at?] at hq
        have hi : i < v.below.length := by
          by_contra hi
          rw [List.getElem?_eq_none (Nat.le_of_not_lt hi)] at hq
          cases hq
        refine .inr ⟨p' ++ [i], mem_append_left _ ?_, s, by simp⟩
        exact mem_map.mpr ⟨i, mem_range.mpr hi, rfl⟩
    · exact .inr ⟨p', mem_append_right _ hm, prefix_append p' s⟩
  · rintro (rfl | ⟨p', hm, h⟩)
    · exact ⟨q, mem_cons_self, prefix_rfl⟩
    · rcases mem_append.mp hm with hm | hm
      · obtain ⟨i, -, rfl⟩ := mem_map.mp hm
        exact ⟨p, mem_cons_self, (prefix_append p [i]).trans h⟩
      · exact ⟨p', mem_cons_of_mem _ hm, h⟩

theorem Covers.cons (hp : root.at? p = some v) (hleft : ∀ q ∈ ps, LeftOf p q)
    (h : Covers root (placesBelow p v.below.length ++ ps) out) :
    Covers root (p :: ps) (v :: out) := by
  obtain ⟨qs, hlex, hmem, hout⟩ := h
  refine ⟨p :: qs, pairwise_cons.mpr ⟨?_, hlex⟩, ?_, ?_⟩
  · intro q hq
    obtain ⟨-, p', hm, s, rfl⟩ := (hmem q).mp hq
    rcases mem_append.mp hm with hm | hm
    · obtain ⟨i, -, rfl⟩ := mem_map.mp hm
      simpa using List.Lex.append_left (· < ·) (.nil (a := i) (l := s)) p
    · obtain ⟨r, i, j, s', t, hij, rfl, rfl⟩ := hleft p' hm
      rw [append_assoc]
      exact List.Lex.append_left _ (.rel hij) r
  · intro q
    rw [mem_cons, hmem]
    constructor
    · intro h
      have hq : (root.at? q).isSome := by
        rcases h with rfl | ⟨hq, -⟩
        · rw [hp, Option.isSome_some]
        · exact hq
      exact ⟨hq, (exists_place_cons hp hq).mpr (h.imp_right And.right)⟩
    · rintro ⟨hq, h⟩
      exact ((exists_place_cons hp hq).mp h).imp_right (And.intro hq)
  · rw [map_cons, map_cons, hp, hout]

/-- The stack of a walk holds places from left to right, and the walk covers them. -/
theorem covers_of_unstacks {stack : List Visit} (h : Node.Unstacks stack out)
    (hps : stack.map some = ps.map root.at?) (hleft : ps.Pairwise LeftOf) : Covers root ps out := by
  induction h generalizing ps with
  | nil =>
    obtain rfl : ps = [] := map_eq_nil_iff.mp hps.symm
    exact ⟨[], .nil, by simp, rfl⟩
  | @cons v rest out _ ih =>
    cases ps with
    | nil => cases hps
    | cons p ps =>
      obtain ⟨hp, hps⟩ := List.cons.inj hps
      refine .cons hp.symm (pairwise_cons.mp hleft).1 (ih ?_ (leftOf_placesBelow _ hleft))
      have hbelow : v.below.map some = (placesBelow p v.below.length).map root.at? := by
        refine ext_getElem (by simp [placesBelow]) fun i hi _ => ?_
        rw [length_map] at hi
        simp [placesBelow, at?_append, ← hp, at?, hi]
      rw [map_append, map_append, hps, hbelow]

end

/-! ### The bytes of a walk -/

/-- The second node begins no earlier than the first: after the end of the first, or below it. -/
def Before (v w : Visit) : Prop :=
  v.node.start ≤ w.node.start ∧ (v.node.stop ≤ w.node.start ∨ v.node ∈ w.above)

/-- Of two visits on a stack, the second begins no earlier than the first begins and ends. -/
def Clear (v w : Visit) : Prop := v.node.start ≤ w.node.start ∧ v.node.stop ≤ w.node.start

end Visit

namespace Node

/-- The children of a node lie within its bytes, one after the other. -/
def Encloses (n : Node) : Prop :=
  (∀ c ∈ n.children, n.start ≤ c.start ∧ c.start ≤ c.stop ∧ c.stop ≤ n.stop) ∧
    n.children.Pairwise fun c d => c.stop ≤ d.start

instance : DecidablePred Encloses := fun _ => inferInstanceAs (Decidable (_ ∧ _))

theorem Encloses.clear_below {v : Visit} {rest : List Visit} (hv : v.node.Encloses)
    (h : (v :: rest).Pairwise Visit.Clear) : (v.below ++ rest).Pairwise Visit.Clear := by
  obtain ⟨hfirst, hrest⟩ := pairwise_cons.mp h
  refine pairwise_append.mpr ⟨pairwise_map.mpr ?_, hrest, ?_⟩
  · exact hv.2.imp_of_mem fun {c d} hc _ hcd => ⟨(hv.1 c hc).2.1.trans hcd, hcd⟩
  · intro u hu w hw
    obtain ⟨c, hc, rfl⟩ := mem_map.mp hu
    obtain ⟨-, hspan, hstop⟩ := hv.1 c hc
    have hend := hstop.trans (hfirst w hw).2
    exact ⟨hspan.trans hend, hend⟩

/-- What a stack leads to begins no earlier than what it was put there for, and below it. -/
theorem Unstacks.before {root : Node} (hroot : ∀ n ∈ root.preorder, n.Encloses)
    {stack : List Visit} (h : Unstacks stack out) (hstack : ∀ v ∈ stack, v.node ∈ root.preorder)
    (hclear : stack.Pairwise Visit.Clear) :
    out.Pairwise Visit.Before ∧
      ∀ w ∈ out, ∃ u ∈ stack, u.node.start ≤ w.node.start ∧ u.above <:+ w.above := by
  induction h with
  | nil => exact ⟨.nil, by simp⟩
  | @cons v rest out _ ih =>
    have hmem := hstack v mem_cons_self
    have hv := hroot _ hmem
    have hbelow : ∀ u ∈ v.below ++ rest, u.node ∈ root.preorder := by
      intro u hu
      rcases mem_append.mp hu with hu | hu
      · obtain ⟨c, hc, rfl⟩ := mem_map.mp hu
        exact mem_preorder_of_child hc root hmem
      · exact hstack u (mem_cons_of_mem _ hu)
    obtain ⟨hbefore, hfrom⟩ := ih hbelow (hv.clear_below hclear)
    refine ⟨pairwise_cons.mpr ⟨?_, hbefore⟩, forall_mem_cons.mpr ⟨?_, ?_⟩⟩
    · intro w hw
      obtain ⟨u, hu, hstart, habove⟩ := hfrom w hw
      rcases mem_append.mp hu with hu | hu
      · obtain ⟨c, hc, rfl⟩ := mem_map.mp hu
        exact ⟨(hv.1 c hc).1.trans hstart, .inr (habove.subset mem_cons_self)⟩
      · obtain ⟨hs, he⟩ := (pairwise_cons.mp hclear).1 u hu
        exact ⟨hs.trans hstart, .inl (he.trans hstart)⟩
    · exact ⟨v, mem_cons_self, le_rfl, suffix_rfl⟩
    · intro w hw
      obtain ⟨u, hu, hstart, habove⟩ := hfrom w hw
      rcases mem_append.mp hu with hu | hu
      · obtain ⟨c, hc, rfl⟩ := mem_map.mp hu
        exact ⟨v, mem_cons_self, (hv.1 c hc).1.trans hstart,
          (suffix_cons _ _).trans habove⟩
      · exact ⟨u, mem_cons_of_mem _ hu, hstart, habove⟩

theorem before_visits {root : Node} (h : ∀ n ∈ root.preorder, n.Encloses) :
    root.visits.Pairwise Visit.Before := by
  refine (root.unstacks_visits.before h ?_ (pairwise_singleton _ _)).1
  exact forall_mem_singleton.mpr root.mem_preorder_self

end Node

namespace ImportBinding

/-! ### The sites of bindings -/

/-- A binding, the node that names it, and the visit of the import that it belongs to. -/
structure Site where
  visit : Visit
  node : Node
  binding : ImportBinding

/-- The bindings of a part of an import clause, each with the node that names it. -/
def namedIn (f : ParsedFile) (specifier : Text) (part : Node) : List (Node × ImportBinding) :=
  if part.isA "named_imports" then
    part.namedChildren.flatMap fun spec => (ofSpecifier f specifier spec).map (spec, ·)
  else (ofClausePart f specifier part).map (part, ·)

/-- The bindings of an import statement, each with the node that names it. -/
def namedBy (f : ParsedFile) (n : Node) : List (Node × ImportBinding) :=
  match (n.childByField? "source").bind f.stringValue?,
      n.namedChildren.find? (·.isA "import_clause") with
  | some specifier, some clause => clause.namedChildren.flatMap (namedIn f specifier)
  | _, _ => []

/-- The sites of a visited node. A dynamic import is itself the site of its binding. -/
def sitesOf (f : ParsedFile) (v : Visit) : List Site :=
  (if v.node.isA "import_statement" then namedBy f v.node
    else (ofVisit f v).map (v.node, ·)).map fun x => ⟨v, x.1, x.2⟩

/-- The sites of the bindings of a source file. -/
def sites (f : ParsedFile) : List Site := f.root.visits.flatMap (sitesOf f)

theorem map_snd_namedIn (f : ParsedFile) (specifier : Text) (part : Node) :
    (namedIn f specifier part).map (·.2) = ofClausePart f specifier part := by
  rw [namedIn]
  split
  · next h =>
    have hkind {kind : Text} (hne : ("named_imports" : Text) ≠ kind) : ¬ part.isA kind = true :=
      fun hk => hne ((eq_of_beq h).symm.trans (eq_of_beq hk))
    rw [ofClausePart, if_neg (hkind (by decide)), if_neg (hkind (by decide)), if_pos h]
    simp [map_flatMap, Function.comp_def]
  · simp [Function.comp_def]

theorem map_snd_namedBy (f : ParsedFile) (n : Node) :
    (namedBy f n).map (·.2) = ofStatement f n := by
  rw [namedBy, ofStatement]
  cases (n.childByField? "source").bind f.stringValue? with
  | none => rfl
  | some specifier =>
    cases n.namedChildren.find? (·.isA "import_clause") with
    | none => rfl
    | some clause => simp only [map_flatMap, map_snd_namedIn]

theorem map_binding_sitesOf (f : ParsedFile) (v : Visit) :
    (sitesOf f v).map (·.binding) = ofVisit f v := by
  rw [sitesOf, map_map]
  split
  · next h =>
    rw [ofVisit, if_pos h, ← map_snd_namedBy]
    rfl
  · simp [Function.comp_def]

theorem map_binding_sites (f : ParsedFile) : (sites f).map (·.binding) = all f := by
  rw [sites, map_flatMap, all]
  simp only [map_binding_sitesOf]

/-- Some nodes begin within the bytes of a node, each no earlier than those before it. -/
def InOrder (n : Node) (names : List (Node × ImportBinding)) : Prop :=
  (∀ x ∈ names, n.start ≤ x.1.start ∧ x.1.start ≤ n.stop) ∧
    names.Pairwise fun x y => x.1.start ≤ y.1.start

theorem inOrder_self (h : n.start ≤ n.stop) (bindings : List ImportBinding) :
    InOrder n (bindings.map (n, ·)) := by
  refine ⟨?_, pairwise_map.mpr (pairwise_of_forall fun _ _ => le_rfl)⟩
  intro x hx
  obtain ⟨b, -, rfl⟩ := mem_map.mp hx
  exact ⟨le_rfl, h⟩

/-- What is in order in each named child is in order in the node. -/
theorem inOrder_flatMap {g : Node → List (Node × ImportBinding)} (hn : n.Encloses)
    (hg : ∀ c ∈ n.children, InOrder c (g c)) : InOrder n (n.namedChildren.flatMap g) := by
  constructor
  · intro x hx
    obtain ⟨c, hc, hx⟩ := mem_flatMap.mp hx
    have hc := mem_of_mem_filter hc
    have hspan := hn.1 c hc
    have hin := (hg c hc).1 x hx
    exact ⟨hspan.1.trans hin.1, hin.2.trans hspan.2.2⟩
  · refine pairwise_flatMap.mpr ⟨fun c hc => (hg c (mem_of_mem_filter hc)).2, ?_⟩
    refine (hn.2.filter _).imp_of_mem fun {c d} hc hd hcd x hx y hy => ?_
    have hx := (hg c (mem_of_mem_filter hc)).1 x hx
    have hy := (hg d (mem_of_mem_filter hd)).1 y hy
    exact hx.2.trans (hcd.trans hy.1)

/-- The first import begins no later than the second. Its name begins no later than the name of the
second, unless it is a statement with the second import in it. -/
def Site.Before (s t : Site) : Prop :=
  s.visit.node.start ≤ t.visit.node.start ∧
    (s.node.start ≤ t.node.start ∨
      s.visit.node.isA "import_statement" ∧ s.visit.node ∈ t.visit.above)

section

variable {f : ParsedFile} (hf : ∀ n ∈ f.root.preorder, n.Encloses)

include hf

theorem inOrder_namedIn {part : Node} (specifier : Text) (hpart : part ∈ f.root.preorder)
    (hspan : part.start ≤ part.stop) : InOrder part (namedIn f specifier part) := by
  rw [namedIn]
  split
  · exact inOrder_flatMap (hf _ hpart) fun c hc => inOrder_self ((hf _ hpart).1 c hc).2.1 _
  · exact inOrder_self hspan _

theorem inOrder_namedBy (hn : n ∈ f.root.preorder) : InOrder n (namedBy f n) := by
  rw [namedBy]
  split
  · next specifier clause _ hfind =>
    have hc : clause ∈ n.children := mem_of_mem_filter (mem_of_find?_eq_some hfind)
    have hclause := Node.mem_preorder_of_child hc _ hn
    have hspan := (hf n hn).1 clause hc
    have hin : InOrder clause (clause.namedChildren.flatMap (namedIn f specifier)) :=
      inOrder_flatMap (hf _ hclause) fun part hpart => inOrder_namedIn hf specifier
        (Node.mem_preorder_of_child hpart _ hclause) ((hf _ hclause).1 part hpart).2.1
    exact ⟨fun x hx => ⟨hspan.1.trans (hin.1 x hx).1, (hin.1 x hx).2.trans hspan.2.2⟩, hin.2⟩
  · exact ⟨by simp, .nil⟩

variable {v : Visit} (hv : v.node ∈ f.root.preorder)

include hv

theorem before_sitesOf : (sitesOf f v).Pairwise Site.Before := by
  rw [sitesOf, pairwise_map]
  split
  · exact (inOrder_namedBy hf hv).2.imp fun h => ⟨le_rfl, .inl h⟩
  · exact pairwise_map.mpr (pairwise_of_forall fun _ _ => ⟨le_rfl, .inl le_rfl⟩)

theorem of_mem_sitesOf {s : Site} (h : s ∈ sitesOf f v) :
    s.visit = v ∧ v.node.start ≤ s.node.start ∧
      (s.node = v.node ∨ v.node.isA "import_statement" ∧ s.node.start ≤ v.node.stop) := by
  obtain ⟨x, hx, rfl⟩ := mem_map.mp h
  refine ⟨rfl, ?_⟩
  split at hx
  · next hkind =>
    obtain ⟨hstart, hstop⟩ := (inOrder_namedBy hf hv).1 x hx
    exact ⟨hstart, .inr ⟨hkind, hstop⟩⟩
  · obtain ⟨b, -, rfl⟩ := mem_map.mp hx
    exact ⟨le_rfl, .inl rfl⟩

omit hv

theorem before_sites : (sites f).Pairwise Site.Before := by
  have hvisits (v : Visit) (hv : v ∈ f.root.visits) : v.node ∈ f.root.preorder := by
    rw [← Node.walk_eq_preorder]
    exact mem_map_of_mem hv
  refine pairwise_flatMap.mpr ⟨fun v hv => before_sitesOf hf (hvisits v hv), ?_⟩
  refine (Node.before_visits hf).imp_of_mem fun {v w} hv hw hvw s hs t ht => ?_
  obtain ⟨rfl, -, hs⟩ := of_mem_sitesOf hf (hvisits v hv) hs
  obtain ⟨rfl, ht, -⟩ := of_mem_sitesOf hf (hvisits w hw) ht
  refine ⟨hvw.1, ?_⟩
  rcases hs with hs | ⟨hkind, hs⟩
  · rw [hs]
    exact .inl (hvw.1.trans ht)
  · rcases hvw.2 with hend | habove
    · exact .inl (hs.trans (hend.trans ht))
    · exact .inr ⟨hkind, habove⟩

end

/-- A walk lists the nodes of a tree in preorder: its visits are those at the places of the tree,
each once, from the root down and from left to right. The bindings of a source file are those of its
sites. If the children of every node lie within its bytes, one after the other, then the nodes of
the walk begin at ever later bytes, and the sites are in source order. -/
theorem listed_in_source_order (f : ParsedFile) :
    f.root.walk = f.root.preorder ∧
      (∃ places : List (List Nat), places.Pairwise (List.Lex (· < ·)) ∧
        (∀ p, p ∈ places ↔ (Visit.at? ⟨f.root, []⟩ p).isSome) ∧
        f.root.visits.map some = places.map (Visit.at? ⟨f.root, []⟩)) ∧
      all f = (sites f).map (·.binding) ∧
      ((∀ n ∈ f.root.preorder, n.Encloses) →
        (f.root.walk.map (·.start)).Pairwise (· ≤ ·) ∧ (sites f).Pairwise Site.Before) := by
  refine ⟨f.root.walk_eq_preorder, ?_, (map_binding_sites f).symm, fun hf => ⟨?_, before_sites hf⟩⟩
  · have hcovers : Visit.Covers ⟨f.root, []⟩ [[]] f.root.visits :=
      Visit.covers_of_unstacks f.root.unstacks_visits rfl (pairwise_singleton _ _)
    simpa [Visit.Covers] using hcovers
  · rw [Node.walk, map_map, pairwise_map]
    exact (Node.before_visits hf).imp And.left

namespace Sample

/-- The source `import a,{b}from'x';let c=import('y')`. -/
def source : Bytes :=
  [105, 109, 112, 111, 114, 116, 32, 97, 44, 123, 98, 125, 102, 114, 111, 109, 39, 120, 39, 59, 108,
    101, 116, 32, 99, 61, 105, 109, 112, 111, 114, 116, 40, 39, 121, 39, 41]

def leaf (kind : Text) (field : Option Text) (start stop : Nat) : Node :=
  ⟨kind, true, field, start, stop, []⟩

/-- A string literal of one character. -/
def literal (field : Option Text) (start : Nat) : Node :=
  ⟨"string", true, field, start, start + 3, [leaf "string_fragment" none (start + 1) (start + 2)]⟩

def tree : Node :=
  let names : Node := ⟨"named_imports", true, none, 9, 12,
    [⟨"import_specifier", true, none, 10, 11, [leaf "identifier" (some "name") 10 11]⟩]⟩
  let clause : Node := ⟨"import_clause", true, none, 7, 12, [leaf "identifier" none 7 8, names]⟩
  let call : Node := ⟨"call_expression", true, some "value", 26, 37,
    [leaf "import" (some "function") 26 32,
      ⟨"arguments", true, some "arguments", 32, 37, [literal none 33]⟩]⟩
  ⟨"program", true, none, 0, 37,
    [⟨"import_statement", true, none, 0, 20, [clause, literal (some "source") 16]⟩,
      ⟨"lexical_declaration", true, none, 20, 37, [⟨"variable_declarator", true, none, 24, 37,
        [leaf "identifier" (some "name") 24 25, call]⟩]⟩]⟩

end Sample

open Sample

/-- Two names of a statement and a variable are listed by where they are. -/
theorem listed_in_source_order_three :
    (∀ n ∈ tree.preorder, n.Encloses) ∧
      (all ⟨"p.ts", source, tree⟩).map (fun b => (b.specifier, b.exportName, b.localName)) =
        ([("x", "default", some "a"), ("x", "b", some "b"), ("y", "dynamic", some "c")] :
          List (Text × Text × Option Text)) ∧
      (sites ⟨"p.ts", source, tree⟩).map (·.node.start) = [7, 10, 26] ∧
      (sites ⟨"p.ts", source, tree⟩).Pairwise Site.Before := by
  have htree : ∀ n ∈ tree.preorder, n.Encloses := by decide
  exact ⟨htree, by decide, by decide,
    ((listed_in_source_order ⟨"p.ts", source, tree⟩).2.2.2 htree).2⟩

end ImportBinding

end RoutePlugins
