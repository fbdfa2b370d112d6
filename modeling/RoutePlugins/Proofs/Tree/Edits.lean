import RoutePlugins.Proofs.Files.Decoded
import RoutePlugins.Tree.Edit

/-!
# Edits applied together

Applying edits sorts them and goes through the source once, comparing each edit with the end of the
one before it. This is compared with a reading that knows no order: edits are apart if each lies in
the source and of any two one ends before the other starts, and edits that are apart are spliced
into the source one at a time, the highest first. The order in which edits are given matters among
insertions at one place only, unless a text has no bytes: the texts are written as the edits are
reached, so such a text can come before an overlap, or after it.
-/

namespace RoutePlugins.Edit

open List

variable {bytes : Bytes}

/-- An edit of bytes that a source of `size` bytes has. -/
def Inside (size : Nat) (e : Edit) : Prop := 0 ≤ e.start ∧ e.start ≤ e.stop ∧ e.stop ≤ size

/-- One of two edits ends no later than the other starts. -/
def Clear (a b : Edit) : Prop := a.stop ≤ b.start ∨ b.stop ≤ a.start

/-- Edits of a source of `size` bytes that do not overlap. -/
structure Apart (size : Nat) (edits : List Edit) : Prop where
  inside : ∀ e ∈ edits, e.Inside size
  clear : edits.Pairwise Clear

theorem Apart.perm {size : Nat} {edits edits' : List Edit} (h : Apart size edits)
    (hp : edits.Perm edits') : Apart size edits' where
  inside e he := h.inside e (hp.mem_iff.mpr he)
  clear := (hp.pairwise_iff fun hab => Or.symm hab).mp h.clear

/-- A text that has bytes. -/
def Writable (e : Edit) : Prop := ∃ b, Utf8.encode e.text = .ok b

/-- Whether an edit replaces exactly the bytes from `a` up to `b`. -/
def spans (a b : Int) (e : Edit) : Bool := e.start == a && e.stop == b

theorem spans_iff {a b : Int} {e : Edit} : e.spans a b = true ↔ e.start = a ∧ e.stop = b := by
  simp [spans]

/-! ### The order of edits -/

theorem le_iff {a b : Edit} :
    a.le b = true ↔ a.start < b.start ∨ a.start = b.start ∧ a.stop ≤ b.stop := by
  simp [le]

theorem le_trans (a b c : Edit) (hab : a.le b = true) (hbc : b.le c = true) : a.le c = true := by
  rw [le_iff] at *
  omega

theorem le_total (a b : Edit) : (a.le b || b.le a) = true := by
  rw [Bool.or_eq_true, le_iff, le_iff]
  omega

/-- Edits that come before each other have the same range. -/
theorem spans_of_le_of_le {a b : Edit} (hab : a.le b = true) (hba : b.le a = true) :
    b.start = a.start ∧ b.stop = a.stop := by
  rw [le_iff] at hab hba
  omega

/-- Edits in the order in which they are applied. -/
abbrev Sorted (edits : List Edit) : Prop := edits.Pairwise fun a b => a.le b = true

theorem sorted_mergeSort (edits : List Edit) : Sorted (edits.mergeSort le) :=
  pairwise_mergeSort le_trans le_total edits

/-- Sorting leaves edits of one range in their order. -/
theorem filter_spans_mergeSort (edits : List Edit) (a b : Int) :
    (edits.mergeSort le).filter (spans a b) = edits.filter (spans a b) := by
  have hsame : Sorted (edits.filter (spans a b)) := by
    refine pairwise_filter.mpr (pairwise_of_forall fun x y hx hy => ?_)
    rw [spans_iff] at hx hy
    rw [le_iff]
    omega
  have hsub : (edits.filter (spans a b)).Sublist (edits.mergeSort le) :=
    sublist_mergeSort le_trans le_total hsame filter_sublist
  have hsub' : (edits.filter (spans a b)).Sublist ((edits.mergeSort le).filter (spans a b)) := by
    have := hsub.filter (spans a b)
    rwa [filter_filter, funext fun e => Bool.and_self (spans a b e)] at this
  refine (hsub'.eq_of_length ?_).symm
  exact ((mergeSort_perm edits le).filter (spans a b)).length_eq.symm

/-! ### The check -/

/-- An edit that can be made in a source of `size` bytes after an edit that ends at `cursor`. -/
def Next (size cursor : Nat) (e : Edit) : Prop :=
  cursor ≤ e.start ∧ e.start ≤ e.stop ∧ e.stop ≤ size

/-- Edits that can be made one after the other, the first of them at `cursor` or later. -/
def Follow (size : Nat) : Nat → List Edit → Prop
  | _, [] => True
  | cursor, e :: rest => e.Next size cursor ∧ Follow size e.stop.toNat rest

section

variable {size cursor : Nat} {source : Bytes} {edits edits' : List Edit} {e : Edit}
  {rest : List Edit} {out : Bytes}

/-- In sorted edits it is enough to compare neighbours. -/
theorem follow_iff (hs : Sorted edits) :
    Follow size cursor edits ↔ (∀ e ∈ edits, (cursor : Int) ≤ e.start) ∧ Apart size edits := by
  induction edits generalizing cursor with
  | nil => exact ⟨fun _ => ⟨by simp, by simp, .nil⟩, fun _ => trivial⟩
  | cons e rest ih =>
    obtain ⟨hfirst, hrest⟩ := pairwise_cons.mp hs
    rw [Follow, ih hrest]
    constructor
    · rintro ⟨⟨hc, hle, hsize⟩, hafter, hin, hclear⟩
      have hnext : ∀ x ∈ rest, e.stop ≤ x.start := by
        intro x hx
        have := hafter x hx
        omega
      refine ⟨forall_mem_cons.mpr ⟨hc, fun x hx => ?_⟩,
        forall_mem_cons.mpr ⟨⟨by omega, hle, hsize⟩, hin⟩,
        pairwise_cons.mpr ⟨fun x hx => .inl (hnext x hx), hclear⟩⟩
      have := hnext x hx
      omega
    · rintro ⟨hc, hin, hclear⟩
      obtain ⟨⟨he0, hle, hsize⟩, hrestIn⟩ := forall_mem_cons.mp hin
      obtain ⟨hpair, hrestClear⟩ := pairwise_cons.mp hclear
      refine ⟨⟨hc e (by simp), hle, hsize⟩, fun x hx => ?_, hrestIn, hrestClear⟩
      obtain ⟨hx0, hxle, -⟩ := hrestIn x hx
      have horder := le_iff.mp (hfirst x hx)
      -- An edit that ends before an earlier one starts is empty, and so is the earlier one.
      rcases hpair x hx with h | h
      · omega
      · omega

/-- Edits that can be made one after the other when sorted are those that are apart. -/
theorem follow_sorted_iff :
    Follow size 0 (edits.mergeSort le) ↔ Apart size edits := by
  rw [follow_iff (sorted_mergeSort edits)]
  have hperm := mergeSort_perm edits le
  constructor
  · rintro ⟨-, h⟩
    exact h.perm hperm
  · intro h
    have h' := h.perm hperm.symm
    exact ⟨fun e he => (h'.inside e he).1, h'⟩

private theorem refused_iff :
    (decide (e.start < cursor) || decide (e.stop < e.start) ||
      decide ((source.length : Int) < e.stop)) = true ↔ ¬ e.Next source.length cursor := by
  simp only [Bool.or_eq_true, decide_eq_true_eq, Next]
  omega

/-- An edit that cannot be made is refused, whatever its text. -/
theorem pieces_refused (h : ¬ e.Next source.length cursor) :
    pieces source cursor (e :: rest) = .error (.range (.edit e.start e.stop)) := by
  rw [pieces, if_pos (refused_iff.mpr h)]

/-- A text without bytes is refused when its edit is reached. -/
theorem pieces_unwritable (h : e.Next source.length cursor) {flaw : Utf8.Unencodable}
    (hflaw : Utf8.encode e.text = .error flaw) :
    pieces source cursor (e :: rest) = .error (.encoding flaw) := by
  rw [pieces, if_neg fun hc => refused_iff.mp hc h, hflaw]

/-- The bytes up to an edit are kept, its text is put in, and the rest goes on behind it. -/
theorem pieces_next (h : e.Next source.length cursor) {new : Bytes}
    (hnew : Utf8.encode e.text = .ok new) :
    pieces source cursor (e :: rest) = (pieces source e.stop.toNat rest).map
      ((source.drop cursor).take (e.start.toNat - cursor) ++ new ++ ·) := by
  rw [pieces, if_neg fun hc => refused_iff.mp hc h, hnew]
  cases pieces source e.stop.toNat rest with
  | ok after => rfl
  | error f => rfl

/-- Edits that are applied can be made one after the other, and their texts have bytes. -/
theorem follow_of_pieces (h : pieces source cursor edits = .ok out) :
    Follow source.length cursor edits ∧ ∀ e ∈ edits, e.Writable := by
  fun_induction pieces source cursor edits generalizing out with
  | case1 => exact ⟨trivial, by simp⟩
  | case2 => cases h
  | case3 => cases h
  | case4 cursor e rest hc new hnew ih =>
    obtain ⟨after, hafter, -⟩ := bind_ok_iff.mp h
    obtain ⟨hfollow, hall⟩ := ih hafter
    exact ⟨⟨not_not.mp (mt refused_iff.mpr hc), hfollow⟩,
      forall_mem_cons.mpr ⟨⟨new, hnew⟩, hall⟩⟩

/-- Edits that can be made one after the other are not refused. A text among them may be. -/
theorem pieces_of_follow (h : Follow source.length cursor edits) (a b : Int) :
    pieces source cursor edits ≠ .error (.range (.edit a b)) := by
  intro hp
  fun_induction pieces source cursor edits with
  | case1 => cases hp
  | case2 cursor e rest hc => exact refused_iff.mp hc h.1
  | case3 => cases hp
  | case4 cursor e rest hc new hnew ih =>
    cases hrest : pieces source e.stop.toNat rest with
    | ok after =>
      rw [hrest] at hp
      cases hp
    | error f =>
      rw [hrest] at hp
      cases hp
      exact ih h.2 hrest

/-- Edits that cannot be made one after the other are refused if all texts have bytes. -/
theorem pieces_of_not_follow
    (h : ¬ Follow source.length cursor edits) (hall : ∀ e ∈ edits, e.Writable) :
    ∃ e ∈ edits, pieces source cursor edits = .error (.range (.edit e.start e.stop)) := by
  induction edits generalizing cursor with
  | nil => exact absurd trivial h
  | cons e rest ih =>
    obtain ⟨⟨new, hnew⟩, hall⟩ := forall_mem_cons.mp hall
    by_cases hnext : e.Next source.length cursor
    · obtain ⟨x, hx, hp⟩ := ih (fun hf => h ⟨hnext, hf⟩) hall
      refine ⟨x, by simp [hx], ?_⟩
      rw [pieces_next hnext hnew, hp]
      rfl
    · exact ⟨e, by simp, pieces_refused hnext⟩

/-- Only edits that cannot be made and texts without bytes are refused. -/
theorem pieces_eq_error {f : Fault} (h : pieces source cursor edits = .error f) :
    (∃ e ∈ edits, f = .range (.edit e.start e.stop)) ∨
      ∃ e ∈ edits, ∃ flaw, Utf8.encode e.text = .error flaw ∧ f = .encoding flaw := by
  fun_induction pieces source cursor edits with
  | case1 => cases h
  | case2 cursor e rest =>
    cases h
    exact .inl ⟨e, by simp, rfl⟩
  | case3 cursor e rest _ flaw hflaw =>
    cases h
    exact .inr ⟨e, by simp, flaw, hflaw, rfl⟩
  | case4 cursor e rest hc new hnew ih =>
    cases hrest : pieces source e.stop.toNat rest with
    | ok after =>
      rw [hrest] at h
      cases h
    | error g =>
      rw [hrest] at h
      cases h
      exact (ih hrest).imp (fun ⟨x, hx, hf⟩ => ⟨x, by simp [hx], hf⟩)
        fun ⟨x, hx, hf⟩ => ⟨x, by simp [hx], hf⟩

/-! ### Splicing -/

/-- Put the text of one edit in the place of the bytes that it replaces. -/
def splice (bytes : Bytes) (e : Edit) : Except Utf8.Unencodable Bytes := do
  let new ← Utf8.encode e.text
  return bytes.take e.start.toNat ++ new ++ bytes.drop e.stop.toNat

theorem writable_of_splices {order : List Edit} (h : order.foldlM splice source = .ok bytes) :
    ∀ e ∈ order, e.Writable := by
  induction order generalizing source with
  | nil => simp
  | cons e rest ih =>
    rw [foldlM_cons] at h
    obtain ⟨next, hsplice, hrest⟩ := bind_ok_iff.mp h
    obtain ⟨new, hnew, -⟩ := bind_ok_iff.mp hsplice
    exact forall_mem_cons.mpr ⟨⟨new, hnew⟩, ih hrest⟩

/-- Going through the source once gives what splicing from the last edit to the first gives. -/
theorem pieces_eq_splices (hc : cursor ≤ source.length) (h : Follow source.length cursor edits)
    (hall : ∀ e ∈ edits, e.Writable) :
    ∃ out, pieces source cursor edits = .ok out ∧
      edits.reverse.foldlM splice source = .ok (source.take cursor ++ out) := by
  induction edits generalizing cursor with
  | nil => exact ⟨source.drop cursor, rfl, by rw [take_append_drop]; rfl⟩
  | cons e rest ih =>
    obtain ⟨hnext, hrest⟩ := h
    obtain ⟨hstart, hle, hsize⟩ := hnext
    obtain ⟨⟨new, hnew⟩, hall⟩ := forall_mem_cons.mp hall
    have hstop : e.stop.toNat ≤ source.length := by omega
    obtain ⟨after, hp, hs⟩ := ih hstop hrest hall
    refine ⟨(source.drop cursor).take (e.start.toNat - cursor) ++ new ++ after,
      by rw [pieces_next ⟨hstart, hle, hsize⟩ hnew, hp]; rfl, ?_⟩
    have hfront : (source.take e.stop.toNat ++ after).take e.start.toNat =
        source.take e.start.toNat := by
      rw [take_append_of_le_length (by rw [length_take]; omega), take_take,
        Nat.min_eq_left (by omega)]
    have hback : (source.take e.stop.toNat ++ after).drop e.stop.toNat = after :=
      drop_left' (by rw [length_take]; omega)
    have hgap : source.take e.start.toNat =
        source.take cursor ++ (source.drop cursor).take (e.start.toNat - cursor) := by
      rw [← take_add]
      congr 1
      omega
    rw [reverse_cons, foldlM_append, hs]
    change splice (source.take e.stop.toNat ++ after) e >>= pure = _
    rw [bind_pure, splice, hnew]
    change Except.ok _ = Except.ok _
    rw [hfront, hback, hgap, append_assoc, append_assoc, append_assoc]

/-- Whether no edit replaces the byte at an offset. -/
def spares (edits : List Edit) (offset : Nat) : Bool :=
  edits.all fun e => decide (offset < e.start) || decide (e.stop ≤ offset)

/-- The bytes of `bytes` that no edit replaces, in their order, if the first of them has the offset
`cursor` in the source. -/
def keptIn (edits : List Edit) (cursor : Nat) (bytes : Bytes) : Bytes :=
  ((bytes.zipIdx cursor).filter fun b => spares edits b.2).map Prod.fst

/-- What is kept from `cursor` on is what is kept up to `stop` and what is kept from there on. -/
theorem keptIn_drop (edits : List Edit) {stop : Nat} (hc : cursor ≤ stop)
    (hs : stop ≤ source.length) :
    keptIn edits cursor (source.drop cursor) =
      keptIn edits cursor ((source.drop cursor).take (stop - cursor)) ++
        keptIn edits stop (source.drop stop) := by
  have hsplit := (source.drop cursor).take_append_drop (stop - cursor)
  have hlength : cursor + ((source.drop cursor).take (stop - cursor)).length = stop := by
    rw [length_take, length_drop]
    omega
  rw [drop_drop, Nat.add_sub_cancel' hc] at hsplit
  conv => lhs; rw [← hsplit, keptIn, zipIdx_append, hlength, filter_append,
    map_append]
  rfl

theorem keptIn_sublist (edits : List Edit) (cursor : Nat) (bytes : Bytes) :
    (keptIn edits cursor bytes).Sublist bytes := by
  have h : ((bytes.zipIdx cursor).map Prod.fst) = bytes := zipIdx_map_fst cursor bytes
  conv => rhs; rw [← h]
  exact filter_sublist.map Prod.fst

/-- Fewer edits keep no fewer bytes. -/
theorem keptIn_cons_sublist (e : Edit) (rest : List Edit) (cursor : Nat) (bytes : Bytes) :
    (keptIn (e :: rest) cursor bytes).Sublist (keptIn rest cursor bytes) := by
  refine (monotone_filter_right _ fun b hb => ?_).map Prod.fst
  exact (Bool.and_eq_true_iff.mp hb).2

/-- An edit keeps none of the bytes that it replaces. -/
theorem keptIn_replaced (rest : List Edit) (hstart : e.start ≤ cursor)
    (hstop : ((cursor + bytes.length : Nat) : Int) ≤ e.stop) :
    keptIn (e :: rest) cursor bytes = [] := by
  rw [keptIn, map_eq_nil_iff, filter_eq_nil_iff]
  rintro ⟨b, offset⟩ hb hspared
  obtain ⟨hlow, hhigh, -⟩ := mem_zipIdx hb
  obtain ⟨he, -⟩ := Bool.and_eq_true_iff.mp hspared
  simp only [Bool.or_eq_true, decide_eq_true_eq] at he
  omega

/-- No byte that is not replaced is lost or moved past another. -/
theorem keptIn_sublist_pieces (hc : cursor ≤ source.length)
    (h : pieces source cursor edits = .ok out) :
    (keptIn edits cursor (source.drop cursor)).Sublist out := by
  induction edits generalizing cursor out with
  | nil =>
    cases h
    exact keptIn_sublist [] cursor _
  | cons e rest ih =>
    obtain ⟨⟨hnext, -⟩, hall⟩ := follow_of_pieces h
    obtain ⟨new, hnew⟩ := hall e (by simp)
    rw [pieces_next hnext hnew] at h
    obtain ⟨hstart, hle, hsize⟩ := hnext
    cases hp : pieces source e.stop.toNat rest with
    | error f =>
      rw [hp] at h
      cases h
    | ok after =>
      rw [hp] at h
      cases h
      -- From the cursor on the source is a gap, the bytes that are replaced, and the rest.
      have hold : keptIn (e :: rest) e.start.toNat ((source.drop e.start.toNat).take
          (e.stop.toNat - e.start.toNat)) = [] := by
        refine keptIn_replaced rest (by omega) ?_
        rw [length_take, length_drop]
        omega
      have hfirst : cursor ≤ e.start.toNat ∧ e.start.toNat ≤ source.length := by omega
      have hsecond : e.start.toNat ≤ e.stop.toNat ∧ e.stop.toNat ≤ source.length := by omega
      rw [keptIn_drop _ hfirst.1 hfirst.2, keptIn_drop _ hsecond.1 hsecond.2, hold, nil_append]
      have hrest := (keptIn_cons_sublist e rest e.stop.toNat _).trans (ih (by omega) hp)
      exact ((keptIn_sublist _ _ _).trans (sublist_append_left _ new)).append hrest

/-! ### The order in which edits are given -/

/-- Edits of one range are in the same order in two lists, unless the range is not empty and the
texts of all of them have bytes. Nothing is asked of edits that end before they start. -/
def KeepsTies (edits edits' : List Edit) : Prop :=
  ∀ a b : Int, a ≤ b → edits.filter (spans a b) = edits'.filter (spans a b) ∨
    a < b ∧ ∀ e ∈ edits, e.spans a b = true → e.Writable

theorem KeepsTies.tail {rest' : List Edit} (h : KeepsTies (e :: rest) (e :: rest')) :
    KeepsTies rest rest' := by
  intro a b hab
  rcases h a b hab with heq | ⟨hlt, hall⟩
  · left
    by_cases hspans : e.spans a b = true
    · rw [filter_cons_of_pos hspans, filter_cons_of_pos hspans] at heq
      exact (List.cons.inj heq).2
    · rwa [filter_cons_of_neg hspans, filter_cons_of_neg hspans] at heq
  · exact .inr ⟨hlt, fun x hx => hall x (by simp [hx])⟩

theorem le_of_mem {x y : Edit} {xs : List Edit} (hs : Sorted (x :: xs)) (hy : y ∈ x :: xs) :
    x.le y = true := by
  rcases mem_cons.mp hy with rfl | hy
  · rw [le_iff]
    omega
  · exact (pairwise_cons.mp hs).1 y hy

/-- A second edit of a range that is not empty is refused. -/
theorem pieces_again {x y : Edit} {xs : List Edit} (hs : Sorted (x :: xs)) (hy : y ∈ xs)
    (hrange : y.start = x.start ∧ y.stop = x.stop) (hlt : x.start < x.stop) :
    pieces source x.stop.toNat xs = .error (.range (.edit x.start x.stop)) := by
  cases xs with
  | nil => cases hy
  | cons z zs =>
    have hxz := le_of_mem hs (y := z) (by simp)
    have hzy := le_of_mem (pairwise_cons.mp hs).2 hy
    have hz : z.start = x.start ∧ z.stop = x.stop := by
      rw [le_iff] at hxz hzy
      omega
    rw [pieces_refused, hz.1, hz.2]
    rintro ⟨hstart, -⟩
    omega

/-- Sorted edits with the same ties are applied alike. -/
theorem pieces_eq_of_ties (hp : edits.Perm edits') (hs : Sorted edits) (hs' : Sorted edits')
    (ht : KeepsTies edits edits') : pieces source cursor edits = pieces source cursor edits' := by
  induction edits generalizing cursor edits' with
  | nil => rw [nil_perm.mp hp]
  | cons x xs ih =>
    cases edits' with
    | nil => exact absurd hp.length_eq (by simp)
    | cons y ys =>
      have hy : y ∈ x :: xs := hp.mem_iff.mpr (by simp)
      have hx : x ∈ y :: ys := hp.mem_iff.mp (by simp)
      have hrange := spans_of_le_of_le (le_of_mem hs hy) (le_of_mem hs' hx)
      by_cases hnext : x.Next source.length cursor
      · have hnext' : y.Next source.length cursor := by
          rw [Next, hrange.1, hrange.2]
          exact hnext
        by_cases hxy : x = y
        · subst hxy
          cases hnew : Utf8.encode x.text with
          | error flaw => rw [pieces_unwritable hnext hnew, pieces_unwritable hnext hnew]
          | ok new =>
            rw [pieces_next hnext hnew, pieces_next hnext hnew,
              ih hp.cons_inv (pairwise_cons.mp hs).2 (pairwise_cons.mp hs').2 ht.tail]
        · -- Different edits of one range: the range is not empty, and one of them is refused.
          have hspans : x.spans x.start x.stop = true := spans_iff.mpr ⟨rfl, rfl⟩
          have hspans' : y.spans x.start x.stop = true := spans_iff.mpr hrange
          rcases ht x.start x.stop hnext.2.1 with heq | ⟨hlt, hall⟩
          · rw [filter_cons_of_pos hspans, filter_cons_of_pos hspans'] at heq
            exact absurd (List.cons.inj heq).1 hxy
          · obtain ⟨new, hnew⟩ := hall x (by simp) hspans
            obtain ⟨new', hnew'⟩ := hall y hy hspans'
            have hlater := (mem_cons.mp hy).resolve_left fun h => hxy h.symm
            have hlater' := (mem_cons.mp hx).resolve_left hxy
            rw [pieces_next hnext hnew, pieces_next hnext' hnew',
              pieces_again hs hlater hrange hlt,
              pieces_again hs' hlater' ⟨hrange.1.symm, hrange.2.symm⟩ (by omega), hrange.1,
              hrange.2]
            rfl
      · have hnext' : ¬ y.Next source.length cursor := by
          rw [Next, hrange.1, hrange.2]
          exact hnext
        rw [pieces_refused hnext, pieces_refused hnext', hrange.1, hrange.2]

/-- Edits with the same ties are applied alike, in whatever order they are given. -/
theorem applyBytes_eq_of_ties (source : Bytes) (hp : edits.Perm edits')
    (ht : KeepsTies edits edits') : applyBytes source edits = applyBytes source edits' := by
  have hperm := (mergeSort_perm edits le).trans
    (hp.trans (mergeSort_perm edits' le).symm)
  refine pieces_eq_of_ties hperm (sorted_mergeSort edits) (sorted_mergeSort edits')
    fun a b hab => ?_
  rw [filter_spans_mergeSort, filter_spans_mergeSort]
  exact (ht a b hab).imp_right fun ⟨hlt, hall⟩ =>
    ⟨hlt, fun e he => hall e (mem_mergeSort.mp he)⟩

/-- The edits in the order in which they are spliced: the highest first, and of insertions at one
place the last one first. -/
structure Descends (edits order : List Edit) : Prop where
  perm : order.Perm edits
  sorted : order.Pairwise fun a b => b.le a = true
  insertions : ∀ a, order.filter (spans a a) = (edits.filter (spans a a)).reverse

theorem descends_sorted (edits : List Edit) : Descends edits (edits.mergeSort le).reverse where
  perm := (reverse_perm _).trans (mergeSort_perm edits le)
  sorted := pairwise_reverse.mpr (sorted_mergeSort edits)
  insertions a := by rw [filter_reverse, filter_spans_mergeSort]

theorem Descends.keepsTies {order : List Edit} (h : Descends edits order)
    (hall : ∀ e ∈ edits, e.Writable) : KeepsTies edits order.reverse := by
  intro a b hab
  rcases Int.lt_or_eq_of_le hab with hlt | rfl
  · exact .inr ⟨hlt, fun e he _ => hall e he⟩
  · left
    rw [filter_reverse, h.insertions, reverse_reverse]

/-! ### What applying edits gives -/

/-- No edit is refused. -/
def Passes (source : Bytes) (edits : List Edit) : Prop :=
  ∀ a b, applyBytes source edits ≠ .error (.range (.edit a b))

theorem passes_of_apart (h : Apart source.length edits) : Passes source edits :=
  pieces_of_follow (follow_sorted_iff.mpr h)

theorem apart_of_passes (hall : ∀ e ∈ edits, e.Writable) (h : Passes source edits) :
    Apart source.length edits := by
  by_contra hnot
  have hall' : ∀ e ∈ edits.mergeSort le, e.Writable := fun e he => hall e (mem_mergeSort.mp he)
  obtain ⟨e, -, he⟩ := pieces_of_not_follow (fun hf => hnot (follow_sorted_iff.mp hf)) hall'
  exact h e.start e.stop he

/-- Edits are applied if they are apart and can be spliced, with the same bytes. -/
theorem applyBytes_eq_ok_iff {order : List Edit} (hd : Descends edits order) :
    applyBytes source edits = .ok bytes ↔
      Apart source.length edits ∧ order.foldlM splice source = .ok bytes := by
  have hspliced (hall : ∀ e ∈ edits, e.Writable) (hapart : Apart source.length edits) :
      ∃ out, applyBytes source edits = .ok out ∧ order.foldlM splice source = .ok out := by
    have hperm : edits.Perm order.reverse := hd.perm.symm.trans (reverse_perm _).symm
    have hsorted : Sorted order.reverse := pairwise_reverse.mpr hd.sorted
    have hapart' := hapart.perm hperm
    have hfollow : Follow source.length 0 order.reverse :=
      (follow_iff hsorted).mpr ⟨fun e he => (hapart'.inside e he).1, hapart'⟩
    obtain ⟨out, hp, hs⟩ := pieces_eq_splices (Nat.zero_le _) hfollow
      fun e he => hall e (hperm.mem_iff.mpr he)
    rw [reverse_reverse, take_zero, nil_append] at hs
    refine ⟨out, ?_, hs⟩
    rw [applyBytes_eq_of_ties source hperm (hd.keepsTies hall), applyBytes,
      mergeSort_of_pairwise hsorted, hp]
  constructor
  · intro h
    obtain ⟨hfollow, hall⟩ := follow_of_pieces h
    have hapart := follow_sorted_iff.mp hfollow
    obtain ⟨out, ho, hs⟩ := hspliced (fun e he => hall e (mem_mergeSort.mpr he)) hapart
    cases h.symm.trans ho
    exact ⟨hapart, hs⟩
  · rintro ⟨hapart, hs⟩
    have hall := writable_of_splices hs
    obtain ⟨out, ho, hs'⟩ := hspliced (fun e he => hall e (hd.perm.mem_iff.mpr he)) hapart
    cases hs.symm.trans hs'
    exact ho

theorem keptIn_sublist_applyBytes (h : applyBytes source edits = .ok bytes) :
    (keptIn edits 0 source).Sublist bytes := by
  have hspares : spares (edits.mergeSort le) = spares edits :=
    funext fun offset => (mergeSort_perm edits le).all_eq
  have hkept := keptIn_sublist_pieces (Nat.zero_le _) h
  rwa [keptIn, hspares, drop_zero] at hkept

/-- The text after all edits is the one whose bytes are those after all edits. -/
theorem apply_eq_ok_iff (h : applyBytes source edits = .ok bytes) {t : Text} :
    apply source edits = .ok t ↔ Utf8.encode t = .ok bytes := by
  rw [← Utf8.decode_eq_ok_iff, apply, h]
  change (Utf8.decode bytes).mapError Fault.decoding = .ok t ↔ _
  cases Utf8.decode bytes with
  | ok u =>
    constructor
    · rintro ⟨⟩
      rfl
    · rintro ⟨⟩
      rfl
  | error flaw =>
    constructor
    · rintro ⟨⟩
    · rintro ⟨⟩

/-- Bytes of no text are refused after all edits. -/
theorem apply_of_unreadable (h : applyBytes source edits = .ok bytes)
    (hnone : ∀ t, Utf8.encode t ≠ .ok bytes) :
    ∃ flaw, apply source edits = .error (.decoding flaw) := by
  cases hd : Utf8.decode bytes with
  | ok t => exact absurd (Utf8.encode_of_decode hd) (hnone t)
  | error flaw =>
    refine ⟨flaw, ?_⟩
    rw [apply, h]
    change (Utf8.decode bytes).mapError Fault.decoding = _
    rw [hd]
    rfl

end

/-- Edits whose texts have bytes get past the check exactly if they are apart, and edits that are
apart get past it whatever their texts. They then give the bytes of splicing them one at a time, the
highest first, and the text of these bytes, if they have one. How they end does not depend on the
order in which they are given, apart from insertions at one place and from edits of one range with a
text that has no bytes. -/
theorem edits_spliced_downward (source : Bytes) (edits : List Edit) :
    (Apart source.length edits → Passes source edits) ∧
    ((∀ e ∈ edits, e.Writable) → Passes source edits → Apart source.length edits) ∧
    (∃ order, Descends edits order) ∧
    (∀ order, Descends edits order → ∀ bytes, applyBytes source edits = .ok bytes ↔
      Apart source.length edits ∧ order.foldlM splice source = .ok bytes) ∧
    (∀ bytes, applyBytes source edits = .ok bytes →
      (keptIn edits 0 source).Sublist bytes ∧
      (∀ t, apply source edits = .ok t ↔ Utf8.encode t = .ok bytes) ∧
      ((∀ t, Utf8.encode t ≠ .ok bytes) → ∃ flaw, apply source edits = .error (.decoding flaw))) ∧
    (∀ f, applyBytes source edits = .error f → apply source edits = .error f ∧
      ((∃ e ∈ edits, f = .range (.edit e.start e.stop)) ∨
        ∃ e ∈ edits, ∃ flaw, Utf8.encode e.text = .error flaw ∧ f = .encoding flaw)) ∧
    (∀ edits', edits.Perm edits' → KeepsTies edits edits' →
      apply source edits = apply source edits') ∧
    ∀ t, (Utf8.encode t = .ok source → applyText t edits = apply source edits) ∧
      ∀ flaw, Utf8.encode t = .error flaw → applyText t edits = .error (.encoding flaw) := by
  refine ⟨passes_of_apart, apart_of_passes, ⟨_, descends_sorted edits⟩,
    fun order hd bytes => applyBytes_eq_ok_iff hd, fun bytes h =>
      ⟨keptIn_sublist_applyBytes h, fun t => apply_eq_ok_iff h, apply_of_unreadable h⟩,
    fun f h => ⟨by rw [apply, h]; rfl, ?_⟩, fun edits' hp ht => ?_,
    fun t => ⟨fun h => ?_, fun flaw h => ?_⟩⟩
  · exact (pieces_eq_error h).imp (fun ⟨e, he, hf⟩ => ⟨e, mem_mergeSort.mp he, hf⟩)
      fun ⟨e, he, hf⟩ => ⟨e, mem_mergeSort.mp he, hf⟩
  · rw [apply, apply, applyBytes_eq_of_ties source hp ht]
  · rw [applyText, h]
    rfl
  · rw [applyText, h]
    rfl

namespace Sample

/-- A source with a character of two bytes. -/
def source : Bytes := [0x61, 0xc3, 0xa9, 0x62]

/-- Two insertions before a replacement, and an edit that touches it. -/
def edits : List Edit := [⟨3, 4, "Z"⟩, ⟨1, 1, "x"⟩, ⟨1, 3, ""⟩, ⟨1, 1, "y"⟩]

/-- The edits of the sample, the highest first. -/
def order : List Edit := [⟨3, 4, "Z"⟩, ⟨1, 3, ""⟩, ⟨1, 1, "y"⟩, ⟨1, 1, "x"⟩]

theorem apart : Apart source.length edits where
  inside := by simp [edits, source, Inside]
  clear := by simp [edits, Clear]

theorem order_perm : order.Perm edits :=
  .cons _ (perm_append_singleton (⟨1, 1, "x"⟩ : Edit) [⟨1, 3, ""⟩, ⟨1, 1, "y"⟩])

theorem descends : Descends edits order where
  perm := order_perm
  sorted := by simp [order, le]
  insertions a := by
    have hnone (ha : a ≠ 1) : ∀ e ∈ edits, ¬ e.spans a a = true := by
      simp only [edits, forall_mem_cons, spans_iff, not_mem_nil, false_implies,
        implies_true, and_true]
      omega
    by_cases ha : a = 1
    · subst ha
      rfl
    · rw [filter_eq_nil_iff.mpr (hnone ha), filter_eq_nil_iff.mpr fun e he =>
        hnone ha e (order_perm.mem_iff.mp he)]
      rfl

/-- A text that is half a pair. -/
def half : Text := ⟨[.ofCode 0xd800]⟩

end Sample

/-- Insertions at one place stand in the order in which they are given, before the replacement that
starts there. -/
theorem edits_spliced_downward_insertions :
    Apart Sample.source.length Sample.edits ∧ Passes Sample.source Sample.edits ∧
      apply Sample.source Sample.edits = .ok "axyZ" := by
  obtain ⟨hpasses, -, -, hspliced, htext, -⟩ := edits_spliced_downward Sample.source Sample.edits
  have hbytes := (hspliced Sample.order Sample.descends [0x61, 0x78, 0x79, 0x5a]).mpr
    ⟨Sample.apart, by rfl⟩
  exact ⟨Sample.apart, hpasses Sample.apart, ((htext _ hbytes).2.1 _).mpr (by rfl)⟩

/-- Two edits of one range are refused as overlapping, or because a text has no bytes, by the order
in which they are given. -/
theorem unwritable_text_before_overlap :
    let overlap : Edit := ⟨0, 1, "a"⟩
    let unwritable : Edit := ⟨0, 1, Sample.half⟩
    ¬ Apart 2 [unwritable, overlap] ∧ [overlap, unwritable].Perm [unwritable, overlap] ∧
      (∀ a, [overlap, unwritable].filter (spans a a) = [unwritable, overlap].filter (spans a a)) ∧
      apply [0x61, 0x62] [overlap, unwritable] = .error (.range (.edit 0 1)) ∧
      apply [0x61, 0x62] [unwritable, overlap] = .error (.encoding ⟨0, 1, 0xd800⟩) := by
  intro overlap unwritable
  refine ⟨fun h => ?_, .swap _ _ _, fun a => ?_, ?_, ?_⟩
  · have hclear := (pairwise_cons.mp h.clear).1 overlap (by simp)
    simp [Clear, overlap, unwritable] at hclear
  · have hnone : ¬ overlap.spans a a = true ∧ ¬ unwritable.spans a a = true := by
      simp only [spans_iff, overlap, unwritable]
      omega
    simp [hnone]
  · rw [apply, applyBytes, mergeSort_of_pairwise (by simp [le, overlap, unwritable])]
    rfl
  · rw [apply, applyBytes, mergeSort_of_pairwise (by simp [le, overlap, unwritable])]
    rfl

end RoutePlugins.Edit
