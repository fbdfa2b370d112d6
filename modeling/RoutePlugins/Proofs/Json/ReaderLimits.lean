import RoutePlugins.Proofs.Json.Numbers

/-!
# Limits of the reader

Every part of the reader ends further on in the document, or stops. It stops at one of its two
limits only for a reason that stands in the document: a row of numerals that is too long, or more
opening marks than values may lie deep. What it gives has no two fields of one name in an object.
-/

namespace RoutePlugins.Json

variable {v : Json}

/-- A mark that opens an object or a list. -/
def isOpening (p : CodePoint) : Bool := p == '{' || p == '['

/-- Why a reader of values `depth` deep stopped at a limit is to be seen in the code points. -/
def Stop.FoundIn (depth : Nat) (ps : List CodePoint) : Stop → Prop
  | .missed .. => True
  | .digits count =>
    maxDigits < count ∧ ∃ run, run <:+: ps ∧ run.length = count ∧ ∀ p ∈ run, isNumeral p = true
  | .depth _ => depth < ps.countP isOpening

theorem Stop.FoundIn.mono {depth : Nat} {ps qs : List CodePoint} {stop : Stop}
    (h : stop.FoundIn depth ps) (hs : ps <:+ qs) : stop.FoundIn depth qs := by
  cases stop with
  | missed => trivial
  | digits count =>
    obtain ⟨hcount, run, hin, hrun⟩ := h
    exact ⟨hcount, run, hin.trans hs.isInfix, hrun⟩
  | depth => exact Nat.lt_of_lt_of_le h (hs.sublist.countP_le)

/-- A reading that starts at a place: it gives something good and ends further on, or it stops, at a
limit only for a reason in the document. -/
def Reads {α : Type} (good : α → Prop) (depth : Nat) (c : Cursor) :
    Except Stop (α × Cursor) → Prop
  | .ok (a, after) => good a ∧ after.rest <:+ c.rest
  | .error stop => stop.FoundIn depth c.rest

namespace Reads

variable {α β : Type} {good : α → Prop} {good' : β → Prop} {depth : Nat} {c d : Cursor}

theorem mono {x : Except Stop (α × Cursor)} (h : Reads good depth d x)
    (hs : d.rest <:+ c.rest) : Reads good depth c x := by
  cases x with
  | ok r => exact ⟨h.1, h.2.trans hs⟩
  | error stop => exact Stop.FoundIn.mono h hs

/-- One reading after another. -/
theorem bind {x : Except Stop (α × Cursor)} {f : α × Cursor → Except Stop (β × Cursor)}
    (h : Reads good depth c x)
    (hf : ∀ a after, good a → Reads good' depth after (f (a, after))) :
    Reads good' depth c (x >>= f) := by
  cases x with
  | ok r => exact (hf r.1 r.2 h.1).mono h.2
  | error stop => exact h

/-- What is missed is missed for no limit. -/
theorem stop (what : Expectation) : Reads good depth c (d.stop what) := trivial

/-- Behind an opening mark values may lie one less deep. -/
theorem enter {p : CodePoint} {rest : List CodePoint} (hc : c.rest = p :: rest)
    (hp : isOpening p = true) (hd : d.rest <:+ rest) {x : Except Stop (α × Cursor)}
    (h : Reads good depth d x) : Reads good (depth + 1) c x := by
  have hs : d.rest <:+ c.rest := hc ▸ hd.trans (List.suffix_cons p rest)
  cases x with
  | ok r => exact ⟨h.1, h.2.trans hs⟩
  | error stop =>
    cases stop with
    | missed => trivial
    | digits count =>
      have hdigits : (Stop.digits count).FoundIn (depth + 1) d.rest := h
      exact hdigits.mono hs
    | depth =>
      have hcount : depth < rest.countP isOpening := Nat.lt_of_lt_of_le h hd.sublist.countP_le
      change depth + 1 < c.rest.countP isOpening
      rw [hc, List.countP_cons_of_pos hp]
      omega

end Reads

/-! ### Places further on -/

theorem Cursor.suffix_skip (c : Cursor) (n : Nat) : (c.skip n).rest <:+ c.rest :=
  List.drop_suffix n c.rest

theorem Cursor.suffix_skipGaps (c : Cursor) : c.skipGaps.rest <:+ c.rest := c.suffix_skip _

/-! ### Tokens -/

variable {opening depth : Nat} {ps : List CodePoint} {stop : Stop} {c : Cursor}

/-- An escape that is not read misses something. -/
theorem readEscape_eq_error {offset : Nat} (h : readEscape opening offset ps = .error stop) :
    ∃ what n, stop = .missed what n := by
  unfold readEscape at h
  (repeat' split at h) <;> cases h <;> exact ⟨_, _, rfl⟩

theorem reads_readString (start : Nat) :
    ∀ (skip offset : Nat) (acc : List CodePoint),
      Reads (fun _ => True) depth ⟨start, ps⟩ (readString opening skip offset acc ps) := by
  induction ps with
  | nil =>
    intro skip offset acc
    rw [readString]
    trivial
  | cons p ps ih =>
    intro skip offset acc
    have hrest (skip offset : Nat) (acc : List CodePoint) :
        Reads (fun _ => True) depth ⟨start, p :: ps⟩ (readString opening skip offset acc ps) :=
      (ih skip offset acc).mono (List.suffix_cons p ps)
    cases skip with
    | succ skip => exact hrest skip _ _
    | zero =>
      rw [readString]
      split
      · exact ⟨trivial, List.suffix_cons p ps⟩
      split
      · split
        · exact hrest _ _ _
        · next stop hescape =>
          obtain ⟨what, n, rfl⟩ := readEscape_eq_error hescape
          trivial
      split
      · trivial
      · exact hrest _ _ _

theorem reads_readName (c : Cursor) : Reads (fun _ => True) depth c (readName c) := by
  unfold readName
  split
  · next rest hc =>
    have hrest : rest <:+ c.rest := hc ▸ List.suffix_cons _ rest
    refine ((reads_readString c.offset 0 _ []).mono hrest).bind fun name after _ => ?_
    dsimp only
    split
    · exact ⟨trivial, ((Cursor.suffix_skipGaps _).trans (Cursor.suffix_skip _ 1)).trans
        after.suffix_skipGaps⟩
    · exact .stop _
  · exact .stop _

theorem wholeNumerals_spec (ps : List CodePoint) :
    wholeNumerals ps <+: ps ∧ ∀ p ∈ wholeNumerals ps, isNumeral p = true := by
  unfold wholeNumerals
  split
  · exact ⟨⟨_, rfl⟩, List.forall_mem_singleton.mpr (by decide)⟩
  · exact ⟨List.takeWhile_prefix _, List.all_eq_true.mp List.all_takeWhile⟩

/-- A number that is too long is a row of numerals. -/
theorem foundIn_of_readNumber (h : readNumber c = .error stop) : stop.FoundIn depth c.rest := by
  unfold readNumber at h
  dsimp only at h
  generalize hbody : (if (c.rest.head? == some (.char '-')) = true then c.skip 1 else c) = body at h
  have hstart : body.rest <:+ c.rest := by
    rw [← hbody]
    split
    · exact c.suffix_skip 1
    · exact List.suffix_rfl
  split at h
  · cases h
    trivial
  split at h
  · cases h
  split at h
  · split at h
    · next hcount =>
      cases h
      obtain ⟨hfront, hnumerals⟩ := wholeNumerals_spec body.rest
      exact ⟨hcount, _, hfront.isInfix.trans hstart.isInfix, rfl, hnumerals⟩
    · cases h
  · cases h

/-- A number holds no objects. -/
theorem keysDistinct_of_readNumber {after : Cursor} (h : readNumber c = .ok (v, after)) :
    v.keysDistinct = true := by
  unfold readNumber at h
  dsimp only at h
  (repeat' split at h) <;> cases h <;> rfl

theorem reads_readScalar (c : Cursor) :
    Reads (fun v => v.keysDistinct = true) depth c (readScalar c) := by
  unfold readScalar
  split
  · next word value hword =>
    have hvalues : ∀ w ∈ wordValues, w.2.keysDistinct = true := by decide
    exact ⟨hvalues _ (List.mem_of_find?_eq_some hword), c.suffix_skip _⟩
  · cases h : readNumber c with
    | ok r => exact ⟨keysDistinct_of_readNumber h, suffix_of_readNumber h⟩
    | error stop => exact foundIn_of_readNumber h

/-! ### Values -/

theorem keysDistinct_arr {items : List Json} :
    (Json.arr items).keysDistinct = true ↔ ∀ v ∈ items, v.keysDistinct = true := by
  rw [keysDistinct]
  induction items with
  | nil => simp [keysDistinctItems]
  | cons v rest ih => rw [keysDistinctItems, Bool.and_eq_true, ih, List.forall_mem_cons]

theorem keysDistinct_obj {fields : List (Text × Json)} :
    (Json.obj fields).keysDistinct = true ↔
      (Assoc.keys fields).Nodup ∧ ∀ e ∈ fields, e.2.keysDistinct = true := by
  have hfields : keysDistinctFields fields = true ↔ ∀ e ∈ fields, e.2.keysDistinct = true := by
    induction fields with
    | nil => simp [keysDistinctFields]
    | cons e rest ih => rw [keysDistinctFields, Bool.and_eq_true, ih, List.forall_mem_cons]
  rw [keysDistinct, Bool.and_eq_true, decide_eq_true_eq, hfields]

/-- A field that is set leaves an object with distinct names. -/
theorem keysDistinct_insert {fields : List (Text × Json)} (name : Text)
    (h : (Json.obj fields).keysDistinct = true) (hv : v.keysDistinct = true) :
    (Json.obj (Assoc.insert name v fields)).keysDistinct = true := by
  obtain ⟨hnames, hvalues⟩ := keysDistinct_obj.mp h
  refine keysDistinct_obj.mpr ⟨Assoc.nodup_keys_insert hnames, fun e he => ?_⟩
  obtain rfl | he := Assoc.mem_insert he
  · exact hv
  · exact hvalues e he

/-- What the readers of values do with some fuel. -/
structure ReadsWith (fuel : Nat) : Prop where
  value (depth : Nat) (c : Cursor) :
    Reads (fun v => v.keysDistinct = true) depth c (readValue depth fuel c)
  fields (depth : Nat) {acc : List (Text × Json)} (c : Cursor)
    (hacc : (Json.obj acc).keysDistinct = true) :
    Reads (fun v => v.keysDistinct = true) depth c (readFields depth fuel acc c)
  items (depth : Nat) {acc : List Json} (c : Cursor) (hacc : ∀ v ∈ acc, v.keysDistinct = true) :
    Reads (fun v => v.keysDistinct = true) depth c (readItems depth fuel acc c)

section

variable {fuel : Nat} (ih : ReadsWith fuel)

include ih

theorem ReadsWith.value_succ (depth : Nat) (c : Cursor) :
    Reads (fun v => v.keysDistinct = true) depth c (readValue depth (fuel + 1) c) := by
  have hfirst {p : CodePoint} {rest : List CodePoint} (hc : c.rest = p :: rest) :
      (c.skip 1).skipGaps.rest <:+ rest := by
    have hskip : (c.skip 1).rest = rest := by rw [Cursor.skip, hc]; rfl
    exact hskip ▸ (c.skip 1).suffix_skipGaps
  have hempty {p : CodePoint} {rest : List CodePoint} (hc : c.rest = p :: rest) :
      ((c.skip 1).skipGaps.skip 1).rest <:+ c.rest :=
    (Cursor.suffix_skip _ 1).trans ((hfirst hc).trans (hc ▸ List.suffix_cons p rest))
  have hopen {p : CodePoint} {rest : List CodePoint} (hc : c.rest = p :: rest)
      (hp : isOpening p = true) : 0 < c.rest.countP isOpening := by
    rw [hc, List.countP_cons_of_pos hp]
    omega
  rw [readValue]
  split
  · next rest hc =>
    have hrest : rest <:+ c.rest := hc ▸ List.suffix_cons _ rest
    exact ((reads_readString c.offset 0 _ []).mono hrest).bind fun _ _ _ => ⟨rfl, List.suffix_rfl⟩
  · next rest hc =>
    dsimp only
    split
    · exact hopen hc rfl
    · exact ⟨rfl, hempty hc⟩
    · exact .enter hc rfl (hfirst hc) (ih.fields _ _ rfl)
  · next rest hc =>
    dsimp only
    split
    · exact hopen hc rfl
    · exact ⟨rfl, hempty hc⟩
    · exact .enter hc rfl (hfirst hc) (ih.items _ _ (by simp))
  · exact reads_readScalar c

theorem ReadsWith.fields_succ (depth : Nat) {acc : List (Text × Json)} (c : Cursor)
    (hacc : (Json.obj acc).keysDistinct = true) :
    Reads (fun v => v.keysDistinct = true) depth c (readFields depth (fuel + 1) acc c) := by
  rw [readFields]
  refine (reads_readName c).bind fun name start _ => ?_
  refine (ih.value depth start).bind fun v after hv => ?_
  have hfields := keysDistinct_insert name hacc hv
  have hmark := after.suffix_skipGaps
  dsimp only
  split
  · exact ⟨hfields, (Cursor.suffix_skip _ 1).trans hmark⟩
  · exact (ih.fields depth _ hfields).mono
      ((Cursor.suffix_skipGaps _).trans ((Cursor.suffix_skip _ 1).trans hmark))
  · exact .stop _

theorem ReadsWith.items_succ (depth : Nat) {acc : List Json} (c : Cursor)
    (hacc : ∀ v ∈ acc, v.keysDistinct = true) :
    Reads (fun v => v.keysDistinct = true) depth c (readItems depth (fuel + 1) acc c) := by
  rw [readItems]
  refine (ih.value depth c).bind fun v after hv => ?_
  have hitems : ∀ x ∈ v :: acc, x.keysDistinct = true := List.forall_mem_cons.mpr ⟨hv, hacc⟩
  have hmark := after.suffix_skipGaps
  dsimp only
  split
  · refine ⟨keysDistinct_arr.mpr fun x hx => hitems x (List.mem_reverse.mp hx), ?_⟩
    exact (Cursor.suffix_skip _ 1).trans hmark
  · exact (ih.items depth _ hitems).mono
      ((Cursor.suffix_skipGaps _).trans ((Cursor.suffix_skip _ 1).trans hmark))
  · exact .stop _

end

/-- Whatever the fuel, values are read further on, up to a reason to stop. -/
theorem readsWith (fuel : Nat) : ReadsWith fuel := by
  induction fuel with
  | zero =>
    refine ⟨fun _ _ => ?_, fun _ _ _ _ => ?_, fun _ _ _ _ => ?_⟩
    · rw [readValue]
      exact .stop _
    · rw [readFields]
      exact .stop _
    · rw [readItems]
      exact .stop _
  | succ fuel ih => exact ⟨ih.value_succ, fun _ _ => ih.fields_succ _, fun _ _ => ih.items_succ _⟩

/-! ### Documents -/

/-- What a document is read as has distinct names. -/
theorem keysDistinct_of_read {t : Text} (h : read t = .ok v) : v.keysDistinct = true := by
  unfold read readWithin at h
  cases hpoints : readPoints maxDepth t.points with
  | error stop =>
    rw [hpoints] at h
    cases h
  | ok x =>
    rw [hpoints] at h
    cases h
    unfold readPoints at hpoints
    split at hpoints
    · cases hpoints
    obtain ⟨⟨x, after⟩, hvalue, hpoints⟩ := bind_ok_iff.mp hpoints
    have hreads := (readsWith (2 * t.points.length + 2)).value maxDepth
      (Cursor.skipGaps ⟨0, t.points⟩)
    rw [hvalue] at hreads
    dsimp only at hpoints
    split at hpoints
    · cases hpoints
      exact hreads.1
    · cases hpoints

/-- The reader stops at a limit for a reason in the document. -/
theorem foundIn_of_readPoints {depth : Nat} {ps : List CodePoint} {stop : Stop}
    (h : readPoints depth ps = .error stop) : stop.FoundIn depth ps := by
  unfold readPoints at h
  split at h
  · cases h
    trivial
  have hreads := ((readsWith (2 * ps.length + 2)).value depth (Cursor.skipGaps ⟨0, ps⟩)).mono
    (Cursor.suffix_skipGaps ⟨0, ps⟩)
  cases hvalue : readValue depth (2 * ps.length + 2) (Cursor.skipGaps ⟨0, ps⟩) with
  | error stop' =>
    rw [hvalue] at h hreads
    cases h
    exact hreads
  | ok r =>
    rw [hvalue] at h
    replace h : (if r.2.skipGaps.rest.isEmpty = true then .ok r.1
      else r.2.skipGaps.stop .endOfText) = Except.error stop := h
    split at h
    · cases h
    · cases h
      trivial

/-- A document that keeps to the limits of the reader: no row of numerals is too long, and there are
no more opening marks than values may lie deep. -/
structure Moderate (t : Text) : Prop where
  numerals : ∀ run, run <:+: t.points → (∀ p ∈ run, isNumeral p = true) → run.length ≤ maxDigits
  openings : t.points.countP isOpening ≤ maxDepth

/-- A document that keeps to the limits is read, or is no JSON. -/
theorem Moderate.syntactic {t : Text} (h : Moderate t) {fault : ReadFault}
    (hread : read t = .error fault) : ∃ e, fault = .syntactic e := by
  unfold read readWithin at hread
  cases hpoints : readPoints maxDepth t.points with
  | ok v =>
    rw [hpoints] at hread
    cases hread
  | error stop =>
    rw [hpoints] at hread
    cases hread
    have hfound := foundIn_of_readPoints hpoints
    cases stop with
    | missed what offset => exact ⟨_, rfl⟩
    | digits count =>
      obtain ⟨hcount, run, hin, rfl, hrun⟩ := hfound
      exact absurd (h.numerals run hin hrun) (Nat.not_le_of_lt hcount)
    | depth => exact absurd h.openings (Nat.not_le_of_lt hfound)

end RoutePlugins.Json
