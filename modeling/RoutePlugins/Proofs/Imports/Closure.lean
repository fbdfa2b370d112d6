import Mathlib.Data.List.Perm.Subperm
import Mathlib.Data.List.TakeWhile
import Mathlib.Data.Nat.Digits.Defs
import RoutePlugins.Proofs.Imports.DepthFirst
import RoutePlugins.Proofs.Imports.Memory

/-!
# The files that an entry reaches

Following imports from an entry is a depth-first search. Its loop keeps a stack and leaves visited
files out of it, both when files are pushed and when they are popped. It ends because every file on
the way but the entry is named by a remembered import or by a path that leads to a file, and there
are only so many of either.
-/

namespace RoutePlugins

open List

variable {file f : Text} {children : List Text} {fields : List (Text × Json)}

/-! ### How many texts there are -/

namespace CodePoint

theorem code_lt (p : CodePoint) : p.code < 0x110000 := by
  cases p with
  | char c =>
    have hv := c.valid
    change c.val.toNat < 0xd800 ∨ 0xdfff < c.val.toNat ∧ c.val.toNat < 0x110000 at hv
    change c.val.toNat < 0x110000
    omega
  | half h =>
    have hh := h.isLt
    change 0xd800 + h.val < 0x110000
    omega

end CodePoint

namespace Text

/-- The digits of the number of a text: one above the code of each code point. -/
def digits (t : Text) : List Nat := t.points.map fun p => p.code + 1

/-- The number of a text. -/
def number (t : Text) : Nat := Nat.ofDigits 0x110001 t.digits

private theorem digits_lt (t : Text) : ∀ d ∈ t.digits, d < 0x110001 := by
  intro d hm
  obtain ⟨p, -, rfl⟩ := mem_map.mp hm
  have hp := p.code_lt
  omega

/-- Texts with the same number are one. -/
theorem number_injective {s t : Text} (h : s.number = t.number) : s = t := by
  have hback (u : Text) : Nat.digits 0x110001 u.number = u.digits := by
    refine Nat.digits_ofDigits _ (by omega) _ u.digits_lt fun hne => ?_
    obtain ⟨p, -, hp⟩ := mem_map.mp (getLast_mem hne)
    rw [← hp]
    exact Nat.succ_ne_zero _
  have hd : s.digits = t.digits := by rw [← hback s, ← hback t, h]
  obtain ⟨ps⟩ := s
  obtain ⟨qs⟩ := t
  have hinj : Function.Injective fun p : CodePoint => p.code + 1 := fun p q hpq =>
    CodePoint.code_injective (Nat.succ.inj hpq)
  exact congrArg Text.mk (map_injective_iff.mpr hinj hd)

theorem number_lt {t : Text} {limit : Nat} (h : t.points.length ≤ limit) :
    t.number < 0x110001 ^ limit := by
  have hlt := Nat.ofDigits_lt_base_pow_length (b := 0x110001) (by omega) t.digits_lt
  have hlength : t.digits.length = t.points.length := length_map _
  rw [hlength] at hlt
  exact Nat.lt_of_lt_of_le hlt (Nat.pow_le_pow_right (by omega) h)

/-- There are only so many texts up to a length. -/
theorem length_le_of_nodup {l : List Text} (hl : l.Nodup) {limit : Nat}
    (h : ∀ t ∈ l, t.points.length ≤ limit) : l.length ≤ Nat.pow 0x110001 limit := by
  rw [Nat.pow_eq]
  have hnodup : (l.map number).Nodup := hl.map fun _ _ => number_injective
  have hsub : l.map number ⊆ List.range (0x110001 ^ limit) := by
    intro n hm
    obtain ⟨t, ht, rfl⟩ := mem_map.mp hm
    exact mem_range.mpr (number_lt (h t ht))
  have hlength := (hnodup.subperm hsub).length_le
  rwa [length_map, length_range] at hlength

end Text

namespace ImportGraph

open Store

/-! ### The files that are entered -/

variable {g : ImportGraph} {src : Sources} {s0 : Store}

/-- A file is entered if that can be told. -/
def enters (g : ImportGraph) (fs : Files) (file : Text) : Bool :=
  (g.isEntered fs (Path.parse file)).toOption.getD false

theorem enters_of_ok {fs : Files} {b : Bool} (h : g.isEntered fs (Path.parse file) = .ok b) :
    g.enters fs file = b := by
  rw [enters, h]
  rfl

theorem enters_iff {fs : Files} :
    g.enters fs file = true ↔ g.isEntered fs (Path.parse file) = .ok true := by
  unfold enters
  cases h : g.isEntered fs (Path.parse file) with
  | ok b => simp [Except.toOption]
  | error e => simp [Except.toOption]

/-- The files that a file leads to: those of its imports that are entered, in their order. -/
def leadsTo (g : ImportGraph) (src : Sources) (s : Store) (file : Text) :
    Except Fault (List Text) := do
  return ((← outcome (g.imports src file s)).map (·.file)).filter (g.enters src.files)

/-- The files that a file leads to from some entry, which itself is not looked at again. It has to
be told of each of the others whether it is entered. -/
def following (g : ImportGraph) (src : Sources) (s : Store) (entry file : Text) :
    Except Fault (List Text) := do
  g.entered src.files [entry] ((← outcome (g.imports src file s)).map (·.file))

section

variable {fs : Files} {order : List Text}

theorem entered_cons_of_mem (hf : f ∈ order) (rest : List Text) :
    g.entered fs order (f :: rest) = g.entered fs order rest := by
  rw [entered, if_pos (by simpa using hf)]

theorem entered_cons_of_error (hf : f ∉ order) {e : Fault}
    (he : g.isEntered fs (Path.parse f) = .error e) (rest : List Text) :
    g.entered fs order (f :: rest) = .error e := by
  rw [entered, if_neg (by simpa using hf), he]
  rfl

theorem entered_cons_of_ok (hf : f ∉ order) {b : Bool}
    (hb : g.isEntered fs (Path.parse f) = .ok b) (rest : List Text) :
    g.entered fs order (f :: rest) =
      (g.entered fs order rest).map fun l => if b then f :: l else l := by
  rw [entered, if_neg (by simpa using hf), hb]
  cases b with
  | true =>
    cases g.entered fs order rest with
    | ok l => rfl
    | error e => rfl
  | false =>
    change g.entered fs order rest = _
    cases g.entered fs order rest with
    | ok l => rfl
    | error e => rfl

/-- The entered files are told if each file is visited or told to be entered or not. -/
theorem entered_eq_ok_iff {files : List Text} :
    g.entered fs order files = .ok children ↔
      (∀ f ∈ files, f ∈ order ∨ ∃ b, g.isEntered fs (Path.parse f) = .ok b) ∧
      children = (files.filter (g.enters fs)).filter (!order.contains ·) := by
  induction files generalizing children with
  | nil => simp [entered, eq_comm]
  | cons f rest ih =>
    rw [forall_mem_cons, and_assoc]
    by_cases hf : f ∈ order
    · have hskip : ((f :: rest).filter (g.enters fs)).filter (!order.contains ·) =
          (rest.filter (g.enters fs)).filter (!order.contains ·) := by
        rw [filter_filter, filter_filter, filter_cons_of_neg (by simp [hf])]
      rw [entered_cons_of_mem hf, ih, hskip]
      exact ⟨fun h => ⟨.inl hf, h⟩, And.right⟩
    · cases hb : g.isEntered fs (Path.parse f) with
      | error e => simp [entered_cons_of_error hf hb, hf]
      | ok b =>
        rw [entered_cons_of_ok hf hb, DepthFirst.map_eq_ok_iff]
        have hfilter (l : List Text) : ((f :: l).filter (g.enters fs)).filter (!order.contains ·) =
            if b then f :: (l.filter (g.enters fs)).filter (!order.contains ·)
            else (l.filter (g.enters fs)).filter (!order.contains ·) := by
          cases b with
          | true => simp [enters_of_ok hb, hf]
          | false => simp [enters_of_ok hb]
        simp only [ih, hfilter, Except.ok.injEq, exists_eq', or_true, true_and]
        constructor
        · rintro ⟨l, ⟨htold, rfl⟩, rfl⟩
          exact ⟨htold, rfl⟩
        · rintro ⟨htold, rfl⟩
          exact ⟨_, ⟨htold, rfl⟩, rfl⟩

/-- More visited files are left out of the entered ones. Those that were told to be entered cannot
have been in the way. -/
theorem entered_apart {entry : Text} (hentry : entry ∈ order)
    (horder : ∀ f ∈ order, f = entry ∨ g.isEntered fs (Path.parse f) = .ok true)
    (files : List Text) :
    g.entered fs order files =
      (g.entered fs [entry] files).map (List.filter (!order.contains ·)) := by
  induction files with
  | nil => rfl
  | cons f rest ih =>
    by_cases hf : f ∈ order
    · rw [entered_cons_of_mem hf, ih]
      rcases horder f hf with rfl | hb
      · rw [entered_cons_of_mem (by simp)]
      · by_cases he : f = entry
        · rw [entered_cons_of_mem (by simp [he])]
        · rw [entered_cons_of_ok (by simpa using he) hb, DepthFirst.map_map]
          congr 1
          funext l
          simp [hf]
    · have he : f ∉ [entry] := by
        rintro hm
        rw [mem_singleton.mp hm] at hf
        exact hf hentry
      cases hb : g.isEntered fs (Path.parse f) with
      | error e => rw [entered_cons_of_error hf hb, entered_cons_of_error he hb, Except.map]
      | ok b =>
        rw [entered_cons_of_ok hf hb, entered_cons_of_ok he hb, ih, DepthFirst.map_map,
          DepthFirst.map_map]
        congr 1
        funext l
        cases b with
        | true => simp [hf]
        | false => simp

end

/-! ### The loop -/

/-- One turn of the loop follows the imports of a file and gives the new files among those it leads
to, from every store that is ahead. -/
theorem gives_turn {current entry : Text} {order : List Text}
    (himports : Gives (Ahead g src s0) (g.imports src current) (outcome (g.imports src current s0)))
    (hentry : entry ∈ order)
    (htold : ∀ f ∈ order, f = entry ∨ g.isEntered src.files (Path.parse f) = .ok true) :
    Gives (Ahead g src s0)
      (do StoreM.lift (g.entered src.files order ((← g.imports src current).map (·.file))))
      ((g.following src s0 entry current).map (List.filter (!order.contains ·))) := by
  have hturn : (g.following src s0 entry current).map (List.filter (!order.contains ·)) =
      outcome (g.imports src current s0) >>= fun found =>
        g.entered src.files order (found.map (·.file)) := by
    simp only [entered_apart hentry htold, following]
    cases outcome (g.imports src current s0) with
    | error e => rfl
    | ok found => rfl
  rw [hturn]
  exact himports.bind fun found => .lift _

section

variable {InReach : Text → Prop} {bound : Nat} {entry : Text}
  (hbound : ∀ l : List Text, l.Nodup → (∀ v ∈ l, InReach v) → l.length ≤ bound)

include hbound

/-- A loop that has visited as many files as there are has nothing left to visit. -/
private theorem visited_of_bound {order : List Text} (hnodup : order.Nodup)
    (horder : ∀ v ∈ order, InReach v) (hfuel : bound ≤ order.length) {v : Text} (hv : InReach v) :
    v ∈ order := by
  by_contra hn
  have hlength := hbound (v :: order) (nodup_cons.mpr ⟨hn, hnodup⟩)
    (forall_mem_cons.mpr ⟨hv, horder⟩)
  rw [length_cons] at hlength
  omega

/-- The loop over a stack makes a depth-first search from every store that is ahead, provided that
it may visit as many files as there are. -/
theorem reachFrom_depthFirst
    (himports : ∀ u, Gives (Ahead g src s0) (g.imports src u) (outcome (g.imports src u s0)))
    (hreach : ∀ u children, g.following src s0 entry u = .ok children → ∀ v ∈ children, InReach v)
    (htold : ∀ v, InReach v → v = entry ∨ g.isEntered src.files (Path.parse v) = .ok true)
    (fuel : Nat) {stack order : List Text} {s : Store} (hs : Ahead g src s0 s)
    (hnodup : order.Nodup) (horder : ∀ v ∈ order, InReach v) (hstack : ∀ v ∈ stack, InReach v)
    (hentry : entry ∈ order ∨ stack = [entry]) (hfuel : bound ≤ order.length + fuel) :
    ∃ r, DepthFirst (g.following src s0 entry) {u | u ∈ order} stack r ∧
      outcome (g.reachFrom src fuel stack order s) = r.map (order.reverse ++ ·) ∧
      Ahead g src s0 (endState (g.reachFrom src fuel stack order s)) := by
  induction fuel generalizing stack order s with
  | zero =>
    -- All files there are have been visited, so the whole stack is skipped.
    have hdrop : stack.dropWhile order.contains = [] := by
      refine dropWhile_eq_nil_iff.mpr fun v hv => ?_
      simpa using visited_of_bound hbound hnodup horder hfuel (hstack v hv)
    refine ⟨.ok [], .of_dropWhile (p := order.contains) (fun v hv => by simpa using hv) ?_, ?_, hs⟩
    · rw [hdrop]
      exact .done _
    · simp only [reachFrom, Except.map, append_nil]
      rfl
  | succ fuel ih =>
    have hsearch {r : Except Fault (List Text)}
        (h : DepthFirst (g.following src s0 entry) {u | u ∈ order} (stack.dropWhile order.contains)
          r) : DepthFirst (g.following src s0 entry) {u | u ∈ order} stack r :=
      .of_dropWhile (fun v hv => by simpa using hv) h
    cases hdrop : stack.dropWhile order.contains with
    | nil =>
      rw [hdrop] at hsearch
      rw [reachFrom, hdrop]
      refine ⟨.ok [], hsearch (.done _), ?_, hs⟩
      simp only [Except.map, append_nil]
      rfl
    | cons current rest =>
      rw [hdrop] at hsearch
      have hnew : current ∉ order := by
        have hhead := head_dropWhile_not order.contains (l := stack) (by simp [hdrop])
        simpa [hdrop] using hhead
      have hmem : ∀ v ∈ current :: rest, v ∈ stack := fun v hv =>
        (dropWhile_suffix _).subset (hdrop ▸ hv)
      have hvisit : ∀ v ∈ current :: order, InReach v :=
        forall_mem_cons.mpr ⟨hstack current (hmem current (by simp)), horder⟩
      have hentry' : entry ∈ current :: order := by
        rcases hentry with hentry | rfl
        · exact mem_cons_of_mem _ hentry
        · have hcurrent := hmem current (by simp)
          rw [mem_singleton.mp hcurrent]
          exact mem_cons_self
      have hturn := gives_turn (himports current) hentry' fun f hf => htold f (hvisit f hf)
      have hloop : g.reachFrom src (fuel + 1) stack order s = ((do
          StoreM.lift (g.entered src.files (current :: order)
            ((← g.imports src current).map (·.file)))) >>= fun next =>
          g.reachFrom src fuel (next ++ rest) (current :: order)) s := by
        rw [reachFrom, hdrop, bind_assoc]
      rw [hloop]
      cases hchildren : g.following src s0 entry current with
      | error e =>
        rw [hchildren] at hturn
        obtain ⟨t, ht, hahead⟩ := hturn.of_error hs
        rw [bind_of_error ht]
        exact ⟨.error e, hsearch (.fail hnew hchildren), rfl, hahead⟩
      | ok children =>
        rw [hchildren] at hturn
        obtain ⟨t, ht, hahead⟩ := hturn.of_ok hs
        rw [bind_of_ok ht]
        have hstack' : ∀ v ∈ (children.filter fun f => !(current :: order).contains f) ++ rest,
            InReach v := by
          refine forall_mem_append.mpr ⟨fun v hv => ?_, fun v hv => ?_⟩
          · exact hreach current children hchildren v (mem_filter.mp hv).1
          · exact hstack v (hmem v (mem_cons_of_mem _ hv))
        obtain ⟨r, hr, hout, hend⟩ := ih hahead (nodup_cons.mpr ⟨hnew, hnodup⟩) hvisit
          hstack' (.inl hentry') (by rw [length_cons]; omega)
        have hvisited : {u | u ∈ current :: order} = insert current {u | u ∈ order} := by
          ext u
          simp
        rw [hvisited] at hr
        refine ⟨r.map (current :: ·), hsearch (hr.step hnew hchildren fun u _ hp => ?_), ?_, hend⟩
        · simpa [or_iff_not_imp_left] using hp
        · rw [hout, DepthFirst.map_map]
          congr 1
          funext files
          simp

end

/-! ### How many files there are -/

/-- The files of the imports that a store remembers. -/
def recordedFiles (s : Store) : List Text :=
  (records s).filterMap fun v => (ResolvedImport.ofValue v).toOption.map (·.file)

/-- A file that a search can come to: its entry, or an entered file that a remembered import or a
path leads to. -/
def InReach (g : ImportGraph) (src : Sources) (s : Store) (entry file : Text) : Prop :=
  file = entry ∨ g.isEntered src.files (Path.parse file) = .ok true ∧
    (file ∈ recordedFiles s ∨ file.points.length < Files.pathLimit)

/-- There are only so many files that a search can come to. -/
theorem length_le_of_inReach {entry : Text} {l : List Text} (hl : l.Nodup)
    (h : ∀ v ∈ l, g.InReach src s0 entry v) : l.length ≤ fileBound s0 + 1 := by
  let known := entry :: recordedFiles s0
  have hknown : (l.filter (known.contains ·)).length ≤ (records s0).length + 1 := by
    have hsub : l.filter (known.contains ·) ⊆ known := fun v hv => by
      simpa using (mem_filter.mp hv).2
    have hlength := ((hl.filter _).subperm hsub).length_le
    have hfiles : (recordedFiles s0).length ≤ (records s0).length := length_filterMap_le _ _
    rw [length_cons] at hlength
    omega
  have hshort : (l.filter (!known.contains ·)).length ≤ pathCount := by
    unfold pathCount
    refine Text.length_le_of_nodup (hl.filter _) fun v hv => ?_
    obtain ⟨hm, hv⟩ := mem_filter.mp hv
    have hv : v ∉ known := by simpa using hv
    rw [mem_cons, not_or] at hv
    rcases h v hm with he | ⟨-, hr | hlt⟩
    · exact absurd he hv.1
    · exact absurd hr hv.2
    · exact Nat.le_of_lt hlt
  have hsplit := length_eq_length_filter_add (l := l) (known.contains ·)
  unfold fileBound
  omega

/-- What a store remembers for a file is among its records. -/
theorem mem_records (hs : s0.slotAt? importsPath = some (.obj fields)) {key : Text}
    {items : List Value} (hitems : (Value.ofJson (look key fields)).elements = .ok items)
    (hne : look key fields ≠ .null) {item : Value} (hm : item ∈ items) : item ∈ records s0 := by
  have hget : s0.get importsPath.toValue = .ok (.map (Value.ofJsonFields fields)) :=
    Store.get_of_slotAt (by decide) (by decide) hs
  have hfield : ∃ v, Assoc.get? key fields = some v ∧ look key fields = v := by
    unfold look at hne ⊢
    cases hv : Assoc.get? key fields with
    | none =>
      rw [hv] at hne
      exact absurd rfl hne
    | some v => exact ⟨v, rfl, rfl⟩
  obtain ⟨v, hv, hlook⟩ := hfield
  have hentry : (Value.str key, Value.ofJson v) ∈ Value.ofJsonFields fields := by
    rw [Value.ofJsonFields_eq_map]
    exact mem_map_of_mem (Assoc.mem_of_get? hv)
  unfold records
  rw [hget]
  refine mem_flatMap.mpr ⟨_, hentry, ?_⟩
  rw [hlook] at hitems
  dsimp only
  rw [hitems]
  exact hm

section

variable (hn : src.files.StartsProper)
  (hroot : Imports.IsRoot g.root) (h0 : Ready s0)

include hn hroot h0

/-- The imports of a file are found in it, or they are read from records. -/
theorem found_or_recorded {found : List ResolvedImport}
    (h : outcome (g.imports src file s0) = .ok found) :
    (∃ parsed, ResolvedImport.all src.files g.root g.aliases parsed = .ok found) ∨
      ∀ i ∈ found, ∃ item ∈ records s0, ResolvedImport.ofValue item = .ok i := by
  obtain ⟨fields, hs⟩ := h0.imports
  cases hp : src.files.resolve (Path.parse file) with
  | error e =>
    rw [imports_of_error hp] at h
    cases h
  | ok p =>
    obtain ⟨hfind, hrecall⟩ := imports_of_ahead (g := g) hn hroot h0 hs hp
    by_cases hnull : look p.text fields = .null
    · rw [(hfind hnull s0 (.refl h0)).1] at h
      obtain ⟨parsed, -, hall⟩ := bind_ok_iff.mp h
      exact .inl ⟨parsed, hall⟩
    · rw [(hrecall hnull s0 (.refl h0)).1] at h
      obtain ⟨items, hitems, hall⟩ := bind_ok_iff.mp h
      refine .inr fun i hi => ?_
      obtain ⟨item, hm, hitem⟩ := exists_of_forall₂_left (forall₂_of_except_mapM hall).flip hi
      exact ⟨item, mem_records hs hitems hnull hm, hitem⟩

/-- The imports of a file were looked at, or they are read from records. -/
theorem lookedAt_or_recorded {found : List ResolvedImport}
    (h : outcome (g.imports src file s0) = .ok found) :
    (∀ i ∈ found, i.LookedAt src.files) ∨
      ∀ i ∈ found, ∃ item ∈ records s0, ResolvedImport.ofValue item = .ok i :=
  (found_or_recorded hn hroot h0 h).imp_left fun ⟨_, hall⟩ =>
    ResolvedImport.lookedAt_of_all hroot hall

theorem inReach_of_following {entry u : Text} (h : g.following src s0 entry u = .ok children) :
    ∀ v ∈ children, g.InReach src s0 entry v := by
  obtain ⟨found, hfound, h⟩ := bind_ok_iff.mp h
  obtain ⟨-, rfl⟩ := entered_eq_ok_iff.mp h
  intro v hv
  obtain ⟨hv, -⟩ := mem_filter.mp hv
  obtain ⟨hv, he⟩ := mem_filter.mp hv
  obtain ⟨i, hi, rfl⟩ := mem_map.mp hv
  refine .inr ⟨enters_iff.mp he, ?_⟩
  rcases lookedAt_or_recorded hn hroot h0 hfound with hlooked | hrecord
  · exact .inr ((hlooked i hi).length_file (enters_iff.mp he))
  · obtain ⟨item, hm, hitem⟩ := hrecord i hi
    refine .inl (mem_filterMap.mpr ⟨item, hm, ?_⟩)
    rw [hitem]
    rfl

variable {entry u : Text} {s : Store}

/-- Following imports from an entry makes a depth-first search. -/
theorem reachFrom_eq_search (hs : Ahead g src s0 s) (entry : Text) {fuel : Nat}
    (hfuel : fileBound s0 + 1 ≤ fuel) :
    ∃ r, DepthFirst (g.following src s0 entry) ∅ [entry] r ∧
      outcome (g.reachFrom src fuel [entry] [] s) = r ∧
      Ahead g src s0 (endState (g.reachFrom src fuel [entry] [] s)) := by
  have hstack : ∀ v ∈ [entry], g.InReach src s0 entry v :=
    fun v hv => .inl (mem_singleton.mp hv)
  have hvisited : ∀ v ∈ ([] : List Text), g.InReach src s0 entry v := by simp
  obtain ⟨r, hr, hout, hend⟩ := reachFrom_depthFirst
    (fun _ hl h => length_le_of_inReach hl h) (gives_imports hn hroot h0)
    (fun _ _ hc => inReach_of_following hn hroot h0 hc) (fun v hv => hv.imp_right And.left)
    fuel hs nodup_nil hvisited hstack (.inr rfl) (by simpa using hfuel)
  refine ⟨r, ?_, ?_, hend⟩
  · simpa using hr
  · rw [hout]
    cases r with
    | ok files => rfl
    | error e => rfl

omit hn hroot h0 in
theorem keep_files (files : List Text) :
    (Value.list (files.map .str)).keepWithin 1 = .ok (.arr (files.map fun f => .str f.joined)) :=
  Value.keepWithin_list fun _ _ => rfl

omit hn hroot h0 in
/-- The files that were reached may be remembered. -/
theorem Ahead.remember_files (h : Ahead g src s0 s)
    (hs : s.slotAt? reachedPath = some (.obj fields)) {key : Text} (hkey : key.joined = key)
    (files : List Text) :
    ∃ t, ImportGraph.remember reachedPath key (files.map .str) s = .ok () t ∧ Ahead g src s0 t ∧
      t.slotAt? reachedPath =
        some (.obj (Assoc.insert key (.arr (files.map fun f => .str f.joined)) fields)) := by
  obtain ⟨t, ht, hw, hc, hslots, hparsed⟩ := remember_apply h.ready.wellFormed hs (by decide)
    (by decide) hkey (by decide) (keep_files files)
  have hreached : t.slotAt? reachedPath =
      some (.obj (Assoc.insert key (.arr (files.map fun f => .str f.joined)) fields)) := by
    rw [hslots, if_pos rfl]
  have himports : t.slotAt? importsPath = s.slotAt? importsPath := by
    rw [hslots, if_neg (by decide)]
  refine ⟨t, ht, ⟨⟨hw, hc.trans h.ready.cached, ?_, ⟨_, hreached⟩⟩, fun other => ?_,
    fun fields0 fields' h0 h' => ?_⟩, hreached⟩
  · rw [himports]
    exact h.ready.imports
  · rw [hparsed]
    exact h.parsed other
  · exact h.imports fields0 fields' h0 (himports ▸ h')

/-- The files that are reached from an entry for which none are remembered are found by a
depth-first search and then remembered. -/
theorem reached_of_null (hs : Ahead g src s0 s) (hfuel : fileBound s0 ≤ fileBound s)
    (hreached : s.slotAt? reachedPath = some (.obj fields)) {p : Path}
    (hp : src.files.resolve (Path.parse entry) = .ok p) (hnull : look p.text fields = .null) :
    ∃ r, DepthFirst (g.following src s0 p.text) ∅ [p.text] r ∧
      (∀ e, r = .error e → ∃ t, g.reached src entry s = .error e t ∧ Ahead g src s0 t ∧
        t.slotAt? reachedPath = some (.obj fields)) ∧
      ∀ files, r = .ok files → ∃ t, g.reached src entry s = .ok (files.map .str) t ∧
        Ahead g src s0 t ∧ t.slotAt? reachedPath =
          some (.obj (Assoc.insert p.text (.arr (files.map fun f => .str f.joined)) fields)) := by
  have hr := remembered_apply hs.ready.wellFormed hreached (isKey_of_resolve hn hp)
  rw [hnull] at hr
  obtain ⟨r, hsearch, hout, hend⟩ := reachFrom_eq_search hn hroot h0 hs p.text
    (Nat.add_le_add_right hfuel 1)
  have himports : WritesMove (KeepsSlots (· = reachedPath)) importsPath :=
    KeepsSlots.writesMove (by decide) (by decide)
  have hkeeps := g.moves_reachFrom (KeepsSlots.parse src) himports.merge (fileBound s + 1) [p.text]
    [] s
  have hslot := (hkeeps reachedPath rfl).trans hreached
  have heq : g.reached src entry s = (do
      let order ← g.reachFrom src (fileBound s + 1) [p.text] []
      remember reachedPath p.text (order.map .str)
      return order.map .str : StoreM (List Value)) s := by
    unfold reached
    rw [bind_of_ok (StoreM.lift_of_ok hp s), bind_of_ok hr]
    exact bind_of_ok (show (get : StoreM Store) s = .ok s s from rfl)
  refine ⟨r, hsearch, ?_, ?_⟩
  · rintro e rfl
    refine ⟨_, ?_, hend, hslot⟩
    rw [heq, bind_of_error (eq_error_of_outcome hout)]
  · rintro files rfl
    obtain ⟨t, ht, hahead, hfiles⟩ := hend.remember_files hslot (Files.joined_of_resolve hp) files
    refine ⟨t, ?_, hahead, hfiles⟩
    rw [heq, bind_of_ok (eq_ok_of_outcome hout), bind_of_ok ht]
    rfl

omit hn hroot h0 in
theorem following_eq_ok_iff :
    (∃ children, g.following src s0 entry u = .ok children) ↔
      ∃ found, outcome (g.imports src u s0) = .ok found ∧
        ∀ i ∈ found, i.file = entry ∨ ∃ b, g.isEntered src.files (Path.parse i.file) = .ok b := by
  constructor
  · rintro ⟨children, h⟩
    obtain ⟨found, hfound, h⟩ := bind_ok_iff.mp h
    obtain ⟨htold, -⟩ := entered_eq_ok_iff.mp h
    exact ⟨found, hfound, fun i hi => by simpa using htold i.file (mem_map_of_mem hi)⟩
  · rintro ⟨found, hfound, htold⟩
    refine ⟨_, bind_ok_iff.mpr ⟨found, hfound, entered_eq_ok_iff.mpr ⟨?_, rfl⟩⟩⟩
    intro f hf
    obtain ⟨i, hi, rfl⟩ := mem_map.mp hf
    simpa using htold i hi

omit hn hroot h0 in
/-- The entry is all that is left out of the files that a file leads to. -/
theorem leadsTo_of_following {entry u : Text} (h : g.following src s0 entry u = .ok children) :
    ∃ children', g.leadsTo src s0 u = .ok children' ∧
      children = children'.filter fun v => v ≠ entry := by
  obtain ⟨found, hfound, h⟩ := bind_ok_iff.mp h
  obtain ⟨-, rfl⟩ := entered_eq_ok_iff.mp h
  refine ⟨_, bind_ok_iff.mpr ⟨found, hfound, rfl⟩, ?_⟩
  congr 1
  funext v
  simp

omit hn hroot h0 in
/-- A search that succeeds visits the files that each file leads to. -/
theorem depthFirst_leadsTo {files : List Text}
    (h : DepthFirst (g.following src s0 entry) ∅ [entry] (.ok files)) :
    DepthFirst (g.leadsTo src s0) ∅ [entry] (.ok files) :=
  h.of_next_filter (fun _ _ => leadsTo_of_following) (.inr rfl)

omit hn hroot h0 in
/-- A search succeeds if the imports of every file on its way are given, and it is told of their
files whether they are entered. -/
theorem isOk_search_iff {r : Except Fault (List Text)}
    (h : DepthFirst (g.following src s0 entry) ∅ [entry] r) :
    (∃ files, r = .ok files) ↔ ∀ u, Reaches (g.leadsTo src s0) entry u →
      ∃ found, outcome (g.imports src u s0) = .ok found ∧
        ∀ i ∈ found, i.file = entry ∨ ∃ b, g.isEntered src.files (Path.parse i.file) = .ok b := by
  simp only [← following_eq_ok_iff]
  constructor
  · rintro ⟨files, rfl⟩ u hu
    have hfile := ((depthFirst_leadsTo h).mem_iff u).mpr hu
    exact h.isOk_iff.mp ⟨files, rfl⟩ u ((h.mem_iff u).mp hfile)
  · intro hall
    refine h.isOk_iff.mpr fun u hu => hall u (Relation.ReflTransGen.mono ?_ entry u hu)
    rintro v w ⟨children, hc, hw⟩
    obtain ⟨children', hc', rfl⟩ := leadsTo_of_following hc
    exact ⟨children', hc', (mem_filter.mp hw).1⟩

end

end ImportGraph

end RoutePlugins
