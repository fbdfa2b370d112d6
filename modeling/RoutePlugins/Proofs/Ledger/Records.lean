import RoutePlugins.Proofs.Imports.Memory
import RoutePlugins.Proofs.Store.Alike

/-!
# The records of a ledger

What a report is about is its print: the record without its time. A report is kept unless a kept
record of its kind has that print, so a ledger has one record for each print, with the time of the
first report. A report whose place has a number with too many digits to be written fails.

Records are kept with the halves in their texts put together, and prints are compared before that is
done. So a print that has a pair of halves is never found among the records, and each report of it
is kept.
-/

namespace RoutePlugins

variable {mark : Option Mark} {fs : Files}

/-! ### Prints -/

/-- The rows and the columns of a mark are as parsers count them, in thirty-two bits. -/
def Mark.IsSmall (m : Mark) : Prop :=
  ∀ n ∈ [m.start.row, m.start.column, m.stop.row, m.stop.column], 0 ≤ n ∧ n < 2 ^ 32

namespace Ledger

open Json

/-- The record of a report without its time. -/
def print (plugin file : Text) (mark : Option Mark) (message : Text) : List (Text × Json) :=
  fingerprint (recordFields (.str plugin) file mark message 0)

private def printAt (plugin file message : Text) (line column source loc : Json) :
    List (Text × Json) :=
  [("plugin", .str plugin), ("file", .str file), ("line", line), ("column", column),
    ("source", source), ("message", .str message), ("loc", loc)]

private theorem print_none (plugin file message : Text) :
    print plugin file none message =
      printAt plugin file message (.str unknown) (.str unknown) (.str unknown) (.str unknown) :=
  rfl

private theorem print_some (plugin file : Text) (m : Mark) (message : Text) :
    print plugin file (some m) message =
      printAt plugin file message (.int (m.start.row + 1)) (.int m.start.column)
        (.str ((m.content.map Utf8.decodeReplacing).getD unknown)) m.toJson :=
  rfl

variable {plugin plugin' file' message message' : Text}

private theorem same_printAt {file : Text}
    {line line' column column' source source' loc loc' : Json} :
    (Json.obj (printAt plugin file message line column source loc)).same
        (.obj (printAt plugin' file' message' line' column' source' loc')) =
      (plugin == plugin' && (file == file' && (line.same line' && (column.same column' &&
        (source.same source' && (message == message' && (loc.same loc' && true))))))) :=
  rfl

theorem fingerprint_print (plugin file : Text) (mark : Option Mark) (message : Text) :
    fingerprint (print plugin file mark message) = print plugin file mark message :=
  rfl

/-- The source of a mark is read from bytes, so it has no halves. -/
theorem joined_source (content : Option Bytes) :
    ((content.map Utf8.decodeReplacing).getD unknown).joined =
      (content.map Utf8.decodeReplacing).getD unknown := by
  cases content with
  | none => exact (Text.settled_ofChars _).joined
  | some bytes => exact (Text.settled_ofChars _).joined

theorem joined_print (plugin file : Text) (mark : Option Mark) (message : Text) :
    (Json.obj (print plugin file mark message)).joined =
      .obj (print plugin.joined file.joined mark message.joined) := by
  cases mark with
  | none => rfl
  | some m =>
    rw [print_some, print_some]
    conv_rhs => rw [← joined_source]
    rfl

theorem print_inj {file : Text} :
    print plugin file mark message = print plugin' file' mark message' ↔
      plugin = plugin' ∧ file = file' ∧ message = message' := by
  cases mark with
  | none => simp [print_none, printAt]
  | some m => simp [print_some, printAt]

private theorem same_point (p q : Point) : p.toJson.same q.toJson = true ↔ p.toJson = q.toJson := by
  have hsame : p.toJson.same q.toJson = ((p.row + 1 : Int) == q.row + 1 &&
    ((p.column : Int) == q.column && true)) := rfl
  rw [hsame]
  simp [Point.toJson]

private theorem same_toJson (m m' : Mark) :
    m.toJson.same m'.toJson = true ↔ m.toJson = m'.toJson := by
  have hsame : m.toJson.same m'.toJson =
    (m.start.toJson.same m'.start.toJson && (m.stop.toJson.same m'.stop.toJson && true)) := rfl
  rw [hsame]
  simp [Mark.toJson, same_point]

/-- Prints are compared as they are. -/
theorem same_print {file : Text} {mark' : Option Mark} :
    (Json.obj (print plugin file mark message)).same
        (.obj (print plugin' file' mark' message')) = true ↔
      print plugin file mark message = print plugin' file' mark' message' := by
  cases mark with
  | none =>
    cases mark' with
    | none =>
      rw [print_none, print_none, same_printAt]
      simp [printAt, Json.same, sameScalar]
    | some m' =>
      rw [print_none, print_some, same_printAt]
      simp [printAt, Json.same, sameScalar]
  | some m =>
    cases mark' with
    | none =>
      rw [print_none, print_some, same_printAt]
      simp [printAt, Json.same, sameScalar]
    | some m' =>
      rw [print_some, print_some, same_printAt]
      simp [printAt, Json.same, sameScalar, same_toJson]

end Ledger

/-! ### Reports -/

/-- A report as it is asked for, with the files as they are then. -/
structure ReportCall where
  files : Files
  kind : Value
  message : Value
  file : Text
  mark : Option Mark

/-- A report that was answered: what it was about, its time, and whether it was new. -/
structure Filing where
  kind : ReportKind
  print : List (Text × Json)
  time : Nat
  isNew : Bool

/-- The record of a report as it is kept. -/
def Filing.record (f : Filing) : Json := (Json.obj (Ledger.timed f.print f.time)).joined

/-- Whether a report was kept among the records of a kind. -/
def Filing.isKept (kind : ReportKind) (f : Filing) : Bool := f.isNew && f.kind == kind

namespace Ledger

open Store

/-- The file that a report is about. It has to exist. -/
def target (fs : Files) (file : Text) : Except Fault Path := do
  if !(← fs.isPresent (Path.parse file)) then throw (.reportTarget file)
  fs.resolve (Path.parse file)

/-- The kind and the print of a report, which needs a kind that there is and a file that exists. -/
def notice (l : Ledger) (plugin : Text) (c : ReportCall) :
    Except Fault (ReportKind × List (Text × Json)) := do
  let kind ← ReportKind.ofValue (.reportKind c.kind) c.kind
  let resolved ← target c.files c.file
  return (kind, print plugin resolved.text c.mark (scrub l.root.text c.message.display))

/-- Answer a report. -/
def tell (l : Ledger) (c : ReportCall) : LedgerM Bool :=
  l.reportNamed c.files c.kind c.message c.file c.mark

/-- The state after reports in turn, each answered or not. -/
def tellAll (l : Ledger) (calls : List ReportCall) (s : LedgerState) : LedgerState :=
  calls.foldl (fun s c => endState (l.tell c s)) s

/-- Those of the reports in turn that were answered. -/
def filings (l : Ledger) (plugin : Text) : List ReportCall → LedgerState → List Filing
  | [], _ => []
  | c :: rest, s =>
    match l.notice plugin c, l.tell c s with
    | .ok (kind, print), .ok isNew t =>
      ⟨kind, print, s.clock.tick.1, isNew⟩ :: l.filings plugin rest t
    | _, result => l.filings plugin rest (endState result)

/-- The records of a kind that reports leave, newest first. -/
def kept (kind : ReportKind) (done : List Filing) : List Json :=
  (done.filter (Filing.isKept kind)).reverse.map Filing.record

theorem target_eq_ok {file : Text} {q : Path} :
    target fs file = .ok q ↔
      fs.isPresent (Path.parse file) = .ok true ∧ fs.resolve (Path.parse file) = .ok q := by
  unfold target
  rw [bind_ok_iff]
  constructor
  · rintro ⟨present, hpresent, h⟩
    cases present with
    | false => cases h
    | true => exact ⟨hpresent, h⟩
  · rintro ⟨hpresent, hq⟩
    exact ⟨true, hpresent, hq⟩

theorem notice_eq_ok {l : Ledger} {plugin : Text} {c : ReportCall} {kind : ReportKind}
    {p : List (Text × Json)} (h : l.notice plugin c = .ok (kind, p)) :
    ReportKind.ofValue (.reportKind c.kind) c.kind = .ok kind ∧
      ∃ q, target c.files c.file = .ok q ∧
        p = print plugin q.text c.mark (scrub l.root.text c.message.display) := by
  obtain ⟨kind', hkind, h⟩ := bind_ok_iff.mp h
  obtain ⟨q, hq, h⟩ := bind_ok_iff.mp h
  cases h
  exact ⟨hkind, q, hq, rfl⟩

/-- Keep a record of a kind unless one with its print is kept. -/
def file (kind : ReportKind) (fields : List (Text × Json)) : StoreM Bool := do
  let kept ← StoreM.read (·.get kind.path.toValue)
  let known ← StoreM.lift do isKnown (fingerprint fields) (← kept.elements)
  if known then return false
  StoreM.change (·.unshift kind.path.toValue (.ofJson (.obj fields)))
  return true

theorem record_of_error {l : Ledger} {message : Value} {name : Text} {e : Fault}
    (h : target fs name = .error e) (s : LedgerState) :
    l.record fs message name mark s = .error e s := by
  unfold target at h
  unfold record
  dsimp only
  cases hpresent : fs.isPresent (Path.parse name) with
  | error e' =>
    rw [hpresent] at h
    cases h
    rfl
  | ok present =>
    rw [hpresent] at h
    cases present with
    | false =>
      cases h
      rfl
    | true =>
      have hq : fs.resolve (Path.parse name) = .error e := h
      rw [hq]
      rfl

section

variable {l : Ledger} {plugin : Text} {c : ReportCall}

/-- A report without a kind or a file fails, and changes nothing. -/
theorem tell_of_error {e : Fault} (h : l.notice plugin c = .error e) (s : LedgerState) :
    l.tell c s = .error e s := by
  unfold tell reportNamed
  unfold notice at h
  cases hkind : ReportKind.ofValue (.reportKind c.kind) c.kind with
  | error e' =>
    rw [hkind] at h
    cases h
    rfl
  | ok kind =>
    rw [hkind] at h
    cases hq : target c.files c.file with
    | error e' =>
      rw [hq] at h
      cases h
      rw [bind_of_ok (lift_ok kind s)]
      exact bind_of_error (record_of_error hq s)
    | ok q =>
      rw [hq] at h
      cases h

/-- A report of a kind on a file is given the next time and filed. -/
theorem tell_of_ok (hl : l.plugin = .str plugin) {kind : ReportKind} {p : List (Text × Json)}
    (h : l.notice plugin c = .ok (kind, p)) (s : LedgerState) :
    l.tell c s = LedgerM.onStore (file kind (timed p s.clock.tick.1))
      { s with clock := s.clock.tick.2 } := by
  obtain ⟨hkind, q, htarget, rfl⟩ := notice_eq_ok h
  obtain ⟨hpresent, hq⟩ := target_eq_ok.mp htarget
  unfold tell reportNamed
  rw [hkind, bind_of_ok (lift_ok kind s)]
  unfold report record
  dsimp only
  rw [hpresent, hq, hl]
  rfl

end

/-! ### Records and prints -/

/-- The print of some report. -/
def IsPrint (p : List (Text × Json)) : Prop :=
  ∃ plugin file mark message, p = print plugin file mark message

variable {kind : ReportKind} {p : List (Text × Json)} {l : Ledger} {plugin : Text} {c : ReportCall}
  {filed : List Filing}

theorem isPrint_of_notice (h : l.notice plugin c = .ok (kind, p)) : IsPrint p := by
  obtain ⟨-, q, -, rfl⟩ := notice_eq_ok h
  exact ⟨_, _, _, _, rfl⟩

/-- A print is settled if its texts are, once the file is. -/
theorem settled_of_notice (h : l.notice plugin c = .ok (kind, p)) :
    (Json.obj p).joined = .obj p ↔ plugin.joined = plugin ∧
      (scrub l.root.text c.message.display).joined = scrub l.root.text c.message.display := by
  obtain ⟨-, q, hq, rfl⟩ := notice_eq_ok h
  have hfile : q.text.joined = q.text := Files.joined_of_resolve (target_eq_ok.mp hq).2
  rw [joined_print, hfile, Json.obj.injEq, print_inj]
  simp only [true_and]

theorem joined_joined_of_isPrint (h : IsPrint p) :
    (Json.obj p).joined.joined = (Json.obj p).joined := by
  obtain ⟨plugin, file, mark, message, rfl⟩ := h
  rw [joined_print, joined_print, Text.joined_joined, Text.joined_joined, Text.joined_joined]

/-- A print is known if a record was kept as it. -/
theorem isKnown_records (hp : IsPrint p) (hf : ∀ f ∈ filed, IsPrint f.print) :
    ∃ known, isKnown p (Value.ofJsonItems (filed.map Filing.record)) = .ok known ∧
      (known = true ↔ ∃ f ∈ filed, (Json.obj f.print).joined = .obj p) := by
  induction filed with
  | nil => exact ⟨false, rfl, by simp⟩
  | cons f rest ih =>
    obtain ⟨known, hknown, hiff⟩ := ih fun g hg => hf g (by simp [hg])
    obtain ⟨plugin, file, mark, message, hprint⟩ := hf f (by simp)
    obtain ⟨plugin', file', mark', message', rfl⟩ := hp
    have hjoined : (Json.obj f.print).joined =
        .obj (print plugin.joined file.joined mark message.joined) := by
      rw [hprint, joined_print]
    have hrecord : f.record =
        .obj (timed (print plugin.joined file.joined mark message.joined) f.time) := by
      rw [Filing.record, joined_timed, Json.obj.inj hjoined]
      rfl
    rw [List.map_cons, Value.ofJsonItems, hrecord, isKnown_cons, fingerprint_timed,
      fingerprint_print]
    by_cases hsame : (Json.obj (print plugin.joined file.joined mark message.joined)).same
        (.obj (print plugin' file' mark' message')) = true
    · refine ⟨true, if_pos hsame, ?_⟩
      rw [same_print] at hsame
      exact iff_of_true rfl ⟨f, by simp, hjoined.trans (congrArg Json.obj hsame)⟩
    · refine ⟨known, (if_neg hsame).trans hknown, hiff.trans ?_⟩
      rw [same_print] at hsame
      simp only [List.mem_cons, exists_eq_or_imp]
      rw [hjoined, Json.obj.injEq, or_iff_right hsame]

/-- A print is kept if its numbers can be written. -/
theorem keep_print (hp : IsPrint p) : (Value.ofJson (.obj p)).keep =
    match (Json.obj p).flaw? with
    | some flaw => .error flaw
    | none => .ok (Json.obj p).joined := by
  have hshaped : (Json.obj p).Shaped Value.maxDepth := by
    obtain ⟨plugin, file, mark, message, rfl⟩ := hp
    cases mark with
    | none => simp [print_none, printAt, Json.Within, Json.WithinFields, Value.maxDepth]
    | some m =>
      simp [print_some, printAt, Mark.toJson, Point.toJson, Json.Within, Json.WithinFields,
        Value.maxDepth]
  unfold Value.keep Value.keepWithin
  rw [Value.form_ofJson _ _ hshaped]
  rfl

/-- The numbers in the print of a report can be written if those of its place are small. -/
theorem flaw_of_notice (hn : l.notice plugin c = .ok (kind, p)) (h : ∀ m ∈ c.mark, m.IsSmall) :
    (Json.obj p).flaw? = none := by
  obtain ⟨-, q, -, rfl⟩ := notice_eq_ok hn
  have hfew {n : Int} (hn : 0 ≤ n ∧ n < 2 ^ 32 + 1) : Json.FewDigits n :=
    Nat.le_trans (Nat.toDigits_length 10 n.natAbs 10 (by decide) (by omega)) (by decide)
  cases hm : c.mark with
  | none => rfl
  | some m =>
    obtain ⟨h1, h2, h3, h4⟩ : _ ∧ _ ∧ _ ∧ _ := by simpa [Mark.IsSmall] using h m hm
    simp [print_some, printAt, Mark.toJson, Point.toJson, Json.flaw?, Json.flawFields?,
      hfew (n := m.start.row + 1) (by omega), hfew (n := m.stop.row + 1) (by omega),
      hfew (n := m.start.column) (by omega), hfew (n := m.stop.column) (by omega)]

theorem path_apart (kind : ReportKind) :
    kind.path.Proper ∧ kind.path ≠ parsedPath ∧ parsedPath.isFront kind.path = false :=
  proper_of_mem_firstSlots (path_mem_firstSlots kind)

theorem path_inj {kind' : ReportKind} (h : kind.path = kind'.path) : kind = kind' := by
  cases kind with
  | error =>
    cases kind' with
    | error => rfl
    | warning => exact absurd h (by decide)
  | warning =>
    cases kind' with
    | error => exact absurd h (by decide)
    | warning => rfl

/-- A record is filed if its print is not known, in front of the others of its kind, provided that
its numbers can be written. -/
theorem file_apply {s : Store} (hp : IsPrint p) (hf : ∀ f ∈ filed, IsPrint f.print)
    (hs : s.slotAt? kind.path = some (.arr (filed.map Filing.record))) {now : Nat}
    (hnow : Json.FewDigits now) :
    ((∃ f ∈ filed, (Json.obj f.print).joined = .obj p) ∧
      file kind (timed p now) s = .ok false s) ∨
    (¬ (∃ f ∈ filed, (Json.obj f.print).joined = .obj p) ∧ (Json.obj p).flaw? = none ∧
      ∃ t, file kind (timed p now) s = .ok true t ∧
        ∀ other, t.slotAt? other = if other = kind.path then
          some (.arr ((Json.obj (timed p now)).joined :: filed.map Filing.record)) else
          s.slotAt? other) ∨
    (Json.obj p).flaw? ≠ none ∧ ∃ e, file kind (timed p now) s = .error e s := by
  obtain ⟨hproper, hparsed, hfront⟩ := path_apart kind
  have hprint : fingerprint (timed p now) = p := by
    obtain ⟨plugin, file, mark, message, rfl⟩ := hp
    rw [fingerprint_timed, fingerprint_print]
  obtain ⟨known, hknown, hiff⟩ := isKnown_records hp hf
  have hread : StoreM.read (·.get kind.path.toValue) s =
      .ok (Value.list (Value.ofJsonItems (filed.map Filing.record))) s := by
    rw [StoreM.read_apply, get_of_slotAt hproper hfront hs]
    rfl
  have hlift : StoreM.lift ((Value.list (Value.ofJsonItems (filed.map Filing.record))).elements >>=
      fun items => isKnown (fingerprint (timed p now)) items) s = .ok known s := by
    rw [hprint]
    change Files.lift (isKnown p (Value.ofJsonItems (filed.map Filing.record))) s = _
    rw [hknown]
    rfl
  have hfile : file kind (timed p now) s =
      (if known then pure false else do
        StoreM.change (·.unshift kind.path.toValue (.ofJson (.obj (timed p now))))
        pure true : StoreM Bool) s := by
    unfold file
    rw [bind_of_ok hread, bind_of_ok hlift]
  cases known with
  | true => exact .inl ⟨hiff.mp rfl, hfile⟩
  | false =>
    rw [hfile]
    have hkeep := keep_timed p hnow
    rw [keep_print hp, ← joined_timed] at hkeep
    cases hflaw : (Json.obj p).flaw? with
    | none =>
      rw [hflaw] at hkeep
      have hextended : extended "unshift" (.ofJson (.obj (timed p now))) List.cons kind.path
          (.arr (filed.map Filing.record)) =
          .ok (.arr ((Json.obj (timed p now)).joined :: filed.map Filing.record)) :=
        extended_eq_ok.mpr ⟨_, _, rfl, rfl, hkeep⟩
      obtain ⟨t, ht, hslots⟩ := revise_of_ok hproper hparsed hs hextended
      refine .inr (.inl ⟨fun h => Bool.false_ne_true (hiff.mpr h), rfl, t, ?_, hslots⟩)
      have hchange : StoreM.change (·.unshift kind.path.toValue (.ofJson (.obj (timed p now)))) s =
          .ok () t := by
        rw [StoreM.change_apply, unshift_eq_revise, ht]
      exact bind_of_ok hchange
    | some flaw =>
      rw [hflaw] at hkeep
      refine .inr (.inr ⟨nofun, _, bind_of_error (e := refusal kind.path flaw) ?_⟩)
      rw [StoreM.change_apply, unshift_eq_revise,
        revise_of_error hproper hparsed hs (extended_of_error hkeep)]

/-! ### Reports in turn -/

/-- The records are those that some reports leave, and each of these was kept unless its print was
known from the ones before it. -/
structure Follows (done : List Filing) (s : Store) : Prop where
  tables : ∀ kind : ReportKind, s.slotAt? kind.path = some (.arr (kept kind done))
  prints : ∀ f ∈ done, IsPrint f.print
  flawless : ∀ f ∈ done, (Json.obj f.print).flaw? = none
  covered : ∀ f ∈ done, ∃ g ∈ done, g.isKept f.kind = true ∧
    (Json.obj g.print).joined = (Json.obj f.print).joined
  first : ∀ before f, before ++ [f] <+: done → (f.isNew = true ↔
    ∀ g ∈ before, g.kind = f.kind → (Json.obj g.print).joined ≠ .obj f.print)

theorem kept_append (kind : ReportKind) (done : List Filing) (f : Filing) :
    kept kind (done ++ [f]) =
      if f.isKept kind then f.record :: kept kind done else kept kind done := by
  unfold kept
  cases hk : f.isKept kind with
  | true => simp [List.filter_append, hk]
  | false => simp [List.filter_append, hk]

theorem isKept_iff {f : Filing} : f.isKept kind = true ↔ f.isNew = true ∧ f.kind = kind := by
  simp [Filing.isKept]

namespace Follows

variable {done : List Filing} {s t : Store} {f : Filing}

/-- A print is among the kept ones if it is among the reported ones. -/
theorem exists_kept_iff (h : Follows done s) (kind : ReportKind) (p : List (Text × Json)) :
    (∃ g ∈ (done.filter (Filing.isKept kind)).reverse, (Json.obj g.print).joined = .obj p) ↔
      ∃ g ∈ done, g.kind = kind ∧ (Json.obj g.print).joined = .obj p := by
  constructor
  · rintro ⟨g, hg, hp⟩
    obtain ⟨hm, hk⟩ := List.mem_filter.mp (List.mem_reverse.mp hg)
    exact ⟨g, hm, (isKept_iff.mp hk).2, hp⟩
  · rintro ⟨f, hf, rfl, hp⟩
    obtain ⟨g, hg, hk, hprint⟩ := h.covered f hf
    exact ⟨g, List.mem_reverse.mpr (List.mem_filter.mpr ⟨hg, hk⟩), hprint.trans hp⟩

/-- What one more report does to the reports and the tables. -/
theorem snoc (h : Follows done s) (hp : IsPrint f.print) (hflaw : (Json.obj f.print).flaw? = none)
    (hnew : f.isNew = true ↔ ∀ g ∈ done, g.kind = f.kind → (Json.obj g.print).joined ≠ .obj f.print)
    (htables : ∀ kind : ReportKind, t.slotAt? kind.path =
      some (.arr (if f.isKept kind then f.record :: kept kind done else kept kind done))) :
    Follows (done ++ [f]) t := by
  refine ⟨fun kind => by rw [htables, kept_append], forall_mem_concat.mpr ⟨h.prints, hp⟩,
    forall_mem_concat.mpr ⟨h.flawless, hflaw⟩, forall_mem_concat.mpr ⟨fun g hg => ?_, ?_⟩,
    fun before g hpre => ?_⟩
  · obtain ⟨g', hg', hkept⟩ := h.covered g hg
    exact ⟨g', by simp [hg'], hkept⟩
  · by_cases hf : f.isNew = true
    · exact ⟨f, by simp, isKept_iff.mpr ⟨hf, rfl⟩, rfl⟩
    · -- A report before it was kept as its print, or has one before it that was.
      obtain ⟨g, hg, hkind, hprint⟩ : ∃ g ∈ done, g.kind = f.kind ∧
          (Json.obj g.print).joined = .obj f.print := by
        by_contra hno
        exact hf (hnew.mpr fun g hm hk hj => hno ⟨g, hm, hk, hj⟩)
      obtain ⟨first, hfirst, hkept, hsame⟩ := h.covered g hg
      refine ⟨first, by simp [hfirst], hkind ▸ hkept, ?_⟩
      rw [hsame, ← hprint, joined_joined_of_isPrint (h.prints g hg)]
  · rcases List.prefix_concat_iff.mp hpre with heq | hpre
    · obtain ⟨rfl, hg⟩ := List.append_inj' heq rfl
      cases hg
      exact hnew
    · exact h.first before g hpre

/-- A report is answered with whether its print is new for its kind. If a number in it cannot be
written, it fails, and the store stays as it is. -/
theorem tell {l : Ledger} {plugin : Text} (hl : l.plugin = .str plugin) {s : LedgerState}
    (h : Follows done s.store) {c : ReportCall} {kind : ReportKind} {p : List (Text × Json)}
    (hn : l.notice plugin c = .ok (kind, p)) :
    ((Json.obj p).flaw? = none ∧ ∃ isNew t, l.tell c s = .ok isNew t ∧
      (isNew = true ↔ ∀ g ∈ done, g.kind = kind → (Json.obj g.print).joined ≠ .obj p) ∧
      Follows (done ++ [⟨kind, p, s.clock.tick.1, isNew⟩]) t.store) ∨
    (Json.obj p).flaw? ≠ none ∧ ∃ e t, l.tell c s = .error e t ∧ t.store = s.store := by
  have hp := isPrint_of_notice hn
  have hfiled : ∀ f ∈ (done.filter (Filing.isKept kind)).reverse, IsPrint f.print :=
    fun f hf => h.prints f (List.mem_filter.mp (List.mem_reverse.mp hf)).1
  rw [tell_of_ok hl hn s]
  obtain ⟨hknown, ha⟩ | ⟨hknown, hflaw, t, ha, hslots⟩ | ⟨hflaw, e, ha⟩ :=
    file_apply hp hfiled (h.tables kind) (fewDigits_tick s.clock)
  · rw [h.exists_kept_iff] at hknown
    have hflaw : (Json.obj p).flaw? = none := by
      obtain ⟨g, hg, -, hsame⟩ := hknown
      rw [← hsame]
      exact (Json.kept_joined (h.flawless g hg)).1
    have hnew : false = true ↔
        ∀ g ∈ done, g.kind = kind → (Json.obj g.print).joined ≠ .obj p := by
      obtain ⟨g, hg, hkind, hsame⟩ := hknown
      exact iff_of_false Bool.false_ne_true fun hno => hno g hg hkind hsame
    refine .inl ⟨hflaw, false, ⟨s.store, s.clock.tick.2⟩, ?_, hnew,
      h.snoc hp hflaw hnew fun k => h.tables k⟩
    rw [LedgerM.onStore, ha]
  · rw [h.exists_kept_iff] at hknown
    have hnew : true = true ↔
        ∀ g ∈ done, g.kind = kind → (Json.obj g.print).joined ≠ .obj p :=
      iff_of_true rfl fun g hg hkind hsame => hknown ⟨g, hg, hkind, hsame⟩
    refine .inl ⟨hflaw, true, ⟨t, s.clock.tick.2⟩, ?_, hnew, h.snoc hp hflaw hnew fun k => ?_⟩
    · rw [LedgerM.onStore, ha]
    · rw [hslots, h.tables k]
      by_cases hk : k = kind
      · subst hk
        have hkept : Filing.isKept k ⟨k, p, s.clock.tick.1, true⟩ = true :=
          isKept_iff.mpr ⟨rfl, rfl⟩
        rw [if_pos rfl, if_pos hkept]
        rfl
      · rw [if_neg fun hpath => hk (path_inj hpath),
          if_neg fun hkept => hk (isKept_iff.mp hkept).2.symm]
  · refine .inr ⟨hflaw, e, ⟨s.store, s.clock.tick.2⟩, ?_, rfl⟩
    rw [LedgerM.onStore, ha]

theorem tellAll {l : Ledger} {plugin : Text} (hl : l.plugin = .str plugin)
    {s : LedgerState} (h : Follows done s.store) (calls : List ReportCall) :
    Follows (done ++ l.filings plugin calls s) (l.tellAll calls s).store := by
  induction calls generalizing done s with
  | nil => rwa [filings, List.append_nil]
  | cons c rest ih =>
    change Follows _ (l.tellAll rest (endState (l.tell c s))).store
    rw [filings]
    cases hn : l.notice plugin c with
    | error e =>
      rw [tell_of_error hn s]
      exact ih h
    | ok r =>
      obtain ⟨kind, p⟩ := r
      obtain ⟨-, isNew, t, ht, -, hnext⟩ | ⟨-, e, t, ht, hstore⟩ := h.tell hl hn
      · rw [ht]
        dsimp only
        rw [← List.singleton_append, ← List.append_assoc]
        exact ih hnext
      · rw [ht]
        exact ih (hstore ▸ h : Follows done t.store)

/-- The records of a kind are read as they were kept. -/
theorem records_eq (h : Follows done s) (kind : ReportKind) :
    records kind s = .ok (.ofJson (.arr (kept kind done))) :=
  get_of_slotAt (path_apart kind).1 (path_apart kind).2.2 (h.tables kind)

/-- No two kept reports of a kind have one print, if their prints are settled. -/
theorem nodup_prints (h : Follows done s) {kind : ReportKind}
    (hs : ∀ f ∈ done, f.kind = kind → (Json.obj f.print).joined = .obj f.print) :
    ((done.filter (Filing.isKept kind)).map Filing.print).Nodup := by
  suffices hpre : ∀ front, front <+: done →
      ((front.filter (Filing.isKept kind)).map Filing.print).Nodup from
    hpre done (List.prefix_refl _)
  intro front hfront
  induction front using List.reverseRecOn with
  | nil => exact List.nodup_nil
  | append_singleton before f ih =>
    have hbefore := ih ((List.prefix_append _ _).trans hfront)
    rw [List.filter_append, List.map_append]
    cases hk : f.isKept kind with
    | false => simpa [hk] using hbefore
    | true =>
      obtain ⟨hnew, hkind⟩ := isKept_iff.mp hk
      have hfirst := (h.first before f hfront).mp hnew
      simp only [List.filter_cons, hk, if_true, List.filter_nil, List.map_cons, List.map_nil]
      refine List.nodup_append.mpr ⟨hbefore, List.nodup_singleton _, fun p hp q hq => ?_⟩
      obtain ⟨g, hg, rfl⟩ := List.mem_map.mp hp
      cases List.mem_singleton.mp hq
      obtain ⟨hm, hkept⟩ := List.mem_filter.mp hg
      have hgkind := (isKept_iff.mp hkept).2
      have hdone : g ∈ done := hfront.subset (by simp [hm])
      intro hsame
      refine hfirst g hm (hgkind.trans hkind.symm) ?_
      rw [hs g hdone hgkind, hsame]

end Follows

/-- A ledger whose tables are not registered yet starts without records. -/
theorem follows_attach {plugin : Value} {root : Path} {l : Ledger} {s t : Store}
    (h : Ledger.attach fs plugin root s = .ok l t)
    (hnew : ∀ kind : ReportKind, kind.path ∉ s.registered) : l.plugin = plugin ∧ Follows [] t := by
  obtain ⟨q, -, h⟩ := lift_bind_eq_ok.mp h
  obtain ⟨⟨⟩, u, h1, h⟩ := bind_eq_ok.mp h
  obtain ⟨⟨⟩, t', h2, h⟩ := bind_eq_ok.mp h
  cases h
  have hempty : (Value.list []).keep = .ok (.arr []) := rfl
  obtain ⟨-, -, hpaths, hslots1, -⟩ :=
    ImportGraph.ensureRegistered_new (by decide) hempty (hnew .error) h1
  have hwarning : ReportKind.warning.path ∉ u.registered := by
    rw [hpaths]
    simpa [hnew .warning] using (by decide : ReportKind.warning.path ≠ ReportKind.error.path)
  obtain ⟨-, -, -, hslots2, -⟩ := ImportGraph.ensureRegistered_new (by decide) hempty hwarning h2
  refine ⟨rfl, fun kind => ?_, by simp, by simp, by simp, by simp⟩
  cases kind with
  | error =>
    rw [hslots2, if_neg (by decide), hslots1, if_pos rfl]
    rfl
  | warning =>
    rw [hslots2, if_pos rfl]
    rfl

/-- A ledger that was attached to a store without tables, and was given any reports in turn: the
records of each kind are those of the reports of that kind that were new, newest first, each with
the time of its report. If the prints of the reports of a kind have no pairs of halves, then no two
records have one print, each report has a record with its print, and a report was new exactly if its
print was not reported before. A next report that has a kind and a file, and no number with too many
digits, is answered with whether no report of its kind was kept as its print, and is put in front if
it is; any other fails. Nothing else changes. A print has no pairs of halves if the name of the
plugin and the message without the root have none, and no such number if its place is one that
parsers give. -/
theorem one_record_per_print {fs : Files} {plugin : Text} {root : Path} {l : Ledger} {s t : Store}
    (hattach : Ledger.attach fs (.str plugin) root s = .ok l t)
    (hnew : ∀ kind : ReportKind, kind.path ∉ s.registered) (clock : Clock)
    (calls : List ReportCall) :
    let u := l.tellAll calls ⟨t, clock⟩
    let done := l.filings plugin calls ⟨t, clock⟩
    (∀ kind, records kind u.store = .ok (.ofJson (.arr (kept kind done)))) ∧
    (∀ kind, (∀ f ∈ done, f.kind = kind → (Json.obj f.print).joined = .obj f.print) →
      ((done.filter (Filing.isKept kind)).map Filing.print).Nodup ∧
      (∀ f ∈ done, f.kind = kind → ∃ g ∈ done, g.isKept kind = true ∧ g.print = f.print) ∧
      ∀ before f, before ++ [f] <+: done → f.kind = kind →
        (f.isNew = true ↔ ∀ g ∈ before, g.kind = kind → g.print ≠ f.print)) ∧
    ∀ c,
      (∀ e, l.notice plugin c = .error e → l.tell c u = .error e u) ∧
      ∀ kind p, l.notice plugin c = .ok (kind, p) →
        ((Json.obj p).joined = .obj p ↔ plugin.joined = plugin ∧
          (scrub l.root.text c.message.display).joined = scrub l.root.text c.message.display) ∧
        ((∀ m ∈ c.mark, m.IsSmall) → (Json.obj p).flaw? = none) ∧
        ((Json.obj p).flaw? = none → ∃ isNew v, l.tell c u = .ok isNew v ∧
          (isNew = true ↔ ∀ g ∈ done, g.kind = kind → (Json.obj g.print).joined ≠ .obj p) ∧
          ∀ k, records k v.store = .ok (.ofJson (.arr (if isNew = true ∧ kind = k then
            (Json.obj (timed p u.clock.tick.1)).joined :: kept k done else kept k done)))) ∧
        ((Json.obj p).flaw? ≠ none → ∃ e v, l.tell c u = .error e v ∧ v.store = u.store) := by
  intro u done
  obtain ⟨hl, hstart⟩ := follows_attach hattach hnew
  have h : Follows done u.store := hstart.tellAll (s := ⟨t, clock⟩) hl calls
  refine ⟨h.records_eq, fun kind hs => ⟨h.nodup_prints hs, fun f hf hkind => ?_,
    fun before f hpre hkind => ?_⟩, fun c => ⟨fun e he => tell_of_error he u, fun kind p hn => ?_⟩⟩
  · subst hkind
    obtain ⟨g, hg, hkept, hsame⟩ := h.covered f hf
    rw [hs g hg (isKept_iff.mp hkept).2, hs f hf rfl, Json.obj.injEq] at hsame
    exact ⟨g, hg, hkept, hsame⟩
  · subst hkind
    rw [h.first before f hpre]
    refine forall₂_congr fun g hg => imp_congr_right fun hk => ?_
    rw [hs g (hpre.subset (by simp [hg])) hk, ne_eq, Json.obj.injEq]
  · refine ⟨settled_of_notice hn, flaw_of_notice hn, ?_⟩
    obtain ⟨hflaw, isNew, v, hv, hiff, hnext⟩ | ⟨hflaw, hfails⟩ := h.tell hl hn
    · refine ⟨fun _ => ⟨isNew, v, hv, hiff, fun k => ?_⟩, fun hno => absurd hflaw hno⟩
      rw [hnext.records_eq, kept_append]
      simp only [isKept_iff]
      rfl
    · exact ⟨fun hno => absurd hno hflaw, fun _ => hfails⟩

namespace Sample

/-- A project with one file. -/
def files : Files := ⟨[(["proj"], .directory), (["proj", "a.ts"], .file [])], ["proj"]⟩

/-- The store of a plugin without tables. -/
def bare : Store := .active "p" ⟨some [], []⟩

/-- A ledger over it. -/
def attached : EStateM.Result Fault Store Ledger :=
  Ledger.attach files (.str "p") ⟨.root, ["proj"]⟩ bare

/-- A clock that shows one second more each time. -/
def clock : Clock := ⟨fun n => 1000 * (n + 1).toUInt64, 0⟩

def call (kind message file : Text) : ReportCall := ⟨files, .str kind, .str message, file, none⟩

/-- Reports of both kinds, one of them a second time, and two that fail: there is no such file, and
no such kind. -/
def mixed : List ReportCall :=
  [call "error" "m" "/proj/a.ts", call "warning" "m" "/proj/a.ts",
    call "error" "m" "/proj/../proj/a.ts", call "error" "m" "/proj/b.ts",
    call "note" "m" "/proj/a.ts", call "error" "/proj/n" "/proj/a.ts"]

/-- A message in which the root stands between the two halves of a pair. -/
def parted : Text := ⟨[.ofCode 0xd83d]⟩ ++ "/proj/" ++ ⟨[.ofCode 0xde00]⟩

/-- What is seen of the reports in turn that were answered. -/
def answers (calls : List ReportCall) (l : Ledger) (t : Store) : List (ReportKind × Nat × Bool) :=
  (l.filings "p" calls ⟨t, clock⟩).map fun f => (f.kind, f.time, f.isNew)

theorem path_notMem_bare (kind : ReportKind) : kind.path ∉ bare.registered := by
  cases kind with
  | error => decide
  | warning => decide

end Sample

open Sample

/-- One error is reported twice and kept once, among reports that fail. -/
theorem one_record_per_print_mixed :
    ∃ l t, attached = .ok l t ∧ (∀ kind : ReportKind, kind.path ∉ bare.registered) ∧
      answers mixed l t = [(.error, 1000, true), (.warning, 2000, true), (.error, 3000, false),
        (.error, 4000, true)] ∧
      ∀ kind, records kind (l.tellAll mixed ⟨t, clock⟩).store =
        .ok (.ofJson (.arr (kept kind (l.filings "p" mixed ⟨t, clock⟩)))) := by
  have hview : observe (answers mixed) attached = some [(.error, 1000, true),
      (.warning, 2000, true), (.error, 3000, false), (.error, 4000, true)] := by decide +kernel
  obtain ⟨l, t, hattach, hanswers⟩ := ok_of_observe hview
  exact ⟨l, t, hattach, path_notMem_bare, hanswers,
    (one_record_per_print hattach path_notMem_bare clock mixed).1⟩

/-- A report whose message comes to have a pair of halves is kept each time it is made. -/
theorem parted_report_kept_twice :
    ∃ l t, attached = .ok l t ∧ ∃ f g,
      l.filings "p" [call "error" parted "/proj/a.ts", call "error" parted "/proj/a.ts"]
        ⟨t, clock⟩ = [f, g] ∧
      f.kind = g.kind ∧ f.print = g.print ∧ f.isNew = true ∧ g.isNew = true := by
  have hview : observe
      (answers [call "error" parted "/proj/a.ts", call "error" parted "/proj/a.ts"]) attached =
      some [(.error, 1000, true), (.error, 2000, true)] := by decide +kernel
  obtain ⟨l, t, hattach, hanswers⟩ := ok_of_observe hview
  refine ⟨l, t, hattach, ?_⟩
  obtain ⟨hl, hstart⟩ := follows_attach hattach path_notMem_bare
  have hsmall : ∀ m ∈ (call "error" parted "/proj/a.ts").mark, m.IsSmall := nofun
  generalize call "error" parted "/proj/a.ts" = c at hanswers hsmall ⊢
  cases hn : l.notice "p" c with
  | error e =>
    simp [answers, filings, hn, tell_of_error hn] at hanswers
  | ok r =>
    obtain ⟨kind, p⟩ := r
    have hflaw := flaw_of_notice hn hsmall
    obtain ⟨-, isNew, u, hu, -, hnext⟩ :=
      (hstart.tell (s := ⟨t, clock⟩) hl hn).resolve_right fun h => h.1 hflaw
    obtain ⟨-, isNew', v, hv, -, -⟩ := (hnext.tell hl hn).resolve_right fun h => h.1 hflaw
    have hfilings : l.filings "p" [c, c] ⟨t, clock⟩ =
        [⟨kind, p, clock.tick.1, isNew⟩, ⟨kind, p, u.clock.tick.1, isNew'⟩] := by
      simp only [filings, hn, hu, hv]
    rw [answers, hfilings] at hanswers
    simp only [List.map_cons, List.map_nil, List.cons.injEq, Prod.mk.injEq] at hanswers
    exact ⟨_, _, hfilings, rfl, rfl, hanswers.1.2.2, hanswers.2.1.2.2⟩

end Ledger

end RoutePlugins
