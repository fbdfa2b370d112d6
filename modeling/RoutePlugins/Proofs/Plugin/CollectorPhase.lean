import RoutePlugins.Proofs.Imports.Transparency
import RoutePlugins.Proofs.Plugin.CallReports
import RoutePlugins.Proofs.Plugin.LastingTables
import RoutePlugins.Proofs.Plugin.SessionTables

/-!
# The phase that collects calls

For each route and each of its files, the phase asks for the imports of the file, and for its tree
if they give the function a name there. The answers come from what the session remembers, and they
are those that a session would give that remembers nothing. So the sites of the calls can be listed
from the trees and the imports alone. A run of the phase collects one entry for each site, in this
order, and reports each argument of a site that is not allowed.
-/

namespace RoutePlugins

open List

variable {file : Text} {f : ParsedFile} {p : Path}

/-! ### Programs -/

namespace Phase

variable {α β : Type}

theorem run_bind (p : Phase α) (f : α → Phase β) (s : PhaseState) :
    (p >>= f).run s = (p.run >>= fun a => (f a).run) s := by
  induction p generalizing s with
  | done a => rfl
  | fail e => rfl
  | ask q next ih =>
    have hask : (ask q next >>= f).run s = (next (outcome (PluginSession.answer q s)) >>= f).run
        (endState (PluginSession.answer q s)) := run_ask q _ s
    rw [hask, ih]
    cases hr : (next (outcome (PluginSession.answer q s))).run
        (endState (PluginSession.answer q s)) with
    | ok a t => rw [bind_of_ok hr, bind_of_ok ((run_ask q next s).trans hr)]
    | error e t => rw [bind_of_error hr, bind_of_error ((run_ask q next s).trans hr)]

/-- Programs one after the other end if each of them does. -/
theorem run_bind_eq_ok {p : Phase α} {f : α → Phase β} {s t : PhaseState} {b : β} :
    (p >>= f).run s = .ok b t ↔ ∃ a u, p.run s = .ok a u ∧ (f a).run u = .ok b t := by
  rw [run_bind, bind_eq_ok]

theorem run_call (q : Request) (s : PhaseState) : (call q).run s = PluginSession.answer q s := by
  rw [call, run_ask]
  cases PluginSession.answer q s with
  | ok r t => rfl
  | error e t => rfl

theorem run_ofExcept_eq_ok {x : Except Fault α} {a : α} {s t : PhaseState} :
    (ofExcept x).run s = .ok a t ↔ x = .ok a ∧ t = s := by
  cases x with
  | error e =>
    constructor
    · rintro ⟨⟩
    · rintro ⟨⟨⟩, -⟩
  | ok b =>
    constructor
    · rintro ⟨⟩
      exact ⟨rfl, rfl⟩
    · rintro ⟨⟨⟩, rfl⟩
      rfl

end Phase

namespace PhaseM

variable {α : Type} {s t : PhaseState} {a : α}

theorem onStore_eq_ok {m : StoreM α} (h : onStore m s = .ok a t) :
    m s.session.store = .ok a t.session.store := by
  unfold onStore at h
  split at h
  · next he =>
    cases h
    exact he
  · cases h

theorem onLedger_eq_ok {m : LedgerM α} (h : onLedger m s = .ok a t) :
    ∃ clock, m ⟨s.session.store, s.world.clock⟩ = .ok a ⟨t.session.store, clock⟩ := by
  unfold onLedger at h
  dsimp only at h
  split at h
  · next u he =>
    cases h
    exact ⟨u.clock, he⟩
  · cases h

end PhaseM

/-! ### What is remembered -/

namespace ImportGraph

open Store

/-- What a graph remembers, and what was parsed, stays as it is. -/
structure KeepsMemory (s t : Store) : Prop where
  wellFormed : s.WellFormed → t.WellFormed
  cached : t.isCached = s.isCached
  parsed : ∀ key, t.parsed? key = s.parsed? key
  slots : KeepsSlots (· ∈ [importsPath, reachedPath]) s t

instance : IsPreorder Store KeepsMemory where
  refl s := ⟨id, rfl, fun _ => rfl, refl_of (KeepsSlots _) s⟩
  trans _ _ _ h h' := ⟨h'.wellFormed ∘ h.wellFormed, h'.cached.trans h.cached,
    fun key => (h'.parsed key).trans (h.parsed key), trans_of (KeepsSlots _) h.slots h'.slots⟩

theorem KeepsMemory.writesMove {key : AccessPath} (hk : key.Proper)
    (hn : key ∉ [importsPath, reachedPath]) : WritesMove KeepsMemory key :=
  .of_written fun hw =>
    have ⟨_, _, hc, _⟩ := hw
    ⟨fun h => h.write hw, hw.isCached, hc.parsed, hc.keepsSlots hk hn⟩

variable {g : ImportGraph} {src : Sources} {s0 s t : Store}

theorem Ahead.keepsMemory (h : Ahead g src s0 s) (hm : KeepsMemory s t) : Ahead g src s0 t where
  ready := by
    refine ⟨hm.wellFormed h.ready.wellFormed, hm.cached.trans h.ready.cached, ?_, ?_⟩
    · rw [hm.slots importsPath (by simp)]
      exact h.ready.imports
    · rw [hm.slots reachedPath (by simp)]
      exact h.ready.reached
  parsed key := by
    rw [hm.parsed key]
    exact h.parsed key
  imports fields0 fields hs0 hs := by
    rw [hm.slots importsPath (by simp)] at hs
    exact h.imports fields0 fields hs0 hs

/-- The imports of a file as they are found in it, with nothing remembered. -/
def freshImports (g : ImportGraph) (src : Sources) (file : Text) :
    Except Fault (List ResolvedImport) := do
  let p ← src.files.resolve (Path.parse file)
  let parsed ← src.files.resolve p >>= src.parseFile
  ResolvedImport.all src.files g.root g.aliases parsed

/-- A graph that remembers nothing gives the imports as they are found. -/
theorem Blank.outcome_imports (hn : src.files.StartsProper) (hroot : Imports.IsRoot g.root)
    (hs : Blank s) (hsound : s.Sound src) (file : Text) :
    outcome (g.imports src file s) = g.freshImports src file := by
  unfold freshImports
  cases hp : src.files.resolve (Path.parse file) with
  | error e =>
    rw [imports_of_error hp]
    rfl
  | ok p =>
    have hfind := ((imports_of_ahead hn hroot hs.ready hs.imports hp).1 rfl s (.refl hs.ready)).1
    rw [hfind, findImports, outcome_parse_of_sound hn hs.ready hsound,
      Files.parse_text_of_resolve hn hp]
    rfl

end ImportGraph

/-! ### Reports that were answered -/

namespace Ledger.Follows

variable {done : List Filing}

theorem of_slots {s t : Store} (h : Follows done s)
    (hslots : ∀ kind : ReportKind, t.slotAt? kind.path = s.slotAt? kind.path) : Follows done t :=
  ⟨fun kind => (hslots kind).trans (h.tables kind), h.prints, h.flawless, h.covered,
    h.first⟩

/-- An error that was reported is about a file, and it is added to the reports. -/
theorem report_error {l : Ledger} {plugin : Text} (hl : l.plugin = .str plugin)
    {s t : LedgerState} (h : Follows done s.store) {fs : Files} {message : Value}
    {mark : Option Mark} {isNew : Bool}
    (hr : l.report fs .error message file mark s = .ok isNew t) :
    ∃ q f, target fs file = .ok q ∧ f.kind = .error ∧
      f.print = print plugin q.text mark (scrub l.root.text message.display) ∧
      Follows (done ++ [f]) t.store := by
  have htell : l.tell ⟨fs, .str "error", message, file, mark⟩ s = .ok isNew t := hr
  cases hn : l.notice plugin ⟨fs, .str "error", message, file, mark⟩ with
  | error e =>
    rw [tell_of_error hn] at htell
    cases htell
  | ok r =>
    obtain ⟨kind, p⟩ := r
    obtain ⟨-, isNew', t', ht', -, hnext⟩ | ⟨-, e, t', ht', -⟩ := h.tell hl hn
    · cases ht'.symm.trans htell
      obtain ⟨hkind, q, hq, hp⟩ := notice_eq_ok hn
      cases hkind
      exact ⟨q, _, hq, rfl, hp, hnext⟩
    · cases ht'.symm.trans htell

end Ledger.Follows

/-! ### Trees and keys -/

/-- Named nodes are named after the rules of a grammar, as the parsers of grammars do it. -/
def Parser.NamesKinds (parser : Parser) : Prop :=
  ∀ grammar source, ∀ n ∈ (parser grammar source).preorder, n.named = true → n.kind.IsRuleName

theorem Sources.parseFile_eq_ok {src : Sources} (h : src.parseFile p = .ok f) :
    ∃ source, f = src.parser.parse p.text source := by
  unfold parseFile at h
  obtain ⟨present, -, h⟩ := bind_ok_iff.mp h
  cases present with
  | false => cases h
  | true =>
    obtain ⟨source, -, h⟩ := bind_ok_iff.mp h
    cases h
    exact ⟨source, rfl⟩

theorem Value.sameKey_str {t : Text} {v : Value} :
    Value.sameKey (.str t) v = true ↔ v = .str t := by
  cases v with
  | str s =>
    have hsame : Value.sameKey (.str t) (.str s) = (t == s) := rfl
    rw [hsame, beq_iff_eq, Value.str.injEq, eq_comm]
  | list items =>
    cases hj : Value.toJsonItems? items with
    | none => simp [Value.sameKey, Value.toJson?, hj]
    | some js => simp [Value.sameKey, Value.toJson?, hj, Json.same, Json.sameScalar]
  | map entries =>
    cases hj : Value.toJsonFields? entries with
    | none => simp [Value.sameKey, Value.toJson?, hj]
    | some js => simp [Value.sameKey, Value.toJson?, hj, Json.same, Json.sameScalar]
  | _ => simp [Value.sameKey, Value.toJson?, Json.same, Json.sameScalar]

namespace CallCollector

/-! ### The sites of calls -/

/-- What is asked for: the calls of an export of a file, with arguments of some kinds alone. -/
structure Query where
  path : Text
  /-- The file that the path names. -/
  target : Text
  exportName : Value
  allowed : List Text

/-- How reports name the function. -/
def Query.label (q : Query) : Text := q.path ++ "[" ++ q.exportName.display ++ "]"

/-- A configuration asks for a query: it names a path, and may name an export and the kinds. -/
structure Query.Asked (fs : Files) (project : Project) (config : List (Value × Value))
    (q : Query) : Prop where
  path : Value.entry? "path" config = some (.str q.path)
  nonempty : q.path.isEmpty = false
  target : PluginSession.sourceFile fs project q.path = .ok q.target
  exportName : q.exportName = match Value.entry? "exportIdentifier" config with
    | some v => if v.truthy then v else .str "default"
    | none => .str "default"
  allowed : allowedKinds ((Value.entry? "allowedArgTypes" config).getD .null) = .ok q.allowed

/-- What there is to know of a file: its tree and its imports. -/
structure Facts where
  parsed : ParsedFile
  imports : List ResolvedImport

/-- The facts of a file over some sources: the parser gives the tree, and the imports are those that
are found in the file. -/
structure Facts.Hold (src : Sources) (g : ImportGraph) (file : Text) (facts : Facts) : Prop where
  parsed : src.files.resolve (Path.parse file) >>= src.parseFile = .ok facts.parsed
  imports : g.freshImports src file = .ok facts.imports

/-- The facts of a file over some sources, as far as there are any. -/
def factsOf (src : Sources) (g : ImportGraph) (file : Text) : Facts :=
  ⟨(src.files.resolve (Path.parse file) >>= src.parseFile).toOption.getD ⟨file, [], default⟩,
    (g.freshImports src file).toOption.getD []⟩

/-- Whether an import is of an export of a file. -/
def isImportOf (target : Text) (exportName : Value) (i : ResolvedImport) : Bool :=
  i.file == target && match exportName with
    | .str name => i.exportName == name
    | _ => false

/-- The name that a file has for an export of another file: the local name in the first import of
it, if that is not empty. -/
def Facts.nameOf? (facts : Facts) (target : Text) (exportName : Value) : Option Text :=
  match facts.imports.find? (isImportOf target exportName) with
  | some ⟨_, _, .str name⟩ => if name.isEmpty then none else some name
  | _ => none

/-- Whether a node is a call of a function by a plain name. -/
def isCallOf (f : ParsedFile) (name : Text) (n : Node) : Bool :=
  n.kind == "call_expression" &&
    (n.childByField? "function").any fun callee : Node =>
      callee.kind == "identifier" && f.text callee == name

/-- The calls of an export of another file in a file, in the order of its tree. -/
def Facts.calls (facts : Facts) (target : Text) (exportName : Value) : List Node :=
  match facts.nameOf? target exportName with
  | some name => facts.parsed.root.preorder.filter (isCallOf facts.parsed name)
  | none => []

/-- A call in a file of a route. -/
structure Site where
  routeName : Text
  parsed : ParsedFile
  call : Node

/-- The sites of the calls of an export in some files of a route: file by file, call by call. -/
def sitesIn (facts : Text → Facts) (target : Text) (exportName : Value) (routeName : Text)
    (files : List Text) : List Site :=
  files.flatMap fun file =>
    ((facts file).calls target exportName).map fun call => ⟨routeName, (facts file).parsed, call⟩

/-- The sites of the calls of an export, route by route. -/
def sites (facts : Text → Facts) (target : Text) (exportName : Value) (routes : List Route) :
    List Site :=
  routes.flatMap fun route => sitesIn facts target exportName route.name route.files

/-- What is collected for a site: the texts of its arguments that are literals, and the route. -/
def Site.entry (site : Site) : Json :=
  .obj [("args", .arr (((argumentsOf site.call).filterMap site.parsed.stringValue?).map .str)),
    ("routeName", .str site.routeName.joined)]

/-- The file that a report on a parsed file names. -/
def reportedAs (fs : Files) (f : ParsedFile) : Text :=
  match fs.resolve (Path.parse f.path) with
  | .ok p => p.text
  | .error _ => f.path

/-- The offence of an argument in a call. -/
def offenceOf (fs : Files) (f : ParsedFile) (call arg : Node) : Offence :=
  ⟨reportedAs fs f, pointAt f.source call.start, pointAt f.source call.stop, f.text call, arg.kind⟩

/-- The offences in a call, for arguments of some kinds alone. -/
def offencesIn (fs : Files) (allowed : List Text) (f : ParsedFile) (call : Node) : List Offence :=
  ((argumentsOf call).filter fun arg => !allowed.contains arg.kind).map (offenceOf fs f call)

/-- The offences at a site. -/
def Site.offences (fs : Files) (allowed : List Text) (site : Site) : List Offence :=
  offencesIn fs allowed site.parsed site.call

/-! ### What is read from trees and imports -/

theorem factsOf_parsed {src : Sources} {g : ImportGraph} {parsed : ParsedFile}
    (h : src.files.resolve (Path.parse file) >>= src.parseFile = .ok parsed) :
    (factsOf src g file).parsed = parsed := by
  rw [factsOf, h]
  rfl

theorem localNameOf_eq (imports : List ResolvedImport) (target : Text) (exportName : Value) :
    localNameOf imports target exportName =
      ((imports.find? (isImportOf target exportName)).map (·.localName)).getD .null := by
  have htest : (fun i : ResolvedImport => i.file == target &&
      Value.sameKey (.str i.exportName) exportName) = isImportOf target exportName := by
    funext i
    refine congrArg _ (Bool.eq_iff_iff.mpr ?_)
    rw [Value.sameKey_str]
    cases exportName with
    | str name => rw [Value.str.injEq, beq_iff_eq, eq_comm]
    | _ => simp
  unfold localNameOf
  rw [htest]
  cases imports.find? (isImportOf target exportName) with
  | none => rfl
  | some i => rfl

theorem callsIn_eq (f : ParsedFile) (name : Value) :
    callsIn f name = match name with
      | .str name => f.root.preorder.filter (isCallOf f name)
      | _ => [] := by
  have hcalls (n : Node) : (n.isA "call_expression" && callsName f name n) = true ↔
      ∃ text, name = .str text ∧ isCallOf f text n = true := by
    unfold callsName isCallOf Node.isA
    cases n.childByField? "function" with
    | none => simp
    | some callee =>
      simp only [Option.any_some, Bool.and_eq_true, beq_iff_eq, Value.sameKey_str]
      constructor
      · rintro ⟨hn, hcallee, rfl⟩
        exact ⟨_, rfl, hn, hcallee, rfl⟩
      · rintro ⟨_, rfl, hn, hcallee, rfl⟩
        exact ⟨hn, hcallee, rfl⟩
  unfold callsIn
  rw [Node.walk_eq_preorder]
  cases name with
  | str text =>
    refine filter_congr fun n _ => Bool.eq_iff_iff.mpr ?_
    rw [hcalls]
    simp
  | _ =>
    refine filter_eq_nil_iff.mpr fun n _ hn => ?_
    obtain ⟨text, htext, -⟩ := (hcalls n).mp hn
    cases htext

/-- The calls in a file are looked for if its imports give the function a name. -/
theorem Facts.calls_eq (facts : Facts) (target : Text) (exportName : Value) :
    facts.calls target exportName =
      if (localNameOf facts.imports target exportName).truthy then
        callsIn facts.parsed (localNameOf facts.imports target exportName) else [] := by
  unfold Facts.calls Facts.nameOf?
  rw [localNameOf_eq, callsIn_eq]
  cases facts.imports.find? (isImportOf target exportName) with
  | none => rfl
  | some i =>
    obtain ⟨file, name, localName⟩ := i
    cases localName with
    | str text =>
      cases hempty : text.isEmpty with
      | true => simp [Value.truthy, hempty]
      | false => simp [Value.truthy, hempty]
    | _ => simp

theorem targetPath_eq_ok {c : PluginContext} {path : Text} (h : targetPath c = .ok path) :
    Value.entry? "path" c.config = some (.str path) ∧ path.isEmpty = false := by
  unfold targetPath at h
  split at h
  · next text hentry =>
    split at h
    · cases h
    · next hempty =>
      cases h
      exact ⟨hentry, Bool.eq_false_of_not_eq_true hempty⟩
  · cases h

theorem isRuleName_of_argument {src : Sources} (hkinds : src.parser.NamesKinds)
    (hf : src.parseFile p = .ok f) {call arg : Node} (hcall : call ∈ f.root.preorder)
    (harg : arg ∈ argumentsOf call) : arg.kind.IsRuleName := by
  obtain ⟨source, rfl⟩ := Sources.parseFile_eq_ok hf
  unfold argumentsOf at harg
  split at harg
  · next arguments hfield =>
    obtain ⟨hnamed, -⟩ := mem_filter.mp harg
    obtain ⟨hchild, hnamed⟩ := mem_filter.mp hnamed
    have hbelow := Node.mem_preorder_of_child (Node.mem_children_of_childByField hfield) _ hcall
    exact hkinds _ _ arg (Node.mem_preorder_of_child hchild _ hbelow) hnamed
  · cases harg

theorem keep_callRecord (f : ParsedFile) (routeName : Text) (call : Node) :
    (callRecord f routeName call).keep = .ok (Site.entry ⟨routeName, f, call⟩) := by
  have htexts : ((argumentsOf call).filterMap fun a => (f.stringValue? a).map Value.str) =
      ((argumentsOf call).filterMap f.stringValue?).map .str :=
    map_filterMap.symm
  have hargs := ImportGraph.keep_files ((argumentsOf call).filterMap f.stringValue?)
  have hjoined : (((argumentsOf call).filterMap f.stringValue?).map fun t => Json.str t.joined) =
      ((argumentsOf call).filterMap f.stringValue?).map .str := by
    refine map_congr_left fun t ht => ?_
    obtain ⟨a, -, ha⟩ := mem_filterMap.mp ht
    rw [(ParsedFile.settled_stringValue ha).joined]
  rw [hjoined] at hargs
  rw [callRecord, htexts]
  obtain ⟨j, hj, hw, hjson⟩ := Value.keepWithin_eq_ok.mp hargs
  rw [hj]
  refine (Value.keep_ofJson (j := .obj [("args", j), ("routeName", .str routeName)]) ⟨?_, ?_⟩).trans
    ?_
  · exact Option.or_eq_none_iff.mpr ⟨hw.1, rfl⟩
  · exact ⟨by decide, hw.2.mono (by decide), trivial, trivial⟩
  · change Except.ok (Json.obj [("args", j.joined), ("routeName", .str routeName.joined)]) = _
    rw [← hjson]
    rfl

/-! ### Steps of the phase -/

section

open ImportGraph Store Ledger

/-- The state in which the phase begins: a session that was just opened, with parsed files that are
sound, over files and a parser that keep to their rules. -/
structure Opened (plugin : Text) (s : PhaseState) : Prop where
  workingDirectory : ∀ name ∈ s.world.files.workingDirectory, Files.ProperName name
  kinds : s.world.parser.NamesKinds
  root : Imports.IsRoot s.session.graph.root
  ledger : s.session.ledger = ⟨.str plugin, s.session.graph.root⟩
  store : ∃ cache, s.session.store = .active plugin ⟨some cache, firstSlots⟩ ∧
    s.world.sources.Sound cache

/-- How far the phase has come: what it has collected, and what it has reported on the arguments of
a function under a name. The session answers as at first. -/
structure Progress (plugin label : Text) (s0 : PhaseState) (items : List Json)
    (offences : List Offence) (s : PhaseState) : Prop where
  frame : PhaseState.Frame s0 s
  ahead : Ahead s0.session.graph s0.world.sources s0.session.store s.session.store
  collected : s.session.store.slotAt? collectionPath = some (.arr items)
  reported : ∃ done, Ledger.Follows done s.session.store ∧ (∀ f ∈ done, f.kind = .error) ∧
    done.map Filing.print =
      offences.map (Offence.print plugin (scrub s0.session.graph.root.text label))

variable {plugin label : Text} {s0 s t : PhaseState} {items : List Json} {offences : List Offence}

theorem Opened.blank (h : Opened plugin s) : Blank s.session.store := by
  obtain ⟨cache, hstore, -⟩ := h.store
  rw [hstore]
  exact ⟨(holdsTables_first plugin cache).wellFormed, rfl, rfl, rfl⟩

theorem Opened.sound (h : Opened plugin s) : s.session.store.Sound s.world.sources := by
  obtain ⟨cache, hstore, hsound⟩ := h.store
  rw [hstore]
  exact sound_active.mpr hsound

theorem Opened.progress (h : Opened plugin s) : Progress plugin label s [] [] s where
  frame := refl_of PhaseState.Frame s
  ahead := .refl h.blank.ready
  collected := by
    obtain ⟨cache, hstore, -⟩ := h.store
    rw [hstore]
    rfl
  reported := by
    obtain ⟨cache, hstore, -⟩ := h.store
    rw [hstore]
    refine ⟨[], ⟨fun kind => ?_, by simp, by simp, by simp, by simp⟩, by simp, rfl⟩
    cases kind with
    | error => rfl
    | warning => rfl

section

variable (h0 : Opened plugin s0) (h : Progress plugin label s0 items offences s)

include h

theorem Progress.sources : s.world.sources = s0.world.sources := h.frame.sources

theorem Progress.graph : s.session.graph = s0.session.graph :=
  (Pipeline.aged_of_frame h.frame).graph

theorem Progress.ledger : s.session.ledger = s0.session.ledger :=
  (Pipeline.aged_of_frame h.frame).ledger

/-- A request that writes neither to the collection nor to the records leaves both as they are. -/
theorem Progress.of_apart {q : Request} (hq : q.isOrdinary = true)
    (hapart : ∀ key ∈ q.slots, key ∉ [collectionPath, ReportKind.error.path,
      ReportKind.warning.path]) {r : q.Reply} (ha : PluginSession.answer q s = .ok r t)
    (hahead : Ahead s0.session.graph s0.world.sources s0.session.store t.session.store) :
    Progress plugin label s0 items offences t := by
  have hslots (key : AccessPath) (hkey : key ∈ [collectionPath, ReportKind.error.path,
      ReportKind.warning.path]) : t.session.store.slotAt? key = s.session.store.slotAt? key :=
    (PluginSession.keepsSlots_answer hq).of_ok ha key fun hm => hapart key hm hkey
  obtain ⟨done, hfollows, hdone⟩ := h.reported
  refine ⟨trans_of PhaseState.Frame h.frame ((PluginSession.moves_answer q).of_ok ha), hahead,
    (hslots _ (by simp)).trans h.collected, done, hfollows.of_slots fun kind => ?_, hdone⟩
  cases kind with
  | error => exact hslots _ (by simp)
  | warning => exact hslots _ (by simp)

include h0

/-- The imports of a file are those that are found in it. -/
theorem Progress.imports {found : List ResolvedImport}
    (ha : PluginSession.answer (.imports file) s = .ok found t) :
    s0.session.graph.freshImports s0.world.sources file = .ok found ∧
      Progress plugin label s0 items offences t := by
  have hm := PhaseM.onStore_eq_ok (show PhaseM.onStore
    (s.session.graph.imports s.world.sources file) s = .ok found t from ha)
  rw [h.graph, h.sources] at hm
  obtain ⟨hout, hend⟩ := gives_imports h0.workingDirectory h0.root h0.blank.ready file _ h.ahead
  rw [hm, outcome_ok, h0.blank.outcome_imports h0.workingDirectory h0.root h0.sound] at hout
  rw [hm, endState_ok] at hend
  refine ⟨hout.symm, h.of_apart rfl ?_ ha hend⟩
  dsimp only [Request.slots]
  decide

/-- A file is parsed as the parser gives it. -/
theorem Progress.parse {parsed : ParsedFile}
    (ha : PluginSession.answer (.parse file) s = .ok parsed t) :
    s0.world.sources.files.resolve (Path.parse file) >>= s0.world.sources.parseFile = .ok parsed ∧
      Progress plugin label s0 items offences t := by
  have hm := PhaseM.onStore_eq_ok (show PhaseM.onStore
    (Store.parse s.world.sources file) s = .ok parsed t from ha)
  rw [h.sources] at hm
  obtain ⟨hout, hend⟩ := gives_parse (g := s0.session.graph) h0.workingDirectory h0.blank.ready file
    _ h.ahead
  rw [hm, outcome_ok, outcome_parse_of_sound h0.workingDirectory h0.blank.ready h0.sound] at hout
  rw [hm, endState_ok] at hend
  refine ⟨hout.symm, h.of_apart rfl ?_ ha hend⟩
  dsimp only [Request.slots]
  decide

omit h0 in
/-- What is collected is added to the collection. -/
theorem Progress.collect {routeName : Text} {call : Node}
    (ha : PluginSession.answer (.collect (callRecord f routeName call)) s = .ok () t) :
    Progress plugin label s0 (items ++ [Site.entry ⟨routeName, f, call⟩]) offences t := by
  have hmemory : KeepsMemory s.session.store t.session.store :=
    (PhaseM.onStore_moves ((KeepsMemory.writesMove (by decide) (by decide)).push _)).of_ok
      (show PhaseM.onStore (StoreM.change (·.push collectionPath.toValue
        (callRecord f routeName call))) s = .ok () t from ha)
  obtain ⟨j, u, hkeep, hu, hslots⟩ | ⟨e, he⟩ :=
    PluginSession.answer_collect h.collected (callRecord f routeName call)
  · cases hu.symm.trans ha
    cases hkeep.symm.trans (keep_callRecord f routeName call)
    obtain ⟨done, hfollows, hdone⟩ := h.reported
    refine ⟨trans_of PhaseState.Frame h.frame ((PluginSession.moves_answer _).of_ok ha),
      h.ahead.keepsMemory hmemory, (hslots _).trans (if_pos rfl), done,
      hfollows.of_slots fun kind => (hslots _).trans (if_neg ?_), hdone⟩
    cases kind with
    | error => decide
    | warning => decide
  · cases he.symm.trans ha

/-- A report on an argument is added to the reports. -/
theorem Progress.report {call arg : Node} (hkind : arg.kind.IsRuleName) {isNew : Bool}
    (ha : PluginSession.answer (.report .error (.str (refusal arg.kind ++ label))
      f.path (some (f.mark call))) s = .ok isNew t) :
    Progress plugin label s0 items
      (offences ++ [offenceOf s0.world.files f call arg]) t := by
  have hm : PhaseM.onLedger (s.session.ledger.report s.world.files .error
      (.str (refusal arg.kind ++ label)) f.path (some (f.mark call))) s = .ok isNew t := ha
  have hmemory : KeepsMemory s.session.store t.session.store :=
    (PhaseM.onLedger_moves
      (moves_report (KeepsMemory.writesMove (by decide) (by decide)).unshift _ _ _ _ _)).of_ok hm
  have hfiles : s.world.files = s0.world.files := congrArg Sources.files h.sources
  obtain ⟨clock, hr⟩ := PhaseM.onLedger_eq_ok hm
  rw [h.ledger, h0.ledger, hfiles] at hr
  obtain ⟨done, hfollows, hkinds, hprints⟩ := h.reported
  obtain ⟨q, filing, hq, herror, hprint, hnext⟩ := hfollows.report_error rfl hr
  have hscrub := scrub_append h0.root.absolute (slash_notMem_refusal hkind) label
  have hoffence : filing.print = (offenceOf s0.world.files f call arg).print plugin
      (scrub s0.session.graph.root.text label) := by
    rw [hprint, offenceOf, reportedAs, (target_eq_ok.mp hq).2]
    change Ledger.print plugin q.text _ (scrub s0.session.graph.root.text
      (refusal arg.kind ++ label)) = _
    rw [hscrub]
    rfl
  refine ⟨trans_of PhaseState.Frame h.frame ((PluginSession.moves_answer _).of_ok ha),
    h.ahead.keepsMemory hmemory, ?_, done ++ [filing], hnext,
    forall_mem_concat.mpr ⟨hkinds, herror⟩, ?_⟩
  · have hslot := (PluginSession.keepsSlots_answer rfl).of_ok ha collectionPath
      (show collectionPath ∉ [ReportKind.error.path] by decide)
    exact hslot.trans h.collected
  · rw [map_append, map_append, hprints, map_singleton, map_singleton, hoffence]

end

/-! ### Runs of the phase -/

section

variable (h0 : Opened plugin s0) {allowed : List Text}

include h0

theorem Progress.reportArguments {call : Node} {args : List Node}
    (hkinds : ∀ arg ∈ args, arg.kind.IsRuleName) (h : Progress plugin label s0 items offences s)
    (hrun : (reportArguments f allowed label call args).run s = .ok () t) :
    Progress plugin label s0 items (offences ++
      (args.filter fun arg => !allowed.contains arg.kind).map (offenceOf s0.world.files f call))
      t := by
  induction args generalizing s offences with
  | nil =>
    cases hrun
    rwa [filter_nil, map_nil, append_nil]
  | cons arg rest ih =>
    have hrest := fun other ho => hkinds other (mem_cons_of_mem arg ho)
    unfold CallCollector.reportArguments at hrun
    cases hallowed : allowed.contains arg.kind with
    | true =>
      rw [filter_cons_of_neg (by rw [hallowed]; decide)]
      simp only [hallowed, Bool.not_true, Bool.false_eq_true, if_false] at hrun
      exact ih hrest h hrun
    | false =>
      simp only [hallowed, Bool.not_false, if_true] at hrun
      obtain ⟨isNew, u, hreport, hrun⟩ := Phase.run_bind_eq_ok.mp hrun
      rw [Phase.run_call] at hreport
      have hnext := ih hrest (h.report h0 (hkinds arg mem_cons_self) hreport) hrun
      rw [filter_cons_of_pos (by rw [hallowed]; rfl), map_cons, ← singleton_append,
        ← append_assoc]
      exact hnext

variable {routeName target : Text} {exportName : Value}

theorem Progress.collectCalls (hf : s0.world.sources.parseFile p = .ok f) {calls : List Node}
    (hcalls : ∀ call ∈ calls, call ∈ f.root.preorder)
    (h : Progress plugin label s0 items offences s)
    (hrun : (collectCalls f allowed label routeName calls).run s = .ok () t) :
    Progress plugin label s0 (items ++ calls.map fun call => Site.entry ⟨routeName, f, call⟩)
      (offences ++ calls.flatMap (offencesIn s0.world.files allowed f)) t := by
  induction calls generalizing s items offences with
  | nil =>
    cases hrun
    rwa [map_nil, flatMap_nil, append_nil, append_nil]
  | cons call rest ih =>
    obtain ⟨⟨⟩, u, hreports, hrun⟩ := Phase.run_bind_eq_ok.mp hrun
    obtain ⟨⟨⟩, v, hcollect, hrun⟩ := Phase.run_bind_eq_ok.mp hrun
    rw [Phase.run_call] at hcollect
    have hreported := h.reportArguments h0 (fun arg harg =>
      isRuleName_of_argument h0.kinds hf (hcalls call mem_cons_self) harg) hreports
    have hnext := ih (fun other ho => hcalls other (mem_cons_of_mem call ho))
      (hreported.collect hcollect) hrun
    rw [map_cons, flatMap_cons, ← singleton_append, ← append_assoc,
      ← append_assoc]
    exact hnext

/-- The phase asks for the imports of a file, and goes through the calls in it if they give the
function a name. -/
theorem Progress.collectFile {rest : List Text} (h : Progress plugin label s0 items offences s)
    (hrun : (collectFiles target exportName allowed label routeName (file :: rest)).run s =
      .ok () t) : let facts := factsOf s0.world.sources s0.session.graph file
    s0.session.graph.freshImports s0.world.sources file = .ok facts.imports ∧
    ∃ u, (collectFiles target exportName allowed label routeName rest).run u = .ok () t ∧
      Progress plugin label s0
        (items ++ (facts.calls target exportName).map fun call =>
          Site.entry ⟨routeName, facts.parsed, call⟩)
        (offences ++ (facts.calls target exportName).flatMap
          (offencesIn s0.world.files allowed facts.parsed)) u := by
  intro facts
  obtain ⟨imports, u, himports, hrun⟩ := Phase.run_bind_eq_ok.mp hrun
  rw [Phase.run_call] at himports
  obtain ⟨hfound, hu⟩ := h.imports h0 himports
  have hfacts : facts.imports = imports := by
    simp only [facts, factsOf, hfound]
    rfl
  have hcalls := facts.calls_eq target exportName
  rw [hfacts] at hcalls ⊢
  refine ⟨hfound, ?_⟩
  dsimp only at hrun
  cases hname : (localNameOf imports target exportName).truthy with
  | false =>
    rw [hname, if_neg Bool.false_ne_true] at hcalls hrun
    rw [hcalls, map_nil, flatMap_nil, append_nil, append_nil]
    exact ⟨u, hrun, hu⟩
  | true =>
    rw [hname, if_pos rfl] at hcalls hrun
    obtain ⟨parsed, v, hparse, hrun⟩ := Phase.run_bind_eq_ok.mp hrun
    rw [Phase.run_call] at hparse
    obtain ⟨hparsed, hv⟩ := hu.parse h0 hparse
    have htree : facts.parsed = parsed := factsOf_parsed hparsed
    obtain ⟨p, -, hfile⟩ := bind_ok_iff.mp hparsed
    obtain ⟨⟨⟩, v', hcollect, hrun⟩ := Phase.run_bind_eq_ok.mp hrun
    rw [hcalls, htree]
    refine ⟨v', hrun, hv.collectCalls h0 hfile (fun call hcall => ?_) hcollect⟩
    rw [callsIn, Node.walk_eq_preorder] at hcall
    exact (mem_filter.mp hcall).1

/-- The phase goes through the files of a route. -/
theorem Progress.collectFiles {files : List Text} (h : Progress plugin label s0 items offences s)
    (hrun : (collectFiles target exportName allowed label routeName files).run s = .ok () t) :
    let facts := factsOf s0.world.sources s0.session.graph
    let found := sitesIn facts target exportName routeName files
    (∀ file ∈ files, s0.session.graph.freshImports s0.world.sources file =
      .ok (facts file).imports) ∧
    Progress plugin label s0 (items ++ found.map Site.entry)
      (offences ++ found.flatMap (Site.offences s0.world.files allowed)) t := by
  induction files generalizing s items offences with
  | nil =>
    cases hrun
    refine ⟨by simp, ?_⟩
    rwa [sitesIn, flatMap_nil, map_nil, flatMap_nil, append_nil,
      append_nil]
  | cons file rest ih =>
    obtain ⟨himports, u, hrest, hu⟩ := h.collectFile h0 hrun
    obtain ⟨hothers, hnext⟩ := ih hu hrest
    refine ⟨forall_mem_cons.mpr ⟨himports, hothers⟩, ?_⟩
    rw [sitesIn, flatMap_cons, map_append, flatMap_append, map_map,
      flatMap_map, ← append_assoc, ← append_assoc]
    exact hnext

/-- The phase goes through the routes. -/
theorem Progress.collectRoutes {routes : List Route} (h : Progress plugin label s0 items offences s)
    (hrun : (collectRoutes target exportName allowed label routes).run s = .ok () t) :
    let facts := factsOf s0.world.sources s0.session.graph
    let found := sites facts target exportName routes
    (∀ route ∈ routes, ∀ file ∈ route.files,
      s0.session.graph.freshImports s0.world.sources file = .ok (facts file).imports) ∧
    Progress plugin label s0 (items ++ found.map Site.entry)
      (offences ++ found.flatMap (Site.offences s0.world.files allowed)) t := by
  induction routes generalizing s items offences with
  | nil =>
    cases hrun
    refine ⟨by simp, ?_⟩
    rwa [sites, flatMap_nil, map_nil, flatMap_nil, append_nil, append_nil]
  | cons route rest ih =>
    obtain ⟨⟨⟩, u, hfiles, hrest⟩ := Phase.run_bind_eq_ok.mp hrun
    obtain ⟨himports, hu⟩ := h.collectFiles h0 hfiles
    obtain ⟨hothers, hnext⟩ := ih hu hrest
    refine ⟨forall_mem_cons.mpr ⟨himports, hothers⟩, ?_⟩
    rw [sites, flatMap_cons, map_append, flatMap_append, ← append_assoc,
      ← append_assoc]
    exact hnext

/-- A run of the phase is asked for a query, and collects and reports what is at its sites. -/
theorem Opened.collector {v : Value} (hrun : collector.run s0 = .ok v t) :
    let facts := factsOf s0.world.sources s0.session.graph
    ∃ q : Query, q.Asked s0.world.files s0.session.project s0.session.config ∧
      (∀ route ∈ s0.session.table.routes, ∀ file ∈ route.files,
        s0.session.graph.freshImports s0.world.sources file = .ok (facts file).imports) ∧
      let found := sites facts q.target q.exportName s0.session.table.routes
      Progress plugin q.label s0 (found.map Site.entry)
        (found.flatMap (Site.offences s0.world.files q.allowed)) t := by
  obtain ⟨c, u, hcontext, hrun⟩ := Phase.run_bind_eq_ok.mp hrun
  rw [Phase.run_call] at hcontext
  cases hcontext
  obtain ⟨path, u, hpath, hrun⟩ := Phase.run_bind_eq_ok.mp hrun
  obtain ⟨hpath, rfl⟩ := Phase.run_ofExcept_eq_ok.mp hpath
  obtain ⟨hentry, hempty⟩ := targetPath_eq_ok hpath
  obtain ⟨target, u, hsource, hrun⟩ := Phase.run_bind_eq_ok.mp hrun
  rw [Phase.run_call] at hsource
  obtain ⟨htarget, rfl⟩ := lift_eq_ok.mp hsource
  obtain ⟨allowed, u, hallowed, hrun⟩ := Phase.run_bind_eq_ok.mp hrun
  obtain ⟨hallowed, rfl⟩ := Phase.run_ofExcept_eq_ok.mp hallowed
  obtain ⟨routes, u, hroutes, hrun⟩ := Phase.run_bind_eq_ok.mp hrun
  rw [Phase.run_call] at hroutes
  cases hroutes
  obtain ⟨⟨⟩, u, hcollect, hrun⟩ := Phase.run_bind_eq_ok.mp hrun
  cases hrun
  obtain ⟨himports, hprogress⟩ := h0.progress.collectRoutes h0 hcollect
  rw [nil_append, nil_append] at hprogress
  exact ⟨⟨path, target, _, allowed⟩, ⟨hentry, hempty, htarget, rfl, hallowed⟩, himports, hprogress⟩

end

end

end CallCollector

end RoutePlugins
