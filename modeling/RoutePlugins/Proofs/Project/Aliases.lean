import Mathlib.Data.List.TakeWhile
import RoutePlugins.Proofs.Json.Commented
import RoutePlugins.Proofs.Json.ReaderLimits

/-!
# Loaded aliases

What comes of the content of a configuration file. Aliases that are loaded can be used: their base
directory is not blank, and each pattern stands in them once. A content that is not what it should
be is a fault of configuration, with three exceptions that are raised as they are: bytes that are no
text, a whole number with too many digits, and values that lie too deep in one another.
-/

namespace RoutePlugins.Aliases

open Json (Moderate stripComments)

variable {t : Text} {e : Fault}

/-- Aliases by which imports can be resolved: the base directory is not blank, and no pattern is
there twice. -/
structure Usable (a : Aliases) : Prop where
  base : ∃ p ∈ a.baseUrl.points, Text.isBlank p = false
  patterns : (Assoc.keys a.paths).Nodup

/-- The faults that a content raises as they are. -/
inductive Unread (content : Bytes) : Fault → Prop
  | decoding {e : Utf8.Error} (h : Utf8.decode content = .error e) : Unread content (.decoding e)
  | limit {t : Text} {f : Json.ReadFault} (ht : Files.textOf content = .ok t)
      (hread : Json.read (stripComments t) = .error f) (hf : ∀ e, f ≠ .syntactic e) :
      Unread content (.reading f)

/-! ### Documents -/

/-- Patterns are read with their names. -/
theorem keys_readPaths {name : Text} {fields : List (Text × Json)}
    {paths : List (Text × List Text)} (h : readPaths name fields = .ok paths) :
    Assoc.keys paths = Assoc.keys fields := by
  induction fields generalizing paths with
  | nil =>
    cases h
    rfl
  | cons e rest ih =>
    obtain ⟨pattern, v⟩ := e
    rw [readPaths] at h
    split at h
    · cases hrest : readPaths name rest with
      | error f =>
        rw [hrest] at h
        cases h
      | ok others =>
        rw [hrest] at h
        cases h
        exact congrArg (pattern :: ·) (ih hrest)
    · cases h

/-- The fields of a field are distinct if those of the whole are. -/
theorem keysDistinct_fields? {key : Text} {fields inner : List (Text × Json)}
    (h : (Json.obj fields).keysDistinct = true)
    (hinner : fields? (Json.fieldOf? key fields) = some inner) :
    (Json.obj inner).keysDistinct = true := by
  cases hfield : Json.fieldOf? key fields with
  | none =>
    rw [hfield] at hinner
    cases hinner
    rfl
  | some v =>
    rw [hfield] at hinner
    have hv := (Json.keysDistinct_obj.mp h).2 _ (Assoc.mem_of_get? hfield)
    cases v with
    | obj own =>
      cases hinner
      exact hv
    | _ => cases hinner

/-- A text that has something left when it is trimmed is not blank. -/
theorem exists_of_trim (h : (Text.trim t).isEmpty = false) :
    ∃ p ∈ t.points, Text.isBlank p = false := by
  by_contra hblank
  have hall : ∀ p ∈ t.points, Text.isBlank p = true := by
    intro p hp
    by_contra hne
    exact hblank ⟨p, hp, by simpa using hne⟩
  have hdrop : t.points.dropWhile Text.isBlank = [] := List.dropWhile_eq_nil_iff.mpr hall
  rw [Text.trim, Text.trimWhile, hdrop] at h
  cases h

/-- The aliases of a document can be used. -/
theorem usable_of_ofDocument {name : Text} {document : Json} {aliases : Option Aliases}
    {excludes : List Text} (hd : document.keysDistinct = true)
    (h : ofDocument name document = .ok (aliases, excludes)) : ∀ a ∈ aliases, a.Usable := by
  unfold ofDocument at h
  split at h
  case h_2 => cases h
  next fields =>
  split at h
  case h_2 => cases h
  next options hoptions =>
  split at h
  case h_2 => cases h
  next patterns hpatterns =>
  obtain ⟨paths, hpaths, h⟩ := bind_ok_iff.mp h
  have hnames : (Assoc.keys paths).Nodup := by
    rw [keys_readPaths hpaths]
    exact (Json.keysDistinct_obj.mp
      (keysDistinct_fields? (keysDistinct_fields? hd hoptions) hpatterns)).1
  dsimp only at h
  split at h
  · cases h
    simp
  · cases h
    intro a ha
    obtain rfl := Option.mem_some_iff.mp ha
    refine ⟨?_, hnames⟩
    dsimp only
    split
    · exact ⟨.char '.', by decide, by decide⟩
    · next hblank => exact exists_of_trim (by simpa using hblank)

/-! ### Contents -/

section

variable {fs : Files} {p : Path} {name : Text} {content : Bytes}

theorem readText_of_readBytes (hcontent : fs.readBytes p = .ok content) :
    fs.readText p = Files.textOf content := by
  rw [Files.readText, hcontent]
  rfl

/-- Bytes that are no text are raised as they are. -/
theorem readDocument_of_decode (name : Text) {e : Utf8.Error}
    (hcontent : fs.readBytes p = .ok content) (h : Utf8.decode content = .error e) :
    readDocument fs name p = .error (.decoding e) := by
  have htext : Files.textOf content = .error (.decoding e) := by rw [Files.textOf, h]
  unfold readDocument
  rw [readText_of_readBytes hcontent, htext]
  rfl

/-- A text that is no JSON is a fault of configuration, and one beyond a limit is raised as it
is. -/
theorem readDocument_of_read (name : Text) {f : Json.ReadFault} (ht : fs.readText p = .ok t)
    (h : Json.read (stripComments t) = .error f) :
    (∃ e, f = .syntactic e ∧
      readDocument fs name p = .error (.configuration (.unreadable name e.message))) ∨
    (∀ e, f ≠ .syntactic e) ∧ readDocument fs name p = .error (.reading f) := by
  have hresult : (do (Json.read (stripComments (← fs.readText p))).mapError Fault.reading) =
      .error (.reading f) := by
    rw [ht]
    change (Json.read (stripComments t)).mapError Fault.reading = _
    rw [h]
    rfl
  unfold readDocument
  rw [hresult]
  cases f with
  | syntactic e => exact .inl ⟨e, rfl, rfl⟩
  | digits count => exact .inr ⟨fun _ h => (by cases h), rfl⟩
  | depth isObject => exact .inr ⟨fun _ h => (by cases h), rfl⟩

theorem readDocument_of_unread (hcontent : fs.readBytes p = .ok content) (h : Unread content e) :
    readDocument fs name p = .error e := by
  cases h with
  | decoding hdecode => exact readDocument_of_decode name hcontent hdecode
  | limit ht hread hf =>
    rw [← readText_of_readBytes hcontent] at ht
    obtain ⟨e, he, -⟩ | ⟨-, hdocument⟩ := readDocument_of_read name ht hread
    · exact absurd he (hf e)
    · exact hdocument

theorem unread_of_readDocument (hcontent : fs.readBytes p = .ok content)
    (h : readDocument fs name p = .error e) (he : e.isConfiguration = false) :
    Unread content e := by
  cases hdecode : Utf8.decode content with
  | error flaw =>
    rw [readDocument_of_decode name hcontent hdecode] at h
    cases h
    exact .decoding hdecode
  | ok u =>
    have htext : Files.textOf content = .ok u.unifyLineEnds := by rw [Files.textOf, hdecode]
    have ht := (readText_of_readBytes hcontent).trans htext
    cases hread : Json.read (stripComments u.unifyLineEnds) with
    | ok document =>
      rw [(Json.readDocument_eq_ok_iff name ht).mpr hread] at h
      cases h
    | error f =>
      obtain ⟨x, -, hdocument⟩ | ⟨hf, hdocument⟩ := readDocument_of_read name ht hread
      · rw [hdocument] at h
        cases h
        cases he
      · rw [hdocument] at h
        cases h
        exact .limit htext hread hf

/-- The faults that are raised as they are are no faults of configuration. -/
theorem Unread.isConfiguration (h : Unread content e) : e.isConfiguration = false := by
  cases h with
  | decoding => rfl
  | @limit _ f _ _ hf =>
    cases f with
    | syntactic x => exact absurd rfl (hf x)
    | digits => rfl
    | depth => rfl

/-- A text within the limits of the reader raises nothing as it is. -/
theorem not_unread (ht : Files.textOf content = .ok t) (hmoderate : Moderate (stripComments t))
    (e : Fault) : ¬ Unread content e := by
  intro h
  cases h with
  | decoding hdecode =>
    rw [Files.textOf, hdecode] at ht
    cases ht
  | limit ht' hread hf =>
    cases ht.symm.trans ht'
    obtain ⟨x, rfl⟩ := hmoderate.syntactic hread
    exact hf x rfl

/-- The document of a file has distinct names. -/
theorem keysDistinct_of_readDocument {document : Json} (hcontent : fs.readBytes p = .ok content)
    (h : readDocument fs name p = .ok document) : document.keysDistinct = true := by
  cases htext : Files.textOf content with
  | error e =>
    cases hdecode : Utf8.decode content with
    | ok u =>
      rw [Files.textOf, hdecode] at htext
      cases htext
    | error flaw =>
      rw [readDocument_of_decode name hcontent hdecode] at h
      cases h
  | ok t =>
    have ht := (readText_of_readBytes hcontent).trans htext
    exact Json.keysDistinct_of_read ((Json.readDocument_eq_ok_iff name ht).mp h)

end

/-! ### Loading -/

section

variable {fs : Files} {root : Path} {name : Text} {content : Bytes}
  (hname : (fileNames.findM? fun n => fs.isPresent (root.child n)) = .ok (some name))

include hname

/-- Aliases are loaded from the first file that is there. -/
theorem load_eq : load fs root = readDocument fs name (root.child name) >>= fun document =>
    (ofDocument name document).mapError .configuration := by
  rw [load, hname]
  rfl

theorem load_of_readDocument (h : readDocument fs name (root.child name) = .error e) :
    load fs root = .error e := by
  rw [load_eq hname, h]
  rfl

/-- What is wrong with a document is a fault of configuration. -/
theorem readDocument_of_load (h : load fs root = .error e) (he : e.isConfiguration = false) :
    readDocument fs name (root.child name) = .error e := by
  rw [load_eq hname] at h
  cases hdocument : readDocument fs name (root.child name) with
  | error e' =>
    rw [hdocument] at h
    cases h
    rfl
  | ok document =>
    rw [hdocument] at h
    replace h : (ofDocument name document).mapError Fault.configuration = .error e := h
    cases hof : ofDocument name document with
    | ok r =>
      rw [hof] at h
      cases h
    | error cause =>
      rw [hof] at h
      cases h
      cases he

/-- What is loaded comes from a document. -/
theorem ofDocument_of_load {r : Option Aliases × List Text} (h : load fs root = .ok r) :
    ∃ document, readDocument fs name (root.child name) = .ok document ∧
      ofDocument name document = .ok r := by
  rw [load_eq hname] at h
  obtain ⟨document, hdocument, h⟩ := bind_ok_iff.mp h
  refine ⟨document, hdocument, ?_⟩
  cases hof : ofDocument name document with
  | ok r' =>
    rw [hof] at h
    cases h
    rfl
  | error cause =>
    rw [hof] at h
    cases h

/-- What comes of the content of a configuration file: aliases that can be used, or none, with the
excluded paths; or a fault of configuration; or, exactly if the content is no text or its document
goes beyond a limit of the reader, the fault of that. -/
theorem load_outcomes (hcontent : fs.readBytes (root.child name) = .ok content) :
    (∀ aliases excludes, load fs root = .ok (aliases, excludes) → ∀ a ∈ aliases, a.Usable) ∧
    (∀ e, load fs root = .error e ∧ e.isConfiguration = false ↔ Unread content e) ∧
    ∀ t, Files.textOf content = .ok t → Moderate (stripComments t) → ∀ e, ¬ Unread content e := by
  refine ⟨fun aliases excludes h => ?_, fun e => ⟨?_, fun h => ?_⟩,
    fun t ht hm e => not_unread ht hm e⟩
  · obtain ⟨document, hdocument, hof⟩ := ofDocument_of_load hname h
    exact usable_of_ofDocument (keysDistinct_of_readDocument hcontent hdocument) hof
  · rintro ⟨hload, he⟩
    exact unread_of_readDocument hcontent (readDocument_of_load hname hload he) he
  · exact ⟨load_of_readDocument hname (readDocument_of_unread hcontent h), h.isConfiguration⟩

end

deriving instance DecidableEq for Aliases

namespace Sample

/-- A project with a configuration file. -/
def configured (content : Bytes) : Files :=
  ⟨[(["p"], .directory), (["p", "tsconfig.json"], .file content)], []⟩

/-- The root of the project. -/
def root : Path := ⟨.root, ["p"]⟩

/-- A commented document with a blank base directory and an exclude that is no text. -/
def document : Text :=
  "\x7b\"compilerOptions\":/**/\x7b\"paths\":\x7b\"@/*\":\"src/*\"\x7d,\"baseUrl\":\" \"\x7d," ++
    "\"exclude\":[1,\"d\"]\x7d//"

/-- The bytes of the document. -/
def content : Bytes := Utf8.encodeReplacing document

/-- What the document declares. -/
def aliases : Aliases := ⟨".", [("@/*", ["src/*"])], "tsconfig.json"⟩

theorem first_configured (bytes : Bytes) :
    (fileNames.findM? fun n => (configured bytes).isPresent (root.child n)) =
      .ok (some "tsconfig.json") := ok_of_toOption (by rfl)

theorem readBytes_configured (bytes : Bytes) :
    (configured bytes).readBytes (root.child "tsconfig.json") = .ok bytes := by rfl

end Sample

open Sample in
/-- A commented document with a blank base directory is loaded with the project root in its
place. -/
theorem load_outcomes_blank_base :
    (fileNames.findM? fun n => (configured content).isPresent (root.child n)) =
      .ok (some "tsconfig.json") ∧
    (configured content).readBytes (root.child "tsconfig.json") = .ok content ∧
    load (configured content) root = .ok (some aliases, ["d"]) ∧ aliases.Usable ∧
    ∀ e, ¬ Unread content e := by
  have houtcomes := load_outcomes (first_configured content) (readBytes_configured content)
  have htext : Files.textOf content = .ok document := ok_of_toOption (by decide +kernel)
  have hmoderate : Moderate (stripComments document) := by
    have hlength : (stripComments document).points.length ≤ Json.maxDigits := by decide +kernel
    exact ⟨fun run hrun _ => hrun.length_le.trans hlength, by decide +kernel⟩
  have hload : load (configured content) root = .ok (some aliases, ["d"]) :=
    ok_of_toOption (by decide +kernel)
  exact ⟨first_configured content, readBytes_configured content, hload,
    houtcomes.1 _ _ hload aliases rfl, houtcomes.2.2 document htext hmoderate⟩

open Sample in
/-- A byte that begins no character is not reported as a fault of configuration. -/
theorem undecodable_file_raised :
    ∃ e, load (configured [0xff]) root = .error e ∧ e.label = "UnicodeDecodeError" ∧
      e.isConfiguration = false := by
  have hdecode : Utf8.decode [0xff] = .error ⟨.start, 0xff, 0, 1⟩ := rfl
  have hdocument := readDocument_of_decode "tsconfig.json" (readBytes_configured [0xff]) hdecode
  exact ⟨_, load_of_readDocument (first_configured [0xff]) hdocument, rfl, rfl⟩

end RoutePlugins.Aliases
