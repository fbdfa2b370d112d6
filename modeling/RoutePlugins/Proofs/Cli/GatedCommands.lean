import RoutePlugins.Proofs.Cli.Loaded
import RoutePlugins.Proofs.Plugin.Alike

/-!
# Gated commands

A gated command runs the plugins only if the project has changed since they were last run. So a
second command, with nothing changed in between, says again what the first has said, as long as the
run did not begin or was committed. If the run raised a fault, the digest is forgotten, and the
plugins are run again.

An aborted run is the exception. Its digest stays, so the second command skips the run and ends as
if nothing were wrong.
-/

namespace RoutePlugins

variable {e : Fault} {w' : World}

namespace Cli

open CommandM Files Pipeline Gate

/-! ### What a gated command does -/

/-- Load the project and the plugins of a command that runs plugins. -/
def loadSetup (fallback : Text) (root : Option Text) (specs : List (Option Text)) (write : Bool) :
    CommandM Setup := do
  let project ← onWorld (resolveProject root)
  let texts ← onWorld (Run.lift (specTexts specs))
  let plugins ← onModules (loadPlugins texts fallback)
  onWorld (Run.lift (Plugin.checkDistinct plugins))
  return ⟨project, plugins, Routes.appRouter, write⟩

/-- Run plugins if the project has changed. -/
def gated (r : Setup) : Run (Option RunResult) :=
  runIfChanged r.project pluginsDigestKey r.run none

/-- Show what a gated run comes to. -/
def showGated : Option RunResult → CommandM Nat
  | some result => showResult result
  | none => do
    onWorld (Run.done "Sources unchanged, nothing to do")
    return 0

/-- How a command ends that raises a fault: with a code, or with the fault. -/
def faultEnding (e : Fault) : Except Fault Nat :=
  if e.isConfiguration then .ok 2 else if e.isPipeline then .ok 1 else .error e

/-- How a command ends that runs plugins, by what the run comes to. -/
def runEnding : Except Fault RunResult → Except Fault Nat
  | .ok result => .ok (if result.committed then 0 else 1)
  | .error e => faultEnding e

/-- How a gated command ends, by what the gate comes to. -/
def gateEnding : Except Fault (Option RunResult) → Except Fault Nat
  | .ok (some result) => runEnding (.ok result)
  | .ok none => .ok 0
  | .error e => runEnding (.error e)

/-- The code with which a line of arguments ends, or the fault. -/
def ending (x : EStateM.Result Fault Terminal Exit) : Except Fault Nat := (outcome x).map Exit.code

variable {fallback : Text} {args : List Text} {root : Option Text} {specs : List (Option Text)}
  {write : Bool}

/-- A gated command loads its setup, and then runs it through the gate. -/
theorem executeRun_eq : executeRun fallback root specs write true = (do
    let r ← loadSetup fallback root specs write
    showGated (← onWorld (gated r))) := by
  simp only [executeRun, loadSetup, gated, bind_assoc, pure_bind, if_true]
  rfl

section

variable {t u : Terminal} (hargs : invocation args = .ok ⟨root, some (.run specs write true)⟩)

include hargs

theorem execute_eq : execute fallback args = (do
    return ⟨← reportFault (executeRun fallback root specs write true), false⟩) := by
  unfold execute
  rw [hargs]
  rfl

theorem execute_of_ok {code : Nat} (h : executeRun fallback root specs write true t = .ok code u) :
    ending (execute fallback args t) = .ok code ∧ endState (execute fallback args t) = u := by
  have hreport : reportFault (executeRun fallback root specs write true) t = .ok code u := by
    rw [reportFault, h]
  rw [execute_eq hargs, bind_of_ok hreport]
  exact ⟨rfl, rfl⟩

theorem execute_of_error (h : executeRun fallback root specs write true t = .error e u) :
    ending (execute fallback args t) = faultEnding e ∧
      (endState (execute fallback args t)).world.files = u.world.files := by
  have hreport : outcome (reportFault (executeRun fallback root specs write true) t) =
        faultEnding e ∧
      (endState (reportFault (executeRun fallback root specs write true) t)).world.files =
        u.world.files := by
    rw [reportFault, h, faultEnding]
    dsimp only
    split
    · exact ⟨rfl, rfl⟩
    · split
      · exact ⟨rfl, rfl⟩
      · exact ⟨rfl, rfl⟩
  rw [execute_eq hargs]
  cases hr : reportFault (executeRun fallback root specs write true) t with
  | ok code v =>
    rw [hr] at hreport
    rw [bind_of_ok hr, ← hreport.1]
    exact ⟨rfl, hreport.2⟩
  | error e' v =>
    rw [hr] at hreport
    rw [bind_of_error hr, ← hreport.1]
    exact ⟨rfl, hreport.2⟩

/-- A command that cannot load its setup ends with the fault. -/
theorem execute_of_refused (h : loadSetup fallback root specs write t = .error e u) :
    ending (execute fallback args t) = faultEnding e ∧
      (endState (execute fallback args t)).world.files = u.world.files := by
  refine execute_of_error hargs ?_
  rw [executeRun_eq]
  exact bind_of_error h

/-- A command that has loaded its setup ends as its run through the gate does. -/
theorem execute_of_loaded {r : Setup} (h : loadSetup fallback root specs write t = .ok r u) :
    ending (execute fallback args t) = gateEnding (outcome (gated r u.world)) ∧
      (endState (execute fallback args t)).world.files = (endState (gated r u.world)).files := by
  have hrun : executeRun fallback root specs write true t =
      (do showGated (← onWorld (gated r))) u := by
    rw [executeRun_eq]
    exact bind_of_ok h
  cases hg : gated r u.world with
  | error e w =>
    have hgate : onWorld (gated r) u = .error e { u with world := w } := by
      rw [onWorld, hg]
    exact execute_of_error hargs (hrun.trans (bind_of_error hgate))
  | ok result w =>
    have hgate : onWorld (gated r) u = .ok result { u with world := w } := by
      rw [onWorld, hg]
    have hshow := hrun.trans (bind_of_ok hgate)
    cases result with
    | none =>
      obtain ⟨hend, hstate⟩ := execute_of_ok hargs hshow
      exact ⟨hend, by rw [hstate]; rfl⟩
    | some result =>
      obtain ⟨hend, hstate⟩ := execute_of_ok hargs hshow
      exact ⟨hend, by rw [hstate]; rfl⟩

end

/-! ### Loading the same setup again -/

/-- Two terminals with given worlds and the same modules. -/
structure Beside (w w' : World) (t t' : Terminal) : Prop where
  left : t.world = w
  right : t'.world = w'
  modules : t'.modules = t.modules

/-- Commands that find the same project and the same modules load the same setup, or raise the same
fault, and leave the world alone. -/
theorem lockstep_loadSetup {w : World}
    (hproject : outcome (resolveProject root w') = outcome (resolveProject root w)) :
    Lockstep (Beside w w') Eq (loadSetup fallback root specs write)
      (loadSetup fallback root specs write) := by
  have hlook (v : World) : endState (resolveProject root v) = v := by
    have hmoves : Moves Eq (resolveProject root) := Moves.get.bind fun _ => .lift _
    exact (hmoves v).symm
  have hresolve : Lockstep (Beside w w') Eq (onWorld (resolveProject root))
      (onWorld (resolveProject root)) := by
    rintro t t' ⟨rfl, rfl, hm⟩
    cases hp : outcome (resolveProject root t.world) with
    | ok project =>
      have hfirst := eq_ok_of_outcome hp
      have hsecond := eq_ok_of_outcome (hproject.trans hp)
      rw [hlook] at hfirst hsecond
      rw [onWorld, onWorld, hfirst, hsecond]
      exact .ok rfl ⟨rfl, rfl, hm⟩
    | error e =>
      have hfirst := eq_error_of_outcome hp
      have hsecond := eq_error_of_outcome (hproject.trans hp)
      rw [hlook] at hfirst hsecond
      rw [onWorld, onWorld, hfirst, hsecond]
      exact .error ⟨rfl, rfl, hm⟩
  have hlift {α : Type} (x : Except Fault α) :
      Lockstep (Beside w w') Eq (onWorld (Run.lift x)) (onWorld (Run.lift x)) := by
    intro t t' h
    cases x with
    | ok a => exact .ok rfl h
    | error e => exact .error h
  have hmodules {α : Type} (m : ModulesM α) :
      Lockstep (Beside w w') Eq (onModules m) (onModules m) := by
    rintro t t' ⟨rfl, rfl, hm⟩
    rw [onModules, onModules, hm]
    cases m t.modules with
    | ok a modules => exact .ok rfl ⟨rfl, rfl, rfl⟩
    | error e modules => exact .error ⟨rfl, rfl, rfl⟩
  refine hresolve.bind_eq fun project => (hlift _).bind_eq fun texts => ?_
  exact (hmodules _).bind_eq fun plugins => (hlift _).bind_eq fun _ => .pure rfl

theorem world_of_loadSetup {t u : Terminal} {r : Setup}
    (h : loadSetup fallback root specs write t = .ok r u) : u.world = t.world := by
  obtain ⟨_, _, hu, -, hleft⟩ := (lockstep_loadSetup rfl).of_ok ⟨rfl, rfl, rfl⟩ h
  cases h.symm.trans hu
  exact hleft.left

theorem writesFiles_of_loadSetup {t u : Terminal} {r : Setup}
    (h : loadSetup fallback root specs write t = .ok r u) : r.writesFiles = write := by
  obtain ⟨project, _, -, h⟩ := bind_eq_ok.mp h
  obtain ⟨texts, _, -, h⟩ := bind_eq_ok.mp h
  obtain ⟨plugins, _, -, h⟩ := bind_eq_ok.mp h
  obtain ⟨⟨⟩, _, -, h⟩ := bind_eq_ok.mp h
  cases h
  rfl

theorem resolveProject_of_files (root : Option Text) {w : World} (h : w'.files = w.files) :
    outcome (resolveProject root w') = outcome (resolveProject root w) := by
  have hlook {α : Type} (f : Files → Except Fault α) (v : World) :
      outcome (Run.onFiles f v) = f v.files := by
    cases hf : f v.files with
    | ok a => rw [Run.onFiles_of_ok hf, outcome_ok]
    | error e => rw [Run.onFiles_of_error hf, outcome_error]
  rw [resolveProject, hlook, hlook, h]

/-! ### Two commands in a row -/

section

variable {r : Setup} {place : Location} {w w1 : World}
  (hb : Begins r.project pluginsDigestKey none w w1)

include hb

/-- A gate that begins comes to what its run comes to. -/
theorem ending_of_begins (h : Sheltered w.files r place) (hoff : r.writesFiles = false) :
    gateEnding (outcome (gated r w)) = runEnding (outcome (r.run w1)) := by
  cases hrun : r.run w1 with
  | ok result w2 =>
    rw [gated, hb.returns hrun]
    rfl
  | error e w2 =>
    cases he : e.isInterruption with
    | true =>
      rw [gated, hb.interrupted hrun he]
      rfl
    | false =>
      obtain ⟨w3, hgate, -⟩ := h.begins_after hoff hb hrun he
      rw [gated, hgate]
      rfl

/-- The digest stays when a run returns or is interrupted, so that the files are those that the run
has left. -/
theorem files_of_begins (h : ∀ e, outcome (r.run w1) = .error e → e.isInterruption = true) :
    (endState (gated r w)).files = (endState (r.run w1)).files := by
  cases hrun : r.run w1 with
  | ok result w2 =>
    rw [gated, hb.returns hrun]
    rfl
  | error e w2 =>
    rw [hrun] at h
    rw [gated, hb.interrupted hrun (h e rfl)]
    rfl

end

/-- A run that raises a fault in a phase raises it again over the same files. -/
theorem outcome_of_sessions {r : Setup} {w : World} (hwf : w.files.WellFormed)
    (hp : ∀ plugin ∈ r.plugins, plugin.Timeless) (hw : w'.sources = w.sources)
    (h : outcome (r.sessions w) = .error e) : outcome (r.run w') = outcome (r.run w) := by
  have hs := eq_error_of_outcome h
  obtain ⟨u', hs', -⟩ := (lockstep_sessions hwf.names hp).of_error ⟨rfl, hw⟩ hs
  have hrun : r.run w = .error e _ := bind_of_error hs
  have hrun' : r.run w' = .error e _ := bind_of_error hs'
  rw [hrun, hrun', outcome_error, outcome_error]

section

variable {t t' u : Terminal} {r : Setup}
  (hargs : invocation args = .ok ⟨root, some (.run specs write true)⟩)
  (hmodules : t'.modules = t.modules)

include hargs hmodules

/-- A second command that finds the same project runs the setup of the first through the gate. -/
theorem ending_of_reloaded (hl : loadSetup fallback root specs write t = .ok r u)
    (hproject : outcome (resolveProject root t'.world) = outcome (resolveProject root t.world)) :
    ending (execute fallback args t') = gateEnding (outcome (gated r t'.world)) := by
  obtain ⟨_, u', hl', rfl, hright⟩ :=
    (lockstep_loadSetup hproject).of_ok ⟨rfl, rfl, hmodules⟩ hl
  rw [(execute_of_loaded hargs hl').1, hright.right]

variable (hfiles : t'.world.files = (endState (execute fallback args t)).world.files)

include hfiles

/-- A command that cannot load its setup raises the same fault again. -/
theorem ending_of_refused (hl : loadSetup fallback root specs write t = .error e u) :
    ending (execute fallback args t') = ending (execute fallback args t) := by
  obtain ⟨hend, hleft⟩ := execute_of_refused hargs hl
  obtain ⟨_, hu, hself⟩ := (lockstep_loadSetup rfl).of_error ⟨rfl, rfl, rfl⟩ hl
  cases hl.symm.trans hu
  rw [hself.left, ← hfiles] at hleft
  obtain ⟨u', hl', -⟩ := (lockstep_loadSetup (resolveProject_of_files root hleft)).of_error
    ⟨rfl, rfl, hmodules⟩ hl
  rw [(execute_of_refused hargs hl').1, hend]

/-- A command whose run does not begin leaves the files alone, and its run does not begin again. -/
theorem ending_of_idle {place : Location} (hl : loadSetup fallback root specs write t = .ok r u)
    (h : Sheltered t.world.files r place)
    (hnot : ¬ ∃ w1, Begins r.project pluginsDigestKey none t.world w1) :
    ending (execute fallback args t') = ending (execute fallback args t) := by
  obtain ⟨hend, hleft⟩ := execute_of_loaded hargs hl
  rw [world_of_loadSetup hl] at hend hleft
  have hstays : (endState (gated r t.world)).files = t.world.files ∧
      (t'.world.files = t.world.files →
        outcome (gated r t'.world) = outcome (gated r t.world)) := by
    obtain hskip | ⟨e, hfail⟩ := h.repeats_of_not_begins hnot
    · rw [gated, hskip _ rfl]
      exact ⟨rfl, fun hsame => by rw [hskip _ hsame]; rfl⟩
    · rw [gated, hfail _ rfl]
      exact ⟨rfl, fun hsame => by rw [hfail _ hsame]; rfl⟩
  rw [hstays.1, ← hfiles] at hleft
  rw [ending_of_reloaded hargs hmodules hl (resolveProject_of_files root hleft), hstays.2 hleft,
    hend]

end

/-- A gated command that is not to write files, and is given again with nothing changed but what the
first has left, ends as before if the run did not begin. If it began, the first ends as the run
does. The second skips a run that has returned, whether it was committed or aborted, and one that
was interrupted. It runs the plugins again if the run has raised a fault, over the files that the
first has left, and ends as that run does. It ends as before if it was a fault of a phase, no digest
was remembered before the first, and the plugins do not look at the times of records. A digest that
was remembered is not any more, so a third command repeats the second. A fault raised while the run
was committed may come when artifacts were written, and the second run may meet another one. -/
theorem gated_commands_repeat (fallback : Text) (args : List Text) (root : Option Text)
    (specs : List (Option Text))
    (hargs : invocation args = .ok ⟨root, some (.run specs false true)⟩) (t t' : Terminal)
    (hmodules : t'.modules = t.modules) (hparser : t'.world.parser = t.world.parser)
    (hfiles : t'.world.files = (endState (execute fallback args t)).world.files) (place : Location)
    (hown : ∀ r u, loadSetup fallback root specs false t = .ok r u →
      Sheltered t.world.files r place ∧ LoadsApart t.world.files root r.project place) :
    ((¬ ∃ r u w1, loadSetup fallback root specs false t = .ok r u ∧
        Begins r.project pluginsDigestKey none t.world w1) →
      ending (execute fallback args t') = ending (execute fallback args t)) ∧
    ∀ r u w1, loadSetup fallback root specs false t = .ok r u →
      Begins r.project pluginsDigestKey none t.world w1 →
      ending (execute fallback args t) = runEnding (outcome (r.run w1)) ∧
      ((∀ e, outcome (r.run w1) = .error e → e.isInterruption = true) →
        ending (execute fallback args t') = .ok 0) ∧
      ∀ e, outcome (r.run w1) = .error e → e.isInterruption = false →
        lastDigest t'.world.files r.project pluginsDigestKey = .ok none ∧
        ∃ w1', Begins r.project pluginsDigestKey none t'.world w1' ∧
          ending (execute fallback args t') = runEnding (outcome (r.run w1')) ∧
          (lastDigest t.world.files r.project pluginsDigestKey = .ok none →
            outcome (r.sessions w1) = .error e → (∀ plugin ∈ r.plugins, plugin.Timeless) →
            ending (execute fallback args t') = ending (execute fallback args t)) := by
  constructor
  · intro hno
    cases hl : loadSetup fallback root specs false t with
    | error e u => exact ending_of_refused hargs hmodules hfiles hl
    | ok r u =>
      exact ending_of_idle hargs hmodules hfiles hl (hown r u hl).1
        fun ⟨w1, hb⟩ => hno ⟨r, u, w1, hl, hb⟩
  · intro r u w1 hl hb
    obtain ⟨hsheltered, hapart⟩ := hown r u hl
    have hoff := writesFiles_of_loadSetup hl
    obtain ⟨hend, hleft⟩ := execute_of_loaded hargs hl
    rw [world_of_loadSetup hl] at hend hleft
    rw [← hfiles] at hleft
    rw [ending_of_begins hb hsheltered hoff] at hend
    -- The second command finds the same project, as only the data directory has changed.
    have hagain (htidy : t'.world.files.Tidy)
        (hsame : SameOutside (dataPlace place) t.world.files t'.world.files) :
        ending (execute fallback args t') = gateEnding (outcome (gated r t'.world)) := by
      refine ending_of_reloaded hargs hmodules hl ?_
      rw [hapart _ htidy hsame, hapart _ hsheltered.toTidy (.refl _ _), outcome_ok, outcome_ok]
    refine ⟨hend, fun hstays => ?_, fun e he hraised => ?_⟩
    · obtain ⟨hsheltered', hsame, hskip⟩ :=
        hsheltered.skips_after hoff hb (hleft.trans (files_of_begins hb hstays))
      rw [hagain hsheltered'.toTidy hsame, gated, hskip]
      rfl
    · have hrun := eq_error_of_outcome he
      obtain ⟨w3, hgate, hsheltered3, hsame, hlast, hbegins⟩ :=
        hsheltered.begins_after hoff hb hrun hraised
      have hw3 : t'.world.files = w3.files := by
        rw [hleft, gated, hgate]
        rfl
      rw [← hw3] at hsheltered3 hsame hlast
      obtain ⟨w1', hb', hsame1⟩ := hbegins t'.world hw3
      have hend' : ending (execute fallback args t') = runEnding (outcome (r.run w1')) := by
        rw [hagain hsheltered3.toTidy hsame, ending_of_begins hb' hsheltered3 hoff]
      refine ⟨hlast, w1', hb', hend', fun hnone hphase htimeless => ?_⟩
      have hfiles1 : w1'.files = w1.files := by
        refine hsame1 hnone ?_
        have hphases := eq_error_of_outcome hphase
        have hfails : r.run w1 = .error e _ := bind_of_error hphases
        rw [hfails]
        exact congrArg Sources.files ((moves_sessions r).of_error hphases)
      have hsources : w1'.sources = w1.sources := by
        rw [World.sources, World.sources, hfiles1, hb'.parser, hparser, hb.parser]
      obtain ⟨-, -, -, hsheltered1, -⟩ := hsheltered.begins hb
      rw [hend', hend, outcome_of_sessions hsheltered1.toWellFormed htimeless hsources hphase]

namespace Sample

/-- A project without pages, at whose root commands are given. -/
def bareFiles : Files where
  entries := [(["p"], .directory), (["p", "app"], .directory), (["p", "next.config.js"], .file [])]
  workingDirectory := ["p"]

def bareProject : Project := ⟨absolute ["p"], some (absolute ["p", "app"]), none, []⟩

/-- A terminal at the root of the project, with one plugin to be named. -/
def terminalOf (plugin : Plugin) : Terminal :=
  ⟨⟨bareFiles, fun _ _ => default, .still 0, "", [], []⟩, [("m", [("a", .plugin plugin)])], ""⟩

/-- Run the plugin if the project has changed, and write nothing. -/
def gatedLine : List Text := ["run", "--plugins", "m:a", "--no-write", "--if-changed"]

/-- The terminal for the second command: a new one over the files that the first has left. -/
def secondOf (t : Terminal) : Terminal :=
  { t with world := { t.world with files := (endState (execute "" gatedLine t)).world.files } }

theorem files_secondOf (t : Terminal) :
    (secondOf t).world.files = (endState (execute "" gatedLine t)).world.files := by
  rw [secondOf]

/-- The digest of the project, which has one file, and that an empty one. -/
def bareDigest : String := "cd372fb85148700fa88095e3492d3f9f5beb43e555e5ff26d95f5a6adc36f8e6"

/-- The file that holds the digest. -/
def bareDigestFile : Path := absolute (digestPlace ["p"] ++ [pluginsDigestKey ++ ".txt"])

def setupFor (plugin : Plugin) : Setup := ⟨bareProject, [plugin], Routes.appRouter, false⟩

theorem loadsApart_bareFiles : LoadsApart bareFiles none bareProject ["p"] :=
  loadsApart_of_working (by decide) rfl (by decide) rfl rfl rfl

theorem loadSetup_misconfigured :
    loadSetup "" none [some "m:a"] false (terminalOf CompileHook.Sample.misconfigured) =
      .ok (setupFor CompileHook.Sample.misconfigured)
        (terminalOf CompileHook.Sample.misconfigured) := by
  have hproject : onWorld (resolveProject none) (terminalOf CompileHook.Sample.misconfigured) =
      .ok bareProject (terminalOf CompileHook.Sample.misconfigured) := by
    have htidy : bareFiles.Tidy := by decide
    rw [onWorld, loadsApart_bareFiles _ htidy (.refl _ _)]
  unfold loadSetup
  rw [bind_of_ok hproject]
  rfl

theorem usableKey_bareFiles : UsableKey ["p"] pluginsDigestKey :=
  ⟨by decide, EntryName.toPathName (by decide), by decide⟩

theorem digest_bareFiles :
    Digest.ofDirectory Sha256.hexText bareFiles bareProject none = .ok bareDigest :=
  ok_of_toOption (by decide +kernel)

theorem lastDigest_bareFiles : lastDigest bareFiles bareProject pluginsDigestKey = .ok none :=
  ok_of_toOption (by decide)

theorem sheltered_terminalOf {plugin : Plugin} (hn : DirectoryName plugin.name)
    (howns : OwnsArtifacts bareFiles ["p"] [plugin.name]) :
    Sheltered bareFiles (setupFor plugin) ["p"] where
  toTidy := by decide
  root_eq := rfl
  directory := rfl
  walkable := Digest.walkable_of_entries (by decide) _ _
  usable := usableKey_bareFiles
  way := by decide
  digest := rfl
  plugins := List.forall_mem_singleton.mpr hn
  owns := howns

end Sample

open Sample

/-- A plugin finds fault with the project. The command ends with the code for it, and so does the
second one. -/
theorem gated_commands_repeat_misconfigured :
    ending (execute "" gatedLine (terminalOf CompileHook.Sample.misconfigured)) = .ok 2 ∧
      ending (execute "" gatedLine (secondOf (terminalOf CompileHook.Sample.misconfigured))) =
        .ok 2 := by
  have hsetup := loadSetup_misconfigured
  have hwrites : observe (fun _ w1 =>
      observeFault (fun e _ => (e.isInterruption, e.isConfiguration))
      ((setupFor CompileHook.Sample.misconfigured).sessions w1)) (Run.changeFiles
        (Files.writeText bareProject.root bareDigestFile bareDigest)
          (terminalOf CompileHook.Sample.misconfigured).world) =
      some (some (false, true)) := by decide +kernel
  obtain ⟨⟨⟩, w1, hwrites, hview⟩ := ok_of_observe hwrites
  obtain ⟨e, w2, hphases, he⟩ := error_of_observeFault hview
  have hrun : (setupFor CompileHook.Sample.misconfigured).run w1 = .error e w2 :=
    bind_of_error hphases
  have hbegins : Begins bareProject pluginsDigestKey none
      (terminalOf CompileHook.Sample.misconfigured).world w1 :=
    ⟨bareDigest, none, bareDigestFile, digest_bareFiles, lastDigest_bareFiles,
      (Option.some_ne_none _).symm, digestPath_of_usable rfl usableKey_bareFiles, hwrites⟩
  have htimeless : ∀ plugin ∈ (setupFor CompileHook.Sample.misconfigured).plugins,
      plugin.Timeless := by
    refine List.forall_mem_singleton.mpr ?_
    rintro phase (h | h | h)
    · cases h
      exact .fail _
    · cases h
    · cases h
  obtain ⟨-, hall⟩ := gated_commands_repeat "" gatedLine none [some "m:a"] rfl
    (terminalOf CompileHook.Sample.misconfigured)
    (secondOf (terminalOf CompileHook.Sample.misconfigured)) rfl rfl (files_secondOf _) ["p"]
    fun r u hr => by
      cases hsetup.symm.trans hr
      exact ⟨sheltered_terminalOf (by decide) (by decide), loadsApart_bareFiles⟩
  obtain ⟨hfirst, -, hraised⟩ := hall _ _ w1 hsetup hbegins
  have houtcome : outcome ((setupFor CompileHook.Sample.misconfigured).run w1) = .error e := by
    rw [hrun, outcome_error]
  obtain ⟨-, _, -, -, hagain⟩ := hraised e houtcome (congrArg Prod.fst he)
  have hcode : faultEnding e = .ok 2 := if_pos (congrArg Prod.snd he)
  rw [houtcome] at hfirst
  have hsecond := hagain lastDigest_bareFiles (by rw [hphases, outcome_error]) htimeless
  exact ⟨hfirst.trans hcode, hsecond.trans (hfirst.trans hcode)⟩

/-- A plugin fails, so that the run is aborted, and the command ends with a code that says so. The
second one skips the run and ends with the code for success. -/
theorem aborted_run_skipped :
    ending (execute "" gatedLine (terminalOf Pipeline.Sample.failing)) = .ok 1 ∧
      ending (execute "" gatedLine (secondOf (terminalOf Pipeline.Sample.failing))) = .ok 0 := by
  have hcodes : (ending (execute "" gatedLine (terminalOf Pipeline.Sample.failing))).toOption =
        some 1 ∧
      (ending (execute "" gatedLine (secondOf (terminalOf Pipeline.Sample.failing)))).toOption =
        some 0 := by decide +kernel
  exact hcodes.imp ok_of_toOption ok_of_toOption

end Cli

end RoutePlugins
