import RoutePlugins.Pipeline.CompileHook
import RoutePlugins.Proofs.Digest.Gate
import RoutePlugins.Proofs.Pipeline.AbortSafety

/-!
# Failures of a compile hook

A hook that fails while it hashes the project or runs the plugins serves nothing afterwards. If the
plugins had begun to run, no digest is remembered either, and the next run is not skipped. But a
hook that fails before that, while it hashes, leaves the digest of an earlier run: once the project
is again what it was then, the next run is skipped.
-/

namespace RoutePlugins

namespace Pipeline

open World Files

/-- A run only writes files. -/
theorem Setup.moves_run (r : Setup) : Moves (OnFiles (Writes fun _ => True)) r.run := by
  have hhistory : ∀ w history, OnFiles (Writes fun _ => True) w { w with history } :=
    fun w _ => refl_of (Writes fun _ => True) w.files
  refine (moves_sessions r).onFiles.bind fun sessions => ?_
  have hnames : ∀ s ∈ sessions, s.plugin.name ∈ sessions.map (·.plugin.name) :=
    fun s hs => List.mem_map_of_mem hs
  have hsettle : Moves (OnFiles (Writes fun _ => True)) (settleAll r.project sessions) :=
    (moves_settleAll hnames).mono fun _ _ h => Writes.mono (fun _ _ => trivial) h
  refine hsettle.bind fun settled => moves_endingStores hhistory sessions (Moves.ite ?_ ?_)
  · exact moves_conclude_of (fun _ _ h => OnFiles.of_sameSources h)
      (fun _ => moves_writeTexts_of fun _ _ _ => moves_writeStaged _ trivial) sessions
  · exact (moves_showAbort _ _ _).onFiles

end Pipeline

namespace CompileHook

open World Files

/-- A run that is skipped was skipped by the gate. -/
theorem gate_of_run_eq_none {h h' : CompileHook} {w w' : World}
    (hrun : run (w, h) = .ok none (w', h')) :
    Gate.runIfChanged h.setup.project pluginsDigestKey h.setup.run none w = .ok none w := by
  dsimp only [run] at hrun
  split at hrun
  · cases hrun
  split at hrun
  · cases hrun
  · cases hrun
  next u hgate =>
  obtain ⟨-, -, -, rfl⟩ := Gate.runIfChanged_eq_none hgate
  exact hgate

/-- A hook that fails while it hashes or runs the plugins, other than by an interruption, remembers
no result and serves every file as it is given. If the plugins had begun to run, no digest is
remembered, and no later run over the same files is skipped. If they had not, no file has changed,
so a digest that was remembered still is; and if the project could not be hashed, nothing at all
has. -/
theorem failed_run (h : CompileHook) (w w' : World) (e : Fault) (hw : w.files.WellFormed)
    (hdistinct : Plugin.checkDistinct h.setup.plugins = .ok ())
    (hgate : Gate.runIfChanged h.setup.project pluginsDigestKey h.setup.run none w = .error e w')
    (he : e.isInterruption = false) :
    ∃ h', run (w, h) = .error e (w', h') ∧ h'.setup = h.setup ∧ h'.lastResult = none ∧
      (∀ fs file code p, fs.resolve (Path.parse file) = .ok p →
        h'.sourceFor fs file code = .ok code) ∧
      ((∃ w1, Gate.Begins h.setup.project pluginsDigestKey none w w1) →
        (∃ w1 w2, Gate.Begins h.setup.project pluginsDigestKey none w w1 ∧
          h.setup.run w1 = .error e w2) ∧
        Gate.lastDigest w'.files h.setup.project pluginsDigestKey = .ok none ∧
        ∀ v k, v.files = w'.files → k.setup = h.setup → ∀ s, run (v, k) ≠ .ok none s) ∧
      ((¬ ∃ w1, Gate.Begins h.setup.project pluginsDigestKey none w w1) →
        (∀ l, w'.files.contentAt? l = w.files.contentAt? l) ∧
        ∀ d, Gate.lastDigest w.files h.setup.project pluginsDigestKey = .ok (some d) →
          Gate.lastDigest w'.files h.setup.project pluginsDigestKey = .ok (some d)) ∧
      ∀ e', Digest.ofDirectory Sha256.hexText w.files h.setup.project none = .error e' →
        e' = e ∧ w' = w := by
  have hrun : run (w, h) = .error e (w', { h with lastResult := none, served := [] }) := by
    unfold run
    simp only [hdistinct, hgate, he, Bool.false_eq_true, if_false]
  refine ⟨_, hrun, rfl, rfl, fun fs file code p hp => ?_, ?_, ?_, ?_⟩
  · rw [sourceFor, hp]
    rfl
  · rintro ⟨w1, hbegins⟩
    obtain ⟨w1, w2, hb, hwork, hlast⟩ | ⟨hnot, -⟩ :=
      Gate.runIfChanged_eq_error hw h.setup.moves_run he hgate
    · refine ⟨⟨w1, w2, hb, hwork⟩, hlast, fun v k hv hk s hskip => ?_⟩
      obtain ⟨current, -, hcurrent, -⟩ :=
        Gate.runIfChanged_eq_none (gate_of_run_eq_none hskip)
      rw [hv, hk, hlast] at hcurrent
      cases hcurrent
    · exact absurd ⟨w1, hbegins⟩ hnot
  · intro hnot
    obtain ⟨w1, w2, hb, -⟩ | ⟨-, hwritten⟩ :=
      Gate.runIfChanged_eq_error hw h.setup.moves_run he hgate
    · exact absurd ⟨w1, hb⟩ hnot
    · exact ⟨fun l => hwritten.kept l fun _ hf => hf.elim,
        fun d => Gate.lastDigest_of_written hw hwritten⟩
  · intro e' hhash
    unfold Gate.runIfChanged at hgate
    rw [bind_of_error (Run.onFiles_of_error hhash)] at hgate
    cases hgate
    exact ⟨rfl, rfl⟩

/-! ### Two failures -/

namespace Sample

/-- A project without files, but for a link to a name that is too long, below a directory that is
missing. -/
def danglingWorld : World :=
  ⟨⟨[(["proj"], .directory),
      (["proj", "l.ts"], .link (Text.ofString "d/" ++ ⟨List.replicate 300 (.char 'a')⟩))],
      ["proj"]⟩,
    fun _ _ => default, .still 0, "", [], []⟩

/-- A hook that runs one plugin. -/
def hookOf (plugins : List Plugin) : CompileHook :=
  .new ⟨⟨⟨.root, ["proj"]⟩, none, none, []⟩, plugins, fun _ _ => .ok [], false⟩

/-- A plugin that finds fault with the project as it collects. -/
def misconfigured : Plugin :=
  ⟨"m", .map [], some (.fail (.configuration .noPlugins)), none, none, none⟩

/-- The file that holds the digest of the project. -/
def ranPlugins : Path := ⟨.root, ["proj", ".routecast", ".hashes", "ran_plugins.txt"]⟩

/-- Make the directory that the link runs through. -/
def withDirectory (s : World × CompileHook) : World × CompileHook :=
  ({ s.1 with files := s.1.files.put ["proj", "d"] .directory }, s.2)

/-- Remove that directory again. -/
def withoutDirectory (s : World × CompileHook) : World × CompileHook :=
  ({ s.1 with files := s.1.files.without ["proj", "d"] }, s.2)

/-- The digest that is remembered after a run. -/
def digestAfter (s : World × CompileHook) : Option Text :=
  (Gate.lastDigest s.1.files s.2.setup.project pluginsDigestKey).toOption.join

end Sample

open Sample

/-- A plugin finds fault with the project: the digest that was written is forgotten. -/
theorem failed_run_misconfigured :
    ∃ e w' h', run (danglingWorld, hookOf [misconfigured]) = .error e (w', h') ∧
      h'.lastResult = none ∧ Gate.lastDigest w'.files h'.setup.project pluginsDigestKey = .ok none ∧
      ∀ s, run (w', h') ≠ .ok none s := by
  have hout : observeFault (fun e _ => e.isInterruption)
      (Gate.runIfChanged (hookOf [misconfigured]).setup.project pluginsDigestKey
        (hookOf [misconfigured]).setup.run none danglingWorld) = some false := by decide +kernel
  obtain ⟨e, w', hgate, he⟩ := error_of_observeFault hout
  have hwrites : observe (fun _ _ => ()) (Run.changeFiles
      (Files.writeText (hookOf [misconfigured]).setup.project.root ranPlugins "") danglingWorld) =
      some () := by decide +kernel
  obtain ⟨⟨⟩, w1, hwrites, -⟩ := ok_of_observe hwrites
  have hcurrent : Digest.ofDirectory Sha256.hexText danglingWorld.files
      (hookOf [misconfigured]).setup.project none = .ok "" := ok_of_toOption (by decide +kernel)
  have hlast : Gate.lastDigest danglingWorld.files (hookOf [misconfigured]).setup.project
      pluginsDigestKey = .ok none := ok_of_toOption (by decide +kernel)
  have hbegins : Gate.Begins (hookOf [misconfigured]).setup.project pluginsDigestKey none
      danglingWorld w1 :=
    ⟨"", none, ranPlugins, hcurrent, hlast, nofun, rfl, hwrites⟩
  obtain ⟨h', hrun, hsetup, hresult, -, hran, -⟩ :=
    failed_run (hookOf [misconfigured]) danglingWorld w' e (by decide +kernel) rfl hgate he
  obtain ⟨-, hlast, hnext⟩ := hran ⟨w1, hbegins⟩
  exact ⟨e, w', h', hrun, hresult, hsetup ▸ hlast, hnext w' h' rfl hsetup⟩

/-- A hook runs the plugins. Then the project cannot be hashed, because a link in it leads to a name
that is too long, and the hook fails, but the digest of the first run is still remembered. Once the
project is what it was, the next run is skipped. -/
theorem failed_hash_keeps_digest :
    ∃ result s e s' s'', run (danglingWorld, hookOf []) = .ok (some result) s ∧
      run (withDirectory s) = .error e s' ∧ e.isInterruption = false ∧
      digestAfter s' = some ("" : Text) ∧ run (withoutDirectory s') = .ok none s'' := by
  have hfirst : observe (fun result s => (result.isSome,
      observeFault (fun e s' => (e.isInterruption, digestAfter s',
        observe (fun result _ => result.isSome) (run (withoutDirectory s'))))
          (run (withDirectory s))))
      (run (danglingWorld, hookOf [])) =
        some (true, some (false, some ("" : Text), some false)) := by
    decide +kernel
  obtain ⟨result, s, hrun, hview⟩ := ok_of_observe hfirst
  obtain ⟨hresult, hview⟩ := Prod.mk.inj hview
  obtain ⟨e, s', hfailed, hview⟩ := error_of_observeFault hview
  simp only [Prod.mk.injEq] at hview
  obtain ⟨he, hdigest, hview⟩ := hview
  obtain ⟨again, s'', hskipped, hnone⟩ := ok_of_observe hview
  obtain ⟨result, rfl⟩ := Option.isSome_iff_exists.mp hresult
  obtain rfl : again = none := by simpa using hnone
  exact ⟨result, s, e, s', s'', hrun, hfailed, he, hdigest, hskipped⟩

end CompileHook

end RoutePlugins
