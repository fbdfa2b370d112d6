import RoutePlugins.Proofs.Digest.GateMemory

/-!
# Gates over time

Files are edited, work is brought to the gate, and digests are forgotten, in any order. After any
number of such steps the work that is brought to the gate next is done exactly if the digest that is
remembered for its key is not that of the directory.
-/

namespace RoutePlugins.Gate

open Files

/-! ### Steps -/

/-- What can happen between two looks at a gate. -/
inductive Step : Type 1 where
  /-- Something outside changes. -/
  | edit (change : World → World)
  /-- Work is brought to the gate. -/
  | call {α : Type} (key : Text) (dir : Option Path) (work : Run α)
  /-- The digest of a key is forgotten. -/
  | drop (key : Text)
  /-- All digests are forgotten. -/
  | clear

namespace Step

/-- What a step leaves, whether it fails or not. -/
def run (project : Project) : Step → World → World
  | .edit change, w => change w
  | .call key dir work, w => endState (runIfChanged project key work dir w)
  | .drop key, w => endState (forget project key w)
  | .clear, w => endState (reset project w)

/-- What is to be remembered after work was done: the digest that was found, unless the work
failed. An interruption is no failure. -/
def noted {α : Type} (current : String) : EStateM.Result Fault World (Option α) → Option String
  | .ok .. => some current
  | .error e _ => if e.isInterruption then some current else none

/-- What is remembered after a step. -/
def remember (project : Project) : Step → World → Memory → Memory
  | .edit _, _, m => m
  | .call key dir work, w, m =>
    match isKey key, Digest.ofDirectory Sha256.hexText w.files project dir with
    | true, .ok current =>
      if m (fileName key) = some current then m
      else m.set key (noted current (runIfChanged project key work dir w))
    | _, _ => m
  | .drop key, _, m => if isKey key then m.set key none else m
  | .clear, _, _ => .none

/-- Edits, and work that is done, leave the directory of digests alone. The keys are refused or
usable. -/
def Allowed (project : Project) (root : Location) : Step → World → Prop
  | .edit change, w => Spares root w.files (change w).files
  | .call key dir work, w => (isKey key = true → UsableKey root key) ∧
    ∀ w1, Begins project key dir w w1 → Spares root w1.files (endState (work w1)).files
  | .drop key, _ => isKey key = true → UsableKey root key
  | .clear, _ => True

/-- The key that a step is about. -/
def key? : Step → Option Text
  | .edit _ => none
  | .call key _ _ => some key
  | .drop key => some key
  | .clear => none

end Step

variable {key : Text} {dir : Option Path} {w w1 u : World}

theorem Begins.returns {α : Type} {project : Project} (h : Begins project key dir w w1)
    {work : Run α} {a : α} (hwork : work w1 = .ok a u) :
    runIfChanged project key work dir w = .ok (some a) u := by
  have hguarded : guarded project key work w1 = .ok a u := by
    rw [guarded, hwork]
  rw [runIfChanged_of_begins h]
  exact bind_of_ok hguarded

theorem Begins.fails {α : Type} {project : Project} {v : World} (h : Begins project key dir w w1)
    {work : Run α} {e : Fault} (hwork : work w1 = .error e u) (he : e.isInterruption = false)
    (hforget : forget project key u = .ok () v) :
    runIfChanged project key work dir w = .error e v := by
  have hguarded : guarded project key work w1 = .error e v := by
    simp only [guarded, hwork, he, Bool.false_eq_true, if_false, hforget]
  rw [runIfChanged_of_begins h]
  exact bind_of_error hguarded

theorem Begins.interrupted {α : Type} {project : Project} (h : Begins project key dir w w1)
    {work : Run α} {e : Fault} (hwork : work w1 = .error e u) (he : e.isInterruption = true) :
    runIfChanged project key work dir w = .error e u := by
  have hguarded : guarded project key work w1 = .error e u := by
    simp only [guarded, hwork, he, if_true]
  rw [runIfChanged_of_begins h]
  exact bind_of_error hguarded

section

variable {project : Project} {root : Location} (hroot : project.root = absolute root)
  (hn : ∀ n ∈ root, EntryName n) {m : Memory} {w : World} (h : Keeps root m w.files)

include hroot hn h

/-- Where another digest is remembered, or none, the work that is brought to a gate is done, once,
and the gate ends as the work does. -/
theorem Keeps.executes {key : Text} (hk : UsableKey root key) {dir : Option Path}
    {current : String} (hc : Digest.ofDirectory Sha256.hexText w.files project dir = .ok current)
    (hm : m (fileName key) ≠ some current) :
    ∃ w1, Begins project key dir w w1 ∧ Keeps root (m.set key current) w1.files ∧
      (∀ l, ¬ l <+: digestPlace root → l ≠ digestPlace root ++ [fileName key] →
        w1.files.entry? l = w.files.entry? l) ∧
      ∀ {α : Type} (work : Run α), Spares root w1.files (endState (work w1)).files →
        (∀ a u, work w1 = .ok a u → runIfChanged project key work dir w = .ok (some a) u) ∧
        (∀ e u, work w1 = .error e u → ∃ v, runIfChanged project key work dir w = .error e v ∧
          ∀ l, l ≠ digestPlace root ++ [fileName key] → v.files.entry? l = u.files.entry? l) ∧
        Keeps root (m.set key (Step.noted current (runIfChanged project key work dir w)))
          (endState (runIfChanged project key work dir w)).files := by
  obtain ⟨w1, hbegins, hkeeps, hsame⟩ := h.begins hroot hn hk hc hm
  refine ⟨w1, hbegins, hkeeps, hsame, fun work hspares => ?_⟩
  cases hwork : work w1 with
  | ok a u =>
    rw [hwork] at hspares
    rw [hbegins.returns hwork]
    refine ⟨fun a' u' heq => ?_, nofun, hkeeps.spared hspares⟩
    cases heq
    rfl
  | error e u =>
    rw [hwork] at hspares
    have hleft : ∃ v, runIfChanged project key work dir w = .error e v ∧
        Keeps root (m.set key (if e.isInterruption then some current else none)) v.files ∧
        ∀ l, l ≠ digestPlace root ++ [fileName key] → v.files.entry? l = u.files.entry? l := by
      cases he : e.isInterruption with
      | true => exact ⟨u, hbegins.interrupted hwork he, hkeeps.spared hspares, fun _ _ => rfl⟩
      | false =>
        obtain ⟨v, hforget, hv, hrest⟩ := (hkeeps.spared hspares).forgets hroot hn hk
        rw [Memory.set_set] at hv
        exact ⟨v, hbegins.fails hwork he hforget, hv, hrest⟩
    obtain ⟨v, hcall, hv, hrest⟩ := hleft
    rw [hcall]
    refine ⟨nofun, fun e' u' heq => ?_, hv⟩
    cases heq
    exact ⟨v, rfl, hrest⟩

/-- A step keeps the files in agreement with the memory. -/
theorem Step.keeps (hf : Fits (digestPlace root)) {s : Step} (hs : s.Allowed project root w) :
    Keeps root (s.remember project w m) (s.run project w).files := by
  cases s with
  | edit change => exact h.spared hs
  | clear =>
    obtain ⟨w', hreset, hw'⟩ := h.resets hroot hn hf
    rw [run, hreset]
    exact hw'
  | drop key =>
    rw [remember]
    split
    · next hkey =>
      obtain ⟨w', hforget, hw', -⟩ := h.forgets hroot hn (hs hkey)
      rw [run, hforget]
      exact hw'
    · next hkey =>
      have hforget : forget project key w = .error (.configuration (.digestKey key)) w := by
        unfold forget
        rw [digestPath_of_not_isKey (by simpa using hkey)]
        rfl
      rw [run, hforget]
      exact h
  | call key dir work =>
    obtain ⟨husable, hwork⟩ := hs
    rw [remember, run]
    cases hc : Digest.ofDirectory Sha256.hexText w.files project dir with
    | error e =>
      rw [runIfChanged_of_error work hc]
      cases isKey key with
      | true => exact h
      | false => exact h
    | ok current =>
      cases hkey : isKey key with
      | false =>
        rw [runIfChanged_of_not_isKey work hkey hc]
        exact h
      | true =>
        dsimp only
        split
        · next hm =>
          rw [h.skips hroot hn (husable hkey) hc hm work]
          exact h
        · next hm =>
          obtain ⟨w1, hbegins, -, -, hall⟩ := h.executes hroot hn (husable hkey) hc hm
          exact (hall work (hwork w1 hbegins)).2.2

/-- Work that changes no files may be brought to the gate. -/
theorem Keeps.allows {key : Text} (hk : UsableKey root key) (dir : Option Path) {α : Type}
    {work : Run α} (hquiet : ∀ w1, (endState (work w1)).files = w1.files) :
    (Step.call key dir work).Allowed project root w := by
  refine ⟨fun _ => hk, fun w1 hbegins => ?_⟩
  have hb := hbegins
  obtain ⟨current, last, -, hc, hlast, hne, -⟩ := hb
  have hm : m (fileName key) ≠ some current := by
    intro hm
    rw [h.lastDigest hroot hn hk, hm] at hlast
    cases hlast
    exact hne rfl
  obtain ⟨w2, hbegins2, hkeeps, -⟩ := h.begins hroot hn hk hc hm
  rw [hquiet, hbegins.unique hbegins2]
  exact hkeeps.spares_self

end

/-! ### Any number of steps -/

/-- What some steps leave, taken one after the other. -/
def runAll (project : Project) : List Step → World → World
  | [], w => w
  | s :: rest, w => runAll project rest (s.run project w)

/-- What is remembered after some steps. -/
def rememberAll (project : Project) : List Step → World → Memory → Memory
  | [], _, m => m
  | s :: rest, w, m => rememberAll project rest (s.run project w) (s.remember project w m)

/-- Each of some steps is allowed when it is taken. -/
def AllAllowed (project : Project) (root : Location) : List Step → World → Prop
  | [], _ => True
  | s :: rest, w => s.Allowed project root w ∧ AllAllowed project root rest (s.run project w)

theorem keeps_runAll {project : Project} {root : Location} (hroot : project.root = absolute root)
    (hn : ∀ n ∈ root, EntryName n) (hf : Fits (digestPlace root)) {steps : List Step} {m : Memory}
    {w : World} (h : Keeps root m w.files) (hall : AllAllowed project root steps w) :
    Keeps root (rememberAll project steps w m) (runAll project steps w).files := by
  induction steps generalizing m w with
  | nil => exact h
  | cons s rest ih => exact ih (Step.keeps hroot hn h hf hall.1) hall.2

/-- A step about one key leaves what is remembered for others. -/
theorem Step.remember_other {project : Project} {s : Step} {key : Text} (hkey : s.key? = some key)
    (w : World) (m : Memory) {name : Text} (hname : name ≠ fileName key) :
    s.remember project w m name = m name := by
  cases s with
  | edit change => cases hkey
  | clear => cases hkey
  | drop key =>
    cases hkey
    rw [remember]
    split
    · exact m.set_other hname none
    · rfl
  | call key dir work =>
    cases hkey
    cases hk : isKey key with
    | false => simp only [remember, hk]
    | true =>
      cases hc : Digest.ofDirectory Sha256.hexText w.files project dir with
      | error e => simp only [remember, hk, hc]
      | ok current =>
        simp only [remember, hk, hc]
        split
        · rfl
        · exact m.set_other hname _

/-- Begin where there is no directory of digests, and take any number of steps. Then the work that
is brought to the gate under a usable key, for a directory that has a digest, is skipped if that
digest is remembered for the key. Otherwise it is done once, with the digest written and the other
files as they are, and the gate ends as the work does. A directory without a digest and a key that
is refused make the gate fail and change nothing. What is remembered is what is in the files, and a
step about one key does not change it for a key with another file. -/
theorem gate_follows_memory (project : Project) (root : Location)
    (hroot : project.root = absolute root) (hn : ∀ n ∈ root, EntryName n)
    (hf : Fits (digestPlace root)) (w0 : World) (hw : w0.files.WellFormed)
    (hway : w0.files.Open (root ++ [Project.dataDirName]))
    (hnone : w0.files.entry? (digestPlace root) = none) (steps : List Step)
    (hall : AllAllowed project root steps w0) (w : World) (hrun : runAll project steps w0 = w)
    (m : Memory) (hm : rememberAll project steps w0 .none = m) :
    (∀ key dir current, UsableKey root key →
      Digest.ofDirectory Sha256.hexText w.files project dir = .ok current →
      (m (fileName key) = some current → ∀ {α : Type} (work : Run α),
        runIfChanged project key work dir w = .ok none w) ∧
      (m (fileName key) ≠ some current → ∃ w1, Keeps root (m.set key current) w1.files ∧
        (∀ l, ¬ l <+: digestPlace root → l ≠ digestPlace root ++ [fileName key] →
          w1.files.entry? l = w.files.entry? l) ∧
        ∀ {α : Type} (work : Run α), Spares root w1.files (endState (work w1)).files →
          (∀ a u, work w1 = .ok a u → runIfChanged project key work dir w = .ok (some a) u) ∧
          ∀ e u, work w1 = .error e u → ∃ v, runIfChanged project key work dir w = .error e v ∧
            ∀ l, l ≠ digestPlace root ++ [fileName key] →
              v.files.entry? l = u.files.entry? l)) ∧
    (∀ key dir e, Digest.ofDirectory Sha256.hexText w.files project dir = .error e →
      ∀ {α : Type} (work : Run α), runIfChanged project key work dir w = .error e w) ∧
    (∀ key dir, isKey key = false →
      ∃ e, ∀ {α : Type} (work : Run α), runIfChanged project key work dir w = .error e w) ∧
    (∀ key, UsableKey root key →
      lastDigest w.files project key = .ok ((m (fileName key)).map Text.ofString)) ∧
    ∀ s : Step, s.Allowed project root w → ∀ key other, s.key? = some key → UsableKey root other →
      fileName other ≠ fileName key →
      lastDigest (s.run project w).files project other = lastDigest w.files project other := by
  subst hrun hm
  have hkeeps := keeps_runAll hroot hn hf (keeps_none hw hway hnone) hall
  refine ⟨fun key dir current hk hc => ⟨fun hsame α work => hkeeps.skips hroot hn hk hc hsame work,
      fun hne => ?_⟩, fun key dir e hc α work => runIfChanged_of_error work hc,
    fun key dir hk => ?_, fun key hk => hkeeps.lastDigest hroot hn hk,
    fun s hs key other hkey hother hne => ?_⟩
  · obtain ⟨w1, -, hbegun, hsame, hwork⟩ := hkeeps.executes hroot hn hk hc hne
    refine ⟨w1, hbegun, hsame, fun work hspares => ?_⟩
    obtain ⟨hreturns, hfails, -⟩ := hwork work hspares
    exact ⟨hreturns, hfails⟩
  · cases hc : Digest.ofDirectory Sha256.hexText (runAll project steps w0).files project dir with
    | error e => exact ⟨e, fun work => runIfChanged_of_error work hc⟩
    | ok current => exact ⟨_, fun work => runIfChanged_of_not_isKey work hk hc⟩
  · rw [hkeeps.lastDigest hroot hn hother,
      (Step.keeps hroot hn hkeeps hf hs).lastDigest hroot hn hother,
      Step.remember_other hkey _ _ hne]

namespace Sample

/-- A project at `/p` without files. -/
def project : Project := ⟨absolute ["p"], none, none, []⟩

/-- The project in its first state, with some more entries. -/
def start (more : List (Location × Entry)) : World :=
  ⟨⟨(["p"], .directory) :: more, []⟩, fun _ _ => default, .still 0, "", [], []⟩

/-- Work that fails. -/
def failing (label : Text) : Run Unit := throw (.raised label "")

/-- Work that is done under one key, and work that fails under another. -/
def steps : List Step := [.call "k" none (pure () : Run Unit), .call "l" none (failing "Error")]

/-- The gate before work that does nothing. -/
def gate (key : Text) : Run (Option Unit) := runIfChanged project key (pure ()) none

/-- A letter with an accent. -/
def accented : Text := "é"

/-- Two halves of code points that stand for the bytes of that letter. -/
def byteHalves : Text := ⟨[.half 0x4c3, .half 0x4a9]⟩

/-- A key that is too long to name a file. -/
def longKey : Text := ⟨List.replicate 300 (.char 'a')⟩

/-- The key is valid, the project has a digest and none is remembered, but no work is done. -/
def Misses (key : Text) (w : World) : Prop :=
  isKey key = true ∧ w.files.entry? (digestPlace ["p"]) = none ∧
  (∃ d, Digest.ofDirectory Sha256.hexText w.files project none = .ok d) ∧
  ∃ e w', ∀ {α : Type} (work : Run α), runIfChanged project key work none w = .error e w'

end Sample

open Sample

/-- Work was done under one key and failed under another: work is skipped under the first and done
under the second. -/
theorem gate_follows_memory_two_keys :
    AllAllowed project ["p"] steps (start []) ∧
    (∀ {α : Type} (work : Run α), runIfChanged project "k" work none
      (runAll project steps (start [])) = .ok none (runAll project steps (start []))) ∧
    ∃ u, gate "l" (runAll project steps (start [])) = .ok (some ()) u := by
  have hn : ∀ n ∈ (["p"] : Location), EntryName n := by decide +kernel
  have hf : Fits (digestPlace ["p"]) := by decide +kernel
  have hk : UsableKey ["p"] "k" :=
    ⟨by decide +kernel, EntryName.toPathName (by decide +kernel), by decide +kernel⟩
  have hl : UsableKey ["p"] "l" :=
    ⟨by decide +kernel, EntryName.toPathName (by decide +kernel), by decide +kernel⟩
  have hwf : (start []).files.WellFormed := by decide +kernel
  have hway : (start []).files.Open ((["p"] : Location) ++ [Project.dataDirName]) := by
    decide +kernel
  have hnone : (start []).files.entry? (digestPlace ["p"]) = none := by decide +kernel
  have hall : AllAllowed project ["p"] steps (start []) := by
    have hfirst : Step.Allowed project ["p"] (.call "k" none (pure () : Run Unit)) (start []) :=
      (keeps_none hwf hway hnone).allows rfl hn hk none fun _ => rfl
    have hnext := Step.keeps rfl hn (keeps_none hwf hway hnone) hf hfirst
    exact ⟨hfirst, hnext.allows rfl hn hl none fun _ => rfl, trivial⟩
  have hdigest : Digest.ofDirectory Sha256.hexText (runAll project steps (start [])).files project
      none = .ok "" := ok_of_toOption (by decide +kernel)
  obtain ⟨hgate, -⟩ := gate_follows_memory project ["p"] rfl hn hf (start []) hwf hway hnone
    steps hall _ rfl _ rfl
  refine ⟨hall, (hgate "k" none "" hk hdigest).1 (by decide +kernel), ?_⟩
  obtain ⟨w1, hbegun, -, hwork⟩ := (hgate "l" none "" hl hdigest).2 (by decide +kernel)
  exact ⟨w1, (hwork (pure ()) hbegun.spares_self).1 () w1 rfl⟩

/-- No work is done if the data directory is a file or the key is too long. Nor is it done after
other work was interrupted, or was done under a key that names the same file. -/
theorem gate_misses_work :
    Misses "k" (start [(["p", ".routecast"], .file [])]) ∧ Misses longKey (start []) ∧
    (isKey accented = true ∧ isKey byteHalves = true ∧ accented ≠ byteHalves ∧
      ∃ w u, gate accented (start []) = .ok (some ()) w ∧ gate byteHalves w = .ok none u) ∧
    ∃ e w u, runIfChanged project "k" (failing "KeyboardInterrupt") none (start []) = .error e w ∧
      gate "k" w = .ok none u := by
  have hmisses {key : Text} {w : World} (hkey : isKey key = true)
      (hnone : w.files.entry? (digestPlace ["p"]) = none)
      (hlast : (lastDigest w.files project key).toOption = some none)
      (hwrite : ((Digest.ofDirectory Sha256.hexText w.files project none).toOption.bind fun d =>
        (digestPath project key).toOption.bind fun p => observeFault (fun _ _ => ())
          (Run.changeFiles (Files.writeText project.root p d) w)).isSome = true) :
      Misses key w := by
    obtain ⟨⟨⟩, hsome⟩ := Option.isSome_iff_exists.mp hwrite
    obtain ⟨d, hd, hrest⟩ := Option.bind_eq_some_iff.mp hsome
    obtain ⟨p, hp, hfault⟩ := Option.bind_eq_some_iff.mp hrest
    obtain ⟨e, w', hfails, -⟩ := error_of_observeFault hfault
    exact ⟨hkey, hnone, ⟨d, ok_of_toOption hd⟩, e, w', fun work => runIfChanged_of_not_written work
      (ok_of_toOption hd) (ok_of_toOption hlast) (ok_of_toOption hp) hfails⟩
  refine ⟨hmisses (by decide +kernel) (by decide +kernel) (by decide +kernel) (by decide +kernel),
    hmisses (by decide +kernel) (by decide +kernel) (by decide +kernel) (by decide +kernel),
    ⟨by decide +kernel, by decide +kernel, by decide +kernel, ?_⟩, ?_⟩
  · have hrun : observe (fun result w => (result, observe (fun result _ => result)
        (gate byteHalves w))) (gate accented (start [])) = some (some (), some none) := by
      decide +kernel
    obtain ⟨result, w, hran, hview⟩ := ok_of_observe hrun
    obtain ⟨rfl, hskip⟩ := Prod.mk.inj hview
    obtain ⟨again, u, hskipped, rfl⟩ := ok_of_observe hskip
    exact ⟨w, u, hran, hskipped⟩
  · have hrun : observeFault (fun _ w => observe (fun result _ => result) (gate "k" w))
        (runIfChanged project "k" (failing "KeyboardInterrupt") none (start [])) =
        some (some none) := by decide +kernel
    obtain ⟨e, w, hran, hskip⟩ := error_of_observeFault hrun
    obtain ⟨again, u, hskipped, rfl⟩ := ok_of_observe hskip
    exact ⟨e, w, u, hran, hskipped⟩

end RoutePlugins.Gate
