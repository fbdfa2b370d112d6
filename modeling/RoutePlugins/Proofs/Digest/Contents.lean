import RoutePlugins.Proofs.Digest.Directory
import RoutePlugins.Proofs.Digest.Texts

/-!
# What a digest tells

The digest of a directory is made of the contents of its files, in the order in which they are
collected, and of nothing else. Unless hashing collides, it tells these contents apart. So a gate
does not skip its work after files were added, removed or edited, one of these at a time.

It tells no names. A file that is renamed, and keeps its place in the order, leaves the digest as it
is, and a gate skips its work.
-/

namespace RoutePlugins.Digest

open Files

/-! ### Contents from digests -/

/-- The byte strings that are hashed for the digest of files with some contents. -/
def hashedFor (contents : List Bytes) : List Bytes :=
  Utf8.encodeChars (contents.flatMap (Sha256.hexText · |>.toList)) :: contents

/-- No byte string hashed for some contents collides with one hashed for others. -/
def CollisionFree (xs ys : List Bytes) : Prop :=
  ∀ a ∈ hashedFor xs, ∀ b ∈ hashedFor ys, Sha256.hexText a = Sha256.hexText b → a = b

instance (xs ys : List Bytes) : Decidable (CollisionFree xs ys) :=
  inferInstanceAs (Decidable (∀ a ∈ hashedFor xs, ∀ b ∈ hashedFor ys, _))

/-- Items whose pieces have all one length can be told from the pieces put together. -/
theorem eq_of_flatMap_eq {α β : Type} {f : α → List β} {k : Nat} (hk : 0 < k)
    (hf : ∀ a, (f a).length = k) {xs ys : List α}
    (hinj : ∀ x ∈ xs, ∀ y ∈ ys, f x = f y → x = y) (h : xs.flatMap f = ys.flatMap f) : xs = ys := by
  have hlong (a : α) (rest : List α) : (a :: rest).flatMap f ≠ [] := by
    intro hnil
    have hlen := congrArg List.length hnil
    rw [List.flatMap_cons, List.length_append, hf, List.length_nil] at hlen
    omega
  induction xs generalizing ys with
  | nil =>
    cases ys with
    | nil => rfl
    | cons y ys => exact absurd h.symm (hlong y ys)
  | cons x xs ih =>
    cases ys with
    | nil => exact absurd h (hlong x xs)
    | cons y ys =>
      rw [List.flatMap_cons, List.flatMap_cons] at h
      obtain ⟨hhead, htail⟩ := List.append_inj h ((hf x).trans (hf y).symm)
      rw [hinj x (by simp) y (by simp) hhead,
        ih (fun a ha b hb => hinj a (by simp [ha]) b (by simp [hb])) htail]

/-- Without collisions, digests of different contents differ. -/
theorem combined_inj {xs ys : List Bytes} (hfree : CollisionFree xs ys)
    (h : combined Sha256.hexText xs = combined Sha256.hexText ys) : xs = ys := by
  have hne (b : Bytes) : Sha256.hexText b ≠ "" := by
    intro hempty
    have hlen := Sha256.length_hexText b
    rw [hempty] at hlen
    cases hlen
  cases xs with
  | nil =>
    cases ys with
    | nil => rfl
    | cons y ys => exact absurd h.symm (hne _)
  | cons x xs =>
    cases ys with
    | nil => exact absurd h (hne _)
    | cons y ys =>
      have hjoined := Utf8.encodeChars_injective (hfree _ (by simp [hashedFor]) _
        (by simp [hashedFor]) h)
      refine eq_of_flatMap_eq (by decide) Sha256.length_hexText (fun a ha b hb hab => ?_) hjoined
      exact hfree a (List.mem_cons_of_mem _ ha) b (List.mem_cons_of_mem _ hb)
        (String.toList_inj.mp hab)

/-! ### Files from contents -/

/-- A directory whose digest can be taken. -/
structure Digestible (fs : Files) (project : Project) (here : Location) : Prop where
  tidy : fs.Tidy
  directory : fs.entry? here = some .directory
  fits : Fits here
  walkable : Walkable fs project here

/-- The same files count, with the same bytes. -/
def SameFiles (fs gs : Files) (project : Project) (here : Location) : Prop :=
  ∀ rest, (Counts fs project here rest ↔ Counts gs project here rest) ∧
    (Counts fs project here rest → gs.entry? (here ++ rest) = fs.entry? (here ++ rest))

/-- No file that counted has been removed, or none has been added. -/
def OneSided (fs gs : Files) (project : Project) (here : Location) : Prop :=
  (∀ rest, Counts fs project here rest → Counts gs project here rest) ∨
    ∀ rest, Counts gs project here rest → Counts fs project here rest

/-- As many files, with one list among the other, are the same files in the same order. -/
theorem counted_eq_of_subset {fs gs : Files} {project : Project} {here : Location} (ht : fs.Tidy)
    (ht' : gs.Tidy) (hsub : ∀ rest, Counts fs project here rest → Counts gs project here rest)
    (hlen : (counted gs project here).length ≤ (counted fs project here).length) :
    counted fs project here = counted gs project here := by
  have hsubset : counted fs project here ⊆ counted gs project here := fun rest hm =>
    (mem_counted ht'.toWellFormed).mpr (hsub rest ((mem_counted ht.toWellFormed).mp hm))
  have hsubperm := List.subperm_of_subset (nodup_counted ht project here) hsubset
  exact counted_eq_of_perm ht ht' (hsubperm.perm_of_length_le hlen)

/-- If the contents are the same and files were only added or only removed, then none were. -/
theorem sameFiles_of_contents {fs gs : Files} {project : Project} {here : Location} (ht : fs.Tidy)
    (ht' : gs.Tidy) (h : contents fs project here = contents gs project here)
    (hside : OneSided fs gs project here) : SameFiles fs gs project here := by
  have hlen : (counted fs project here).length = (counted gs project here).length := by
    have hlen := congrArg List.length h
    rwa [contents, contents, List.length_map, List.length_map] at hlen
  have hcounted : counted fs project here = counted gs project here := by
    obtain hsub | hsub := hside
    · exact counted_eq_of_subset ht ht' hsub hlen.ge
    · exact (counted_eq_of_subset ht' ht hsub hlen.le).symm
  intro rest
  refine ⟨?_, fun hc => ?_⟩
  · rw [← mem_counted ht.toWellFormed, ← mem_counted ht'.toWellFormed, hcounted]
  · have hm := (mem_counted ht.toWellFormed).mpr hc
    rw [contents, contents, ← hcounted, List.map_inj_left] at h
    obtain ⟨c, hc⟩ := hc.file
    obtain ⟨c', hc'⟩ := ((mem_counted ht'.toWellFormed).mp (hcounted ▸ hm)).file
    have hbytes := h rest hm
    rw [contentAt?, contentAt?, hc, hc'] at hbytes
    rw [hc, hc']
    exact congrArg (some ∘ Entry.file) hbytes.symm

/-! ### What a gate notices -/

/-- Unless hashing collides, two states of a directory have the same digest exactly if the files
that count hold the same bytes in the same order. Then, if files were only added, only removed or
only edited, nothing has changed. So a gate that has done its work in one state and skips it in the
other, with the digest still in its file, has missed at most that files changed their names. -/
theorem digest_identifies_contents (project : Project) (root here : Location) (dir : Option Path)
    (hroot : project.root = absolute root) (hr : root <+: here)
    (hdir : dir.getD project.root = absolute here) (w w' : World)
    (h : Digestible w.files project here) (h' : Digestible w'.files project here)
    (hfree : CollisionFree (contents w.files project here) (contents w'.files project here)) :
    (∃ d d', ofDirectory Sha256.hexText w.files project dir = .ok d ∧
      ofDirectory Sha256.hexText w'.files project dir = .ok d' ∧
      (d = d' ↔ contents w.files project here = contents w'.files project here) ∧
      (d = d' → OneSided w.files w'.files project here →
        SameFiles w.files w'.files project here)) ∧
    ∀ (key : Text) (w1 : World) (α : Type) (work : Run α) (u : World),
      Gate.Begins project key dir w w1 →
      Gate.lastDigest w'.files project key = Gate.lastDigest w1.files project key →
      Gate.runIfChanged project key work dir w' = .ok none u →
      contents w.files project here = contents w'.files project here ∧
      (OneSided w.files w'.files project here → SameFiles w.files w'.files project here) := by
  have hd := ofDirectory_eq h.tidy hroot hr h.directory h.walkable Sha256.hexText hdir
  have hd' := ofDirectory_eq h'.tidy hroot hr h'.directory h'.walkable Sha256.hexText hdir
  rw [if_pos h.fits] at hd
  rw [if_pos h'.fits] at hd'
  have hsame (hc : contents w.files project here = contents w'.files project here) :=
    sameFiles_of_contents h.tidy h'.tidy hc
  refine ⟨⟨_, _, hd, hd', ⟨combined_inj hfree, fun heq => by rw [heq]⟩,
    fun heq => hsame (combined_inj hfree heq)⟩, fun key w1 α work u hbegins hkept hskip => ?_⟩
  obtain ⟨current, hcurrent, hlast⟩ := hbegins.remembers h.tidy.toWellFormed
  obtain ⟨current', hcurrent', hlast', -⟩ := Gate.runIfChanged_eq_none hskip
  rw [hlast', hlast] at hkept
  have hcontents : contents w.files project here = contents w'.files project here := by
    refine combined_inj hfree ?_
    rw [hd] at hcurrent
    rw [hd'] at hcurrent'
    cases hcurrent
    cases hcurrent'
    exact (Text.ofString_injective (Option.some.inj (Except.ok.inj hkept))).symm
  exact ⟨hcontents, hsame hcontents⟩

namespace Sample

def worldOf (fs : Files) : World := ⟨fs, fun _ _ => default, .still 0, "", [], []⟩

/-- A gate before work that does nothing. -/
def gate : Run (Option Unit) := Gate.runIfChanged project "k" (pure ()) none

/-- A project without files. -/
def bare : Files := ⟨[(["p"], .directory)], []⟩

/-- The project with a file and the digest that was remembered before. -/
def grown : Files where
  entries :=
    [(["p"], .directory), (["p", "a.ts"], .file [97]), (["p", ".routecast"], .directory),
      (["p", ".routecast", ".hashes"], .directory),
      (["p", ".routecast", ".hashes", "k.txt"], .file [])]
  workingDirectory := []

/-- A project with one file. -/
def single : Files := ⟨[(["p"], .directory), (["p", "a.ts"], .file [97])], []⟩

/-- Rename the file. -/
def renamed (w : World) : World :=
  { w with files := (w.files.without ["p", "a.ts"]).put ["p", "b.ts"] (.file [97]) }

end Sample

open Sample

/-- A file is added after the work was done: the digest differs, and the work is not skipped. -/
theorem digest_identifies_contents_added :
    (∃ d d', ofDirectory Sha256.hexText bare project none = .ok d ∧
      ofDirectory Sha256.hexText grown project none = .ok d' ∧ d ≠ d') ∧
    (∃ w1, gate (worldOf bare) = .ok (some ()) w1 ∧
      Gate.lastDigest grown project "k" = Gate.lastDigest w1.files project "k") ∧
    ∀ u, gate (worldOf grown) ≠ .ok none u := by
  have hready (fs : Files) (ht : fs.Tidy) (hd : fs.entry? ["p"] = some .directory)
      (he : ∀ e ∈ fs.entries, (∀ t, some e.2 ≠ some (.link t)) ∧ Fits e.1) :
      Digestible fs project ["p"] :=
    ⟨ht, hd, by decide +kernel, walkable_of_entries he _ _⟩
  have hdiffer : contents bare project ["p"] ≠ contents grown project ["p"] := by decide +kernel
  obtain ⟨⟨d, d', hd, hd', hiff, -⟩, hgate⟩ := digest_identifies_contents project ["p"] ["p"] none
    rfl (List.prefix_refl _) rfl (worldOf bare) (worldOf grown)
    (hready bare (by decide +kernel) (by decide +kernel) (by decide +kernel))
    (hready grown (by decide +kernel) (by decide +kernel) (by decide +kernel)) (by decide +kernel)
  have hrun : observe (fun result w => (result, (Gate.lastDigest w.files project "k").toOption))
      (gate (worldOf bare)) = some (some (), some (some ("" : Text))) := by decide +kernel
  obtain ⟨result, w1, hran, hview⟩ := ok_of_observe hrun
  obtain ⟨rfl, hlast⟩ := Prod.mk.inj hview
  have hkept : Gate.lastDigest grown project "k" = Gate.lastDigest w1.files project "k" :=
    (ok_of_toOption (by decide +kernel)).trans (ok_of_toOption hlast).symm
  refine ⟨⟨d, d', hd, hd', fun heq => hdiffer (hiff.mp heq)⟩, ⟨w1, hran, hkept⟩, fun u hskip => ?_⟩
  obtain ⟨w2, hbegins, hwork⟩ := Gate.runIfChanged_eq_some hran
  cases hwork
  exact hdiffer (hgate "k" w1 Unit (pure ()) u hbegins hkept hskip).1

/-- A file is renamed after the work was done: another file counts, but the work is skipped. -/
theorem renamed_file_is_skipped :
    ∃ w1 u, gate (worldOf single) = .ok (some ()) w1 ∧ gate (renamed w1) = .ok none u ∧
      counted single project ["p"] = ([["a.ts"]] : List (List Text)) ∧
      counted (renamed w1).files project ["p"] = ([["b.ts"]] : List (List Text)) := by
  have hrun : observe (fun result w => (result, observe (fun result _ => result) (gate (renamed w)),
      counted (renamed w).files project ["p"])) (gate (worldOf single)) =
      some (some (), some none, ([["b.ts"]] : List (List Text))) := by decide +kernel
  obtain ⟨result, w1, hran, hview⟩ := ok_of_observe hrun
  simp only [Prod.mk.injEq] at hview
  obtain ⟨rfl, hskip, hcounted⟩ := hview
  obtain ⟨again, u, hskipped, rfl⟩ := ok_of_observe hskip
  exact ⟨w1, u, hran, hskipped, by decide +kernel, hcounted⟩

end RoutePlugins.Digest
