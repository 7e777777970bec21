import DesignTokens.Project.Scaffold
import DesignTokens.Proofs.Workspace.Operations

/-!
What starting a project writes. The one file that is never written over is the configuration; the
other files of a new project replace what is there.
-/

namespace DesignTokens

open FileTree Job

namespace Scaffold

/-- How writing files ends: well if none is left, else with a fault of the first one that is. -/
def Ends : List (Path × String) → Except ScaffoldError Unit → Prop
  | [], result => result = .ok ()
  | (p, _) :: _, result => ∃ cause, result = .error (.file p cause) ∨
      ∃ up, p.parent = some up ∧ result = .error (.directory up cause)

/-- A tree comes from a workspace by writing files: these have their texts, and elsewhere directories
were made where nothing was. -/
structure Placed (w : Workspace) (done : List (Path × String)) (t : FileTree) : Prop where
  written : ∀ f ∈ done, t.lookup (w.place.target f.1) = some (.file f.2.toUTF8 w.stamp)
  elsewhere : ∀ l, (∀ f ∈ done, l ≠ w.place.target f.1) →
    t.lookup l = w.place.tree.lookup l ∨
      w.place.tree.lookup l = none ∧ t.lookup l = some .directory

theorem Placed.of_opened {w : Workspace} {t : FileTree} (h : Opened w.place.tree t) :
    Placed w [] t :=
  ⟨fun _ hf => absurd hf List.not_mem_nil, fun l _ => h.lookup l⟩

/-- One more file is written in front of others that go elsewhere. -/
theorem Placed.cons {w : Workspace} {t tree u : FileTree} {p : Path} {text : String}
    {done : List (Path × String)} (hopened : Opened w.place.tree t)
    (hwrite : (⟨t, w.place.current⟩ : Place).write p text.toUTF8 w.stamp = .ok tree)
    (hapart : ∀ f ∈ done, w.place.target f.1 ≠ w.place.target p)
    (h : Placed (withTree w tree) done u) : Placed w ((p, text) :: done) u := by
  obtain ⟨name, -, -, -, -, hfree, rfl⟩ := Place.exists_of_write hwrite
  have htarget : (⟨t, w.place.current⟩ : Place).target p = w.place.target p :=
    Place.target_mk t w.place p
  rw [htarget] at hfree h
  have hne : w.place.target p ≠ [] := by
    intro hnil
    exact hfree (hnil ▸ lookup_nil)
  have hwritten : ∀ f ∈ done, u.lookup (w.place.target f.1) = some (.file f.2.toUTF8 w.stamp) := by
    intro f hf
    have hlookup := h.written f hf
    rwa [withTree_place, Place.target_mk] at hlookup
  have helsewhere : ∀ l, (∀ f ∈ done, l ≠ w.place.target f.1) →
      u.lookup l = (t.set (w.place.target p) (.file text.toUTF8 w.stamp)).lookup l ∨
        (t.set (w.place.target p) (.file text.toUTF8 w.stamp)).lookup l = none ∧
          u.lookup l = some .directory := by
    intro l hl
    refine h.elsewhere l fun f hf => ?_
    rw [withTree_place, Place.target_mk]
    exact hl f hf
  refine ⟨List.forall_mem_cons.mpr ⟨?_, hwritten⟩, ?_⟩
  · have hself := lookup_set_self (t := t) (n := .file text.toUTF8 w.stamp) hne
    rcases helsewhere (w.place.target p) fun f hf => (hapart f hf).symm with hsame | ⟨hnone, -⟩
    · exact hsame.trans hself
    · exact absurd (hself.symm.trans hnone) nofun
  · intro l hl
    obtain ⟨hp, hdone⟩ := List.forall_mem_cons.mp hl
    have hset := lookup_set_of_ne (t := t) (n := .file text.toUTF8 w.stamp) hne hp
    rcases hopened.lookup l with hbefore | ⟨hnone, hdirectory⟩
    · rcases helsewhere l hdone with hsame | ⟨hnone, hdirectory⟩
      · exact .inl (hsame.trans (hset.trans hbefore))
      · exact .inr ⟨hbefore ▸ hset ▸ hnone, hdirectory⟩
    · right
      refine ⟨hnone, ?_⟩
      rcases helsewhere l hdone with hsame | ⟨-, hdirectory'⟩
      · exact hsame.trans (hset.trans hdirectory)
      · exact hdirectory'

/-- Writing files that go to different places: those up to the first that fails are written. -/
theorem exec_writeAll {files : List (Path × String)} {w : Workspace}
    (hapart : (files.map fun f => w.place.target f.1).Nodup) :
    ∃ done rest t, files = done ++ rest ∧ (exec (writeAll files) w).2 = withTree w t ∧
      Ends rest (exec (writeAll files) w).1 ∧ Placed w done t := by
  induction files generalizing w with
  | nil => exact ⟨[], [], w.place.tree, rfl, rfl, rfl, .of_opened (.refl _)⟩
  | cons file files ih =>
      obtain ⟨p, text⟩ := file
      obtain ⟨hp, hfiles⟩ := List.nodup_cons.mp hapart
      obtain ⟨t, hopened, -, ⟨tree, htree, hrun⟩ | ⟨e, he, hrun⟩⟩ :=
        exec_writeText ScaffoldError.directory (.file p) p text w
      · have hfiles' : (files.map fun f => (withTree w tree).place.target f.1).Nodup := by
          simp only [withTree_place, Place.target_mk]
          exact hfiles
        obtain ⟨done, rest, u, rfl, hafter, hends, hplaced⟩ := ih hfiles'
        have hexec : exec (writeAll ((p, text) :: (done ++ rest))) w =
            exec (writeAll (done ++ rest)) (withTree w tree) := by
          rw [writeAll, exec_bind, hrun]
        refine ⟨(p, text) :: done, rest, u, rfl, ?_, ?_, .cons hopened htree ?_ hplaced⟩
        · rw [hexec, hafter]
          rfl
        · rw [hexec]
          exact hends
        · intro f hf heq
          exact hp (List.mem_map.mpr ⟨f, List.mem_append_left _ hf, heq⟩)
      · have hexec : exec (writeAll ((p, text) :: files)) w = (.error e, withTree w t) := by
          rw [writeAll, exec_bind, hrun]
        refine ⟨[], (p, text) :: files, t, rfl, ?_, ?_, .of_opened hopened⟩
        · rw [hexec]
        · rw [hexec]
          rcases he with ⟨cause, rfl⟩ | ⟨up, cause, hup, rfl⟩
          · exact ⟨cause, .inl rfl⟩
          · exact ⟨cause, .inr ⟨up, hup, rfl⟩⟩

/-- Where the files of a new project go, seen from its directory. -/
def places : List Location :=
  [["sando.toml"], ["tokens", "ingredients", "color.json"],
    ["tokens", "flavors", "original", "flavor.json"],
    ["tokens", "flavors", "original", "flavor-dark.json"], ["tokens", "recipes", "button.json"],
    [".gitignore"], ["README.md"]]

theorem targets_files (w : Place) (dir : Path) (name : String) :
    ((files dir name).map fun f => w.target f.1) = places.map (w.target dir ++ ·) := by
  have htarget : ∀ (p : Path) (child : String) (l : Location), child.toList.head? ≠ some '/' →
      Path.steps ⟨child⟩ = l → (∀ step ∈ l, ProperName step) →
        w.target (p.join child) = w.target p ++ l := by
    intro p child l hhead hsteps hproper
    rw [Place.target_join_relative p hhead, hsteps, descend_of_proper _ hproper]
  have htokens : w.target (dir.join "tokens") = w.target dir ++ ["tokens"] :=
    htarget dir _ _ (by decide) (by decide +kernel) (by decide)
  have hbelow : ∀ (child : String) (l : Location), child.toList.head? ≠ some '/' →
      Path.steps ⟨child⟩ = l → (∀ step ∈ l, ProperName step) →
        w.target ((dir.join "tokens").join child) = w.target dir ++ "tokens" :: l := by
    intro child l hhead hsteps hproper
    rw [htarget _ child l hhead hsteps hproper, htokens, List.append_assoc]
    rfl
  have hconfig := htarget dir configFileName ["sando.toml"] (by decide) (by decide +kernel)
    (by decide)
  have hignore := htarget dir ".gitignore" [".gitignore"] (by decide) (by decide +kernel)
    (by decide)
  have hreadme := htarget dir "README.md" ["README.md"] (by decide) (by decide +kernel)
    (by decide)
  have hcolor := hbelow "ingredients/color.json" ["ingredients", "color.json"] (by decide)
    (by decide +kernel) (by decide)
  have hflavor := hbelow "flavors/original/flavor.json" ["flavors", "original", "flavor.json"]
    (by decide) (by decide +kernel) (by decide)
  have hdark := hbelow "flavors/original/flavor-dark.json"
    ["flavors", "original", "flavor-dark.json"] (by decide) (by decide +kernel) (by decide)
  have hbutton := hbelow "recipes/button.json" ["recipes", "button.json"] (by decide)
    (by decide +kernel) (by decide)
  have hfiles : (files dir name).map Prod.fst = [dir.join configFileName,
      (dir.join "tokens").join "ingredients/color.json",
      (dir.join "tokens").join "flavors/original/flavor.json",
      (dir.join "tokens").join "flavors/original/flavor-dark.json",
      (dir.join "tokens").join "recipes/button.json", dir.join ".gitignore",
      dir.join "README.md"] := rfl
  rw [← Function.comp_def, ← List.map_map, hfiles]
  simp only [List.map_cons, List.map_nil, hconfig, hcolor, hflavor, hdark, hbutton, hignore,
    hreadme, places]

theorem nodup_targets (w : Place) (dir : Path) (name : String) :
    ((files dir name).map fun f => w.target f.1).Nodup := by
  rw [targets_files]
  exact List.Nodup.map (List.append_right_injective _) (by decide)

theorem exec_create (dir : Path) (name : String) (w : Workspace) :
    exec (create dir name) w =
      if w.place.pathExists (dir.join configFileName) then
        (.error (.alreadyExists (dir.join configFileName)), w)
      else exec (writeAll (files dir name)) w := by
  rw [create, exec_bind, exec_place]
  dsimp only
  split
  · rw [exec_bind, exec_throw]
  · rfl

/-- Starting a project is refused where its configuration is. Else its files are written one after
the other up to the first that cannot be, in place of files that are there, and nothing else changes
apart from directories that were missing. -/
theorem create_cases (dir : Path) (name : String) (w : Workspace) :
    if w.place.pathExists (dir.join configFileName) then
      exec (create dir name) w = (.error (.alreadyExists (dir.join configFileName)), w)
    else
      ∃ done rest t, files dir name = done ++ rest ∧ (exec (create dir name) w).2 = withTree w t ∧
        Ends rest (exec (create dir name) w).1 ∧ Placed w done t := by
  rw [exec_create]
  split
  · rfl
  · exact exec_writeAll (nodup_targets w.place dir name)

/-- Every file of a project that was started has its text. -/
theorem placed_of_create {dir : Path} {name : String} {w : Workspace}
    (h : (exec (create dir name) w).1 = .ok ()) :
    ∃ t, (exec (create dir name) w).2 = withTree w t ∧ Placed w (files dir name) t := by
  rw [exec_create] at h ⊢
  split at h
  · cases h
  · rename_i hnew
    rw [if_neg hnew]
    obtain ⟨done, rest, t, hfiles, hafter, hends, hplaced⟩ :=
      exec_writeAll (nodup_targets w.place dir name)
    cases rest with
    | nil =>
        rw [List.append_nil] at hfiles
        exact ⟨t, hafter, hfiles ▸ hplaced⟩
    | cons f rest =>
        obtain ⟨p, text⟩ := f
        obtain ⟨cause, hfailed | ⟨up, -, hfailed⟩⟩ := hends
        · exact absurd (h.symm.trans hfailed) nofun
        · exact absurd (h.symm.trans hfailed) nofun

/-- A directory with one file in it. -/
def notedPlace : Workspace :=
  ⟨⟨⟨[(["README.md"], .file "mine\n".toUTF8 0)]⟩, []⟩, 1, 0, []⟩

/-- A project is started beside a file of the user, and that file is another one afterwards. -/
theorem create_overwrites_readme :
    notedPlace.place.tree.lookup ["README.md"] = some (.file "mine\n".toUTF8 0) ∧
      (exec (create ⟨"."⟩ "acme") notedPlace).1 = .ok () ∧
      (exec (create ⟨"."⟩ "acme") notedPlace).2.place.tree.lookup ["README.md"] =
        some (.file (readmeText "acme").toUTF8 1) ∧
      (readmeText "acme").toUTF8 ≠ "mine\n".toUTF8 := by
  have hdone : (exec (create ⟨"."⟩ "acme") notedPlace).1 = .ok () := by decide +kernel
  obtain ⟨t, hafter, hplaced⟩ := placed_of_create hdone
  have hwritten : t.lookup (notedPlace.place.target (Path.join ⟨"."⟩ "README.md")) =
      some (.file (readmeText "acme").toUTF8 1) := by
    refine hplaced.written (Path.join ⟨"."⟩ "README.md", readmeText "acme") ?_
    rw [files]
    simp
  have htarget : notedPlace.place.target (Path.join ⟨"."⟩ "README.md") = ["README.md"] := by
    decide +kernel
  refine ⟨rfl, hdone, ?_, by decide +kernel⟩
  rw [hafter, withTree_place, ← hwritten, htarget]

end Scaffold

end DesignTokens
