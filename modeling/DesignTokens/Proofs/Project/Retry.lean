import DesignTokens.Proofs.Project.Removal
import DesignTokens.Proofs.Project.Scaffold
import DesignTokens.Proofs.Workspace.Obstacles

/-!
What is left of a project that could not be started. The configuration is the first file that is
written, so it stays behind when a later file fails, and then the project cannot be started again.
-/

namespace DesignTokens

open FileTree Job Place

namespace Scaffold

variable {dir q : Path} {name : String} {w : Workspace} {n : Node}

/-- What is at a path stays there while a text is written to another place. -/
theorem node_writeText (refuseDirectory : Path → FileError → ScaffoldError)
    (refuseFile : FileError → ScaffoldError) {p : Path} (text : String)
    (hne : w.place.target q ≠ w.place.target p) (h : w.place.node q = .ok n) :
    (exec (writeText refuseDirectory refuseFile p text) w).2.place.node q = .ok n := by
  obtain ⟨tree, hafter, -, hlookup⟩ := lookup_writeText refuseDirectory refuseFile p text w
  rw [hafter]
  refine Place.node_of_stays (w := w.place) (fun l hl => ?_) (fun hq => ?_) h
  · rcases hlookup l with hsame | ⟨-, hnone, -⟩ | ⟨-, hfree⟩
    · exact hsame.trans hl
    · exact absurd (hl.symm.trans hnone) nofun
    · exact absurd hl hfree
  · rcases hlookup (w.place.target q) with hsame | ⟨-, hnone, -⟩ | ⟨hq', -⟩
    · exact hsame.trans hq
    · exact absurd (hq.symm.trans hnone) nofun
    · exact absurd hq' hne

theorem node_writeAll {files : List (Path × String)}
    (hne : ∀ f ∈ files, w.place.target q ≠ w.place.target f.1) (h : w.place.node q = .ok n) :
    (exec (writeAll files) w).2.place.node q = .ok n := by
  induction files generalizing w with
  | nil => exact h
  | cons file files ih =>
    obtain ⟨p, text⟩ := file
    obtain ⟨hp, hfiles⟩ := List.forall_mem_cons.mp hne
    have hstep := node_writeText ScaffoldError.directory (ScaffoldError.file p) text hp h
    obtain ⟨tree, hafter, -⟩ :=
      lookup_writeText ScaffoldError.directory (ScaffoldError.file p) p text w
    rw [writeAll, exec_bind]
    rcases hrun : exec (writeText ScaffoldError.directory (ScaffoldError.file p) p text) w with
      ⟨_ | _, after⟩
    · rw [hrun] at hstep
      exact hstep
    · rw [hrun] at hstep hafter
      obtain rfl : after = withTree w tree := hafter
      refine ih (w := withTree w tree) ?_ hstep
      simp only [withTree_place, Place.target_mk]
      exact hfiles

/-- The files of a new project behind its configuration. -/
def laterFiles (dir : Path) (name : String) : List (Path × String) :=
  (files dir name).tail

theorem files_eq (dir : Path) (name : String) :
    files dir name =
      (dir.join configFileName, (Config.new name).toToml) :: laterFiles dir name := rfl

/-- Writes the configuration of a new project. -/
def writeConfig (dir : Path) (name : String) : Job ScaffoldError Unit :=
  writeText .directory (.file (dir.join configFileName)) (dir.join configFileName)
    (Config.new name).toToml

theorem exec_create_of_free (h : w.place.pathExists (dir.join configFileName) = false) :
    exec (create dir name) w =
      match exec (writeConfig dir name) w with
      | (.ok _, after) => exec (writeAll (laterFiles dir name)) after
      | (.error e, after) => (.error e, after) := by
  rw [exec_create, h, if_neg (by decide), files_eq, writeAll, exec_bind, writeConfig]
  generalize exec (writeText _ _ _ _) w = run
  obtain ⟨_ | _, after⟩ := run
  · rfl
  · rfl

theorem isFile_iff_node {p : Path} {w : Place} :
    w.isFile p ↔ ∃ content modified, w.node p = .ok (.file content modified) := by
  rw [isFile]
  cases w.node p with
  | error e => simp
  | ok n => cases n <;> simp

theorem of_isFile_config {t : FileTree}
    (h : (withTree w t).place.isFile (dir.join configFileName)) :
    t.Passable (w.place.route dir) ∧ t.IsFile (w.place.target dir ++ [configFileName]) := by
  obtain ⟨content, modified, hnode⟩ := isFile_iff_node.mp h
  have hfound := (node_join_eq_ok_iff Config.proper_configFileName).mp hnode
  rw [withTree_place, Place.route_mk, Place.target_mk] at hfound
  exact hfound.imp_right fun hlookup => ⟨content, modified, hlookup⟩

/-- Where the configuration cannot be written, no file is in its place afterwards. -/
theorem not_isFile_of_unwritten {e : ScaffoldError} (hwf : w.place.tree.WellFormed)
    (hcurrent : w.place.tree.lookup w.place.current = some .directory)
    (h : (exec (writeConfig dir name) w).1 = .error e) :
    ¬ (exec (writeConfig dir name) w).2.place.isFile (dir.join configFileName) := by
  have horigin : w.place.tree.lookup (w.place.origin dir) = some .directory := by
    rw [Place.origin]
    split
    · exact lookup_nil
    · exact hcurrent
  obtain ⟨t, clear, hopen⟩ : ∃ t clear, w.place.tree.openWay (w.place.route dir) = (t, clear) :=
    ⟨_, _, rfl⟩
  have hexec := exec_writeText_join ScaffoldError.directory
    (ScaffoldError.file (dir.join configFileName)) Config.proper_configFileName
    (Config.new name).toToml hwf horigin hopen
  rw [← writeConfig] at hexec
  rw [hexec] at h ⊢
  intro hfile
  cases clear with
  | false =>
    -- a file is on the way to the directory, so the path leads nowhere
    obtain ⟨l, hl, hblocks⟩ := openWay_eq_false_iff.mp (congrArg Prod.snd hopen)
    obtain ⟨content, modified, hlookup⟩ := isFile_openWay_iff.mpr hblocks
    rw [hopen] at hlookup
    cases ((of_isFile_config hfile).1 l hl).symm.trans hlookup
  | true =>
    rw [if_pos rfl] at h hfile
    split at h
    · rename_i hdirectory
      rw [if_pos hdirectory] at hfile
      obtain ⟨content, modified, hlookup⟩ := (of_isFile_config hfile).2
      cases hdirectory.symm.trans hlookup
    · cases h

/-- Starting a project is refused for its configuration exactly where something has its path. -/
theorem create_refused_iff :
    exec (create dir name) w = (.error (.alreadyExists (dir.join configFileName)), w) ↔
      w.place.pathExists (dir.join configFileName) := by
  rw [exec_create]
  split
  · rename_i hexists
    exact ⟨fun _ => hexists, fun _ => rfl⟩
  · rename_i hfree
    refine ⟨fun h => ?_, fun h => absurd h hfree⟩
    obtain ⟨done, rest, t, -, -, hends, -⟩ := exec_writeAll (nodup_targets w.place dir name)
    rw [h] at hends
    cases rest with
    | nil => cases hends
    | cons f rest =>
      obtain ⟨cause, hfailed | ⟨up, -, hfailed⟩⟩ := hends
      · cases hfailed
      · cases hfailed

theorem ends_of_unwritten {e : ScaffoldError} (rest : List (Path × String))
    (h : (exec (writeConfig dir name) w).1 = .error e) :
    Ends ((dir.join configFileName, (Config.new name).toToml) :: rest) (.error e) := by
  obtain ⟨t, -, -, ⟨tree, -, hrun⟩ | ⟨e', he, hrun⟩⟩ :=
    exec_writeText ScaffoldError.directory (ScaffoldError.file (dir.join configFileName))
      (dir.join configFileName) (Config.new name).toToml w
  · rw [writeConfig, hrun] at h
    cases h
  · rw [writeConfig, hrun] at h
    cases h
    rcases he with ⟨cause, rfl⟩ | ⟨up, cause, hup, rfl⟩
    · exact ⟨cause, .inl rfl⟩
    · exact ⟨cause, .inr ⟨up, hup, rfl⟩⟩

/-- Once the configuration is written, it stays while the later files are. -/
theorem readText_of_written {after : Workspace}
    (h : exec (writeConfig dir name) w = (.ok (), after)) :
    after.place.current = w.place.current ∧
      (exec (writeAll (laterFiles dir name)) after).2.place.readText (dir.join configFileName) =
        .ok (Config.new name).toToml := by
  obtain ⟨tree, htree, -⟩ := lookup_writeText ScaffoldError.directory
    (ScaffoldError.file (dir.join configFileName)) (dir.join configFileName)
    (Config.new name).toToml w
  rw [← writeConfig, h] at htree
  obtain rfl : after = withTree w tree := htree
  rcases exec_writeText_cases ScaffoldError.directory
    (ScaffoldError.file (dir.join configFileName)) (dir.join configFileName)
    (Config.new name).toToml w with ⟨modified, -, hnode⟩ | ⟨e, herror, -⟩
  · rw [← writeConfig, h] at hnode
    refine ⟨rfl, readText_of_node (node_writeAll ?_ hnode)⟩
    have hapart := nodup_targets w.place dir name
    rw [files_eq, List.map_cons, List.nodup_cons] at hapart
    intro f hf heq
    simp only [withTree_place, Place.target_mk] at heq
    exact hapart.1 (List.mem_map.mpr ⟨f, hf, heq.symm⟩)
  · rw [← writeConfig, h] at herror
    cases herror

/-- If a project cannot be started, its configuration is left behind exactly if it was written: with
its text if the first file to fail is a later one, and not as a file if it is the configuration
itself. What stands there then decides whether the project can be started later. -/
theorem create_failed {e : ScaffoldError} (hwf : w.place.tree.WellFormed)
    (hcurrent : w.place.tree.lookup w.place.current = some .directory)
    (hfree : w.place.pathExists (dir.join configFileName) = false)
    (h : (exec (create dir name) w).1 = .error e) :
    ∃ done failed rest, files dir name = done ++ failed :: rest ∧
      Ends (failed :: rest) (.error e) ∧
      (done = [] → ¬ (exec (create dir name) w).2.place.isFile (dir.join configFileName)) ∧
      (done ≠ [] → (exec (create dir name) w).2.place.readText (dir.join configFileName) =
        .ok (Config.new name).toToml) ∧
      ∀ again later, exec (create dir again) later =
        (.error (.alreadyExists (dir.join configFileName)), later) ↔
          later.place.pathExists (dir.join configFileName) := by
  rw [exec_create_of_free hfree] at h ⊢
  rcases hconfig : exec (writeConfig dir name) w with ⟨cause | _, after⟩
  · simp only [hconfig] at h ⊢
    obtain rfl : cause = e := Except.error.inj h
    have hunwritten := not_isFile_of_unwritten hwf hcurrent (congrArg Prod.fst hconfig)
    rw [hconfig] at hunwritten
    exact ⟨[], _, laterFiles dir name, files_eq dir name,
      ends_of_unwritten _ (congrArg Prod.fst hconfig), fun _ => hunwritten,
      fun hdone => absurd rfl hdone, fun _ _ => create_refused_iff⟩
  · simp only [hconfig] at h ⊢
    obtain ⟨hcurrent, htext⟩ := readText_of_written hconfig
    have hapart : ((laterFiles dir name).map fun f => after.place.target f.1).Nodup := by
      have hall := nodup_targets after.place dir name
      rw [files_eq, List.map_cons, List.nodup_cons] at hall
      exact hall.2
    obtain ⟨done, rest, t, hlater, -, hends, -⟩ := exec_writeAll hapart
    rw [h] at hends
    cases rest with
    | nil => cases hends
    | cons failed rest =>
      have hfiles : files dir name =
          ((dir.join configFileName, (Config.new name).toToml) :: done) ++ failed :: rest := by
        rw [files_eq, hlater, List.cons_append]
      exact ⟨_, failed, rest, hfiles, hends, fun hnone => absurd hnone (List.cons_ne_nil _ _),
        fun _ => htext, fun _ _ => create_refused_iff⟩

/-- A directory with a file where the tokens of a project would go. -/
def blockedPlace : Workspace :=
  ⟨⟨⟨[(["tokens"], .file "mine\n".toUTF8 0)]⟩, []⟩, 1, 0, []⟩

/-- The file stops a project at its second file, and the configuration is there by then. -/
theorem create_failed_blocked :
    blockedPlace.place.pathExists (Path.join ⟨"."⟩ configFileName) = false ∧
      (exec (create ⟨"."⟩ "work") blockedPlace).1 =
        .error (.directory ⟨"./tokens/ingredients"⟩ .notDirectory) ∧
      (exec (create ⟨"."⟩ "work") blockedPlace).2.place.readText (Path.join ⟨"."⟩ configFileName) =
        .ok (Config.new "work").toToml := by
  have hwf : blockedPlace.place.tree.WellFormed := by decide +kernel
  have hfree : blockedPlace.place.pathExists (Path.join ⟨"."⟩ configFileName) = false := by
    decide +kernel
  have hfailed : (exec (create ⟨"."⟩ "work") blockedPlace).1 =
      .error (.directory ⟨"./tokens/ingredients"⟩ .notDirectory) := by
    decide +kernel
  obtain ⟨done, failed, rest, -, -, hnone, hsome, -⟩ := create_failed hwf rfl hfree hfailed
  exact ⟨hfree, hfailed, hsome fun hdone => hnone hdone (by decide +kernel)⟩

/-- After a project failed to start it cannot be started, though what stood in its way is gone. -/
theorem create_refused_after_failure :
    let failed := exec (create ⟨"."⟩ "work") blockedPlace
    let cleared := withTree failed.2 (failed.2.place.tree.prune ["tokens"])
    blockedPlace.place.pathExists (Path.join ⟨"."⟩ configFileName) = false ∧
      failed.1 = .error (.directory ⟨"./tokens/ingredients"⟩ .notDirectory) ∧
      failed.2.place.pathExists (Path.join ⟨"."⟩ configFileName) ∧
      exec (create ⟨"."⟩ "work") cleared =
        (.error (.alreadyExists (Path.join ⟨"."⟩ configFileName)), cleared) := by
  intro failed cleared
  have hfree : blockedPlace.place.pathExists (Path.join ⟨"."⟩ configFileName) = false := by
    decide +kernel
  have hfailed : failed.1 = .error (.directory ⟨"./tokens/ingredients"⟩ .notDirectory) := by
    decide +kernel
  have hleft : failed.2.place.pathExists (Path.join ⟨"."⟩ configFileName) := by
    decide +kernel
  have hcleared : cleared.place.pathExists (Path.join ⟨"."⟩ configFileName) := by
    decide +kernel
  exact ⟨hfree, hfailed, hleft, create_refused_iff.mpr hcleared⟩

end Scaffold

end DesignTokens
