import DesignTokens.Proofs.Layer.Operations
import DesignTokens.Proofs.Workspace.Obstacles
import DesignTokens.Proofs.Workspace.Rework

/-!
What a build of a layer makes of a tree of files: nothing is removed outside of the layer's outputs,
no `json` file is written, and after a success the layer's outputs hold only files that are as new as
the build.
-/

namespace DesignTokens

open FileTree Job

/-- The last name of a path that ends like a file name. -/
theorem Path.getLast?_names_of_ending {p : Path} {front ending : List Char} (hne : ending ≠ [])
    (hslash : '/' ∉ ending) (h : p.text.toList = front ++ ending) :
    ∃ start, p.names.getLast? = some (String.ofList (start ++ ending)) := by
  have hpart : ∀ start : List Char, start ++ ending ≠ [] := fun start =>
    List.append_ne_nil_of_right_ne_nil start hne
  have hlast : ∀ (parts : List (List Char)) (start : List Char),
      Text.splitAt '/' p.text.toList = parts ++ [start ++ ending] →
      p.names.getLast? = some (String.ofList (start ++ ending)) := by
    intro parts start hsplit
    rw [names, hsplit, List.filter_append, List.filter_cons_of_pos (by exact decide_eq_true (hpart start)),
      List.filter_nil, List.map_append, List.map_singleton, List.getLast?_concat]
  by_cases hmark : '/' ∈ front
  · -- only what follows the last slash belongs to the name
    obtain ⟨after, before, hreverse, hafter⟩ :=
      List.eq_append_cons_of_mem (List.mem_reverse.mpr hmark)
    have hfront : front = before.reverse ++ '/' :: after.reverse := by
      rw [← List.reverse_reverse front, hreverse]
      simp
    refine ⟨after.reverse, hlast (Text.splitAt '/' before.reverse) _ ?_⟩
    have hrest : '/' ∉ after.reverse ++ ending := by
      rw [List.mem_append, List.mem_reverse, not_or]
      exact ⟨hafter, hslash⟩
    rw [h, hfront, List.append_assoc, List.cons_append, Text.splitAt_append_mark,
      Text.splitAt_of_not_mem hrest]
  · refine ⟨front, hlast [] front ?_⟩
    rw [h, Text.splitAt_of_not_mem]
    · rfl
    · rw [List.mem_append, not_or]
      exact ⟨hmark, hslash⟩

theorem Path.extension?_of_ending {name : String} {front ext : List Char} (hdot : '.' ∉ ext)
    (h : name.toList = front ++ '.' :: ext) :
    extension? name = none ∨ extension? name = some (String.ofList ext) := by
  have hreverse : name.toList.reverse = ext.reverse ++ '.' :: front.reverse := by
    rw [h]
    simp
  have hmarks : ∀ c ∈ ext.reverse, decide (c ≠ '.') = true := by
    intro c hc
    rw [decide_eq_true_eq]
    rintro rfl
    exact hdot (List.mem_reverse.mp hc)
  rw [extension?, hreverse, List.takeWhile_append_of_pos hmarks, List.dropWhile_append_of_pos hmarks]
  simp only [ne_eq, not_true_eq_false, decide_false, Bool.false_eq_true, not_false_eq_true,
    List.takeWhile_cons_of_neg, List.append_nil, List.dropWhile_cons_of_neg, List.reverse_reverse]
  split
  · exact .inl rfl
  · exact .inr rfl

theorem Path.exists_toList_join (p : Path) (child : String) :
    ∃ front, (p.join child).text.toList = front ++ child.toList := by
  rw [join]
  split
  · exact ⟨[], rfl⟩
  · split
    · exact ⟨[], rfl⟩
    · exact ⟨p.text.toList, String.toList_append⟩
    · exact ⟨p.text.toList ++ ['/'], by rw [String.toList_append, String.toList_append]; rfl⟩

/-- A path that ends like a file name means a location that does. -/
theorem Place.exists_getLast?_target (w : Place) (dir : Path) (stem : String) {ending : String}
    {ext : List Char} (hending : ending.toList = '.' :: ext) (hne : ext ≠ []) (hdot : '.' ∉ ext)
    (hslash : '/' ∉ ext) :
    ∃ start : List Char, (w.target (dir.join (stem ++ ending))).getLast? =
      some (String.ofList (start ++ '.' :: ext)) := by
  obtain ⟨front, hfront⟩ := dir.exists_toList_join (stem ++ ending)
  rw [String.toList_append, hending, ← List.append_assoc] at hfront
  obtain ⟨start, hlast⟩ := Path.getLast?_names_of_ending (List.cons_ne_nil '.' ext)
    (by rw [List.mem_cons, not_or]; exact ⟨by decide, hslash⟩) hfront
  have hproper : ProperName (String.ofList (start ++ '.' :: ext)) := by
    obtain ⟨hempty, hslash⟩ := proper_of_mem_names (List.mem_of_getLast? hlast)
    have hdots : ∀ name : String, name.toList.getLast? = some '.' →
        String.ofList (start ++ '.' :: ext) ≠ name := by
      rintro name hname rfl
      rw [String.toList_ofList, List.getLast?_append_of_ne_nil _ (List.cons_ne_nil _ _),
        List.getLast?_cons_of_ne_nil hne] at hname
      exact hdot (List.mem_of_getLast? hname)
    exact ⟨hempty, hslash, hdots "." rfl, hdots ".." rfl⟩
  refine ⟨start, ?_⟩
  rw [target_eq_advance hlast hproper.ne_here, advance_of_proper _ hproper, List.getLast?_concat]

/-- Wherever the path of a generated file leads, the name there has an extension. -/
theorem Generated.Named.getLast?_target {p : Path} (hp : Named p) (w : Place) :
    ∃ start ext : List Char, '.' ∉ ext ∧ some (String.ofList ext) ≠ some "json" ∧
      (w.target p).getLast? = some (String.ofList (start ++ '.' :: ext)) := by
  obtain ⟨dir, stem, ending, hending, rfl⟩ := hp
  obtain ⟨ext, hne, hdot, hslash, hjson, hext⟩ : ∃ ext : List Char, ext ≠ [] ∧ '.' ∉ ext ∧
      '/' ∉ ext ∧ some (String.ofList ext) ≠ some "json" ∧ ending.toList = '.' :: ext := by
    rcases hending with rfl | rfl
    · exact ⟨"css".toList, by decide⟩
    · exact ⟨"ts".toList, by decide⟩
  obtain ⟨start, hlast⟩ := w.exists_getLast?_target dir stem hext hne hdot hslash
  exact ⟨start, ext, hdot, hjson, hlast⟩

/-- A generated file is no `json` file, wherever its path leads. -/
theorem Generated.Named.not_json {p : Path} (hp : Named p) (w : Place) :
    ¬ endsInJson (w.target p) := by
  obtain ⟨start, ext, hdot, hjson, hlast⟩ := hp.getLast?_target w
  have hextension := Path.extension?_of_ending hdot
    (String.toList_ofList : (String.ofList (start ++ '.' :: ext)).toList = start ++ '.' :: ext)
  rw [endsInJson, hlast]
  change ¬ decide (Path.extension? (String.ofList (start ++ '.' :: ext)) = some "json") = true
  rw [decide_eq_true_eq]
  rcases hextension with hnone | hsome
  · rw [hnone]
    exact (Option.some_ne_none _).symm
  · rwa [hsome]

namespace BuildContext

variable {c : BuildContext} {spared : Location → Prop} {layer kind : String} {w : Place}

/-- The way to the output directory goes down to it, or through directories that are there. -/
def Direct (c : BuildContext) (w : Place) : Prop :=
  ∀ l ∈ w.route c.outputDir, l <+: w.target c.outputDir ∨ w.tree.lookup l = some .directory

theorem Direct.place (h : c.Direct w) : w.Direct c.outputDir :=
  h

theorem Direct.reworked {region : Location → Prop} {time : Nat} {v : Place} (h : c.Direct v)
    (hreworked : Reworked region spared time v w) (hway : ∀ l ∈ v.route c.outputDir, ¬ region l) :
    c.Direct w := by
  intro l hl
  rw [Place.route_congr hreworked.current] at hl
  rw [Place.target_congr hreworked.current]
  exact (h l hl).imp_right (hreworked.directory (hway l hl))

theorem target_join_join (c : BuildContext) (w : Place) (hkind : ProperName kind)
    (hlayer : ProperName layer) :
    w.target ((c.outputDir.join kind).join layer) = w.target c.outputDir ++ [kind, layer] := by
  rw [Place.target_join _ hlayer, Place.target_join _ hkind, List.append_assoc,
    List.singleton_append]

/-- What has something below it among the outputs can be reached. -/
theorem Direct.isDirectory (h : c.Direct w) (hwf : w.tree.WellFormed) (hkind : ProperName kind)
    (hlayer : ProperName layer) {l : Location}
    (hl : Below (w.target c.outputDir ++ [kind, layer]) l) (hsome : (w.tree.lookup l).isSome) :
    w.isDirectory ((c.outputDir.join kind).join layer) := by
  have hbelow : Below (w.target c.outputDir) l := Below.of_le (List.prefix_append _ _) hl
  have hupper : Below (w.target c.outputDir ++ [kind]) l := by
    refine Below.of_le ?_ hl
    rw [List.prefix_append_right_inj]
    exact ⟨[layer], rfl⟩
  rw [Place.isDirectory_iff, Place.route_join _ hlayer, Place.route_join _ hkind, Passable,
    List.forall_mem_append, List.forall_mem_append, List.forall_mem_singleton,
    List.forall_mem_singleton, Place.target_join _ hkind]
  refine ⟨Path.join_ne_empty _ hlayer.ne_empty hlayer.no_slash,
    ⟨h.place.passable hwf hbelow hsome, hwf.lookup_of_below hupper hsome⟩, ?_⟩
  rw [List.append_assoc, List.singleton_append]
  exact hwf.lookup_of_below hl hsome

/-- Clearing a directory of outputs: only a file in its place is an obstacle. -/
theorem exec_clearDirectory_eq (hkind : ProperName kind) (hlayer : ProperName layer) {x : Workspace}
    (hwf : x.place.tree.WellFormed) (hdirect : c.Direct x.place) :
    exec (clearDirectory ((c.outputDir.join kind).join layer)) x =
      match x.place.tree.lookup (x.place.target c.outputDir ++ [kind, layer]) with
      | none => (.ok (), x)
      | some .directory =>
        (.ok (), withTree x (x.place.tree.prune (x.place.target c.outputDir ++ [kind, layer])))
      | some (.file ..) => (.error (.file ((c.outputDir.join kind).join layer) .notDirectory), x) := by
  have hup : x.place.target (c.outputDir.join kind) ++ [layer] =
      x.place.target c.outputDir ++ [kind, layer] := by
    rw [← Place.target_join _ hlayer, c.target_join_join x.place hkind hlayer]
  have hexists : x.place.pathExists ((c.outputDir.join kind).join layer) ↔
      x.place.tree.Passable (x.place.route (c.outputDir.join kind)) ∧
        (x.place.tree.lookup (x.place.target c.outputDir ++ [kind, layer])).isSome := by
    rw [Place.pathExists_join_iff _ hlayer, hup]
  rw [clearDirectory, exec_bind, exec_place]
  dsimp only
  cases hlookup : x.place.tree.lookup (x.place.target c.outputDir ++ [kind, layer]) with
  | none =>
      rw [if_neg]
      · rfl
      · rw [hexists, hlookup]
        exact fun h => Bool.false_ne_true h.2
  | some n =>
      have hway : x.place.tree.Passable (x.place.route (c.outputDir.join kind)) := by
        have hbelow : Below (x.place.target c.outputDir)
            (x.place.target c.outputDir ++ [kind, layer]) := Below.append (List.cons_ne_nil _ _)
        have hupper : Below (x.place.target c.outputDir ++ [kind])
            (x.place.target c.outputDir ++ [kind, layer]) := by
          rw [← hup, Place.target_join _ hkind]
          exact Below.append (List.cons_ne_nil _ _)
        rw [Place.route_join _ hkind, Passable, List.forall_mem_append, List.forall_mem_singleton]
        exact ⟨hdirect.place.passable hwf hbelow (by rw [hlookup]; rfl),
          hwf.lookup_of_below hupper (by rw [hlookup]; rfl)⟩
      rw [if_pos (hexists.mpr ⟨hway, by rw [hlookup]; rfl⟩), exec_steps,
        Place.removeDirectory_join _ hlayer hway, hup, hlookup]
      cases n with
      | directory => rfl
      | file content modified => rfl

/-- Clearing that succeeds leaves nothing of a directory of outputs, and the rest as it was. -/
theorem exec_clearDirectory (hkind : ProperName kind) (hlayer : ProperName layer)
    {x after : Workspace} (hwf : x.place.tree.WellFormed) (hdirect : c.Direct x.place)
    (h : exec (clearDirectory ((c.outputDir.join kind).join layer)) x = (.ok (), after)) :
    ∃ tree, after = withTree x tree ∧ tree.WellFormed ∧ ∀ l, tree.lookup l =
      if x.place.target c.outputDir ++ [kind, layer] <+: l then none
      else x.place.tree.lookup l := by
  rw [exec_clearDirectory_eq hkind hlayer hwf hdirect] at h
  rcases hlookup : x.place.tree.lookup (x.place.target c.outputDir ++ [kind, layer]) with
    _ | ⟨_ | _⟩
  · rw [hlookup] at h
    refine ⟨x.place.tree, (congrArg Prod.snd h).symm, hwf, ?_⟩
    intro l
    split
    · rename_i hl
      by_cases heq : l = x.place.target c.outputDir ++ [kind, layer]
      · rw [heq, hlookup]
      · exact hwf.lookup_below_eq_none ⟨hl, heq⟩ (by rw [hlookup]; exact nofun)
    · rfl
  · rw [hlookup] at h
    refine ⟨_, (congrArg Prod.snd h).symm, hwf.prune, fun l => ?_⟩
    exact lookup_prune (List.append_ne_nil_of_right_ne_nil _ (List.cons_ne_nil _ _))
  · rw [hlookup] at h
    cases congrArg Prod.fst h

theorem exec_clearDirectory_of_not_isFile (hkind : ProperName kind) (hlayer : ProperName layer)
    {x : Workspace} (hwf : x.place.tree.WellFormed) (hdirect : c.Direct x.place)
    (hfree : ¬ x.place.tree.IsFile (x.place.target c.outputDir ++ [kind, layer])) :
    ∃ after, exec (clearDirectory ((c.outputDir.join kind).join layer)) x = (.ok (), after) := by
  rw [exec_clearDirectory_eq hkind hlayer hwf hdirect]
  rcases hlookup : x.place.tree.lookup (x.place.target c.outputDir ++ [kind, layer]) with
    _ | ⟨_ | _⟩
  · exact ⟨_, rfl⟩
  · exact ⟨_, rfl⟩
  · exact absurd ⟨_, _, hlookup⟩ hfree

theorem reworking_write {start : Location} {region : Location → Prop} {p : Path}
    (hspared : ∀ w : Place, w.current = start → ¬ spared (w.target p)) (stamp body : String) :
    Within (Reworking start region spared) (Generated.write p stamp body) :=
  Reworking.chain.bind (Reworking.writeText _ _ _ hspared) fun _ => Reworking.chain.pure _

theorem reworking_generated {start : Location} {region : Location → Prop}
    (hspared : ∀ l, spared l → endsInJson l) {p : Path} (hp : Generated.Named p)
    (stamp body : String) :
    Within (Reworking start region spared) (Generated.write p stamp body) :=
  reworking_write (fun w _ hin => hp.not_json w (hspared _ hin)) stamp body

theorem reworking_clearDirectory (v : Place) (hkind : kind = "css" ∨ kind = "ts")
    (hlayer : ProperName layer) :
    Within (Reworking v.current (c.Outputs v layer) spared)
      (clearDirectory ((c.outputDir.join kind).join layer)) := by
  refine within_clearDirectory Reworking.chain _ ?_
  intro x hexists hx
  obtain ⟨hway, -⟩ := (Place.pathExists_join_iff _ hlayer).mp hexists
  have hup : x.place.target (c.outputDir.join kind) ++ [layer] =
      x.place.target c.outputDir ++ [kind, layer] := by
    rw [← Place.target_join _ hlayer, c.target_join_join x.place (proper_kind hkind) hlayer]
  refine ⟨rfl, ?_⟩
  rw [Place.removeDirectory_join _ hlayer hway, hup]
  rcases x.place.tree.lookup (x.place.target c.outputDir ++ [kind, layer]) with _ | ⟨_ | _⟩
  · exact .refl _
  · refine ⟨rfl, fun hwf => hwf.prune, fun l => ?_⟩
    rw [withTree_place, lookup_prune (List.append_ne_nil_of_right_ne_nil _ (List.cons_ne_nil _ _))]
    split
    · rename_i hl
      refine .removed ?_
      rw [← outputs_congr hx]
      exact ⟨kind, hkind, hl⟩
    · exact .same _
  · exact .refl _

/-- A build of a layer removes its outputs and writes no `json` file. -/
theorem reworked_buildLayer (c : BuildContext) (hspared : ∀ l, spared l → endsInJson l)
    {layer : Layer} (hlayer : ProperName layer.name) (x : Workspace) :
    ((c.buildLayer layer).run x).2.stamp = x.stamp ∧
      Reworked (c.Outputs x.place layer.name) spared x.stamp x.place
        ((c.buildLayer layer).run x).2.place := by
  have hchain : Chain (Reworking x.place.current (c.Outputs x.place layer.name) spared) :=
    Reworking.chain
  refine run_buildLayer_within hchain c layer ?_ ?_ x rfl
  · exact fun p hp stamp body => reworking_generated hspared hp stamp body
  · rw [List.forall_mem_cons, List.forall_mem_singleton]
    exact ⟨reworking_clearDirectory x.place (.inl rfl) hlayer,
      reworking_clearDirectory x.place (.inr rfl) hlayer⟩

/-- After a build that succeeded the outputs of a layer are as new as the build. -/
theorem modifiedAt_of_success {layer : Layer} (hlayer : ProperName layer.name) {x : Workspace}
    (hwf : x.place.tree.WellFormed) (hdirect : c.Direct x.place)
    (hway : ∀ l ∈ x.place.route c.outputDir, ¬ c.Outputs x.place layer.name l)
    (hsuccess : ((c.buildLayer layer).run x).1.success = true) {l : Location}
    (hl : c.Outputs x.place layer.name l) {time : Nat}
    (htime : ((c.buildLayer layer).run x).2.place.tree.modifiedAt l = some time) :
    time = x.stamp := by
  rw [run_buildLayer_eq] at hsuccess htime
  rcases hrun : exec (c.buildJob layer) x with ⟨_ | files, after⟩
  · rw [hrun] at hsuccess
    exact absurd hsuccess Bool.false_ne_true
  · rw [hrun] at htime
    dsimp only at htime
    rw [buildJob, writeLayer_eq] at hrun
    obtain ⟨written, done, hwrite, hmeasure⟩ := exec_bind_eq_ok.mp hrun
    obtain ⟨_, y, hcss, hrest⟩ := exec_bind_eq_ok.mp hwrite
    obtain ⟨_, z, hts, houtputs⟩ := exec_bind_eq_ok.mp hrest
    have hclear : Within (Reworking x.place.current (c.Outputs x.place layer.name) fun _ => False)
        (clearDirectory (c.cssDir layer.name)) :=
      reworking_clearDirectory x.place (.inl rfl) hlayer
    obtain ⟨hstamp, hreworked⟩ := hclear x rfl
    rw [hcss] at hstamp hreworked
    obtain ⟨tree, rfl, hwf', htree⟩ := exec_clearDirectory (proper_kind (.inl rfl)) hlayer hwf
      hdirect hcss
    obtain ⟨tree', rfl, -, htree'⟩ := exec_clearDirectory (proper_kind (.inr rfl)) hlayer hwf'
      (hdirect.reworked hreworked hway) hts
    -- nothing is left among the outputs, so what is found there was written since
    have hnone : tree'.lookup l = none := by
      obtain ⟨kind, rfl | rfl, hin⟩ := hl
      · rw [htree']
        split
        · rfl
        · exact (htree l).trans (if_pos hin)
      · refine (htree' l).trans (if_pos ?_)
        rwa [withTree_place, Place.target_mk]
    have hwritten : Within (Reworking x.place.current (fun _ => False) fun _ => False)
        (c.writeOutputs layer >>= measure) := by
      refine Reworking.chain.bind ?_ (within_measure Reworking.chain)
      refine within_writeOutputs Reworking.chain c layer ?_
      exact fun p hp stamp body => reworking_generated (fun _ h => h.elim) hp stamp body
    obtain ⟨-, hfilled⟩ := hwritten (withTree (withTree x tree) tree') rfl
    rw [exec_bind, houtputs] at hfilled
    dsimp only at hfilled
    rw [hmeasure] at hfilled
    rcases hfilled.modifiedAt htime with hbefore | hnow
    · rw [FileTree.modifiedAt, withTree_place, hnone] at hbefore
      cases hbefore
    · exact hnow

end BuildContext

end DesignTokens
