import DesignTokens.Proofs.Layer.Determinism
import DesignTokens.Proofs.Workspace.JsonFiles

/-!
The flavors below a directory depend on its `json` files only.
-/

namespace DesignTokens

namespace FlavorFile

theorem ofName?_eq_base_iff {name : String} :
    ofName? name = some .base ↔ name = "flavor.json" := by
  constructor
  · intro h
    rw [ofName?] at h
    split at h
    · exact absurd h nofun
    · rename_i stem hstem
      split at h
      · rename_i hflavor
        rw [← String.toList_inj, Text.eq_append_of_stripEnd hstem, hflavor]
        rfl
      · split at h
        · exact absurd h nofun
        · exact absurd h nofun
        · exact absurd (Option.some.inj h) nofun
  · rintro rfl
    decide

theorem toList_of_mode {name mode : String} (h : ofName? name = some (.mode mode)) :
    mode.toList ≠ [] ∧ name.toList = "flavor-".toList ++ mode.toList ++ ".json".toList := by
  rw [ofName?] at h
  split at h
  · exact absurd h nofun
  · rename_i stem hstem
    split at h
    · exact absurd (Option.some.inj h) nofun
    · split at h
      · exact absurd h nofun
      · exact absurd h nofun
      · rename_i label hne hlabel
        obtain rfl := FlavorFile.mode.inj (Option.some.inj h)
        rw [String.toList_ofList]
        refine ⟨?_, ?_⟩
        · rintro rfl
          exact hne rfl
        · rw [Text.eq_append_of_stripEnd hstem, Text.eq_append_of_stripStart hlabel]

end FlavorFile
namespace Flavor

open FileTree

variable {w v : Place} {base dir : Path} {name : String}

/-- The names of the flavors below a directory. -/
def namesBelow (w : Place) (dir : Path) : List String :=
  (w.namesIn dir).filter fun n => (w.tree.jsonAt (w.target dir ++ [n, "flavor.json"])).isSome

/-- The flavor of a name. -/
def named (w : Place) (dir : Path) (n : String) : Flavor :=
  ⟨n, (dir.join n).join "flavor.json", modeFilesIn w (dir.join n)⟩

theorem endsInJson_base (l : Location) : endsInJson (l ++ ["flavor.json"]) := by
  have hlist : "flavor.json".toList = "flavor".toList ++ ".json".toList := rfl
  exact endsInJson_of_ending (List.cons_ne_nil _ _) hlist

theorem isDirectory_join_iff (hdir : w.isDirectory dir) {n : String} (hn : ProperName n) :
    w.isDirectory (dir.join n) ↔ w.tree.lookup (w.target dir ++ [n]) = some .directory := by
  rw [Place.isDirectory_iff, Place.route_join _ hn, Passable, List.forall_mem_append,
    List.forall_mem_singleton]
  constructor
  · exact fun h => h.2.2
  · intro h
    exact ⟨Path.join_ne_empty _ hn.ne_empty hn.no_slash, (Place.isDirectory_iff.mp hdir).2, h⟩

theorem baseFile?_eq (hdir : w.isDirectory dir) :
    baseFile? w dir =
      if (w.tree.lookup (w.target dir ++ ["flavor.json"])).isSome then
        some (dir.join "flavor.json") else none := by
  have hbase : (fun name => FlavorFile.ofName? name == some .base) =
      fun name : String => name == "flavor.json" := by
    funext name
    rw [Bool.eq_iff_iff, beq_iff_eq, beq_iff_eq, FlavorFile.ofName?_eq_base_iff]
  rw [baseFile?, hbase, Place.namesIn_of_isDirectory hdir]
  cases hfind : (w.tree.childNames (w.target dir)).find? fun name => name == "flavor.json" with
  | none =>
      rw [if_neg]
      · rfl
      · rw [← mem_childNames_iff]
        intro hmem
        exact List.find?_eq_none.mp hfind _ hmem (beq_self_eq_true _)
  | some found =>
      have hfound := List.find?_some hfind
      obtain rfl : found = "flavor.json" := eq_of_beq hfound
      rw [if_pos (mem_childNames_iff.mp (List.mem_of_find?_eq_some hfind))]
      rfl

/-- A directory is a flavor if it has a base file. -/
theorem discover_eq (hwf : w.tree.WellFormed) (hregular : RegularBelow (w.target dir) w.tree) :
    discover w dir = (namesBelow w dir).map (named w dir) := by
  rw [discover, candidates, namesBelow]
  by_cases hdir : w.isDirectory dir
  · rw [Place.namesIn_of_isDirectory hdir]
    have hnames : ∀ n ∈ w.tree.childNames (w.target dir),
        (w.tree.lookup (w.target dir ++ [n])).isSome := fun n hn => mem_childNames_iff.mp hn
    generalize w.tree.childNames (w.target dir) = names at hnames
    induction names with
    | nil => rfl
    | cons n rest ih =>
        obtain ⟨hn, hrest⟩ := List.forall_mem_cons.mp hnames
        have hproper : ProperName n :=
          hwf.proper_of_lookup hn n (List.mem_append_right _ (List.mem_singleton_self n))
        have hbelow : Below (w.target dir) (w.target dir ++ [n, "flavor.json"]) :=
          Below.append (List.cons_ne_nil _ _)
        have hassoc : w.target dir ++ [n, "flavor.json"] =
            w.target dir ++ [n] ++ ["flavor.json"] := by simp
        have hjson := hregular.isSome_lookup_iff hbelow (hassoc ▸ endsInJson_base _)
        have hisdir := isDirectory_join_iff hdir hproper
        rw [List.map_cons, List.filter_cons, List.filter_cons]
        by_cases hlookup : w.tree.lookup (w.target dir ++ [n]) = some .directory
        · rw [if_pos (hisdir.mpr hlookup), List.filterMap_cons, ih hrest,
            baseFile?_eq (hisdir.mpr hlookup), Place.target_join _ hproper, ← hassoc]
          by_cases hsome : (w.tree.lookup (w.target dir ++ [n, "flavor.json"])).isSome
          · rw [if_pos hsome, if_pos (hjson.mp hsome)]
            rfl
          · rw [if_neg hsome, if_neg (mt hjson.mpr hsome)]
            rfl
        · rw [if_neg (mt hisdir.mp hlookup), ih hrest, if_neg]
          intro hsome
          refine hlookup (hwf.lookup_of_below ?_ (hjson.mpr hsome))
          rw [hassoc]
          exact Below.append (List.cons_ne_nil _ _)
  · rw [Place.namesIn, Bool.eq_false_iff.mpr hdir]
    rfl

theorem mem_namesBelow_iff (hw : w.tree.WellFormed) (hname : ProperName name)
    (hbase : w.isDirectory base) {n : String} :
    n ∈ namesBelow w (base.join name) ↔
      (w.tree.jsonAt (w.target base ++ [name] ++ [n, "flavor.json"])).isSome := by
  rw [namesBelow, List.mem_filter, Place.target_join _ hname]
  constructor
  · exact fun h => h.2
  · intro h
    obtain ⟨-, content, modified, hlookup⟩ := isSome_jsonAt_iff.mp h
    refine ⟨?_, h⟩
    rw [Place.namesIn_of_isDirectory
      (Place.isDirectory_join_of_isFile hw hname hbase (List.cons_ne_nil _ _) h),
      mem_childNames_iff, Place.target_join _ hname]
    have hdir : w.tree.lookup (w.target base ++ [name] ++ [n]) = some .directory := by
      refine hw.lookup_of_below (m := w.target base ++ [name] ++ [n, "flavor.json"]) ?_
        (by rw [hlookup]; rfl)
      rw [show w.target base ++ [name] ++ [n, "flavor.json"] =
        w.target base ++ [name] ++ [n] ++ ["flavor.json"] by simp]
      exact Below.append (List.cons_ne_nil _ _)
    rw [hdir]
    rfl

theorem namesBelow_ascending (hw : w.tree.WellFormed) (dir : Path) :
    (namesBelow w dir).Pairwise (· < ·) := by
  rw [namesBelow, Place.namesIn]
  split
  · exact hw.childNames_ascending.sublist List.filter_sublist
  · exact List.Pairwise.nil

/-- Whether a file is a mode file by its name. -/
def isMode (name : String) : Bool :=
  match FlavorFile.ofName? name with
  | some (.mode _) => true
  | _ => false

theorem endsInJson_of_isMode (l : Location) {name : String} (h : isMode name) :
    endsInJson (l ++ [name]) := by
  rw [isMode] at h
  split at h
  · rename_i mode hmode
    obtain ⟨-, hlist⟩ := FlavorFile.toList_of_mode hmode
    exact endsInJson_of_ending (List.append_ne_nil_of_left_ne_nil (List.cons_ne_nil _ _) _) hlist
  · exact absurd h nofun

/-- Directories with the same `json` files have the same mode files. -/
theorem modeFilesIn_congr (hw : w.tree.WellFormed) (hv : v.tree.WellFormed)
    (htarget : w.target dir = v.target dir) (hdir : w.isDirectory dir) (hdir' : v.isDirectory dir)
    (hregular : RegularBelow (w.target dir) w.tree) (hregular' : RegularBelow (w.target dir) v.tree)
    (hagree : AgreeBelow (w.target dir) w.tree v.tree) : modeFilesIn w dir = modeFilesIn v dir := by
  have hfilter : ∀ place : Place, modeFilesIn place dir = Keyed.sortedOf
      (((place.namesIn dir).filter isMode).filterMap fun name =>
        match FlavorFile.ofName? name with
        | some (.mode mode) => some (mode, dir.join name)
        | _ => none) := by
    intro place
    rw [modeFilesIn, List.filterMap_filter]
    congr 2
    funext name
    rw [isMode]
    rcases FlavorFile.ofName? name with _ | (_ | _)
    · rfl
    · rfl
    · rfl
  have hsame : (w.tree.childNames (w.target dir)).filter isMode =
      (v.tree.childNames (w.target dir)).filter isMode := by
    refine (hw.childNames_ascending.sublist List.filter_sublist).eq_of_mem_iff
      (hv.childNames_ascending.sublist List.filter_sublist) ?_
    intro name
    rw [List.mem_filter, List.mem_filter, mem_childNames_iff, mem_childNames_iff]
    refine and_congr_left fun hmode => ?_
    have hbelow : Below (w.target dir) (w.target dir ++ [name]) :=
      Below.append (List.cons_ne_nil _ _)
    rw [hregular.isSome_lookup_iff hbelow (endsInJson_of_isMode _ hmode),
      hregular'.isSome_lookup_iff hbelow (endsInJson_of_isMode _ hmode), hagree _ hbelow]
  rw [hfilter, hfilter, Place.namesIn_of_isDirectory hdir, Place.namesIn_of_isDirectory hdir',
    ← htarget, hsame]

theorem isDirectory_of_mem_namesBelow (hw : w.tree.WellFormed) (hname : ProperName name)
    (hbase : w.isDirectory base) {n : String} (hn : n ∈ namesBelow w (base.join name)) :
    ProperName n ∧ w.isDirectory ((base.join name).join n) := by
  have hsome := (mem_namesBelow_iff hw hname hbase).mp hn
  have hdir := Place.isDirectory_join_of_isFile hw hname hbase (List.cons_ne_nil _ _) hsome
  obtain ⟨-, content, modified, hlookup⟩ := isSome_jsonAt_iff.mp hsome
  have hproper : ProperName n := hw.proper_of_lookup (by rw [hlookup]; rfl) n (by simp)
  refine ⟨hproper, Place.isDirectory_join_of_isFile hw hproper hdir
    (List.cons_ne_nil "flavor.json" []) ?_⟩
  rw [Place.target_join _ hname, List.append_assoc]
  exact hsome

/-- Directories with the same `json` files below them hold the same flavors. -/
theorem discover_congr (hw : w.tree.WellFormed) (hv : v.tree.WellFormed)
    (hcurrent : w.current = v.current) (hname : ProperName name) (hbase : w.isDirectory base)
    (hbase' : v.isDirectory base) (hregular : RegularBelow (w.target base ++ [name]) w.tree)
    (hregular' : RegularBelow (w.target base ++ [name]) v.tree)
    (hagree : AgreeBelow (w.target base ++ [name]) w.tree v.tree) :
    discover w (base.join name) = discover v (base.join name) := by
  have htarget : ∀ p, w.target p = v.target p := Place.target_congr hcurrent
  have hjoin : w.target (base.join name) = w.target base ++ [name] := Place.target_join _ hname
  rw [← hjoin] at hregular hregular' hagree
  rw [discover_eq hw hregular, discover_eq hv (htarget _ ▸ hregular')]
  have hnames : namesBelow w (base.join name) = namesBelow v (base.join name) := by
    refine (namesBelow_ascending hw _).eq_of_mem_iff (namesBelow_ascending hv _) ?_
    intro n
    rw [mem_namesBelow_iff hw hname hbase, mem_namesBelow_iff hv hname hbase', ← htarget, ← hjoin,
      hagree _ (Below.append (List.cons_ne_nil _ _))]
  rw [← hnames, List.map_inj_left]
  intro n hn
  obtain ⟨hproper, hdir⟩ := isDirectory_of_mem_namesBelow hw hname hbase hn
  obtain ⟨-, hdir'⟩ := isDirectory_of_mem_namesBelow hv hname hbase' (hnames ▸ hn)
  have hle : w.target (base.join name) <+: w.target ((base.join name).join n) := by
    rw [Place.target_join _ hproper]
    exact List.prefix_append _ _
  rw [named, named, modeFilesIn_congr hw hv (htarget _) hdir hdir' (hregular.of_le hle)
    (hregular'.of_le hle) fun l hl => hagree l (hl.of_le hle)]

/-- A flavor is a directory with a proper name that holds a base file. -/
theorem exists_of_mem_discover (hw : w.tree.WellFormed) {flavor : Flavor}
    (hflavor : flavor ∈ discover w dir) :
    ∃ n file, ProperName n ∧ w.isDirectory (dir.join n) ∧ baseFile? w (dir.join n) = some file ∧
      flavor = ⟨n, file, modeFilesIn w (dir.join n)⟩ := by
  obtain ⟨entry, hcandidate, hfound⟩ := List.mem_filterMap.mp hflavor
  obtain ⟨hentry, hdirectory⟩ := List.mem_filter.mp hcandidate
  obtain ⟨n, hn, rfl⟩ := List.mem_map.mp hentry
  obtain ⟨file, hbase, rfl⟩ := Option.map_eq_some_iff.mp hfound
  refine ⟨n, file, ?_, hdirectory, hbase, rfl⟩
  rw [Place.namesIn] at hn
  split at hn
  · exact hw.proper_of_lookup (mem_childNames_iff.mp hn) n
      (List.mem_append_right _ (List.mem_singleton_self n))
  · exact absurd hn List.not_mem_nil

/-- The mode files of a flavor have names that tell their modes. -/
theorem exists_of_mem_modeFilesIn (hw : w.tree.WellFormed) (hdir : w.isDirectory dir)
    {entry : String × Path} (hentry : entry ∈ modeFilesIn w dir) :
    ∃ file, ProperName file ∧ entry.2 = dir.join file ∧
      (w.tree.lookup (w.target dir ++ [file])).isSome ∧
      FlavorFile.ofName? file = some (.mode entry.1) := by
  obtain ⟨file, hfile, heq⟩ := List.mem_filterMap.mp (Keyed.mem_of_mem_sortedOf hentry)
  rw [Place.namesIn_of_isDirectory hdir, mem_childNames_iff] at hfile
  split at heq
  · rename_i mode hmode
    obtain rfl := Option.some.inj heq
    exact ⟨file, hw.proper_of_lookup hfile file
      (List.mem_append_right _ (List.mem_singleton_self file)), rfl, hfile, hmode⟩
  · exact absurd heq nofun

/-- The files of a flavor are called like `json` files and lie in its directory. -/
theorem exists_of_mem_flavorReads (hw : w.tree.WellFormed) {flavor : Flavor}
    (hflavor : flavor ∈ discover w dir) {p : Path} (hp : p ∈ BuildContext.flavorReads flavor) :
    ∃ n file, ProperName n ∧ ProperName file ∧ p = (dir.join n).join file ∧
      endsInJson (w.target dir ++ [n, file]) ∧
      (w.tree.lookup (w.target dir ++ [n, file])).isSome := by
  obtain ⟨n, base, hproper, hdirectory, hbase, rfl⟩ := exists_of_mem_discover hw hflavor
  have hassoc : ∀ file, w.target (dir.join n) ++ [file] = w.target dir ++ [n, file] := by
    intro file
    rw [Place.target_join _ hproper, List.append_assoc]
    rfl
  rcases List.mem_cons.mp hp with rfl | hp
  · rw [baseFile?_eq hdirectory] at hbase
    split at hbase
    · rename_i hsome
      obtain rfl := Option.some.inj hbase
      rw [hassoc] at hsome
      exact ⟨n, "flavor.json", hproper, by decide, rfl, hassoc _ ▸ endsInJson_base _, hsome⟩
    · exact absurd hbase nofun
  · obtain ⟨entry, hentry, rfl⟩ := List.mem_map.mp hp
    obtain ⟨file, hplain, hpath, hsome, hmode⟩ := exists_of_mem_modeFilesIn hw hdirectory hentry
    have hjson : isMode file := by
      rw [isMode, hmode]
    exact ⟨n, file, hproper, hplain, hpath, hassoc _ ▸ endsInJson_of_isMode _ hjson,
      hassoc _ ▸ hsome⟩

/-- The names of a flavor and its modes can be parts of file names. -/
theorem plainFlavor_of_mem_discover (hw : w.tree.WellFormed) {flavor : Flavor}
    (hflavor : flavor ∈ discover w dir) : BuildContext.PlainFlavor flavor := by
  obtain ⟨n, base, hproper, hdirectory, -, rfl⟩ := exists_of_mem_discover hw hflavor
  refine ⟨hproper, ?_⟩
  intro entry hentry
  obtain ⟨file, hplain, -, -, hmode⟩ := exists_of_mem_modeFilesIn hw hdirectory hentry
  obtain ⟨-, hlist⟩ := FlavorFile.toList_of_mode hmode
  intro hslash
  refine hplain.no_slash ?_
  rw [hlist]
  exact List.mem_append_left _ (List.mem_append_right _ hslash)

end Flavor

end DesignTokens
