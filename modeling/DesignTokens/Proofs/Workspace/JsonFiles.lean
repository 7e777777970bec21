import DesignTokens.Proofs.Workspace.Listing

/-!
The `json` files below a directory. Two trees that have the same ones there list them alike.
-/

namespace DesignTokens

/-- Whether the last name of a location has the extension `json`. -/
def endsInJson (l : Location) : Bool :=
  match l.getLast? with
  | some name => Path.extension? name = some "json"
  | none => false

theorem endsInJson_of_ending {l : Location} {name : String} {front : List Char}
    (hfront : front ≠ []) (h : name.toList = front ++ ".json".toList) :
    endsInJson (l ++ [name]) := by
  have hreverse : name.toList.reverse = "nosj".toList ++ '.' :: front.reverse := by
    rw [h, List.reverse_append]
    rfl
  have hdots : (name == "..") = false := by
    rw [beq_eq_false_iff_ne]
    rintro rfl
    have hlength := congrArg List.length h
    rw [List.length_append] at hlength
    exact absurd (List.length_pos_of_ne_nil hfront) (by simp at hlength)
  have htake : ("nosj".toList ++ '.' :: front.reverse).takeWhile (· ≠ '.') = "nosj".toList := rfl
  have hdrop : ("nosj".toList ++ '.' :: front.reverse).dropWhile (· ≠ '.') =
      '.' :: front.reverse := rfl
  have hextension : Path.extension? name = some "json" := by
    simp only [Path.extension?, hreverse, htake, hdrop]
    rw [hdots, Bool.or_false, if_neg (by simpa using hfront)]
    rfl
  rw [endsInJson, List.getLast?_concat]
  exact decide_eq_true hextension

/-- Only the last name counts. -/
theorem endsInJson_append {names : List String} (hne : names ≠ []) (l m : Location) :
    endsInJson (l ++ names) = endsInJson (m ++ names) := by
  rw [endsInJson, endsInJson, List.getLast?_append_of_ne_nil _ hne,
    List.getLast?_append_of_ne_nil _ hne]

namespace FileTree

/-- The contents of a `json` file. -/
def jsonAt (t : FileTree) (l : Location) : Option ByteArray :=
  if endsInJson l then (t.lookup l).bind Node.content? else none

/-- Two trees have the same `json` files below a location. -/
def AgreeBelow (l : Location) (t u : FileTree) : Prop :=
  ∀ m, Below l m → t.jsonAt m = u.jsonAt m

theorem jsonAt_eq_some_iff {t : FileTree} {l : Location} {content : ByteArray} :
    t.jsonAt l = some content ↔
      endsInJson l ∧ ∃ modified, t.lookup l = some (.file content modified) := by
  rw [jsonAt]
  split
  · rename_i hjson
    rcases t.lookup l with _ | ⟨_ | _⟩ <;> simp [Node.content?, hjson]
  · rename_i hjson
    simp [hjson]

theorem isSome_jsonAt_iff {t : FileTree} {l : Location} :
    (t.jsonAt l).isSome ↔ endsInJson l ∧ t.IsFile l := by
  simp only [Option.isSome_iff_exists, jsonAt_eq_some_iff, exists_and_left, IsFile]

theorem AgreeBelow.symm {l : Location} {t u : FileTree} (h : AgreeBelow l t u) :
    AgreeBelow l u t :=
  fun m hm => (h m hm).symm

/-- No directory below a location is called like a `json` file. -/
def RegularBelow (l : Location) (t : FileTree) : Prop :=
  ∀ m, Below l m → endsInJson m → t.lookup m ≠ some .directory

theorem RegularBelow.isSome_lookup_iff {l m : Location} {t : FileTree} (h : RegularBelow l t)
    (hm : Below l m) (hjson : endsInJson m) : (t.lookup m).isSome ↔ (t.jsonAt m).isSome := by
  rw [isSome_jsonAt_iff, IsFile]
  have hregular := h m hm hjson
  rcases hlookup : t.lookup m with _ | ⟨_ | _⟩
  · simp
  · exact absurd hlookup hregular
  · simp [hjson]

theorem RegularBelow.of_le {l m : Location} {t : FileTree} (h : RegularBelow l t) (hm : l <+: m) :
    RegularBelow m t :=
  fun other hother => h other (hother.of_le hm)

end FileTree

namespace Place

open FileTree

variable {w v : Place}

/-- The `json` files below a directory, each with its path and its location. -/
def jsonEntries (w : Place) (dir : Path) : List (Path × Location) :=
  (w.filesBelow dir).filter fun x => endsInJson x.2

theorem jsonFiles_eq (w : Place) (dir : Path) :
    w.jsonFiles dir = (w.jsonEntries dir).map Prod.fst := by
  rw [jsonFiles, jsonEntries]
  induction w.filesBelow dir with
  | nil => rfl
  | cons x rest ih =>
      rw [List.filterMap_cons, List.filter_cons, ih, endsInJson]
      cases x.2.getLast? with
      | none => rfl
      | some name =>
          by_cases hjson : Path.extension? name = some "json" <;> simp [hjson]

theorem mem_jsonEntries_iff (hwf : w.tree.WellFormed) {dir : Path} {x : Path × Location} :
    x ∈ w.jsonEntries dir ↔
      w.isDirectory dir ∧ ∃ names, names ≠ [] ∧
        x = (dir.joinAll names, w.target dir ++ names) ∧
        (w.tree.jsonAt (w.target dir ++ names)).isSome := by
  rw [jsonEntries, List.mem_filter, mem_filesBelow_iff hwf]
  constructor
  · rintro ⟨⟨hdir, names, hne, rfl, hfile⟩, hjson⟩
    exact ⟨hdir, names, hne, rfl, isSome_jsonAt_iff.mpr ⟨hjson, hfile⟩⟩
  · rintro ⟨hdir, names, hne, rfl, hsome⟩
    obtain ⟨hjson, hfile⟩ := isSome_jsonAt_iff.mp hsome
    exact ⟨⟨hdir, names, hne, rfl, hfile⟩, hjson⟩

theorem mem_jsonFiles_iff (hwf : w.tree.WellFormed) {dir p : Path} :
    p ∈ w.jsonFiles dir ↔
      w.isDirectory dir ∧ ∃ names, names ≠ [] ∧ p = dir.joinAll names ∧
        (w.tree.jsonAt (w.target dir ++ names)).isSome := by
  rw [jsonFiles_eq, List.mem_map]
  constructor
  · rintro ⟨x, hx, rfl⟩
    obtain ⟨hdir, names, hne, rfl, hsome⟩ := (mem_jsonEntries_iff hwf).mp hx
    exact ⟨hdir, names, hne, rfl, hsome⟩
  · rintro ⟨hdir, names, hne, rfl, hsome⟩
    exact ⟨_, (mem_jsonEntries_iff hwf).mpr ⟨hdir, names, hne, rfl, hsome⟩, rfl⟩

theorem jsonEntries_ascending (hwf : w.tree.WellFormed) (dir : Path) :
    (w.jsonEntries dir).Pairwise fun x y => x.2 < y.2 :=
  (filesBelow_ascending hwf dir).sublist List.filter_sublist

/-- What has a file below it is a directory. -/
theorem isDirectory_join_of_isFile (hwf : w.tree.WellFormed) {base : Path} {name : String}
    (hname : ProperName name) (hbase : w.isDirectory base) {names : List String}
    (hne : names ≠ []) (hfile : (w.tree.jsonAt (w.target base ++ [name] ++ names)).isSome) :
    w.isDirectory (base.join name) := by
  obtain ⟨-, content, modified, hlookup⟩ := isSome_jsonAt_iff.mp hfile
  rw [isDirectory_iff, route_join _ hname, Passable, List.forall_mem_append,
    List.forall_mem_singleton]
  refine ⟨Path.join_ne_empty _ hname.ne_empty hname.no_slash, (isDirectory_iff.mp hbase).2, ?_⟩
  exact hwf.lookup_of_below (Below.append hne) (by rw [hlookup]; rfl)

theorem mem_jsonEntries_of_agree (hw : w.tree.WellFormed) (hv : v.tree.WellFormed)
    (hcurrent : w.current = v.current) {base : Path} {name : String} (hname : ProperName name)
    (hbase : v.isDirectory base)
    (hagree : AgreeBelow (w.target base ++ [name]) w.tree v.tree) {x : Path × Location}
    (hx : x ∈ w.jsonEntries (base.join name)) : x ∈ v.jsonEntries (base.join name) := by
  obtain ⟨-, names, hne, rfl, hsome⟩ := (mem_jsonEntries_iff hw).mp hx
  rw [target_join _ hname] at hsome ⊢
  rw [hagree _ (Below.append hne), target_congr hcurrent] at hsome
  refine (mem_jsonEntries_iff hv).mpr
    ⟨isDirectory_join_of_isFile hv hname hbase hne hsome, names, hne, ?_, ?_⟩
  · rw [target_join _ hname, target_congr hcurrent]
  · rw [target_join _ hname]
    exact hsome

/-- Directories with the same `json` files below them list the same ones. -/
theorem jsonEntries_congr (hw : w.tree.WellFormed) (hv : v.tree.WellFormed)
    (hcurrent : w.current = v.current) {base : Path} {name : String} (hname : ProperName name)
    (hbase : w.isDirectory base) (hbase' : v.isDirectory base)
    (hagree : AgreeBelow (w.target base ++ [name]) w.tree v.tree) :
    w.jsonEntries (base.join name) = v.jsonEntries (base.join name) := by
  have : Std.Antisymm fun x y : Path × Location => x.2 < y.2 :=
    ⟨fun x y hxy hyx => absurd hyx (lt_asymm hxy)⟩
  have : Std.Irrefl fun x y : Path × Location => x.2 < y.2 := ⟨fun x => lt_irrefl x.2⟩
  refine (jsonEntries_ascending hw _).eq_of_mem_iff (jsonEntries_ascending hv _) ?_
  intro x
  constructor
  · exact mem_jsonEntries_of_agree hw hv hcurrent hname hbase' hagree
  · refine mem_jsonEntries_of_agree hv hw hcurrent.symm hname hbase ?_
    rw [← target_congr hcurrent]
    exact hagree.symm

theorem jsonFiles_congr (hw : w.tree.WellFormed) (hv : v.tree.WellFormed)
    (hcurrent : w.current = v.current) {base : Path} {name : String} (hname : ProperName name)
    (hbase : w.isDirectory base) (hbase' : v.isDirectory base)
    (hagree : AgreeBelow (w.target base ++ [name]) w.tree v.tree) :
    w.jsonFiles (base.join name) = v.jsonFiles (base.join name) := by
  rw [jsonFiles_eq, jsonFiles_eq, jsonEntries_congr hw hv hcurrent hname hbase hbase' hagree]

end Place

end DesignTokens
