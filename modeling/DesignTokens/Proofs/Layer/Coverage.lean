import DesignTokens.Proofs.Layer.Sources
import DesignTokens.Proofs.Text.Bytes

/-!
What is found below a tokens directory is exactly what lies there, and the fingerprints of the
layers cover every file that they are built from.
-/

namespace DesignTokens

open FileTree

section Order

theorem bytes_injective {s t : String} (h : Text.bytes s = Text.bytes t) : s = t := by
  have hst : s < t ↔ t < t := by rw [← Text.bytes_lt_iff, h, Text.bytes_lt_iff]
  have hts : t < s ↔ t < t := by rw [← Text.bytes_lt_iff, h, Text.bytes_lt_iff]
  exact le_antisymm (not_lt.mp fun hlt => lt_irrefl t (hts.mp hlt))
    (not_lt.mp fun hlt => lt_irrefl t (hst.mp hlt))

/-- Names are compared byte by byte. -/
theorem map_bytes_lt_iff {a b : Location} : a.map Text.bytes < b.map Text.bytes ↔ a < b := by
  induction a generalizing b with
  | nil =>
    cases b with
    | nil => exact ⟨fun h => absurd h (List.not_lt_nil _), fun h => absurd h (List.not_lt_nil _)⟩
    | cons y b => exact ⟨fun _ => List.nil_lt_cons y b, fun _ => List.nil_lt_cons _ _⟩
  | cons x a ih =>
    cases b with
    | nil => exact ⟨fun h => absurd h (List.not_lt_nil _), fun h => absurd h (List.not_lt_nil _)⟩
    | cons y b =>
      have hsame : Text.bytes x = Text.bytes y ↔ x = y := ⟨bytes_injective, congrArg _⟩
      rw [List.map_cons, List.map_cons, List.cons_lt_cons_iff, List.cons_lt_cons_iff,
        Text.bytes_lt_iff, hsame, ih]

theorem lt_of_append_left_lt {l a b : Location} (h : l ++ a < l ++ b) : a < b := by
  induction l with
  | nil => exact h
  | cons x l ih =>
    rcases List.cons_lt_cons_iff.mp h with hlt | ⟨-, hrest⟩
    · exact absurd hlt (lt_irrefl x)
    · exact ih hrest

end Order

section JsonFiles

theorem toList_of_extension? {name ending : String} (h : Path.extension? name = some ending) :
    ∃ stem, stem ≠ [] ∧ name.toList = stem ++ '.' :: ending.toList := by
  simp only [Path.extension?] at h
  split at h
  · cases h
  · rename_i dot front hdot
    split at h
    · cases h
    · rename_i hfront
      have hne : front ≠ [] := by
        rintro rfl
        exact hfront rfl
      have hmark : dot = '.' := by
        have := List.head?_dropWhile_not (fun c => decide (c ≠ '.')) name.toList.reverse
        rw [hdot] at this
        simpa using this
      have hsplit := List.takeWhile_append_dropWhile
        (p := fun c => decide (c ≠ '.')) (l := name.toList.reverse)
      rw [hdot, hmark] at hsplit
      refine ⟨front.reverse, by simpa using hne, ?_⟩
      rw [← Option.some.inj h, String.toList_ofList]
      calc name.toList = name.toList.reverse.reverse := (List.reverse_reverse _).symm
        _ = front.reverse ++ '.' ::
            (name.toList.reverse.takeWhile fun c => decide (c ≠ '.')).reverse := by
          conv_lhs => rw [← hsplit]
          simp

/-- A name ends in `.json` behind some character. -/
theorem endsInJson_iff {l : Location} :
    endsInJson l ↔ ∃ front stem, stem ≠ "" ∧ l = front ++ [stem ++ ".json"] := by
  constructor
  · intro h
    rw [endsInJson] at h
    split at h
    · rename_i name hlast
      obtain ⟨front, rfl⟩ := List.getLast?_eq_some_iff.mp hlast
      obtain ⟨stem, hne, hname⟩ := toList_of_extension? (of_decide_eq_true h)
      refine ⟨front, String.ofList stem, ?_, ?_⟩
      · simpa using hne
      · have hstem : name = String.ofList stem ++ ".json" := by
          simp [← String.toList_inj, hname]
        rw [hstem]
    · cases h
  · rintro ⟨front, stem, hne, rfl⟩
    exact endsInJson_of_ending (by simpa using hne) (String.toList_append ..)

namespace Place

variable {w : Place} {dir : Path}

/-- The `json` files below a directory by their ways from there: each once, in the order of their
names' bytes. -/
structure ListsJson (w : Place) (dir : Path) (names : List Location) : Prop where
  ascending : names.Pairwise fun a b => a.map Text.bytes < b.map Text.bytes
  mem_iff : ∀ l, l ∈ names ↔ w.tree.IsFile (w.target dir ++ l) ∧
    ∃ front stem, stem ≠ "" ∧ l = front ++ [stem ++ ".json"]
  locate : ∀ l ∈ names, w.locate (dir.joinAll l) = .ok (w.target dir ++ l)

theorem exists_listsJson (hwf : w.tree.WellFormed) (hdir : w.isDirectory dir) :
    ∃ names, w.ListsJson dir names ∧ w.jsonFiles dir = names.map dir.joinAll := by
  obtain ⟨names, hnames⟩ : ∃ names : List Location, w.jsonEntries dir =
      names.map fun l => (dir.joinAll l, w.target dir ++ l) := by
    refine ⟨(w.jsonEntries dir).map fun x => x.2.drop (w.target dir).length, ?_⟩
    rw [List.map_map]
    refine (List.map_id _).symm.trans (List.map_congr_left fun x hx => ?_)
    obtain ⟨-, l, -, rfl, -⟩ := (mem_jsonEntries_iff hwf).mp hx
    simp
  have hmem : ∀ l, l ∈ names ↔ l ≠ [] ∧ (w.tree.jsonAt (w.target dir ++ l)).isSome := by
    intro l
    have hinjective : Function.Injective fun l => (dir.joinAll l, w.target dir ++ l) :=
      fun a b hab => List.append_cancel_left (Prod.mk.inj hab).2
    have hentry : (dir.joinAll l, w.target dir ++ l) ∈ w.jsonEntries dir ↔ _ :=
      mem_jsonEntries_iff hwf
    rw [hnames, List.mem_map_of_injective hinjective] at hentry
    rw [hentry]
    constructor
    · rintro ⟨-, m, hne, hsame, hsome⟩
      obtain rfl : l = m := hinjective hsame
      exact ⟨hne, hsome⟩
    · rintro ⟨hne, hsome⟩
      exact ⟨hdir, l, hne, rfl, hsome⟩
  refine ⟨names, ⟨?_, fun l => ?_, fun l hl => ?_⟩, ?_⟩
  · have hascending := jsonEntries_ascending hwf dir
    rw [hnames, List.pairwise_map] at hascending
    exact hascending.imp fun hlt => map_bytes_lt_iff.mpr (lt_of_append_left_lt hlt)
  · have hends : l ≠ [] → (endsInJson (w.target dir ++ l) ↔ endsInJson l) := fun hne => by
      rw [endsInJson_append hne (w.target dir) [], List.nil_append]
    rw [hmem, isSome_jsonAt_iff, ← endsInJson_iff]
    constructor
    · rintro ⟨hne, hjson, hfile⟩
      exact ⟨hfile, (hends hne).mp hjson⟩
    · rintro ⟨hfile, hjson⟩
      have hne : l ≠ [] := by
        rintro rfl
        cases hjson
      exact ⟨hne, (hends hne).mpr hjson, hfile⟩
  · obtain ⟨hne, hsome⟩ := (hmem l).mp hl
    obtain ⟨-, content, modified, hlookup⟩ := isSome_jsonAt_iff.mp hsome
    have hnode := node_joinAll hwf hdir hne hlookup
    have hproper : ∀ name ∈ l, ProperName name := fun name hname =>
      hwf.proper_of_lookup (by rw [hlookup]; rfl) name (List.mem_append_right _ hname)
    rw [← target_joinAll dir hproper]
    exact (node_eq_ok_iff.mp hnode).1
  · rw [jsonFiles_eq, hnames, List.map_map]
    rfl

end Place

end JsonFiles

section Flavors

theorem FlavorFile.ofName?_eq_mode_iff {name mode : String} :
    ofName? name = some (.mode mode) ↔ mode ≠ "" ∧ name = "flavor-" ++ mode ++ ".json" := by
  constructor
  · intro h
    obtain ⟨hne, hname⟩ := toList_of_mode h
    refine ⟨by simpa using hne, ?_⟩
    rw [← String.toList_inj, hname, String.toList_append, String.toList_append]
  · rintro ⟨hne, rfl⟩
    have hend : Text.stripEnd ".json".toList ("flavor-" ++ mode ++ ".json").toList =
        some ("flavor-".toList ++ mode.toList) := by
      rw [String.toList_append, String.toList_append, Text.stripEnd_append]
    have hmark : "flavor-".toList ++ mode.toList ≠ "flavor".toList := by
      intro heq
      have hlength := congrArg List.length heq
      simp at hlength
    have hmode : mode.toList ≠ [] := by simpa using hne
    rw [ofName?, hend]
    simp only [if_neg hmark, Text.stripStart_append]
    rw [String.ofList_toList]

namespace Flavor

variable {w : Place} {dir : Path}

/-- What a directory of flavors holds: a flavor for each directory with an entry for the base file,
in the order of their names' bytes, and for each of them the entries that are named for a mode. -/
structure Lists (w : Place) (dir : Path) (flavors : List Flavor) : Prop where
  ascending : (flavors.map fun f => Text.bytes f.name).Pairwise (· < ·)
  mem_iff : ∀ n, n ∈ flavors.map Flavor.name ↔
    w.tree.lookup (w.target dir ++ [n]) = some .directory ∧
      (w.tree.lookup (w.target dir ++ [n, "flavor.json"])).isSome
  baseFile : ∀ f ∈ flavors, f.baseFile = (dir.join f.name).join "flavor.json"
  modes_ascending : ∀ f ∈ flavors, (f.modeFiles.map fun e => Text.bytes e.1).Pairwise (· < ·)
  mode_iff : ∀ f ∈ flavors, ∀ m p, (m, p) ∈ f.modeFiles ↔ m ≠ "" ∧
    (w.tree.lookup (w.target dir ++ [f.name, "flavor-" ++ m ++ ".json"])).isSome ∧
      p = (dir.join f.name).join ("flavor-" ++ m ++ ".json")

/-- The mode that a file is named for. -/
def modeOf? (name : String) : Option String :=
  match FlavorFile.ofName? name with
  | some (.mode mode) => some mode
  | _ => none

theorem modeOf?_eq_some_iff {name mode : String} :
    modeOf? name = some mode ↔ mode ≠ "" ∧ name = "flavor-" ++ mode ++ ".json" := by
  rw [← FlavorFile.ofName?_eq_mode_iff, modeOf?]
  rcases FlavorFile.ofName? name with _ | (_ | found) <;> simp

/-- The mode files in a flavor's directory, in the order of the directory. -/
def modeEntries (w : Place) (dir : Path) : List (String × Path) :=
  (w.namesIn dir).filterMap fun name => (modeOf? name).map fun mode => (mode, dir.join name)

theorem modeFilesIn_eq (w : Place) (dir : Path) :
    modeFilesIn w dir = Keyed.sortedOf (modeEntries w dir) := by
  rw [modeFilesIn, modeEntries]
  congr 2
  funext name
  rw [modeOf?]
  rcases FlavorFile.ofName? name with _ | (_ | found) <;> rfl

theorem mem_modeFilesIn_iff (hwf : w.tree.WellFormed) (hdir : w.isDirectory dir) {m : String}
    {p : Path} :
    (m, p) ∈ modeFilesIn w dir ↔ m ≠ "" ∧
      (w.tree.lookup (w.target dir ++ ["flavor-" ++ m ++ ".json"])).isSome ∧
        p = dir.join ("flavor-" ++ m ++ ".json") := by
  have hkeys : (Keyed.keys (modeEntries w dir)).Nodup := by
    rw [Keyed.keys, modeEntries, List.map_filterMap]
    simp only [Option.map_map, Function.comp_def, Option.map_id_fun', id]
    rw [Place.namesIn_of_isDirectory hdir]
    refine hwf.childNames_nodup.filterMap fun a b mode ha hb => ?_
    rw [(modeOf?_eq_some_iff.mp ha).2, (modeOf?_eq_some_iff.mp hb).2]
  rw [modeFilesIn_eq, ← Keyed.get?_eq_some_iff (Keyed.ascending_sortedOf _).nodup,
    Keyed.get?_sortedOf hkeys, modeEntries, List.mem_filterMap,
    Place.namesIn_of_isDirectory hdir]
  constructor
  · rintro ⟨name, hname, heq⟩
    obtain ⟨mode, hmode, heq⟩ := Option.map_eq_some_iff.mp heq
    obtain ⟨rfl, rfl⟩ := Prod.mk.inj heq
    obtain ⟨hne, rfl⟩ := modeOf?_eq_some_iff.mp hmode
    exact ⟨hne, mem_childNames_iff.mp hname, rfl⟩
  · rintro ⟨hne, hsome, rfl⟩
    refine ⟨_, mem_childNames_iff.mpr hsome, ?_⟩
    rw [modeOf?_eq_some_iff.mpr ⟨hne, rfl⟩]
    rfl

/-- The names of the directories with an entry for the base file. -/
def namesOf (w : Place) (dir : Path) : List String :=
  (w.namesIn dir).filter fun n => w.isDirectory (dir.join n) &&
    (w.tree.lookup (w.target (dir.join n) ++ ["flavor.json"])).isSome

theorem discover_eq_map (w : Place) (dir : Path) :
    discover w dir = (namesOf w dir).map (named w dir) := by
  rw [discover, candidates, namesOf]
  induction w.namesIn dir with
  | nil => rfl
  | cons n names ih =>
    rw [List.map_cons, List.filter_cons, List.filter_cons]
    by_cases hdir : w.isDirectory (dir.join n)
    · rw [if_pos hdir, List.filterMap_cons, ih, baseFile?_eq hdir]
      cases hbase : (w.tree.lookup (w.target (dir.join n) ++ ["flavor.json"])).isSome with
      | true => simp [hdir, named]
      | false => simp
    · rw [if_neg hdir, ih]
      simp [hdir]

theorem mem_names_discover_iff (hwf : w.tree.WellFormed) (hdir : w.isDirectory dir) {n : String} :
    n ∈ (discover w dir).map Flavor.name ↔
      w.tree.lookup (w.target dir ++ [n]) = some .directory ∧
        (w.tree.lookup (w.target dir ++ [n, "flavor.json"])).isSome := by
  have hnames : (discover w dir).map Flavor.name = namesOf w dir := by
    rw [discover_eq_map, List.map_map]
    exact List.map_id _
  rw [hnames, namesOf, List.mem_filter, Bool.and_eq_true, Place.namesIn_of_isDirectory hdir,
    mem_childNames_iff]
  have hassoc : w.target dir ++ [n, "flavor.json"] = w.target dir ++ [n] ++ ["flavor.json"] := by
    simp
  constructor
  · rintro ⟨hsome, hn, hbase⟩
    have hproper : ProperName n :=
      hwf.proper_of_lookup hsome n (List.mem_append_right _ (List.mem_singleton_self n))
    rw [Place.target_join _ hproper, ← hassoc] at hbase
    exact ⟨(isDirectory_join_iff hdir hproper).mp hn, hbase⟩
  · rintro ⟨hlookup, hbase⟩
    have hsome : (w.tree.lookup (w.target dir ++ [n])).isSome := by
      rw [hlookup]
      rfl
    have hproper : ProperName n :=
      hwf.proper_of_lookup hsome n (List.mem_append_right _ (List.mem_singleton_self n))
    rw [Place.target_join _ hproper, ← hassoc]
    exact ⟨hsome, (isDirectory_join_iff hdir hproper).mpr hlookup, hbase⟩

/-- A directory below the tokens holds the flavors that are found there, also if it is missing. -/
theorem lists_discover (hwf : w.tree.WellFormed) {tokens : Path} (htokens : w.isDirectory tokens)
    {name : String} (hname : ProperName name) :
    Lists w (tokens.join name) (discover w (tokens.join name)) := by
  have hflavor : ∀ f ∈ discover w (tokens.join name), ProperName f.name ∧
      w.isDirectory ((tokens.join name).join f.name) ∧ f = named w (tokens.join name) f.name := by
    intro f hf
    obtain ⟨n, file, hproper, hdirectory, hbase, rfl⟩ := exists_of_mem_discover hwf hf
    refine ⟨hproper, hdirectory, ?_⟩
    rw [baseFile?_eq hdirectory] at hbase
    split at hbase
    · rw [← Option.some.inj hbase]
      rfl
    · cases hbase
  constructor
  · rw [discover_eq_map, List.map_map, List.pairwise_map, namesOf, Place.namesIn]
    split
    · refine (hwf.childNames_ascending.sublist List.filter_sublist).imp fun hlt => ?_
      exact Text.bytes_lt_iff.mpr hlt
    · exact List.Pairwise.nil
  · intro n
    by_cases hdir : w.isDirectory (tokens.join name)
    · exact mem_names_discover_iff hwf hdir
    · have hnone : (discover w (tokens.join name)) = [] := by
        rw [discover_eq_map, namesOf, Place.namesIn, Bool.eq_false_iff.mpr hdir]
        rfl
      rw [hnone]
      refine ⟨fun h => absurd h List.not_mem_nil, ?_⟩
      rintro ⟨hlookup, -⟩
      refine absurd ((isDirectory_join_iff htokens hname).mpr ?_) hdir
      rw [Place.target_join _ hname] at hlookup
      exact hwf.lookup_of_below (Below.append (List.cons_ne_nil _ _)) (by rw [hlookup]; rfl)
  · intro f hf
    rw [(hflavor f hf).2.2]
    rfl
  · intro f hf
    rw [(hflavor f hf).2.2, named, modeFilesIn_eq, List.pairwise_map]
    have hascending :=
      Keyed.ascending_sortedOf (modeEntries w ((tokens.join name).join f.name))
    rw [Keyed.Ascending, Keyed.keys, List.pairwise_map] at hascending
    exact hascending.imp fun hlt => Text.bytes_lt_iff.mpr hlt
  · intro f hf m p
    obtain ⟨hproper, hdirectory, heq⟩ := hflavor f hf
    have hmodes : f.modeFiles = modeFilesIn w ((tokens.join name).join f.name) :=
      congrArg Flavor.modeFiles heq
    rw [hmodes, mem_modeFilesIn_iff hwf hdirectory, Place.target_join _ hproper, List.append_assoc]
    rfl

end Flavor

end Flavors

section Layers

namespace Layer

variable {w : Place} {tokens p : Path} {flavor : String} {kind : LayerKind}

/-- What a layer is built from is fingerprinted with its own directory or with that of a layer in
front of it. -/
structure Covered (w : Place) (before : List Layer) (layer : Layer) : Prop where
  own : ∀ p ∈ BuildContext.sourceReads layer, w.isFile p → p ∈ w.jsonFiles layer.sourceDir
  included : ∀ p ∈ layer.dependencies, ∃ earlier ∈ before, p ∈ BuildContext.sourceReads earlier
  hashed : ∀ p ∈ BuildContext.layerReads layer, ∀ content, w.read p = .ok content →
    ∃ other ∈ before ++ [layer], ∃ hashes, w.fingerprint other.sourceDir = .ok hashes ∧
      Keyed.get? (w.cacheKey p) hashes = some (Sha256.hexDigest content)

/-- A regular file among a layer's own is a `json` file below its directory. -/
theorem exists_source_of_read (hwf : w.tree.WellFormed) (htokens : w.isDirectory tokens)
    (hp : p ∈ BuildContext.sourceReads (ofKind w tokens flavor kind)) {content : ByteArray}
    (hread : w.read p = .ok content) :
    ∃ names, names ≠ [] ∧ p = (tokens.join kind.dirName).joinAll names ∧
      w.Source (tokens.join kind.dirName) (w.target (tokens.join kind.dirName) ++ names)
        content := by
  obtain ⟨names, hne, hproper, rfl, hends, -⟩ := exists_of_mem_sourceReads hwf hp
  obtain ⟨modified, hnode⟩ := Place.read_eq_ok_iff.mp hread
  have hlookup := (Place.node_eq_ok_iff.mp hnode).2
  rw [Place.target_joinAll _ hproper] at hlookup
  rw [← Place.target_join _ kind.proper_dirName] at hends
  have hjson := jsonAt_eq_some_iff.mpr ⟨hends, modified, hlookup⟩
  have hsome : (w.tree.jsonAt (w.target tokens ++ [kind.dirName] ++ names)).isSome := by
    rw [← Place.target_join _ kind.proper_dirName, hjson]
    rfl
  exact ⟨names, hne, rfl,
    Place.isDirectory_join_of_isFile hwf kind.proper_dirName htokens hne hsome,
    Below.append hne, hjson⟩

theorem mem_jsonFiles_of_mem_sourceReads (hwf : w.tree.WellFormed) (htokens : w.isDirectory tokens)
    (hp : p ∈ BuildContext.sourceReads (ofKind w tokens flavor kind)) (hfile : w.isFile p) :
    p ∈ w.jsonFiles (ofKind w tokens flavor kind).sourceDir := by
  obtain ⟨content, hread⟩ : ∃ content, w.read p = .ok content := by
    rw [Place.isFile] at hfile
    rcases hnode : w.node p with _ | ⟨_ | ⟨content, modified⟩⟩
    · simp [hnode] at hfile
    · simp [hnode] at hfile
    · exact ⟨content, Place.read_eq_ok_iff.mpr ⟨modified, hnode⟩⟩
  obtain ⟨names, hne, rfl, hdir, -, hjson⟩ := exists_source_of_read hwf htokens hp hread
  rw [sourceDir_ofKind]
  exact (Place.mem_jsonFiles_iff hwf).mpr ⟨hdir, names, hne, rfl, by rw [hjson]; rfl⟩

theorem hashed_of_mem_sourceReads (hwf : w.tree.WellFormed) (htokens : w.isDirectory tokens)
    (hp : p ∈ BuildContext.sourceReads (ofKind w tokens flavor kind)) {content : ByteArray}
    (hread : w.read p = .ok content) :
    ∃ hashes, w.fingerprint (ofKind w tokens flavor kind).sourceDir = .ok hashes ∧
      Keyed.get? (w.cacheKey p) hashes = some (Sha256.hexDigest content) := by
  obtain ⟨names, hne, rfl, hsource⟩ := exists_source_of_read hwf htokens hp hread
  obtain ⟨-, modified, hlookup⟩ := jsonAt_eq_some_iff.mp hsource.2.2
  rw [sourceDir_ofKind]
  refine ⟨_, Place.fingerprint_eq hwf _, ?_⟩
  rw [Place.get?_fingerprint hwf (Place.fingerprint_eq hwf _), Place.cacheKey,
    Place.canonical_joinAll hwf hsource.1 hne hlookup]
  exact ⟨_, content, hsource, rfl, rfl⟩

/-- The layers in front of one are those of lower rank. -/
theorem mem_take_discoverIn {other : LayerKind} (hrank : other.rank < kind.rank) :
    ofKind w tokens flavor other ∈ (discoverIn w tokens flavor).take kind.rank := by
  rw [discoverIn_eq]
  cases kind <;> cases other <;> simp_all [LayerKind.rank, LayerKind.all]

theorem exists_kind_of_getElem? {i : Nat} {layer : Layer}
    (h : (discoverIn w tokens flavor)[i]? = some layer) :
    ∃ kind : LayerKind, kind.rank = i ∧ layer = ofKind w tokens flavor kind := by
  rw [discoverIn_eq, List.getElem?_map] at h
  obtain ⟨kind, hkind, rfl⟩ := Option.map_eq_some_iff.mp h
  refine ⟨kind, ?_, rfl⟩
  match i, hkind with
  | 0, rfl => rfl
  | 1, rfl => rfl
  | 2, rfl => rfl

theorem covered_discoverIn (hwf : w.tree.WellFormed) (htokens : w.isDirectory tokens) {i : Nat}
    {layer : Layer} (h : (discoverIn w tokens flavor)[i]? = some layer) :
    Covered w ((discoverIn w tokens flavor).take i) layer := by
  obtain ⟨kind, rfl, rfl⟩ := exists_kind_of_getElem? h
  have hincluded : ∀ p ∈ (ofKind w tokens flavor kind).dependencies, ∃ other : LayerKind,
      ofKind w tokens flavor other ∈ (discoverIn w tokens flavor).take kind.rank ∧
        p ∈ BuildContext.sourceReads (ofKind w tokens flavor other) := by
    intro p hp
    obtain ⟨other, hrank, hp⟩ := mem_sourceReads_of_mem_dependencies hp
    exact ⟨other, mem_take_discoverIn hrank, hp⟩
  constructor
  · exact fun p hp => mem_jsonFiles_of_mem_sourceReads hwf htokens hp
  · intro p hp
    obtain ⟨other, hother, hp⟩ := hincluded p hp
    exact ⟨_, hother, hp⟩
  · intro p hp content hread
    rcases List.mem_append.mp hp with hp | hp
    · obtain ⟨other, hother, hp⟩ := hincluded p hp
      exact ⟨_, List.mem_append_left _ hother, hashed_of_mem_sourceReads hwf htokens hp hread⟩
    · exact ⟨_, List.mem_append_right _ (List.mem_singleton_self _),
        hashed_of_mem_sourceReads hwf htokens hp hread⟩

/-- What is found below a tokens directory is what lies there: its `json` files, its flavors with
their modes, and layers whose files are covered by the fingerprints of the layers up to them. -/
theorem discovery_exact (hwf : w.tree.WellFormed) (htokens : w.isDirectory tokens)
    (flavor : String) :
    (∀ dir, w.isDirectory dir →
      ∃ names, w.ListsJson dir names ∧ w.jsonFiles dir = names.map dir.joinAll) ∧
    Flavor.Lists w (tokens.join flavorsName) (Flavor.discover w (tokens.join flavorsName)) ∧
    ∃ layers, discover w tokens flavor = .ok layers ∧
      ∀ i layer, layers[i]? = some layer → Covered w (layers.take i) layer := by
  refine ⟨fun dir hdir => Place.exists_listsJson hwf hdir,
    Flavor.lists_discover hwf htokens LayerKind.theme.proper_dirName,
    discoverIn w tokens flavor, ?_, fun i layer => covered_discoverIn hwf htokens⟩
  rw [discover, if_pos htokens]

/-- A flavor with one mode. -/
def duskPlace : Place :=
  ⟨⟨[(["tokens"], .directory), (["tokens", "flavors"], .directory),
    (["tokens", "flavors", "original"], .directory),
    (["tokens", "flavors", "original", "flavor.json"], .file "{}".toUTF8 0),
    (["tokens", "flavors", "original", "flavor-dusk.json"], .file "{}".toUTF8 0)]⟩, []⟩

/-- The mode is found with its flavor, and both files are covered. -/
theorem discovery_exact_dusk :
    (∃ f ∈ Flavor.discover duskPlace ⟨"tokens/flavors"⟩, f.name = "original" ∧
      ("dusk", ⟨"tokens/flavors/original/flavor-dusk.json"⟩) ∈ f.modeFiles) ∧
    ∃ layers, discover duskPlace ⟨"tokens"⟩ "original" = .ok layers ∧
      ∀ i layer, layers[i]? = some layer → Covered duskPlace (layers.take i) layer := by
  have hwf : duskPlace.tree.WellFormed := by decide +kernel
  have htokens : duskPlace.isDirectory ⟨"tokens"⟩ := by decide +kernel
  obtain ⟨-, hflavors, hlayers⟩ := discovery_exact hwf htokens "original"
  have hpath : Path.join ⟨"tokens"⟩ flavorsName = ⟨"tokens/flavors"⟩ := by decide +kernel
  rw [hpath] at hflavors
  have hname : "original" ∈ (Flavor.discover duskPlace ⟨"tokens/flavors"⟩).map Flavor.name :=
    (hflavors.mem_iff "original").mpr (by decide +kernel)
  obtain ⟨f, hf, hname⟩ := List.mem_map.mp hname
  refine ⟨⟨f, hf, hname, (hflavors.mode_iff f hf "dusk" _).mpr ?_⟩, hlayers⟩
  rw [hname]
  decide +kernel

end Layer

end Layers

end DesignTokens
