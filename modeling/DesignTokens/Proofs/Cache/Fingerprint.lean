import DesignTokens.Cache.Staleness
import DesignTokens.Proofs.Keyed
import DesignTokens.Proofs.Workspace.JsonFiles

/-!
What the fingerprint of a source directory tells: the contents of its `json` files, as far as no two
contents have the same hash.
-/

namespace DesignTokens

namespace Place

open FileTree

variable {w v : Place}

theorem names_pathOf {l : Location} (h : ∀ name ∈ l, ProperName name) : (pathOf l).names = l := by
  have htext : (pathOf l).text.toList = [] ++ '/' :: ['/'].intercalate (l.map String.toList) := by
    rw [pathOf, String.toList_append, Text.toList_join]
    rfl
  rw [Path.names, htext, Text.splitAt_append_mark]
  cases l with
  | nil => rfl
  | cons name rest =>
      have hslash : ∀ part ∈ name.toList :: rest.map String.toList, '/' ∉ part := by
        intro part hpart
        rw [← List.map_cons] at hpart
        obtain ⟨other, hother, rfl⟩ := List.mem_map.mp hpart
        exact (h other hother).no_slash
      rw [List.map_cons, Text.splitAt_intercalate hslash, ← List.map_cons]
      have hfilter : ((name :: rest).map String.toList).filter (· ≠ []) =
          (name :: rest).map String.toList := by
        rw [List.filter_eq_self]
        intro part hpart
        obtain ⟨other, hother, rfl⟩ := List.mem_map.mp hpart
        simpa using (h other hother).ne_empty
      rw [List.filter_append, hfilter, List.map_append, List.map_map]
      simp [Text.splitAt]

/-- The absolute path of a location leads along its names. -/
theorem steps_pathOf {l : Location} (h : ∀ name ∈ l, ProperName name) : (pathOf l).steps = l := by
  rw [Path.steps, names_pathOf h, List.filter_eq_self]
  intro name hname
  simpa using (h name hname).ne_here

theorem isAbsolute_pathOf (l : Location) : (pathOf l).isAbsolute := by
  rw [Path.isAbsolute, pathOf, String.toList_append]
  rfl

theorem pathOf_injective {l m : Location} (hl : ∀ name ∈ l, ProperName name)
    (hm : ∀ name ∈ m, ProperName name) (h : (pathOf l).text = (pathOf m).text) : l = m := by
  rw [← names_pathOf hl, ← names_pathOf hm, Path.names, Path.names, h]

theorem node_joinAll (hwf : w.tree.WellFormed) {dir : Path} (hdir : w.isDirectory dir)
    {names : List String} (hne : names ≠ []) {n : Node}
    (hlookup : w.tree.lookup (w.target dir ++ names) = some n) :
    w.node (dir.joinAll names) = .ok n := by
  have hproper : ∀ name ∈ names, ProperName name := fun name hname =>
    hwf.proper_of_lookup (by rw [hlookup]; rfl) name (List.mem_append_right _ hname)
  obtain ⟨front, name, rfl⟩ := List.eq_nil_or_concat names |>.resolve_left hne
  rw [List.concat_eq_append] at *
  obtain ⟨hfront, hname⟩ := List.forall_mem_append.mp hproper
  rw [List.forall_mem_singleton] at hname
  obtain ⟨more, hroute, hmore⟩ := route_joinAll (w := w) dir hfront
  rw [Path.joinAll_concat, node_join_eq_ok_iff hname, target_joinAll dir hfront, hroute, Passable,
    List.forall_mem_append, List.append_assoc]
  refine ⟨⟨(isDirectory_iff.mp hdir).2, ?_⟩, hlookup⟩
  intro l hl
  obtain ⟨start, -, hstart, rfl⟩ := hmore l hl
  refine hwf.lookup_of_below ?_ (show (w.tree.lookup (w.target dir ++ (front ++ [name]))).isSome by
    rw [hlookup]; rfl)
  refine ⟨?_, ?_⟩
  · rw [List.prefix_append_right_inj]
    exact hstart.trans (List.prefix_append _ _)
  · intro heq
    have hlength := congrArg List.length heq
    have hle := hstart.length_le
    simp only [List.length_append, List.length_cons, List.length_nil] at hlength
    omega

theorem read_joinAll (hwf : w.tree.WellFormed) {dir : Path} (hdir : w.isDirectory dir)
    {names : List String} (hne : names ≠ []) {content : ByteArray} {modified : Nat}
    (hlookup : w.tree.lookup (w.target dir ++ names) = some (.file content modified)) :
    w.read (dir.joinAll names) = .ok content := by
  rw [read, node_joinAll hwf hdir hne hlookup]
  rfl

theorem canonical_joinAll (hwf : w.tree.WellFormed) {dir : Path} (hdir : w.isDirectory dir)
    {names : List String} (hne : names ≠ []) {n : Node}
    (hlookup : w.tree.lookup (w.target dir ++ names) = some n) :
    w.canonical (dir.joinAll names) = .ok (pathOf (w.target dir ++ names)) := by
  have hproper : ∀ name ∈ names, ProperName name := fun name hname =>
    hwf.proper_of_lookup (by rw [hlookup]; rfl) name (List.mem_append_right _ hname)
  obtain ⟨hlocate, -⟩ := node_eq_ok_iff.mp (node_joinAll hwf hdir hne hlookup)
  rw [canonical, hlocate, target_joinAll dir hproper]
  simp only [bind, Except.bind, hlookup]
  rfl

/-- The key and the hash of a source file. -/
def hashEntry (w : Place) (x : Path × Location) : String × String :=
  ((pathOf x.2).text, Sha256.hexDigest ((w.tree.jsonAt x.2).getD .empty))

theorem hashEach_jsonEntries (hwf : w.tree.WellFormed) {dir : Path}
    {entries : List (Path × Location)} (h : ∀ x ∈ entries, x ∈ w.jsonEntries dir) :
    w.hashEach (entries.map Prod.fst) = .ok (entries.map w.hashEntry) := by
  induction entries with
  | nil => rfl
  | cons x rest ih =>
      obtain ⟨hx, hrest⟩ := List.forall_mem_cons.mp h
      obtain ⟨hdir, names, hne, rfl, hsome⟩ := (mem_jsonEntries_iff hwf).mp hx
      obtain ⟨content, hcontent⟩ := Option.isSome_iff_exists.mp hsome
      obtain ⟨-, modified, hlookup⟩ := jsonAt_eq_some_iff.mp hcontent
      rw [List.map_cons, hashEach, hashFile, read_joinAll hwf hdir hne hlookup, ih hrest, cacheKey,
        canonical_joinAll hwf hdir hne hlookup, List.map_cons, hashEntry, hcontent]
      rfl

theorem mem_jsonEntries_join_iff (hwf : w.tree.WellFormed) {base : Path} {name : String}
    (hname : ProperName name) (hbase : w.isDirectory base) {x : Path × Location} :
    x ∈ w.jsonEntries (base.join name) ↔ ∃ names, names ≠ [] ∧
      x = ((base.join name).joinAll names, w.target base ++ [name] ++ names) ∧
      (w.tree.jsonAt (w.target base ++ [name] ++ names)).isSome := by
  rw [mem_jsonEntries_iff hwf, target_join _ hname]
  constructor
  · exact fun h => h.2
  · rintro ⟨names, hne, hx, hsome⟩
    exact ⟨isDirectory_join_of_isFile hwf hname hbase hne hsome, names, hne, hx, hsome⟩

theorem fingerprint_eq (hwf : w.tree.WellFormed) (dir : Path) :
    w.fingerprint dir = .ok (Keyed.sortedOf ((w.jsonEntries dir).map w.hashEntry)) := by
  rw [fingerprint, jsonFiles_eq, hashEach_jsonEntries hwf fun _ hx => hx]
  rfl

/-- A `json` file below a directory, with its contents. -/
def Source (w : Place) (dir : Path) (l : Location) (content : ByteArray) : Prop :=
  w.isDirectory dir ∧ Below (w.target dir) l ∧ w.tree.jsonAt l = some content

variable {dir : Path} {l : Location} {content : ByteArray}

theorem Source.proper (hwf : w.tree.WellFormed) (h : w.Source dir l content) :
    ∀ part ∈ l, ProperName part := by
  obtain ⟨-, modified, hlookup⟩ := jsonAt_eq_some_iff.mp h.2.2
  exact hwf.proper_of_lookup (by rw [hlookup]; rfl)

theorem exists_source (hwf : w.tree.WellFormed) {x : Path × Location}
    (hx : x ∈ w.jsonEntries dir) : ∃ content, w.Source dir x.2 content := by
  obtain ⟨hdir, names, hne, rfl, hsome⟩ := (mem_jsonEntries_iff hwf).mp hx
  obtain ⟨content, hcontent⟩ := Option.isSome_iff_exists.mp hsome
  exact ⟨content, hdir, Below.append hne, hcontent⟩

theorem Source.mem_jsonEntries (hwf : w.tree.WellFormed) (h : w.Source dir l content) :
    ∃ p, (p, l) ∈ w.jsonEntries dir := by
  obtain ⟨hdir, hbelow, hcontent⟩ := h
  obtain ⟨names, hne, rfl⟩ := Below.iff_append.mp hbelow
  exact ⟨_, (mem_jsonEntries_iff hwf).mpr ⟨hdir, names, hne, rfl, by rw [hcontent]; rfl⟩⟩

/-- A fingerprint has the hash of every `json` file below its directory, under the absolute path of
the file. -/
theorem get?_fingerprint (hwf : w.tree.WellFormed) {hashes : Fingerprint}
    (h : w.fingerprint dir = .ok hashes) (key hash : String) :
    Keyed.get? key hashes = some hash ↔
      ∃ l content, w.Source dir l content ∧ key = (pathOf l).text ∧
        hash = Sha256.hexDigest content := by
  obtain rfl := Except.ok.inj ((fingerprint_eq hwf dir).symm.trans h)
  have hnodup : (Keyed.keys ((w.jsonEntries dir).map w.hashEntry)).Nodup := by
    rw [Keyed.keys, List.map_map, List.Nodup, List.pairwise_map]
    refine (jsonEntries_ascending hwf dir).imp_of_mem ?_
    intro x y hx hy hlt heq
    obtain ⟨_, hx⟩ := exists_source hwf hx
    obtain ⟨_, hy⟩ := exists_source hwf hy
    rw [pathOf_injective (hx.proper hwf) (hy.proper hwf) heq] at hlt
    exact lt_irrefl _ hlt
  rw [Keyed.get?_sortedOf hnodup, List.mem_map]
  constructor
  · rintro ⟨x, hx, heq⟩
    obtain ⟨content, hsource⟩ := exists_source hwf hx
    obtain ⟨hkey, hhash⟩ := Prod.mk.inj heq
    refine ⟨x.2, content, hsource, hkey.symm, ?_⟩
    rw [← hhash, hsource.2.2]
    rfl
  · rintro ⟨l, content, hsource, rfl, rfl⟩
    obtain ⟨p, hmem⟩ := hsource.mem_jsonEntries hwf
    refine ⟨_, hmem, ?_⟩
    rw [hashEntry, hsource.2.2]
    rfl

theorem fingerprint_spec (hwf : w.tree.WellFormed) {base : Path} {name : String}
    (hname : ProperName name) (hbase : w.isDirectory base) :
    ∃ hashes, w.fingerprint (base.join name) = .ok hashes ∧
      ∀ key hash, Keyed.get? key hashes = some hash ↔
        ∃ l content, Below (w.target base ++ [name]) l ∧ w.tree.jsonAt l = some content ∧
          key = (pathOf l).text ∧ hash = Sha256.hexDigest content := by
  refine ⟨_, fingerprint_eq hwf _, fun key hash => ?_⟩
  rw [get?_fingerprint hwf (fingerprint_eq hwf _)]
  refine exists_congr fun l => exists_congr fun content => ?_
  rw [Source, target_join _ hname, and_assoc, and_assoc, and_iff_right_iff_imp]
  rintro ⟨hbelow, hcontent, -⟩
  obtain ⟨names, hne, rfl⟩ := Below.iff_append.mp hbelow
  exact isDirectory_join_of_isFile hwf hname hbase hne (by rw [hcontent]; rfl)

/-- Places with the same `json` files in a directory have the same fingerprint of it. -/
theorem fingerprint_congr (hw : w.tree.WellFormed) (hv : v.tree.WellFormed)
    (hcurrent : w.current = v.current) {base : Path} {name : String} (hname : ProperName name)
    (hbase : w.isDirectory base) (hbase' : v.isDirectory base)
    (hagree : AgreeBelow (w.target base ++ [name]) w.tree v.tree) :
    w.fingerprint (base.join name) = v.fingerprint (base.join name) := by
  have hentries := jsonEntries_congr hw hv hcurrent hname hbase hbase' hagree
  rw [fingerprint_eq hw, fingerprint_eq hv, ← hentries]
  have hhashes : (w.jsonEntries (base.join name)).map w.hashEntry =
      (w.jsonEntries (base.join name)).map v.hashEntry := by
    rw [List.map_inj_left]
    intro x hx
    obtain ⟨names, hne, rfl, -⟩ := (mem_jsonEntries_join_iff hw hname hbase).mp hx
    rw [hashEntry, hashEntry, hagree _ (Below.append hne)]
  rw [hhashes]

/-- Contents that no two of have the same hash. -/
def NoCollision (contents : ByteArray → Prop) : Prop :=
  ∀ a b, contents a → contents b → Sha256.hexDigest a = Sha256.hexDigest b → a = b

/-- All `json` files below a location have certain contents. -/
def ContentsBelow (l : Location) (contents : ByteArray → Prop) (t : FileTree) : Prop :=
  ∀ m content, Below l m → t.jsonAt m = some content → contents content

theorem jsonAt_of_hashes (hwf : w.tree.WellFormed) (hwf' : v.tree.WellFormed) {l m : Location}
    {contents : ByteArray → Prop} (hcollision : NoCollision contents)
    (hw : ContentsBelow l contents w.tree) (hv : ContentsBelow l contents v.tree)
    {hashes : Fingerprint}
    (hhashes : ∀ key hash, Keyed.get? key hashes = some hash ↔
      ∃ l' content, Below l l' ∧ w.tree.jsonAt l' = some content ∧
        key = (pathOf l').text ∧ hash = Sha256.hexDigest content)
    (hhashes' : ∀ key hash, Keyed.get? key hashes = some hash ↔
      ∃ l' content, Below l l' ∧ v.tree.jsonAt l' = some content ∧
        key = (pathOf l').text ∧ hash = Sha256.hexDigest content)
    (hm : Below l m) {content : ByteArray} (h : w.tree.jsonAt m = some content) :
    v.tree.jsonAt m = some content := by
  have hproper : ∀ (t : FileTree), t.WellFormed → ∀ l', (t.jsonAt l').isSome →
      ∀ part ∈ l', ProperName part := by
    intro t ht l' hsome
    obtain ⟨-, _, modified, hlookup⟩ := isSome_jsonAt_iff.mp hsome
    exact ht.proper_of_lookup (by rw [hlookup]; rfl)
  obtain ⟨m', content', hm', h', hkey, hhash⟩ :=
    (hhashes' _ _).mp ((hhashes _ _).mpr ⟨m, content, hm, h, rfl, rfl⟩)
  obtain rfl := pathOf_injective (hproper _ hwf m (by rw [h]; rfl))
    (hproper _ hwf' m' (by rw [h']; rfl)) hkey
  rw [h', hcollision content content' (hw m content hm h) (hv m content' hm' h') hhash]

/-- Places with the same fingerprint of a directory have the same `json` files in it. -/
theorem agreeBelow_of_fingerprint (hwf : w.tree.WellFormed) (hwf' : v.tree.WellFormed)
    (hcurrent : w.current = v.current) {base : Path} {name : String} (hname : ProperName name)
    (hbase : w.isDirectory base) (hbase' : v.isDirectory base) {contents : ByteArray → Prop}
    (hcollision : NoCollision contents)
    (hw : ContentsBelow (w.target base ++ [name]) contents w.tree)
    (hv : ContentsBelow (w.target base ++ [name]) contents v.tree) {hashes hashes' : Fingerprint}
    (hprint : w.fingerprint (base.join name) = .ok hashes)
    (hprint' : v.fingerprint (base.join name) = .ok hashes')
    (hsame : ∀ key, Keyed.get? key hashes = Keyed.get? key hashes') :
    AgreeBelow (w.target base ++ [name]) w.tree v.tree := by
  obtain ⟨_, hok, hspec⟩ := fingerprint_spec hwf hname hbase
  obtain rfl := Except.ok.inj (hprint.symm.trans hok)
  obtain ⟨_, hok', hspec'⟩ := fingerprint_spec hwf' hname hbase'
  obtain rfl := Except.ok.inj (hprint'.symm.trans hok')
  rw [← target_congr hcurrent] at hspec'
  simp only [← hsame] at hspec'
  intro m hm
  apply Option.ext
  intro content
  constructor
  · exact jsonAt_of_hashes hwf hwf' hcollision hw hv hspec hspec' hm
  · exact jsonAt_of_hashes hwf' hwf hcollision hv hw hspec' hspec hm

end Place

namespace Fingerprint

theorem get?_of_firstDifference {recorded current : Fingerprint}
    (h : recorded.firstDifference current = none) {entry : String × String}
    (hentry : entry ∈ current) : Keyed.get? entry.1 recorded = some entry.2 := by
  induction current with
  | nil => exact absurd hentry List.not_mem_nil
  | cons first rest ih =>
      obtain ⟨file, hash⟩ := first
      rw [firstDifference] at h
      split at h
      · exact absurd h nofun
      · rename_i cached hcached
        split at h
        · rename_i heq
          rcases List.mem_cons.mp hentry with rfl | hentry
          · rw [hcached, heq]
          · exact ih h hentry
        · exact absurd h nofun

theorem isSome_of_firstRemoved {recorded current : Fingerprint}
    (h : current.firstRemoved recorded = none) {entry : String × String}
    (hentry : entry ∈ recorded) : (Keyed.get? entry.1 current).isSome := by
  rw [firstRemoved, Option.map_eq_none_iff, List.find?_eq_none] at h
  have hsome := h entry hentry
  rwa [Option.isNone_iff_eq_none, ← Ne, Option.ne_none_iff_isSome] at hsome

/-- Without a difference two fingerprints have the same entries. -/
theorem get?_eq_of_no_difference {recorded current : Fingerprint}
    (hdifference : recorded.firstDifference current = none)
    (hremoved : current.firstRemoved recorded = none) (key : String) :
    Keyed.get? key current = Keyed.get? key recorded := by
  cases hcurrent : Keyed.get? key current with
  | some hash =>
      exact (get?_of_firstDifference hdifference (Keyed.mem_of_get? hcurrent)).symm
  | none =>
      cases hrecorded : Keyed.get? key recorded with
      | none => rfl
      | some hash =>
          have hsome := isSome_of_firstRemoved hremoved (Keyed.mem_of_get? hrecorded)
          rw [hcurrent] at hsome
          exact absurd hsome nofun

end Fingerprint

/-- A layer is only up to date if its sources have the fingerprint of its cache entry. -/
theorem CacheStore.decide_eq_upToDate {s : CacheStore} {w : Place} {layer : String}
    {sourceDir : Path} {outputDirs : List Path}
    (h : s.decide w layer sourceDir outputDirs = .upToDate) :
    ∃ entry current, s.entry? layer = some entry ∧ w.fingerprint sourceDir = .ok current ∧
      ∀ key, Keyed.get? key current = Keyed.get? key entry.hashes := by
  rw [decide] at h
  split at h
  · exact absurd h nofun
  · rename_i entry hentry
    split at h
    · exact absurd h nofun
    · rename_i current hcurrent
      refine ⟨entry, current, hentry, hcurrent, ?_⟩
      split at h
      · rename_i hempty
        rw [Bool.and_eq_true, List.isEmpty_iff, List.isEmpty_iff] at hempty
        rw [hempty.1, hempty.2]
        exact fun _ => rfl
      · split at h
        · exact absurd h nofun
        · dsimp only at h
          split at h
          · exact absurd h nofun
          · rename_i hnone
            obtain ⟨hdifference, hmore⟩ := Option.or_eq_none_iff.mp hnone
            obtain ⟨hremoved, -⟩ := Option.or_eq_none_iff.mp hmore
            exact Fingerprint.get?_eq_of_no_difference hdifference hremoved

end DesignTokens
