import DesignTokens.Proofs.Cache.Fingerprint
import DesignTokens.Proofs.Layer.Flavors

/-!
The layers of a tokens directory depend on its `json` files only, each on those of its own directory
and of the directories of the layers in front of it. The files that a layer is built from are among
them.
-/

namespace DesignTokens

namespace LayerKind

/-- The directory of a layer's sources, which is also the layer's name. -/
def dirName : LayerKind → String
  | primitives => ingredientsName
  | theme => flavorsName
  | composite => recipesName

/-- The place of a layer in the order in which layers build on one another. -/
def rank : LayerKind → Nat
  | primitives => 0
  | theme => 1
  | composite => 2

def all : List LayerKind := [primitives, theme, composite]

theorem mem_all (kind : LayerKind) : kind ∈ all := by
  cases kind <;> decide

theorem proper_dirName (kind : LayerKind) : ProperName kind.dirName := by
  cases kind <;> constructor <;> decide

theorem dirName_injective {kind other : LayerKind} (h : kind.dirName = other.dirName) :
    kind = other := by
  cases kind <;> cases other <;> first | rfl | exact absurd h (by decide)

theorem rank_injective {kind other : LayerKind} (h : kind.rank = other.rank) : kind = other := by
  cases kind <;> cases other <;> first | rfl | exact absurd h (by decide)

end LayerKind

namespace Layer

/-- The layer of a kind. -/
def ofKind (w : Place) (tokens : Path) (flavor : String) : LayerKind → Layer
  | .primitives =>
    ⟨ingredientsName, .primitives, tokens.join ingredientsName, [],
      .files (w.jsonFiles (tokens.join ingredientsName))⟩
  | .theme =>
    ⟨flavorsName, .theme, tokens.join flavorsName, w.jsonFiles (tokens.join ingredientsName),
      .flavors (Flavor.discover w (tokens.join flavorsName))⟩
  | .composite =>
    ⟨recipesName, .composite, tokens.join recipesName,
      w.jsonFiles (tokens.join ingredientsName) ++
        (((Flavor.discover w (tokens.join flavorsName)).find? fun f => f.name == flavor).map
          Flavor.baseFile).toList,
      .files (w.jsonFiles (tokens.join recipesName))⟩

theorem discoverIn_eq (w : Place) (tokens : Path) (flavor : String) :
    discoverIn w tokens flavor = LayerKind.all.map (ofKind w tokens flavor) := rfl

@[simp] theorem name_ofKind (w : Place) (tokens : Path) (flavor : String) (kind : LayerKind) :
    (ofKind w tokens flavor kind).name = kind.dirName := by
  cases kind <;> rfl

@[simp] theorem kind_ofKind (w : Place) (tokens : Path) (flavor : String) (kind : LayerKind) :
    (ofKind w tokens flavor kind).kind = kind := by
  cases kind <;> rfl

@[simp] theorem sourceDir_ofKind (w : Place) (tokens : Path) (flavor : String) (kind : LayerKind) :
    (ofKind w tokens flavor kind).sourceDir = tokens.join kind.dirName := by
  cases kind <;> rfl

end Layer

theorem eq_discoverIn_of_discover {w : Place} {tokens : Path} {flavor : String}
    {layers : List Layer} (h : Layer.discover w tokens flavor = .ok layers) :
    layers = Layer.discoverIn w tokens flavor := by
  rw [Layer.discover] at h
  split at h
  · exact (Except.ok.inj h).symm
  · exact absurd h nofun

theorem Layer.isDirectory_of_discover {w : Place} {tokens : Path} {flavor : String}
    {layers : List Layer} (h : Layer.discover w tokens flavor = .ok layers) :
    w.isDirectory tokens := by
  rw [Layer.discover] at h
  split at h
  · rename_i hdir
    exact hdir
  · exact absurd h nofun

/-- Every layer that is found is that of a kind. -/
theorem exists_ofKind_of_mem {w : Place} {tokens : Path} {flavor : String} {layers : List Layer}
    (h : Layer.discover w tokens flavor = .ok layers) {layer : Layer} (hlayer : layer ∈ layers) :
    ∃ kind, layer = Layer.ofKind w tokens flavor kind := by
  rw [eq_discoverIn_of_discover h, Layer.discoverIn_eq] at hlayer
  obtain ⟨kind, -, rfl⟩ := List.mem_map.mp hlayer
  exact ⟨kind, rfl⟩

namespace FileTree

/-- Two trees have the same `json` files for a layer and those in front of it. -/
def AgreeUpTo (l : Location) (kind : LayerKind) (t u : FileTree) : Prop :=
  ∀ other : LayerKind, other.rank ≤ kind.rank → AgreeBelow (l ++ [other.dirName]) t u

theorem AgreeUpTo.of_below {l : Location} {t u : FileTree}
    (h : ∀ m, Below l m → t.lookup m = u.lookup m) (kind : LayerKind) : AgreeUpTo l kind t u := by
  intro other _ m hm
  rw [jsonAt, jsonAt, h m (hm.of_le (List.prefix_append _ _))]

end FileTree

open FileTree

/-- A directory of token files. -/
structure Place.TokensAt (w : Place) (tokens : Path) : Prop where
  wellFormed : w.tree.WellFormed
  directory : w.isDirectory tokens
  regular : RegularBelow (w.target tokens) w.tree

namespace Layer

variable {w v : Place} {tokens : Path} {flavor : String} {kind : LayerKind}

theorem ofKind_congr (flavor : String) (hw : w.TokensAt tokens) (hv : v.TokensAt tokens)
    (hcurrent : w.current = v.current)
    (hagree : AgreeUpTo (w.target tokens) kind w.tree v.tree) :
    ofKind w tokens flavor kind = ofKind v tokens flavor kind := by
  have hjson : ∀ other : LayerKind, other.rank ≤ kind.rank →
      w.jsonFiles (tokens.join other.dirName) = v.jsonFiles (tokens.join other.dirName) :=
    fun other hrank => Place.jsonFiles_congr hw.wellFormed hv.wellFormed hcurrent
      other.proper_dirName hw.directory hv.directory (hagree other hrank)
  have hflavors : LayerKind.theme.rank ≤ kind.rank →
      Flavor.discover w (tokens.join flavorsName) = Flavor.discover v (tokens.join flavorsName) :=
    fun hrank => Flavor.discover_congr hw.wellFormed hv.wellFormed hcurrent
      LayerKind.theme.proper_dirName hw.directory hv.directory
      (hw.regular.of_le (List.prefix_append _ _))
      (hv.regular.of_le (Place.target_congr hcurrent tokens ▸ List.prefix_append _ _))
      (hagree .theme hrank)
  have hingredients : w.jsonFiles (tokens.join ingredientsName) =
      v.jsonFiles (tokens.join ingredientsName) := hjson .primitives (Nat.zero_le _)
  cases kind with
  | primitives => rw [ofKind, ofKind, hingredients]
  | theme => rw [ofKind, ofKind, hingredients, hflavors le_rfl]
  | composite =>
      have hrecipes : w.jsonFiles (tokens.join recipesName) =
          v.jsonFiles (tokens.join recipesName) := hjson .composite le_rfl
      rw [ofKind, ofKind, hingredients, hrecipes, hflavors (by decide)]

/-- A layer includes files of earlier layers. -/
theorem mem_sourceReads_of_mem_dependencies {p : Path}
    (hp : p ∈ (ofKind w tokens flavor kind).dependencies) :
    ∃ other : LayerKind, other.rank < kind.rank ∧
      p ∈ BuildContext.sourceReads (ofKind w tokens flavor other) := by
  cases kind with
  | primitives => exact absurd hp List.not_mem_nil
  | theme => exact ⟨.primitives, by decide, hp⟩
  | composite =>
      rcases List.mem_append.mp hp with hp | hp
      · exact ⟨.primitives, by decide, hp⟩
      · obtain ⟨variant, hfind, rfl⟩ := Option.map_eq_some_iff.mp (Option.mem_toList.mp hp)
        refine ⟨.theme, by decide, ?_⟩
        exact List.mem_flatMap.mpr
          ⟨variant, List.mem_of_find?_eq_some hfind, List.mem_cons_self⟩

/-- The files of a layer itself are called like `json` files and lie below its directory. -/
theorem exists_of_mem_sourceReads (hw : w.tree.WellFormed) {p : Path}
    (hp : p ∈ BuildContext.sourceReads (ofKind w tokens flavor kind)) :
    ∃ names, names ≠ [] ∧ (∀ name ∈ names, ProperName name) ∧
      p = (tokens.join kind.dirName).joinAll names ∧
      endsInJson (w.target tokens ++ [kind.dirName] ++ names) ∧
      (w.tree.lookup (w.target tokens ++ [kind.dirName] ++ names)).isSome := by
  have hjson : p ∈ w.jsonFiles (tokens.join kind.dirName) →
      ∃ names, names ≠ [] ∧ (∀ name ∈ names, ProperName name) ∧
        p = (tokens.join kind.dirName).joinAll names ∧
        endsInJson (w.target tokens ++ [kind.dirName] ++ names) ∧
        (w.tree.lookup (w.target tokens ++ [kind.dirName] ++ names)).isSome := by
    intro hmem
    obtain ⟨-, names, hne, rfl, hsome⟩ := (Place.mem_jsonFiles_iff hw).mp hmem
    rw [Place.target_join _ kind.proper_dirName] at hsome
    obtain ⟨hends, content, modified, hlookup⟩ := isSome_jsonAt_iff.mp hsome
    have hsome : (w.tree.lookup (w.target tokens ++ [kind.dirName] ++ names)).isSome := by
      rw [hlookup]
      rfl
    exact ⟨names, hne, fun name hname => hw.proper_of_lookup hsome name
      (List.mem_append_right _ hname), rfl, hends, hsome⟩
  cases kind with
  | primitives => exact hjson hp
  | theme =>
      obtain ⟨variant, hvariant, hp⟩ := List.mem_flatMap.mp hp
      obtain ⟨n, file, hn, hfile, rfl, hends, hsome⟩ :=
        Flavor.exists_of_mem_flavorReads hw hvariant hp
      have hdir : w.target (tokens.join flavorsName) = w.target tokens ++ [flavorsName] :=
        Place.target_join _ LayerKind.theme.proper_dirName
      rw [hdir] at hends hsome
      exact ⟨[n, file], List.cons_ne_nil _ _, by simp [hn, hfile], rfl, hends, hsome⟩
  | composite => exact hjson hp

/-- The files that a layer is built from lie below the directories of layers. -/
theorem exists_of_mem_layerReads (hw : w.tree.WellFormed) {p : Path}
    (hp : p ∈ BuildContext.layerReads (ofKind w tokens flavor kind)) :
    ∃ (other : LayerKind) (names : List String), (∀ name ∈ names, ProperName name) ∧
      p = (tokens.join other.dirName).joinAll names ∧
      (w.tree.lookup (w.target tokens ++ other.dirName :: names)).isSome := by
  have hown : ∀ other : LayerKind, p ∈ BuildContext.sourceReads (ofKind w tokens flavor other) →
      ∃ names : List String, (∀ name ∈ names, ProperName name) ∧
        p = (tokens.join other.dirName).joinAll names ∧
        (w.tree.lookup (w.target tokens ++ other.dirName :: names)).isSome := by
    intro other hp
    obtain ⟨names, -, hnames, rfl, -, hsome⟩ := exists_of_mem_sourceReads hw hp
    rw [List.append_assoc, List.singleton_append] at hsome
    exact ⟨names, hnames, rfl, hsome⟩
  rcases List.mem_append.mp hp with hp | hp
  · obtain ⟨other, -, hp⟩ := mem_sourceReads_of_mem_dependencies hp
    exact ⟨other, hown other hp⟩
  · exact ⟨kind, hown kind hp⟩

/-- The way to a file that a layer is built from leads to the tokens directory and, through what is
there, down from it. -/
theorem route_of_mem_layerReads (hw : w.tree.WellFormed) {p : Path}
    (hp : p ∈ BuildContext.layerReads (ofKind w tokens flavor kind)) :
    ∀ l ∈ w.route p, l ∈ w.route tokens ∨ w.target tokens <+: l ∧ (w.tree.lookup l).isSome := by
  obtain ⟨other, names, hnames, rfl, hsome⟩ := exists_of_mem_layerReads hw hp
  obtain ⟨more, hroute, hmore⟩ := Place.route_joinAll (w := w) tokens
    (List.forall_mem_cons.mpr ⟨other.proper_dirName, hnames⟩)
  change ∀ l ∈ w.route (tokens.joinAll (other.dirName :: names)), _
  intro l hl
  rw [hroute] at hl
  rcases List.mem_append.mp hl with hl | hl
  · exact .inl hl
  · obtain ⟨front, -, hfront, rfl⟩ := hmore l hl
    refine .inr ⟨List.prefix_append _ _, ?_⟩
    by_cases heq : front = other.dirName :: names
    · rw [heq]
      exact hsome
    · have hbelow : Below (w.target tokens ++ front)
          (w.target tokens ++ other.dirName :: names) := by
        refine ⟨?_, fun hsame => heq (List.append_cancel_left hsame).symm⟩
        rwa [List.prefix_append_right_inj]
      rw [hw.lookup_of_below hbelow hsome]
      rfl

/-- The files that a layer is built from lie below the tokens directory. -/
theorem below_of_mem_layerReads (hw : w.tree.WellFormed) {p : Path}
    (hp : p ∈ BuildContext.layerReads (ofKind w tokens flavor kind)) :
    Below (w.target tokens) (w.target p) := by
  obtain ⟨other, names, hnames, rfl, -⟩ := exists_of_mem_layerReads hw hp
  change Below _ (w.target (tokens.joinAll (other.dirName :: names)))
  rw [Place.target_joinAll _ (List.forall_mem_cons.mpr ⟨other.proper_dirName, hnames⟩)]
  exact Below.append (List.cons_ne_nil _ _)

/-- From wherever they are looked at, the files of a layer itself are called like `json` files. -/
theorem endsInJson_of_mem_sourceReads (hw : w.tree.WellFormed) {p : Path}
    (hp : p ∈ BuildContext.sourceReads (ofKind w tokens flavor kind)) (v : Place) :
    endsInJson (v.target p) := by
  obtain ⟨names, hne, hnames, rfl, hends, -⟩ := exists_of_mem_sourceReads hw hp
  rw [Place.target_joinAll _ hnames]
  rwa [endsInJson_append hne (v.target (tokens.join kind.dirName))]

/-- The files of a layer itself are `json` files of its directory. -/
theorem mem_sourceReads_ofKind (hw : w.TokensAt tokens) {p : Path}
    (hp : p ∈ BuildContext.sourceReads (ofKind w tokens flavor kind)) :
    ∃ names, names ≠ [] ∧ p = (tokens.join kind.dirName).joinAll names ∧
      (w.tree.jsonAt (w.target tokens ++ [kind.dirName] ++ names)).isSome := by
  obtain ⟨names, hne, -, rfl, hends, hsome⟩ := exists_of_mem_sourceReads hw.wellFormed hp
  refine ⟨names, hne, rfl, (hw.regular.isSome_lookup_iff ?_ hends).mp hsome⟩
  rw [List.append_assoc]
  exact Below.append (List.cons_ne_nil _ _)

/-- A layer is built from `json` files of its own directory and of those of earlier layers. -/
theorem mem_layerReads_ofKind (hw : w.TokensAt tokens) {p : Path}
    (hp : p ∈ BuildContext.layerReads (ofKind w tokens flavor kind)) :
    ∃ other : LayerKind, ∃ names, other.rank ≤ kind.rank ∧ names ≠ [] ∧
      p = (tokens.join other.dirName).joinAll names ∧
      (w.tree.jsonAt (w.target tokens ++ [other.dirName] ++ names)).isSome := by
  rcases List.mem_append.mp hp with hp | hp
  · obtain ⟨other, hrank, hp⟩ := mem_sourceReads_of_mem_dependencies hp
    exact ⟨other, (mem_sourceReads_ofKind hw hp).imp fun _ hread => ⟨hrank.le, hread⟩⟩
  · exact ⟨kind, (mem_sourceReads_ofKind hw hp).imp fun _ hread => ⟨le_rfl, hread⟩⟩

theorem plainLayer_ofKind (hw : w.tree.WellFormed) :
    BuildContext.PlainLayer (ofKind w tokens flavor kind) := by
  constructor
  · rw [name_ofKind]
    exact kind.proper_dirName
  · intro variants hvariants variant hvariant
    cases kind with
    | primitives => exact absurd hvariants nofun
    | theme =>
        obtain rfl := LayerSources.flavors.inj hvariants
        exact Flavor.plainFlavor_of_mem_discover hw hvariant
    | composite => exact absurd hvariants nofun

end Layer

namespace Place

variable {w : Place} {tokens : Path}

theorem TokensAt.read (hw : w.TokensAt tokens) {kind : LayerKind} {names : List String}
    (hne : names ≠ []) {content : ByteArray}
    (hcontent : w.tree.jsonAt (w.target tokens ++ [kind.dirName] ++ names) = some content) :
    w.read ((tokens.join kind.dirName).joinAll names) = .ok content := by
  have hdir := isDirectory_join_of_isFile hw.wellFormed kind.proper_dirName hw.directory hne
    (by rw [hcontent]; rfl)
  obtain ⟨-, modified, hlookup⟩ := jsonAt_eq_some_iff.mp hcontent
  rw [← target_join _ kind.proper_dirName] at hlookup
  exact read_joinAll hw.wellFormed hdir hne hlookup

theorem TokensAt.readText (hw : w.TokensAt tokens) {kind : LayerKind} {names : List String}
    (hne : names ≠ []) {content : ByteArray}
    (hcontent : w.tree.jsonAt (w.target tokens ++ [kind.dirName] ++ names) = some content) :
    w.readText ((tokens.join kind.dirName).joinAll names) =
      match String.fromUTF8? content with
      | some text => .ok text
      | none => .error .notText := by
  rw [Place.readText, hw.read hne hcontent]
  rfl

end Place

end DesignTokens
