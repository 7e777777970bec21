import DesignTokens.Layer.Build
import DesignTokens.Proofs.Layer.Outputs
import DesignTokens.Proofs.Token.Loading
import DesignTokens.Proofs.TypedModule.Naming
import DesignTokens.Proofs.Workspace.Lockstep
import DesignTokens.Proofs.Workspace.Obstacles

/-!
The course of a build of a layer: which files it reads and which paths it writes. Two builds keep in
step if each of their operations on these files does.
-/

namespace DesignTokens

theorem proper_append {stem ending : String} (hstem : '/' ∉ stem.toList)
    (hslash : '/' ∉ ending.toList) (hlength : 2 < ending.toList.length) :
    ProperName (stem ++ ending) := by
  have hlong : 2 < (stem ++ ending).toList.length := by
    rw [String.toList_append, List.length_append]
    omega
  refine ⟨?_, ?_, ?_, ?_⟩
  · rintro h
    rw [h] at hlong
    exact absurd hlong (by decide)
  · rw [String.toList_append, List.mem_append]
    rintro (h | h)
    · exact hstem h
    · exact hslash h
  · rintro h
    rw [h] at hlong
    exact absurd hlong (by decide)
  · rintro h
    rw [h] at hlong
    exact absurd hlong (by decide)

theorem proper_modeSheet {mode : String} (hmode : '/' ∉ mode.toList) :
    ProperName ("flavor-" ++ mode ++ ".css") := by
  refine proper_append ?_ (by decide) (by decide)
  rw [String.toList_append, List.mem_append, not_or]
  exact ⟨by decide, hmode⟩

namespace BuildContext

open Job FileTree

/-- The files of a flavor. -/
def flavorReads (flavor : Flavor) : List Path :=
  flavor.baseFile :: flavor.modeFiles.map Prod.snd

/-- The files of a layer itself. -/
def sourceReads (layer : Layer) : List Path :=
  match layer.sources with
  | .files paths => paths
  | .flavors variants => variants.flatMap flavorReads

/-- The files that a build of a layer reads. -/
def layerReads (layer : Layer) : List Path :=
  layer.dependencies ++ sourceReads layer

/-- The part of a build that follows the clearing. -/
def writeOutputs (c : BuildContext) (layer : Layer) : Job TokenError (List Path) := do
  if layer.sources.isEmpty then
    Job.report [.layerWithoutSources layer.name]
    return []
  match layer.sources with
  | .files paths => c.writeSingle layer paths
  | .flavors variants => c.writeTheme layer variants

theorem writeLayer_eq (c : BuildContext) (layer : Layer) :
    c.writeLayer layer = (do
      clearDirectory (c.cssDir layer.name)
      clearDirectory (c.tsDir layer.name)
      c.writeOutputs layer) := rfl

/-- The size of a file; a directory counts as empty. -/
def sizeOfContent : Option ByteArray → Nat
  | some content => content.size
  | none => 0

theorem measure_cons (p : Path) (rest : List Path) :
    measure (p :: rest) = (query (TokenError.file p) fun w => w.node p) >>= fun node =>
      measure rest >>= fun more => pure (⟨p, sizeOfContent node.content?⟩ :: more) := by
  rw [measure]
  congr 1
  funext node
  cases node <;> rfl

/-- Measuring changes nothing. It finds all that it measures, with its sizes. -/
theorem exec_measure {written : List Path} {w after : Workspace} {files : List OutputFile}
    (h : exec (measure written) w = (.ok files, after)) :
    after = w ∧ files.map OutputFile.path = written ∧
      ∀ file ∈ files, ∃ n, w.place.node file.path = .ok n ∧
        file.size = sizeOfContent n.content? := by
  induction written generalizing files after with
  | nil =>
      obtain ⟨hfiles, rfl⟩ := Prod.mk.inj h
      obtain rfl := Except.ok.inj hfiles
      exact ⟨rfl, rfl, fun _ h => absurd h List.not_mem_nil⟩
  | cons p rest ih =>
      rw [measure_cons] at h
      obtain ⟨n, _, hquery, hrest⟩ := exec_bind_eq_ok.mp h
      obtain ⟨more, _, hmore, hreturn⟩ := exec_bind_eq_ok.mp hrest
      rw [exec_query] at hquery
      obtain ⟨hnode, rfl⟩ := Prod.mk.inj hquery
      obtain ⟨rfl, rfl, hsizes⟩ := ih hmore
      obtain ⟨hfiles, rfl⟩ := Prod.mk.inj hreturn
      obtain rfl := Except.ok.inj hfiles
      exact ⟨rfl, rfl, List.forall_mem_cons.mpr ⟨⟨n, mapError_eq_ok.mp hnode, rfl⟩, hsizes⟩⟩

/-- A build of a layer as a job that fails if the build does. -/
def buildJob (c : BuildContext) (layer : Layer) : Job TokenError (List OutputFile) := do
  measure (← c.writeLayer layer)

theorem buildJob_eq (c : BuildContext) (layer : Layer) :
    c.buildJob layer = (do
      clearDirectory (c.cssDir layer.name)
      clearDirectory (c.tsDir layer.name) : Job TokenError Unit) >>= fun _ =>
        c.writeOutputs layer >>= measure := by
  rw [buildJob, writeLayer_eq]
  simp only [bind_assoc]

theorem run_buildLayer_eq (c : BuildContext) (layer : Layer) (w : Workspace) :
    (c.buildLayer layer).run w =
      match exec (c.buildJob layer) w with
      | (.ok files, after) => (.built layer.name files 0, after)
      | (.error e, after) => (.failed layer.name e.message 0,
          { after with notices := after.notices ++ [.layerFailed layer.name e.message] }) := by
  rw [buildLayer, StateT.run_bind, exec, buildJob]
  generalize StateT.run (ExceptT.run (c.writeLayer layer >>= measure)) w = result
  rcases result with ⟨_ | files, after⟩ <;> rfl

theorem run_buildLayer (c : BuildContext) (layer : Layer) (w : Workspace) :
    ((c.buildLayer layer).run w).1.success = (effect (c.buildJob layer) w).1.isSome ∧
      ((c.buildLayer layer).run w).1.layer = layer.name ∧
      ((c.buildLayer layer).run w).2.place = (effect (c.buildJob layer) w).2.place := by
  rw [run_buildLayer_eq, effect]
  rcases exec (c.buildJob layer) w with ⟨_ | files, after⟩
  · exact ⟨rfl, rfl, rfl⟩
  · exact ⟨rfl, rfl, rfl⟩

/-- The result of a build is that of its job. -/
theorem result_buildLayer (c : BuildContext) (layer : Layer) (w : Workspace) :
    ((c.buildLayer layer).run w).1 =
      match (exec (c.buildJob layer) w).1 with
      | .ok files => .built layer.name files 0
      | .error e => .failed layer.name e.message 0 := by
  rw [run_buildLayer_eq]
  rcases exec (c.buildJob layer) w with ⟨_ | files, after⟩ <;> rfl

theorem place_buildLayer (c : BuildContext) (layer : Layer) (w : Workspace) :
    ((c.buildLayer layer).run w).2.place = (exec (c.buildJob layer) w).2.place :=
  (run_buildLayer c layer w).2.2

theorem run_of_success {c : BuildContext} {layer : Layer} {w : Workspace}
    (h : ((c.buildLayer layer).run w).1.success) :
    ∃ files after, exec (c.buildJob layer) w = (.ok files, after) ∧
      (c.buildLayer layer).run w = (.built layer.name files 0, after) := by
  rw [run_buildLayer_eq] at h ⊢
  rcases hjob : exec (c.buildJob layer) w with ⟨_ | files, after⟩
  · rw [hjob] at h
    exact absurd h Bool.false_ne_true
  · exact ⟨files, after, rfl, rfl⟩

/-- The paths that a build of a layer writes, where the categories of its tokens are of one kind. -/
inductive Written (c : BuildContext) (layer : Layer) (T : String → Prop) : Path → Prop
  | tokens : Written c layer T ((c.cssDir layer.name).join "tokens.css")
  | base {variants : List Flavor} {flavor : Flavor} (hvariants : layer.sources = .flavors variants)
      (hflavor : flavor ∈ variants) :
      Written c layer T (((c.cssDir layer.name).join flavor.name).join "flavor.css")
  | mode {variants : List Flavor} {flavor : Flavor} {mode : String × Path}
      (hvariants : layer.sources = .flavors variants) (hflavor : flavor ∈ variants)
      (hmode : mode ∈ flavor.modeFiles) :
      Written c layer T
        (((c.cssDir layer.name).join flavor.name).join ("flavor-" ++ mode.1 ++ ".css"))
  | module {category : String} (htyped : c.typedModules = true) (hcategory : T category) :
      Written c layer T ((c.tsDir layer.name).join (category ++ ".ts"))
  | index (htyped : c.typedModules = true) :
      Written c layer T ((c.tsDir layer.name).join TypedModule.indexName)

/-- A flavor whose name and modes can be parts of file names. -/
structure PlainFlavor (flavor : Flavor) : Prop where
  name : ProperName flavor.name
  modes : ∀ mode ∈ flavor.modeFiles, '/' ∉ mode.1.toList

/-- A layer whose names can be parts of file names. -/
structure PlainLayer (layer : Layer) : Prop where
  name : ProperName layer.name
  flavors : ∀ variants, layer.sources = .flavors variants → ∀ flavor ∈ variants, PlainFlavor flavor

/-- A directory into which builds write: that of typed modules only if the project wants them. -/
def Makes (c : BuildContext) (kind : String) : Prop :=
  kind = "css" ∨ kind = "ts" ∧ c.typedModules = true

namespace Makes

variable {c : BuildContext} {layer kind : String} {names : List String}

theorem cases (h : c.Makes kind) : kind = "css" ∨ kind = "ts" :=
  h.imp_right And.left

/-- Where no typed modules are wanted, nothing is written among them. -/
theorem not_typed (h : c.Makes kind) (htyped : c.typedModules = false)
    {l : Location} (hl : l ++ ["ts", layer] <+: l ++ kind :: names) : False := by
  rw [List.prefix_append_right_inj] at hl
  rcases h with rfl | ⟨-, htrue⟩
  · exact absurd (List.cons_prefix_cons.mp hl).1 (by decide)
  · exact Bool.false_ne_true (htyped.symm.trans htrue)

end Makes

/-- A path that builds of a layer write to. -/
def OutputPath (c : BuildContext) (layer : String) (p : Path) : Prop :=
  ∃ kind names name, c.Makes kind ∧
    (∀ name ∈ kind :: layer :: names, ProperName name) ∧ ProperName name ∧
    p = (c.outputDir.joinAll (kind :: layer :: names)).join name

/-- With plain names, a build of a layer writes among the layer's outputs. -/
theorem Written.outputPath {c : BuildContext} {layer : Layer} {T : String → Prop}
    (hlayer : PlainLayer layer) (hT : ∀ category, T category → '/' ∉ category.toList) {p : Path}
    (hp : Written c layer T p) : c.OutputPath layer.name p := by
  have hcss : ∀ names : List String, (∀ name ∈ names, ProperName name) →
      ∀ name ∈ "css" :: layer.name :: names, ProperName name := by
    intro names hnames
    rw [List.forall_mem_cons, List.forall_mem_cons]
    exact ⟨proper_kind (.inl rfl), hlayer.name, hnames⟩
  have hts : ∀ name ∈ ["ts", layer.name], ProperName name := by
    rw [List.forall_mem_cons, List.forall_mem_singleton]
    exact ⟨proper_kind (.inr rfl), hlayer.name⟩
  cases hp with
  | tokens =>
      refine ⟨"css", [], _, .inl rfl, hcss [] fun _ h => absurd h List.not_mem_nil, ?_, rfl⟩
      constructor <;> decide
  | @base variants flavor hvariants hflavor =>
      have hname := (hlayer.flavors variants hvariants flavor hflavor).name
      refine ⟨"css", [flavor.name], _, .inl rfl, hcss _ (List.forall_mem_singleton.mpr hname), ?_,
        rfl⟩
      constructor <;> decide
  | @mode variants flavor mode hvariants hflavor hmode =>
      obtain ⟨hname, hmodes⟩ := hlayer.flavors variants hvariants flavor hflavor
      exact ⟨"css", [flavor.name], _, .inl rfl, hcss _ (List.forall_mem_singleton.mpr hname),
        proper_modeSheet (hmodes mode hmode), rfl⟩
  | @module category htyped hcategory =>
      exact ⟨"ts", [], _, .inr ⟨rfl, htyped⟩, hts,
        proper_append (hT category hcategory) (by decide) (by decide), rfl⟩
  | index htyped =>
      refine ⟨"ts", [], _, .inr ⟨rfl, htyped⟩, hts, ?_, rfl⟩
      constructor <;> decide

section Writing

variable {c : BuildContext} {layer : String} {ε : Type} (refuseDirectory : Path → FileError → ε)
  (refuseFile : FileError → ε) {p : Path} (hp : c.OutputPath layer p) (text : String)

include hp

/-- Writing a file of a layer changes nothing outside of its outputs. -/
theorem framed_writeText (x : Workspace) :
    c.Framed layer x.place (exec (writeText refuseDirectory refuseFile p text) x).2.place := by
  obtain ⟨kind, names, name, hkind, hnames, hname, rfl⟩ := hp
  obtain ⟨tree, hrun, -, hlookup⟩ := lookup_writeText refuseDirectory refuseFile
    ((c.outputDir.joinAll (kind :: layer :: names)).join name) text x
  rw [hrun]
  refine ⟨rfl, ?_⟩
  intro l hl
  rcases hlookup l with hsame | ⟨hmem, hnone, hdir⟩ | ⟨rfl, -⟩
  · exact .inl hsame
  · rw [Place.wayTo_join _ hname] at hmem
    exact .inr ⟨(mem_way hkind.cases hnames hmem).resolve_right hl, hnone, hdir⟩
  · rw [Place.target_join _ hname, Place.target_joinAll _ hnames, List.append_assoc] at hl
    exact absurd (outputs_append hkind.cases (names ++ [name])) hl

/-- Writing a file of a layer in two places with the same outputs, that files lie on the way to at the
same places. -/
theorem alike_writeText {x y : Workspace} (hx : x.place.tree.WellFormed)
    (hy : y.place.tree.WellFormed)
    (horigin : x.place.tree.lookup (x.place.origin c.outputDir) = some .directory)
    (horigin' : y.place.tree.lookup (y.place.origin c.outputDir) = some .directory)
    (hcurrent : x.place.current = y.place.current)
    (h : Alike (· ∈ c.spine x.place) (c.Outputs x.place layer) x.place.tree y.place.tree) :
    Alike (· ∈ c.spine x.place) (c.Outputs x.place layer)
        (exec (writeText refuseDirectory refuseFile p text) x).2.place.tree
        (exec (writeText refuseDirectory refuseFile p text) y).2.place.tree ∧
      (exec (writeText refuseDirectory refuseFile p text) x).1.mapError (fun _ => ()) =
        (exec (writeText refuseDirectory refuseFile p text) y).1.mapError (fun _ => ()) ∧
      (x.place.obstacle p.above = y.place.obstacle p.above →
        (exec (writeText refuseDirectory refuseFile p text) x).1 =
          (exec (writeText refuseDirectory refuseFile p text) y).1) := by
  obtain ⟨kind, names, name, hkind, hnames, hname, rfl⟩ := hp
  refine Job.alike_writeText refuseDirectory refuseFile hname text hx hy ?_ ?_ hcurrent h
    (fun l hl => mem_way hkind.cases hnames hl) ?_
  · rwa [Place.origin_joinAll _ hnames]
  · rwa [Place.origin_joinAll _ hnames]
  · rw [Place.target_joinAll _ hnames, List.append_assoc]
    exact outputs_append hkind.cases (names ++ [name])

end Writing

/-- The operations that a build of a layer consists of keep two builds in step. -/
structure Tracks {γ : Type} (view : TokenError → γ) (R : Workspace → Workspace → Prop)
    (c : BuildContext) (layer : Layer) (T : String → Prop) : Prop where
  report : ∀ notices, Lockstep view R (fun _ => True) (Job.report notices)
  resolve : ∀ {dependencies sources}, dependencies ⊆ layerReads layer →
    sources ⊆ sourceReads layer →
    Lockstep view R (fun d => ∀ t ∈ d.sources, T t.category) (resolveFiles dependencies sources)
  write : ∀ {p}, Written c layer T p → ∀ stamp body,
    Lockstep view R (fun _ => True) (Generated.write p stamp body)
  node : ∀ {p}, Written c layer T p → ∀ x y, R x y →
    ((x.place.node p).map Node.content?).mapError (view ∘ TokenError.file p) =
      ((y.place.node p).map Node.content?).mapError (view ∘ TokenError.file p)

namespace Tracks

variable {γ : Type} {view : TokenError → γ} {R : Workspace → Workspace → Prop} {c : BuildContext}
  {layer : Layer} {T : String → Prop} (h : Tracks view R c layer T)

include h

theorem generated {p : Path} (hp : Written c layer T p) (stamp body : String) :
    Lockstep view R (Written c layer T) (Generated.write p stamp body) := by
  intro x y hxy
  obtain ⟨hsame, -, hrelated⟩ := h.write hp stamp body x y hxy
  refine ⟨hsame, ?_, hrelated⟩
  intro q hq
  obtain ⟨_, _, -, hreturn⟩ := exec_bind_eq_ok.mp (Prod.ext hq rfl)
  exact Except.ok.inj (congrArg Prod.fst hreturn) ▸ hp

theorem writeModules (htyped : c.typedModules = true) (tokens : List Token)
    (leaf : Token → Json.Value) (stamp : String) {modules : List ModuleName}
    (hmodules : ∀ name ∈ modules, T name.category) :
    Lockstep view R (fun written => ∀ p ∈ written, Written c layer T p)
      (TypedModule.writeModules (c.tsDir layer.name) tokens leaf stamp modules) := by
  induction modules with
  | nil => exact .pure fun _ h => absurd h List.not_mem_nil
  | cons name rest ih =>
      obtain ⟨hname, hrest⟩ := List.forall_mem_cons.mp hmodules
      refine .bind (h.report _) fun _ _ => .bind (h.generated (.module htyped hname) _ _) ?_
      intro p hp
      refine .bind (ih hrest) fun written hwritten => .pure ?_
      exact List.forall_mem_cons.mpr ⟨hp, hwritten⟩

theorem typedModules (htyped : c.typedModules = true) {tokens : List Token}
    (htokens : ∀ t ∈ tokens, T t.category) (style : LeafStyle) (stem stamp : String) :
    Lockstep view R (fun written => ∀ p ∈ written, Written c layer T p)
      (TypedModule.write (c.tsDir layer.name) tokens style stem stamp) := by
  have hmodules : ∀ name ∈ ModuleName.ofCategories (TypedModule.sortedCategories tokens),
      T name.category := by
    intro name hname
    obtain ⟨t, ht, heq⟩ := TypedModule.exists_of_mem_ofCategories hname
    exact heq ▸ htokens t ht
  refine .bind (h.report _) fun _ _ => .bind (h.writeModules htyped _ _ _ hmodules) ?_
  intro written hwritten
  split
  · exact .pure hwritten
  · refine .bind (h.generated (.index htyped) _ _) fun p hp => .pure ?_
    rw [List.forall_mem_append, List.forall_mem_singleton]
    exact ⟨hwritten, hp⟩

theorem writeTyped {tokens : List Token} (htokens : ∀ t ∈ tokens, T t.category) :
    Lockstep view R (fun written => ∀ p ∈ written, Written c layer T p)
      (c.writeTyped layer tokens) := by
  rw [BuildContext.writeTyped]
  split
  · rename_i htyped
    exact h.typedModules htyped htokens _ _ _
  · exact .pure fun _ h => absurd h List.not_mem_nil

theorem writeSingle {paths : List Path} (hpaths : layer.sources = .files paths) :
    Lockstep view R (fun written => ∀ p ∈ written, Written c layer T p)
      (c.writeSingle layer paths) := by
  have hsources : paths ⊆ sourceReads layer := by
    rw [sourceReads, hpaths]
    exact List.Subset.refl _
  refine .bind (h.resolve (List.subset_append_left _ _) hsources) fun d hd =>
    .bind (h.report _) fun _ _ => .bind (h.generated .tokens _ _) fun p hp => ?_
  refine .bind (h.writeTyped hd) fun written hwritten => .pure ?_
  exact List.forall_mem_cons.mpr ⟨hp, hwritten⟩

theorem writeFlavorFile {p : Path} (hp : Written c layer T p) (flavor : String)
    (activation : Activation) (tokens : List Token) :
    Lockstep view R (Written c layer T) (c.writeFlavorFile p flavor activation tokens) :=
  .bind (h.report _) fun _ _ => h.generated hp _ _

theorem writeModes {variants : List Flavor} {flavor : Flavor}
    (hvariants : layer.sources = .flavors variants) (hflavor : flavor ∈ variants)
    {dependencies : List Path} (hdependencies : dependencies ⊆ layerReads layer)
    {modes : List (String × Path)} (hmodes : modes ⊆ flavor.modeFiles) :
    Lockstep view R (fun written => ∀ p ∈ written, Written c layer T p)
      (c.writeModes dependencies flavor.name ((c.cssDir layer.name).join flavor.name) modes) := by
  induction modes with
  | nil => exact .pure fun _ h => absurd h List.not_mem_nil
  | cons mode rest ih =>
      obtain ⟨hmode, hrest⟩ := List.cons_subset.mp hmodes
      have hsources : [mode.2] ⊆ sourceReads layer := by
        rw [List.cons_subset, sourceReads, hvariants]
        exact ⟨List.mem_flatMap.mpr
          ⟨flavor, hflavor, List.mem_cons_of_mem _ (List.mem_map_of_mem hmode)⟩, List.nil_subset _⟩
      refine .bind (h.report _) fun _ _ => .bind (h.resolve hdependencies hsources) fun d _ =>
        .bind (h.writeFlavorFile (.mode hvariants hflavor hmode) _ _ _) fun p hp => ?_
      refine .bind (ih hrest) fun written hwritten => .pure ?_
      exact List.forall_mem_cons.mpr ⟨hp, hwritten⟩

theorem writeFlavors {variants : List Flavor} (hvariants : layer.sources = .flavors variants)
    {typed : Option (List Token)} (htyped : ∀ tokens, typed = some tokens → ∀ t ∈ tokens, T t.category)
    {flavors : List Flavor} (hflavors : flavors ⊆ variants) :
    Lockstep view R
      (fun result => (∀ p ∈ result.1, Written c layer T p) ∧
        ∀ tokens, result.2 = some tokens → ∀ t ∈ tokens, T t.category)
      (c.writeFlavors layer typed flavors) := by
  induction flavors generalizing typed with
  | nil => exact .pure ⟨fun _ h => absurd h List.not_mem_nil, htyped⟩
  | cons flavor rest ih =>
      obtain ⟨hflavor, hrest⟩ := List.cons_subset.mp hflavors
      have hbase : [flavor.baseFile] ⊆ sourceReads layer := by
        rw [List.cons_subset, sourceReads, hvariants]
        exact ⟨List.mem_flatMap.mpr ⟨flavor, hflavor, List.mem_cons_self⟩, List.nil_subset _⟩
      have hdependencies : layer.dependencies ++ [flavor.baseFile] ⊆ layerReads layer :=
        List.append_subset.mpr ⟨List.subset_append_left _ _,
          List.subset_append_of_subset_right _ hbase⟩
      refine .bind (h.resolve (List.subset_append_left _ _) hbase) fun d hd =>
        .bind (h.writeFlavorFile (.base hvariants hflavor) _ _ _) fun p hp => ?_
      refine .bind (h.writeModes hvariants hflavor hdependencies (List.Subset.refl _))
        fun modes hwritten => ?_
      refine .bind (ih ?_ hrest) fun result hresult => .pure ?_
      · intro tokens htokens
        split at htokens
        · exact Option.some.inj htokens ▸ hd
        · exact htyped tokens htokens
      · refine ⟨?_, hresult.2⟩
        rw [List.cons_append, List.forall_mem_cons, List.forall_mem_append]
        exact ⟨hp, hwritten, hresult.1⟩

theorem writeTheme {variants : List Flavor} (hvariants : layer.sources = .flavors variants) :
    Lockstep view R (fun written => ∀ p ∈ written, Written c layer T p)
      (c.writeTheme layer variants) := by
  have hnone : ∀ tokens, (none : Option (List Token)) = some tokens → ∀ t ∈ tokens, T t.category :=
    fun _ heq => absurd heq nofun
  refine .bind (h.writeFlavors hvariants hnone (List.Subset.refl _)) ?_
  rintro ⟨written, _ | tokens⟩ ⟨hwritten, htyped⟩
  · dsimp only
    split
    · exact .bind (h.report _) fun _ _ => .pure hwritten
    · exact .pure hwritten
  · refine .bind (h.writeTyped (htyped tokens rfl)) fun more hmore => .pure ?_
    exact List.forall_mem_append.mpr ⟨hwritten, hmore⟩

theorem writeOutputs :
    Lockstep view R (fun written => ∀ p ∈ written, Written c layer T p)
      (c.writeOutputs layer) := by
  rw [BuildContext.writeOutputs]
  split
  · exact .bind (h.report _) fun _ _ => .pure fun _ h => absurd h List.not_mem_nil
  · cases hsources : layer.sources with
    | files paths => exact h.writeSingle hsources
    | flavors variants => exact h.writeTheme hsources

theorem measure {written : List Path} (hwritten : ∀ p ∈ written, Written c layer T p) :
    Lockstep view R (fun _ => True) (measure written) := by
  induction written with
  | nil => exact .pure trivial
  | cons p rest ih =>
      obtain ⟨hp, hrest⟩ := List.forall_mem_cons.mp hwritten
      have hmore : ∀ content : Option ByteArray, Lockstep view R (fun _ => True)
          (BuildContext.measure rest >>= fun more => pure (⟨p, sizeOfContent content⟩ :: more)) :=
        fun content => (ih hrest).bind fun _ _ => .pure trivial
      rw [measure_cons]
      exact Lockstep.bind_query Node.content? _ (h.node hp) hmore

theorem outputs :
    Lockstep view R (fun _ => True) (c.writeOutputs layer >>= BuildContext.measure) :=
  h.writeOutputs.bind fun _ hwritten => h.measure hwritten

theorem buildJob
    (hclear : ∀ dir ∈ [c.cssDir layer.name, c.tsDir layer.name],
      Lockstep view R (fun _ => True) (clearDirectory dir)) :
    Lockstep view R (fun _ => True) (c.buildJob layer) := by
  rw [List.forall_mem_cons, List.forall_mem_singleton] at hclear
  rw [buildJob_eq]
  exact (hclear.1.bind fun _ _ => hclear.2).bind fun _ _ => h.outputs

end Tracks

end BuildContext

end DesignTokens
