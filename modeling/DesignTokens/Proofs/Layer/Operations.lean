import DesignTokens.Proofs.Layer.Determinism
import DesignTokens.Proofs.Workspace.Operations

/-!
What a build of a layer keeps because clearing a directory and writing a generated file do. Nothing
is supposed about the layer, its files and their tokens.
-/

namespace DesignTokens

open Job

/-- A path whose last name ends like that of a stylesheet or of a typed module. -/
def Generated.Named (p : Path) : Prop :=
  ∃ dir : Path, ∃ stem ending : String, (ending = ".css" ∨ ending = ".ts") ∧
    p = dir.join (stem ++ ending)

theorem Generated.named_css (dir : Path) (stem : String) : Named (dir.join (stem ++ ".css")) :=
  ⟨dir, stem, ".css", .inl rfl, rfl⟩

theorem Generated.named_ts (dir : Path) (stem : String) : Named (dir.join (stem ++ ".ts")) :=
  ⟨dir, stem, ".ts", .inr rfl, rfl⟩

namespace BuildContext

/-- The stylesheet of a mode, in the directory of its flavor. -/
def modeSheet (dir : Path) (mode : String) : Path :=
  dir.join ("flavor-" ++ mode ++ ".css")

/-- The stylesheets of a flavor. -/
def flavorSheets (c : BuildContext) (layer : Layer) (flavor : Flavor) : List Path :=
  let dir := (c.cssDir layer.name).join flavor.name
  dir.join "flavor.css" :: flavor.modeFiles.map fun mode => modeSheet dir mode.1

theorem named_of_mem_flavorSheets {c : BuildContext} {layer : Layer} {flavor : Flavor} {p : Path}
    (hp : p ∈ c.flavorSheets layer flavor) : Generated.Named p := by
  rcases List.mem_cons.mp hp with rfl | hp
  · exact Generated.named_css _ "flavor"
  · obtain ⟨mode, -, rfl⟩ := List.mem_map.mp hp
    exact Generated.named_css _ _

variable {R : Workspace → Workspace → Prop} (hR : Chain R)

include hR

theorem within_resolveFiles (dependencies sources : List Path) :
    Within R (resolveFiles dependencies sources) := by
  intro x
  rw [exec_resolveFiles]
  exact hR.refl x

theorem within_measure (written : List Path) : Within R (measure written) := by
  induction written with
  | nil => exact hR.pure _
  | cons p rest ih => exact hR.bind (hR.query _ _) fun _ => hR.bind ih fun _ => hR.pure _

theorem within_clearDirectory (dir : Path)
    (hremove : ∀ x, x.place.pathExists dir → R x (withTree x (x.place.removeDirectory dir).1)) :
    Within R (clearDirectory dir) := by
  intro x
  rw [clearDirectory, exec_bind, exec_place]
  dsimp only
  split
  · rename_i hthere
    rw [exec_steps]
    exact hremove x hthere
  · exact hR.refl x

theorem within_writeModules {dir : Path} (tokens : List Token) (leaf : Token → Json.Value)
    (stamp : String) {modules : List ModuleName}
    (hwrite : ∀ name ∈ modules, ∀ body,
      Within R (Generated.write (dir.join (name.category ++ ".ts")) stamp body)) :
    Within R (TypedModule.writeModules dir tokens leaf stamp modules) := by
  induction modules with
  | nil => exact hR.pure _
  | cons name rest ih =>
      obtain ⟨hname, hrest⟩ := List.forall_mem_cons.mp hwrite
      refine hR.bind (hR.reports _) fun _ => hR.bind (hname _) ?_
      exact fun _ => hR.bind (ih hrest) fun _ => hR.pure _

theorem within_typedModules {dir : Path}
    (hwrite : ∀ stem stamp body, Within R (Generated.write (dir.join (stem ++ ".ts")) stamp body))
    (tokens : List Token) (style : LeafStyle) (stem stamp : String) :
    Within R (TypedModule.write dir tokens style stem stamp) := by
  refine hR.bind (hR.reports _) fun _ =>
    hR.bind (within_writeModules hR tokens _ stamp fun name _ => hwrite name.category stamp)
      fun modules => ?_
  split
  · exact hR.pure _
  · exact hR.bind (hwrite "index" _ _) fun _ => hR.pure _

variable (c : BuildContext) (layer : Layer)

theorem within_writeTyped
    (hwrite : ∀ stem stamp body,
      Within R (Generated.write ((c.tsDir layer.name).join (stem ++ ".ts")) stamp body))
    (tokens : List Token) : Within R (c.writeTyped layer tokens) := by
  rw [writeTyped]
  split
  · exact within_typedModules hR hwrite _ _ _ _
  · exact hR.pure _

theorem within_writeFlavorFile {p : Path}
    (hwrite : ∀ stamp body, Within R (Generated.write p stamp body)) (flavor : String)
    (activation : Activation) (tokens : List Token) :
    Within R (c.writeFlavorFile p flavor activation tokens) :=
  hR.bind (hR.reports _) fun _ => hwrite _ _

theorem within_writeModes (dependencies : List Path) (flavor : String) {dir : Path}
    {modes : List (String × Path)}
    (hwrite : ∀ mode ∈ modes, ∀ stamp body,
      Within R (Generated.write (modeSheet dir mode.1) stamp body)) :
    Within R (c.writeModes dependencies flavor dir modes) := by
  induction modes with
  | nil => exact hR.pure _
  | cons mode rest ih =>
      obtain ⟨hmode, hrest⟩ := List.forall_mem_cons.mp hwrite
      refine hR.bind (hR.reports _) fun _ => hR.bind (within_resolveFiles hR _ _) fun _ =>
        hR.bind (within_writeFlavorFile hR c hmode _ _ _) fun _ => ?_
      exact hR.bind (ih hrest) fun _ => hR.pure _

theorem within_writeFlavors (typed : Option (List Token)) {variants : List Flavor}
    (hwrite : ∀ flavor ∈ variants, ∀ p ∈ c.flavorSheets layer flavor, ∀ stamp body,
      Within R (Generated.write p stamp body)) :
    Within R (c.writeFlavors layer typed variants) := by
  induction variants generalizing typed with
  | nil => exact hR.pure _
  | cons flavor rest ih =>
      obtain ⟨hflavor, hrest⟩ := List.forall_mem_cons.mp hwrite
      obtain ⟨hbase, hmodes⟩ := List.forall_mem_cons.mp hflavor
      refine hR.bind (within_resolveFiles hR _ _) fun _ =>
        hR.bind (within_writeFlavorFile hR c hbase _ _ _) fun _ => ?_
      refine hR.bind (within_writeModes hR c _ _ fun mode hmode => ?_) fun _ =>
        hR.bind (ih _ hrest) fun _ => hR.pure _
      exact hmodes _ (List.mem_map_of_mem hmode)

variable (hwrite : ∀ p, Generated.Named p → ∀ stamp body, Within R (Generated.write p stamp body))

include hwrite

theorem within_writeSingle (paths : List Path) : Within R (c.writeSingle layer paths) := by
  refine hR.bind (within_resolveFiles hR _ _) fun _ => hR.bind (hR.reports _) fun _ =>
    hR.bind (hwrite _ (Generated.named_css _ "tokens") _ _) fun _ => ?_
  exact hR.bind (within_writeTyped hR c layer (fun _ => hwrite _ (Generated.named_ts _ _)) _)
    fun _ => hR.pure _

theorem within_writeTheme (variants : List Flavor) : Within R (c.writeTheme layer variants) := by
  refine hR.bind (within_writeFlavors hR c layer none fun flavor _ p hp =>
    hwrite p (named_of_mem_flavorSheets hp)) ?_
  rintro ⟨written, _ | tokens⟩
  · dsimp only
    split
    · exact hR.bind (hR.reports _) fun _ => hR.pure _
    · exact hR.pure _
  · exact hR.bind (within_writeTyped hR c layer (fun _ => hwrite _ (Generated.named_ts _ _)) tokens)
      fun _ => hR.pure _

theorem within_writeOutputs : Within R (c.writeOutputs layer) := by
  rw [writeOutputs]
  split
  · exact hR.bind (hR.reports _) fun _ => hR.pure _
  · split
    · exact within_writeSingle hR c layer hwrite _
    · exact within_writeTheme hR c layer hwrite _

theorem within_buildJob
    (hclear : ∀ dir ∈ [c.cssDir layer.name, c.tsDir layer.name], Within R (clearDirectory dir)) :
    Within R (c.buildJob layer) := by
  obtain ⟨hcss, hts, -⟩ : _ ∧ _ ∧ _ := by simpa only [List.forall_mem_cons] using hclear
  rw [buildJob, writeLayer_eq]
  refine hR.bind ?_ (within_measure hR)
  exact hR.bind hcss fun _ => hR.bind hts fun _ => within_writeOutputs hR c layer hwrite

theorem run_buildLayer_within
    (hclear : ∀ dir ∈ [c.cssDir layer.name, c.tsDir layer.name], Within R (clearDirectory dir))
    (x : Workspace) : R x ((c.buildLayer layer).run x).2 := by
  have hjob := within_buildJob hR c layer hwrite hclear x
  rw [run_buildLayer_eq]
  rcases hrun : exec (c.buildJob layer) x with ⟨_ | files, after⟩
  · rw [hrun] at hjob
    exact hR.trans hjob (hR.report after _)
  · rwa [hrun] at hjob

end BuildContext

end DesignTokens
