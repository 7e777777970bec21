import DesignTokens.Json.Reader
import DesignTokens.Layer.Basic
import DesignTokens.Token.Resolution
import DesignTokens.TypedModule.Write

/-!
Building one layer: its outputs are cleared, its tokens resolved and its stylesheets and typed
modules written. A failure becomes part of the result.
-/

namespace DesignTokens

/-- Adds the tokens of files, one file after the other. -/
def loadTokens (isSource : Bool) : RawTokens → List Path → Job TokenError RawTokens
  | tokens, [] => pure tokens
  | tokens, p :: rest => do
    let text ← Job.query (.file p) fun w => w.readText p
    match Json.parse text with
    | .error e => throw (.json p e)
    | .ok document =>
      match leaves document with
      | .error e => throw (.document p e)
      | .ok found => loadTokens isSource (tokens.add p isSource found) rest

/-- The dictionary of a layer: the tokens of the files it depends on, then its own. -/
def resolveFiles (dependencies sources : List Path) : Job TokenError Dictionary := do
  let tokens ← loadTokens false [] dependencies
  let tokens ← loadTokens true tokens sources
  match tokens.resolve with
  | .ok dictionary => pure dictionary
  | .error e => throw (.reference e)

namespace BuildContext

variable (c : BuildContext)

/-- Removes a directory if something is there. -/
def clearDirectory (dir : Path) : Job TokenError Unit := do
  if (← Job.place).pathExists dir then
    Job.steps (.file dir) fun w => w.removeDirectory dir

/-- Writes the typed modules of a layer, unless the project wants none. -/
def writeTyped (layer : Layer) (tokens : List Token) : Job TokenError (List Path) :=
  if c.typedModules then
    TypedModule.write (c.tsDir layer.name) tokens layer.kind.leafStyle c.stem c.stamp
  else pure []

/-- Builds a layer whose files make one stylesheet. -/
def writeSingle (layer : Layer) (paths : List Path) : Job TokenError (List Path) := do
  let tokens := (← resolveFiles layer.dependencies paths).sources
  Job.report (Stylesheet.bodyNotices tokens)
  let css ← Generated.write ((c.cssDir layer.name).join "tokens.css") c.stamp
    (c.stylesheet.rootText tokens)
  return css :: (← c.writeTyped layer tokens)

/-- Writes the stylesheet of one file of a flavor. -/
def writeFlavorFile (p : Path) (flavor : String) (activation : Activation) (tokens : List Token) :
    Job TokenError Path := do
  Job.report (c.stylesheet.flavorNotices flavor activation tokens)
  Generated.write p c.stamp (c.stylesheet.flavorText flavor activation tokens)

/-- Writes the stylesheets of a flavor's modes. -/
def writeModes (dependencies : List Path) (flavor : String) (dir : Path) :
    List (String × Path) → Job TokenError (List Path)
  | [] => pure []
  | (mode, file) :: rest => do
    Job.report (c.modes.resolveNotices (some mode))
    let tokens := (← resolveFiles dependencies [file]).sources
    let css ← c.writeFlavorFile (dir.join ("flavor-" ++ mode ++ ".css")) flavor
      (c.modes.resolve (some mode)) tokens
    return css :: (← writeModes dependencies flavor dir rest)

/-- Writes the stylesheets of flavors. Also gives the tokens of the default flavor's base file, of
the last one if several flavors have that name. -/
def writeFlavors (layer : Layer) (typed : Option (List Token)) :
    List Flavor → Job TokenError (List Path × Option (List Token))
  | [] => pure ([], typed)
  | flavor :: rest => do
    let dir := (c.cssDir layer.name).join flavor.name
    let base := (← resolveFiles layer.dependencies [flavor.baseFile]).sources
    let css ← c.writeFlavorFile (dir.join "flavor.css") flavor.name .base base
    let modes ← c.writeModes (layer.dependencies ++ [flavor.baseFile]) flavor.name dir
      flavor.modeFiles
    let typed := if c.selectors.isDefaultFlavor flavor.name then some base else typed
    let (more, typed) ← writeFlavors layer typed rest
    return (css :: modes ++ more, typed)

/-- Builds a layer of flavors. The typed modules are those of the default flavor. -/
def writeTheme (layer : Layer) (variants : List Flavor) : Job TokenError (List Path) := do
  let (written, typed) ← c.writeFlavors layer none variants
  match typed with
  | some tokens => return written ++ (← c.writeTyped layer tokens)
  | none =>
    if c.typedModules then
      Job.report [.typedModulesSkipped c.selectors.defaultFlavor layer.name]
    return written

/-- Clears the outputs of a layer and writes them anew. -/
def writeLayer (layer : Layer) : Job TokenError (List Path) := do
  clearDirectory (c.cssDir layer.name)
  clearDirectory (c.tsDir layer.name)
  if layer.sources.isEmpty then
    Job.report [.layerWithoutSources layer.name]
    return []
  match layer.sources with
  | .files paths => c.writeSingle layer paths
  | .flavors variants => c.writeTheme layer variants

/-- The sizes of written files. -/
def measure : List Path → Job TokenError (List OutputFile)
  | [] => pure []
  | p :: rest => do
    let node ← Job.query (.file p) fun w => w.node p
    let size := match node with
      | .file content _ => content.size
      | .directory => 0
    return ⟨p, size⟩ :: (← measure rest)

/-- Builds a layer. -/
def buildLayer (layer : Layer) : StateM Workspace LayerResult := do
  let outcome ← (do measure (← c.writeLayer layer) : Job TokenError _).run
  match outcome with
  | .ok files => return .built layer.name files 0
  | .error e =>
    modify fun w => { w with notices := w.notices ++ [.layerFailed layer.name e.message] }
    return .failed layer.name e.message 0

end BuildContext

end DesignTokens
