import DesignTokens.Build.Run
import DesignTokens.BuildDate
import DesignTokens.CommandLine.Arguments
import DesignTokens.Project.ConfigFile
import DesignTokens.Project.Removal
import DesignTokens.Project.Scaffold

/-!
The commands of the command line.
-/

namespace DesignTokens

/-- Why a command fails. -/
inductive CommandError where
  | config (cause : ConfigError)
  | discovery (cause : TokenError)
  | unknownLayer (name : String) (known : List String)
  | date (cause : BuildDateError)
  | removal (cause : RemovalError)
  | scaffold (cause : ScaffoldError)
deriving DecidableEq, Repr

def CommandError.message : CommandError → String
  | config cause => cause.message
  | discovery cause => "Failed to discover token sources: " ++ cause.message
  | unknownLayer name known =>
    "Unknown layer `" ++ name ++ "` (expected one of: " ++ Text.join ", " known ++ ")"
  | date cause => cause.message
  | removal cause => cause.message
  | scaffold cause => cause.message

/-- What a command that did not fail has printed, and whether all went well. -/
structure Outcome where
  success : Bool
  output : String
deriving DecidableEq, Repr

namespace Command

/-- A result that may be an error of a command. -/
def orFail {ε α : Type} (wrap : ε → CommandError) : Except ε α → Job CommandError α
  | .ok a => pure a
  | .error e => throw (wrap e)

/-- The configuration at a path. -/
def configAt (p : Path) : Job CommandError Config := do
  orFail .config (Config.load (← Job.place) p)

/-- The configuration at a path and the layers of its project. -/
def projectAt (p : Path) : Job CommandError (Config × List Layer) := do
  let config ← configAt p
  let w ← Job.place
  let flavor := config.selectors.defaultFlavor
  Job.report (Layer.discoverNotices w config.tokensPath flavor)
  let layers ← orFail .discovery (Layer.discover w config.tokensPath flavor)
  return (config, layers)

/-- The cache store of a project. -/
def storeOf (config : Config) : Job CommandError CacheStore := do
  let w ← Job.place
  Job.report (CacheStore.loadNotices w config.cachePath)
  return CacheStore.load w config.cachePath

/-- Refuses the name of a layer that is not there. -/
def checkLayer (layers : List Layer) : Option String → Job CommandError Unit
  | none => pure ()
  | some name =>
    if layers.any fun layer => layer.name == name then pure ()
    else throw (.unknownLayer name (layers.map Layer.name))

/-- Builds a project. The date of the build may be an error, which counts where it is needed. -/
def runBuild (config : Path) (date : Except BuildDateError String) (options : BuildOptions) :
    Job CommandError Outcome := do
  let (config, layers) ← projectAt config
  checkLayer layers options.only
  let stamp ← orFail .date date
  let store ← storeOf config
  let (result, after) :=
    StateT.run (Build.run options (config.buildContext stamp) layers) ⟨← get, store⟩
  set after.workspace
  return ⟨result.success, result.summary⟩

/-- The line of a layer's status. -/
def statusLine (entry : Layer × Decision) : String :=
  match entry.2 with
  | .upToDate => entry.1.name ++ ": up to date\n"
  | .rebuild reason => entry.1.name ++ ": needs rebuild (" ++ reason.message ++ ")\n"

/-- Tells which layers a build would build again. -/
def runStatus (config : Path) : Job CommandError Outcome := do
  let (config, layers) ← projectAt config
  let store ← storeOf config
  let found := plan ⟨false, none⟩ (config.buildContext "") store (← Job.place) layers
  return ⟨true, Text.join "" (found.map statusLine)⟩

/-- The line of a mode: how its declarations are switched on. -/
def modeLine (modes : ModeRegistry) (mode : String) : String :=
  let kind := match modes.get? mode with
    | some m => m.activation.describe
    | none => "unknown, emitted as base"
  "    " ++ mode ++ ": " ++ kind ++ "\n"

/-- The lines of a flavor and its modes. -/
def flavorLines (selectors : Selectors) (modes : ModeRegistry) (flavor : Flavor) : String :=
  "  " ++ flavor.name ++ (if selectors.isDefaultFlavor flavor.name then " (default)" else "") ++
    "\n" ++ Text.join "" (flavor.modeFiles.map fun file => modeLine modes file.1)

/-- The lines of a layer and what it is made of. -/
def layerLines (config : Config) (layer : Layer) : String :=
  match layer.sources with
  | .files paths =>
    layer.name ++ " (" ++ paths.length.repr ++ " files)\n" ++
      Text.join "" (paths.map fun p => "  " ++ (p.relativeTo config.root).text ++ "\n")
  | .flavors variants =>
    layer.name ++ " (" ++ variants.length.repr ++ " flavors)\n" ++
      Text.join "" (variants.map (flavorLines config.selectors config.modeRegistry))

/-- The notices of telling how the modes of a layer are switched on. -/
def modeNotices (modes : ModeRegistry) (layer : Layer) : List Notice :=
  match layer.sources with
  | .files _ => []
  | .flavors variants =>
    variants.flatMap fun flavor => flavor.modeFiles.flatMap fun file =>
      ((modes.get? file.1).map Mode.notices).getD []

/-- Lists layers, flavors and modes. -/
def runList (config : Path) : Job CommandError Outcome := do
  let (config, layers) ← projectAt config
  Job.report (layers.flatMap (modeNotices config.modeRegistry))
  return ⟨true, Text.join "" (layers.map (layerLines config))⟩

/-- Removes outputs and the cache file. -/
def runClean (config : Path) : Job CommandError Outcome := do
  let config ← configAt config
  ExceptT.adapt .removal config.clean
  return ⟨true, ""⟩

/-- Creates a project; without a name it is called like its directory. -/
def runInit (dir : Path) (name : Option String) : Job CommandError Outcome := do
  let name := name.getD (Scaffold.nameFor (← Job.place) dir)
  ExceptT.adapt .scaffold (Scaffold.create dir name)
  return ⟨true, "Created `" ++ name ++ "`. Run `sando build` to compile it.\n"⟩

/-- Runs a command with the configuration at a path and the date of builds. -/
def run (command : Command) (config : Path) (date : Except BuildDateError String) :
    Job CommandError Outcome :=
  match command with
  | .build force layer => runBuild config date ⟨force, layer⟩
  | .status => runStatus config
  | .list => runList config
  | .clean => runClean config
  | .init dir name => runInit dir name

end Command

end DesignTokens
