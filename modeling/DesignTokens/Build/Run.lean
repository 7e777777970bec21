import DesignTokens.Build.Report
import DesignTokens.Cache.Staleness
import DesignTokens.Layer.Build

/-!
Builds of several layers. A plan is made first: once a layer is built again, so is every later one.
Then the layers are built in order; a failing one does not stop the others, and it loses its cache
entry.
-/

namespace DesignTokens

structure BuildOptions where
  /-- Build every layer, whatever the cache says. -/
  force : Bool
  /-- Build only the layer with this name. -/
  only : Option String
deriving DecidableEq, Repr

def BuildOptions.selects (o : BuildOptions) (layer : Layer) : Bool :=
  match o.only with
  | none => true
  | some name => name == layer.name

/-- What to do with a layer on its own. -/
def decisionFor (o : BuildOptions) (c : BuildContext) (store : CacheStore) (w : Place)
    (layer : Layer) : Decision :=
  if o.force then .rebuild .forced
  else store.decide w layer.name layer.sourceDir (c.outputDirs layer)

/-- What to do with layers, given whether one before them is built again. -/
def planFrom (decision : Layer → Decision) (rebuilt : Bool) :
    List Layer → List (Layer × Decision)
  | [] => []
  | layer :: rest =>
    let d := if rebuilt then .rebuild .dependencyRebuilt else decision layer
    (layer, d) :: planFrom decision (rebuilt || d.needsRebuild) rest

/-- What to do with the selected layers. -/
def plan (o : BuildOptions) (c : BuildContext) (store : CacheStore) (w : Place)
    (layers : List Layer) : List (Layer × Decision) :=
  planFrom (decisionFor o c store w) false (layers.filter o.selects)

/-- A workspace together with the cache store of its builds. -/
structure BuildState where
  workspace : Workspace
  store : CacheStore
deriving DecidableEq

/-- A computation on files and the cache store. -/
abbrev Build (α : Type) := StateM BuildState α

namespace Build

/-- Runs a job on the files. -/
def liftJob {ε α : Type} (job : Job ε α) : Build (Except ε α) := do
  let s ← get
  let (outcome, workspace) := job.run.run s.workspace
  set { s with workspace := workspace }
  return outcome

def report (notices : List Notice) : Build Unit :=
  modify fun s =>
    { s with workspace := { s.workspace with notices := s.workspace.notices ++ notices } }

/-- Writes the cache store; a failure is only reported. -/
def flush : Build Unit := do
  match ← liftJob (← get).store.flush with
  | .ok () => pure ()
  | .error e => report [.cacheNotWritten e.message]

/-- Makes the cache entry of a layer that was just built. -/
def record (layer : Layer) : Build Unit := do
  let s ← get
  match s.workspace.place.fingerprint layer.sourceDir with
  | .error e => report [.layerNotCached layer.name e.message]
  | .ok hashes =>
    set { s with store := s.store.replace ⟨layer.name, s.workspace.clock, hashes⟩ }
    flush

/-- Drops the cache entry of a layer that failed. -/
def forget (layer : Layer) : Build Unit := do
  let s ← get
  if (s.store.entry? layer.name).isSome then
    set { s with store := s.store.remove layer.name }
    flush

/-- Builds a layer and brings its cache entry up to date. -/
def rebuild (c : BuildContext) (layer : Layer) : Build LayerResult := do
  let s ← get
  let (result, workspace) := (c.buildLayer layer).run s.workspace
  set { s with workspace := workspace }
  if result.success then record layer else forget layer
  return result

/-- Does what a plan says about a layer. -/
def follow (c : BuildContext) (layer : Layer) : Decision → Build LayerResult
  | .upToDate => return .upToDate layer.name
  | .rebuild _ => rebuild c layer

/-- Does what a plan says, layer by layer. -/
def followEach (c : BuildContext) : List (Layer × Decision) → Build (List LayerResult)
  | [] => return []
  | (layer, decision) :: rest => do
    let result ← follow c layer decision
    return result :: (← followEach c rest)

/-- Builds the selected layers in order. -/
def run (o : BuildOptions) (c : BuildContext) (layers : List Layer) : Build BuildReport := do
  let s ← get
  let results ← followEach c (plan o c s.store s.workspace.place layers)
  let outcome : BuildReport := ⟨results, 0⟩
  if !outcome.success then report [.buildFailed outcome.failed.length]
  return outcome

end Build

end DesignTokens
