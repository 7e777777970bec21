import DesignTokens.Style.Mode
import DesignTokens.Style.Stylesheet
import DesignTokens.Token.Tree

/-!
Layers: the tiers of tokens that build on one another.
-/

namespace DesignTokens

inductive LayerKind where
  /-- Raw values. -/
  | primitives
  /-- Meanings, with flavors and modes. -/
  | theme
  /-- Parts of components. -/
  | composite
deriving DecidableEq, Repr

/-- Primitives export their values; the values of the other layers vary by flavor and mode, so these
export names of properties. -/
def LayerKind.leafStyle : LayerKind → LeafStyle
  | primitives => .literal
  | theme => .propertyName
  | composite => .propertyName

/-- A variant of the theme. -/
structure Flavor where
  name : String
  baseFile : Path
  /-- The file of each mode, by mode name in ascending order. -/
  modeFiles : List (String × Path)
deriving DecidableEq, Repr

inductive LayerSources where
  /-- Compiled together into one stylesheet. -/
  | files (paths : List Path)
  /-- Compiled flavor by flavor and mode by mode. -/
  | flavors (variants : List Flavor)
deriving DecidableEq, Repr

def LayerSources.isEmpty : LayerSources → Bool
  | .files paths => paths.isEmpty
  | .flavors variants => variants.isEmpty

structure Layer where
  name : String
  kind : LayerKind
  /-- The directory whose contents decide whether the layer has changed. -/
  sourceDir : Path
  /-- Files of other layers, loaded in front of the layer's own. -/
  dependencies : List Path
  sources : LayerSources
deriving DecidableEq, Repr

/-- Settings that all layers of a build share. -/
structure BuildContext where
  outputDir : Path
  stem : String
  selectors : Selectors
  modes : ModeRegistry
  typedModules : Bool
  /-- The text that every generated file carries as its date. -/
  stamp : String
deriving DecidableEq, Repr

namespace BuildContext

/-- Where the stylesheets of a layer go. -/
def cssDir (c : BuildContext) (layer : String) : Path :=
  (c.outputDir.join "css").join layer

/-- Where the typed modules of a layer go. -/
def tsDir (c : BuildContext) (layer : String) : Path :=
  (c.outputDir.join "ts").join layer

/-- The directories that a build of a layer fills. -/
def outputDirs (c : BuildContext) (layer : Layer) : List Path :=
  c.cssDir layer.name :: (if c.typedModules then [c.tsDir layer.name] else [])

def stylesheet (c : BuildContext) : Stylesheet :=
  ⟨c.stem, c.selectors⟩

end BuildContext

/-- A generated file and its size in bytes. -/
structure OutputFile where
  path : Path
  size : Nat
deriving DecidableEq, Repr

/-- The outcome of one layer. -/
structure LayerResult where
  layer : String
  success : Bool
  /-- Whether the layer was up to date and left alone. -/
  skipped : Bool
  fileCount : Nat
  files : List OutputFile
  totalBytes : Nat
  /-- Milliseconds. -/
  duration : Nat
  errorMessage : Option String
deriving DecidableEq, Repr

namespace LayerResult

def built (layer : String) (files : List OutputFile) (duration : Nat) : LayerResult :=
  let total := (files.map OutputFile.size).foldr (· + ·) 0
  ⟨layer, true, false, files.length, files, total, duration, none⟩

def failed (layer : String) (message : String) (duration : Nat) : LayerResult :=
  ⟨layer, false, false, 0, [], 0, duration, some message⟩

def upToDate (layer : String) : LayerResult :=
  ⟨layer, true, true, 0, [], 0, 0, none⟩

end LayerResult

end DesignTokens
