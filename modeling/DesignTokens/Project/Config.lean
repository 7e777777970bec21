import DesignTokens.Layer.Basic
import DesignTokens.Toml.Printer

/-!
The configuration of a project, and how a new one is written down.
-/

namespace DesignTokens

/-- The name of the file that holds a project's configuration. -/
def configFileName : String := "sando.toml"

/-- The name of a project that gives none. -/
def defaultProjectName : String := "design-tokens"

/-- What a project sets for its builds. Paths are as written in the configuration. -/
structure BuildSettings where
  tokensDir : String
  outputDir : String
  cacheFile : String
  /-- The first part of the name of every generated property. -/
  stem : String
  typedModules : Bool
deriving DecidableEq, Repr

def BuildSettings.standard : BuildSettings :=
  ⟨"tokens", "dist", ".sando-cache.json", CustomProperty.defaultStem, true⟩

structure Config where
  name : String
  description : Option String
  build : BuildSettings
  selectors : Selectors
  /-- Modes that replace built-in ones or are new. -/
  modes : List Mode
  /-- The directory that relative paths start from. -/
  root : Path
deriving DecidableEq, Repr

namespace Config

/-- The configuration of a new project. -/
def new (name : String) : Config :=
  ⟨name, none, BuildSettings.standard, Selectors.standard, [], ⟨""⟩⟩

def tokensPath (c : Config) : Path :=
  c.root.join c.build.tokensDir

def outputPath (c : Config) : Path :=
  c.root.join c.build.outputDir

def cachePath (c : Config) : Path :=
  c.root.join c.build.cacheFile

/-- The built-in modes with those of the project put in. -/
def modeRegistry (c : Config) : ModeRegistry :=
  ModeRegistry.builtin.withOverrides c.modes

/-- The settings of a build with a given date. -/
def buildContext (c : Config) (stamp : String) : BuildContext where
  outputDir := c.outputPath
  stem := c.build.stem
  selectors := c.selectors
  modes := c.modeRegistry
  typedModules := c.build.typedModules
  stamp := stamp

/-- The lines of a table: its header and its members. -/
def tableText (header : String) (lines : List String) : String :=
  header ++ "\n" ++ Text.join "" lines

/-- The line of a member that may be missing. -/
def optionalLine (key : String) (value : Option String) : List String :=
  value.toList.map (Toml.stringLine key)

/-- The members of a mode. -/
def modeLines (m : Mode) : List String :=
  [Toml.stringLine "name" m.name, Toml.stringLine "type" m.type.text] ++
    optionalLine "media_query" m.mediaQuery ++ optionalLine "attribute" m.attributeValue ++
    [Toml.boolLine "allow_manual" m.allowManual, Toml.boolLine "manual_only" m.manualOnly,
     Toml.boolLine "independent" m.independent]

/-- The tables of a configuration. -/
def tableTexts (c : Config) : List String :=
  [tableText "[project]"
      (Toml.stringLine "name" c.name :: optionalLine "description" c.description),
    tableText "[build]"
      [Toml.stringLine "tokens_dir" c.build.tokensDir,
       Toml.stringLine "output_dir" c.build.outputDir,
       Toml.stringLine "cache_file" c.build.cacheFile,
       Toml.stringLine "prefix" c.build.stem,
       Toml.boolLine "typed_modules" c.build.typedModules],
    tableText "[selectors]"
      [Toml.stringLine "root" c.selectors.root,
       Toml.stringLine "flavor_attribute" c.selectors.flavorAttribute,
       Toml.stringLine "mode_attribute" c.selectors.modeAttribute,
       Toml.stringLine "default_flavor" c.selectors.defaultFlavor]] ++
    c.modes.map fun m => tableText "[[modes]]" (modeLines m)

/-- A configuration as a TOML document. -/
def toToml (c : Config) : String :=
  Text.join "\n" c.tableTexts

end Config

end DesignTokens
