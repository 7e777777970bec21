import DesignTokens.Project.Config
import DesignTokens.Toml.Reader
import DesignTokens.Workspace.Job

/-!
Reading the configuration of a project. Keys that are not known are ignored, and missing ones have
standard values; a known key with a value of the wrong kind makes the file malformed.
-/

namespace DesignTokens

namespace Toml

/-- The members of a value that stands for a record with some fields. A list gives the fields in
their order, as far as it goes; a date is a record without any of them. -/
def record? (fields : List String) : Value → Option Members
  | .table _ _ members => some members
  | .inline _ members => some members
  | .array items => some (fields.zip items)
  | .tables elements => some (fields.zip (elements.map (.table true false ·)))
  | .dateTime _ => some []
  | _ => none

/-- The elements of a value that stands for a list. -/
def elements? : Value → Option (List Value)
  | .array items => some items
  | .tables elements => some (elements.map (.table true false ·))
  | _ => none

def text? : Value → Option String
  | .string text => some text
  | _ => none

def flag? : Value → Option Bool
  | .boolean value => some value
  | _ => none

/-- Whether a value is a table or a list, and nothing is in it. -/
def isEmptyGroup : Value → Bool
  | .table _ _ members => members.isEmpty
  | .inline _ members => members.isEmpty
  | .array items => items.isEmpty
  | _ => false

/-- The value of a member, or a standard one if the member is missing. -/
def memberOr {α : Type} (decode : Value → Option α) (standard : α) (key : String)
    (members : Members) : Option α :=
  match Keyed.get? key members with
  | none => some standard
  | some v => decode v

end Toml

/-- Why a project's configuration cannot be loaded. -/
inductive ConfigError where
  | missing (path : Path)
  | unreadable (path : Path) (cause : FileError)
  | malformed (path : Path)
deriving DecidableEq, Repr

def ConfigError.message : ConfigError → String
  | missing path =>
    "No " ++ configFileName ++ " found in " ++ path.text ++ ". Run `sando init` to create one."
  | unreadable path cause => "Failed to read " ++ path.text ++ ": " ++ cause.message
  | malformed path => "Failed to parse " ++ path.text

namespace Config

open Toml

/-- A mode's type: its name, or a table whose only key is the name, with nothing in it. -/
def modeType? : Value → Option ModeType
  | .string text => ModeType.ofText? text
  | .table _ _ [(text, v)] => if isEmptyGroup v then ModeType.ofText? text else none
  | .inline _ [(text, v)] => if isEmptyGroup v then ModeType.ofText? text else none
  | _ => none

/-- A mode. It needs a name. -/
def mode? (v : Value) : Option Mode := do
  let members ← record? ["name", "type", "media_query", "attribute", "allow_manual", "manual_only",
    "independent"] v
  return {
    name := ← (Keyed.get? "name" members).bind text?
    type := ← memberOr modeType? .color "type" members
    mediaQuery := ← memberOr (fun v => (text? v).map some) none "media_query" members
    attributeValue := ← memberOr (fun v => (text? v).map some) none "attribute" members
    allowManual := ← memberOr flag? false "allow_manual" members
    manualOnly := ← memberOr flag? false "manual_only" members
    independent := ← memberOr flag? false "independent" members }

/-- The name and the description of a project. -/
def project? (v : Value) : Option (String × Option String) := do
  let members ← record? ["name", "description"] v
  return (← memberOr text? defaultProjectName "name" members,
    ← memberOr (fun v => (text? v).map some) none "description" members)

def build? (v : Value) : Option BuildSettings := do
  let members ← record? ["tokens_dir", "output_dir", "cache_file", "prefix", "typed_modules"] v
  let standard := BuildSettings.standard
  return {
    tokensDir := ← memberOr text? standard.tokensDir "tokens_dir" members
    outputDir := ← memberOr text? standard.outputDir "output_dir" members
    cacheFile := ← memberOr text? standard.cacheFile "cache_file" members
    stem := ← memberOr text? standard.stem "prefix" members
    typedModules := ← memberOr flag? standard.typedModules "typed_modules" members }

def selectors? (v : Value) : Option Selectors := do
  let members ← record? ["root", "flavor_attribute", "mode_attribute", "default_flavor"] v
  let standard := Selectors.standard
  return {
    root := ← memberOr text? standard.root "root" members
    flavorAttribute := ← memberOr text? standard.flavorAttribute "flavor_attribute" members
    modeAttribute := ← memberOr text? standard.modeAttribute "mode_attribute" members
    defaultFlavor := ← memberOr text? standard.defaultFlavor "default_flavor" members }

/-- The modes of a list, one by one. -/
def modes? (v : Value) : Option (List Mode) :=
  (elements? v).bind fun items => items.mapM mode?

/-- The configuration that the members of a document give. -/
def ofMembers (root : Path) (members : Members) : Option Config := do
  let (name, description) ← memberOr project? (defaultProjectName, none) "project" members
  return {
    name := name
    description := description
    build := ← memberOr build? BuildSettings.standard "build" members
    selectors := ← memberOr selectors? Selectors.standard "selectors" members
    modes := ← memberOr modes? [] "modes" members
    root := root }

/-- The configuration that a text gives. -/
def ofToml (root : Path) (text : String) : Option Config :=
  (Toml.parse text).bind (ofMembers root)

/-- The path of the configuration file: the path itself if a file is there, else the file with the
usual name below it. -/
def filePath (w : Place) (p : Path) : Path :=
  if w.isFile p then p else p.join configFileName

/-- Loads the configuration at a path, which is that of the file or of its directory. -/
def load (w : Place) (p : Path) : Except ConfigError Config :=
  let file := filePath w p
  if w.pathExists file then
    match w.readText file with
    | .error e => .error (.unreadable file e)
    | .ok text =>
      match ofToml (file.parent.getD ⟨""⟩) text with
      | some config => .ok config
      | none => .error (.malformed file)
  else .error (.missing p)

end Config

end DesignTokens
