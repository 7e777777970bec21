import DesignTokens.Json.Printer
import DesignTokens.Layer.Discovery
import DesignTokens.Project.Config
import DesignTokens.Workspace.Job

/-!
Starting a project: its configuration, a small tree of tokens with one file per layer and a dark
mode, and two files for people. Nothing is written where a configuration already is.
-/

namespace DesignTokens

/-- Tokens as they stand in a starter file. -/
inductive Sample where
  | token (value : String)
  /-- A group of one member, on one line. -/
  | row (key : String) (member : Sample)
  /-- A group with a line for each member. -/
  | block (members : List (String × Sample))

namespace Sample

/-- A token that refers to another one. -/
def reference (dotted : String) : Sample :=
  .token ("\x7b" ++ dotted ++ ".value\x7d")

mutual

/-- The text of a sample inside some number of groups. -/
def render (depth : Nat) : Sample → String
  | .token value => "\x7b \"value\": " ++ Json.quote value ++ " \x7d"
  | .row key member => "\x7b " ++ Json.quote key ++ ": " ++ render depth member ++ " \x7d"
  | .block members =>
    "\x7b\n" ++ Text.join ",\n" (renderMembers (depth + 1) members) ++ "\n" ++
      Text.times "  " depth ++ "\x7d"

/-- The lines of the members of a group. -/
def renderMembers (depth : Nat) : List (String × Sample) → List String
  | [] => []
  | (key, member) :: rest =>
    (Text.times "  " depth ++ Json.quote key ++ ": " ++ render depth member) ::
      renderMembers depth rest

end

/-- The text of a file with a sample. -/
def fileText (s : Sample) : String :=
  s.render 0 ++ "\n"

end Sample

namespace Scaffold

/-- Primitive values. -/
def ingredients : Sample :=
  .block [
    ("color", .block [
      ("white", .token "#ffffff"),
      ("black", .token "#0b0b0f"),
      ("orange", .block [("500", .token "#f97316"), ("700", .token "#c2410c")])]),
    ("space", .block [("2", .token "0.5rem"), ("4", .token "1rem")])]

/-- A theme with a background, a text and an action color. -/
def theme (background text action : String) : Sample :=
  .block [
    ("background", .block [("base", .reference background)]),
    ("text", .block [("body", .reference text)]),
    ("action", .block [("solid", .reference action)])]

def lightTheme : Sample := theme "color.white" "color.black" "color.orange.700"

def darkTheme : Sample := theme "color.black" "color.white" "color.orange.500"

/-- The tokens of a button. -/
def button : Sample :=
  .block [("button", .block [("solid", .block [
    ("backgroundColor", .row "default" (.reference "action.solid")),
    ("textColor", .row "default" (.reference "background.base")),
    ("padding", .token "\x7bspace.2.value\x7d \x7bspace.4.value\x7d")])])]

/-- The files that version control should leave alone. -/
def ignoreText (c : Config) : String :=
  Text.join "\n" ["# Sando build artifacts", "/" ++ c.build.outputDir ++ "/", c.build.cacheFile, "",
    "# OS", ".DS_Store", "Thumbs.db", ""]

/-- A first page about a project. -/
def readmeText (name : String) : String :=
  Text.join "\n" ["# " ++ name, "", "Design tokens built with Sando.", "", "## Build", "",
    "```bash", "sando build", "```", "", "## Project Structure", "", "```", name ++ "/",
    "├── sando.toml               # Project configuration",
    "└── tokens/",
    "    ├── ingredients/         # Primitive values",
    "    ├── flavors/original/    # Theme tokens, flavor-<mode>.json per mode",
    "    └── recipes/             # Component tokens", "```", ""]

/-- The files of a new project, in the order in which they are written. -/
def files (dir : Path) (name : String) : List (Path × String) :=
  let config := Config.new name
  let tokens := dir.join config.build.tokensDir
  let flavor := flavorsName ++ "/" ++ defaultFlavorName
  [(dir.join configFileName, config.toToml),
   (tokens.join (ingredientsName ++ "/color.json"), ingredients.fileText),
   (tokens.join (flavor ++ "/flavor.json"), lightTheme.fileText),
   (tokens.join (flavor ++ "/flavor-dark.json"), darkTheme.fileText),
   (tokens.join (recipesName ++ "/button.json"), button.fileText),
   (dir.join ".gitignore", ignoreText config),
   (dir.join "README.md", readmeText name)]

end Scaffold

/-- Why a project is not created. -/
inductive ScaffoldError where
  | alreadyExists (config : Path)
  | directory (path : Path) (cause : FileError)
  | file (path : Path) (cause : FileError)
deriving DecidableEq, Repr

def ScaffoldError.message : ScaffoldError → String
  | alreadyExists config => config.text ++ " already exists"
  | directory path cause => "Failed to create " ++ path.text ++ ": " ++ cause.message
  | file path cause => "Failed to write " ++ path.text ++ ": " ++ cause.message

namespace Scaffold

/-- Writes files one after the other. -/
def writeAll : List (Path × String) → Job ScaffoldError Unit
  | [] => pure ()
  | (p, text) :: rest => do
    Job.writeText .directory (.file p) p text
    writeAll rest

/-- Creates a project. -/
def create (dir : Path) (name : String) : Job ScaffoldError Unit := do
  let config := dir.join configFileName
  if (← Job.place).pathExists config then throw (.alreadyExists config)
  writeAll (files dir name)

/-- The name of a project in a directory: the last name on the way to it, or the usual one if there
is none. -/
def nameFor (w : Place) (dir : Path) : String :=
  let absolute := (Place.pathOf w.current).join dir.text
  let names := absolute.components.filterMap fun
    | .name text => some text
    | _ => none
  names.getLast?.getD defaultProjectName

end Scaffold

end DesignTokens
