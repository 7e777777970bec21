import DesignTokens.Layer.Basic
import DesignTokens.Notice
import DesignTokens.Token.Error

/-!
Finding token files. A tokens directory holds ingredients (primitives), flavors (a directory each,
with a base file and a file per mode) and recipes (components).
-/

namespace DesignTokens

namespace Place

/-- The files and directories strictly below a location, each directory in front of what lies in it
and siblings in ascending order. A file carries its path below the location. The first argument
bounds the depth. -/
def walkFrom (t : FileTree) : Nat → Location → Path → List (Path × Location)
  | 0, _, _ => []
  | depth + 1, l, p =>
    (t.childNames l).flatMap fun name =>
      match t.lookup (l ++ [name]) with
      | some .directory => walkFrom t depth (l ++ [name]) (p.join name)
      | some (.file ..) => [(p.join name, l ++ [name])]
      | none => []

/-- The length of the longest location in a tree. -/
def depthOf (t : FileTree) : Nat :=
  (t.nodes.map fun entry => entry.1.length).foldl max 0

/-- The files below a directory with their locations, in the order of a walk; none if the path is no
directory. -/
def filesBelow (w : Place) (dir : Path) : List (Path × Location) :=
  match w.isDirectory dir, w.locate dir with
  | true, .ok l => walkFrom w.tree (depthOf w.tree + 1) l dir
  | _, _ => []

/-- The files below a directory whose extension is `json`. -/
def jsonFiles (w : Place) (dir : Path) : List Path :=
  (w.filesBelow dir).filterMap fun file =>
    match file.2.getLast? with
    | some name => if Path.extension? name = some "json" then some file.1 else none
    | none => none

/-- The names in a directory, in ascending order; none if the path is no directory. -/
def namesIn (w : Place) (dir : Path) : List String :=
  match w.isDirectory dir, w.locate dir with
  | true, .ok l => w.tree.childNames l
  | _, _ => []

end Place

/-- What a file in a flavor's directory is. -/
inductive FlavorFile where
  | base
  | mode (name : String)
deriving DecidableEq, Repr

/-- What a file is by its name: `flavor.json` is the base, `flavor-x.json` the mode `x`. -/
def FlavorFile.ofName? (name : String) : Option FlavorFile :=
  match Text.stripEnd ".json".toList name.toList with
  | none => none
  | some stem =>
    if stem = "flavor".toList then some .base
    else match Text.stripStart "flavor-".toList stem with
      | none => none
      | some [] => none
      | some label => some (.mode (String.ofList label))

namespace Flavor

/-- The base file in a flavor's directory. -/
def baseFile? (w : Place) (dir : Path) : Option Path :=
  ((w.namesIn dir).find? fun name => FlavorFile.ofName? name == some .base).map dir.join

/-- The mode files in a flavor's directory, by mode name. -/
def modeFilesIn (w : Place) (dir : Path) : List (String × Path) :=
  Keyed.sortedOf <| (w.namesIn dir).filterMap fun name =>
    match FlavorFile.ofName? name with
    | some (.mode mode) => some (mode, dir.join name)
    | _ => none

/-- The directories directly below a directory, by name. -/
def candidates (w : Place) (dir : Path) : List (String × Path) :=
  ((w.namesIn dir).map fun name => (name, dir.join name)).filter fun entry => w.isDirectory entry.2

/-- The flavors below a directory: its directories that hold a base file. -/
def discover (w : Place) (dir : Path) : List Flavor :=
  (candidates w dir).filterMap fun entry =>
    (baseFile? w entry.2).map fun base => ⟨entry.1, base, modeFilesIn w entry.2⟩

/-- The notices of finding flavors: one for each directory without a base file. -/
def discoverNotices (w : Place) (dir : Path) : List Notice :=
  (candidates w dir).filterMap fun entry =>
    match baseFile? w entry.2 with
    | some _ => none
    | none => some (.flavorWithoutBase entry.1)

end Flavor

def ingredientsName : String := "ingredients"

def flavorsName : String := "flavors"

def recipesName : String := "recipes"

namespace Layer

/-- The layers of an existing tokens directory. Recipes are resolved against the ingredients and the
base file of the default flavor. -/
def discoverIn (w : Place) (tokens : Path) (defaultFlavor : String) : List Layer :=
  let ingredients := w.jsonFiles (tokens.join ingredientsName)
  let flavors := Flavor.discover w (tokens.join flavorsName)
  let recipes := w.jsonFiles (tokens.join recipesName)
  let base := (flavors.find? fun f => f.name == defaultFlavor).map Flavor.baseFile
  [⟨ingredientsName, .primitives, tokens.join ingredientsName, [], .files ingredients⟩,
   ⟨flavorsName, .theme, tokens.join flavorsName, ingredients, .flavors flavors⟩,
   ⟨recipesName, .composite, tokens.join recipesName, ingredients ++ base.toList, .files recipes⟩]

/-- The layers of a tokens directory, in the order in which they build on one another. -/
def discover (w : Place) (tokens : Path) (defaultFlavor : String) :
    Except TokenError (List Layer) :=
  if w.isDirectory tokens then .ok (discoverIn w tokens defaultFlavor)
  else .error (.noTokenDirectory tokens)

/-- The notices of finding layers. -/
def discoverNotices (w : Place) (tokens : Path) (defaultFlavor : String) : List Notice :=
  if w.isDirectory tokens then
    let dirs := [ingredientsName, flavorsName, recipesName].map tokens.join
    let missing := (dirs.filter fun dir => !w.isDirectory dir).map fun dir =>
      Notice.layerDirectoryMissing dir.text
    let flavorsDir := tokens.join flavorsName
    let flavors := Flavor.discover w flavorsDir
    let orphaned :=
      if flavors.any fun f => f.name == defaultFlavor then []
      else if flavors.isEmpty && (w.jsonFiles (tokens.join recipesName)).isEmpty then []
      else [.recipesWithoutFlavor defaultFlavor]
    missing ++ Flavor.discoverNotices w flavorsDir ++ orphaned
  else []

end Layer

end DesignTokens
