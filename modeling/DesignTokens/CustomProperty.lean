import DesignTokens.Text.Basic

/-!
Names of CSS custom properties. Every name of a project starts with the same stem.
-/

namespace DesignTokens.CustomProperty

/-- The stem of projects that choose none. -/
def defaultStem : String := "sando"

/-- The name for a token path: `--stem-a-b-c`. The segments stand in it as they are written. -/
def name (stem : String) (path : List String) : String :=
  path.foldl (fun text segment => text ++ "-" ++ segment) ("--" ++ stem)

/-- A dotted path with a hyphen for every dot. -/
def hyphenated (dotted : String) : String :=
  String.ofList (dotted.toList.map fun c => if c = '.' then '-' else c)

/-- The name for a dotted path. -/
def nameOfDotted (stem dotted : String) : String :=
  "--" ++ stem ++ "-" ++ hyphenated dotted

/-- The `var()` expression that refers to a name. -/
def reference (name : String) : String :=
  "var(" ++ name ++ ")"

end DesignTokens.CustomProperty
