import DesignTokens.Style.Mode
import DesignTokens.Style.Selector
import DesignTokens.Token.Basic

/-!
Stylesheets of custom properties, written line by line.

Declarations are grouped by category; the categories stand in ascending order and each group keeps
the order of its tokens. A token that was written with references refers to the properties of its
targets, any other token has its resolved value.
-/

namespace DesignTokens

/-- What a block of a stylesheet is. -/
inductive BlockKind where
  | rule
  | media
  | manual
deriving DecidableEq, Repr

structure Block where
  kind : BlockKind
  text : String
deriving DecidableEq, Repr

/-- Adds a token to the end of its category's group. -/
def addToGroup (groups : List (String × List Token)) (t : Token) : List (String × List Token) :=
  Keyed.putSorted t.category ((Keyed.get? t.category groups).getD [] ++ [t]) groups

/-- The tokens by category, the categories in ascending order. -/
def groupByCategory (tokens : List Token) : List (String × List Token) :=
  tokens.foldl addToGroup []

/-- The custom properties of a project: the stem of their names and the selectors they go to. -/
structure Stylesheet where
  stem : String
  selectors : Selectors
deriving DecidableEq, Repr

namespace Stylesheet

variable (s : Stylesheet)

/-- The right-hand side of a token's declaration. -/
def declarationValue (t : Token) : String :=
  if t.hasReferences then Placeholder.renderCss s.stem t.source else t.cssValue

/-- The notices of writing a token's declaration. -/
def declarationNotices (t : Token) : List Notice :=
  if t.hasReferences then Placeholder.renderNotices t.source else []

def declaration (t : Token) : String :=
  CustomProperty.name s.stem t.path ++ ": " ++ s.declarationValue t ++ ";"

/-- The lines of one category. -/
def groupLines (indent : String) (group : String × List Token) : List String :=
  (indent ++ "/* " ++ group.1 ++ " */") :: group.2.map fun t => indent ++ s.declaration t

/-- The lines of all categories, with an empty line between two of them. -/
def bodyLines (indent : String) : List (String × List Token) → List String
  | [] => []
  | [group] => s.groupLines indent group
  | group :: next :: rest =>
    s.groupLines indent group ++ "" :: bodyLines indent (next :: rest)

/-- The lines of a list of selectors in front of a brace. -/
def selectorLines (indent : String) : List String → List String
  | [] => [" \x7b"]
  | [last] => [indent ++ last ++ " \x7b"]
  | selector :: next :: rest => (indent ++ selector ++ ",") :: selectorLines indent (next :: rest)

/-- The lines of a rule at a nesting depth. -/
def ruleLines (selectors : List String) (tokens : List Token) (depth : Nat) : List String :=
  selectorLines (Json.indentation depth) selectors ++
    s.bodyLines (Json.indentation (depth + 1)) (groupByCategory tokens) ++
    [Json.indentation depth ++ "\x7d"]

def rule (selectors : List String) (tokens : List Token) (depth : Nat) : String :=
  Text.join "\n" (s.ruleLines selectors tokens depth)

/-- A rule inside a media query. -/
def mediaRule (query : String) (selectors : List String) (tokens : List Token) : String :=
  "@media (" ++ query ++ ") \x7b\n" ++ s.rule selectors tokens 1 ++ "\n\x7d"

/-- One rule for the document root. -/
def rootText (tokens : List Token) : String :=
  s.rule [s.selectors.root] tokens 0

/-- The block that a media query switches on. -/
def mediaBlock (flavor query : String) (tokens : List Token) : Block :=
  ⟨.media, s.mediaRule query (s.selectors.forFlavor flavor) tokens⟩

/-- The block that is switched on by hand. -/
def manualBlock (flavor pin : String) (tokens : List Token) : Block :=
  ⟨.manual, s.rule (s.selectors.forMode flavor pin) tokens 0⟩

/-- The blocks for one file of a flavor. -/
def flavorBlocks (flavor : String) (activation : Activation) (tokens : List Token) : List Block :=
  match activation with
  | .base => [⟨.rule, s.rule (s.selectors.forFlavor flavor) tokens 0⟩]
  | .media query => [s.mediaBlock flavor query tokens]
  | .motion query => [s.mediaBlock flavor query tokens]
  | .mediaOrManual query pin =>
    [s.mediaBlock flavor query tokens, s.manualBlock flavor pin tokens]
  | .manual pin => [s.manualBlock flavor pin tokens]

/-- The stylesheet for one file of a flavor. -/
def flavorText (flavor : String) (activation : Activation) (tokens : List Token) : String :=
  Text.join "\n\n" ((s.flavorBlocks flavor activation tokens).map Block.text)

/-- The notices of writing every declaration once. -/
def bodyNotices (tokens : List Token) : List Notice :=
  (groupByCategory tokens).flatMap fun group => group.2.flatMap declarationNotices

/-- The notices of writing the stylesheet for one file of a flavor. -/
def flavorNotices (flavor : String) (activation : Activation) (tokens : List Token) :
    List Notice :=
  (s.flavorBlocks flavor activation tokens).flatMap fun _ => bodyNotices tokens

end Stylesheet

end DesignTokens
