import DesignTokens.Json.Printer
import DesignTokens.Placeholder
import DesignTokens.Workspace.Path

/-!
Tokens: design decisions with a place in a hierarchy, a resolved value and the text it was written
as.
-/

namespace DesignTokens

mutual

/-- A value as CSS text: list items joined by commas, null as nothing, an object as JSON. -/
def Json.Value.cssText : Json.Value → String
  | .null => ""
  | .boolean b => Json.boolText b
  | .number n => n.toText
  | .string s => s
  | .array items => Text.join ", " (cssTexts items)
  | .object members => Json.Value.compact (.object members)

def cssTexts : List Json.Value → List String
  | [] => []
  | v :: rest => v.cssText :: cssTexts rest

end

mutual

/-- The text of a value as it was written in a token file. List items are joined the way the output
joins them, so that placeholders inside lists can be found in the joined text. -/
def Json.Value.sourceText : Json.Value → String
  | .string s => s
  | .array items => Text.join ", " (sourceTexts items)
  | .object members => Json.Value.compact (.object members)
  | other => other.cssText

def sourceTexts : List Json.Value → List String
  | [] => []
  | v :: rest => v.sourceText :: sourceTexts rest

end

structure Token where
  /-- The segments of the hierarchy; the first one is the category. -/
  path : List String
  /-- The value with all references followed. -/
  value : Json.Value
  /-- The text that the value was written as, with its references. -/
  source : String
  file : Path
  /-- Whether the token belongs to the layer itself and not to one it depends on. -/
  isSource : Bool
deriving Repr, Inhabited

/-- The segments of a path with dots between them. -/
def dotted (path : List String) : String :=
  Text.join "." path

namespace Token

def category (t : Token) : String :=
  t.path.headD ""

def dottedPath (t : Token) : String :=
  dotted t.path

/-- Whether the token was written with references to other tokens. -/
def hasReferences (t : Token) : Bool :=
  Placeholder.hasReference t.source

def cssValue (t : Token) : String :=
  t.value.cssText

end Token

/-- Resolved tokens in order of their first declaration. -/
structure Dictionary where
  tokens : List Token
deriving Repr, Inhabited

namespace Dictionary

/-- The tokens that the layer itself declares. -/
def sources (d : Dictionary) : List Token :=
  d.tokens.filter (·.isSource)

/-- The token with a dotted path. -/
def get? (d : Dictionary) (path : String) : Option Token :=
  d.tokens.find? (·.dottedPath == path)

end Dictionary

/-- The categories of tokens in order of their first appearance. -/
def categoriesOf (tokens : List Token) : List String :=
  tokens.foldl (fun seen t => if t.category ∈ seen then seen else seen ++ [t.category]) []

end DesignTokens
