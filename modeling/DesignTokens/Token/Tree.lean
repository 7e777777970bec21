import DesignTokens.Token.Basic

/-!
Nested objects built from a flat list of tokens.

A path that ends where another one goes on is both a token and a group; the group wins, whichever
comes first.
-/

namespace DesignTokens

/-- What stands at the leaves of a tree: resolved values, or names of custom properties. -/
inductive LeafStyle where
  | literal
  | propertyName
deriving DecidableEq, Repr

def LeafStyle.leaf (style : LeafStyle) (stem : String) (t : Token) : Json.Value :=
  match style with
  | literal => t.value
  | propertyName => .string (CustomProperty.name stem t.path)

namespace TokenTree

abbrev Members := List (String × Json.Value)

/-- The members of the group stored under a key; none if there is no group. -/
def group? (key : String) (members : Members) : Option Members :=
  match Keyed.get? key members with
  | some (.object inner) => some inner
  | _ => none

/-- Stores a leaf at a path, making the groups on the way; a group at the path's end stays. -/
def plant (leaf : Json.Value) : List String → Members → Members
  | [], members => members
  | [last], members =>
    match group? last members with
    | some _ => members
    | none => Keyed.put last leaf members
  | key :: rest, members =>
    Keyed.put key (.object (plant leaf rest ((group? key members).getD []))) members

/-- The notices of storing a leaf: a value on the way that gives way to a group, and a leaf that
gives way to a group at its place. -/
def plantNotices (name : String) : List String → Members → List Notice
  | [], _ => []
  | [last], members => if (group? last members).isSome then [.tokenUnderGroup name] else []
  | key :: rest, members =>
    let here := match group? key members, Keyed.get? key members with
      | none, some _ => [.groupOverToken name]
      | _, _ => []
    here ++ plantNotices name rest ((group? key members).getD [])

/-- The keys under which a token is stored: its path, or for one category what follows the
category. Tokens of other categories have none. -/
def keyPath? (category : Option String) (t : Token) : Option (List String) :=
  match category with
  | none => some t.path
  | some c => if t.category = c then some (t.path.drop 1) else none

/-- Stores the leaf of a token. -/
def addToken (category : Option String) (leaf : Token → Json.Value) (members : Members)
    (t : Token) : Members :=
  match keyPath? category t with
  | none => members
  | some path => plant (leaf t) path members

/-- The tree of the tokens, or of those in one category. -/
def build (tokens : List Token) (category : Option String) (leaf : Token → Json.Value) :
    Json.Value :=
  .object (tokens.foldl (addToken category leaf) [])

/-- The notices of storing the leaf of a token. -/
def tokenNotices (category : Option String) (members : Members) (t : Token) : List Notice :=
  match keyPath? category t with
  | none => []
  | some [] => [.bareCategory t.dottedPath]
  | some path => plantNotices t.dottedPath path members

/-- The notices of building on top of some members. -/
def noticesFrom (category : Option String) (leaf : Token → Json.Value) (members : Members) :
    List Token → List Notice
  | [] => []
  | t :: rest =>
    tokenNotices category members t ++
      noticesFrom category leaf (addToken category leaf members t) rest

/-- The notices of building a tree. -/
def notices (tokens : List Token) (category : Option String) (leaf : Token → Json.Value) :
    List Notice :=
  noticesFrom category leaf [] tokens

end TokenTree

end DesignTokens
