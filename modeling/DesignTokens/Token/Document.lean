import DesignTokens.Token.Basic
import DesignTokens.Token.Error

/-!
Token documents. An object with a member `value` is a token; any other object groups what lies
below it; members whose name starts with `$` are not looked at.
-/

namespace DesignTokens

/-- A token before its references are followed. -/
structure RawToken where
  path : List String
  value : Json.Value
  file : Path
  isSource : Bool
deriving Repr, Inhabited

mutual

/-- The tokens in a member of a document, in document order. -/
def leavesAt (path : List String) :
    Json.Value → Except DocumentError (List (List String × Json.Value))
  | .object members =>
    match Keyed.get? "value" members with
    | some value => .ok [(path, value)]
    | none => leavesIn path members
  | _ => .error (.neitherTokenNorGroup (dotted path))

/-- The tokens in the members of a group. -/
def leavesIn (path : List String) :
    List (String × Json.Value) → Except DocumentError (List (List String × Json.Value))
  | [] => .ok []
  | (key, child) :: rest =>
    if key.toList.head? = some '$' then leavesIn path rest
    else
      match leavesAt (path ++ [key]) child with
      | .error e => .error e
      | .ok found => (leavesIn path rest).map fun more => found ++ more

end

/-- The tokens of a document with their paths. -/
def leaves : Json.Value → Except DocumentError (List (List String × Json.Value))
  | .object members => leavesIn [] members
  | _ => .error .notAnObject

/-- Tokens by dotted path. A later declaration replaces an earlier one and takes its position. -/
abbrev RawTokens := List (String × RawToken)

/-- Adds the tokens of a document. -/
def RawTokens.add (tokens : RawTokens) (file : Path) (isSource : Bool)
    (found : List (List String × Json.Value)) : RawTokens :=
  found.foldl
    (fun acc leaf => Keyed.put (dotted leaf.1) ⟨leaf.1, leaf.2, file, isSource⟩ acc) tokens

end DesignTokens
