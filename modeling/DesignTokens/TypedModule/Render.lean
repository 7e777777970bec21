import DesignTokens.Json.Printer
import DesignTokens.TypedModule.Identifier

/-!
The text of typed modules: a constant with the tree of one category, the type of that constant, and
an index that exports all of them again.
-/

namespace DesignTokens

/-- Whether a key can stand without quotes. -/
def isPlainKey (key : String) : Bool :=
  match key.toList with
  | [] => false
  | c :: cs =>
    (isAsciiLetter c || c = '_' || c = '$') &&
      cs.all fun c => isAsciiLetter c || isAsciiDigit c || c = '_' || c = '$'

/-- A key of an object. -/
def keyText (key : String) : String :=
  if isPlainKey key then key else Json.quote key

mutual

/-- A value as an expression, with the members of objects on lines of their own. -/
def Json.Value.expression (depth : Nat) : Json.Value → String
  | .object [] => "\x7b\x7d"
  | .object members =>
    "\x7b\n" ++ memberLines (depth + 1) members ++ Json.indentation depth ++ "\x7d"
  | .array items => "[" ++ itemTexts depth items ++ "]"
  | .string s => Json.quote s
  | .null => "null"
  | .boolean b => Json.boolText b
  | .number n => n.toText

def memberLines (depth : Nat) : List (String × Json.Value) → String
  | [] => ""
  | (key, v) :: rest =>
    Json.indentation depth ++ keyText key ++ ": " ++ v.expression depth ++ ",\n" ++
      memberLines depth rest

def itemTexts (depth : Nat) : List Json.Value → String
  | [] => ""
  | [v] => v.expression depth
  | v :: w :: rest => v.expression depth ++ ", " ++ itemTexts depth (w :: rest)

end

namespace ModuleName

/-- The module of a category. -/
def render (name : ModuleName) (tree : Json.Value) : String :=
  "export const " ++ name.constant ++ " = " ++ tree.expression 0 ++ " as const;\n\n" ++
    "export type " ++ name.type ++ " = typeof " ++ name.constant ++ ";\n"

/-- The lines of an index that export one name of each module. -/
def exportLines (keyword : String) (exported : ModuleName → String) : List ModuleName → String
  | [] => ""
  | name :: rest =>
    keyword ++ " \x7b " ++ exported name ++ " \x7d from './" ++ name.category ++ "';\n" ++
      exportLines keyword exported rest

/-- The index of modules: all constants, then all types. -/
def renderIndex (names : List ModuleName) : String :=
  exportLines "export" constant names ++ "\n" ++ exportLines "export type" type names

end ModuleName

end DesignTokens
