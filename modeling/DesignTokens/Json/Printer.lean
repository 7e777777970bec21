import DesignTokens.Json.Value
import DesignTokens.Number.Decimal
import DesignTokens.Text.Basic

/-!
The text of JSON documents, compact and indented. Numbers print with the fewest digits that read
back; strings escape only what JSON forbids inside quotes.
-/

namespace DesignTokens.Json

/-- The spelling of a character inside quotes. -/
def escapeChar (c : Char) : List Char :=
  if c = '"' then ['\\', '"']
  else if c = '\\' then ['\\', '\\']
  else if c = '\x08' then ['\\', 'b']
  else if c = '\x0c' then ['\\', 'f']
  else if c = '\n' then ['\\', 'n']
  else if c = '\r' then ['\\', 'r']
  else if c = '\t' then ['\\', 't']
  else if c.toNat < 0x20 then ['\\', 'u'] ++ (Text.hexPadded 4 c.toNat).toList
  else [c]

/-- A text in quotes. -/
def quote (s : String) : String :=
  String.ofList ('"' :: s.toList.flatMap escapeChar ++ ['"'])

namespace Number

/-- A binary64 number: positional from `10 ^ -5` up to below `10 ^ 16`, else with an exponent. -/
def realText (x : Binary64) : String :=
  let body :=
    if x.magnitude.mantissa = 0 then ['0', '.', '0']
    else
      let d := Decimal.shortest x.magnitude
      if -5 ≤ d.exponent ∧ d.exponent ≤ 15 then d.positional else d.scientific
  String.ofList (if x.negative then '-' :: body else body)

def toText : Number → String
  | integer n => if n < 0 then "-" ++ n.natAbs.repr else n.natAbs.repr
  | real x => realText x

end Number

/-- The word for a truth value. -/
def boolText (b : Bool) : String :=
  if b then "true" else "false"

mutual

/-- A document on one line, without blanks. -/
def Value.compact : Value → String
  | .null => "null"
  | .boolean b => boolText b
  | .number n => n.toText
  | .string s => quote s
  | .array items => "[" ++ compactItems items ++ "]"
  | .object members => "\x7b" ++ compactMembers members ++ "\x7d"

def compactItems : List Value → String
  | [] => ""
  | [v] => v.compact
  | v :: w :: rest => v.compact ++ "," ++ compactItems (w :: rest)

def compactMembers : List (String × Value) → String
  | [] => ""
  | [(k, v)] => quote k ++ ":" ++ v.compact
  | (k, v) :: m :: rest => quote k ++ ":" ++ v.compact ++ "," ++ compactMembers (m :: rest)

end

/-- The blanks in front of a line at a nesting depth. -/
def indentation (depth : Nat) : String :=
  Text.times "  " depth

/-- An object with one member per line, given the texts of its members. -/
def indentedObject (depth : Nat) (members : List (String × String)) : String :=
  match members with
  | [] => "\x7b\x7d"
  | members =>
    let lines := members.map fun m => indentation (depth + 1) ++ quote m.1 ++ ": " ++ m.2
    "\x7b\n" ++ Text.join ",\n" lines ++ "\n" ++ indentation depth ++ "\x7d"

end DesignTokens.Json
