import DesignTokens.Text.Basic

/-!
Strings of TOML documents. Of the ways to quote a string the first one that can hold it is taken.
-/

namespace DesignTokens.Toml

/-- Control characters that a string without escapes cannot hold. -/
def isControl (c : Char) : Bool :=
  (c.toNat < 0x20 && c ≠ '\t' && c ≠ '\n') || c.toNat = 0x7F

/-- How a string is quoted. -/
inductive Quoting where
  /-- In double quotes, with escapes. -/
  | basic
  /-- In single quotes, as it is. -/
  | literal
  /-- In three double quotes, with escapes. -/
  | longBasic
  /-- In three single quotes, as it is. -/
  | longLiteral
deriving DecidableEq, Repr

def Quoting.delimiter : Quoting → String
  | basic => "\""
  | literal => "'"
  | longBasic => "\"\"\""
  | longLiteral => "'''"

/-- The way a string is quoted. -/
def quotingOf (cs : List Char) : Quoting :=
  let controls := cs.any isControl
  let breaks := cs.contains '\n'
  let backslash := cs.contains '\\'
  if !controls && !backslash && !breaks && !cs.contains '"' then .basic
  else if !controls && !breaks && !cs.contains '\'' then .literal
  else if !controls && !backslash && !Text.occurs ['"', '"', '"'] cs then .longBasic
  else if !controls && !Text.occurs ['\'', '\'', '\''] cs then .longLiteral
  else if breaks then .longBasic
  else .basic

/-- The spelling of a character that is no double quote; line breaks stay where they may. -/
def escapeChar (keepBreaks : Bool) (c : Char) : List Char :=
  if c = '\x08' then ['\\', 'b']
  else if c = '\t' then ['\\', 't']
  else if c = '\n' then (if keepBreaks then ['\n'] else ['\\', 'n'])
  else if c = '\x0c' then ['\\', 'f']
  else if c = '\r' then ['\\', 'r']
  else if c = '\\' then ['\\', '\\']
  else if isControl c then ['\\', 'u'] ++ (Text.hexPadded 4 c.toNat).toList.map Char.toUpper
  else [c]

/-- A text with escapes. Of double quotes in a row as many stay as are allowed, then one is escaped
and the count starts again. -/
def escapeFrom (keepBreaks : Bool) (allowed : Nat) (run : Nat) : List Char → List Char
  | [] => []
  | c :: cs =>
    if c = '"' then
      if run < allowed then '"' :: escapeFrom keepBreaks allowed (run + 1) cs
      else '\\' :: '"' :: escapeFrom keepBreaks allowed 0 cs
    else escapeChar keepBreaks c ++ escapeFrom keepBreaks allowed 0 cs

/-- The characters between the delimiters. -/
def Quoting.body (q : Quoting) (cs : List Char) : List Char :=
  match q with
  | basic => escapeFrom false 0 0 cs
  | literal => cs
  | longBasic => (if cs.contains '\n' then ['\n'] else []) ++ escapeFrom true 2 0 cs
  | longLiteral => (if cs.contains '\n' then ['\n'] else []) ++ cs

/-- A string with its quotes. -/
def quote (s : String) : String :=
  let q := quotingOf s.toList
  q.delimiter ++ String.ofList (q.body s.toList) ++ q.delimiter

/-- A line that gives a key a string. -/
def stringLine (key value : String) : String :=
  key ++ " = " ++ quote value ++ "\n"

/-- A line that gives a key a truth value. -/
def boolLine (key : String) (value : Bool) : String :=
  key ++ " = " ++ (if value then "true" else "false") ++ "\n"

end DesignTokens.Toml
