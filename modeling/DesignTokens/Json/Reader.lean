import DesignTokens.Json.Lexer

/-!
Reading whole JSON documents. A repeated key replaces the earlier member in place; containers nest
at most 127 deep.
-/

namespace DesignTokens.Json

/-- The number of containers that may lie inside one another. -/
def nestingLimit : Nat := 127

mutual

/-- Reads a value. The first number bounds the steps, the second the containers still allowed. -/
def value : Nat → Nat → List Char → Reading Value
  | 0, _, _ => .error (.before .endOfValue [])
  | steps + 1, depth, cs =>
    match skipSpace cs with
    | [] => .error (.before .endOfValue [])
    | 'n' :: rest => (word ['u', 'l', 'l'] rest).map fun rest => (.null, rest)
    | 't' :: rest => (word ['r', 'u', 'e'] rest).map fun rest => (.boolean true, rest)
    | 'f' :: rest => (word ['a', 'l', 's', 'e'] rest).map fun rest => (.boolean false, rest)
    | '"' :: rest => (string rest).map fun r => (.string r.1, r.2)
    | '-' :: rest => (number true rest).map fun r => (.number r.1, r.2)
    | '[' :: rest =>
      match depth with
      | 0 => .error (.within .tooDeep ('[' :: rest))
      | depth + 1 =>
        match skipSpace rest with
        | [] => .error (.before .endOfList [])
        | ']' :: rest => .ok (.array [], rest)
        | rest => (items steps depth [] rest).map fun r => (.array r.1, r.2)
    | '\x7b' :: rest =>
      match depth with
      | 0 => .error (.within .tooDeep ('\x7b' :: rest))
      | depth + 1 =>
        match skipSpace rest with
        | [] => .error (.before .endOfObject [])
        | '\x7d' :: rest => .ok (.object [], rest)
        | '"' :: rest => (members steps depth [] rest).map fun r => (.object r.1, r.2)
        | rest => .error (.within .keyNotString rest)
    | c :: rest =>
      if (Text.digit? c).isSome then (number false (c :: rest)).map fun r => (.number r.1, r.2)
      else .error (.within .expectedValue (c :: rest))

/-- Reads the values of a list, from the start of one up to the closing bracket. -/
def items : Nat → Nat → List Value → List Char → Reading (List Value)
  | 0, _, _, _ => .error (.before .endOfValue [])
  | steps + 1, depth, done, cs =>
    match value steps depth cs with
    | .error fault => .error fault
    | .ok (v, rest) =>
      match skipSpace rest with
      | [] => .error (.before .endOfList [])
      | ']' :: rest => .ok (done ++ [v], rest)
      | ',' :: rest =>
        match skipSpace rest with
        | [] => .error (.before .endOfValue [])
        | ']' :: rest => .error (.within .trailingComma (']' :: rest))
        | rest => items steps depth (done ++ [v]) rest
      | rest => .error (.within .expectedListEnd rest)

/-- Reads the members of an object, from behind a key's opening quote up to the closing brace. -/
def members : Nat → Nat → List (String × Value) → List Char → Reading (List (String × Value))
  | 0, _, _, _ => .error (.before .endOfValue [])
  | steps + 1, depth, done, cs =>
    match string cs with
    | .error fault => .error fault
    | .ok (key, rest) =>
      match skipSpace rest with
      | [] => .error (.before .endOfObject [])
      | ':' :: rest =>
        match value steps depth rest with
        | .error fault => .error fault
        | .ok (v, rest) =>
          let done := Keyed.put key v done
          match skipSpace rest with
          | [] => .error (.before .endOfObject [])
          | '\x7d' :: rest => .ok (done, rest)
          | ',' :: rest =>
            match skipSpace rest with
            | [] => .error (.before .endOfValue [])
            | '"' :: rest => members steps depth done rest
            | '\x7d' :: rest => .error (.within .trailingComma ('\x7d' :: rest))
            | rest => .error (.within .keyNotString rest)
          | rest => .error (.within .expectedObjectEnd rest)
      | rest => .error (.within .expectedColon rest)

end

/-- Steps that suffice for a text: each character takes at most two. -/
def stepsFor (cs : List Char) : Nat :=
  2 * cs.length + 2

/-- Refuses anything but blanks behind a document. -/
def atEnd (cs : List Char) : Except Fault Unit :=
  match skipSpace cs with
  | [] => .ok ()
  | rest => .error (.within .trailingCharacters rest)

/-- Reads a document. -/
def document (cs : List Char) : Except Fault Value :=
  match value (stepsFor cs) nestingLimit cs with
  | .error fault => .error fault
  | .ok (v, rest) => (atEnd rest).map fun _ => v

/-- Reads a text as a JSON document. -/
def parse (text : String) : Except ReadError Value :=
  (document text.toList).mapError fun fault => fault.inText text.toList

end DesignTokens.Json
