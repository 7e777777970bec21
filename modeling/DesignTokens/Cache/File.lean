import DesignTokens.Cache.Store
import DesignTokens.Json.Reader
import DesignTokens.Text.Shown

/-!
Reading cache files. The document maps layer names to entries; an entry is an object with the fields
`timestamp` and `files`, in any order and among others that are skipped, or a list of the two.

Types are checked while reading: of two faults in a file the one further up counts.
-/

namespace DesignTokens.CacheFile

open Json

/-- What stands where something else was expected. -/
def kindOf : Json.Value → String
  | .null => "null"
  | .boolean b => "boolean `" ++ boolText b ++ "`"
  | .number (.integer n) => "integer `" ++ (Number.integer n).toText ++ "`"
  | .number (.real x) => "floating point `" ++ Number.realText x ++ "`"
  | .string s => "string " ++ Text.shown s
  | .array _ => "sequence"
  | .object _ => "map"

/-- The fault of a value of another kind than expected. A list or an object is not read. -/
def mismatch (expected : String) (cs : List Char) : Fault :=
  match cs with
  | '[' :: _ => .before (.wrongType (kindOf (.array [])) expected) cs
  | '\x7b' :: _ => .before (.wrongType (kindOf (.object [])) expected) cs
  | _ =>
    match Json.value (stepsFor cs) 0 cs with
    | .ok (v, rest) => .before (.wrongType (kindOf v) expected) rest
    | .error fault => fault

/-- Reads a timestamp: an integer of 64 bits without a sign. -/
def timestamp (cs : List Char) : Reading Nat :=
  let read (negative : Bool) (digits : List Char) : Reading Nat :=
    match Json.number negative digits with
    | .error fault => .error fault
    | .ok (.integer n, rest) =>
      if 0 ≤ n then .ok (n.toNat, rest)
      else .error (.before (.wrongValue (kindOf (.number (.integer n))) "u64") rest)
    | .ok (.real x, rest) =>
      .error (.before (.wrongType (kindOf (.number (.real x))) "u64") rest)
  match skipSpace cs with
  | [] => .error (.before .endOfValue [])
  | '-' :: rest => read true rest
  | c :: rest =>
    if (Text.digit? c).isSome then read false (c :: rest)
    else .error (mismatch "u64" (c :: rest))

/-- Reads a string. -/
def text (cs : List Char) : Reading String :=
  match skipSpace cs with
  | [] => .error (.before .endOfValue [])
  | '"' :: rest => Json.string rest
  | rest => .error (mismatch "a string" rest)

/-- Reads a colon. -/
def colon (cs : List Char) : Except Fault (List Char) :=
  match skipSpace cs with
  | [] => .error (.before .endOfObject [])
  | ':' :: rest => .ok rest
  | rest => .error (.within .expectedColon rest)

/-- Looks for the next member of an object: its key and what follows the key, or none at the closing
brace. The first member has no comma in front. -/
def nextKey (first : Bool) (cs : List Char) : Except Fault (Option String × List Char) :=
  match skipSpace cs with
  | [] => .error (.before .endOfObject [])
  | '\x7d' :: rest => .ok (none, '\x7d' :: rest)
  | rest =>
    if first then
      match rest with
      | '"' :: rest => (Json.string rest).map fun r => (some r.1, r.2)
      | rest => .error (.within .keyNotString rest)
    else match rest with
      | ',' :: rest =>
        match skipSpace rest with
        | [] => .error (.before .endOfValue [])
        | '"' :: rest => (Json.string rest).map fun r => (some r.1, r.2)
        | '\x7d' :: rest => .error (.within .trailingComma ('\x7d' :: rest))
        | rest => .error (.within .keyNotString rest)
      | rest => .error (.within .expectedObjectEnd rest)

/-- Looks for the next item of a list: what it starts with, or the closing bracket. The first item
has no comma in front. -/
def nextItem (first : Bool) (cs : List Char) : Except Fault (Bool × List Char) :=
  match skipSpace cs with
  | [] => .error (.before .endOfList [])
  | ']' :: rest => .ok (false, ']' :: rest)
  | rest =>
    if first then .ok (true, rest)
    else match rest with
      | ',' :: rest =>
        match skipSpace rest with
        | [] => .error (.before .endOfValue [])
        | ']' :: rest => .error (.within .trailingComma (']' :: rest))
        | rest => .ok (true, rest)
      | rest => .error (.within .expectedListEnd rest)

/-- Reads the members of an object from string to some kind of value, up to the closing brace; of
several members with one key the last one counts. The first argument bounds the members. -/
def mapMembers {α : Type} (read : List Char → Reading α) :
    Nat → Bool → List (String × α) → List Char → Except Fault (List (String × α) × List Char)
  | 0, _, _, _ => .error (.before .endOfObject [])
  | steps + 1, first, done, cs => do
    match ← nextKey first cs with
    | (none, rest) => return (done, rest.drop 1)
    | (some key, rest) =>
      let (v, rest) ← read (← colon rest)
      mapMembers read steps false (Keyed.putSorted key v done) rest

/-- Reads an object from string to some kind of value. -/
def mapOf {α : Type} (read : List Char → Reading α) (cs : List Char) :
    Reading (List (String × α)) :=
  match skipSpace cs with
  | [] => .error (.before .endOfValue [])
  | '\x7b' :: rest => mapMembers read (rest.length + 1) true [] rest
  | rest => .error (mismatch "a map" rest)

/-- Skips the characters of a string and its closing quote. -/
def skipString : Nat → List Char → Except Fault (List Char)
  | 0, _ => .error (.before .endOfString [])
  | _ + 1, [] => .error (.before .endOfString [])
  | _ + 1, '"' :: rest => .ok rest
  | _ + 1, '\\' :: [] => .error (.before .endOfString [])
  | steps + 1, '\\' :: 'u' :: rest =>
    match hexUnit rest with
    | .error fault => .error fault
    | .ok (_, rest) => skipString steps rest
  | steps + 1, '\\' :: c :: rest =>
    match escapeLetter? c with
    | some _ => skipString steps rest
    | none => .error (.within .invalidEscape (c :: rest))
  | steps + 1, c :: rest =>
    if c.toNat < 0x20 then .error (.before .controlCharacter (c :: rest)) else skipString steps rest

/-- Skips digits, of which at least one has to be there. -/
def skipSomeDigits (cs : List Char) : Except Fault (List Char) :=
  if digitNext cs then .ok (skipDigits 0 cs).2 else .error (.within .invalidNumber cs)

/-- Skips the exponent of a number, if there is one. -/
def skipExponent (cs : List Char) : Except Fault (List Char) :=
  let behindSign (rest : List Char) : List Char := match rest with
    | '+' :: rest => rest
    | '-' :: rest => rest
    | rest => rest
  match cs with
  | 'e' :: rest => skipSomeDigits (behindSign rest)
  | 'E' :: rest => skipSomeDigits (behindSign rest)
  | rest => .ok rest

/-- Skips a number behind its sign. -/
def skipNumber (cs : List Char) : Except Fault (List Char) := do
  let rest ← match cs with
    | '0' :: rest =>
      if digitNext rest then throw (Fault.within .invalidNumber rest) else pure rest
    | cs => skipSomeDigits cs
  match rest with
  | '.' :: rest => skipExponent (← skipSomeDigits rest)
  | rest => skipExponent rest

/-- Skips one value of any kind, or goes on behind one. The list holds the brackets that are open,
the innermost first. Each step takes at least one character, and the first argument bounds them. -/
def skipFrom : Nat → List Char → Bool → List Char → Except Fault (List Char)
  | 0, _, _, _ => .error (.before .endOfValue [])
  | steps + 1, opened, false, cs => do
    -- a value is due
    match skipSpace cs with
    | [] => throw (.before .endOfValue [])
    | 'n' :: rest => skipFrom steps opened true (← word ['u', 'l', 'l'] rest)
    | 't' :: rest => skipFrom steps opened true (← word ['r', 'u', 'e'] rest)
    | 'f' :: rest => skipFrom steps opened true (← word ['a', 'l', 's', 'e'] rest)
    | '-' :: rest => skipFrom steps opened true (← skipNumber rest)
    | '"' :: rest => skipFrom steps opened true (← skipString (rest.length + 1) rest)
    | '[' :: rest =>
      match skipSpace rest with
      | [] => throw (.before .endOfList [])
      | ']' :: rest => skipFrom steps opened true rest
      | rest => skipFrom steps ('[' :: opened) false rest
    | '\x7b' :: rest =>
      match skipSpace rest with
      | [] => throw (.before .endOfObject [])
      | '\x7d' :: rest => skipFrom steps opened true rest
      | '"' :: rest =>
        skipFrom steps ('\x7b' :: opened) false (← colon (← skipString (rest.length + 1) rest))
      | rest => throw (.within .keyNotString rest)
    | c :: rest =>
      if (Text.digit? c).isSome then skipFrom steps opened true (← skipNumber (c :: rest))
      else throw (.within .expectedValue (c :: rest))
  | _ + 1, [], true, cs => .ok cs
  | steps + 1, bracket :: opened, true, cs => do
    -- a value was read inside a bracket
    match skipSpace cs with
    | [] => throw (.before (if bracket = '[' then .endOfList else .endOfObject) [])
    | ',' :: rest =>
      if bracket = '[' then skipFrom steps (bracket :: opened) false rest
      else match skipSpace rest with
        | [] => throw (.before .endOfObject [])
        | '"' :: rest =>
          skipFrom steps (bracket :: opened) false (← colon (← skipString (rest.length + 1) rest))
        | rest => throw (.within .keyNotString rest)
    | c :: rest =>
      if c = (if bracket = '[' then ']' else '\x7d') then skipFrom steps opened true rest
      else
        throw (.within (if bracket = '[' then .expectedListEnd else .expectedObjectEnd) (c :: rest))

/-- Skips one value of any kind. -/
def skipValue (cs : List Char) : Except Fault (List Char) :=
  skipFrom (2 * cs.length + 2) [] false cs

/-- The hashes of an entry. -/
def hashes : List Char → Reading Fingerprint :=
  mapOf text

/-- Where a fault of an object's fields as a whole shows: behind the object if that is closed here,
else in front of what stands in its place. -/
def afterObject (cs : List Char) : List Char :=
  match skipSpace cs with
  | '\x7d' :: rest => rest
  | rest => rest

/-- Where a fault of a list as a whole shows: behind the list if that is closed here. -/
def afterList (cs : List Char) : List Char :=
  match skipSpace cs with
  | ']' :: rest => rest
  | rest => rest

/-- The fields of an entry as far as they were read. -/
structure Fields where
  timestamp : Option Nat
  hashes : Option Fingerprint
deriving DecidableEq, Repr

/-- The entry made of its fields, or the first field that is missing. -/
def Fields.complete (f : Fields) : Except Cause (Nat × Fingerprint) :=
  match f.timestamp, f.hashes with
  | some t, some h => .ok (t, h)
  | none, _ => .error (.missingField "timestamp")
  | some _, none => .error (.missingField "files")

/-- Reads the fields of an entry up to the closing brace. The first argument bounds the fields. -/
def fieldsOf :
    Nat → Bool → Fields → List Char → Except Fault ((Nat × Fingerprint) × List Char)
  | 0, _, _, _ => .error (.before .endOfObject [])
  | steps + 1, first, done, cs => do
    match ← nextKey first cs with
    | (none, rest) =>
      match done.complete with
      | .ok entry => return (entry, rest.drop 1)
      | .error cause => throw (.before cause (afterObject rest))
    | (some "timestamp", rest) =>
      if done.timestamp.isSome then
        throw (.before (.duplicateField "timestamp") (afterObject rest))
      let (t, rest) ← timestamp (← colon rest)
      fieldsOf steps false { done with timestamp := some t } rest
    | (some "files", rest) =>
      if done.hashes.isSome then
        throw (.before (.duplicateField "files") (afterObject rest))
      let (h, rest) ← hashes (← colon rest)
      fieldsOf steps false { done with hashes := some h } rest
    | (some _, rest) =>
      fieldsOf steps false done (← skipValue (← colon rest))

/-- What an entry is called in faults. -/
def entryKind : String := "struct PersistedEntry"

/-- Refuses a list that goes on behind its last item. -/
def listEnd (cs : List Char) : Except Fault (List Char) :=
  match skipSpace cs with
  | [] => .error (.before .endOfList [])
  | ']' :: rest => .ok rest
  | ',' :: rest =>
    match skipSpace rest with
    | ']' :: rest => .error (.within .trailingComma (']' :: rest))
    | rest => .error (.within .trailingCharacters rest)
  | rest => .error (.within .trailingCharacters rest)

/-- Reads an entry that is a list of a timestamp and hashes, behind its opening bracket. -/
def listedEntry (cs : List Char) : Except Fault ((Nat × Fingerprint) × List Char) := do
  let tooShort (length : Nat) (rest : List Char) : Fault :=
    .before (.wrongLength length (entryKind ++ " with 2 elements")) (afterList rest)
  match ← nextItem true cs with
  | (false, rest) => throw (tooShort 0 rest)
  | (true, rest) =>
    let (t, rest) ← timestamp rest
    match ← nextItem false rest with
    | (false, rest) => throw (tooShort 1 rest)
    | (true, rest) =>
      let (h, rest) ← hashes rest
      return ((t, h), ← listEnd rest)

/-- Reads an entry. -/
def entry (cs : List Char) : Reading (Nat × Fingerprint) :=
  match skipSpace cs with
  | [] => .error (.before .endOfValue [])
  | '\x7b' :: rest => fieldsOf (rest.length + 1) true ⟨none, none⟩ rest
  | '[' :: rest => listedEntry rest
  | rest => .error (mismatch entryKind rest)

/-- Reads the entries of a cache file. -/
def entries (cs : List Char) : Except Fault (List (String × CacheEntry)) := do
  let (found, rest) ← mapOf entry cs
  atEnd rest
  return found.map fun e => (e.1, ⟨e.1, e.2.1, e.2.2⟩)

/-- Reads a text as the contents of a cache file. -/
def parse (text : String) : Except ReadError (List (String × CacheEntry)) :=
  (entries text.toList).mapError fun fault => fault.inText text.toList

end CacheFile

namespace CacheStore

/-- The store kept in a file; a missing file is an empty store. -/
def load? (w : Place) (p : Path) : Except CacheError CacheStore :=
  if w.pathExists p then
    match w.readText p with
    | .error e => .error (.file p e)
    | .ok text =>
      match CacheFile.parse text with
      | .error e => .error (.json p e)
      | .ok entries => .ok ⟨some p, entries⟩
  else .ok (emptyAt p)

/-- The store kept in a file; an empty one if the file cannot be used. -/
def load (w : Place) (p : Path) : CacheStore :=
  match load? w p with
  | .ok store => store
  | .error _ => emptyAt p

/-- The notices of loading a store. -/
def loadNotices (w : Place) (p : Path) : List Notice :=
  match load? w p with
  | .ok _ => []
  | .error e => [.cacheIgnored e.message]

end CacheStore

end DesignTokens
