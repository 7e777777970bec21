import DesignTokens.Number.Binary64
import DesignTokens.Text.Basic
import DesignTokens.Toml.Value

/-!
Reading TOML 1.0. A text that breaks a rule is refused as a whole.
-/

namespace DesignTokens.Toml

/-- The result of reading something off the front of a text: the thing and what follows it. -/
abbrev Read (α : Type) := Option (α × List Char)

def isSpace (c : Char) : Bool :=
  c = ' ' || c = '\t'

def skipSpace (cs : List Char) : List Char :=
  cs.dropWhile isSpace

/-- Characters that may stand in comments and, their delimiters apart, in strings. -/
def isPlain (c : Char) : Bool :=
  c = '\t' || (0x20 ≤ c.toNat && c.toNat ≠ 0x7F)

/-- Skips the rest of a comment and the line break behind it. -/
def comment : List Char → Option (List Char)
  | [] => some []
  | '\n' :: cs => some cs
  | '\r' :: '\n' :: cs => some cs
  | c :: cs => if isPlain c then comment cs else none

/-- Skips the end of a line: spaces, a comment and the line break. -/
def lineEnd (cs : List Char) : Option (List Char) :=
  match skipSpace cs with
  | [] => some []
  | '\n' :: rest => some rest
  | '\r' :: '\n' :: rest => some rest
  | '#' :: rest => comment rest
  | _ => none

/-- Skips spaces, line breaks and comments; the flag tells whether a comment is open. -/
def skipTrivia : Bool → List Char → Option (List Char)
  | _, [] => some []
  | _, '\n' :: cs => skipTrivia false cs
  | _, '\r' :: '\n' :: cs => skipTrivia false cs
  | true, c :: cs => if isPlain c then skipTrivia true cs else none
  | false, c :: cs =>
    if isSpace c then skipTrivia false cs
    else if c = '#' then skipTrivia true cs
    else some (c :: cs)

/-- The number that hexadecimal digits write. -/
def hexValue (acc : Nat) : List Char → Option Nat
  | [] => some acc
  | c :: cs => (Text.hexDigit? c).bind fun d => hexValue (acc * 16 + d) cs

/-- The character with a number. -/
def charOf? (n : Nat) : Option Char :=
  if n < 0xD800 ∨ (0xDFFF < n ∧ n < 0x110000) then some (Char.ofNat n) else none

/-- The character that an escape letter stands for. -/
def escapeLetter? : Char → Option Char
  | '"' => some '"'
  | '\\' => some '\\'
  | 'b' => some '\x08'
  | 't' => some '\t'
  | 'n' => some '\n'
  | 'f' => some '\x0c'
  | 'r' => some '\r'
  | _ => none

/-- Reads what follows the backslash of an escape. -/
def escape : List Char → Read Char
  | 'u' :: cs =>
    if cs.length < 4 then none
    else ((hexValue 0 (cs.take 4)).bind charOf?).map fun c => (c, cs.drop 4)
  | 'U' :: cs =>
    if cs.length < 8 then none
    else ((hexValue 0 (cs.take 8)).bind charOf?).map fun c => (c, cs.drop 8)
  | c :: cs => (escapeLetter? c).map fun d => (d, cs)
  | [] => none

/-- Puts a character in front of what was read. -/
def consRead (c : Char) (r : Read (List Char)) : Read (List Char) :=
  r.map fun (body, rest) => (c :: body, rest)

/-- Reads a string in double quotes, behind the opening one. The first argument bounds the steps. -/
def basicBody : Nat → List Char → Read (List Char)
  | 0, _ => none
  | _ + 1, '"' :: cs => some ([], cs)
  | steps + 1, '\\' :: cs =>
    (escape cs).bind fun (c, rest) => consRead c (basicBody steps rest)
  | steps + 1, c :: cs => if isPlain c then consRead c (basicBody steps cs) else none
  | _ + 1, [] => none

/-- Reads a string in single quotes, behind the opening one. -/
def literalBody : List Char → Read (List Char)
  | [] => none
  | '\'' :: cs => some ([], cs)
  | c :: cs => if isPlain c then consRead c (literalBody cs) else none

/-- Whether only spaces stand in front of a line break. -/
def breaksLine (cs : List Char) : Bool :=
  match skipSpace cs with
  | '\n' :: _ => true
  | '\r' :: '\n' :: _ => true
  | _ => false

/-- Skips spaces and line breaks. -/
def skipBreaks : List Char → List Char
  | '\r' :: '\n' :: cs => skipBreaks cs
  | '\n' :: cs => skipBreaks cs
  | ' ' :: cs => skipBreaks cs
  | '\t' :: cs => skipBreaks cs
  | cs => cs

/-- Reads a string in three double quotes, behind the opening ones. One or two quotes may stand in
front of the closing ones; a backslash at the end of a line takes out the line break and the blanks
behind it. The first argument bounds the steps. -/
def longBasicBody : Nat → List Char → Read (List Char)
  | 0, _ => none
  | _ + 1, '"' :: '"' :: '"' :: '"' :: '"' :: cs => some (['"', '"'], cs)
  | _ + 1, '"' :: '"' :: '"' :: '"' :: cs => some (['"'], cs)
  | _ + 1, '"' :: '"' :: '"' :: cs => some ([], cs)
  | steps + 1, '\\' :: cs =>
    if breaksLine cs then longBasicBody steps (skipBreaks cs)
    else (escape cs).bind fun (c, rest) => consRead c (longBasicBody steps rest)
  | steps + 1, '\r' :: '\n' :: cs => consRead '\n' (longBasicBody steps cs)
  | steps + 1, c :: cs =>
    if c = '\n' || isPlain c then consRead c (longBasicBody steps cs) else none
  | _ + 1, [] => none

/-- Reads a string in three single quotes, behind the opening ones. -/
def longLiteralBody : List Char → Read (List Char)
  | '\'' :: '\'' :: '\'' :: '\'' :: '\'' :: cs => some (['\'', '\''], cs)
  | '\'' :: '\'' :: '\'' :: '\'' :: cs => some (['\''], cs)
  | '\'' :: '\'' :: '\'' :: cs => some ([], cs)
  | '\r' :: '\n' :: cs => consRead '\n' (longLiteralBody cs)
  | c :: cs => if c = '\n' || isPlain c then consRead c (longLiteralBody cs) else none
  | [] => none

/-- A text without the line break at its start. -/
def dropBreak : List Char → List Char
  | '\n' :: cs => cs
  | '\r' :: '\n' :: cs => cs
  | cs => cs

/-- Reads a string of any kind. -/
def string (cs : List Char) : Read String :=
  let body := match cs with
    | '"' :: '"' :: '"' :: rest => longBasicBody (cs.length + 1) (dropBreak rest)
    | '"' :: rest => basicBody (cs.length + 1) rest
    | '\'' :: '\'' :: '\'' :: rest => longLiteralBody (dropBreak rest)
    | '\'' :: rest => literalBody rest
    | _ => none
  body.map fun (text, rest) => (String.ofList text, rest)

/-- Characters of keys without quotes. -/
def isKeyChar (c : Char) : Bool :=
  ('a' ≤ c && c ≤ 'z') || ('A' ≤ c && c ≤ 'Z') || ('0' ≤ c && c ≤ '9') || c = '-' || c = '_'

/-- Reads one key between dots. -/
def simpleKey (cs : List Char) : Read String :=
  match cs with
  | '"' :: rest =>
    (basicBody (cs.length + 1) rest).map fun (text, rest) => (String.ofList text, rest)
  | '\'' :: rest => (literalBody rest).map fun (text, rest) => (String.ofList text, rest)
  | _ =>
    match cs.takeWhile isKeyChar with
    | [] => none
    | key => some (String.ofList key, cs.dropWhile isKeyChar)

/-- Reads a dotted key with the spaces around it: the keys in front of the last one, and the last
one. The first argument bounds the keys. -/
def dottedKey : Nat → List Char → Read (List String × String)
  | 0, _ => none
  | steps + 1, cs =>
    (simpleKey (skipSpace cs)).bind fun (key, rest) =>
      match skipSpace rest with
      | '.' :: rest =>
        (dottedKey steps rest).map fun ((path, last), rest) => ((key :: path, last), rest)
      | rest => some (([], key), rest)

/-- The largest number of keys in a dotted key, and of values around a value. -/
def depthLimit : Nat := 79

/-- Digits with single underscores between them. -/
def groupedDigits? (isDigit : Char → Bool) : List Char → Option (List Char)
  | [] => none
  | [c] => if isDigit c then some [c] else none
  | c :: '_' :: cs => if isDigit c then (groupedDigits? isDigit cs).map (c :: ·) else none
  | c :: cs => if isDigit c then (groupedDigits? isDigit cs).map (c :: ·) else none

def isDecimal (c : Char) : Bool :=
  '0' ≤ c && c ≤ '9'

/-- The number that digits write in a base. -/
def valueOf (base : Nat) (digits : List Char) : Nat :=
  digits.foldl (fun n c => n * base + (Text.hexDigit? c).getD 0) 0

/-- Decimal digits that do not start with a zero too many. -/
def wholeDigits? (cs : List Char) : Option (List Char) :=
  (groupedDigits? isDecimal cs).bind fun digits =>
    match digits with
    | '0' :: _ :: _ => none
    | digits => some digits

/-- A number without its sign, and whether the sign was a minus. -/
def unsigned (cs : List Char) : Bool × List Char :=
  match cs with
  | '-' :: rest => (true, rest)
  | '+' :: rest => (false, rest)
  | rest => (false, rest)

/-- An integer that fits 64 bits. -/
def fit64? (n : Int) : Option Value :=
  if -Int.ofNat (Nat.pow 2 63) ≤ n ∧ n < Int.ofNat (Nat.pow 2 63) then some (.integer n) else none

/-- A word as an integer. -/
def integer? (word : List Char) : Option Value :=
  let based (base : Nat) (isDigit : Char → Bool) (digits : List Char) : Option Value :=
    (groupedDigits? isDigit digits).bind fun digits => fit64? (valueOf base digits)
  match word with
  | '0' :: 'x' :: digits => based 16 (fun c => (Text.hexDigit? c).isSome) digits
  | '0' :: 'o' :: digits => based 8 (fun c => '0' ≤ c && c ≤ '7') digits
  | '0' :: 'b' :: digits => based 2 (fun c => c = '0' || c = '1') digits
  | _ =>
    let (negative, digits) := unsigned word
    (wholeDigits? digits).bind fun digits =>
      let n : Int := valueOf 10 digits
      fit64? (if negative then -n else n)

/-- Whether digits with a point behind the first `whole` of them, times `10 ^ e`, are too large for
a finite binary64 number. -/
def isHuge (digits : List Char) (whole : Nat) (e : Int) : Bool :=
  let significant := digits.dropWhile (· = '0')
  let lead : Int := whole - (digits.length - significant.length : Nat) + e
  if significant.isEmpty || lead < 309 then false
  else if 309 < lead then true
  else (Magnitude.nearest? (valueOf 10 significant * Nat.pow 10 309)
    (Nat.pow 10 significant.length)).isNone

/-- The digits of a float's whole part and of its fraction, and its exponent. A float has a fraction
or an exponent. -/
def floatParts? (cs : List Char) : Option (List Char × List Char × Int) :=
  let isMark (c : Char) : Bool := c = 'e' || c = 'E'
  let mantissa := cs.takeWhile fun c => !isMark c
  let whole := mantissa.takeWhile (· ≠ '.')
  let fraction? : Option (List Char) := match mantissa.dropWhile (· ≠ '.') with
    | [] => some []
    | _ :: digits => groupedDigits? isDecimal digits
  let exponent? : Option Int := match cs.dropWhile fun c => !isMark c with
    | [] => some 0
    | _ :: digits =>
      let (down, digits) := unsigned digits
      (groupedDigits? isDecimal digits).map fun digits =>
        let e : Int := valueOf 10 digits
        if down then -e else e
  if cs = whole then none
  else match wholeDigits? whole, fraction?, exponent? with
    | some whole, some fraction, some e => some (whole, fraction, e)
    | _, _, _ => none

/-- A word as a float. -/
def float? (word : List Char) : Option Value :=
  let (negative, body) := unsigned word
  if body = ['i', 'n', 'f'] ∨ body = ['n', 'a', 'n'] then some (.float (String.ofList word))
  else match floatParts? body with
    | none => none
    | some (whole, fraction, e) =>
      if !negative && isHuge (whole ++ fraction) whole.length e then none
      else some (.float (String.ofList word))

/-- A number of exactly two digits up to a limit. -/
def twoDigits? (low high : Nat) : List Char → Option Nat
  | [a, b] =>
    match Text.digit? a, Text.digit? b with
    | some a, some b => if low ≤ 10 * a + b ∧ 10 * a + b ≤ high then some (10 * a + b) else none
    | _, _ => none
  | _ => none

def isLeapYear (year : Nat) : Bool :=
  year % 4 = 0 && (year % 100 ≠ 0 || year % 400 = 0)

def daysOf (year month : Nat) : Nat :=
  if month = 2 then (if isLeapYear year then 29 else 28)
  else if month ∈ [4, 6, 9, 11] then 30
  else 31

/-- Whether a word is a date: year, month and day. -/
def isDate : List Char → Bool
  | [y1, y2, y3, y4, '-', m1, m2, '-', d1, d2] =>
    [y1, y2, y3, y4].all isDecimal &&
      match twoDigits? 1 12 [m1, m2] with
      | some month => (twoDigits? 1 (daysOf (valueOf 10 [y1, y2, y3, y4]) month) [d1, d2]).isSome
      | none => false
  | _ => false

/-- Whether a word is empty or a distance from universal time. -/
def isOffset : List Char → Bool
  | [] => true
  | ['Z'] => true
  | ['z'] => true
  | [sign, h1, h2, ':', m1, m2] =>
    (sign = '+' || sign = '-') && (twoDigits? 0 23 [h1, h2]).isSome &&
      (twoDigits? 0 59 [m1, m2]).isSome
  | _ => false

/-- What follows the time at the start of a word: hours, minutes, seconds and perhaps a fraction. -/
def afterTime? : List Char → Option (List Char)
  | h1 :: h2 :: ':' :: m1 :: m2 :: ':' :: s1 :: s2 :: rest =>
    if (twoDigits? 0 23 [h1, h2]).isSome && (twoDigits? 0 59 [m1, m2]).isSome &&
        (twoDigits? 0 60 [s1, s2]).isSome then
      match rest with
      | '.' :: fraction =>
        if (fraction.takeWhile isDecimal).isEmpty then none
        else some (fraction.dropWhile isDecimal)
      | rest => some rest
    else none
  | _ => none

/-- Whether a word is a time with or without an offset. -/
def isTimeWithOffset (word : List Char) : Bool :=
  match afterTime? word with
  | some rest => isOffset rest
  | none => false

/-- Whether a word is a date, a time, or both with a `T` between them. -/
def isDateTime (word : List Char) : Bool :=
  isDate word || afterTime? word = some [] ||
    (isDate (word.take 10) &&
      match word.drop 10 with
      | 'T' :: time => isTimeWithOffset time
      | 't' :: time => isTimeWithOffset time
      | _ => false)

/-- Characters of numbers, dates and truth values. -/
def isWordChar (c : Char) : Bool :=
  isKeyChar c || c = '+' || c = '.' || c = ':'

/-- Reads a value that is a single word; a date may be followed by a space and a time. -/
def word (cs : List Char) : Read Value :=
  let w := cs.takeWhile isWordChar
  let rest := cs.dropWhile isWordChar
  if w = "true".toList then some (.boolean true, rest)
  else if w = "false".toList then some (.boolean false, rest)
  else if isDateTime w then
    match isDate w, rest with
    | true, ' ' :: more =>
      let time := more.takeWhile isWordChar
      if isTimeWithOffset time then
        some (.dateTime (String.ofList (w ++ ' ' :: time)), more.dropWhile isWordChar)
      else some (.dateTime (String.ofList w), rest)
    | _, _ => some (.dateTime (String.ofList w), rest)
  else ((integer? w).or (float? w)).map fun v => (v, rest)

mutual

/-- Reads a value. The first argument bounds the steps, the second one how many arrays and tables
may still be opened. -/
def value : Nat → Nat → List Char → Read Value
  | 0, _, _ => none
  | steps + 1, depth, cs =>
    match cs with
    | '"' :: _ => (string cs).map fun (text, rest) => (.string text, rest)
    | '\'' :: _ => (string cs).map fun (text, rest) => (.string text, rest)
    | '[' :: rest =>
      if depth = 0 then none
      else (items steps (depth - 1) [] rest).map fun (items, rest) => (.array items, rest)
    | '\x7b' :: rest =>
      if depth = 0 then none
      else match skipSpace rest with
        | '\x7d' :: rest => some (.inline true [], rest)
        | rest =>
          (pairs steps (depth - 1) [] rest).map fun (members, rest) => (.inline true members, rest)
    | _ => word cs

/-- Reads the items of an array up to the closing bracket. A comma may follow the last one. -/
def items : Nat → Nat → List Value → List Char → Read (List Value)
  | 0, _, _, _ => none
  | steps + 1, depth, done, cs =>
    match skipTrivia false cs with
    | none => none
    | some (']' :: rest) => some (done, rest)
    | some rest =>
      (value steps depth rest).bind fun (v, rest) =>
        match skipTrivia false rest with
        | some (']' :: rest) => some (done ++ [v], rest)
        | some (',' :: rest) => items steps depth (done ++ [v]) rest
        | _ => none

/-- Reads the members of a table in braces up to the closing one. -/
def pairs : Nat → Nat → Members → List Char → Read Members
  | 0, _, _, _ => none
  | steps + 1, depth, done, cs =>
    (dottedKey depthLimit cs).bind fun ((path, key), rest) =>
      match rest with
      | '=' :: rest =>
        (value steps depth (skipSpace rest)).bind fun (v, rest) =>
          (Inline.assign key v path done).bind fun done =>
            match skipSpace rest with
            | '\x7d' :: rest => some (done, rest)
            | ',' :: rest => pairs steps depth done rest
            | _ => none
      | _ => none

end

/-- Reads a header behind its opening bracket, or behind two of them. -/
def header (cs : List Char) : Read Statement :=
  match cs with
  | '[' :: rest =>
    (dottedKey depthLimit rest).bind fun ((path, key), rest) =>
      match rest with
      | ']' :: ']' :: rest => some (.repeatedHeader path key, rest)
      | _ => none
  | rest =>
    (dottedKey depthLimit rest).bind fun ((path, key), rest) =>
      match rest with
      | ']' :: rest => some (.header path key, rest)
      | _ => none

/-- Reads a key and its value. -/
def assignment (cs : List Char) : Read Statement :=
  (dottedKey depthLimit cs).bind fun ((path, key), rest) =>
    match rest with
    | '=' :: rest =>
      let rest := skipSpace rest
      (value (2 * rest.length + 2) depthLimit rest).map fun (v, rest) => (.assign path key v, rest)
    | _ => none

/-- Reads the statements of a document, at most one per line. The first argument bounds the
lines. -/
def statements : Nat → List Char → Option (List Statement)
  | 0, _ => none
  | lines + 1, cs =>
    match skipSpace cs with
    | [] => some []
    | '\n' :: rest => statements lines rest
    | '\r' :: '\n' :: rest => statements lines rest
    | '#' :: rest => (comment rest).bind (statements lines)
    | '[' :: rest =>
      (header rest).bind fun (statement, rest) =>
        (lineEnd rest).bind fun rest => (statements lines rest).map (statement :: ·)
    | rest =>
      (assignment rest).bind fun (statement, rest) =>
        (lineEnd rest).bind fun rest => (statements lines rest).map (statement :: ·)

/-- A text without the mark of its byte order. -/
def dropMark : List Char → List Char
  | '\uFEFF' :: cs => cs
  | cs => cs

/-- Reads a text as a TOML document. -/
def parse (text : String) : Option Members :=
  let cs := dropMark text.toList
  (statements (cs.length + 1) cs).bind assemble

end DesignTokens.Toml
