import DesignTokens.Json.Fault
import DesignTokens.Json.Value
import DesignTokens.Text.Basic

/-!
Words, numbers and strings at the front of a JSON text.

A number with a fraction or an exponent is read as a 64-bit significand and a power of ten: digits
that no longer fit the significand only raise the exponent (in front of the point) or are dropped
(behind it). Its value is the significand times or divided by the power, each a rounded binary64
number, so it can differ from the nearest number in the last bit.
-/

namespace DesignTokens.Json

/-- Blank characters between the parts of a document. -/
def isSpace (c : Char) : Bool :=
  c = ' ' || c = '\n' || c = '\t' || c = '\r'

def skipSpace (cs : List Char) : List Char :=
  cs.dropWhile isSpace

/-- Reads the rest of a word such as `true`. -/
def word : List Char → List Char → Except Fault (List Char)
  | [], cs => .ok cs
  | _ :: _, [] => .error (.before .endOfValue [])
  | w :: ws, c :: cs => if w = c then word ws cs else .error (.within .expectedWord (c :: cs))

/-- Reads digits as long as the number stays at or below a limit; also counts them. -/
def digitsUpTo (limit : Nat) (sum count : Nat) : List Char → Nat × Nat × List Char
  | [] => (sum, count, [])
  | c :: cs =>
    match Text.digit? c with
    | none => (sum, count, c :: cs)
    | some d =>
      if sum * 10 + d ≤ limit then digitsUpTo limit (sum * 10 + d) (count + 1) cs
      else (sum, count, c :: cs)

/-- Skips and counts digits. -/
def skipDigits (count : Nat) : List Char → Nat × List Char
  | [] => (count, [])
  | c :: cs => if (Text.digit? c).isSome then skipDigits (count + 1) cs else (count, c :: cs)

/-- Whether the next character is a digit. -/
def digitNext : List Char → Bool
  | [] => false
  | c :: _ => (Text.digit? c).isSome

/-- The largest significand. -/
def significandLimit : Nat := Nat.pow 2 64 - 1

/-- The largest exponent that is read exactly. -/
def exponentLimit : Nat := Nat.pow 2 31 - 1

/-- A rounded power of ten. -/
def powerOfTen (e : Nat) : Magnitude :=
  (Magnitude.ofNat? (Nat.pow 10 e)).getD .zero

/-- A magnitude times `10 ^ e`, in steps of at most `10 ^ 308`; none where it is too large. The
first argument bounds the steps down. -/
def timesPowerOfTen : Nat → Magnitude → Int → Option Magnitude
  | steps, m, e =>
    if e.natAbs ≤ 308 then
      if 0 ≤ e then m.mul? (powerOfTen e.toNat) else m.div? (powerOfTen (-e).toNat)
    else if m.mantissa = 0 then some m
    else if 0 ≤ e then none
    else match steps with
      | 0 => some .zero
      | steps + 1 =>
        match m.div? (powerOfTen 308) with
        | none => none
        | some smaller => timesPowerOfTen steps smaller (e + 308)

/-- The number with a significand and a power of ten. Two steps down leave nothing of a significand
of 64 bits. -/
def realOf (negative : Bool) (significand : Nat) (e : Int) (rest : List Char) : Reading Number :=
  match (Magnitude.ofNat? significand).bind (timesPowerOfTen 2 · e) with
  | some m => .ok (.real ⟨negative, m⟩, rest)
  | none => .error (.before .numberOutOfRange rest)

/-- Reads what follows the `e` of an exponent. -/
def exponentPart (negative : Bool) (significand : Nat) (e : Int) (cs : List Char) :
    Reading Number :=
  let (down, cs) := match cs with
    | '+' :: rest => (false, rest)
    | '-' :: rest => (true, rest)
    | _ => (false, cs)
  match cs with
  | [] => .error (.before .endOfValue [])
  | c :: _ =>
    if (Text.digit? c).isNone then .error (.within .invalidNumber cs)
    else
      let (size, _, rest) := digitsUpTo exponentLimit 0 0 cs
      if digitNext rest then
        if significand ≠ 0 ∧ ¬ down then .error (.within .numberOutOfRange rest)
        else .ok (.real ⟨negative, .zero⟩, (skipDigits 0 rest).2)
      else realOf negative significand (if down then e - size else e + size) rest

/-- Reads what may follow the digits of a number that is not an integer. -/
def exponentOrEnd (negative : Bool) (significand : Nat) (e : Int) : List Char → Reading Number
  | 'e' :: rest => exponentPart negative significand e rest
  | 'E' :: rest => exponentPart negative significand e rest
  | rest => realOf negative significand e rest

/-- Reads what follows the point of a number. -/
def fractionPart (negative : Bool) (significand : Nat) (e : Int) (cs : List Char) :
    Reading Number :=
  let (significand, count, rest) := digitsUpTo significandLimit significand 0 cs
  if digitNext rest then
    exponentOrEnd negative significand (e - count) (skipDigits 0 rest).2
  else if count = 0 then
    .error (.within (if rest.isEmpty then .endOfValue else .invalidNumber) rest)
  else exponentOrEnd negative significand (e - count) rest

/-- An integer, which is a binary64 number if it is `-0` or does not fit 64 bits. -/
def integerOf (negative : Bool) (n : Nat) : Number :=
  if negative then
    if n = 0 ∨ Nat.pow 2 63 < n then .real ⟨true, (Magnitude.ofNat? n).getD .zero⟩
    else .integer (-n)
  else .integer n

/-- Reads the part of a number behind its first run of digits. -/
def numberTail (negative : Bool) (significand : Nat) (e : Int) : List Char → Reading Number
  | '.' :: rest => fractionPart negative significand e rest
  | rest => exponentOrEnd negative significand e rest

/-- Reads a number behind its sign. -/
def number (negative : Bool) (cs : List Char) : Reading Number :=
  match cs with
  | [] => .error (.before .endOfValue [])
  | c :: _ =>
    match Text.digit? c with
    | none => .error (.within .invalidNumber cs)
    | some first =>
      let (n, _, rest) :=
        if first = 0 then (0, 1, cs.drop 1) else digitsUpTo significandLimit 0 0 cs
      if digitNext rest then
        if first = 0 then .error (.within .invalidNumber rest)
        else
          let (more, rest) := skipDigits 0 rest
          numberTail negative n more rest
      else
        match rest with
        | '.' :: _ => numberTail negative n 0 rest
        | 'e' :: _ => numberTail negative n 0 rest
        | 'E' :: _ => numberTail negative n 0 rest
        | _ => .ok (integerOf negative n, rest)

/-- The character that an escape letter stands for. -/
def escapeLetter? : Char → Option Char
  | '"' => some '"'
  | '\\' => some '\\'
  | '/' => some '/'
  | 'b' => some '\x08'
  | 'f' => some '\x0c'
  | 'n' => some '\n'
  | 'r' => some '\r'
  | 't' => some '\t'
  | _ => none

/-- Reads the four hexadecimal digits of an escape. -/
def hexUnit (cs : List Char) : Reading Nat :=
  if byteLength cs < 4 then .error ⟨.endOfString, 0⟩
  else match cs with
    | a :: b :: c :: d :: rest =>
      match Text.hexDigit? a, Text.hexDigit? b, Text.hexDigit? c, Text.hexDigit? d with
      | some a, some b, some c, some d => .ok (((a * 16 + b) * 16 + c) * 16 + d, rest)
      | _, _, _, _ => .error ⟨.invalidEscape, byteLength cs - 4⟩
    | _ => .error ⟨.invalidEscape, byteLength cs - 4⟩

/-- Reads the second half of a surrogate pair behind its first half. -/
def pairTail (lead : Nat) : List Char → Reading Char
  | [] => .error (.before .endOfString [])
  | '\\' :: [] => .error (.before .endOfString [])
  | '\\' :: 'u' :: cs =>
    match hexUnit cs with
    | .error fault => .error fault
    | .ok (trail, rest) =>
      if 0xDC00 ≤ trail ∧ trail ≤ 0xDFFF then
        .ok (Char.ofNat ((lead - 0xD800) * 0x400 + (trail - 0xDC00) + 0x10000), rest)
      else .error (.before .loneSurrogate rest)
  | '\\' :: cs => .error (.within .unfinishedPair cs)
  | cs => .error (.within .unfinishedPair cs)

/-- Reads the character of a `\u` escape. -/
def unicodeEscape (cs : List Char) : Reading Char :=
  match hexUnit cs with
  | .error fault => .error fault
  | .ok (unit, rest) =>
    if 0xDC00 ≤ unit ∧ unit ≤ 0xDFFF then .error (.before .loneSurrogate rest)
    else if 0xD800 ≤ unit ∧ unit ≤ 0xDBFF then pairTail unit rest
    else .ok (Char.ofNat unit, rest)

/-- Reads what follows a backslash in a string. -/
def escape : List Char → Reading Char
  | [] => .error (.before .endOfString [])
  | 'u' :: cs => unicodeEscape cs
  | c :: cs =>
    match escapeLetter? c with
    | some d => .ok (d, cs)
    | none => .error (.within .invalidEscape (c :: cs))

theorem hexUnit_shorter {cs rest : List Char} {n : Nat} (h : hexUnit cs = .ok (n, rest)) :
    rest.length < cs.length := by
  rw [hexUnit.eq_def] at h
  split at h
  · simp at h
  · rcases cs with _ | ⟨a, _ | ⟨b, _ | ⟨c, _ | ⟨d, tail⟩⟩⟩⟩ <;> simp only [reduceCtorEq] at h
    split at h
    · simp only [Except.ok.injEq, Prod.mk.injEq] at h
      simp [← h.2]; omega
    · simp at h

theorem pairTail_shorter {lead : Nat} {cs rest : List Char} {c : Char}
    (h : pairTail lead cs = .ok (c, rest)) : rest.length < cs.length := by
  rw [pairTail.eq_def] at h
  split at h
  · simp at h
  · simp at h
  · split at h
    · simp at h
    · next hx =>
      have := hexUnit_shorter hx
      split at h
      · simp only [Except.ok.injEq, Prod.mk.injEq] at h
        simp [← h.2]; omega
      · simp at h
  · simp at h
  · simp at h

theorem escape_shorter {cs rest : List Char} {c : Char} (h : escape cs = .ok (c, rest)) :
    rest.length < cs.length := by
  rw [escape.eq_def] at h
  split at h
  · simp at h
  · rw [unicodeEscape] at h
    split at h
    · simp at h
    · next hx =>
      have := hexUnit_shorter hx
      split at h
      · simp at h
      · split at h
        · have := pairTail_shorter h
          simp; omega
        · simp only [Except.ok.injEq, Prod.mk.injEq] at h
          simp [← h.2]; omega
  · split at h
    · simp only [Except.ok.injEq, Prod.mk.injEq] at h
      simp [← h.2]
    · simp at h

/-- Reads the characters of a string and its closing quote. -/
def stringBody (cs : List Char) : Reading (List Char) :=
  match cs with
  | [] => .error (.before .endOfString [])
  | '"' :: rest => .ok ([], rest)
  | '\\' :: rest =>
    match _h : escape rest with
    | .error fault => .error fault
    | .ok (c, rest') =>
      match stringBody rest' with
      | .error fault => .error fault
      | .ok (body, tail) => .ok (c :: body, tail)
  | c :: rest =>
    if c.toNat < 0x20 then .error (.within .controlCharacter (c :: rest))
    else
      match stringBody rest with
      | .error fault => .error fault
      | .ok (body, tail) => .ok (c :: body, tail)
termination_by cs.length
decreasing_by
  · have := escape_shorter _h
    simp only [List.length_cons]; omega
  · simp

/-- Reads a string behind its opening quote. -/
def string (cs : List Char) : Reading String :=
  match stringBody cs with
  | .error fault => .error fault
  | .ok (body, rest) => .ok (String.ofList body, rest)

end DesignTokens.Json
