/-!
Operations on the characters of a text: finding, cutting and joining.
-/

namespace DesignTokens.Text

/-- What is left of a text after a given start, if it begins that way. -/
def stripStart : List Char → List Char → Option (List Char)
  | [], cs => some cs
  | _ :: _, [] => none
  | p :: ps, c :: cs => if p = c then stripStart ps cs else none

theorem stripStart_append (ps cs : List Char) : stripStart ps (ps ++ cs) = some cs := by
  induction ps with
  | nil => rfl
  | cons p ps ih => simp [stripStart, ih]

theorem eq_append_of_stripStart {ps cs rest : List Char} (h : stripStart ps cs = some rest) :
    cs = ps ++ rest := by
  induction ps generalizing cs with
  | nil => simpa [stripStart] using h
  | cons p ps ih =>
    cases cs with
    | nil => simp [stripStart] at h
    | cons c cs =>
      by_cases hc : p = c
      · simp [stripStart, hc] at h
        simp [hc, ih h]
      · simp [stripStart, hc] at h

/-- What is left of a text before a given end, if it ends that way. -/
def stripEnd (ending cs : List Char) : Option (List Char) :=
  (stripStart ending.reverse cs.reverse).map List.reverse

theorem stripEnd_append (cs ending : List Char) : stripEnd ending (cs ++ ending) = some cs := by
  simp [stripEnd, stripStart_append]

theorem eq_append_of_stripEnd {ending cs rest : List Char} (h : stripEnd ending cs = some rest) :
    cs = rest ++ ending := by
  obtain ⟨r, hr, rfl⟩ := Option.map_eq_some_iff.1 h
  have := congrArg List.reverse (eq_append_of_stripStart hr)
  simpa using this

/-- Whether `word` stands somewhere in a text. -/
def occurs (word : List Char) : List Char → Bool
  | [] => (stripStart word []).isSome
  | c :: cs => (stripStart word (c :: cs)).isSome || occurs word cs

/-- The parts of a text between occurrences of a character; never empty. -/
def splitAt (mark : Char) : List Char → List (List Char)
  | [] => [[]]
  | c :: cs =>
    if c = mark then [] :: splitAt mark cs
    else match splitAt mark cs with
      | [] => [[c]]
      | part :: parts => (c :: part) :: parts

theorem splitAt_ne_nil (mark : Char) (cs : List Char) : splitAt mark cs ≠ [] := by
  induction cs with
  | nil => simp [splitAt]
  | cons c cs ih =>
    rw [splitAt]
    split
    · simp
    · split <;> simp

/-- Texts one after the other with a separator between neighbours. -/
def join (separator : String) : List String → String
  | [] => ""
  | [s] => s
  | s :: t :: rest => s ++ separator ++ join separator (t :: rest)

/-- A text written `n` times. -/
def times (s : String) : Nat → String
  | 0 => ""
  | n + 1 => s ++ times s n

/-- A text filled up with blanks at its end to a width counted in characters. -/
def padEnd (width : Nat) (s : String) : String :=
  s ++ times " " (width - s.length)

/-- A text filled up with blanks at its start to a width counted in characters. -/
def padStart (width : Nat) (s : String) : String :=
  times " " (width - s.length) ++ s

/-- A number filled up with zeros at its start to a number of digits. -/
def zeroPadded (width n : Nat) : String :=
  let digits := n.repr
  times "0" (width - digits.length) ++ digits

/-- The decimal digit a character stands for. -/
def digit? (c : Char) : Option Nat :=
  if '0' ≤ c ∧ c ≤ '9' then some (c.toNat - '0'.toNat) else none

/-- The hexadecimal digit a character stands for, in either case. -/
def hexDigit? (c : Char) : Option Nat :=
  if '0' ≤ c ∧ c ≤ '9' then some (c.toNat - '0'.toNat)
  else if 'a' ≤ c ∧ c ≤ 'f' then some (c.toNat - 'a'.toNat + 10)
  else if 'A' ≤ c ∧ c ≤ 'F' then some (c.toNat - 'A'.toNat + 10)
  else none

/-- The lower-case hexadecimal digits of a number, filled up with zeros to a width. -/
def hexPadded (width n : Nat) : String :=
  let digits := String.ofList (Nat.toDigits 16 n)
  times "0" (width - digits.length) ++ digits

end DesignTokens.Text
