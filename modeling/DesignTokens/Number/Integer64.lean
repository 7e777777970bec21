import DesignTokens.Text.Basic

/-!
Reading signed 64-bit integers in decimal notation.
-/

namespace DesignTokens.Integer64

/-- Why a text is no 64-bit integer. -/
inductive Fault where
  | empty
  | invalidDigit
  | tooLarge
  | tooSmall
deriving DecidableEq, Repr

def Fault.message : Fault → String
  | empty => "cannot parse integer from empty string"
  | invalidDigit => "invalid digit found in string"
  | tooLarge => "number too large to fit in target type"
  | tooSmall => "number too small to fit in target type"

/-- Reads digits behind those that make `n`, up to a limit. Of two faults the first one in the text
counts. -/
def digits (limit : Nat) (excess : Fault) (n : Nat) : List Char → Except Fault Nat
  | [] => .ok n
  | c :: cs =>
    match Text.digit? c with
    | none => .error .invalidDigit
    | some d => if n * 10 + d ≤ limit then digits limit excess (n * 10 + d) cs else .error excess

/-- Reads an integer: digits, perhaps with a sign in front. -/
def read : List Char → Except Fault Int
  | [] => .error .empty
  | ['+'] => .error .invalidDigit
  | ['-'] => .error .invalidDigit
  | '+' :: cs => (digits (Nat.pow 2 63 - 1) .tooLarge 0 cs).map Int.ofNat
  | '-' :: cs => (digits (Nat.pow 2 63) .tooSmall 0 cs).map fun n => -Int.ofNat n
  | cs => (digits (Nat.pow 2 63 - 1) .tooLarge 0 cs).map Int.ofNat

end DesignTokens.Integer64
