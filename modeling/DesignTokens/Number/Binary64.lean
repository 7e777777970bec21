/-!
Finite binary64 numbers, with rounding done in exact integer arithmetic.

A magnitude is `mantissa * 2 ^ exponent`. `Magnitude.nearest?` gives the magnitude closest to a
quotient of natural numbers, a tie going to the even mantissa, and every operation is one exact
computation followed by that rounding.
-/

namespace DesignTokens

/-- The natural number closest to a quotient; a half goes to the even neighbour. -/
def roundHalfEven (num den : Nat) : Nat :=
  let q := num / den
  let twice := 2 * (num % den)
  if twice < den then q
  else if den < twice then q + 1
  else if q % 2 = 0 then q else q + 1

/-- The number `n * 2 ^ e` as a quotient. -/
def scaleTwo (n : Nat) (e : Int) : Nat × Nat :=
  if 0 ≤ e then (n * Nat.pow 2 e.toNat, 1) else (n, Nat.pow 2 (-e).toNat)

/-- The number `n * 10 ^ e` as a quotient. -/
def scaleTen (n : Nat) (e : Int) : Nat × Nat :=
  if 0 ≤ e then (n * Nat.pow 10 e.toNat, 1) else (n, Nat.pow 10 (-e).toNat)

/-- The size of a binary64 number: `mantissa * 2 ^ exponent`. -/
structure Magnitude where
  mantissa : Nat
  exponent : Int
deriving DecidableEq, Repr, Inhabited

namespace Magnitude

def zero : Magnitude := ⟨0, -1074⟩

/-- A magnitude as a quotient of natural numbers. -/
def toQuotient (m : Magnitude) : Nat × Nat :=
  scaleTwo m.mantissa m.exponent

/-- The magnitude nearest to `num / den`, or none where that is too large. -/
def nearest? (num den : Nat) : Option Magnitude :=
  if num = 0 then some zero
  else
    let guess : Int := (Nat.log2 num : Int) - Nat.log2 den - 52
    let wide := scaleTwo den guess
    let exact := if Nat.pow 2 52 * wide.1 ≤ num * wide.2 then guess else guess - 1
    let exponent := max exact (-1074)
    let unit := scaleTwo den exponent
    let mantissa := roundHalfEven (num * unit.2) unit.1
    let rounded : Magnitude :=
      if mantissa = Nat.pow 2 53 then ⟨Nat.pow 2 52, exponent + 1⟩ else ⟨mantissa, exponent⟩
    if 971 < rounded.exponent then none else some rounded

/-- The magnitude nearest to a natural number. -/
def ofNat? (n : Nat) : Option Magnitude :=
  nearest? n 1

/-- The product of two magnitudes, rounded. -/
def mul? (a b : Magnitude) : Option Magnitude :=
  let q := scaleTwo (a.mantissa * b.mantissa) (a.exponent + b.exponent)
  nearest? q.1 q.2

/-- The quotient of two magnitudes, rounded; the divisor is not zero. -/
def div? (a b : Magnitude) : Option Magnitude :=
  let x := a.toQuotient
  let y := b.toQuotient
  nearest? (x.1 * y.2) (x.2 * y.1)

end Magnitude

/-- A finite binary64 number. -/
structure Binary64 where
  negative : Bool
  magnitude : Magnitude
deriving DecidableEq, Repr, Inhabited

end DesignTokens
