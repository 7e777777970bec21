import DesignTokens.Number.Binary64
import DesignTokens.Text.Basic

/-!
Decimal spellings of numbers: the fewest digits that read back as the same binary64 number, and a
fixed number of places.
-/

namespace DesignTokens

/-- Decimal digits `d₁ d₂ …` and an exponent, for the number `d₁.d₂… * 10 ^ exponent`. -/
structure Decimal where
  digits : List Char
  exponent : Int
deriving DecidableEq, Repr

namespace Decimal

/-- The largest `e` with `10 ^ e ≤ num / den`, for a positive quotient. -/
def leadingExponent (num den : Nat) : Int :=
  let low : Int := ((Nat.log2 num : Int) - Nat.log2 den - 1) * 30103 / 100000
  let reaches (e : Int) : Bool := let t := scaleTen den e; t.1 ≤ num * t.2
  if reaches (low + 2) then low + 2
  else if reaches (low + 1) then low + 1
  else if reaches low then low
  else low - 1

/-- The multiple of `10 ^ place` that reads back as a magnitude, as its factor: the nearer one of
the two around the magnitude, the even one on a tie. -/
def onGrid? (m : Magnitude) (place : Int) : Option Nat :=
  let half : Nat := if m.mantissa = Nat.pow 2 52 ∧ -1074 < m.exponent then 1 else 2
  let two := scaleTwo 1 (m.exponent - 2)
  let ten := scaleTen 1 place
  let quarter := two.1 * ten.2
  let step := ten.1 * two.2
  let value := 4 * m.mantissa * quarter
  let low := (4 * m.mantissa - half) * quarter
  let high := (4 * m.mantissa + 2) * quarter
  let inside (c : Nat) : Bool :=
    if m.mantissa % 2 = 0 then low ≤ c * step && c * step ≤ high
    else low < c * step && c * step < high
  let below := value / step
  let above := below + 1
  match inside below, inside above with
  | true, true =>
    let down := value - below * step
    let up := above * step - value
    some (if down < up then below
      else if up < down then above
      else if below % 2 = 0 then below else above)
  | true, false => some below
  | false, true => some above
  | false, false => none

/-- The digits of a positive number without the zeros at their end. -/
def significantDigits (n : Nat) : List Char :=
  ((Nat.toDigits 10 n).reverse.dropWhile (· = '0')).reverse

/-- The shortest decimal that reads back as a positive magnitude; of several the nearest. -/
def shortest (m : Magnitude) : Decimal :=
  let q := m.toQuotient
  let lead := leadingExponent q.1 q.2
  let hit := (List.range 17).findSome? fun (i : Nat) =>
    let place : Int := lead - (i : Int)
    (onGrid? m place).map fun c => (c, place)
  match hit with
  | some (c, place) => ⟨significantDigits c, place + ((Nat.toDigits 10 c).length - 1 : Nat)⟩
  | none => ⟨['0'], 0⟩

/-- Positional spelling with at least one digit after the point. -/
def positional (d : Decimal) : List Char :=
  if 0 ≤ d.exponent then
    let whole := d.exponent.toNat + 1
    let padded := d.digits ++ List.replicate (whole - d.digits.length) '0'
    let fraction := padded.drop whole
    padded.take whole ++ '.' :: (if fraction.isEmpty then ['0'] else fraction)
  else
    '0' :: '.' :: List.replicate ((-d.exponent).toNat - 1) '0' ++ d.digits

/-- Spelling with an exponent, which always carries a sign. -/
def scientific (d : Decimal) : List Char :=
  let fraction := d.digits.drop 1
  d.digits.take 1 ++ (if fraction.isEmpty then [] else '.' :: fraction) ++
    'e' :: (if 0 ≤ d.exponent then '+' else '-') :: Nat.toDigits 10 d.exponent.natAbs

end Decimal

/-- A quotient with a fixed number of places after the point; a half goes to the even neighbour. -/
def fixedPlaces (places num den : Nat) : String :=
  let n := roundHalfEven (num * Nat.pow 10 places) den
  (n / Nat.pow 10 places).repr ++ "." ++ Text.zeroPadded places (n % Nat.pow 10 places)

end DesignTokens
