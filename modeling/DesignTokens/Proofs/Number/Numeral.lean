import DesignTokens.Proofs.Json.Characters
import DesignTokens.Proofs.Json.Numbers
import DesignTokens.Proofs.Number.Shortest

/-!
Numbers as they are written: a sign, digits in front of the point and behind it, and an exponent. A
number is taken off the front of a text by the longest run of such parts, and its value is that of the
nearest binary64 number unless it is an integer. So every number is read back from its text.
-/

namespace DesignTokens

/-- A written number. -/
structure Numeral where
  negative : Bool
  whole : List Char
  fraction : List Char
  exponent : Option Int
deriving DecidableEq, Repr

namespace Numeral

/-- The spelling of an exponent. -/
def exponentText (e : Int) : List Char :=
  'e' :: (if 0 ≤ e then '+' else '-') :: Nat.toDigits 10 e.natAbs

def text (n : Numeral) : List Char :=
  (if n.negative then ['-'] else []) ++
    (n.whole ++ ((if n.fraction = [] then [] else '.' :: n.fraction) ++
      (n.exponent.map exponentText).getD []))

/-- The size of a written number. -/
def toRat (n : Numeral) : ℚ :=
  Nat.ofDigitChars 10 (n.whole ++ n.fraction) 0 * 10 ^ (n.exponent.getD 0 - n.fraction.length)

/-- What a written number stands for: an integer if it has neither point nor exponent. -/
def value? (n : Numeral) : Option Json.Number :=
  if n.fraction = [] ∧ n.exponent = none then
    let size := Nat.ofDigitChars 10 n.whole 0
    some (.integer (if n.negative then -size else size))
  else
    let q := scaleTen (Nat.ofDigitChars 10 (n.whole ++ n.fraction) 0)
      (n.exponent.getD 0 - n.fraction.length)
    (Magnitude.nearest? q.1 q.2).map fun m => .real ⟨n.negative, m⟩

section Scan

def scanSign : List Char → Bool × List Char
  | '-' :: cs => (true, cs)
  | cs => (false, cs)

def scanDigits (cs : List Char) : List Char × List Char :=
  (cs.takeWhile Char.isDigit, cs.dropWhile Char.isDigit)

def scanFraction : List Char → List Char × List Char
  | '.' :: cs => scanDigits cs
  | cs => ([], cs)

def scanExponent : List Char → Option Int × List Char
  | 'e' :: '+' :: cs =>
    let (digits, cs) := scanDigits cs
    (some (Nat.ofDigitChars 10 digits 0), cs)
  | 'e' :: '-' :: cs =>
    let (digits, cs) := scanDigits cs
    (some (-Nat.ofDigitChars 10 digits 0), cs)
  | cs => (none, cs)

/-- The number at the front of a text, and what follows it. -/
def scan (cs : List Char) : Numeral × List Char :=
  let (negative, cs) := scanSign cs
  let (whole, cs) := scanDigits cs
  let (fraction, cs) := scanFraction cs
  let (exponent, cs) := scanExponent cs
  (⟨negative, whole, fraction, exponent⟩, cs)

end Scan

/-- What does not extend a number: a text that starts with no digit, point or exponent. -/
def Ends (rest : List Char) : Prop :=
  ∀ c ∈ rest.head?, c.isDigit = false ∧ c ≠ '.' ∧ c ≠ 'e'

/-- The digits of a written number are digits, and some stand in front of the point. -/
structure WellFormed (n : Numeral) : Prop where
  whole : ∀ c ∈ n.whole, c.isDigit = true
  whole_ne_nil : n.whole ≠ []
  fraction : ∀ c ∈ n.fraction, c.isDigit = true

/-- A written number, not that of an integer, for a decimal with a sign. -/
structure Spells (n : Numeral) (negative : Bool) (d : Decimal) : Prop where
  wellFormed : n.WellFormed
  sign : n.negative = negative
  real : n.fraction ≠ [] ∨ n.exponent ≠ none
  size : n.toRat = d.toRat

section ScanText

variable {rest : List Char}

theorem scanDigits_append {digits : List Char} (hdigits : ∀ c ∈ digits, c.isDigit = true)
    (hrest : ∀ c ∈ rest.head?, c.isDigit = false) : scanDigits (digits ++ rest) = (digits, rest) := by
  have hstop : rest.takeWhile Char.isDigit = [] ∧ rest.dropWhile Char.isDigit = rest := by
    cases rest with
    | nil => exact ⟨rfl, rfl⟩
    | cons c rest =>
        have hc := hrest c rfl
        rw [List.takeWhile_cons, List.dropWhile_cons, hc]
        exact ⟨rfl, rfl⟩
  rw [scanDigits, List.takeWhile_append_of_pos hdigits, List.dropWhile_append_of_pos hdigits, hstop.1,
    hstop.2, List.append_nil]

theorem isDigit_of_mem_toDigits {n : Nat} : ∀ c ∈ Nat.toDigits 10 n, c.isDigit = true :=
  fun _ hc => Nat.isDigit_of_mem_toDigits (by decide) (by decide) hc

theorem scanExponent_append (exponent : Option Int) (hrest : Ends rest) :
    scanExponent ((exponent.map exponentText).getD [] ++ rest) = (exponent, rest) := by
  have hdigits : ∀ c ∈ rest.head?, c.isDigit = false := fun c hc => (hrest c hc).1
  cases exponent with
  | none =>
      rw [Option.map_none, Option.getD_none, List.nil_append]
      cases rest with
      | nil => rfl
      | cons c rest =>
          obtain ⟨-, -, hc⟩ := hrest c rfl
          rw [scanExponent.eq_def]
          split
          · rename_i h
            exact absurd (List.cons.inj h).1 hc
          · rename_i h
            exact absurd (List.cons.inj h).1 hc
          · rfl
  | some e =>
      rw [Option.map_some, Option.getD_some, exponentText, List.cons_append, List.cons_append]
      split
      · rename_i he
        rw [scanExponent, scanDigits_append isDigit_of_mem_toDigits hdigits]
        dsimp only
        rw [Nat.ofDigitChars_ten_toDigits, Int.natAbs_of_nonneg he]
      · rename_i he
        rw [scanExponent, scanDigits_append isDigit_of_mem_toDigits hdigits]
        dsimp only
        rw [Nat.ofDigitChars_ten_toDigits]
        have hsign : -(e.natAbs : Int) = e := by omega
        rw [hsign]

theorem head?_exponent (exponent : Option Int) (hrest : Ends rest) :
    ∀ c ∈ ((exponent.map exponentText).getD [] ++ rest).head?, c.isDigit = false ∧ c ≠ '.' := by
  cases exponent with
  | none => exact fun c hc => ⟨(hrest c hc).1, (hrest c hc).2.1⟩
  | some e =>
      intro c hc
      obtain rfl : 'e' = c := Option.some.inj hc
      exact ⟨by decide, by decide⟩

theorem scanFraction_append {fraction : List Char} (hfraction : ∀ c ∈ fraction, c.isDigit = true)
    (hrest : ∀ c ∈ rest.head?, c.isDigit = false ∧ c ≠ '.') :
    scanFraction ((if fraction = [] then [] else '.' :: fraction) ++ rest) = (fraction, rest) := by
  split
  · subst fraction
    rw [List.nil_append, scanFraction.eq_def]
    split
    · rename_i cs
      exact absurd rfl (hrest '.' rfl).2
    · rfl
  · rw [List.cons_append, scanFraction]
    exact scanDigits_append hfraction fun c hc => (hrest c hc).1

theorem scanSign_append {negative : Bool} {cs : List Char} (hcs : ∀ c ∈ cs.head?, c.isDigit = true) :
    scanSign ((if negative then ['-'] else []) ++ cs) = (negative, cs) := by
  cases negative with
  | true => rfl
  | false =>
      rw [if_neg Bool.false_ne_true, List.nil_append, scanSign.eq_def]
      split
      · exact Bool.noConfusion (hcs '-' rfl)
      · rfl

/-- A well-formed number is taken off the front of any text that does not extend it. -/
theorem scan_text {n : Numeral} (hn : n.WellFormed) (hrest : Ends rest) :
    scan (n.text ++ rest) = (n, rest) := by
  obtain ⟨hwhole, hne, hfraction⟩ := hn
  have hafter := head?_exponent n.exponent hrest
  have hpoint : ∀ c ∈ ((if n.fraction = [] then [] else '.' :: n.fraction) ++
      ((n.exponent.map exponentText).getD [] ++ rest)).head?, c.isDigit = false := by
    intro c hc
    split at hc
    · exact (hafter c hc).1
    · obtain rfl : '.' = c := Option.some.inj hc
      decide
  have hfirst : ∀ c ∈ (n.whole ++ ((if n.fraction = [] then [] else '.' :: n.fraction) ++
      ((n.exponent.map exponentText).getD [] ++ rest))).head?, c.isDigit = true := by
    intro c hc
    rw [List.head?_append_of_ne_nil _ hne] at hc
    exact hwhole c (List.mem_of_mem_head? hc)
  rw [text, List.append_assoc, List.append_assoc, List.append_assoc, scan, scanSign_append hfirst]
  dsimp only
  rw [scanDigits_append hwhole hpoint]
  dsimp only
  rw [scanFraction_append hfraction hafter]
  dsimp only
  rw [scanExponent_append n.exponent hrest]

end ScanText

end Numeral

namespace Decimal

open Numeral

variable {d : Decimal} {negative : Bool}

theorem ofDigitChars_zeros_append (n : Nat) (ds : List Char) :
    Nat.ofDigitChars 10 (List.replicate n '0' ++ ds) 0 = Nat.ofDigitChars 10 ds 0 := by
  rw [Nat.ofDigitChars_append, Nat.ofDigitChars_replicate_zero, Nat.mul_zero]

theorem ofDigitChars_append_zeros (n : Nat) (ds : List Char) (e : Int) :
    (Nat.ofDigitChars 10 (ds ++ List.replicate n '0') 0 : ℚ) * 10 ^ e =
      Nat.ofDigitChars 10 ds 0 * 10 ^ (e + n) := by
  rw [Nat.ofDigitChars_append, Nat.ofDigitChars_replicate_zero, zpow_add₀ (by norm_num),
    zpow_natCast]
  push_cast
  ring

theorem isDigit_of_mem_replicate {n : Nat} : ∀ c ∈ List.replicate n '0', c.isDigit = true := by
  intro c hc
  rw [List.eq_of_mem_replicate hc]
  rfl

theorem positional_of_neg (hexponent : d.exponent < 0) :
    d.positional = '0' :: '.' :: (List.replicate ((-d.exponent).toNat - 1) '0' ++ d.digits) := by
  rw [positional, if_neg (not_le.mpr hexponent), List.cons_append, List.cons_append]

/-- Digits that do not reach the point are padded. -/
theorem positional_of_short (hexponent : 0 ≤ d.exponent)
    (hshort : d.digits.length ≤ d.exponent.toNat + 1) :
    d.positional =
      d.digits ++ List.replicate (d.exponent.toNat + 1 - d.digits.length) '0' ++ ['.', '0'] := by
  have hlength :
      (d.digits ++ List.replicate (d.exponent.toNat + 1 - d.digits.length) '0').length =
        d.exponent.toNat + 1 := by
    rw [List.length_append, List.length_replicate]
    omega
  rw [positional, if_pos hexponent]
  dsimp only
  rw [List.take_of_length_le hlength.le, List.drop_of_length_le hlength.le]
  rfl

/-- Digits that go past the point are split there. -/
theorem positional_of_long (hexponent : 0 ≤ d.exponent)
    (hlong : d.exponent.toNat + 1 < d.digits.length) :
    d.positional =
      d.digits.take (d.exponent.toNat + 1) ++ '.' :: d.digits.drop (d.exponent.toNat + 1) := by
  have hnone : d.exponent.toNat + 1 - d.digits.length = 0 := by omega
  have hdrop : ¬ (d.digits.drop (d.exponent.toNat + 1)).isEmpty = true := by
    rw [List.isEmpty_iff, List.drop_eq_nil_iff]
    omega
  rw [positional, if_pos hexponent]
  dsimp only
  rw [hnone, List.replicate_zero, List.append_nil, if_neg hdrop]

/-- A decimal below one has zeros in front of its digits. -/
theorem spells_of_neg (hd : d.Digital) (hexponent : d.exponent < 0) :
    Spells ⟨negative, ['0'], List.replicate ((-d.exponent).toNat - 1) '0' ++ d.digits, none⟩
      negative d := by
  constructor
  · refine ⟨List.forall_mem_singleton.mpr rfl, List.cons_ne_nil _ _, ?_⟩
    rw [List.forall_mem_append]
    exact ⟨isDigit_of_mem_replicate, hd.digits⟩
  · rfl
  · exact .inl (List.append_ne_nil_of_right_ne_nil _ hd.digits_ne_nil)
  · rw [Numeral.toRat, Decimal.toRat, ← List.append_assoc, ← List.replicate_one,
      List.replicate_append_replicate, ofDigitChars_zeros_append]
    congr 2
    rw [List.length_append, List.length_replicate]
    dsimp only [Option.getD_none]
    omega

theorem spells_of_short (hd : d.Digital) (hexponent : 0 ≤ d.exponent)
    (hshort : d.digits.length ≤ d.exponent.toNat + 1) :
    Spells ⟨negative, d.digits ++ List.replicate (d.exponent.toNat + 1 - d.digits.length) '0', ['0'],
      none⟩ negative d := by
  constructor
  · refine ⟨?_, List.append_ne_nil_of_left_ne_nil hd.digits_ne_nil _,
      List.forall_mem_singleton.mpr rfl⟩
    rw [List.forall_mem_append]
    exact ⟨hd.digits, isDigit_of_mem_replicate⟩
  · rfl
  · exact .inl (List.cons_ne_nil _ _)
  · rw [Numeral.toRat, Decimal.toRat, List.append_assoc, ← List.replicate_one,
      List.replicate_append_replicate, ofDigitChars_append_zeros]
    congr 2
    rw [List.length_replicate]
    dsimp only [Option.getD_none]
    omega

/-- The digits of a decimal, split at the point, with the exponent that this leaves. -/
theorem spells_of_split (hd : d.Digital) (k : Nat) (exponent : Option Int) (hk : k ≠ 0)
    (hreal : d.digits.drop k ≠ [] ∨ exponent ≠ none)
    (hexponent : exponent.getD 0 - (d.digits.length - k : Nat) = d.exponent + 1 - d.digits.length) :
    Spells ⟨negative, d.digits.take k, d.digits.drop k, exponent⟩ negative d := by
  constructor
  · refine ⟨fun c hc => hd.digits c (List.mem_of_mem_take hc), ?_,
      fun c hc => hd.digits c (List.mem_of_mem_drop hc)⟩
    rw [Ne, List.take_eq_nil_iff]
    exact fun h => h.elim hk hd.digits_ne_nil
  · rfl
  · exact hreal
  · rw [Numeral.toRat, Decimal.toRat, List.take_append_drop, List.length_drop, hexponent]

/-- The positional spelling of a decimal is a written number. -/
theorem exists_positional (hd : d.Digital) (negative : Bool) :
    ∃ n : Numeral, n.Spells negative d ∧
      n.text = (if negative then ['-'] else []) ++ d.positional := by
  rcases lt_or_ge d.exponent 0 with hexponent | hexponent
  · refine ⟨_, spells_of_neg hd hexponent, ?_⟩
    rw [text, positional_of_neg hexponent]
    simp [hd.digits_ne_nil]
  rcases lt_or_ge (d.exponent.toNat + 1) d.digits.length with hlong | hshort
  · have hdrop : d.digits.drop (d.exponent.toNat + 1) ≠ [] := by
      rw [Ne, List.drop_eq_nil_iff]
      omega
    refine ⟨_, spells_of_split hd (d.exponent.toNat + 1) none (Nat.succ_ne_zero _) (.inl hdrop) ?_,
      ?_⟩
    · rw [Option.getD_none]
      omega
    · rw [text, positional_of_long hexponent hlong]
      simp [hdrop]
  · refine ⟨_, spells_of_short hd hexponent hshort, ?_⟩
    rw [text, positional_of_short hexponent hshort]
    simp

/-- The spelling of a decimal with an exponent is a written number. -/
theorem exists_scientific (hd : d.Digital) (negative : Bool) :
    ∃ n : Numeral, n.Spells negative d ∧
      n.text = (if negative then ['-'] else []) ++ d.scientific := by
  have hlength := List.length_pos_of_ne_nil hd.digits_ne_nil
  refine ⟨_, spells_of_split hd 1 (some d.exponent) Nat.one_ne_zero
    (.inr (Option.some_ne_none d.exponent)) ?_, ?_⟩
  · rw [Option.getD_some]
    omega
  · rw [text, scientific, Option.map_some, Option.getD_some, exponentText]
    simp only [List.isEmpty_iff, List.append_assoc]

end Decimal

namespace Json.Number

open Numeral

/-- A written number for a decimal stands for the binary64 number that the decimal rounds to. -/
theorem value?_of_spells {n : Numeral} {negative : Bool} {d : Decimal} {m : Magnitude}
    (hn : n.Spells negative d) (hm : m.Canonical) (hpos : 0 < d.toRat) (h : m.Rounds d.toRat) :
    n.value? = some (.real ⟨negative, m⟩) := by
  have hnone : ¬ (n.fraction = [] ∧ n.exponent = none) := fun hboth =>
    hn.real.elim (fun hne => hne hboth.1) fun hne => hne hboth.2
  rw [value?, if_neg hnone]
  dsimp only
  have hfst := scaleTen_fst (Nat.ofDigitChars 10 (n.whole ++ n.fraction) 0)
    (n.exponent.getD 0 - n.fraction.length)
  have hsnd := scaleTen_snd_pos (Nat.ofDigitChars 10 (n.whole ++ n.fraction) 0)
    (n.exponent.getD 0 - n.fraction.length)
  generalize scaleTen _ _ = q at hfst hsnd ⊢
  have hquotient : (q.1 : ℚ) / q.2 = d.toRat := by
    rw [← hn.size, div_eq_iff (Nat.cast_pos.mpr hsnd).ne']
    exact hfst
  have hnum : q.1 ≠ 0 := by
    intro hzero
    rw [hzero, Nat.cast_zero, zero_div] at hquotient
    exact hpos.ne hquotient
  rw [Magnitude.nearest?_of_rounds hm hnum hsnd.ne' (hquotient ▸ h), Option.map_some, hn.sign]

theorem exists_numeral_zero {x : Binary64} (hx : x.magnitude.Canonical)
    (hzero : x.magnitude.mantissa = 0) :
    ∃ n : Numeral, n.WellFormed ∧ n.text = (realText x).toList ∧ n.value? = some (.real x) := by
  refine ⟨⟨x.negative, ['0'], ['0'], none⟩, ⟨by simp, List.cons_ne_nil _ _, by simp⟩, ?_, ?_⟩
  · rw [realText, String.toList_ofList, if_pos hzero, text]
    cases x.negative <;> rfl
  · have hexponent : x.magnitude.exponent = -1074 :=
      hx.normal.resolve_left (by rw [hzero]; decide)
    have hmagnitude : x.magnitude = .zero := by
      obtain ⟨negative, mantissa, exponent⟩ := x
      cases hzero
      cases hexponent
      rfl
    have hnearest : (value? ⟨x.negative, ['0'], ['0'], none⟩) =
        some (.real ⟨x.negative, .zero⟩) := rfl
    rw [hnearest, ← hmagnitude]

theorem exists_numeral_real {x : Binary64} (hx : x.magnitude.Canonical) :
    ∃ n : Numeral, n.WellFormed ∧ n.text = (realText x).toList ∧ n.value? = some (.real x) := by
  by_cases hzero : x.magnitude.mantissa = 0
  · exact exists_numeral_zero hx hzero
  · obtain ⟨hrounds, hpos, hdigital⟩ :=
      Decimal.rounds_toRat_shortest hx (Nat.pos_of_ne_zero hzero)
    obtain ⟨n, hn, htext⟩ : ∃ n : Numeral, n.Spells x.negative (Decimal.shortest x.magnitude) ∧
        n.text = (realText x).toList := by
      rw [realText, String.toList_ofList, if_neg hzero]
      generalize Decimal.shortest x.magnitude = d at hdigital
      by_cases hexponent : -5 ≤ d.exponent ∧ d.exponent ≤ 15
      · obtain ⟨n, hn, htext⟩ := Decimal.exists_positional hdigital x.negative
        refine ⟨n, hn, ?_⟩
        rw [htext, if_pos hexponent]
        split <;> rfl
      · obtain ⟨n, hn, htext⟩ := Decimal.exists_scientific hdigital x.negative
        refine ⟨n, hn, ?_⟩
        rw [htext, if_neg hexponent]
        split <;> rfl
    exact ⟨n, hn.wellFormed, htext, value?_of_spells hn hx hpos hrounds⟩

/-- Every number is written as parts that stand for it. -/
theorem exists_numeral {n : Number} (hn : n.Proper) :
    ∃ m : Numeral, m.WellFormed ∧ m.text = n.toText.toList ∧ m.value? = some n := by
  cases n with
  | real x => exact exists_numeral_real hn
  | integer n =>
      refine ⟨⟨n < 0, Nat.toDigits 10 n.natAbs, [], none⟩,
        ⟨isDigit_of_mem_toDigits, Nat.toDigits_ne_nil, by simp⟩, ?_, ?_⟩
      · rw [toText, text]
        by_cases hnegative : n < 0 <;> simp [hnegative, Nat.toList_repr]
      · rw [value?, if_pos ⟨rfl, rfl⟩, Nat.ofDigitChars_ten_toDigits]
        by_cases hnegative : n < 0
        · simp only [hnegative, decide_true, if_true]
          congr 2
          omega
        · simp only [hnegative, decide_false, if_false, Bool.false_eq_true]
          congr 2
          omega

/-- The number at the front of a text, and what follows it. -/
def read (cs : List Char) : Option (Number × List Char) :=
  let (numeral, rest) := scan cs
  numeral.value?.map fun n => (n, rest)

/-- A number is read back from its text, whatever follows that does not extend it. -/
theorem read_toText {n : Number} (hn : n.Proper) {rest : List Char} (hrest : Ends rest) :
    read (n.toText.toList ++ rest) = some (n, rest) := by
  obtain ⟨m, hm, htext, hvalue⟩ := exists_numeral hn
  rw [← htext, read, scan_text hm hrest]
  dsimp only
  rw [hvalue, Option.map_some]

/-- Different numbers are written differently. -/
theorem toText_injective {n m : Number} (hn : n.Proper) (hm : m.Proper) (h : n.toText = m.toText) :
    n = m := by
  have hends : Ends [] := nofun
  have hread := read_toText hn hends
  rw [h, read_toText hm hends] at hread
  exact (Prod.mk.inj (Option.some.inj hread)).1.symm

end Json.Number

end DesignTokens
