import DesignTokens.Number.Binary64
import Mathlib.Algebra.Order.Field.Power
import Mathlib.Algebra.Order.Field.Rat
import Mathlib.Tactic.FieldSimp
import Mathlib.Tactic.Linarith
import Mathlib.Tactic.NormNum
import Mathlib.Tactic.Positivity
import Mathlib.Tactic.Ring

/-!
Rounding as a fact about rational numbers. Each magnitude is the nearest one for the numbers of an
interval around it, which reaches half way to its neighbours; the ends belong to the interval if the
mantissa is even.
-/

namespace DesignTokens

section Scale

variable {base : Nat} {e : Int}

theorem natPow_toNat (he : 0 ≤ e) : ((Nat.pow base e.toNat : Nat) : ℚ) = (base : ℚ) ^ e := by
  obtain ⟨k, rfl⟩ := Int.eq_ofNat_of_zero_le he
  simp

/-- A number times a power, written as a quotient. -/
theorem scaled_spec (hbase : 0 < base) (n : Nat) (e : Int) (q : Nat × Nat)
    (hq : q = if 0 ≤ e then (n * Nat.pow base e.toNat, 1) else (n, Nat.pow base (-e).toNat)) :
    0 < q.2 ∧ (q.1 : ℚ) = n * base ^ e * q.2 := by
  subst hq
  split
  · rename_i he
    refine ⟨Nat.one_pos, ?_⟩
    rw [Nat.cast_mul, natPow_toNat he, Nat.cast_one, mul_one]
  · rename_i he
    have hpos : (0 : ℚ) < base := Nat.cast_pos.mpr hbase
    refine ⟨Nat.pow_pos hbase, ?_⟩
    rw [natPow_toNat (by omega), mul_assoc, ← zpow_add₀ hpos.ne', add_neg_cancel, zpow_zero, mul_one]

theorem scaleTwo_snd_pos (n : Nat) (e : Int) : 0 < (scaleTwo n e).2 :=
  (scaled_spec Nat.two_pos n e _ rfl).1

theorem scaleTwo_fst (n : Nat) (e : Int) :
    ((scaleTwo n e).1 : ℚ) = n * 2 ^ e * (scaleTwo n e).2 :=
  (scaled_spec Nat.two_pos n e _ rfl).2

theorem scaleTwo_fst_pos {n : Nat} (hn : 0 < n) (e : Int) : 0 < (scaleTwo n e).1 := by
  have hnq : (0 : ℚ) < n := Nat.cast_pos.mpr hn
  have hsnd : (0 : ℚ) < (scaleTwo n e).2 := Nat.cast_pos.mpr (scaleTwo_snd_pos n e)
  rw [← Nat.cast_pos (α := ℚ), scaleTwo_fst]
  positivity

theorem scaleTen_snd_pos (n : Nat) (e : Int) : 0 < (scaleTen n e).2 :=
  (scaled_spec (Nat.succ_pos 9) n e _ rfl).1

theorem scaleTen_fst (n : Nat) (e : Int) :
    ((scaleTen n e).1 : ℚ) = n * 10 ^ e * (scaleTen n e).2 :=
  (scaled_spec (Nat.succ_pos 9) n e _ rfl).2

theorem two_zpow_pos (e : Int) : (0 : ℚ) < 2 ^ e := by
  positivity

theorem two_zpow_add (e : Int) (k : Nat) : (2 : ℚ) ^ (e + k) = 2 ^ k * 2 ^ e := by
  rw [zpow_add₀ two_ne_zero, zpow_natCast, mul_comm]

theorem two_zpow_le_iff {a b : Int} : (2 : ℚ) ^ a ≤ 2 ^ b ↔ a ≤ b :=
  zpow_le_zpow_iff_right₀ one_lt_two

theorem two_zpow_lt_iff {a b : Int} : (2 : ℚ) ^ a < 2 ^ b ↔ a < b :=
  zpow_lt_zpow_iff_right₀ one_lt_two

end Scale

section Half

variable {num den m : Nat}

/-- The natural number within a half of a quotient, where of two the even one counts. -/
theorem roundHalfEven_eq (hden : 0 < den) (hlow : 2 * (m * den) ≤ 2 * num + den)
    (hhigh : 2 * num ≤ 2 * (m * den) + den)
    (hodd : m % 2 = 1 → 2 * (m * den) < 2 * num + den ∧ 2 * num < 2 * (m * den) + den) :
    roundHalfEven num den = m := by
  have hsplit : den * (num / den) + num % den = num := Nat.div_add_mod num den
  have hrest : num % den < den := Nat.mod_lt num hden
  rw [roundHalfEven]
  generalize num / den = q at *
  generalize num % den = r at *
  have hle : q ≤ m := by
    by_contra hlt
    have hmul : den * (m + 1) ≤ den * q := Nat.mul_le_mul_left den (by omega)
    rw [Nat.mul_succ, Nat.mul_comm den m] at hmul
    omega
  have hge : m ≤ q + 1 := by
    by_contra hlt
    have hmul : den * (q + 2) ≤ den * m := Nat.mul_le_mul_left den (by omega)
    rw [Nat.mul_add, Nat.mul_comm den m] at hmul
    omega
  obtain rfl | rfl : q = m ∨ m = q + 1 := by omega
  · rw [Nat.mul_comm q den] at hlow hhigh hodd
    split <;> [rfl; split] <;> [omega; split] <;> omega
  · rw [Nat.add_mul, Nat.one_mul, Nat.mul_comm q den] at hlow hhigh hodd
    split <;> [omega; split] <;> [rfl; split] <;> omega

theorem div_le_roundHalfEven (num den : Nat) :
    num / den ≤ roundHalfEven num den ∧ roundHalfEven num den ≤ num / den + 1 := by
  rw [roundHalfEven]
  split
  · omega
  · split
    · omega
    · split <;> omega

/-- Rounding to a multiple of a power of two. -/
theorem roundHalfEven_scaled {e : Int} (hden : 0 < den)
    (hlow : (m - 1 / 2) * (2 : ℚ) ^ e ≤ num / den) (hhigh : num / den ≤ (m + 1 / 2) * (2 : ℚ) ^ e)
    (hodd : m % 2 = 1 → (m - 1 / 2) * (2 : ℚ) ^ e < num / den ∧
      num / den < (m + 1 / 2) * (2 : ℚ) ^ e) :
    roundHalfEven (num * (scaleTwo den e).2) (scaleTwo den e).1 = m := by
  have hdenq : (0 : ℚ) < den := Nat.cast_pos.mpr hden
  have hsnd : (0 : ℚ) < (scaleTwo den e).2 := Nat.cast_pos.mpr (scaleTwo_snd_pos den e)
  have hfst := scaleTwo_fst den e
  have hunit := scaleTwo_fst_pos hden e
  generalize (scaleTwo den e).1 = unit at *
  generalize (scaleTwo den e).2 = width at *
  -- all comparisons are those of the quotient with the power, times `2 * den * width`
  have hscale : (0 : ℚ) < den * width := mul_pos hdenq hsnd
  have hnum : (num : ℚ) / den * (den * width) = num * width := by
    field_simp
  have hmid : ∀ k : ℚ, (m + k) * (2 : ℚ) ^ e * (den * width) = m * unit + k * unit := by
    intro k
    rw [hfst]
    ring
  rw [sub_eq_add_neg] at hlow hodd
  apply roundHalfEven_eq hunit
  · have hle := mul_le_mul_of_nonneg_right hlow hscale.le
    rw [hmid, hnum] at hle
    have hcast : (2 * (m * unit) : ℚ) ≤ 2 * (num * width) + unit := by linarith
    exact_mod_cast hcast
  · have hle := mul_le_mul_of_nonneg_right hhigh hscale.le
    rw [hmid, hnum] at hle
    have hcast : (2 * (num * width) : ℚ) ≤ 2 * (m * unit) + unit := by linarith
    exact_mod_cast hcast
  · intro hm
    obtain ⟨hlow, hhigh⟩ := hodd hm
    have hlt := mul_lt_mul_of_pos_right hlow hscale
    have hgt := mul_lt_mul_of_pos_right hhigh hscale
    rw [hmid, hnum] at hlt hgt
    have hcast : (2 * (m * unit) : ℚ) < 2 * (num * width) + unit := by linarith
    have hcast' : (2 * (num * width) : ℚ) < 2 * (m * unit) + unit := by linarith
    exact ⟨by exact_mod_cast hcast, by exact_mod_cast hcast'⟩

/-- Rounding moves a quotient by a half at most. -/
theorem roundHalfEven_bounds (num : Nat) (hden : 0 < den) :
    2 * (roundHalfEven num den * den) ≤ 2 * num + den ∧
      2 * num ≤ 2 * (roundHalfEven num den * den) + den := by
  have hsplit : den * (num / den) + num % den = num := Nat.div_add_mod num den
  have hrest : num % den < den := Nat.mod_lt num hden
  rw [roundHalfEven]
  generalize num / den = q at *
  generalize num % den = r at *
  rw [Nat.mul_comm den q] at hsplit
  have hnext : (q + 1) * den = q * den + den := Nat.succ_mul q den
  split
  · omega
  · split
    · omega
    · split <;> omega

/-- Quotients from a half below an even number on are rounded to it or to a greater one. -/
theorem le_roundHalfEven_iff (hden : 0 < den) (heven : m % 2 = 0) :
    m ≤ roundHalfEven num den ↔ 2 * (m * den) ≤ 2 * num + den := by
  obtain ⟨hlow, hhigh⟩ := roundHalfEven_bounds num hden
  constructor
  · intro hle
    have := Nat.mul_le_mul_right den hle
    omega
  · intro hle
    by_contra hlt
    have hnext := Nat.mul_le_mul_right den (Nat.lt_of_not_le hlt)
    rw [Nat.succ_mul] at hnext
    have heq : roundHalfEven num den = m :=
      roundHalfEven_eq hden hle (by omega) fun hodd => absurd hodd (by omega)
    omega

end Half

namespace Magnitude

/-- The number that a magnitude stands for. -/
def toRat (m : Magnitude) : ℚ :=
  m.mantissa * 2 ^ m.exponent

theorem toQuotient_spec (m : Magnitude) :
    m.toQuotient.2 ≠ 0 ∧ (m.toQuotient.1 : ℚ) / m.toQuotient.2 = m.toRat := by
  have hsnd := scaleTwo_snd_pos m.mantissa m.exponent
  exact ⟨hsnd.ne', (div_eq_iff (Nat.cast_pos.mpr hsnd).ne').mpr (scaleTwo_fst m.mantissa m.exponent)⟩

/-- The form in which each magnitude of a finite binary64 number is written: with a mantissa of 53
binary digits, or a shorter one at the least exponent. -/
structure Canonical (m : Magnitude) : Prop where
  mantissa_lt : m.mantissa < 2 ^ 53
  exponent_ge : -1074 ≤ m.exponent
  exponent_le : m.exponent ≤ 971
  normal : 2 ^ 52 ≤ m.mantissa ∨ m.exponent = -1074

/-- The distance from a magnitude down to the end of its interval, in quarters of the last place. Below
a power of two the magnitudes lie twice as close. -/
def reach (m : Magnitude) : Nat :=
  if m.mantissa = 2 ^ 52 ∧ -1074 < m.exponent then 1 else 2

/-- The numbers to which a magnitude is the nearest one. -/
def Rounds (m : Magnitude) (x : ℚ) : Prop :=
  if m.mantissa % 2 = 0 then
    (4 * m.mantissa - m.reach) * 2 ^ (m.exponent - 2) ≤ x ∧
      x ≤ (4 * m.mantissa + 2) * 2 ^ (m.exponent - 2)
  else
    (4 * m.mantissa - m.reach) * 2 ^ (m.exponent - 2) < x ∧
      x < (4 * m.mantissa + 2) * 2 ^ (m.exponent - 2)

section Binade

variable {num den : Nat}

/-- The exponent at which a positive quotient has a mantissa of 53 binary digits. -/
def binade (num den : Nat) : Int :=
  let guess : Int := (Nat.log2 num : Int) - Nat.log2 den - 52
  let wide := scaleTwo den guess
  if Nat.pow 2 52 * wide.1 ≤ num * wide.2 then guess else guess - 1

theorem nearest?_eq (hnum : num ≠ 0) :
    nearest? num den =
      let exponent := max (binade num den) (-1074)
      let unit := scaleTwo den exponent
      let mantissa := roundHalfEven (num * unit.2) unit.1
      let rounded : Magnitude :=
        if mantissa = Nat.pow 2 53 then ⟨Nat.pow 2 52, exponent + 1⟩ else ⟨mantissa, exponent⟩
      if 971 < rounded.exponent then none else some rounded := by
  rw [nearest?, if_neg hnum]
  rfl

theorem two_zpow_log2_le {n : Nat} (hn : n ≠ 0) : (2 : ℚ) ^ (n.log2 : Int) ≤ n := by
  rw [zpow_natCast]
  exact_mod_cast Nat.log2_self_le hn

theorem lt_two_zpow_log2 (n : Nat) : (n : ℚ) < 2 ^ (n.log2 + 1 : Int) := by
  have hlt : n < 2 ^ (n.log2 + 1) := Nat.lt_log2_self
  rw [← Nat.cast_succ, zpow_natCast]
  exact_mod_cast hlt

theorem div_bounds (hnum : num ≠ 0) (hden : den ≠ 0) :
    (2 : ℚ) ^ ((num.log2 : Int) - den.log2 - 1) < num / den ∧
      (num : ℚ) / den < 2 ^ ((num.log2 : Int) - den.log2 + 1) := by
  have hdenq : (0 : ℚ) < den := Nat.cast_pos.mpr (Nat.pos_of_ne_zero hden)
  have hpow := two_zpow_pos ((num.log2 : Int) - den.log2)
  constructor
  · rw [lt_div_iff₀ hdenq]
    calc (2 : ℚ) ^ ((num.log2 : Int) - den.log2 - 1) * den
        < 2 ^ ((num.log2 : Int) - den.log2 - 1) * 2 ^ (den.log2 + 1 : Int) :=
          mul_lt_mul_of_pos_left (lt_two_zpow_log2 den) (two_zpow_pos _)
      _ = 2 ^ (num.log2 : Int) := by
          rw [← zpow_add₀ two_ne_zero]
          congr 1
          omega
      _ ≤ num := two_zpow_log2_le hnum
  · rw [div_lt_iff₀ hdenq]
    calc (num : ℚ) < 2 ^ (num.log2 + 1 : Int) := lt_two_zpow_log2 num
      _ = 2 ^ ((num.log2 : Int) - den.log2 + 1) * 2 ^ (den.log2 : Int) := by
          rw [← zpow_add₀ two_ne_zero]
          congr 1
          omega
      _ ≤ 2 ^ ((num.log2 : Int) - den.log2 + 1) * den :=
          mul_le_mul_of_nonneg_left (two_zpow_log2_le hden) (two_zpow_pos _).le

/-- A quotient lies between two powers of two next to each other. -/
theorem binade_spec (hnum : num ≠ 0) (hden : den ≠ 0) :
    (2 : ℚ) ^ (binade num den + 52) ≤ num / den ∧
      (num : ℚ) / den < 2 ^ (binade num den + 53) := by
  have hdenq : (0 : ℚ) < den := Nat.cast_pos.mpr (Nat.pos_of_ne_zero hden)
  obtain ⟨hlow, hhigh⟩ := div_bounds hnum hden
  rw [binade]
  generalize hguess : (num.log2 : Int) - den.log2 - 52 = guess
  have htest : Nat.pow 2 52 * (scaleTwo den guess).1 ≤ num * (scaleTwo den guess).2 ↔
      (2 : ℚ) ^ (guess + 52) ≤ num / den := by
    have hsnd : (0 : ℚ) < (scaleTwo den guess).2 := Nat.cast_pos.mpr (scaleTwo_snd_pos den guess)
    have hpow : ((Nat.pow 2 52 : Nat) : ℚ) = 2 ^ 52 := by norm_num
    have hside : (2 : ℚ) ^ 52 * (den * 2 ^ guess * (scaleTwo den guess).2) =
        2 ^ 52 * 2 ^ guess * den * (scaleTwo den guess).2 := by
      ring
    rw [← Nat.cast_le (α := ℚ), Nat.cast_mul, Nat.cast_mul, scaleTwo_fst, le_div_iff₀ hdenq, hpow,
      hside, show (guess + 52 : Int) = guess + (52 : Nat) from rfl, two_zpow_add]
    exact mul_le_mul_iff_left₀ hsnd
  split
  · rename_i h
    refine ⟨htest.mp h, ?_⟩
    rwa [show guess + 53 = (num.log2 : Int) - den.log2 + 1 by omega]
  · rename_i h
    rw [show guess - 1 + 53 = guess + 52 by omega]
    refine ⟨?_, lt_of_not_ge (mt htest.mpr h)⟩
    rw [show guess - 1 + 52 = (num.log2 : Int) - den.log2 - 1 by omega]
    exact hlow.le

end Binade

section Nearest

variable {num den : Nat} {m : Magnitude}

theorem zpow_sub_two (e : Int) : (2 : ℚ) ^ e = 4 * 2 ^ (e - 2) := by
  have h := two_zpow_add (e - 2) 2
  rw [show e - 2 + (2 : Nat) = e by omega] at h
  rw [h]
  norm_num

/-- The bounds without the distinction of even and odd. -/
theorem Rounds.bounds {x : ℚ} (h : m.Rounds x) :
    (4 * m.mantissa - m.reach) * 2 ^ (m.exponent - 2) ≤ x ∧
      x ≤ (4 * m.mantissa + 2) * 2 ^ (m.exponent - 2) := by
  rw [Rounds] at h
  split at h
  · exact h
  · exact ⟨h.1.le, h.2.le⟩

theorem Rounds.strict {x : ℚ} (h : m.Rounds x) (hodd : m.mantissa % 2 = 1) :
    (4 * m.mantissa - m.reach) * 2 ^ (m.exponent - 2) < x ∧
      x < (4 * m.mantissa + 2) * 2 ^ (m.exponent - 2) := by
  rwa [Rounds, if_neg (by omega)] at h

theorem Rounds.of_strict {x : ℚ} (hlow : (4 * m.mantissa - m.reach) * 2 ^ (m.exponent - 2) < x)
    (hhigh : x < (4 * m.mantissa + 2) * 2 ^ (m.exponent - 2)) : m.Rounds x := by
  rw [Rounds]
  split
  · exact ⟨hlow.le, hhigh.le⟩
  · exact ⟨hlow, hhigh⟩

theorem Rounds.lt_next {x : ℚ} (h : m.Rounds x) (hm : m.Canonical) : x < 2 ^ (m.exponent + 53) := by
  have hlt : (4 * m.mantissa + 2 : ℚ) < 4 * 2 ^ 53 := by
    have hnat : 4 * m.mantissa + 2 < 4 * 2 ^ 53 := by
      have := hm.mantissa_lt
      omega
    exact_mod_cast hnat
  calc x ≤ (4 * m.mantissa + 2) * 2 ^ (m.exponent - 2) := h.bounds.2
    _ < 4 * 2 ^ 53 * 2 ^ (m.exponent - 2) := mul_lt_mul_of_pos_right hlt (two_zpow_pos _)
    _ = 2 ^ (m.exponent + 53) := by
        rw [show (m.exponent + 53 : Int) = m.exponent + (53 : Nat) from rfl, two_zpow_add,
          zpow_sub_two m.exponent]
        ring

theorem reach_cases (m : Magnitude) :
    (m.mantissa = 2 ^ 52 ∧ -1074 < m.exponent ∧ m.reach = 1) ∨
      (¬ (m.mantissa = 2 ^ 52 ∧ -1074 < m.exponent) ∧ m.reach = 2) := by
  rw [reach]
  split
  · rename_i h
    exact .inl ⟨h.1, h.2, rfl⟩
  · rename_i h
    exact .inr ⟨h, rfl⟩

/-- At the exponent of the magnitude a number of its interval rounds to its mantissa. -/
theorem Rounds.roundHalfEven_eq (hden : 0 < den) (h : m.Rounds (num / den))
    (hlow : m.reach = 2 ∨ (m.mantissa : ℚ) * 2 ^ m.exponent ≤ num / den) :
    roundHalfEven (num * (scaleTwo den m.exponent).2) (scaleTwo den m.exponent).1 =
      m.mantissa := by
  have hpow := two_zpow_pos (m.exponent - 2)
  have hlower : ∀ k : ℚ, (m.mantissa + k) * (2 : ℚ) ^ m.exponent =
      (4 * m.mantissa + 4 * k) * 2 ^ (m.exponent - 2) := by
    intro k
    rw [zpow_sub_two m.exponent]
    ring
  have hdown := hlower (-1 / 2)
  have hup := hlower (1 / 2)
  rw [show (m.mantissa + -1 / 2 : ℚ) = m.mantissa - 1 / 2 by ring] at hdown
  obtain ⟨hge, hle⟩ := h.bounds
  apply roundHalfEven_scaled hden
  · rcases hlow with hreach | hlow
    · rw [hreach] at hge
      rw [hdown]
      norm_num at hge ⊢
      linarith
    · apply le_trans _ hlow
      apply mul_le_mul_of_nonneg_right _ (two_zpow_pos m.exponent).le
      linarith
  · rw [hup]
    norm_num
    exact hle
  · intro hodd
    obtain ⟨hgt, hlt⟩ := h.strict hodd
    rw [hdown, hup]
    rcases reach_cases m with ⟨hmantissa, -, -⟩ | ⟨-, hreach⟩
    · omega
    · rw [hreach] at hgt
      norm_num at hgt hlt ⊢
      exact ⟨by linarith, hlt⟩

theorem two_zpow_full (e : Int) : (2 : ℚ) ^ (e + 52) = 2 ^ 52 * 2 ^ e :=
  two_zpow_add e 52

theorem Rounds.binade_le (hm : m.Canonical) (hnum : num ≠ 0) (hden : den ≠ 0)
    (h : m.Rounds (num / den)) : binade num den ≤ m.exponent := by
  have hlt := lt_of_le_of_lt (binade_spec hnum hden).1 (h.lt_next hm)
  rw [two_zpow_lt_iff] at hlt
  omega

theorem nearest?_of_full (hm : m.Canonical) (hnum : num ≠ 0) (hden : den ≠ 0)
    (h : m.Rounds (num / den))
    (hlow : m.exponent = -1074 ∨ (2 : ℚ) ^ (m.exponent + 52) ≤ num / den) :
    nearest? num den = some m := by
  have hle := h.binade_le hm hnum hden
  have hexponent : max (binade num den) (-1074) = m.exponent := by
    rcases hlow with hlow | hlow
    · omega
    · have hlt := lt_of_le_of_lt hlow (binade_spec hnum hden).2
      rw [two_zpow_lt_iff] at hlt
      have hleast := hm.exponent_ge
      omega
  have hmantissa : roundHalfEven (num * (scaleTwo den m.exponent).2)
      (scaleTwo den m.exponent).1 = m.mantissa := by
    apply h.roundHalfEven_eq (Nat.pos_of_ne_zero hden)
    rcases reach_cases m with ⟨hmantissa, hexp, -⟩ | ⟨-, hreach⟩
    · right
      rw [hmantissa, Nat.cast_pow, Nat.cast_ofNat, ← two_zpow_full]
      exact hlow.resolve_left hexp.ne'
    · exact .inl hreach
  have hlong : m.mantissa ≠ Nat.pow 2 53 := hm.mantissa_lt.ne
  rw [nearest?_eq hnum]
  dsimp only
  rw [hexponent, hmantissa, if_neg hlong, if_neg (not_lt.mpr hm.exponent_le)]

theorem two_zpow_quarters (e : Int) : (2 : ℚ) ^ (e + 52) = 2 ^ 54 * 2 ^ (e - 2) := by
  rw [two_zpow_full, zpow_sub_two e]
  ring

/-- Only a power of two has an interval that reaches below the mantissas of its exponent. -/
theorem Rounds.power_of_two {x : ℚ} (hm : m.Canonical) (h : m.Rounds x)
    (hexp : m.exponent ≠ -1074) (hlow : x < 2 ^ (m.exponent + 52)) :
    m.mantissa = 2 ^ 52 ∧ m.reach = 1 := by
  rcases reach_cases m with ⟨hmantissa, -, hreach⟩ | ⟨hnot, hreach⟩
  · exact ⟨hmantissa, hreach⟩
  · exfalso
    have hlong : 2 ^ 52 + 1 ≤ m.mantissa := by
      have hleast := hm.exponent_ge
      have hnormal := hm.normal.resolve_right hexp
      have hne : m.mantissa ≠ 2 ^ 52 := fun heq => hnot ⟨heq, by omega⟩
      omega
    have hlongq : (2 ^ 52 + 1 : ℚ) ≤ m.mantissa := by exact_mod_cast hlong
    have hfrom := h.bounds.1
    rw [hreach, Nat.cast_ofNat] at hfrom
    rw [two_zpow_quarters] at hlow
    have hmul := lt_of_mul_lt_mul_right (lt_of_le_of_lt hfrom hlow) (two_zpow_pos _).le
    linarith

/-- A number below a power of two that is closer to it than to the magnitudes below is rounded up, and
the carry makes its mantissa one digit longer. -/
theorem nearest?_of_carry (hm : m.Canonical) (hnum : num ≠ 0) (hden : den ≠ 0)
    (h : m.Rounds (num / den)) (hexp : m.exponent ≠ -1074)
    (hlow : (num : ℚ) / den < 2 ^ (m.exponent + 52)) : nearest? num den = some m := by
  obtain ⟨hmantissa, hreach⟩ := h.power_of_two hm hexp hlow
  have hhalf : (2 : ℚ) ^ (m.exponent - 1) = 2 * 2 ^ (m.exponent - 2) := by
    rw [show m.exponent - 1 = m.exponent - 2 + (1 : Nat) by omega, two_zpow_add, pow_one]
  have hfrom := h.bounds.1
  rw [hmantissa, hreach] at hfrom
  have hexponent : max (binade num den) (-1074) = m.exponent - 1 := by
    have hlt := lt_of_le_of_lt (binade_spec hnum hden).1 hlow
    have hgt : (2 : ℚ) ^ (m.exponent - 1 + 52) < 2 ^ (binade num den + 53) := by
      refine lt_of_le_of_lt (le_trans ?_ hfrom) (binade_spec hnum hden).2
      rw [two_zpow_full, hhalf, ← mul_assoc]
      apply mul_le_mul_of_nonneg_right _ (two_zpow_pos _).le
      norm_num
    rw [two_zpow_lt_iff] at hlt hgt
    have hleast := hm.exponent_ge
    omega
  have hcarry : roundHalfEven (num * (scaleTwo den (m.exponent - 1)).2)
      (scaleTwo den (m.exponent - 1)).1 = 2 ^ 53 := by
    have heven : ¬ (2 ^ 53 % 2 = 1) := by norm_num
    apply roundHalfEven_scaled (Nat.pos_of_ne_zero hden) _ _ fun hodd => absurd hodd heven
    · refine le_trans (le_of_eq ?_) hfrom
      rw [hhalf]
      norm_num
      ring
    · refine le_trans hlow.le ?_
      rw [two_zpow_quarters, hhalf, ← mul_assoc]
      apply mul_le_mul_of_nonneg_right _ (two_zpow_pos _).le
      norm_num
  rw [nearest?_eq hnum]
  dsimp only
  rw [hexponent, hcarry, if_pos (show 2 ^ 53 = Nat.pow 2 53 from rfl), sub_add_cancel,
    if_neg (not_lt.mpr hm.exponent_le), Nat.pow_eq, ← hmantissa]

/-- Whatever rounds to a magnitude has that magnitude as its nearest one. -/
theorem nearest?_of_rounds (hm : m.Canonical) (hnum : num ≠ 0) (hden : den ≠ 0)
    (h : m.Rounds (num / den)) : nearest? num den = some m := by
  by_cases hlow : m.exponent = -1074 ∨ (2 : ℚ) ^ (m.exponent + 52) ≤ num / den
  · exact nearest?_of_full hm hnum hden h hlow
  · rw [not_or, not_le] at hlow
    exact nearest?_of_carry hm hnum hden h hlow.1 hlow.2

theorem canonical_zero : zero.Canonical :=
  ⟨by decide, by decide, by decide, by decide⟩

/-- The whole part of a quotient in units of a power of two. -/
theorem div_scaled_bounds (hden : den ≠ 0) {e : Int} {k : Nat} :
    (k ≤ num * (scaleTwo den e).2 / (scaleTwo den e).1 ↔ (k : ℚ) * 2 ^ e ≤ num / den) := by
  have hdenq : (0 : ℚ) < den := Nat.cast_pos.mpr (Nat.pos_of_ne_zero hden)
  have hsnd : (0 : ℚ) < (scaleTwo den e).2 := Nat.cast_pos.mpr (scaleTwo_snd_pos den e)
  have hpos := scaleTwo_fst_pos (Nat.pos_of_ne_zero hden) e
  have hside : (k : ℚ) * (den * 2 ^ e * (scaleTwo den e).2) =
      k * 2 ^ e * den * (scaleTwo den e).2 := by
    ring
  rw [Nat.le_div_iff_mul_le hpos, ← Nat.cast_le (α := ℚ), Nat.cast_mul, Nat.cast_mul, scaleTwo_fst,
    hside, le_div_iff₀ hdenq]
  exact mul_le_mul_iff_left₀ hsnd

/-- At the exponent of its binade a quotient has a mantissa of 53 binary digits. -/
theorem full_mantissa (hnum : num ≠ 0) (hden : den ≠ 0) :
    2 ^ 52 ≤ roundHalfEven (num * (scaleTwo den (binade num den)).2) (scaleTwo den (binade num den)).1 := by
  apply le_trans _ (div_le_roundHalfEven _ _).1
  rw [div_scaled_bounds hden, Nat.cast_pow, Nat.cast_ofNat, ← two_zpow_full]
  exact (binade_spec hnum hden).1

/-- A nearest magnitude is written in the only form. -/
theorem canonical_of_nearest? (hden : den ≠ 0) (h : nearest? num den = some m) : m.Canonical := by
  by_cases hnum : num = 0
  · rw [nearest?, if_pos hnum] at h
    exact Option.some.inj h ▸ canonical_zero
  rw [nearest?_eq hnum] at h
  dsimp only at h
  obtain ⟨hlow, hhigh⟩ := binade_spec hnum hden
  generalize hexponent : max (binade num den) (-1074) = e at h
  have hrange := div_le_roundHalfEven (num * (scaleTwo den e).2) (scaleTwo den e).1
  generalize hmantissa : roundHalfEven (num * (scaleTwo den e).2) (scaleTwo den e).1 = k at h hrange
  have hmost : k ≤ 2 ^ 53 := by
    have hlt : ¬ 2 ^ 53 ≤ num * (scaleTwo den e).2 / (scaleTwo den e).1 := by
      rw [div_scaled_bounds hden, not_le, Nat.cast_pow, Nat.cast_ofNat]
      apply lt_of_lt_of_le hhigh
      rw [show (2 : ℚ) ^ 53 * 2 ^ e = 2 ^ (e + 53) from (two_zpow_add e 53).symm, two_zpow_le_iff]
      omega
    omega
  have hleast : 2 ^ 52 ≤ k ∨ e = -1074 := by
    by_cases hexp : e = -1074
    · exact .inr hexp
    · obtain rfl : binade num den = e := by omega
      exact .inl (hmantissa ▸ full_mantissa hnum hden)
  split at h
  · rw [Option.ite_none_left_eq_some] at h
    obtain ⟨hexp, hm⟩ := h
    obtain rfl := Option.some.inj hm
    have hshort : Nat.pow 2 52 < 2 ^ 53 := by decide
    exact ⟨hshort, by dsimp only; omega, not_lt.mp hexp, .inl (le_refl (2 ^ 52))⟩
  · rename_i hlong
    rw [Option.ite_none_left_eq_some] at h
    obtain ⟨hexp, hm⟩ := h
    obtain rfl := Option.some.inj hm
    exact ⟨lt_of_le_of_ne hmost hlong, by dsimp only; omega, not_lt.mp hexp, hleast⟩

/-- A quotient from one up to `2 ^ 1023` has a nearest magnitude, which is not zero. -/
theorem exists_nearest? (hden : den ≠ 0) (hlow : den ≤ num) (hhigh : num < 2 ^ 1023 * den) :
    ∃ m, nearest? num den = some m ∧ m.mantissa ≠ 0 := by
  have hnum : num ≠ 0 := (lt_of_lt_of_le (Nat.pos_of_ne_zero hden) hlow).ne'
  have hdenq : (0 : ℚ) < den := Nat.cast_pos.mpr (Nat.pos_of_ne_zero hden)
  obtain ⟨hfrom, hto⟩ := binade_spec hnum hden
  have hleast : (0 : Int) < binade num den + 53 := by
    rw [← two_zpow_lt_iff, zpow_zero]
    apply lt_of_le_of_lt _ hto
    rw [le_div_iff₀ hdenq, one_mul]
    exact_mod_cast hlow
  have hmost : binade num den + 52 < (1023 : Nat) := by
    rw [← two_zpow_lt_iff, zpow_natCast]
    apply lt_of_le_of_lt hfrom
    rw [div_lt_iff₀ hdenq]
    exact_mod_cast hhigh
  have hexponent : max (binade num den) (-1074) = binade num den := by omega
  have hfull := full_mantissa hnum hden
  rw [nearest?_eq hnum, hexponent]
  dsimp only
  split
  · refine ⟨_, if_neg (by dsimp only; omega), ?_⟩
    exact (Nat.pow_pos Nat.two_pos).ne'
  · refine ⟨_, if_neg (by dsimp only; omega), ?_⟩
    exact (lt_of_lt_of_le (Nat.pow_pos Nat.two_pos) hfull).ne'

/-- Every magnitude is the nearest one to the number it stands for. -/
theorem rounds_toRat (m : Magnitude) : m.Rounds m.toRat := by
  have hpow := two_zpow_pos (m.exponent - 2)
  have hvalue : m.toRat = 4 * m.mantissa * 2 ^ (m.exponent - 2) := by
    rw [toRat, zpow_sub_two]
    ring
  have hreach : (0 : ℚ) < m.reach := by
    rcases reach_cases m with ⟨-, -, hreach⟩ | ⟨-, hreach⟩ <;> simp [hreach]
  apply Rounds.of_strict <;> rw [hvalue] <;> nlinarith

theorem nearest?_of_toRat (hm : m.Canonical) (hnum : num ≠ 0) (hden : den ≠ 0)
    (h : (num : ℚ) / den = m.toRat) : nearest? num den = some m :=
  nearest?_of_rounds hm hnum hden (h ▸ rounds_toRat m)

/-- Natural numbers of up to 53 binary digits are magnitudes. -/
theorem exists_toRat_eq {n : Nat} (hne : n ≠ 0) (hlt : n < 2 ^ 53) :
    ∃ m : Magnitude, m.Canonical ∧ m.toRat = n := by
  have hlog : n.log2 < 53 := (Nat.log2_lt hne).mpr hlt
  obtain ⟨k, hk⟩ : ∃ k, n.log2 + k = 52 := ⟨52 - n.log2, by omega⟩
  have hlow : 2 ^ n.log2 ≤ n := Nat.log2_self_le hne
  have hhigh : n < 2 ^ (n.log2 + 1) := Nat.lt_log2_self
  refine ⟨⟨n * 2 ^ k, -k⟩, ⟨?_, by dsimp only; omega, by dsimp only; omega, .inl ?_⟩, ?_⟩
  · calc n * 2 ^ k < 2 ^ (n.log2 + 1) * 2 ^ k := Nat.mul_lt_mul_of_pos_right hhigh (by positivity)
      _ = 2 ^ 53 := by rw [← Nat.pow_add, show n.log2 + 1 + k = 53 by omega]
  · calc 2 ^ 52 = 2 ^ n.log2 * 2 ^ k := by rw [← Nat.pow_add, hk]
      _ ≤ n * 2 ^ k := Nat.mul_le_mul_right _ hlow
  · rw [toRat, zpow_neg, zpow_natCast, Nat.cast_mul, Nat.cast_pow, Nat.cast_ofNat]
    field_simp

end Nearest

end Magnitude

end DesignTokens
