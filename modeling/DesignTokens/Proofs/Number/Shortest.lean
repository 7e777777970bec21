import DesignTokens.Number.Decimal
import DesignTokens.Proofs.Number.Rounding
import Mathlib.Data.List.DropRight

/-!
The decimal that a magnitude is printed with. It lies in the interval of the magnitude, so that the
magnitude is the nearest one to it; the search for it always ends, since the multiples of the power of
ten that is tried last lie closer together than the ends of the interval.
-/

namespace DesignTokens

section Powers

variable {a k : Int}

theorem ten_zpow_pos (e : Int) : (0 : ℚ) < 10 ^ e := by
  positivity

/-- Powers of two bases compare as their exponents do, if the scales of the exponents fit the bases. -/
theorem zpow_le_zpow_of_pow {x y : ℚ} (hx : 1 ≤ x) (hy : 0 < y) {p q : Nat} (hq : q ≠ 0)
    (hbase : x ^ p ≤ y ^ q) (hk : 0 ≤ k) (h : q * a ≤ p * k) : x ^ a ≤ y ^ k := by
  have hpos : 0 < x := lt_of_lt_of_le one_pos hx
  have hraise : ∀ (z : ℚ) (e : Int) (n : Nat), (z ^ e) ^ n = z ^ (n * e) := by
    intro z e n
    rw [← zpow_natCast, ← zpow_mul, mul_comm]
  rw [← pow_le_pow_iff_left₀ (zpow_pos hpos a).le (zpow_pos hy k).le hq]
  calc (x ^ a) ^ q = x ^ (q * a) := hraise x a q
    _ ≤ x ^ (p * k) := zpow_le_zpow_right₀ hx h
    _ = (x ^ p) ^ k := by rw [zpow_mul, zpow_natCast]
    _ ≤ (y ^ q) ^ k := zpow_le_zpow_left₀ hk (pow_pos hpos p).le hbase
    _ = y ^ (q * k) := by rw [zpow_mul, zpow_natCast]
    _ = (y ^ k) ^ q := (hraise y k q).symm

/-- The logarithm of ten in base two lies between `93 / 28` and `196 / 59`. -/
theorem ten_zpow_le_two_zpow (hlarge : 196 * a ≤ 59 * k) (hsmall : 93 * a ≤ 28 * k) :
    (10 : ℚ) ^ a ≤ 2 ^ k := by
  by_cases hk : 0 ≤ k
  · exact zpow_le_zpow_of_pow (by norm_num) two_pos (p := 59) (q := 196) (by decide) (by norm_num) hk
      hlarge
  · have hle : (2 : ℚ) ^ (-k) ≤ 10 ^ (-a) :=
      zpow_le_zpow_of_pow (by norm_num) (by norm_num) (p := 93) (q := 28) (by decide) (by norm_num)
        (by omega) (by push_cast; omega)
    rw [zpow_neg, zpow_neg] at hle
    exact (inv_le_inv₀ (two_zpow_pos k) (ten_zpow_pos a)).mp hle

end Powers

namespace Decimal

theorem reaches_iff {num den : Nat} (hden : den ≠ 0) (e : Int) :
    (scaleTen den e).1 ≤ num * (scaleTen den e).2 ↔ (10 : ℚ) ^ e ≤ num / den := by
  have hdenq : (0 : ℚ) < den := Nat.cast_pos.mpr (Nat.pos_of_ne_zero hden)
  have hsnd : (0 : ℚ) < (scaleTen den e).2 := Nat.cast_pos.mpr (scaleTen_snd_pos den e)
  rw [← Nat.cast_le (α := ℚ), Nat.cast_mul, scaleTen_fst, le_div_iff₀ hdenq,
    mul_comm (den : ℚ)]
  exact mul_le_mul_iff_left₀ hsnd

/-- The exponent found is one of a power of ten at or below the quotient. -/
theorem leadingExponent_le {num den : Nat} (hnum : num ≠ 0) (hden : den ≠ 0)
    (hlow : (2 : ℚ) ^ (-1074 : Int) ≤ num / den) (hhigh : (num : ℚ) / den < 2 ^ (1024 : Int)) :
    (10 : ℚ) ^ leadingExponent num den ≤ num / den := by
  obtain ⟨hbelow, habove⟩ := Magnitude.div_bounds hnum hden
  have hleast := lt_of_le_of_lt hlow habove
  have hmost := hbelow.trans hhigh
  rw [two_zpow_lt_iff] at hleast hmost
  simp only [leadingExponent, decide_eq_true_eq, reaches_iff hden]
  generalize hk : (num.log2 : Int) - den.log2 - 1 = k at *
  split
  · assumption
  · split
    · assumption
    · split
      · assumption
      · refine le_trans (ten_zpow_le_two_zpow (k := k) ?_ ?_) hbelow.le
        · omega
        · omega

section Grid

variable {m : Magnitude} {place : Int}

/-- The factor of the last multiple of `10 ^ place` that is not above a magnitude. -/
def gridBelow (m : Magnitude) (place : Int) : Nat :=
  let two := scaleTwo 1 (m.exponent - 2)
  let ten := scaleTen 1 place
  4 * m.mantissa * (two.1 * ten.2) / (ten.1 * two.2)

/-- Whether a multiple of `10 ^ place` lies in the interval of a magnitude. -/
def onInterval (m : Magnitude) (place : Int) (c : Nat) : Bool :=
  let two := scaleTwo 1 (m.exponent - 2)
  let ten := scaleTen 1 place
  let low := (4 * m.mantissa - m.reach) * (two.1 * ten.2)
  let high := (4 * m.mantissa + 2) * (two.1 * ten.2)
  let number := c * (ten.1 * two.2)
  if m.mantissa % 2 = 0 then low ≤ number && number ≤ high else low < number && number < high

/-- What is chosen is one of the two multiples next to the magnitude that lies in its interval. -/
theorem onGrid?_cases (m : Magnitude) (place : Int) :
    (∃ c, onGrid? m place = some c ∧ (c = gridBelow m place ∨ c = gridBelow m place + 1) ∧
        onInterval m place c = true) ∨
      (onGrid? m place = none ∧ onInterval m place (gridBelow m place) = false ∧
        onInterval m place (gridBelow m place + 1) = false) := by
  generalize hresult : onGrid? m place = result
  -- the lets keep their names: unfolding them all writes the grid out again at every place
  delta onGrid? at hresult
  extract_lets half two ten quarter step value low high inside below above at hresult
  have hinside : ∀ c, onInterval m place c = inside c := fun _ => rfl
  have hgrid : gridBelow m place = below := rfl
  rw [hgrid, hinside, hinside]
  cases hbelow : inside below with
  | true =>
      left
      cases habove : inside above with
      | true =>
          rw [hbelow, habove] at hresult
          refine ⟨_, hresult.symm, ?_⟩
          rw [hinside]
          split
          · exact ⟨.inl rfl, hbelow⟩
          · split
            · exact ⟨.inr rfl, habove⟩
            · split
              · exact ⟨.inl rfl, hbelow⟩
              · exact ⟨.inr rfl, habove⟩
      | false =>
          rw [hbelow, habove] at hresult
          exact ⟨below, hresult.symm, .inl rfl, hbelow⟩
  | false =>
      cases habove : inside above with
      | true =>
          rw [hbelow, habove] at hresult
          exact .inl ⟨above, hresult.symm, .inr rfl, habove⟩
      | false =>
          rw [hbelow, habove] at hresult
          exact .inr ⟨hresult.symm, rfl, rfl⟩

/-- The comparisons of the search are those of rational numbers, all scaled by one factor. -/
theorem exists_scale (e place : Int) :
    let two := scaleTwo 1 e
    let ten := scaleTen 1 place
    ∃ scale : ℚ, 0 < scale ∧ ((two.1 * ten.2 : Nat) : ℚ) = 2 ^ e * scale ∧
      ((ten.1 * two.2 : Nat) : ℚ) = 10 ^ place * scale := by
  intro two ten
  refine ⟨two.2 * ten.2, ?_, ?_, ?_⟩
  · exact mul_pos (Nat.cast_pos.mpr (scaleTwo_snd_pos 1 e)) (Nat.cast_pos.mpr (scaleTen_snd_pos 1 place))
  · rw [Nat.cast_mul, scaleTwo_fst]
    ring
  · rw [Nat.cast_mul, scaleTen_fst]
    ring

theorem onInterval_iff (hpos : 0 < m.mantissa) (c : Nat) :
    onInterval m place c = true ↔ m.Rounds (c * 10 ^ place) := by
  obtain ⟨scale, hscale, htwo, hten⟩ := exists_scale (m.exponent - 2) place
  have hreach : m.reach ≤ 4 * m.mantissa := by
    rw [Magnitude.reach]
    split <;> omega
  have hlow : ((4 * m.mantissa - m.reach : Nat) : ℚ) = 4 * m.mantissa - m.reach := by
    rw [Nat.cast_sub hreach, Nat.cast_mul, Nat.cast_ofNat]
  have hhigh : ((4 * m.mantissa + 2 : Nat) : ℚ) = 4 * m.mantissa + 2 := by
    push_cast
    rfl
  have hle : ∀ x y : ℚ, x * scale ≤ y * scale ↔ x ≤ y := fun x y => mul_le_mul_iff_left₀ hscale
  have hlt : ∀ x y : ℚ, x * scale < y * scale ↔ x < y := fun x y => mul_lt_mul_iff_left₀ hscale
  rw [onInterval, Magnitude.Rounds]
  split
  · rw [Bool.and_eq_true, decide_eq_true_eq, decide_eq_true_eq, ← Nat.cast_le (α := ℚ),
      ← Nat.cast_le (α := ℚ), Nat.cast_mul, Nat.cast_mul c, Nat.cast_mul (_ + 2), htwo, hten, hlow,
      hhigh, ← mul_assoc, ← mul_assoc, ← mul_assoc, hle, hle]
  · rw [Bool.and_eq_true, decide_eq_true_eq, decide_eq_true_eq, ← Nat.cast_lt (α := ℚ),
      ← Nat.cast_lt (α := ℚ), Nat.cast_mul, Nat.cast_mul c, Nat.cast_mul (_ + 2), htwo, hten, hlow,
      hhigh, ← mul_assoc, ← mul_assoc, ← mul_assoc, hlt, hlt]

/-- A magnitude lies between two multiples next to each other. -/
theorem gridBelow_spec (m : Magnitude) (place : Int) :
    (gridBelow m place : ℚ) * 10 ^ place ≤ m.toRat ∧
      m.toRat < (gridBelow m place + 1) * 10 ^ place := by
  obtain ⟨scale, hscale, htwo, hten⟩ := exists_scale (m.exponent - 2) place
  have hvalue : ((4 * m.mantissa * ((scaleTwo 1 (m.exponent - 2)).1 * (scaleTen 1 place).2) : Nat) :
      ℚ) = m.toRat * scale := by
    rw [Nat.cast_mul, htwo, Magnitude.toRat, Magnitude.zpow_sub_two m.exponent]
    push_cast
    ring
  have hstep : 0 < (scaleTen 1 place).1 * (scaleTwo 1 (m.exponent - 2)).2 := by
    rw [← Nat.cast_pos (α := ℚ), hten]
    exact mul_pos (ten_zpow_pos place) hscale
  rw [gridBelow]
  generalize (scaleTen 1 place).1 * (scaleTwo 1 (m.exponent - 2)).2 = step at *
  generalize 4 * m.mantissa * ((scaleTwo 1 (m.exponent - 2)).1 * (scaleTen 1 place).2) = value at *
  constructor
  · have hle : value / step * step ≤ value := Nat.div_mul_le_self value step
    rw [← Nat.cast_le (α := ℚ), Nat.cast_mul, hvalue, hten, ← mul_assoc] at hle
    exact le_of_mul_le_mul_right hle hscale
  · have hlt : value < (value / step + 1) * step :=
      (Nat.div_lt_iff_lt_mul hstep).mp (Nat.lt_succ_self _)
    rw [← Nat.cast_lt (α := ℚ), Nat.cast_mul, hvalue, hten, ← mul_assoc, Nat.cast_succ] at hlt
    exact lt_of_mul_lt_mul_right hlt hscale.le

/-- With 17 digits the multiples lie closer together than the ends of the interval. -/
theorem step_lt (hm : m.Canonical) (hlead : (10 : ℚ) ^ (place + 16) ≤ m.toRat) :
    (10 : ℚ) ^ place < 2 * m.reach * 2 ^ (m.exponent - 2) := by
  have hpow := two_zpow_pos (m.exponent - 2)
  rw [zpow_add₀ (by norm_num), Magnitude.toRat, Magnitude.zpow_sub_two m.exponent] at hlead
  have hscaled : (10 : ℚ) ^ place * 10 ^ 16 ≤ 4 * m.mantissa * 2 ^ (m.exponent - 2) := by
    calc (10 : ℚ) ^ place * 10 ^ 16 ≤ m.mantissa * (4 * 2 ^ (m.exponent - 2)) := hlead
      _ = 4 * m.mantissa * 2 ^ (m.exponent - 2) := by ring
  have hfew : (4 * m.mantissa : ℚ) < 2 * m.reach * 10 ^ 16 := by
    rcases Magnitude.reach_cases m with ⟨hmantissa, -, hreach⟩ | ⟨-, hreach⟩
    · rw [hmantissa, hreach]
      norm_num
    · have hlt : (m.mantissa : ℚ) < 2 ^ 53 := by exact_mod_cast hm.mantissa_lt
      rw [hreach, Nat.cast_ofNat]
      linarith
  have hlt : (10 : ℚ) ^ place * 10 ^ 16 < 2 * m.reach * 2 ^ (m.exponent - 2) * 10 ^ 16 := by
    calc (10 : ℚ) ^ place * 10 ^ 16 ≤ 4 * m.mantissa * 2 ^ (m.exponent - 2) := hscaled
      _ < 2 * m.reach * 10 ^ 16 * 2 ^ (m.exponent - 2) := mul_lt_mul_of_pos_right hfew hpow
      _ = 2 * m.reach * 2 ^ (m.exponent - 2) * 10 ^ 16 := by ring
  exact lt_of_mul_lt_mul_right hlt (by norm_num)

/-- One of the two multiples next to a magnitude with 17 digits lies in its interval. -/
theorem exists_onInterval (hm : m.Canonical) (hpos : 0 < m.mantissa)
    (hlead : (10 : ℚ) ^ (place + 16) ≤ m.toRat) :
    onInterval m place (gridBelow m place) = true ∨
      onInterval m place (gridBelow m place + 1) = true := by
  obtain ⟨hbelow, habove⟩ := gridBelow_spec m place
  have hstep := step_lt hm hlead
  have hpow := two_zpow_pos (m.exponent - 2)
  have hvalue : m.toRat = 4 * m.mantissa * 2 ^ (m.exponent - 2) := by
    rw [Magnitude.toRat, Magnitude.zpow_sub_two m.exponent]
    ring
  have hreach : (m.reach : ℚ) ≤ 2 := by
    rcases Magnitude.reach_cases m with ⟨-, -, hreach⟩ | ⟨-, hreach⟩ <;> rw [hreach] <;> norm_num
  have hmost : (m.reach : ℚ) * 2 ^ (m.exponent - 2) ≤ 2 * 2 ^ (m.exponent - 2) :=
    mul_le_mul_of_nonneg_right hreach hpow.le
  have hleast : 0 ≤ (m.reach : ℚ) * 2 ^ (m.exponent - 2) := by positivity
  rw [onInterval_iff hpos, onInterval_iff hpos, Nat.cast_succ]
  rw [hvalue] at hbelow habove
  rw [add_mul, one_mul] at habove ⊢
  by_cases hnear : 4 * m.mantissa * 2 ^ (m.exponent - 2) - gridBelow m place * (10 : ℚ) ^ place ≤
      10 ^ place / 2
  · left
    apply Magnitude.Rounds.of_strict <;> linarith
  · right
    apply Magnitude.Rounds.of_strict <;> linarith

end Grid

section Shortest

variable {m : Magnitude}

theorem toRat_bounds (hm : m.Canonical) (hpos : 0 < m.mantissa) :
    (2 : ℚ) ^ (-1074 : Int) ≤ m.toRat ∧ m.toRat < 2 ^ (1024 : Int) := by
  have hpow := two_zpow_pos m.exponent
  have hone : (1 : ℚ) ≤ m.mantissa := by exact_mod_cast hpos
  have hlt : (m.mantissa : ℚ) < 2 ^ 53 := by exact_mod_cast hm.mantissa_lt
  constructor
  · calc (2 : ℚ) ^ (-1074 : Int) ≤ 2 ^ m.exponent := two_zpow_le_iff.mpr hm.exponent_ge
      _ ≤ m.mantissa * 2 ^ m.exponent := le_mul_of_one_le_left hpow.le hone
  · calc m.toRat
        < 2 ^ 53 * 2 ^ m.exponent := mul_lt_mul_of_pos_right hlt hpow
      _ = 2 ^ (m.exponent + 53) := (two_zpow_add m.exponent 53).symm
      _ ≤ 2 ^ (1024 : Int) := two_zpow_le_iff.mpr (by have := hm.exponent_le; omega)

/-- The decimal that is printed has the digits of a number in the interval of the magnitude. -/
theorem shortest_spec (hm : m.Canonical) (hpos : 0 < m.mantissa) :
    ∃ (c : Nat) (place : Int), 0 < c ∧ m.Rounds (c * 10 ^ place) ∧
      shortest m = ⟨significantDigits c, place + ((Nat.toDigits 10 c).length - 1 : Nat)⟩ := by
  obtain ⟨hden, hquotient⟩ := m.toQuotient_spec
  obtain ⟨hlow, hhigh⟩ := toRat_bounds hm hpos
  have hnum : m.toQuotient.1 ≠ 0 := by
    intro hzero
    rw [hzero, Nat.cast_zero, zero_div] at hquotient
    have := two_zpow_pos (-1074)
    linarith
  have hlead : (10 : ℚ) ^ leadingExponent m.toQuotient.1 m.toQuotient.2 ≤ m.toRat := by
    rw [← hquotient] at hlow hhigh ⊢
    exact leadingExponent_le hnum hden hlow hhigh
  rw [shortest]
  dsimp only
  generalize leadingExponent m.toQuotient.1 m.toQuotient.2 = lead at hlead ⊢
  cases hhit : (List.range 17).findSome? fun (i : Nat) =>
      (onGrid? m (lead - (i : Int))).map fun c => (c, lead - (i : Int)) with
  | none =>
      exfalso
      have hlast := List.findSome?_eq_none_iff.mp hhit 16 (by simp)
      rw [Option.map_eq_none_iff] at hlast
      have hfull : (10 : ℚ) ^ (lead - 16 + 16) ≤ m.toRat := by rwa [sub_add_cancel]
      have hsome := exists_onInterval hm hpos hfull
      rcases onGrid?_cases m (lead - (16 : Nat)) with ⟨c, hc, -⟩ | ⟨-, hbelow, habove⟩
      · rw [hlast] at hc
        cases hc
      · rcases hsome with hsome | hsome
        · exact Bool.noConfusion (hsome.symm.trans hbelow)
        · exact Bool.noConfusion (hsome.symm.trans habove)
  | some hit =>
      obtain ⟨i, -, hi⟩ := List.exists_of_findSome?_eq_some hhit
      obtain ⟨c, hc, rfl⟩ := Option.map_eq_some_iff.mp hi
      rcases onGrid?_cases m (lead - i) with ⟨c', hc', hside, hinside⟩ | ⟨hnone, -, -⟩
      · obtain rfl := Option.some.inj (hc.symm.trans hc')
        refine ⟨c, lead - i, ?_, (onInterval_iff hpos c).mp hinside, rfl⟩
        have hone : 0 < gridBelow m (lead - i) := by
          have hlt := (gridBelow_spec m (lead - i)).2
          have hle : (10 : ℚ) ^ (lead - i) ≤ 10 ^ lead :=
            zpow_le_zpow_right₀ (by norm_num) (by omega)
          by_contra hzero
          rw [Nat.eq_zero_of_not_pos hzero, Nat.cast_zero, zero_add, one_mul] at hlt
          linarith
        omega
      · rw [hnone] at hc
        cases hc

/-- The number that a decimal stands for. -/
def toRat (d : Decimal) : ℚ :=
  Nat.ofDigitChars 10 d.digits 0 * 10 ^ (d.exponent + 1 - d.digits.length)

/-- Decimals with digits, all of which are digits. -/
structure Digital (d : Decimal) : Prop where
  digits : ∀ c ∈ d.digits, c.isDigit = true
  digits_ne_nil : d.digits ≠ []

/-- Only zeros at the end of a positive number are left out. -/
theorem significantDigits_spec {c : Nat} (hc : 0 < c) :
    significantDigits c ≠ [] ∧
      ∃ zeros, Nat.toDigits 10 c = significantDigits c ++ List.replicate zeros '0' := by
  have hsplit : (Nat.toDigits 10 c).rdropWhile (· = '0') ++
      (Nat.toDigits 10 c).rtakeWhile (· = '0') = Nat.toDigits 10 c :=
    List.rdropWhile_append_rtakeWhile
  have hzeros : (Nat.toDigits 10 c).rtakeWhile (· = '0') =
      List.replicate ((Nat.toDigits 10 c).rtakeWhile (· = '0')).length '0' := by
    apply List.eq_replicate_of_mem
    intro d hd
    simpa using List.mem_rtakeWhile_imp hd
  rw [hzeros] at hsplit
  refine ⟨?_, _, hsplit.symm⟩
  intro hnil
  have hvalue : Nat.ofDigitChars 10 (Nat.toDigits 10 c) 0 = c := Nat.ofDigitChars_ten_toDigits
  rw [← hsplit, show List.rdropWhile _ _ = significantDigits c from rfl, hnil, List.nil_append,
    Nat.ofDigitChars_replicate_zero, Nat.mul_zero] at hvalue
  omega

theorem toRat_significantDigits {c : Nat} (hc : 0 < c) (place : Int) :
    toRat ⟨significantDigits c, place + ((Nat.toDigits 10 c).length - 1 : Nat)⟩ =
      c * 10 ^ place := by
  obtain ⟨hne, zeros, hdigits⟩ := significantDigits_spec hc
  have hlength : (Nat.toDigits 10 c).length = (significantDigits c).length + zeros := by
    rw [hdigits, List.length_append, List.length_replicate]
  have hpos := List.length_pos_of_ne_nil hne
  have hvalue : 10 ^ zeros * Nat.ofDigitChars 10 (significantDigits c) 0 = c := by
    rw [← Nat.ofDigitChars_replicate_zero, ← Nat.ofDigitChars_append, ← hdigits,
      Nat.ofDigitChars_ten_toDigits]
  have hexponent : place + ((Nat.toDigits 10 c).length - 1 : Nat) + 1 -
      ((significantDigits c).length : Int) = zeros + place := by
    rw [hlength]
    omega
  have hcast : (10 : ℚ) ^ zeros * Nat.ofDigitChars 10 (significantDigits c) 0 = c := by
    exact_mod_cast hvalue
  rw [toRat, hexponent, zpow_add₀ (by norm_num), zpow_natCast, ← mul_assoc, mul_comm _ (10 ^ zeros),
    hcast]

/-- The decimal that is printed lies in the interval of the magnitude. -/
theorem rounds_toRat_shortest (hm : m.Canonical) (hpos : 0 < m.mantissa) :
    m.Rounds (shortest m).toRat ∧ 0 < (shortest m).toRat ∧ (shortest m).Digital := by
  obtain ⟨c, place, hc, hrounds, hshortest⟩ := shortest_spec hm hpos
  obtain ⟨hne, zeros, hdigits⟩ := significantDigits_spec hc
  rw [hshortest, toRat_significantDigits hc]
  refine ⟨hrounds, mul_pos (Nat.cast_pos.mpr hc) (ten_zpow_pos place), ?_, hne⟩
  intro d hd
  have hmem : d ∈ Nat.toDigits 10 c := by
    rw [hdigits]
    exact List.mem_append_left _ hd
  exact Nat.isDigit_of_mem_toDigits (by decide) (by decide) hmem

end Shortest

end Decimal

end DesignTokens
