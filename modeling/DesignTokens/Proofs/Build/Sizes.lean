import DesignTokens.Build.Report
import DesignTokens.Proofs.Number.Rounding
import DesignTokens.Proofs.Text.Digits
import DesignTokens.Proofs.Text.Lines

/-!
Sizes as a report shows them. The unit is the greatest one that a size reaches. Only then the number
is rounded, to the nearest tenth, and so a size close below the next unit shows as 1024.0 of its own.
-/

namespace DesignTokens

/-- The units with the bytes that they stand for. -/
def unitSizes : List (String × Nat) :=
  [("KB", 1024), ("MB", 1024 ^ 2), ("GB", 1024 ^ 3), ("TB", 1024 ^ 4)]

/-- A text shows a number with one place and a unit. -/
def ShowsSize (text : String) (number : ℚ) (unit : String) : Prop :=
  ∃ whole tenth : Nat, tenth < 10 ∧ text = whole.repr ++ "." ++ tenth.repr ++ " " ++ unit ∧
    number = whole + tenth / 10

/-- No text shows two sizes. -/
theorem ShowsSize.unique {text unit unit' : String} {number number' : ℚ}
    (h : ShowsSize text number unit) (h' : ShowsSize text number' unit') :
    number = number' ∧ unit = unit' := by
  obtain ⟨whole, tenth, -, rfl, rfl⟩ := h
  obtain ⟨whole', tenth', -, htext, rfl⟩ := h'
  have hlist := congrArg String.toList htext
  simp only [String.toList_append, List.append_assoc] at hlist
  obtain ⟨hwhole, hrest⟩ :=
    Text.append_mark_inj (Text.notMem_repr rfl whole) (Text.notMem_repr rfl whole') hlist
  obtain ⟨htenth, hunit⟩ :=
    Text.append_mark_inj (Text.notMem_repr rfl tenth) (Text.notMem_repr rfl tenth') hrest
  obtain rfl := Text.repr_injective (String.toList_injective hwhole)
  obtain rfl := Text.repr_injective (String.toList_injective htenth)
  exact ⟨rfl, String.toList_injective hunit⟩

/-- Sizes of up to 53 binary digits are not rounded. -/
theorem roundedSize_of_lt {n : Nat} (hne : n ≠ 0) (hlt : n < 2 ^ 53) : roundedSize n = n := by
  obtain ⟨m, hm, hvalue⟩ := Magnitude.exists_toRat_eq hne hlt
  have hnearest : Magnitude.ofNat? n = some m :=
    Magnitude.nearest?_of_toRat hm hne one_ne_zero (by rw [hvalue, Nat.cast_one, div_one])
  obtain ⟨hden, hquotient⟩ := m.toQuotient_spec
  have hnum : m.toQuotient.1 = n * m.toQuotient.2 := by
    rw [hvalue, div_eq_iff (Nat.cast_ne_zero.mpr hden)] at hquotient
    exact_mod_cast hquotient
  rw [roundedSize, hnearest, Option.getD_some, hnum, Nat.mul_div_cancel _ (Nat.pos_of_ne_zero hden)]

/-- The chosen unit is reached by the size, and the next one is not, if there is one. -/
theorem sizeUnit_spec {size bytes : Nat} {units : List String} (hne : units ≠ [])
    (hbytes : bytes ≤ size) :
    ∃ k unit, units[k]? = some unit ∧ sizeUnit size bytes units = (unit, 1024 ^ k * bytes) ∧
      1024 ^ k * bytes ≤ size ∧ (k + 1 < units.length → size < 1024 * (1024 ^ k * bytes)) := by
  induction units generalizing bytes with
  | nil => exact absurd rfl hne
  | cons unit rest ih =>
      cases rest with
      | nil => exact ⟨0, unit, rfl, by rw [sizeUnit, pow_zero, one_mul], by omega, by simp⟩
      | cons next rest =>
          rw [sizeUnit]
          split
          · exact ⟨0, unit, rfl, by rw [pow_zero, one_mul], by omega, fun _ => by omega⟩
          · rename_i hreached
            obtain ⟨k, found, hfound, heq, hle, hnext⟩ :=
              ih (List.cons_ne_nil next rest) (Nat.le_of_not_lt hreached)
            have hpow : 1024 ^ k * (1024 * bytes) = 1024 ^ (k + 1) * bytes := by
              rw [pow_succ, mul_assoc]
            rw [hpow] at heq hle hnext
            exact ⟨k + 1, found, hfound, heq, hle, fun hlt => hnext (Nat.lt_of_succ_lt_succ hlt)⟩

section Shown

variable {n : Nat}

theorem sizeUnit_sizeUnits (hlow : 1024 ≤ n) (hhigh : n < 2 ^ 50) :
    ∃ unit bytes, sizeUnit n 1024 sizeUnits = (unit, bytes) ∧ (unit, bytes) ∈ unitSizes ∧
      bytes ≤ n ∧ n < 1024 * bytes := by
  have hunits : sizeUnits ≠ [] := List.cons_ne_nil _ _
  obtain ⟨k, unit, hunit, heq, hle, hnext⟩ := sizeUnit_spec hunits hlow
  have hk : k < sizeUnits.length := (List.getElem?_eq_some_iff.mp hunit).1
  have hlength : sizeUnits.length = 4 := rfl
  refine ⟨unit, 1024 ^ k * 1024, heq, ?_, hle, ?_⟩
  · have hall : ∀ i < 4, ∀ u ∈ sizeUnits[i]?, (u, 1024 ^ i * 1024) ∈ unitSizes := by decide
    exact hall k (by omega) unit hunit
  · by_cases hlast : k + 1 < sizeUnits.length
    · exact hnext hlast
    · obtain rfl : k = 3 := by omega
      omega

theorem formatBytes_eq (hlow : 1024 ≤ n) (hhigh : n < 2 ^ 50) :
    ∃ unit bytes tenths, (unit, bytes) ∈ unitSizes ∧ bytes ≤ n ∧ n < 1024 * bytes ∧
      tenths = roundHalfEven (n * 10) bytes ∧
      formatBytes n = (tenths / 10).repr ++ "." ++ (tenths % 10).repr ++ " " ++ unit := by
  obtain ⟨unit, bytes, hunit, hmem, hle, hlt⟩ := sizeUnit_sizeUnits hlow hhigh
  refine ⟨unit, bytes, _, hmem, hle, hlt, rfl, ?_⟩
  have hdigit : ∀ digit < 10, Text.zeroPadded 1 digit = digit.repr := by decide
  have hrounded : roundedSize n = n := roundedSize_of_lt (by omega) (by omega)
  rw [formatBytes, if_neg (Nat.not_lt.mpr hlow)]
  simp only [hrounded, hunit, fixedPlaces]
  rw [hdigit _ (Nat.mod_lt _ (by decide))]

/-- From 1024 bytes up to 1024 TB a size shows as one number and one unit. The unit is the greatest
that the size reaches; the number is at least 1.0 and differs from the size by half a tenth at most.
It is 1024.0 where no more than half a tenth is missing to the next unit, and less everywhere else. -/
theorem formatBytes_shows (hlow : 1024 ≤ n) (hhigh : n < 2 ^ 50) :
    (∃ number unit, ShowsSize (formatBytes n) number unit) ∧
      ∀ number unit, ShowsSize (formatBytes n) number unit →
        ∃ bytes, (unit, bytes) ∈ unitSizes ∧ bytes ≤ n ∧ n < 1024 * bytes ∧
          1 ≤ number ∧ number ≤ 1024 ∧ (number < 1024 ↔ 20 * n < 20479 * bytes) ∧
          |number * bytes - n| ≤ bytes / 20 := by
  obtain ⟨unit, bytes, tenths, hmem, hle, hlt, htenths, htext⟩ := formatBytes_eq hlow hhigh
  have hshows : ShowsSize (formatBytes n) (tenths / 10) unit := by
    refine ⟨tenths / 10, tenths % 10, Nat.mod_lt _ (by decide), htext, ?_⟩
    have hsplit : (tenths : ℚ) = 10 * (tenths / 10 : Nat) + (tenths % 10 : Nat) := by
      exact_mod_cast (Nat.div_add_mod tenths 10).symm
    rw [hsplit]
    ring
  refine ⟨⟨_, _, hshows⟩, ?_⟩
  intro number unit' hshows'
  obtain ⟨rfl, rfl⟩ := hshows.unique hshows'
  have hpos : 0 < bytes := by omega
  have hreach : ∀ m, m % 2 = 0 → (m ≤ tenths ↔ 2 * (m * bytes) ≤ 2 * (n * 10) + bytes) :=
    fun m heven => htenths ▸ le_roundHalfEven_iff hpos heven
  obtain ⟨hbelow, habove⟩ := roundHalfEven_bounds (n * 10) hpos
  rw [← htenths] at hbelow habove
  have hleast : 10 ≤ tenths := (hreach 10 rfl).mpr (by omega)
  have hmost : tenths ≤ 10240 := by
    by_contra hmore
    have := Nat.mul_le_mul_right bytes (Nat.lt_of_not_le hmore)
    omega
  have hcarry : tenths < 10240 ↔ 20 * n < 20479 * bytes := by
    rw [← Nat.not_le, hreach 10240 rfl]
    omega
  refine ⟨bytes, hmem, hle, hlt, ?_, ?_, ?_, ?_⟩
  · rw [le_div_iff₀ (by norm_num), one_mul]
    exact_mod_cast hleast
  · rw [div_le_iff₀ (by norm_num)]
    exact_mod_cast hmost
  · rw [← hcarry, div_lt_iff₀ (by norm_num)]
    norm_cast
  · have hbelow' : 2 * ((tenths : ℚ) * bytes) ≤ 2 * (n * 10) + bytes := by exact_mod_cast hbelow
    have habove' : 2 * ((n : ℚ) * 10) ≤ 2 * (tenths * bytes) + bytes := by exact_mod_cast habove
    rw [abs_le]
    constructor <;> linarith

/-- The last size below 1023.95 MB. -/
theorem formatBytes_shows_megabytes :
    1024 ≤ 1073689395 ∧ 1073689395 < 2 ^ 50 ∧ formatBytes 1073689395 = "1023.9 MB" ∧
      ∀ number, ShowsSize (formatBytes 1073689395) number "MB" → number < 1024 := by
  refine ⟨by decide, by decide, by decide +kernel, ?_⟩
  intro number hnumber
  obtain ⟨bytes, hmem, -, -, -, -, hless, -⟩ :=
    (formatBytes_shows (n := 1073689395) (by decide) (by decide)).2 number "MB" hnumber
  have hbytes : bytes = 1024 ^ 2 := by
    have hall : ∀ entry ∈ unitSizes, entry.1 = "MB" → entry.2 = 1024 ^ 2 := by decide
    exact hall _ hmem rfl
  rw [hless, hbytes]
  decide

/-- One byte less than a megabyte. -/
theorem formatBytes_carries :
    formatBytes 1048575 = "1024.0 KB" ∧ ShowsSize (formatBytes 1048575) 1024 "KB" := by
  have htext : formatBytes 1048575 = "1024.0 KB" := by decide +kernel
  refine ⟨htext, 1024, 0, by decide, htext, by norm_num⟩

end Shown

end DesignTokens
