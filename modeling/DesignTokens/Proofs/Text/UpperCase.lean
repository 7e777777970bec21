import DesignTokens.Text.UpperCase
import DesignTokens.TypedModule.Identifier
import Mathlib.Data.String.Basic

/-!
What the upper-case form of a character can be: no character turns into a blank, an underscore or a
digit that was none before.
-/

namespace DesignTokens.Text

/-- Numbers of characters that are no digit, no underscore and no blank. -/
def isWordNumber (n : Nat) : Bool :=
  n ≠ 0x20 && n ≠ 0x5F && !(0x30 ≤ n && n ≤ 0x39)

theorem isWordNumber_caseExpansions :
    ∀ expansion ∈ caseExpansions, expansion.2 ≠ [] ∧ ∀ n ∈ expansion.2, isWordNumber n := by
  decide +kernel

/-- The characters of a run are far from digits, and all on one side of the underscore. -/
def CaseRun.isApart (run : CaseRun) : Bool :=
  0x3A ≤ run.first + run.offset &&
    (run.last + run.offset < 0x5F || 0x5F < run.first + run.offset)

theorem isApart_caseRuns : ∀ run ∈ caseRuns, run.isApart := by
  decide +kernel

theorem isWordNumber_of_isApart {run : CaseRun} {n : Nat} (hapart : run.isApart)
    (hn : run.contains n) : isWordNumber ((n : Int) + run.offset).toNat := by
  simp only [CaseRun.isApart, CaseRun.contains, isWordNumber, Bool.and_eq_true, Bool.or_eq_true,
    Bool.not_eq_true', Bool.and_eq_false_iff, decide_eq_true_eq, decide_eq_false_iff_not] at *
  omega

theorem toNat_ofNat {n : Nat} (h : n.isValidChar) : (Char.ofNat n).toNat = n := by
  rw [Char.ofNat, dif_pos h]
  rfl

theorem isWordNumber_toNat_ofNat {n : Nat} (h : isWordNumber n) :
    isWordNumber (Char.ofNat n).toNat := by
  by_cases hvalid : n.isValidChar
  · rwa [toNat_ofNat hvalid]
  · rw [Char.ofNat, dif_neg hvalid]
    rfl

/-- A character is its own upper-case form, or that form has no digits, underscores and blanks. -/
theorem upper_eq_or (c : Char) :
    upper c = [c] ∨ upper c ≠ [] ∧ ∀ d ∈ upper c, isWordNumber d.toNat := by
  rw [upper]
  split
  · rename_i expansion hfind
    obtain ⟨hne, hword⟩ := isWordNumber_caseExpansions _ (List.mem_of_find?_eq_some hfind)
    refine .inr ⟨by simpa using hne, fun d hd => ?_⟩
    obtain ⟨n, hn, rfl⟩ := List.mem_map.mp hd
    exact isWordNumber_toNat_ofNat (hword n hn)
  · split
    · rename_i run hfind
      have hcontains : run.contains c.toNat := by simpa using List.find?_some hfind
      refine .inr ⟨List.cons_ne_nil _ _, fun d hd => ?_⟩
      obtain rfl := List.mem_singleton.mp hd
      exact isWordNumber_toNat_ofNat (isWordNumber_of_isApart
        (isApart_caseRuns _ (List.mem_of_find?_eq_some hfind)) hcontains)
    · exact .inl rfl

/-- No other character turns into one that is no word character. -/
theorem notMem_upper {c mark : Char} (hmark : isWordNumber mark.toNat = false) (h : c ≠ mark) :
    mark ∉ upper c := by
  intro hmem
  rcases upper_eq_or c with heq | ⟨-, hword⟩
  · rw [heq] at hmem
    exact h (List.mem_singleton.mp hmem).symm
  · exact Bool.noConfusion ((hword mark hmem).symm.trans hmark)

theorem upper_digits : ∀ n ∈ List.range' 0x30 10, upper (Char.ofNat n) = [Char.ofNat n] := by
  decide +kernel

theorem upper_letters :
    ∀ n ∈ List.range' 0x61 26, upper (Char.ofNat n) = [Char.ofNat (n - 0x20)] := by
  decide +kernel

theorem toNat_of_isAsciiDigit {c : Char} (h : isAsciiDigit c) :
    0x30 ≤ c.toNat ∧ c.toNat ≤ 0x39 := by
  simpa [isAsciiDigit, Char.le_def, UInt32.le_iff_toNat_le] using h

theorem upper_of_isAsciiDigit {c : Char} (h : isAsciiDigit c) : upper c = [c] := by
  obtain ⟨hge, hle⟩ := toNat_of_isAsciiDigit h
  have hupper := upper_digits c.toNat (List.mem_range'_1.mpr (by omega))
  rwa [Char.ofNat_toNat] at hupper

/-- Digits and the small letters of the Latin alphabet. -/
def isLow (c : Char) : Bool :=
  isAsciiDigit c || ('a' ≤ c && c ≤ 'z')

theorem upper_of_isLow {c : Char} (h : isLow c) :
    ∃ d : Char, upper c = [d] ∧ (c.toNat = d.toNat ∧ d.toNat ≤ 0x39 ∨
      c.toNat = d.toNat + 0x20 ∧ 0x41 ≤ d.toNat) := by
  rw [isLow, Bool.or_eq_true] at h
  rcases h with h | h
  · exact ⟨c, upper_of_isAsciiDigit h, .inl ⟨rfl, (toNat_of_isAsciiDigit h).2⟩⟩
  · have hbounds : 0x61 ≤ c.toNat ∧ c.toNat ≤ 0x7A := by
      simpa [Char.le_def, UInt32.le_iff_toNat_le] using h
    have hupper := upper_letters c.toNat (List.mem_range'_1.mpr (by omega))
    rw [Char.ofNat_toNat] at hupper
    refine ⟨_, hupper, .inr ?_⟩
    rw [toNat_ofNat (.inl (by omega))]
    omega

theorem upper_injective_of_isLow {c d : Char} (hc : isLow c) (hd : isLow d)
    (h : upper c = upper d) : c = d := by
  obtain ⟨x, hx, hcx⟩ := upper_of_isLow hc
  obtain ⟨y, hy, hdy⟩ := upper_of_isLow hd
  rw [hx, hy, List.singleton_inj] at h
  subst h
  rw [← Char.toNat_inj]
  omega

theorem isWordNumber_eq_false_of_isAsciiDigit {c : Char} (h : isAsciiDigit c) :
    isWordNumber c.toNat = false := by
  obtain ⟨hge, hle⟩ := toNat_of_isAsciiDigit h
  simp [isWordNumber, hge, hle]

end DesignTokens.Text
