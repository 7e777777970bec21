import DesignTokens.Proofs.Text.Lines
import DesignTokens.Text.Shown
import Mathlib.Data.List.Basic
import Mathlib.Data.Nat.Basic

/-!
A quoted text can be read: its end and every character in it are told by what is written. Characters
that do not show are spelled by their number, in as many digits as it has, up to a closing brace.
-/

namespace DesignTokens.Text

theorem digitChar_injective {n m : Nat} (hn : n < 16) (hm : m < 16)
    (h : Nat.digitChar n = Nat.digitChar m) : n = m := by
  have hall : ∀ a < 16, ∀ b < 16, Nat.digitChar a = Nat.digitChar b → a = b := by decide
  exact hall n hn m hm h

theorem toDigits_injective {n m : Nat} (h : Nat.toDigits 16 n = Nat.toDigits 16 m) : n = m := by
  induction n using Nat.strongRecOn generalizing m with
  | ind n ih =>
      have hmore : ∀ {digits : List Char} {c d : Char}, digits ≠ [] → digits ++ [c] ≠ [d] := by
        intro digits c d hne heq
        have hlength := congrArg List.length heq
        have hpos := List.length_pos_of_ne_nil hne
        simp only [List.length_append, List.length_singleton] at hlength
        omega
      rcases lt_or_ge n 16 with hn | hn <;> rcases lt_or_ge m 16 with hm | hm
      · rw [Nat.toDigits_of_lt_base hn, Nat.toDigits_of_lt_base hm, List.singleton_inj] at h
        exact digitChar_injective hn hm h
      · rw [Nat.toDigits_of_lt_base hn, Nat.toDigits_of_base_le (by decide) hm] at h
        exact absurd h.symm (hmore Nat.toDigits_ne_nil)
      · rw [Nat.toDigits_of_base_le (by decide) hn, Nat.toDigits_of_lt_base hm] at h
        exact absurd h (hmore Nat.toDigits_ne_nil)
      · rw [Nat.toDigits_of_base_le (by decide) hn, Nat.toDigits_of_base_le (by decide) hm] at h
        obtain ⟨hfront, hlast⟩ := List.append_inj' h rfl
        have hquotient := ih (n / 16) (by omega) hfront
        have hremainder := digitChar_injective (Nat.mod_lt n (by decide))
          (Nat.mod_lt m (by decide)) (List.singleton_inj.mp hlast)
        omega

theorem brace_notMem_toDigits (n : Nat) : '\x7d' ∉ Nat.toDigits 16 n := by
  have hdigit : ∀ r < 16, '\x7d' ≠ Nat.digitChar r := by decide
  induction n using Nat.strongRecOn with
  | ind n ih =>
      rw [Nat.toDigits_eq_if (by decide)]
      split
      · rename_i hn
        rw [List.mem_singleton]
        exact hdigit n hn
      · rename_i hn
        rw [List.mem_append, List.mem_singleton, not_or]
        exact ⟨ih (n / 16) (by omega), hdigit _ (Nat.mod_lt n (by decide))⟩

/-- The characters that are spelled by a letter, with the letter. -/
def letters : List (Char × Char) :=
  [('"', '"'), ('\\', '\\'), ('\n', 'n'), ('\r', 'r'), ('\t', 't'), ('\x00', '0')]

/-- How a character is spelled: as itself, by a letter, or by its number. -/
inductive Spelled (c : Char) : List Char → Prop
  | itself (hquote : c ≠ '"') (hslash : c ≠ '\\') : Spelled c [c]
  | letter {e : Char} (h : (c, e) ∈ letters) : Spelled c ['\\', e]
  | number : Spelled c (['\\', 'u', '\x7b'] ++ Nat.toDigits 16 c.toNat ++ ['\x7d'])

theorem spelled_showChar (c : Char) : Spelled c (showChar c) := by
  rw [showChar]
  by_cases hquote : c = '"'
  · subst hquote
    exact .letter (by decide)
  by_cases hslash : c = '\\'
  · subst hslash
    exact .letter (by decide)
  rw [if_neg hquote, if_neg hslash]
  split
  · rename_i hline
    subst hline
    exact .letter (by decide)
  split
  · rename_i hreturn
    subst hreturn
    exact .letter (by decide)
  split
  · rename_i htab
    subst htab
    exact .letter (by decide)
  split
  · rename_i hzero
    subst hzero
    exact .letter (by decide)
  split
  · exact .itself hquote hslash
  · exact .number

/-- No spelling starts like the end of a text. -/
theorem Spelled.ne_quote {c : Char} {l t u : List Char} (h : Spelled c l) : l ++ t ≠ '"' :: u := by
  intro heq
  cases h with
  | itself hquote => exact hquote (List.cons.inj heq).1
  | letter => exact absurd (List.cons.inj heq).1 (by decide)
  | number => exact absurd (List.cons.inj heq).1 (by decide)

/-- The spelling at the start of a text tells the character and where the rest begins. -/
theorem Spelled.append_inj {c d : Char} {l m t u : List Char} (hc : Spelled c l) (hd : Spelled d m)
    (h : l ++ t = m ++ u) : c = d ∧ t = u := by
  have hletter : ∀ p ∈ letters, p.2 ≠ 'u' ∧ ∀ q ∈ letters, p.2 = q.2 → p.1 = q.1 := by decide
  cases hc with
  | itself hquote hslash =>
      cases hd with
      | itself => exact List.cons.inj h
      | letter => exact absurd (List.cons.inj h).1 hslash
      | number => exact absurd (List.cons.inj h).1 hslash
  | letter he =>
      cases hd with
      | itself _ hslash => exact absurd (List.cons.inj h).1.symm hslash
      | letter he' =>
          obtain ⟨-, h⟩ := List.cons.inj h
          obtain ⟨heq, h⟩ := List.cons.inj h
          exact ⟨(hletter _ he).2 _ he' heq, h⟩
      | number =>
          obtain ⟨-, h⟩ := List.cons.inj h
          exact absurd (List.cons.inj h).1 (hletter _ he).1
  | number =>
      cases hd with
      | itself _ hslash => exact absurd (List.cons.inj h).1.symm hslash
      | letter he' =>
          obtain ⟨-, h⟩ := List.cons.inj h
          exact absurd (List.cons.inj h).1.symm (hletter _ he').1
      | number =>
          rw [List.append_assoc, List.append_assoc, List.append_assoc, List.append_assoc,
            List.append_cancel_left_eq] at h
          obtain ⟨hdigits, htail⟩ := append_mark_inj (brace_notMem_toDigits _)
            (brace_notMem_toDigits _) h
          exact ⟨Char.ext (UInt32.toNat_inj.mp (toDigits_injective hdigits)), htail⟩

/-- A quoted text at the start of a text tells the text that is quoted and where the rest begins. -/
theorem shown_append_inj {r s : String} {t u : List Char}
    (h : (shown r).toList ++ t = (shown s).toList ++ u) : r = s ∧ t = u := by
  have hbody : ∀ cs ds : List Char,
      cs.flatMap showChar ++ '"' :: t = ds.flatMap showChar ++ '"' :: u → cs = ds ∧ t = u := by
    intro cs
    induction cs with
    | nil =>
        intro ds h
        cases ds with
        | nil => exact ⟨rfl, (List.cons.inj h).2⟩
        | cons d ds =>
            rw [List.flatMap_cons, List.append_assoc] at h
            exact absurd h.symm (spelled_showChar d).ne_quote
    | cons c cs ih =>
        intro ds h
        rw [List.flatMap_cons, List.append_assoc] at h
        cases ds with
        | nil => exact absurd h (spelled_showChar c).ne_quote
        | cons d ds =>
            rw [List.flatMap_cons, List.append_assoc] at h
            obtain ⟨rfl, hrest⟩ := (spelled_showChar c).append_inj (spelled_showChar d) h
            obtain ⟨rfl, htail⟩ := ih ds hrest
            exact ⟨rfl, htail⟩
  rw [shown, shown, String.toList_ofList, String.toList_ofList, List.append_assoc,
    List.append_assoc] at h
  obtain ⟨hchars, htail⟩ := hbody _ _ (List.cons.inj h).2
  exact ⟨String.toList_inj.mp hchars, htail⟩

end DesignTokens.Text
