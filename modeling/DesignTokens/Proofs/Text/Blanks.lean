import DesignTokens.Text.Basic
import DesignTokens.Text.Blank
import DesignTokens.Proofs.Text.Bytes
import Mathlib.Data.List.TakeWhile

/-!
Blanks at the ends of texts, which are taken away or filled up to a width.
-/

namespace DesignTokens.Text

section Trim

variable {front tail cs : List Char} {c : Char}

theorem trimStart_append_of_blank (h : ∀ c ∈ front, isBlank c = true) :
    trimStart (front ++ cs) = trimStart cs := by
  have hfront : front.dropWhile isBlank = [] := List.dropWhile_eq_nil_iff.mpr h
  rw [trimStart, List.dropWhile_append, hfront]
  rfl

theorem trimStart_cons (h : isBlank c = false) : trimStart (c :: cs) = c :: cs :=
  List.dropWhile_cons_of_neg (Bool.eq_false_iff.mp h)

theorem trimEnd_append (h : isBlank c = false) (front tail : List Char) :
    trimEnd (front ++ c :: tail) = front ++ c :: trimEnd tail := by
  have hrest : (tail.reverse ++ [c]).dropWhile isBlank = tail.reverse.dropWhile isBlank ++ [c] := by
    rw [List.dropWhile_append]
    split
    · rename_i hempty
      rw [List.isEmpty_iff.mp hempty, List.dropWhile_cons_of_neg (Bool.eq_false_iff.mp h)]
      rfl
    · rfl
  rw [trimEnd, List.reverse_append, List.reverse_cons, List.dropWhile_append, hrest,
    if_neg (by simp)]
  simp [trimEnd]

theorem isPrefix_trimEnd (cs : List Char) : trimEnd cs <+: cs := by
  have hsuffix : cs.reverse.dropWhile isBlank <:+ cs.reverse := List.dropWhile_suffix _
  have hreversed := List.reverse_prefix.mpr hsuffix
  rwa [List.reverse_reverse] at hreversed

theorem trim_append_of_blank (h : ∀ c ∈ front, isBlank c = true) :
    trim (front ++ cs) = trim cs := by
  rw [trim, trimStart_append_of_blank h, trim]

end Trim

section Pad

theorem toList_times (c : Char) (n : Nat) :
    (times (String.singleton c) n).toList = List.replicate n c := by
  induction n with
  | zero => rfl
  | succ n ih =>
      rw [times, String.toList_append, ih, String.toList_singleton, List.replicate_succ]
      rfl

theorem toList_padEnd (width : Nat) (s : String) :
    (padEnd width s).toList = s.toList ++ List.replicate (width - s.length) ' ' := by
  rw [padEnd, String.toList_append]
  exact congrArg _ (toList_times ' ' _)

theorem toList_padStart (width : Nat) (s : String) :
    (padStart width s).toList = List.replicate (width - s.length) ' ' ++ s.toList := by
  rw [padStart, String.toList_append]
  exact congrArg (· ++ s.toList) (toList_times ' ' _)

/-- A text has at least as many bytes as characters. -/
theorem length_le_utf8ByteSize (s : String) : s.length ≤ s.utf8ByteSize := by
  have hbytes : s.utf8ByteSize = (s.toList.flatMap String.utf8EncodeChar).length := by
    rw [← bytes_eq]
    rfl
  rw [hbytes, ← String.length_toList]
  induction s.toList with
  | nil => exact Nat.zero_le _
  | cons c cs ih =>
      have hc : 0 < (String.utf8EncodeChar c).length :=
        List.length_pos_iff.mpr String.utf8EncodeChar_ne_nil
      rw [List.flatMap_cons, List.length_append, List.length_cons]
      omega

end Pad

end DesignTokens.Text
