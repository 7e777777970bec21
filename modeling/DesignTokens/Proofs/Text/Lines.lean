import DesignTokens.Text.Basic
import DesignTokens.Text.Blank
import Mathlib.Data.List.Basic
import Mathlib.Data.List.Infix
import Mathlib.Data.List.TakeWhile

/-!
Texts that are split at a mark after they were joined with it, line breaks among them.
-/

namespace DesignTokens.Text

theorem takeWhile_append_mark {mark : Char} {l t : List Char} (h : mark ∉ l) :
    (l ++ mark :: t).takeWhile (· ≠ mark) = l := by
  rw [List.takeWhile_append_of_pos, List.takeWhile_cons_of_neg (by simp), List.append_nil]
  intro c hc
  exact decide_eq_true fun heq => h (heq ▸ hc)

/-- Where a mark stands for the first time tells what is in front of it and behind it. -/
theorem append_mark_inj {mark : Char} {l m t u : List Char} (hl : mark ∉ l) (hm : mark ∉ m)
    (h : l ++ mark :: t = m ++ mark :: u) : l = m ∧ t = u := by
  obtain rfl : l = m := by rw [← takeWhile_append_mark (t := t) hl, h, takeWhile_append_mark hm]
  exact ⟨rfl, (List.cons.inj (List.append_cancel_left h)).2⟩

theorem splitAt_append_mark (mark : Char) (xs ys : List Char) :
    splitAt mark (xs ++ mark :: ys) = splitAt mark xs ++ splitAt mark ys := by
  induction xs with
  | nil => simp [splitAt]
  | cons c xs ih =>
      rw [List.cons_append, splitAt, splitAt, ih]
      split
      · rfl
      · cases hxs : splitAt mark xs with
        | nil => exact absurd hxs (splitAt_ne_nil mark xs)
        | cons part parts => rfl

theorem splitAt_of_not_mem {mark : Char} {cs : List Char} (h : mark ∉ cs) :
    splitAt mark cs = [cs] := by
  induction cs with
  | nil => rfl
  | cons c cs ih =>
      obtain ⟨hc, hcs⟩ := not_or.mp (mt List.mem_cons.mpr h)
      rw [splitAt, if_neg (Ne.symm hc), ih hcs]

theorem not_mem_of_mem_splitAt {mark : Char} {cs part : List Char} (h : part ∈ splitAt mark cs) :
    mark ∉ part := by
  induction cs generalizing part with
  | nil =>
      rw [List.mem_singleton.mp h]
      exact List.not_mem_nil
  | cons c cs ih =>
      rw [splitAt] at h
      split at h
      · rcases List.mem_cons.mp h with rfl | h
        · exact List.not_mem_nil
        · exact ih h
      · rename_i hc
        cases hcs : splitAt mark cs with
        | nil => exact absurd hcs (splitAt_ne_nil mark cs)
        | cons first rest =>
            rw [hcs] at h ih
            rcases List.mem_cons.mp h with rfl | h
            · rw [List.mem_cons, not_or]
              exact ⟨Ne.symm hc, ih List.mem_cons_self⟩
            · exact ih (List.mem_cons_of_mem _ h)

theorem splitAt_intercalate {mark : Char} {part : List Char} {parts : List (List Char)}
    (h : ∀ p ∈ part :: parts, mark ∉ p) :
    splitAt mark ([mark].intercalate (part :: parts)) = part :: parts := by
  induction parts generalizing part with
  | nil =>
      rw [List.intercalate_singleton]
      exact splitAt_of_not_mem (h part List.mem_cons_self)
  | cons next rest ih =>
      have hpart : mark ∉ part := h part List.mem_cons_self
      have hrest : ∀ p ∈ next :: rest, mark ∉ p := fun p hp => h p (List.mem_cons_of_mem _ hp)
      rw [List.intercalate_cons_cons, List.append_assoc, List.singleton_append,
        splitAt_append_mark, splitAt_of_not_mem hpart, ih hrest, List.singleton_append]

theorem intercalate_splitAt (mark : Char) (cs : List Char) :
    [mark].intercalate (splitAt mark cs) = cs := by
  induction cs with
  | nil => rfl
  | cons c cs ih =>
      obtain ⟨part, parts, hparts⟩ := List.exists_cons_of_ne_nil (splitAt_ne_nil mark cs)
      rw [splitAt]
      rw [hparts] at ih ⊢
      split
      · rename_i hc
        rw [List.intercalate_cons_cons, ih, hc]
        rfl
      · cases parts with
        | nil => rw [List.intercalate_singleton] at ih ⊢; rw [ih]
        | cons next rest =>
            rw [List.intercalate_cons_cons] at ih ⊢
            rw [← ih]
            rfl

theorem toList_join (separator : String) (parts : List String) :
    (join separator parts).toList = separator.toList.intercalate (parts.map String.toList) := by
  induction parts with
  | nil => rfl
  | cons part rest ih =>
      cases rest with
      | nil => simp [join]
      | cons next rest =>
          rw [join, String.toList_append, String.toList_append, ih]
          simp only [List.map_cons, List.intercalate_cons_cons]

theorem join_cons (separator part : String) {parts : List String} (h : parts ≠ []) :
    join separator (part :: parts) = part ++ separator ++ join separator parts := by
  obtain ⟨next, rest, rfl⟩ := List.exists_cons_of_ne_nil h
  rfl

theorem join_empty_cons (part : String) (parts : List String) :
    join "" (part :: parts) = part ++ join "" parts := by
  cases parts with
  | nil => exact String.append_empty.symm
  | cons next rest => rw [join_cons _ _ (List.cons_ne_nil next rest), String.append_empty]

theorem join_concat (separator part : String) {parts : List String} (h : parts ≠ []) :
    join separator (parts ++ [part]) = join separator parts ++ separator ++ part := by
  induction parts with
  | nil => exact absurd rfl h
  | cons first rest ih =>
      cases rest with
      | nil => rfl
      | cons next rest =>
          have hrest : next :: rest ≠ [] := List.cons_ne_nil next rest
          rw [List.cons_append, join_cons _ _ (List.append_ne_nil_of_left_ne_nil hrest _), ih hrest,
            join_cons _ _ hrest]
          simp only [String.append_assoc]

/-- Lines that were put one below the other are found again. -/
theorem splitAt_join {lines : List String} (hne : lines ≠ [])
    (h : ∀ line ∈ lines, '\n' ∉ line.toList) :
    splitAt '\n' (join "\n" lines).toList = lines.map String.toList := by
  obtain ⟨first, rest, rfl⟩ := List.exists_cons_of_ne_nil hne
  have hbreak : "\n".toList = ['\n'] := rfl
  rw [toList_join, hbreak, List.map_cons]
  refine splitAt_intercalate fun part hpart => ?_
  rw [← List.map_cons] at hpart
  obtain ⟨line, hline, rfl⟩ := List.mem_map.mp hpart
  exact h line hline

/-- Lines that end in a break each are found again in front of whatever follows. -/
theorem splitAt_flatMap_append {mark : Char} {lines : List (List Char)}
    (h : ∀ line ∈ lines, mark ∉ line) (rest : List Char) :
    splitAt mark (lines.flatMap (· ++ [mark]) ++ rest) = lines ++ splitAt mark rest := by
  induction lines with
  | nil => rfl
  | cons line lines ih =>
      obtain ⟨hline, hlines⟩ := List.forall_mem_cons.mp h
      rw [List.flatMap_cons, List.append_assoc, List.append_assoc, List.singleton_append,
        splitAt_append_mark, splitAt_of_not_mem hline, ih hlines]
      rfl

end DesignTokens.Text
