import DesignTokens.Token.Basic
import Mathlib.Data.List.Basic
import Mathlib.Data.String.Basic

/-!
The characters of a property's name, told from the token's path and from its dotted path.
-/

namespace DesignTokens

open CustomProperty

/-- The characters of a name behind its stem. -/
def nameChars (path : List String) : List Char :=
  path.flatMap fun segment => '-' :: segment.toList

theorem toList_name (stem : String) (path : List String) :
    (name stem path).toList = "--".toList ++ stem.toList ++ nameChars path := by
  have hfold : ∀ (path : List String) (start : String),
      (path.foldl (fun text segment => text ++ "-" ++ segment) start).toList =
        start.toList ++ nameChars path := by
    intro path
    induction path with
    | nil => simp [nameChars]
    | cons segment rest ih =>
        intro start
        rw [List.foldl_cons, ih]
        simp [nameChars]
  rw [name, hfold, String.toList_append]

theorem toList_hyphenated (text : String) :
    (hyphenated text).toList = text.toList.map fun c => if c = '.' then '-' else c := by
  rw [hyphenated, String.toList_ofList]

theorem nameChars_map_hyphenated (path : List String) :
    nameChars (path.map hyphenated) =
      (nameChars path).map fun c => if c = '.' then '-' else c := by
  induction path with
  | nil => rfl
  | cons segment rest ih =>
      simp only [nameChars, List.map_cons, List.flatMap_cons, List.map_append] at ih ⊢
      rw [ih, toList_hyphenated]
      rfl

theorem toList_hyphenated_dotted {path : List String} (h : path ≠ []) :
    '-' :: (hyphenated (dotted path)).toList = nameChars (path.map hyphenated) := by
  rw [nameChars_map_hyphenated, toList_hyphenated, dotted]
  induction path with
  | nil => exact absurd rfl h
  | cons segment rest ih =>
      cases rest with
      | nil => simp [Text.join, nameChars]
      | cons next rest =>
          have hrest := ih (List.cons_ne_nil next rest)
          rw [nameChars, List.flatMap_cons, List.map_append, ← nameChars, ← hrest]
          simp [Text.join]

/-- A dotted path names what the path names once every dot in its segments is a hyphen. -/
theorem nameOfDotted_dotted (stem : String) {path : List String} (h : path ≠ []) :
    nameOfDotted stem (dotted path) = name stem (path.map hyphenated) := by
  apply String.toList_injective
  rw [toList_name, ← toList_hyphenated_dotted h, nameOfDotted]
  simp

/-- Both names are the same if there are no dots in the segments, and only then. -/
theorem name_map_hyphenated_iff {stem : String} {path : List String} :
    name stem (path.map hyphenated) = name stem path ↔ ∀ segment ∈ path, '.' ∉ segment.toList := by
  rw [← String.toList_inj, toList_name, toList_name, List.append_cancel_left_eq,
    nameChars_map_hyphenated]
  conv_lhs => rhs; rw [← List.map_id (nameChars path)]
  rw [List.map_inj_left]
  constructor
  · intro h segment hsegment hdot
    have hmem : '.' ∈ nameChars path :=
      List.mem_flatMap.mpr ⟨segment, hsegment, List.mem_cons_of_mem _ hdot⟩
    exact absurd (h '.' hmem) (by decide)
  · intro h c hc
    obtain ⟨segment, hsegment, hin⟩ := List.mem_flatMap.mp hc
    rcases List.mem_cons.mp hin with rfl | hin
    · rfl
    · refine if_neg ?_
      rintro rfl
      exact h segment hsegment hin

end DesignTokens
