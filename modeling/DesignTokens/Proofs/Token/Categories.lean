import DesignTokens.Token.Basic
import Mathlib.Data.List.Basic
import Mathlib.Data.List.Nodup

/-!
The categories of a list of tokens: each stands in the list once, whatever the order of the tokens.
-/

namespace DesignTokens

variable {tokens tokens' : List Token} {category : String}

/-- Adds the category of a token to those that were seen before. -/
def seeCategory (seen : List String) (t : Token) : List String :=
  if t.category ∈ seen then seen else seen ++ [t.category]

theorem mem_seeCategory_iff {seen : List String} {t : Token} :
    category ∈ seeCategory seen t ↔ category ∈ seen ∨ t.category = category := by
  rw [seeCategory]
  split
  · rename_i h
    refine (or_iff_left_of_imp ?_).symm
    rintro rfl
    exact h
  · rw [List.mem_append, List.mem_singleton, eq_comm (a := category)]

theorem mem_foldl_seeCategory_iff (seen : List String) :
    category ∈ tokens.foldl seeCategory seen ↔
      category ∈ seen ∨ ∃ t ∈ tokens, t.category = category := by
  induction tokens generalizing seen with
  | nil => simp
  | cons t rest ih =>
      rw [List.foldl_cons, ih, mem_seeCategory_iff, or_assoc, List.exists_mem_cons_iff]

theorem mem_categoriesOf_iff :
    category ∈ categoriesOf tokens ↔ ∃ t ∈ tokens, t.category = category :=
  (mem_foldl_seeCategory_iff []).trans (or_iff_right List.not_mem_nil)

theorem nodup_seeCategory {seen : List String} (h : seen.Nodup) (t : Token) :
    (seeCategory seen t).Nodup := by
  rw [seeCategory]
  split
  · exact h
  · rename_i hnew
    exact h.append (List.nodup_singleton _) (List.disjoint_singleton.mpr hnew)

theorem nodup_foldl_seeCategory {seen : List String} (h : seen.Nodup) :
    (tokens.foldl seeCategory seen).Nodup := by
  induction tokens generalizing seen with
  | nil => exact h
  | cons t rest ih => exact ih (nodup_seeCategory h t)

theorem nodup_categoriesOf (tokens : List Token) : (categoriesOf tokens).Nodup :=
  nodup_foldl_seeCategory List.nodup_nil

/-- The same tokens in another order have the same categories, in an order of their own. -/
theorem categoriesOf_perm (h : tokens.Perm tokens') :
    (categoriesOf tokens).Perm (categoriesOf tokens') := by
  refine (List.perm_ext_iff_of_nodup (nodup_categoriesOf _) (nodup_categoriesOf _)).mpr ?_
  intro category
  simp only [mem_categoriesOf_iff, h.mem_iff]

end DesignTokens
