import DesignTokens.Proofs.Keyed
import DesignTokens.Proofs.Text.Bytes
import DesignTokens.Style.Stylesheet
import Mathlib.Data.List.Induction
import Mathlib.Data.List.Sort

/-!
The groups of a stylesheet. Each holds the tokens of one category in their order; one after the other
they are the tokens sorted by category, where tokens of one category keep their order.
-/

namespace DesignTokens

section Stable

variable {α κ : Type} [LinearOrder κ] {key : α → κ} {l m : List α}

theorem mem_iff_of_filter (h : ∀ k, l.filter (key · = k) = m.filter (key · = k)) (a : α) :
    a ∈ l ↔ a ∈ m := by
  have hfilter : a ∈ l.filter (key · = key a) ↔ a ∈ m.filter (key · = key a) := by rw [h]
  simpa using hfilter

/-- A list that is sorted by a key is determined by its elements with each key, in their order. -/
theorem eq_of_pairwise_of_filter (hl : l.Pairwise fun a b => key a ≤ key b)
    (hm : m.Pairwise fun a b => key a ≤ key b)
    (h : ∀ k, l.filter (key · = k) = m.filter (key · = k)) : l = m := by
  induction l generalizing m with
  | nil =>
      refine (List.eq_nil_iff_forall_not_mem.mpr fun a ha => ?_).symm
      exact List.not_mem_nil ((mem_iff_of_filter h a).mpr ha)
  | cons a l ih =>
      cases m with
      | nil => exact absurd ((mem_iff_of_filter h a).mp List.mem_cons_self) List.not_mem_nil
      | cons b m =>
          obtain ⟨hfirst, hleft⟩ := List.pairwise_cons.mp hl
          obtain ⟨hother, hright⟩ := List.pairwise_cons.mp hm
          have hab : key a ≤ key b := by
            rcases List.mem_cons.mp ((mem_iff_of_filter h b).mpr List.mem_cons_self) with rfl | hb
            · exact le_rfl
            · exact hfirst b hb
          have hba : key b ≤ key a := by
            rcases List.mem_cons.mp ((mem_iff_of_filter h a).mp List.mem_cons_self) with rfl | ha
            · exact le_rfl
            · exact hother a ha
          have hkey : key b = key a := le_antisymm hba hab
          have hheads := h (key a)
          rw [List.filter_cons, List.filter_cons, if_pos (decide_eq_true rfl),
            if_pos (decide_eq_true hkey)] at hheads
          obtain ⟨rfl, -⟩ := List.cons.inj hheads
          have htails : ∀ k, l.filter (key · = k) = m.filter (key · = k) := fun k => by
            have hk := h k
            rw [List.filter_cons, List.filter_cons] at hk
            split at hk
            · exact (List.cons.inj hk).2
            · exact hk
          have htail : l = m := ih hleft hright htails
          rw [htail]

end Stable

section Groups

variable {tokens : List Token} {groups : List (String × List Token)}

theorem groupByCategory_concat (tokens : List Token) (t : Token) :
    groupByCategory (tokens ++ [t]) = addToGroup (groupByCategory tokens) t :=
  List.foldl_concat _ _ _ _

theorem ascending_groupByCategory (tokens : List Token) :
    Keyed.Ascending (groupByCategory tokens) := by
  induction tokens using List.reverseRecOn with
  | nil => exact .nil
  | append_singleton tokens t ih =>
      rw [groupByCategory_concat, addToGroup]
      exact ih.putSorted

/-- The group of a category has the tokens of the category; there is none without tokens. -/
theorem getD_groupByCategory (tokens : List Token) (c : String) :
    (Keyed.get? c (groupByCategory tokens)).getD [] = tokens.filter (·.category = c) := by
  induction tokens using List.reverseRecOn with
  | nil => rfl
  | append_singleton tokens t ih =>
      rw [groupByCategory_concat, addToGroup, Keyed.get?_putSorted, List.filter_append]
      by_cases hc : c = t.category
      · subst hc
        rw [if_pos rfl, Option.getD_some, ih, List.filter_singleton]
        simp
      · rw [if_neg hc, ih, List.filter_singleton]
        simp [Ne.symm hc]

theorem exists_of_mem_keys_groupByCategory {c : String}
    (h : c ∈ Keyed.keys (groupByCategory tokens)) : ∃ t ∈ tokens, t.category = c := by
  induction tokens using List.reverseRecOn with
  | nil => exact absurd h List.not_mem_nil
  | append_singleton tokens t ih =>
      rw [groupByCategory_concat, addToGroup] at h
      rcases Keyed.mem_keys_putSorted h with rfl | h
      · exact ⟨t, List.mem_append_right _ (List.mem_singleton_self t), rfl⟩
      · obtain ⟨u, hu, hc⟩ := ih h
        exact ⟨u, List.mem_append_left _ hu, hc⟩

theorem eq_filter_of_mem_group {group : String × List Token} (h : group ∈ groupByCategory tokens) :
    group.2 = tokens.filter (·.category = group.1) := by
  rw [← getD_groupByCategory, Keyed.get?_of_mem (ascending_groupByCategory tokens).nodup h,
    Option.getD_some]

theorem category_of_mem_group {group : String × List Token} (h : group ∈ groupByCategory tokens)
    {t : Token} (ht : t ∈ group.2) : t.category = group.1 := by
  rw [eq_filter_of_mem_group h] at ht
  exact of_decide_eq_true (List.mem_filter.mp ht).2

theorem flatMap_ite_key {α : Type} {groups : List (String × List α)}
    (h : (Keyed.keys groups).Nodup) (c : String) :
    (groups.flatMap fun group => if group.1 = c then group.2 else []) =
      (Keyed.get? c groups).getD [] := by
  induction groups with
  | nil => rfl
  | cons group rest ih =>
      obtain ⟨k, items⟩ := group
      obtain ⟨hk, hrest⟩ := List.nodup_cons.mp h
      rw [List.flatMap_cons, ih hrest, Keyed.get?]
      by_cases hkc : k = c
      · subst hkc
        rw [if_pos rfl, if_pos rfl, Keyed.get?_eq_none_iff.mpr hk]
        exact List.append_nil items
      · rw [if_neg hkc, if_neg hkc, List.nil_append]

theorem filter_groupByCategory (tokens : List Token) (c : String) :
    ((groupByCategory tokens).flatMap Prod.snd).filter (·.category = c) =
      tokens.filter (·.category = c) := by
  have hgroup : ∀ group ∈ groupByCategory tokens,
      group.2.filter (·.category = c) = if group.1 = c then group.2 else [] := by
    intro group hmem
    split
    · rename_i hc
      exact List.filter_eq_self.mpr fun t ht =>
        decide_eq_true ((category_of_mem_group hmem ht).trans hc)
    · rename_i hc
      exact List.filter_eq_nil_iff.mpr fun t ht hcategory =>
        hc ((category_of_mem_group hmem ht).symm.trans (of_decide_eq_true hcategory))
  rw [List.filter_flatMap, List.flatMap_congr hgroup,
    flatMap_ite_key (ascending_groupByCategory tokens).nodup, getD_groupByCategory]

theorem pairwise_groupByCategory (tokens : List Token) :
    ((groupByCategory tokens).flatMap Prod.snd).Pairwise fun t u => t.category ≤ u.category := by
  rw [List.pairwise_flatMap]
  refine ⟨fun group hgroup => ?_, ?_⟩
  · refine List.pairwise_of_forall_mem_list fun t ht u hu => ?_
    rw [category_of_mem_group hgroup ht, category_of_mem_group hgroup hu]
  · have hascending := List.pairwise_map.mp (ascending_groupByCategory tokens)
    refine hascending.imp_of_mem fun hgroup hother hlt t ht u hu => ?_
    rw [category_of_mem_group hgroup ht, category_of_mem_group hother hu]
    exact hlt.le

/-- The tokens sorted by the bytes of their categories; tokens of one category keep their order. -/
def byCategory (tokens : List Token) : List Token :=
  tokens.mergeSort fun t u => decide (Text.bytes t.category ≤ Text.bytes u.category)

theorem byCategory_eq (tokens : List Token) :
    byCategory tokens = tokens.mergeSort fun t u => decide (t.category ≤ u.category) := by
  simp only [byCategory, Text.bytes_le_iff]

theorem category_le_trans (t u v : Token) (htu : decide (t.category ≤ u.category) = true)
    (huv : decide (u.category ≤ v.category) = true) : decide (t.category ≤ v.category) = true :=
  decide_eq_true ((of_decide_eq_true htu).trans (of_decide_eq_true huv))

theorem category_le_total (t u : Token) :
    (decide (t.category ≤ u.category) || decide (u.category ≤ t.category)) = true := by
  rw [Bool.or_eq_true, decide_eq_true_iff, decide_eq_true_iff]
  exact le_total _ _

theorem pairwise_byCategory (tokens : List Token) :
    (byCategory tokens).Pairwise fun t u => t.category ≤ u.category := by
  rw [byCategory_eq]
  exact (List.pairwise_mergeSort category_le_trans category_le_total tokens).imp of_decide_eq_true

theorem filter_byCategory (tokens : List Token) (c : String) :
    (byCategory tokens).filter (·.category = c) = tokens.filter (·.category = c) := by
  have hsorted : (tokens.filter (·.category = c)).Pairwise fun t u =>
      decide (t.category ≤ u.category) = true := by
    refine List.pairwise_of_forall_mem_list fun t ht u hu => decide_eq_true ?_
    rw [of_decide_eq_true (List.mem_filter.mp ht).2, of_decide_eq_true (List.mem_filter.mp hu).2]
  have hsublist : (tokens.filter (·.category = c)).Sublist (byCategory tokens) := by
    rw [byCategory_eq]
    exact List.sublist_mergeSort category_le_trans category_le_total hsorted List.filter_sublist
  have hfiltered := hsublist.filter (·.category = c)
  rw [List.filter_filter] at hfiltered
  simp only [Bool.and_self] at hfiltered
  refine (hfiltered.eq_of_length ?_).symm
  exact (((List.mergeSort_perm _ _).filter _).length_eq).symm

theorem flatMap_groupByCategory (tokens : List Token) :
    (groupByCategory tokens).flatMap Prod.snd = byCategory tokens :=
  eq_of_pairwise_of_filter (pairwise_groupByCategory tokens) (pairwise_byCategory tokens) fun c =>
    (filter_groupByCategory tokens c).trans (filter_byCategory tokens c).symm

end Groups

end DesignTokens
