import DesignTokens.Proofs.Keyed
import DesignTokens.Proofs.Workspace.PathNames

/-!
Trees in which every file and directory has a proper name and lies in a directory, and what changes
of a tree do to them.
-/

namespace DesignTokens

/-- A location strictly below another one. -/
def Below (l m : Location) : Prop :=
  l <+: m ∧ m ≠ l

instance (l m : Location) : Decidable (Below l m) :=
  inferInstanceAs (Decidable (_ ∧ _))

namespace Below

theorem not_nil {l : Location} : ¬ Below l [] := by
  rintro ⟨hinit, hne⟩
  exact hne (List.prefix_nil.mp hinit).symm

theorem trans_le {l m n : Location} (h : Below l m) (hn : m <+: n) : Below l n := by
  refine ⟨h.1.trans hn, ?_⟩
  rintro rfl
  exact h.2 (List.IsPrefix.eq_of_length_le hn h.1.length_le)

theorem of_le {l m n : Location} (hm : l <+: m) (h : Below m n) : Below l n := by
  refine ⟨hm.trans h.1, ?_⟩
  rintro rfl
  exact h.2 (List.IsPrefix.eq_of_length_le hm h.1.length_le)

theorem append {l : Location} {names : List String} (h : names ≠ []) : Below l (l ++ names) := by
  refine ⟨List.prefix_append l names, ?_⟩
  simpa using h

theorem iff_append {l m : Location} : Below l m ↔ ∃ names, names ≠ [] ∧ m = l ++ names := by
  constructor
  · rintro ⟨⟨names, rfl⟩, hne⟩
    exact ⟨names, by simpa using hne, rfl⟩
  · rintro ⟨names, hne, rfl⟩
    exact append hne

end Below

/-- One location lies at or below the other. -/
def Overlap (l m : Location) : Prop :=
  l <+: m ∨ m <+: l

instance (l m : Location) : Decidable (Overlap l m) :=
  inferInstanceAs (Decidable (_ ∨ _))

theorem Overlap.of_common {l m n : Location} (hl : l <+: n) (hm : m <+: n) : Overlap l m :=
  List.prefix_or_prefix_of_prefix hl hm

namespace FileTree

variable {t : FileTree} {l m : Location} {n : Node}

@[simp] theorem lookup_nil : t.lookup [] = some .directory := by
  rw [lookup]

theorem lookup_of_ne_nil (h : l ≠ []) : t.lookup l = Keyed.get? l t.nodes := by
  rw [lookup]
  exact h

theorem lookup_set (h : l ≠ []) :
    (t.set l n).lookup m = if m = l then some n else t.lookup m := by
  by_cases hm : m = []
  · subst hm
    rw [lookup_nil, lookup_nil, if_neg (Ne.symm h)]
  · rw [lookup_of_ne_nil hm, lookup_of_ne_nil hm, set, Keyed.get?_put]

theorem lookup_set_self (h : l ≠ []) : (t.set l n).lookup l = some n := by
  rw [lookup_set h, if_pos rfl]

theorem lookup_set_of_ne (h : l ≠ []) (hm : m ≠ l) : (t.set l n).lookup m = t.lookup m := by
  rw [lookup_set h, if_neg hm]

theorem lookup_prune (h : l ≠ []) :
    (t.prune l).lookup m = if l <+: m then none else t.lookup m := by
  by_cases hm : m = []
  · subst hm
    rw [lookup_nil, lookup_nil, if_neg (by rwa [List.prefix_nil])]
  · rw [lookup_of_ne_nil hm, lookup_of_ne_nil hm, prune, Keyed.get?_filter (p := fun k => !l.isPrefixOf k)]
    by_cases hinit : l <+: m
    · simp [hinit, List.isPrefixOf_iff_prefix.mpr hinit]
    · simp [hinit, List.isPrefixOf_iff_prefix]

theorem lookup_clear : (t.clear l).lookup m = if Below l m then none else t.lookup m := by
  by_cases hm : m = []
  · subst hm
    rw [lookup_nil, lookup_nil, if_neg Below.not_nil]
  · rw [lookup_of_ne_nil hm, lookup_of_ne_nil hm, clear,
      Keyed.get?_filter (p := fun k => !(l.isPrefixOf k && k != l))]
    have hbelow : (l.isPrefixOf m && m != l) = decide (Below l m) := by
      rw [Bool.eq_iff_iff, Bool.and_eq_true, List.isPrefixOf_iff_prefix, bne_iff_ne,
        decide_eq_true_iff, Below]
    by_cases h : Below l m <;> simp [hbelow, h]

theorem mem_nodes_of_lookup (hne : l ≠ []) (h : t.lookup l = some n) : (l, n) ∈ t.nodes := by
  rw [lookup_of_ne_nil hne] at h
  exact Keyed.mem_of_get? h

theorem mem_keys_of_lookup (hne : l ≠ []) (h : (t.lookup l).isSome) : l ∈ Keyed.keys t.nodes := by
  rwa [lookup_of_ne_nil hne, Keyed.isSome_get?_iff] at h

/-- Every file and directory has proper names on its way and lies in a directory. -/
structure WellFormed (t : FileTree) : Prop where
  nodup : (Keyed.keys t.nodes).Nodup
  ne_nil : ∀ l ∈ Keyed.keys t.nodes, l ≠ []
  proper : ∀ l ∈ Keyed.keys t.nodes, ∀ name ∈ l, ProperName name
  grounded : ∀ l ∈ Keyed.keys t.nodes, t.lookup l.dropLast = some .directory

instance (t : FileTree) : Decidable t.WellFormed :=
  decidable_of_iff ((Keyed.keys t.nodes).Nodup ∧ (∀ l ∈ Keyed.keys t.nodes, l ≠ []) ∧
      (∀ l ∈ Keyed.keys t.nodes, ∀ name ∈ l, ProperName name) ∧
      ∀ l ∈ Keyed.keys t.nodes, t.lookup l.dropLast = some .directory)
    ⟨fun ⟨hnodup, hne, hproper, hgrounded⟩ => ⟨hnodup, hne, hproper, hgrounded⟩,
      fun ⟨hnodup, hne, hproper, hgrounded⟩ => ⟨hnodup, hne, hproper, hgrounded⟩⟩

namespace WellFormed

theorem lookup_dropLast (hwf : t.WellFormed) (h : (t.lookup l).isSome) :
    t.lookup l.dropLast = some .directory := by
  by_cases hne : l = []
  · subst hne
    exact lookup_nil
  · exact hwf.grounded l (mem_keys_of_lookup hne h)

theorem proper_of_lookup (hwf : t.WellFormed) (h : (t.lookup l).isSome) :
    ∀ name ∈ l, ProperName name := by
  by_cases hne : l = []
  · subst hne
    exact fun name hname => absurd hname List.not_mem_nil
  · exact hwf.proper l (mem_keys_of_lookup hne h)

/-- What lies above a file or directory is a directory. -/
theorem lookup_of_below (hwf : t.WellFormed) (h : Below l m) (hm : (t.lookup m).isSome) :
    t.lookup l = some .directory := by
  obtain ⟨names, hne, rfl⟩ := Below.iff_append.mp h
  clear h
  induction names using List.reverseRecOn with
  | nil => exact absurd rfl hne
  | append_singleton names name ih =>
      have hup := hwf.lookup_dropLast hm
      rw [← List.append_assoc, List.dropLast_concat] at hup
      cases names with
      | nil => rwa [List.append_nil] at hup
      | cons first rest => exact ih (List.cons_ne_nil _ _) (by rw [hup]; rfl)

theorem lookup_below_eq_none (hwf : t.WellFormed) (h : Below l m)
    (hl : t.lookup l ≠ some .directory) : t.lookup m = none := by
  by_contra hm
  exact hl (hwf.lookup_of_below h (Option.isSome_iff_ne_none.mpr hm))

theorem set (hwf : t.WellFormed) {name : String} (hl : t.lookup l = some .directory)
    (hname : ProperName name)
    (hn : n = .directory ∨ t.lookup (l ++ [name]) ≠ some .directory) :
    (t.set (l ++ [name]) n).WellFormed := by
  have hkeys : ∀ m ∈ Keyed.keys (t.set (l ++ [name]) n).nodes,
      m ∈ Keyed.keys t.nodes ∨ m = l ++ [name] := by
    intro m hm
    rw [FileTree.set, Keyed.keys_put] at hm
    split at hm
    · exact .inl hm
    · exact (List.mem_append.mp hm).imp_right List.mem_singleton.mp
  have hkeep : ∀ m, t.lookup m = some .directory →
      (t.set (l ++ [name]) n).lookup m = some .directory := by
    intro m hm
    rw [lookup_set (List.append_ne_nil_of_right_ne_nil l (List.cons_ne_nil name []))]
    split
    · rename_i heq
      rcases hn with rfl | hn
      · rfl
      · exact absurd (heq ▸ hm) hn
    · exact hm
  refine ⟨Keyed.nodup_keys_put hwf.nodup, ?_, ?_, ?_⟩
  · intro m hm
    rcases hkeys m hm with hm | rfl
    · exact hwf.ne_nil m hm
    · simp
  · intro m hm
    rcases hkeys m hm with hm | rfl
    · exact hwf.proper m hm
    · intro other hother
      rcases List.mem_append.mp hother with hother | hother
      · exact hwf.proper_of_lookup (by rw [hl]; rfl) other hother
      · exact List.mem_singleton.mp hother ▸ hname
  · intro m hm
    rcases hkeys m hm with hm | rfl
    · exact hkeep _ (hwf.grounded m hm)
    · rw [List.dropLast_concat]
      exact hkeep l hl

theorem filter (hwf : t.WellFormed) {p : Location → Bool}
    (hp : ∀ l ∈ Keyed.keys t.nodes, p l → l.dropLast ≠ [] → p l.dropLast) :
    WellFormed ⟨t.nodes.filter fun entry => p entry.1⟩ := by
  have hsub : List.Sublist (Keyed.keys (t.nodes.filter fun entry => p entry.1))
      (Keyed.keys t.nodes) := List.filter_sublist.map Prod.fst
  refine ⟨hwf.nodup.sublist hsub, fun l hl => hwf.ne_nil l (hsub.subset hl),
    fun l hl => hwf.proper l (hsub.subset hl), ?_⟩
  intro l hl
  obtain ⟨entry, hentry, rfl⟩ := List.mem_map.mp hl
  have hpl : p entry.1 := (List.mem_filter.mp hentry).2
  have hground := hwf.grounded entry.1 (hsub.subset hl)
  by_cases hnil : entry.1.dropLast = []
  · rw [hnil, lookup_nil]
  · rw [lookup_of_ne_nil hnil] at hground ⊢
    rw [Keyed.get?_filter, if_pos (hp entry.1 (hsub.subset hl) hpl hnil), hground]

theorem prune (hwf : t.WellFormed) : (t.prune l).WellFormed := by
  refine hwf.filter (p := fun m => !l.isPrefixOf m) ?_
  intro m _ hm _
  simp only [Bool.not_eq_true', ← Bool.not_eq_true, List.isPrefixOf_iff_prefix] at hm ⊢
  exact fun h => hm <| h.trans <| List.dropLast_prefix m

theorem clear (hwf : t.WellFormed) : (t.clear l).WellFormed := by
  refine hwf.filter (p := fun m => !(l.isPrefixOf m && m != l)) ?_
  intro m _ hm _
  simp only [Bool.not_eq_true', ← Bool.not_eq_true, Bool.and_eq_true,
    List.isPrefixOf_iff_prefix, bne_iff_ne] at hm ⊢
  exact fun h => hm <| Below.trans_le h <| List.dropLast_prefix m

end WellFormed

end FileTree

end DesignTokens
