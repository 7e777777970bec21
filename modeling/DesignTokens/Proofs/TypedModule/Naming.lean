import DesignTokens.Proofs.Text.Digits
import DesignTokens.Proofs.Token.Categories
import DesignTokens.TypedModule.Write
import Mathlib.Data.List.Basic
import Mathlib.Data.List.Nodup
import Mathlib.Data.Nat.Basic
import Mathlib.Data.String.Basic

/-!
How the names of categories are chosen. The search for a free number comes to an end because there
are more numbers to try than constants that are taken.
-/

namespace DesignTokens

namespace ModuleName

variable {taken : List String}

theorem numbered_injective (start : String) :
    Function.Injective fun n : Nat => start ++ n.repr :=
  fun _ _ h => Text.repr_injective ((String.append_right_inj start).mp h)

/-- Among more numbers than there are taken constants, one is free. -/
theorem exists_free (taken : List String) (start : String) :
    ∃ n ∈ List.range' 2 (taken.length + 1), start ++ n.repr ∉ taken := by
  by_contra hall
  push Not at hall
  have hnodup : ((List.range' 2 (taken.length + 1)).map fun n => start ++ n.repr).Nodup :=
    (List.nodup_range' 1).map (numbered_injective start)
  have hsubset : ((List.range' 2 (taken.length + 1)).map fun n => start ++ n.repr) ⊆ taken := by
    intro name hname
    obtain ⟨n, hn, rfl⟩ := List.mem_map.mp hname
    exact hall n hn
  have hlength := hnodup.length_le_of_subset hsubset
  rw [List.length_map, List.length_range'] at hlength
  omega

/-- The number at which a search from two on ends: it is free, all smaller ones are taken, and the
search took no more turns than there are taken constants. -/
structure IsFree (taken : List String) (start : String) (n : Nat) : Prop where
  ge : 2 ≤ n
  le : n ≤ taken.length + 2
  free : start ++ n.repr ∉ taken
  least : ∀ m, 2 ≤ m → m < n → start ++ m.repr ∈ taken

theorem isFree_freeNumber (taken : List String) (start : String) :
    IsFree taken start (freeNumber taken start) := by
  obtain ⟨n, hn, hfree⟩ := exists_free taken start
  have hsome : ((List.range' 2 (taken.length + 1)).find?
      fun n => start ++ n.repr ∉ taken).isSome :=
    List.find?_isSome.mpr ⟨n, hn, decide_eq_true hfree⟩
  obtain ⟨found, hfound⟩ := Option.isSome_iff_exists.mp hsome
  obtain ⟨hnot, hrange, hleast⟩ := List.find?_range'_eq_some.mp hfound
  rw [freeNumber, hfound, Option.getD_some]
  rw [List.mem_range'_1] at hrange
  exact
    { ge := hrange.1
      le := by omega
      free := of_decide_eq_true hnot
      least := fun m hm hlt => by simpa using hleast m hm hlt }

/-- The names of a category next to constants that are taken: its natural ones if its constant is
free, else those with the first number that is free. -/
inductive Chosen (taken : List String) (c : String) : ModuleName → Prop
  | natural (h : constantName c ∉ taken) : Chosen taken c (natural c)
  | numbered (n : Nat) (h : constantName c ∈ taken) (hn : IsFree taken (constantName c) n) :
      Chosen taken c ((ModuleName.natural c).numbered n)

theorem chosen_choose (taken : List String) (c : String) : Chosen taken c (choose taken c) := by
  rw [choose]
  split
  · rename_i h
    exact .numbered _ h (isFree_freeNumber taken _)
  · rename_i h
    exact .natural h

namespace Chosen

variable {c : String} {name : ModuleName}

theorem category_eq (h : Chosen taken c name) : name.category = c := by
  cases h <;> rfl

theorem notMem (h : Chosen taken c name) : name.constant ∉ taken := by
  cases h with
  | natural h => exact h
  | numbered n _ hn => exact hn.free

/-- A category keeps its natural constant if and only if no one has it. -/
theorem constant_eq_iff (h : Chosen taken c name) :
    name.constant = constantName c ↔ constantName c ∉ taken := by
  constructor
  · intro heq hmem
    exact h.notMem (heq ▸ hmem)
  · intro hfree
    cases h with
    | natural _ => rfl
    | numbered n hmem _ => exact absurd hmem hfree

end Chosen

theorem map_category_chooseEach (taken categories : List String) :
    (chooseEach taken categories).map category = categories := by
  induction categories generalizing taken with
  | nil => rfl
  | cons c rest ih =>
      rw [chooseEach, List.map_cons, ih, (chosen_choose taken c).category_eq]

@[simp] theorem map_category_ofCategories (categories : List String) :
    (ofCategories categories).map category = categories :=
  map_category_chooseEach [] categories

theorem category_mem_of_mem {categories : List String} {name : ModuleName}
    (h : name ∈ ofCategories categories) : name.category ∈ categories := by
  have hcategory : name.category ∈ (ofCategories categories).map category := List.mem_map_of_mem h
  rwa [map_category_ofCategories] at hcategory

/-- Each name is chosen next to the constants of the earlier ones. -/
theorem chosen_of_chooseEach {categories : List String} {before later : List ModuleName}
    {name : ModuleName} (h : chooseEach taken categories = before ++ name :: later) :
    Chosen (taken ++ before.map constant) name.category name := by
  induction categories generalizing taken before with
  | nil => exact absurd h.symm (List.append_ne_nil_of_right_ne_nil before (List.cons_ne_nil _ _))
  | cons c rest ih =>
      rw [chooseEach] at h
      cases before with
      | nil =>
          obtain ⟨rfl, -⟩ := List.cons.inj h
          have hchosen := chosen_choose taken c
          rw [List.map_nil, List.append_nil, hchosen.category_eq]
          exact hchosen
      | cons first before =>
          obtain ⟨rfl, hrest⟩ := List.cons.inj h
          rw [List.map_cons, List.append_cons]
          exact ih hrest

theorem chosen_of_ofCategories {categories : List String} {before later : List ModuleName}
    {name : ModuleName} (h : ofCategories categories = before ++ name :: later) :
    Chosen (before.map constant) name.category name :=
  chosen_of_chooseEach h

theorem notMem_of_mem_chooseEach {categories : List String} {name : ModuleName}
    (h : name ∈ chooseEach taken categories) : name.constant ∉ taken := by
  obtain ⟨before, later, hsplit⟩ := List.append_of_mem h
  have hnew := (chosen_of_chooseEach hsplit).notMem
  rw [List.mem_append, not_or] at hnew
  exact hnew.1

theorem nodup_constants_chooseEach (taken categories : List String) :
    ((chooseEach taken categories).map constant).Nodup := by
  induction categories generalizing taken with
  | nil => exact List.nodup_nil
  | cons c rest ih =>
      rw [chooseEach, List.map_cons, List.nodup_cons]
      refine ⟨fun hmem => ?_, ih _⟩
      obtain ⟨name, hname, heq⟩ := List.mem_map.mp hmem
      have hnew := notMem_of_mem_chooseEach hname
      rw [heq] at hnew
      exact hnew (List.mem_append_right _ List.mem_cons_self)

theorem nodup_constants (categories : List String) :
    ((ofCategories categories).map constant).Nodup :=
  nodup_constants_chooseEach [] categories

theorem nodup_ofCategories (categories : List String) : (ofCategories categories).Nodup :=
  (nodup_constants categories).of_map

end ModuleName

namespace TypedModule

variable {tokens tokens' : List Token}

theorem mem_sortedCategories_iff {category : String} :
    category ∈ sortedCategories tokens ↔ ∃ t ∈ tokens, t.category = category := by
  rw [sortedCategories, List.mem_mergeSort, mem_categoriesOf_iff]

theorem nodup_sortedCategories (tokens : List Token) : (sortedCategories tokens).Nodup :=
  (List.mergeSort_perm _ _).nodup_iff.mpr (nodup_categoriesOf tokens)

@[simp] theorem sortedCategories_nil : sortedCategories [] = [] := by
  rw [sortedCategories, categoriesOf, List.foldl_nil, List.mergeSort_nil]

theorem sortedCategories_ne_nil (h : tokens ≠ []) : sortedCategories tokens ≠ [] := by
  obtain ⟨t, rest, rfl⟩ := List.exists_cons_of_ne_nil h
  exact List.ne_nil_of_mem (mem_sortedCategories_iff.mpr ⟨t, List.mem_cons_self, rfl⟩)

theorem sortedCategories_of_pairwise (h : (categoriesOf tokens).Pairwise fun a b => ¬ b < a) :
    sortedCategories tokens = categoriesOf tokens :=
  List.mergeSort_of_pairwise (h.imp fun hab => by simpa using hab)

/-- The order of tokens does not show in their sorted categories. -/
theorem sortedCategories_congr (h : tokens.Perm tokens') :
    sortedCategories tokens = sortedCategories tokens' := by
  have htrans : ∀ a b c : String, (!(b < a) : Bool) → (!(c < b) : Bool) → (!(c < a) : Bool) := by
    simp only [Bool.not_eq_true', decide_eq_false_iff_not, not_lt]
    exact fun a b c => le_trans
  have htotal : ∀ a b : String, (!(b < a) || !(a < b) : Bool) := by
    simp only [Bool.or_eq_true, Bool.not_eq_true', decide_eq_false_iff_not, not_lt]
    exact fun a b => le_total a b
  refine List.Perm.eq_of_pairwise ?_ (List.pairwise_mergeSort htrans htotal _)
    (List.pairwise_mergeSort htrans htotal _) ?_
  · simp only [Bool.not_eq_true', decide_eq_false_iff_not, not_lt]
    exact fun a b _ _ => le_antisymm
  · exact (List.mergeSort_perm _ _).trans
      ((categoriesOf_perm h).trans (List.mergeSort_perm _ _).symm)

/-- The modules of tokens are those of their categories. -/
theorem exists_of_mem_ofCategories {name : ModuleName}
    (h : name ∈ ModuleName.ofCategories (sortedCategories tokens)) :
    ∃ t ∈ tokens, t.category = name.category :=
  mem_sortedCategories_iff.mp (ModuleName.category_mem_of_mem h)

end TypedModule

end DesignTokens
