import DesignTokens.Proofs.TypedModule.Writing
import DesignTokens.Proofs.Workspace.Shape

/-!
The order of tokens and the names of modules. The trees of the modules may depend on the order, so two
runs are followed side by side that differ in what they write and not in where they write it.
-/

namespace DesignTokens

open Job

namespace TypedModule

variable {dir : Path} {tokens tokens' : List Token} {start : Place}

theorem parallel_generated (p : Path) (stamp body body' : String) :
    Parallel start (Generated.write p stamp body) (Generated.write p stamp body') :=
  .bind (.writeText _ _ p _ _) fun _ => .pure p

theorem parallel_writeModules (leaf : Token → Json.Value) (stamp : String)
    (names : List ModuleName) :
    Parallel start (writeModules dir tokens leaf stamp names)
      (writeModules dir tokens' leaf stamp names) := by
  induction names with
  | nil => exact .pure []
  | cons name rest ih =>
      exact .bind (.report _ _) fun _ => .bind (parallel_generated _ _ _ _) fun p =>
        .bind ih fun more => .pure (p :: more)

/-- Tokens in another order have modules of the same names, written in the same order. -/
theorem parallel_write (h : tokens.Perm tokens') (style : LeafStyle) (stem stamp : String) :
    Parallel start (write dir tokens style stem stamp) (write dir tokens' style stem stamp) := by
  rw [write, write, sortedCategories_congr h]
  refine .bind (.report _ _) fun _ => .bind (parallel_writeModules _ _ _) fun modules => ?_
  split
  · exact .pure modules
  · exact .bind (parallel_generated _ _ _ _) fun index => .pure (modules ++ [index])

theorem exec_write_congr (h : tokens.Perm tokens') (style : LeafStyle) (stem stamp : String)
    (x : Workspace) :
    (exec (write dir tokens style stem stamp) x).1 =
      (exec (write dir tokens' style stem stamp) x).1 := by
  have hparallel : Parallel x.place (write dir tokens style stem stamp)
      (write dir tokens' style stem stamp) := parallel_write h style stem stamp
  exact (hparallel x x ⟨rfl, rfl, .refl _⟩).1

/-- Names are chosen in order and have distinct constants, the natural one if no earlier name has it,
and the first free number else. Tokens in another order have the same names, their runs end the same
way, and the indexes hold the same text. -/
theorem constants_distinct (categories : List String) :
    (ModuleName.ofCategories categories).map ModuleName.category = categories ∧
    ((ModuleName.ofCategories categories).map ModuleName.constant).Nodup ∧
    (∀ before name later, ModuleName.ofCategories categories = before ++ name :: later →
      (name.constant = constantName name.category ↔
        constantName name.category ∉ before.map ModuleName.constant) ∧
      ModuleName.Chosen (before.map ModuleName.constant) name.category name) ∧
    ∀ tokens tokens' : List Token, tokens.Perm tokens' →
      ModuleName.ofCategories (sortedCategories tokens) =
        ModuleName.ofCategories (sortedCategories tokens') ∧
      ∀ (dir : Path) (style : LeafStyle) (stem stamp : String) (x : Workspace),
        (exec (write dir tokens style stem stamp) x).1 =
          (exec (write dir tokens' style stem stamp) x).1 ∧
        ∀ written after after',
          exec (write dir tokens style stem stamp) x = (.ok written, after) →
          exec (write dir tokens' style stem stamp) x = (.ok written, after') → tokens ≠ [] →
          ∃ text, after.place.readText (dir.join indexName) = .ok text ∧
            after'.place.readText (dir.join indexName) = .ok text ∧
            text = Generated.header stamp ++ "\n" ++
              ModuleName.renderIndex (ModuleName.ofCategories (sortedCategories tokens)) := by
  refine ⟨ModuleName.map_category_ofCategories categories, ModuleName.nodup_constants categories,
    fun before name later hsplit => ?_, fun tokens tokens' hperm => ?_⟩
  · have hchosen := ModuleName.chosen_of_ofCategories hsplit
    exact ⟨hchosen.constant_eq_iff, hchosen⟩
  · have hcategories := sortedCategories_congr hperm
    refine ⟨by rw [hcategories], fun dir style stem stamp x => ⟨exec_write_congr hperm _ _ _ x, ?_⟩⟩
    intro written after after' hrun hrun' hne
    have hne' : tokens' ≠ [] := fun hnil => hne (hperm.trans (.of_eq hnil)).eq_nil
    have hindex' := (wrote_of_exec hrun').index hne'
    rw [← hcategories] at hindex'
    exact ⟨_, (wrote_of_exec hrun).index hne, hindex', rfl⟩

def shuffledTokens : List Token :=
  [token ["color", "bg"] (.string "#fff"), token ["space", "1"] (.string "4px")]

theorem palette_perm : paletteTokens.Perm shuffledTokens :=
  .swap _ _ _

theorem constants_distinct_palette :
    (ModuleName.ofCategories ["a-b", "aB", "aB2"]).map ModuleName.constant = ["aB", "aB2", "aB22"] ∧
    paletteTokens.Perm shuffledTokens ∧
    (ModuleName.ofCategories ["a-b", "aB", "aB2"]).map ModuleName.category = ["a-b", "aB", "aB2"] ∧
    ∃ after', exec (write ⟨"ts"⟩ shuffledTokens .propertyName "sando" "now") emptyWorkspace =
        (.ok [⟨"ts/color.ts"⟩, ⟨"ts/space.ts"⟩, ⟨"ts/index.ts"⟩], after') ∧
      ∃ text, paletteAfter.place.readText ((⟨"ts"⟩ : Path).join indexName) = .ok text ∧
        after'.place.readText ((⟨"ts"⟩ : Path).join indexName) = .ok text := by
  obtain ⟨hcategories, -, -, hruns⟩ := constants_distinct ["a-b", "aB", "aB2"]
  obtain ⟨-, hwrites⟩ := hruns _ _ palette_perm
  obtain ⟨hsame, hindex⟩ := hwrites ⟨"ts"⟩ .propertyName "sando" "now" emptyWorkspace
  rw [exec_palette] at hsame
  rcases hshuffled : exec (write ⟨"ts"⟩ shuffledTokens .propertyName "sando" "now")
    emptyWorkspace with ⟨outcome, after'⟩
  rw [hshuffled] at hsame
  obtain rfl := hsame
  obtain ⟨text, hpalette, hother, -⟩ :=
    hindex _ _ after' exec_palette hshuffled (List.cons_ne_nil _ _)
  exact ⟨by decide +kernel, palette_perm, hcategories, after', rfl, text, hpalette, hother⟩

end TypedModule

end DesignTokens
