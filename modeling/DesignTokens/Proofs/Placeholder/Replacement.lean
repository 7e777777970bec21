import DesignTokens.Proofs.Placeholder.Braces

/-!
A text with its references replaced. What is written for a text is of this form for every target, so
a text without references is written as it stands.
-/

namespace DesignTokens.Placeholder

open CustomProperty

/-- The text of a piece with a reference replaced. -/
def Segment.expand (replacement : String → String) : Segment → String
  | literal text => text
  | reference path => replacement path
  | malformed text => text

/-- A text with its references replaced, all else as it stands. -/
def expand (replacement : String → String) (text : String) : String :=
  String.join ((scan text).map (Segment.expand replacement))

variable {f : String → String}

/-- Pieces without a reference are written as they stand. -/
theorem map_expand_of_not_reference {pieces : List Segment}
    (h : ∀ path, .reference path ∉ pieces) :
    pieces.map (Segment.expand f) = pieces.map Segment.source := by
  refine List.map_congr_left fun s hs => ?_
  cases s with
  | literal | malformed => rfl
  | reference path => exact absurd hs (h path)

theorem expand_of_not_hasReference {text : String} (h : hasReference text = false) :
    expand f text = text := by
  have hnone : ∀ path, .reference path ∉ scan text := by
    intro path hpath
    rw [hasReference_iff.mpr ⟨path, hpath⟩] at h
    exact Bool.noConfusion h
  apply String.toList_injective
  rw [expand, map_expand_of_not_reference hnone, String.toList_join, List.flatMap_map]
  exact sourceChars_scan text

theorem not_hasReference_of_not_open {text : String} (h : '\x7b' ∉ text.toList) :
    hasReference text = false := by
  rw [← Bool.not_eq_true, hasReference_iff_paths, not_not]
  exact paths_none_of_not_open h

/-- Rendering a text replaces its references, also where the text is not split. -/
theorem render_eq_expand (target : Target) (stem text : String) :
    render target stem text = expand (target.render stem) text := by
  rw [render]
  split
  · have hpiece : ∀ s : Segment, s.render target stem = s.expand (target.render stem) := by
      intro s
      cases s <;> rfl
    rw [expand, String.join_eq_foldl, List.foldl_map]
    simp only [hpiece]
  · rename_i h
    exact (expand_of_not_hasReference (not_hasReference_of_not_open h)).symm

/-- Rendering a text for the stylesheet replaces its references by `var()` expressions. -/
theorem renderCss_eq_expand (stem text : String) :
    renderCss stem text = expand (fun path => reference (nameOfDotted stem path)) text :=
  render_eq_expand .cssReference stem text

end DesignTokens.Placeholder
