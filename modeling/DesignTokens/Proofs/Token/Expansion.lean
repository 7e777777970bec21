import DesignTokens.Proofs.Placeholder.Replacement
import DesignTokens.Proofs.Token.Linking

/-!
The text of a token with its references replaced. Replacing them by what the dictionary has for them
gives the value of the token, and replacing them by `var()` expressions gives what is written for
it: between both texts nothing differs but what stands for the references.
-/

namespace DesignTokens

open Placeholder CustomProperty Job

theorem filledPieces_eq_join {f : String → String} {meaning : String → Json.Value}
    {pieces : List Segment}
    (h : ∀ path ∈ pieces.filterMap Segment.path?, f path = (meaning path).cssText) :
    filledPieces meaning pieces = String.join (pieces.map (Segment.expand f)) := by
  induction pieces with
  | nil => rfl
  | cons s rest ih =>
      rw [filledPieces, List.map_cons, String.join_cons]
      cases s with
      | literal | malformed => rw [ih h]; rfl
      | reference path =>
          obtain ⟨hpath, hrest⟩ := List.forall_mem_cons.mp h
          rw [ih hrest, Segment.filled, Segment.expand, hpath]

theorem cssText_filledText {f : String → String} {meaning : String → Json.Value} {text : String}
    (h : ∀ path ∈ (scan text).filterMap Segment.path?, f path = (meaning path).cssText) :
    (filledText meaning text).cssText = expand f text := by
  by_cases hlone : ∃ path, scan text = [.reference path]
  · obtain ⟨path, hscan⟩ := hlone
    have hpath := h path (by simp [hscan])
    rw [filledText_of_lone meaning hscan, expand, hscan, List.map_singleton, Segment.expand, hpath]
    simp
  · rw [not_exists] at hlone
    rw [filledText_of_pieces meaning hlone, expand, ← filledPieces_eq_join h]
    rfl

namespace Json.Value

/-- Whether a value is neither a list nor an object. -/
def isScalar : Json.Value → Bool
  | array _ | object _ => false
  | _ => true

theorem readsApart_of_isScalar {v : Json.Value} (h : v.isScalar = true) : v.readsApart = true := by
  cases v with
  | array _ | object _ => exact absurd h nofun
  | null | boolean _ | number _ | string _ => rfl

theorem cssText_filled {f : String → String} {meaning : String → Json.Value} {v : Json.Value}
    (hscalar : v.isScalar = true)
    (h : ∀ path ∈ v.placeholders, f path = (meaning path).cssText) :
    (v.filled meaning).cssText = expand f v.sourceText := by
  have hplain : ∀ text, '\x7b' ∉ text.toList → text = expand f text := fun _ hopen =>
    (expand_of_not_hasReference (not_hasReference_of_not_open hopen)).symm
  cases v with
  | string text =>
      rw [placeholders] at h
      rw [filled, sourceText]
      exact cssText_filledText h
  | number n => exact hplain n.toText fun hmem => (Json.numeric_toText n _ hmem).ne rfl (by decide) rfl
  | boolean b => exact hplain (Json.boolText b) (by cases b <;> decide)
  | null => exact hplain Json.Value.null.cssText (by decide)
  | array _ | object _ => exact absurd hscalar nofun

end Json.Value

/-- What the dictionary has for a path, as it stands in a stylesheet. -/
def Dictionary.cssAt (d : Dictionary) (path : String) : String :=
  ((d.get? path).map (·.cssValue)).getD ""

namespace RawTokens

variable {tokens : RawTokens} {d : Dictionary}

theorem Holds.cssAt_eq (h : tokens.Holds d) {path : String}
    (hpath : (Keyed.get? path tokens).isSome) : d.cssAt path = (tokens.meaning path).cssText := by
  obtain ⟨raw, hraw⟩ := Option.isSome_iff_exists.mp hpath
  rw [Dictionary.cssAt, h.get?_eq, hraw]
  rfl

theorem Means.eq_filled {path : String} {v : Json.Value} (h : tokens.Means path v) {raw : RawToken}
    (hraw : Keyed.get? path tokens = some raw) : v = raw.value.filled tokens.meaning := by
  cases h with
  | @intro _ other meaning found targets =>
      obtain rfl := Option.some.inj (found.symm.trans hraw)
      exact filled_congr other.value fun target htarget => (targets target htarget).meaning_eq.symm

/-- The value of a token that was written as a scalar is its text with every reference replaced by
the value it leads to, and what is written for the token is the same text with every reference
replaced by a `var()` expression. -/
theorem cssValue_eq_expand {dependencies sources : List Path} {w : Workspace}
    (hcollected : w.place.collected dependencies sources = .ok tokens)
    (hd : exec (resolveFiles dependencies sources) w = (.ok d, w)) {t : Token}
    (ht : t ∈ d.tokens) :
    ∃ raw, Keyed.get? t.dottedPath tokens = some raw ∧ raw.path = t.path ∧
      t.source = raw.value.sourceText ∧
      (raw.value.isScalar = true →
        (∀ path ∈ references t.source, (d.get? path).isSome) ∧
        t.cssValue = expand d.cssAt t.source ∧
        ∀ stem, renderCss stem t.source =
          expand (fun path => reference (nameOfDotted stem path)) t.source) := by
  have hholds := holds_of_resolved hcollected hd
  obtain ⟨raw, hraw, htoken⟩ := hholds.eq_resolvedToken ht
  have hsource : t.source = raw.value.sourceText := by
    rw [htoken]
    rfl
  refine ⟨raw, hraw, by rw [htoken]; rfl, hsource, fun hscalar => ?_⟩
  have hclosed : ∀ path ∈ raw.value.placeholders, (Keyed.get? path tokens).isSome :=
    fun path hpath => hholds.closed t.dottedPath path ⟨raw, hraw, hpath⟩
  refine ⟨fun path hpath => ?_, ?_, ?_⟩
  · rw [hsource, references_sourceText (Json.Value.readsApart_of_isScalar hscalar)] at hpath
    exact hholds.isSome_get? ⟨raw, hraw, hpath⟩
  · have hvalue : t.value = raw.value.filled tokens.meaning := by
      rw [htoken]
      exact (hholds.means _ (Keyed.mem_of_get? hraw)).eq_filled hraw
    rw [Token.cssValue, hvalue, hsource]
    exact Json.Value.cssText_filled hscalar fun path hpath => hholds.cssAt_eq (hclosed path hpath)
  · exact fun stem => renderCss_eq_expand stem t.source

theorem cssValue_eq_expand_gap :
    ∃ tokens d t, spaceWorkspace.place.collected [] [⟨"space.json"⟩] = .ok tokens ∧
      exec (resolveFiles [] [⟨"space.json"⟩]) spaceWorkspace = (.ok d, spaceWorkspace) ∧
      d.get? "gap" = some t ∧ t.source = "calc(2 * \x7bspace.1.5.value\x7d)" ∧
      t.cssValue = expand d.cssAt t.source ∧ t.cssValue = "calc(2 * 6px)" := by
  obtain ⟨tokens, d, hcollected, hd, -⟩ := exists_space
  have hscalar : (spaceWorkspace.place.collected [] [⟨"space.json"⟩]).toOption.map
      (fun tokens => (Keyed.get? "gap" tokens).map (·.value.isScalar)) = some (some true) := by
    decide +kernel
  have hgap : (spaceWorkspace.place.dictionary [] [⟨"space.json"⟩]).toOption.map
      (fun d => (d.get? "gap").map fun t => (t.source, t.cssValue)) =
      some (some ("calc(2 * \x7bspace.1.5.value\x7d)", "calc(2 * 6px)")) := by
    decide +kernel
  have hdictionary := hd
  rw [exec_resolveFiles, Prod.mk.injEq] at hdictionary
  rw [hcollected] at hscalar
  rw [hdictionary.1] at hgap
  obtain ⟨raw, hraw, htrue⟩ := Option.map_eq_some_iff.mp (Option.some.inj hscalar)
  obtain ⟨t, ht, htexts⟩ := Option.map_eq_some_iff.mp (Option.some.inj hgap)
  obtain ⟨hsource, hcss⟩ := Prod.mk.inj htexts
  obtain ⟨hmem, hdotted⟩ := Dictionary.mem_of_get? ht
  obtain ⟨other, hother, -, -, hall⟩ := cssValue_eq_expand hcollected hd hmem
  rw [hdotted, hraw] at hother
  obtain rfl := Option.some.inj hother
  exact ⟨tokens, d, t, hcollected, hd, ht, hsource, (hall htrue).2.1, hcss⟩

end RawTokens

end DesignTokens
