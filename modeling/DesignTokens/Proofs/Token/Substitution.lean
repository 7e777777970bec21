import DesignTokens.Proofs.Placeholder.Pieces
import DesignTokens.Token.Resolution
import Mathlib.Logic.Relation

/-!
What the value of a token is, said without a memo and without an order of visiting. A token refers
to the tokens that the placeholders in the strings of its value name, and it means that value with
every placeholder replaced by what its target means.
-/

namespace DesignTokens

open Placeholder

mutual

/-- The paths that the placeholders in the strings of a value name. -/
def Json.Value.placeholders : Json.Value → List String
  | .string text => (scan text).filterMap Segment.path?
  | .array items => itemPlaceholders items
  | .object members => memberPlaceholders members
  | _ => []

def itemPlaceholders : List Json.Value → List String
  | [] => []
  | v :: rest => v.placeholders ++ itemPlaceholders rest

def memberPlaceholders : List (String × Json.Value) → List String
  | [] => []
  | (_, v) :: rest => v.placeholders ++ memberPlaceholders rest

end

/-- The text of a piece, given what each path means. -/
def Placeholder.Segment.filled (meaning : String → Json.Value) : Segment → String
  | .literal text => text
  | .malformed text => text
  | .reference path => (meaning path).cssText

/-- The text of pieces in a row. -/
def filledPieces (meaning : String → Json.Value) : List Segment → String
  | [] => ""
  | s :: rest => s.filled meaning ++ filledPieces meaning rest

/-- A string with its placeholders replaced: a lone placeholder stands for the value itself. -/
def filledText (meaning : String → Json.Value) (text : String) : Json.Value :=
  match scan text with
  | [.reference path] => meaning path
  | pieces => .string (filledPieces meaning pieces)

mutual

/-- A value with the placeholders in its strings replaced, everything else as it is. -/
def Json.Value.filled (meaning : String → Json.Value) : Json.Value → Json.Value
  | .string text => filledText meaning text
  | .array items => .array (filledItems meaning items)
  | .object members => .object (filledMembers meaning members)
  | other => other

def filledItems (meaning : String → Json.Value) : List Json.Value → List Json.Value
  | [] => []
  | v :: rest => v.filled meaning :: filledItems meaning rest

def filledMembers (meaning : String → Json.Value) :
    List (String × Json.Value) → List (String × Json.Value)
  | [] => []
  | (key, v) :: rest => (key, v.filled meaning) :: filledMembers meaning rest

end

namespace RawTokens

/-- A token is written with a placeholder for another path. -/
def Refers (tokens : RawTokens) (source target : String) : Prop :=
  ∃ raw, Keyed.get? source tokens = some raw ∧ target ∈ raw.value.placeholders

/-- Every placeholder names a token. -/
def Closed (tokens : RawTokens) : Prop :=
  ∀ source target, tokens.Refers source target → (Keyed.get? target tokens).isSome

/-- No token refers to itself, directly or through others. -/
def Acyclic (tokens : RawTokens) : Prop :=
  ∀ path, ¬ Relation.TransGen tokens.Refers path path

/-- The value at a path by plain recursive substitution. -/
inductive Means (tokens : RawTokens) : String → Json.Value → Prop
  | intro {path : String} {raw : RawToken} (meaning : String → Json.Value)
      (found : Keyed.get? path tokens = some raw)
      (targets : ∀ target ∈ raw.value.placeholders, Means tokens target (meaning target)) :
      Means tokens path (raw.value.filled meaning)

end RawTokens

theorem filledPieces_congr {f g : String → Json.Value} {pieces : List Segment}
    (h : ∀ path ∈ pieces.filterMap Segment.path?, f path = g path) :
    filledPieces f pieces = filledPieces g pieces := by
  induction pieces with
  | nil => rfl
  | cons s rest ih =>
      have hrest : filledPieces f rest = filledPieces g rest :=
        ih fun path hpath => h path (by
          obtain ⟨piece, hpiece, hp⟩ := List.mem_filterMap.mp hpath
          exact List.mem_filterMap.mpr ⟨piece, List.mem_cons_of_mem _ hpiece, hp⟩)
      cases s with
      | literal | malformed => simp [filledPieces, Segment.filled, hrest]
      | reference path =>
          have hpath := h path (by simp)
          simp [filledPieces, Segment.filled, hrest, hpath]

theorem filledText_of_lone (meaning : String → Json.Value) {text path : String}
    (h : scan text = [.reference path]) : filledText meaning text = meaning path := by
  simp [filledText, h]

theorem filledText_of_pieces (meaning : String → Json.Value) {text : String}
    (h : ∀ path, scan text ≠ [.reference path]) :
    filledText meaning text = .string (filledPieces meaning (scan text)) := by
  unfold filledText
  split
  · rename_i path hscan
    exact absurd hscan (h path)
  · rfl

theorem filledText_congr {f g : String → Json.Value} {text : String}
    (h : ∀ path ∈ (scan text).filterMap Segment.path?, f path = g path) :
    filledText f text = filledText g text := by
  by_cases hlone : ∃ path, scan text = [.reference path]
  · obtain ⟨path, hscan⟩ := hlone
    rw [filledText_of_lone f hscan, filledText_of_lone g hscan]
    exact h path (by simp [hscan])
  · rw [not_exists] at hlone
    rw [filledText_of_pieces f hlone, filledText_of_pieces g hlone, filledPieces_congr h]

mutual

/-- Only what the placeholders of a value mean counts. -/
theorem filled_congr {f g : String → Json.Value} :
    (v : Json.Value) → (∀ path ∈ v.placeholders, f path = g path) → v.filled f = v.filled g
  | .string text, h => by
      simp only [Json.Value.filled]
      exact filledText_congr (by simpa only [Json.Value.placeholders] using h)
  | .array items, h => by
      simp only [Json.Value.filled]
      rw [filledItems_congr items (by simpa only [Json.Value.placeholders] using h)]
  | .object members, h => by
      simp only [Json.Value.filled]
      rw [filledMembers_congr members (by simpa only [Json.Value.placeholders] using h)]
  | .null, _ => rfl
  | .boolean _, _ => rfl
  | .number _, _ => rfl

theorem filledItems_congr {f g : String → Json.Value} :
    (items : List Json.Value) → (∀ path ∈ itemPlaceholders items, f path = g path) →
      filledItems f items = filledItems g items
  | [], _ => rfl
  | v :: rest, h => by
      simp only [itemPlaceholders, List.mem_append] at h
      simp only [filledItems]
      rw [filled_congr v fun path hpath => h path (.inl hpath),
        filledItems_congr rest fun path hpath => h path (.inr hpath)]

theorem filledMembers_congr {f g : String → Json.Value} :
    (members : List (String × Json.Value)) →
      (∀ path ∈ memberPlaceholders members, f path = g path) →
      filledMembers f members = filledMembers g members
  | [], _ => rfl
  | (key, v) :: rest, h => by
      simp only [memberPlaceholders, List.mem_append] at h
      simp only [filledMembers]
      rw [filled_congr v fun path hpath => h path (.inl hpath),
        filledMembers_congr rest fun path hpath => h path (.inr hpath)]

end

/-- A string without placeholders means itself. -/
theorem filledText_of_not_hasReference (meaning : String → Json.Value) {text : String}
    (h : hasReference text = false) : filledText meaning text = .string text := by
  have hnone : ∀ path, Segment.reference path ∉ scan text := by
    intro path hpath
    rw [hasReference_iff.mpr ⟨path, hpath⟩] at h
    exact Bool.noConfusion h
  have hpieces : ∀ pieces : List Segment, (∀ path, Segment.reference path ∉ pieces) →
      (filledPieces meaning pieces).toList = sourceChars pieces := by
    intro pieces
    induction pieces with
    | nil => intro _; rfl
    | cons s rest ih =>
        intro hs
        have hrest := ih fun path hpath => hs path (List.mem_cons_of_mem _ hpath)
        cases s with
        | literal | malformed => simp [filledPieces, Segment.filled, Segment.source, hrest]
        | reference path => exact absurd List.mem_cons_self (hs path)
  have hlone : ∀ path, scan text ≠ [.reference path] := by
    intro path hscan
    exact hnone path (by simp [hscan])
  rw [filledText_of_pieces meaning hlone]
  congr 1
  apply String.toList_injective
  rw [hpieces _ hnone, sourceChars_scan]

namespace RawTokens

variable {tokens : RawTokens}

/-- A path means at most one value. -/
theorem Means.unique {path : String} {v w : Json.Value} (hv : tokens.Means path v)
    (hw : tokens.Means path w) : v = w := by
  induction hv generalizing w with
  | @intro path raw meaning found targets ih =>
      cases hw with
      | @intro _ raw' meaning' found' targets' =>
          have hraw : raw = raw' := Option.some.inj (found.symm.trans found')
          subst hraw
          exact filled_congr raw.value fun target ht => ih target ht (targets' target ht)

theorem Means.isSome {path : String} {v : Json.Value} (h : tokens.Means path v) :
    (Keyed.get? path tokens).isSome := by
  cases h with
  | intro meaning found targets => simp [found]

/-- A path that means something starts no endless chain of references. -/
theorem Means.acc {path : String} {v : Json.Value} (h : tokens.Means path v) :
    Acc (fun target source => tokens.Refers source target) path := by
  induction h with
  | @intro path raw meaning found targets ih =>
      refine Acc.intro path fun target hrefers => ?_
      obtain ⟨raw', found', htarget⟩ := hrefers
      have hraw : raw = raw' := Option.some.inj (found.symm.trans found')
      subst hraw
      exact ih target htarget

theorem not_transGen_of_acc {path : String}
    (h : Acc (fun target source => tokens.Refers source target) path) :
    ¬ Relation.TransGen tokens.Refers path path := by
  have hacc := h.transGen
  clear h
  induction hacc with
  | intro path _ ih =>
      intro hcycle
      exact ih path (Relation.transGen_swap.mpr hcycle) hcycle

/-- If every token means something, every placeholder names a token. -/
theorem closed_of_means (h : ∀ path, (Keyed.get? path tokens).isSome → ∃ v, tokens.Means path v) :
    tokens.Closed := by
  rintro source target ⟨raw, found, htarget⟩
  obtain ⟨v, hv⟩ := h source (by simp [found])
  cases hv with
  | @intro _ raw' meaning found' targets =>
      have hraw : raw' = raw := Option.some.inj (found'.symm.trans found)
      subst hraw
      exact (targets target htarget).isSome

/-- If every token means something, there is no circle of references. -/
theorem acyclic_of_means (h : ∀ path, (Keyed.get? path tokens).isSome → ∃ v, tokens.Means path v) :
    tokens.Acyclic := by
  intro path hcycle
  obtain ⟨next, ⟨raw, found, -⟩, -⟩ := Relation.TransGen.head'_iff.mp hcycle
  obtain ⟨v, hv⟩ := h path (by simp [found])
  exact not_transGen_of_acc hv.acc hcycle

end RawTokens

end DesignTokens
