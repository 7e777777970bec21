import DesignTokens.Proofs.Token.Substitution

/-!
Substitution in two ways of computing. It does nothing but follow placeholders one after the other, so
what relates two ways of following them, and survives sequencing, relates the substitutions too.
-/

namespace DesignTokens

open Placeholder

/-- A relation between computations of two kinds that holds of returned values and is kept when one
step follows another. -/
structure Sequential {m n : Type → Type} [Monad m] [Monad n]
    (R : (α : Type) → m α → n α → Prop) : Prop where
  pure : ∀ {α : Type} (a : α), R α (pure a) (pure a)
  bind : ∀ {α β : Type} {x : m α} {y : n α} {f : α → m β} {g : α → n β},
    R α x y → (∀ a, R β (f a) (g a)) → R β (x >>= f) (y >>= g)

namespace Sequential

variable {m n : Type → Type} [Monad m] [Monad n] {R : (α : Type) → m α → n α → Prop}
variable {follow : String → m Json.Value} {follow' : String → n Json.Value}

theorem substitutePieces (hR : Sequential R) {pieces : List Segment}
    (h : ∀ path ∈ pieces.filterMap Segment.path?, R Json.Value (follow path) (follow' path)) :
    R String (substitutePieces follow pieces) (substitutePieces follow' pieces) := by
  induction pieces with
  | nil => exact hR.pure ""
  | cons s rest ih =>
      cases s with
      | literal | malformed => exact hR.bind (ih (by simpa using h)) fun _ => hR.pure _
      | reference path =>
          obtain ⟨hpath, hrest⟩ := List.forall_mem_cons.mp h
          exact hR.bind hpath fun _ => hR.bind (ih hrest) fun _ => hR.pure _

theorem substituteText (hR : Sequential R) {text : String}
    (h : ∀ path ∈ (scan text).filterMap Segment.path?, R Json.Value (follow path) (follow' path)) :
    R Json.Value (substituteText follow text) (substituteText follow' text) := by
  unfold DesignTokens.substituteText
  split
  · split
    · rename_i path hscan
      exact h path (by simp [hscan])
    · exact hR.bind (hR.substitutePieces h) fun _ => hR.pure _
  · exact hR.pure _

mutual

/-- Substitutions are related if the ways of following each placeholder are. -/
theorem substitute (hR : Sequential R) : (v : Json.Value) →
    (∀ path ∈ v.placeholders, R Json.Value (follow path) (follow' path)) →
      R Json.Value (substitute follow v) (substitute follow' v)
  | .string text, h => by
      rw [DesignTokens.substitute, DesignTokens.substitute]
      exact hR.substituteText h
  | .array items, h => by
      rw [DesignTokens.substitute, DesignTokens.substitute]
      exact hR.bind (substituteItems hR items h) fun _ => hR.pure _
  | .object members, h => by
      rw [DesignTokens.substitute, DesignTokens.substitute]
      exact hR.bind (substituteMembers hR members h) fun _ => hR.pure _
  | .null, _ | .boolean _, _ | .number _, _ => hR.pure _

theorem substituteItems (hR : Sequential R) : (items : List Json.Value) →
    (∀ path ∈ itemPlaceholders items, R Json.Value (follow path) (follow' path)) →
      R (List Json.Value) (substituteItems follow items) (substituteItems follow' items)
  | [], _ => hR.pure _
  | v :: rest, h => by
      rw [itemPlaceholders, List.forall_mem_append] at h
      rw [DesignTokens.substituteItems, DesignTokens.substituteItems]
      exact hR.bind (substitute hR v h.1) fun _ =>
        hR.bind (substituteItems hR rest h.2) fun _ => hR.pure _

theorem substituteMembers (hR : Sequential R) : (members : List (String × Json.Value)) →
    (∀ path ∈ memberPlaceholders members, R Json.Value (follow path) (follow' path)) →
      R (List (String × Json.Value)) (substituteMembers follow members)
        (substituteMembers follow' members)
  | [], _ => hR.pure _
  | (key, v) :: rest, h => by
      rw [memberPlaceholders, List.forall_mem_append] at h
      rw [DesignTokens.substituteMembers, DesignTokens.substituteMembers]
      exact hR.bind (substitute hR v h.1) fun _ =>
        hR.bind (substituteMembers hR rest h.2) fun _ => hR.pure _

end

end Sequential

end DesignTokens
