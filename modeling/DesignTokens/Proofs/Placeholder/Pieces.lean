import DesignTokens.Placeholder
import Mathlib.Data.List.Infix

/-!
The pieces of a text, written one after the other, give the text back. The shortcut that looks for
`.value` first therefore never misses a reference.
-/

namespace DesignTokens.Text

theorem isSome_stripStart_iff {word cs : List Char} :
    (stripStart word cs).isSome = true ↔ word <+: cs := by
  constructor
  · intro h
    obtain ⟨rest, hrest⟩ := Option.isSome_iff_exists.mp h
    exact ⟨rest, (eq_append_of_stripStart hrest).symm⟩
  · rintro ⟨rest, rfl⟩
    simp [stripStart_append]

theorem occurs_iff_infix {word cs : List Char} : occurs word cs = true ↔ word <:+: cs := by
  induction cs with
  | nil => simp [occurs, isSome_stripStart_iff]
  | cons c cs ih => simp [occurs, isSome_stripStart_iff, List.infix_cons_iff, ih]

end DesignTokens.Text

namespace DesignTokens.Placeholder

@[simp] theorem path?_literal (text : String) : (Segment.literal text).path? = none := rfl

@[simp] theorem path?_malformed (text : String) : (Segment.malformed text).path? = none := rfl

@[simp] theorem path?_reference (path : String) : (Segment.reference path).path? = some path := rfl

/-- The characters of the text that pieces were read from. -/
def sourceChars (pieces : List Segment) : List Char :=
  pieces.flatMap fun s => s.source.toList

@[simp] theorem sourceChars_nil : sourceChars [] = [] := rfl

@[simp] theorem sourceChars_cons (s : Segment) (pieces : List Segment) :
    sourceChars (s :: pieces) = s.source.toList ++ sourceChars pieces := rfl

@[simp] theorem sourceChars_append (pieces more : List Segment) :
    sourceChars (pieces ++ more) = sourceChars pieces ++ sourceChars more :=
  List.flatMap_append

@[simp] theorem sourceChars_literalOf (cs : List Char) : sourceChars (literalOf cs) = cs := by
  cases cs with
  | nil => rfl
  | cons c cs => simp [literalOf, Segment.source]

@[simp] theorem source_unclosed (body : List Char) :
    (unclosed body).source.toList = '\x7b' :: body := by
  simp [unclosed, Segment.source]

@[simp] theorem source_closed (body : List Char) :
    (closed body).source.toList = '\x7b' :: body ++ ['\x7d'] := by
  unfold closed
  split
  · rename_i path hpath
    split
    · simp [Segment.source]
    · have hbody := Text.eq_append_of_stripEnd hpath
      subst hbody
      simp [Segment.source, valueSuffix]
  · simp [Segment.source]

mutual

theorem sourceChars_outside (done cs : List Char) :
    sourceChars (outside done cs) = done ++ cs := by
  cases cs with
  | nil => simp [outside]
  | cons c cs =>
      rw [outside]
      split
      · rename_i hc
        subst hc
        simp [sourceChars_inside [] cs]
      · simp [sourceChars_outside (done ++ [c]) cs]

theorem sourceChars_inside (done cs : List Char) :
    sourceChars (inside done cs) = '\x7b' :: done ++ cs := by
  cases cs with
  | nil => simp [inside]
  | cons c cs =>
      rw [inside]
      split
      · rename_i hc
        subst hc
        simp [sourceChars_outside [] cs]
      · split
        · rename_i hc
          subst hc
          split
          · simp [sourceChars_inside [] cs]
          · simp
        · simp [sourceChars_inside (done ++ [c]) cs]

end

/-- Splitting a text loses nothing and changes nothing. -/
theorem sourceChars_scan (text : String) : sourceChars (scan text) = text.toList := by
  simp [scan, sourceChars_outside]

theorem source_infix {s : Segment} {pieces : List Segment} (hs : s ∈ pieces) :
    s.source.toList <:+: sourceChars pieces := by
  obtain ⟨before, after, rfl⟩ := List.append_of_mem hs
  exact ⟨sourceChars before, sourceChars after, by simp⟩

/-- A text with a reference mentions `.value`. -/
theorem occurs_valueSuffix_of_reference {text path : String}
    (h : Segment.reference path ∈ scan text) :
    Text.occurs valueSuffix text.toList = true := by
  rw [Text.occurs_iff_infix]
  have hsource := source_infix h
  rw [sourceChars_scan] at hsource
  refine List.IsInfix.trans ?_ hsource
  exact ⟨'\x7b' :: path.toList, ['\x7d'], by simp [Segment.source, valueSuffix]⟩

theorem hasReference_iff {text : String} :
    hasReference text = true ↔ ∃ path, Segment.reference path ∈ scan text := by
  simp only [hasReference, Bool.and_eq_true, List.any_eq_true]
  constructor
  · rintro ⟨-, s, hs, hpath⟩
    cases s with
    | reference path => exact ⟨path, hs⟩
    | literal | malformed => simp at hpath
  · rintro ⟨path, hpath⟩
    exact ⟨occurs_valueSuffix_of_reference hpath, _, hpath, rfl⟩

end DesignTokens.Placeholder
