import DesignTokens.Proofs.Placeholder.Scanning
import DesignTokens.Proofs.Style.Grouping
import DesignTokens.Proofs.Token.Expansion
import DesignTokens.Style.Stylesheet

/-!
What becomes of malformed placeholders. They stay in the output as they were written. Notices name
them where a text is rewritten, and only a text with a well-formed placeholder is.
-/

namespace DesignTokens

open Placeholder CustomProperty Job

namespace Placeholder

variable {text part : String}

/-- The malformed pieces of a text from left to right. -/
def malformedParts (text : String) : List String :=
  (scan text).filterMap Segment.malformed?

theorem mem_malformedParts_iff : part ∈ malformedParts text ↔ .malformed part ∈ scan text := by
  rw [malformedParts, List.mem_filterMap]
  constructor
  · rintro ⟨s, hs, hpart⟩
    cases s with
    | malformed other =>
        obtain rfl := Option.some.inj hpart
        exact hs
    | literal | reference => cases hpart
  · intro hpart
    exact ⟨_, hpart, rfl⟩

theorem malformedParts_of_not_open (h : '\x7b' ∉ text.toList) : malformedParts text = [] := by
  rw [malformedParts, scan, outside_of_not_open [] h, List.nil_append, literalOf]
  split <;> rfl

/-- Rewriting a text names each of its malformed pieces. -/
theorem renderNotices_eq (text : String) :
    renderNotices text =
      (malformedParts text).map fun part => .malformedReference part text := by
  rw [renderNotices]
  split
  · rw [malformedParts, List.map_filterMap]
  · rename_i hopen
    rw [malformedParts_of_not_open hopen, List.map_nil]

/-- Whatever takes the place of references, malformed pieces stay as they are. -/
theorem malformed_infix_expand (f : String → String) (h : part ∈ malformedParts text) :
    part.toList <:+: (expand f text).toList := by
  obtain ⟨before, after, hscan⟩ := List.append_of_mem (mem_malformedParts_iff.mp h)
  rw [expand, hscan, List.map_append, List.map_cons, String.join_append, String.join_cons,
    String.toList_append, String.toList_append, ← List.append_assoc]
  exact ⟨_, _, rfl⟩

end Placeholder

/-- The text of a string. -/
def Json.Value.text? : Json.Value → Option String
  | .string text => some text
  | _ => none

theorem Json.Value.text?_eq_some_iff {v : Json.Value} {text : String} :
    v.text? = some text ↔ v = .string text := by
  cases v <;> simp [text?]

namespace Stylesheet

variable {tokens : List Token} {notice : Notice}

/-- The notices of a stylesheet are those of its declarations. -/
theorem mem_bodyNotices_iff :
    notice ∈ bodyNotices tokens ↔ ∃ t ∈ tokens, notice ∈ declarationNotices t := by
  rw [bodyNotices, ← List.flatMap_assoc, flatMap_groupByCategory, List.mem_flatMap, byCategory]
  simp only [List.mem_mergeSort]

/-- The stylesheet of a flavor has them once for each of its blocks. -/
theorem mem_flavorNotices (s : Stylesheet) (flavor : String) (activation : Activation)
    (h : notice ∈ bodyNotices tokens) : notice ∈ s.flavorNotices flavor activation tokens := by
  have hblock : ∃ block, block ∈ s.flavorBlocks flavor activation tokens := by
    cases activation <;> exact ⟨_, List.mem_cons_self⟩
  obtain ⟨block, hblock⟩ := hblock
  exact List.mem_flatMap.mpr ⟨block, hblock, h⟩

theorem declarationNotices_of_source {t : Token} {text : String} (h : t.source = text) :
    declarationNotices t =
      if hasReference text then (malformedParts text).map fun part => .malformedReference part text
      else [] := by
  rw [declarationNotices, Token.hasReferences, renderNotices_eq, h]

end Stylesheet

namespace RawTokens

variable {tokens : RawTokens} {d : Dictionary} {dependencies sources : List Path} {w : Workspace}
variable {t : Token} {raw : RawToken} {text : String}

/-- What is declared for a token that was written as a string is its text with the references
replaced. Also a text without references is of that form. -/
theorem Holds.declarationValue_eq_expand (h : tokens.Holds d) (s : Stylesheet) (ht : t ∈ d.tokens)
    (hraw : Keyed.get? t.dottedPath tokens = some raw) (htext : raw.value = .string text) :
    t.source = text ∧
      s.declarationValue t = expand (fun path => reference (nameOfDotted s.stem path)) text := by
  obtain ⟨other, hother, htoken⟩ := h.eq_resolvedToken ht
  obtain rfl := Option.some.inj (hraw.symm.trans hother)
  have hsource : t.source = text := by
    rw [htoken]
    change raw.value.sourceText = text
    rw [htext]
    rfl
  refine ⟨hsource, ?_⟩
  rw [Stylesheet.declarationValue, Token.hasReferences, hsource]
  split
  · exact renderCss_eq_expand s.stem text
  · rename_i hnone
    rw [Bool.not_eq_true] at hnone
    have hvalue : t.value = .string text := by
      rw [htoken]
      change tokens.meaning t.dottedPath = _
      rw [(h.means _ (Keyed.mem_of_get? hraw)).eq_filled hraw, htext, Json.Value.filled,
        filledText_of_not_hasReference _ hnone]
    rw [Token.cssValue, hvalue, expand_of_not_hasReference hnone]
    rfl

/-- The malformed pieces of a string that a layer emits stay in its declaration as they are. They are
named one by one if the string has a reference as well, and else not at all; what is named shows as a
warning of every stylesheet that has the declaration. -/
theorem malformed_named_iff (s : Stylesheet)
    (hcollected : w.place.collected dependencies sources = .ok tokens)
    (hd : exec (resolveFiles dependencies sources) w = (.ok d, w)) (ht : t ∈ d.sources)
    (hraw : Keyed.get? t.dottedPath tokens = some raw) (htext : raw.value = .string text) :
    (∀ part ∈ malformedParts text, part.toList <:+: (s.declarationValue t).toList) ∧
      (hasReference text = true → Stylesheet.declarationNotices t =
        (malformedParts text).map fun part => .malformedReference part text) ∧
      ((∀ part ∈ malformedParts text,
          .malformedReference part text ∈ Stylesheet.declarationNotices t) ↔
        malformedParts text = [] ∨ hasReference text = true) ∧
      ∀ notice ∈ Stylesheet.declarationNotices t,
        notice.severity = .warning ∧ notice ∈ Stylesheet.bodyNotices d.sources ∧
          ∀ flavor activation, notice ∈ s.flavorNotices flavor activation d.sources := by
  have hmem : t ∈ d.tokens := (List.mem_filter.mp ht).1
  obtain ⟨hsource, hvalue⟩ :=
    (holds_of_resolved hcollected hd).declarationValue_eq_expand s hmem hraw htext
  have hnotices := Stylesheet.declarationNotices_of_source hsource
  refine ⟨fun part hpart => ?_, fun hreference => ?_, ?_, fun notice hnotice => ?_⟩
  · rw [hvalue]
    exact malformed_infix_expand _ hpart
  · rw [hnotices, if_pos hreference]
  · rw [hnotices]
    split
    · rename_i hreference
      simp [hreference]
    · rename_i hnone
      simp [hnone, List.eq_nil_iff_forall_not_mem]
  · have hbody := Stylesheet.mem_bodyNotices_iff.mpr ⟨t, ht, hnotice⟩
    refine ⟨?_, hbody, fun flavor activation => s.mem_flavorNotices flavor activation hbody⟩
    rw [hnotices] at hnotice
    split at hnotice
    · obtain ⟨part, -, rfl⟩ := List.mem_map.mp hnotice
      rfl
    · exact absurd hnotice List.not_mem_nil

/-- A layer of one file. `edge` has stray braces around a reference, and nothing but a brace that is
never closed stands in `ink`. -/
def typoWorkspace : Workspace :=
  let text := "\x7b\"size\": \x7b\"value\": 2\x7d, " ++
    "\"edge\": \x7b\"value\": \"\x7b\x7bsize.value\x7d \x7bred\x7d\"\x7d, " ++
    "\"ink\": \x7b\"value\": \"\x7bcolor.brand\"\x7d\x7d"
  ⟨⟨⟨[(["a.json"], .file text.toUTF8 0)]⟩, []⟩, 0, 0, []⟩

/-- The strings of that file under the paths of their tokens. -/
def typoTexts : List (String × Option String) :=
  [("size", none), ("edge", some "\x7b\x7bsize.value\x7d \x7bred\x7d"), ("ink", some "\x7bcolor.brand")]

theorem exists_typo :
    ∃ tokens d, typoWorkspace.place.collected [] [⟨"a.json"⟩] = .ok tokens ∧
      exec (resolveFiles [] [⟨"a.json"⟩]) typoWorkspace = (.ok d, typoWorkspace) ∧
      tokens.map (fun entry => (entry.1, entry.2.value.text?)) = typoTexts ∧
      d.sources.map Token.dottedPath = typoTexts.map Prod.fst := by
  have hfound : (typoWorkspace.place.collected [] [⟨"a.json"⟩]).toOption.bind
      (fun tokens => tokens.resolve.toOption.map fun d =>
        (tokens.map fun entry => (entry.1, entry.2.value.text?), d.sources.map Token.dottedPath)) =
      some (typoTexts, typoTexts.map Prod.fst) := by
    decide +kernel
  obtain ⟨tokens, d, hcollected, hd, heq⟩ := exists_of_resolved hfound
  obtain ⟨htexts, hpaths⟩ := Prod.mk.inj heq
  exact ⟨tokens, d, hcollected, hd, htexts, hpaths⟩

theorem exists_typo_token (path : String) {text : String} (h : (path, some text) ∈ typoTexts) :
    ∃ tokens d t raw, typoWorkspace.place.collected [] [⟨"a.json"⟩] = .ok tokens ∧
      exec (resolveFiles [] [⟨"a.json"⟩]) typoWorkspace = (.ok d, typoWorkspace) ∧
      t ∈ d.sources ∧ Keyed.get? t.dottedPath tokens = some raw ∧ raw.value = .string text := by
  obtain ⟨tokens, d, hcollected, hd, htexts, hpaths⟩ := exists_typo
  have hpath : path ∈ d.sources.map Token.dottedPath := hpaths ▸ List.mem_map_of_mem h
  obtain ⟨t, ht, rfl⟩ := List.mem_map.mp hpath
  obtain ⟨⟨key, raw⟩, hentry, heq⟩ := List.mem_map.mp (htexts ▸ h)
  obtain ⟨rfl, htext⟩ := Prod.mk.inj heq
  exact ⟨tokens, d, t, raw, hcollected, hd, ht,
    Keyed.get?_of_mem (indexed_of_collected hcollected).nodup hentry,
    Json.Value.text?_eq_some_iff.mp htext⟩

theorem malformed_named_edge :
    ∃ tokens d t raw text, typoWorkspace.place.collected [] [⟨"a.json"⟩] = .ok tokens ∧
      exec (resolveFiles [] [⟨"a.json"⟩]) typoWorkspace = (.ok d, typoWorkspace) ∧
      t ∈ d.sources ∧ Keyed.get? t.dottedPath tokens = some raw ∧ raw.value = .string text ∧
      malformedParts text = ["\x7b", "\x7bred\x7d"] ∧
      Stylesheet.declarationNotices t =
        [.malformedReference "\x7b" text, .malformedReference "\x7bred\x7d" text] := by
  obtain ⟨tokens, d, t, raw, hcollected, hd, ht, hraw, htext⟩ :=
    exists_typo_token "edge" (List.mem_cons_of_mem _ List.mem_cons_self)
  obtain ⟨-, hnamed, -⟩ :=
    malformed_named_iff ⟨"sando", Selectors.standard⟩ hcollected hd ht hraw htext
  exact ⟨tokens, d, t, raw, _, hcollected, hd, ht, hraw, htext, by decide, hnamed (by decide)⟩

/-- A brace that is never closed goes into the stylesheet without a word when there is no reference
beside it. -/
theorem malformed_unnamed :
    ∃ tokens d t raw text, typoWorkspace.place.collected [] [⟨"a.json"⟩] = .ok tokens ∧
      exec (resolveFiles [] [⟨"a.json"⟩]) typoWorkspace = (.ok d, typoWorkspace) ∧
      t ∈ d.sources ∧ Keyed.get? t.dottedPath tokens = some raw ∧ raw.value = .string text ∧
      malformedParts text = ["\x7bcolor.brand"] ∧ Stylesheet.declarationNotices t = [] ∧
      Stylesheet.declarationValue ⟨"sando", Selectors.standard⟩ t = "\x7bcolor.brand" := by
  obtain ⟨tokens, d, t, raw, hcollected, hd, ht, hraw, htext⟩ :=
    exists_typo_token "ink" (List.mem_cons_of_mem _ (List.mem_cons_of_mem _ List.mem_cons_self))
  obtain ⟨hsource, hvalue⟩ := (holds_of_resolved hcollected hd).declarationValue_eq_expand
    ⟨"sando", Selectors.standard⟩ (List.mem_filter.mp ht).1 hraw htext
  have hnone : hasReference "\x7bcolor.brand" = false := by decide
  refine ⟨tokens, d, t, raw, _, hcollected, hd, ht, hraw, htext, by decide, ?_, ?_⟩
  · rw [Stylesheet.declarationNotices_of_source hsource, hnone]
    rfl
  · rw [hvalue, expand_of_not_hasReference hnone]

end RawTokens

end DesignTokens
