import DesignTokens.Proofs.Placeholder.Scanning
import Mathlib.Data.List.Forall2

/-!
What a text becomes when its placeholders are replaced, told without scanning: the text is taken
apart at its first placeholder, and what stands behind it is treated alike.

In the stylesheet every placeholder becomes a `var()` expression. If neither the text nor the stem
of the names holds one already, the expressions in the output are those of the placeholders, in
their order: none arises within a name or where two parts meet.
-/

namespace DesignTokens.Text

variable {word cs ds : List Char} {c : Char}

/-- What stands from each occurrence of a word on, from left to right. -/
def occurrences (word cs : List Char) : List (List Char) :=
  cs.tails.filter fun rest => word.isPrefixOf rest

theorem occurrences_cons :
    occurrences word (c :: cs) =
      if word <+: c :: cs then (c :: cs) :: occurrences word cs else occurrences word cs := by
  rw [occurrences, List.tails_cons, List.filter_cons]
  simp only [List.isPrefixOf_iff_prefix, occurrences]

theorem mem_occurrences_iff {rest : List Char} :
    rest ∈ occurrences word cs ↔ rest <:+ cs ∧ word <+: rest := by
  rw [occurrences, List.mem_filter, List.mem_tails, List.isPrefixOf_iff_prefix]

theorem occurrences_eq_nil_iff : occurrences word cs = [] ↔ ¬ word <:+: cs := by
  rw [List.eq_nil_iff_forall_not_mem, List.infix_iff_prefix_suffix, not_exists]
  refine forall_congr' fun rest => not_congr ?_
  rw [mem_occurrences_iff, and_comm]

/-- A word that starts at the end of one text does not go on in the next one, if that begins with a
character that the word has at most in front. -/
theorem occurrences_append (hcs : ¬ word <:+: cs) (hhead : ∀ c ∈ ds.head?, c ∉ word.tail) :
    occurrences word (cs ++ ds) = occurrences word ds := by
  induction cs with
  | nil => rfl
  | cons c cs ih =>
      rw [List.infix_cons_iff, not_or] at hcs
      rw [List.cons_append, occurrences_cons, if_neg, ih hcs.2]
      intro hword
      rcases List.prefix_or_prefix_of_prefix hword (List.prefix_append (c :: cs) ds) with hin | hout
      · exact hcs.1 hin
      · obtain ⟨more, rfl⟩ := hout
        cases more with
        | nil => exact hcs.1 (by simp)
        | cons d more =>
            obtain ⟨rest, hrest⟩ := (List.prefix_append_right_inj (c :: cs)).mp hword
            refine hhead d ?_ ?_
            · rw [← hrest]
              exact Option.mem_some_self d
            · simp

/-- No occurrence of a word reaches over a character that it does not have. -/
theorem occurrences_append_cons (hcs : ¬ word <:+: cs) (hc : c ∉ word) :
    occurrences word (cs ++ c :: ds) = occurrences word ds := by
  have hhead : ∀ d ∈ (c :: ds).head?, d ∉ word.tail := by
    rintro d hd hmem
    obtain rfl := Option.mem_some_iff.mp hd
    exact hc (List.mem_of_mem_tail hmem)
  have hnot : ¬ word <+: c :: ds := by
    cases word with
    | nil => exact absurd List.nil_infix hcs
    | cons d word =>
        intro hword
        exact hc ((List.cons_prefix_cons.mp hword).1 ▸ List.mem_cons_self)
  rw [occurrences_append hcs hhead, occurrences_cons, if_neg hnot]

/-- A longer word occurs where the shorter one does, if it stands at each of those places. -/
theorem occurrences_eq_of_prefix {longer : List Char} (hword : word <+: longer)
    (h : ∀ rest ∈ occurrences word cs, longer <+: rest) :
    occurrences longer cs = occurrences word cs := by
  rw [occurrences, occurrences]
  refine List.filter_congr fun rest hrest => Bool.eq_iff_iff.mpr ?_
  rw [List.isPrefixOf_iff_prefix, List.isPrefixOf_iff_prefix]
  refine ⟨hword.trans, fun hshort => h rest ?_⟩
  exact mem_occurrences_iff.mpr ⟨(List.mem_tails _ _).mp hrest, hshort⟩

end DesignTokens.Text

namespace DesignTokens.Placeholder

open Text CustomProperty

section Replacing

/-- A text holds a placeholder: a path between braces that ends in `.value`. -/
def HasPlaceholder (text : String) : Prop :=
  ∃ front path back, text = front ++ "\x7b" ++ path ++ ".value\x7d" ++ back ∧ Names path.toList

/-- A text, the paths of its placeholders from left to right, and what the text becomes when each
placeholder is replaced and all else stays in its place. -/
inductive Replaced (f : String → String) : String → List String → String → Prop
  | none {text : String} (h : ¬ HasPlaceholder text) : Replaced f text [] text
  | next {front path back out : String} {paths : List String} (hfront : ¬ HasPlaceholder front)
      (hpath : Names path.toList) (rest : Replaced f back paths out) :
      Replaced f (front ++ "\x7b" ++ path ++ ".value\x7d" ++ back) (path :: paths)
        (front ++ f path ++ out)

variable {f : String → String} {text : String}

theorem hasPlaceholder_of_reference {pieces : List Segment} {path : String}
    (hpath : Names path.toList) (h : .reference path ∈ pieces) :
    HasPlaceholder (sourceText pieces) := by
  obtain ⟨before, after, rfl⟩ := List.append_of_mem h
  refine ⟨sourceText before, path, sourceText after, ?_, hpath⟩
  apply String.toList_injective
  simp [toList_sourceText, Segment.source]

theorem hasReference_iff_hasPlaceholder : hasReference text = true ↔ HasPlaceholder text := by
  rw [hasReference_iff]
  constructor
  · rintro ⟨path, hpath⟩
    have hnames := (scans_outside text.toList).names_of_reference hpath
    have hhas := hasPlaceholder_of_reference hnames hpath
    rwa [sourceText_scan] at hhas
  · rintro ⟨front, path, back, rfl, hpath⟩
    obtain ⟨before, hscan, -⟩ := scan_placeholder hpath front back
    exact ⟨path, by simp [hscan]⟩

/-- A text with a placeholder has a first one. -/
theorem HasPlaceholder.exists_first (h : HasPlaceholder text) :
    ∃ front path back, text = front ++ "\x7b" ++ path ++ ".value\x7d" ++ back ∧
      Names path.toList ∧ ¬ HasPlaceholder front := by
  obtain ⟨front, path, back, rfl, hpath⟩ := h
  induction hn : front.length using Nat.strong_induction_on generalizing front path back with
  | _ n ih =>
      subst hn
      by_cases hfront : HasPlaceholder front
      · obtain ⟨start, first, rest, rfl, hfirst⟩ := hfront
        have hshorter : start.length <
            (start ++ "\x7b" ++ first ++ ".value\x7d" ++ rest).length := by
          simp only [String.length_append]
          have hbrace : "\x7b".length = 1 := rfl
          omega
        obtain ⟨front', path', back', heq, hwhole⟩ := ih _ hshorter start first
          (rest ++ "\x7b" ++ path ++ ".value\x7d" ++ back) hfirst rfl
        exact ⟨front', path', back', by simpa only [String.append_assoc] using heq, hwhole⟩
      · exact ⟨front, path, back, rfl, hpath, hfront⟩

/-- What is written for a text is the text with its placeholders replaced, and the references are
the paths of these placeholders. -/
theorem replaced_expand (f : String → String) (text : String) :
    Replaced f text (references text) (expand f text) := by
  induction hn : text.length using Nat.strong_induction_on generalizing text with
  | _ n ih =>
      subst hn
      by_cases h : HasPlaceholder text
      · obtain ⟨front, path, back, rfl, hpath, hfront⟩ := h.exists_first
        obtain ⟨before, hscan, rfl⟩ := scan_placeholder hpath front back
        have hbefore : ∀ other, .reference other ∉ before := by
          intro other hother
          refine hfront (hasPlaceholder_of_reference ?_ hother)
          exact (scans_outside _).names_of_reference (hscan ▸ List.mem_append_left _ hother)
        have hpaths : before.filterMap Segment.path? = [] := by
          refine List.filterMap_eq_nil_iff.mpr fun s hs => ?_
          cases s with
          | literal | malformed => rfl
          | reference other => exact absurd hs (hbefore other)
        have hshorter : back.length <
            (sourceText before ++ "\x7b" ++ path ++ ".value\x7d" ++ back).length := by
          simp only [String.length_append]
          have hbrace : "\x7b".length = 1 := rfl
          omega
        have hout : expand f (sourceText before ++ "\x7b" ++ path ++ ".value\x7d" ++ back) =
            sourceText before ++ f path ++ expand f back := by
          rw [expand, hscan, List.map_append, List.map_cons, map_expand_of_not_reference hbefore,
            String.join_append, String.join_cons, String.append_assoc]
          rfl
        have hreferences :
            references (sourceText before ++ "\x7b" ++ path ++ ".value\x7d" ++ back) =
              path :: references back := by
          rw [references_eq_path?, references_eq_path?, hscan, List.filterMap_append, hpaths]
          rfl
        rw [hout, hreferences]
        exact .next hfront hpath (ih _ hshorter back rfl)
      · rw [← hasReference_iff_hasPlaceholder, Bool.not_eq_true] at h
        have hnone : references text = [] := by
          rw [← not_not (a := references text = []), ← ne_eq, ← hasReference_iff_references, h]
          exact Bool.false_ne_true
        rw [hnone, expand_of_not_hasReference h]
        refine .none ?_
        rw [← hasReference_iff_hasPlaceholder, h]
        exact Bool.false_ne_true

end Replacing

section Counting

variable {stem path text out : String} {paths : List String}

/-- A hyphenated path holds no `var(` that the path does not hold. -/
theorem not_infix_hyphenated (h : ¬ "var(".toList <:+: path.toList) :
    ¬ "var(".toList <:+: (hyphenated path).toList := by
  have hchars : (hyphenated path).toList =
      path.toList.map fun c => if c = '.' then '-' else c := String.toList_ofList
  rw [hchars, List.infix_map_iff]
  rintro ⟨part, hpart, hword⟩
  have hsame : (part.map fun c => if c = '.' then '-' else c) = part := by
    refine (List.map_congr_left fun c hc => ?_).trans (List.map_id part)
    have hmem : (if c = '.' then '-' else c) ∈ "var(".toList := hword ▸ List.mem_map_of_mem hc
    split at hmem
    · exact absurd hmem (by decide)
    · exact if_neg ‹_›
  exact h (hword.trans hsame ▸ hpart)

theorem toList_reference_append (stem path : String) (rest : List Char) :
    (reference (nameOfDotted stem path)).toList ++ rest =
      'v' :: ("ar(-".toList ++ '-' :: (stem.toList ++ '-' ::
        ((hyphenated path).toList ++ ')' :: rest))) := by
  simp [reference, nameOfDotted]

/-- In front of any text, the expression for a placeholder is one occurrence of `var(`. -/
theorem occurrences_reference_append (hstem : ¬ "var(".toList <:+: stem.toList)
    (hpath : ¬ "var(".toList <:+: path.toList) (rest : List Char) :
    occurrences "var(".toList ((reference (nameOfDotted stem path)).toList ++ rest) =
      ((reference (nameOfDotted stem path)).toList ++ rest) ::
        occurrences "var(".toList rest := by
  rw [toList_reference_append, occurrences_cons, if_pos ⟨_, rfl⟩,
    occurrences_append_cons (by decide) (by decide), occurrences_append_cons hstem (by decide),
    occurrences_append_cons (not_infix_hyphenated hpath) (by decide)]

/-- The `var()` expressions of a text whose placeholders are replaced are the new ones. -/
theorem Replaced.forall₂_occurrences
    (h : Replaced (fun path => reference (nameOfDotted stem path)) text paths out)
    (hstem : ¬ "var(".toList <:+: stem.toList) (htext : ¬ "var(".toList <:+: text.toList) :
    List.Forall₂ (fun path rest => (reference (nameOfDotted stem path)).toList <+: rest) paths
      (occurrences "var(".toList out.toList) := by
  induction h with
  | @none text hnone =>
      rw [occurrences_eq_nil_iff.mpr htext]
      exact .nil
  | @next front path back out paths hfront hpath rest ih =>
      have hwithin : ∀ part : String, part.toList <:+:
          (front ++ "\x7b" ++ path ++ ".value\x7d" ++ back).toList →
          ¬ "var(".toList <:+: part.toList :=
        fun part hpart hword => htext (hword.trans hpart)
      have hback := ih (hwithin back ⟨(front ++ "\x7b" ++ path ++ ".value\x7d").toList, [], by simp⟩)
      have hfront : ¬ "var(".toList <:+: front.toList :=
        hwithin front ⟨[], ("\x7b" ++ path ++ ".value\x7d" ++ back).toList, by simp⟩
      have hpath : ¬ "var(".toList <:+: path.toList :=
        hwithin path ⟨(front ++ "\x7b").toList, (".value\x7d" ++ back).toList, by simp⟩
      have hhead : ∀ c ∈ ((reference (nameOfDotted stem path)).toList ++ out.toList).head?,
          c ∉ "var(".toList.tail := by
        rw [toList_reference_append]
        rintro c hc
        obtain rfl := Option.mem_some_iff.mp hc
        decide
      rw [String.toList_append, String.toList_append, List.append_assoc,
        occurrences_append hfront hhead, occurrences_reference_append hstem hpath]
      exact .cons (List.prefix_append _ _) hback

end Counting

/-- In the stylesheet each placeholder of a text becomes the `var()` expression for its path, and all
else stays in its place. If neither the text nor the stem of the names holds `var(`, then the output
holds as many `var(--` as the text has placeholders, and each stands where the expression for the
placeholder of the same position begins. -/
theorem renderCss_occurrences (stem text : String) (hstem : ¬ "var(".toList <:+: stem.toList)
    (htext : ¬ "var(".toList <:+: text.toList) :
    Replaced (fun path => "var(--" ++ stem ++ "-" ++ hyphenated path ++ ")") text
        (references text) (renderCss stem text) ∧
      (occurrences "var(--".toList (renderCss stem text).toList).length =
        (references text).length ∧
      List.Forall₂
        (fun path rest => ("var(--" ++ stem ++ "-" ++ hyphenated path ++ ")").toList <+: rest)
        (references text) (occurrences "var(--".toList (renderCss stem text).toList) := by
  have hreference : ∀ path, reference (nameOfDotted stem path) =
      "var(--" ++ stem ++ "-" ++ hyphenated path ++ ")" := by
    intro path
    apply String.toList_injective
    simp [reference, nameOfDotted]
  have hreplaced := replaced_expand (fun path => reference (nameOfDotted stem path)) text
  rw [← renderCss_eq_expand] at hreplaced
  have hall := hreplaced.forall₂_occurrences hstem htext
  have hlonger : occurrences "var(--".toList (renderCss stem text).toList =
      occurrences "var(".toList (renderCss stem text).toList := by
    refine occurrences_eq_of_prefix (by decide) fun rest hrest => ?_
    have hword : List.Forall₂
        (fun rest path => "var(--".toList <+: rest ∧
          (reference (nameOfDotted stem path)).toList <+: rest)
        (occurrences "var(".toList (renderCss stem text).toList) (references text) := by
      refine hall.flip.imp fun rest path hrest => ⟨.trans ?_ hrest, hrest⟩
      exact ⟨(stem ++ "-" ++ hyphenated path ++ ")").toList, by simp [reference, nameOfDotted]⟩
    exact ((List.forall₂_and_left _ _).mp hword).1 rest hrest
  simp only [← hreference]
  rw [hlonger]
  exact ⟨hreplaced, hall.length_eq.symm, hall⟩

/-- A stray brace and the start of a word in front of a placeholder do not matter. -/
theorem renderCss_occurrences_stray :
    renderCss "ink" "\x7ba.\x7bb.c.value\x7d va\x7bd.value\x7d" =
        "\x7ba.var(--ink-b-c) vavar(--ink-d)" ∧
      references "\x7ba.\x7bb.c.value\x7d va\x7bd.value\x7d" = ["b.c", "d"] ∧
      (occurrences "var(--".toList "\x7ba.var(--ink-b-c) vavar(--ink-d)".toList).length = 2 := by
  have hout : renderCss "ink" "\x7ba.\x7bb.c.value\x7d va\x7bd.value\x7d" =
      "\x7ba.var(--ink-b-c) vavar(--ink-d)" := by decide
  have hpaths : references "\x7ba.\x7bb.c.value\x7d va\x7bd.value\x7d" = ["b.c", "d"] := by decide
  obtain ⟨-, hcount, -⟩ := renderCss_occurrences "ink" "\x7ba.\x7bb.c.value\x7d va\x7bd.value\x7d"
    (by decide) (by decide)
  rw [hout, hpaths] at hcount
  exact ⟨hout, hpaths, hcount⟩

end DesignTokens.Placeholder
