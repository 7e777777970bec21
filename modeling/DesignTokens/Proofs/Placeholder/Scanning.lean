import DesignTokens.Proofs.Placeholder.Replacement
import Mathlib.Algebra.Ring.Nat
import Mathlib.Data.List.Chain

/-!
What the pieces of a text are. Scanning goes on from brace to brace: each turn cuts off the text in
front of the next open brace and what the brace begins, until there is no brace to open or none to
close. The references among the pieces are the placeholders that stand in the text, each at its
place, and no other piece hides one.
-/

namespace DesignTokens.Placeholder

variable {cs front back body : List Char}

/-- The length of a piece in bytes: a reference has two braces and `.value` around its path. -/
def Segment.byteLength : Segment → Nat
  | literal text => text.utf8ByteSize
  | reference path => path.utf8ByteSize + (String.ofList valueSuffix).utf8ByteSize + 2
  | malformed text => text.utf8ByteSize

theorem byteLength_eq (s : Segment) : s.byteLength = s.source.utf8ByteSize := by
  cases s with
  | literal | malformed => rfl
  | reference path =>
      have hend : (String.ofList valueSuffix).utf8ByteSize = 6 := by decide
      have hopen : "\x7b".utf8ByteSize = 1 := by decide
      have hclose : ".value\x7d".utf8ByteSize = 7 := by decide
      rw [Segment.byteLength, Segment.source, String.utf8ByteSize_append,
        String.utf8ByteSize_append, hend, hopen, hclose]
      omega

/-- The text that pieces were read from. -/
def sourceText (pieces : List Segment) : String :=
  String.join (pieces.map Segment.source)

theorem toList_sourceText (pieces : List Segment) :
    (sourceText pieces).toList = sourceChars pieces := by
  rw [sourceText, String.toList_join, List.flatMap_map]
  rfl

theorem sourceText_scan (text : String) : sourceText (scan text) = text := by
  apply String.toList_injective
  rw [toList_sourceText, sourceChars_scan]

theorem sum_byteLength (pieces : List Segment) :
    (pieces.map Segment.byteLength).sum = (sourceText pieces).utf8ByteSize := by
  induction pieces with
  | nil => rfl
  | cons s rest ih =>
      rw [List.map_cons, List.sum_cons, ih, byteLength_eq, sourceText, sourceText, List.map_cons,
        String.join_cons, String.utf8ByteSize_append]

section Turns

/-- The turns of scanning a text: what is cut off at the next open brace, up to a text without one or
an open brace that nothing closes. -/
inductive Scans : List Char → List Segment → Prop
  | plain {cs : List Char} (hcs : '\x7b' ∉ cs) : Scans cs (literalOf cs)
  | unclosed {front rest : List Char} (hfront : '\x7b' ∉ front) (hrest : '\x7d' ∉ rest) :
      Scans (front ++ '\x7b' :: rest) (literalOf front ++ [Placeholder.unclosed rest])
  | stray {front body rest : List Char} {pieces : List Segment} (hfront : '\x7b' ∉ front)
      (hbody : Smooth body) (hrest : '\x7d' ∈ rest) (next : Scans ('\x7b' :: rest) pieces) :
      Scans (front ++ '\x7b' :: (body ++ '\x7b' :: rest))
        (literalOf front ++ Placeholder.unclosed body :: pieces)
  | closed {front body rest : List Char} {pieces : List Segment} (hfront : '\x7b' ∉ front)
      (hbody : Smooth body) (next : Scans rest pieces) :
      Scans (front ++ '\x7b' :: (body ++ '\x7d' :: rest))
        (literalOf front ++ Placeholder.closed body :: pieces)

theorem outside_of_not_open (done : List Char) (h : '\x7b' ∉ cs) :
    outside done cs = literalOf (done ++ cs) := by
  induction cs generalizing done with
  | nil => rw [outside, List.append_nil]
  | cons c cs ih =>
      obtain ⟨hc, hcs⟩ := List.ne_and_not_mem_of_not_mem_cons h
      rw [outside, if_neg hc.symm, ih _ hcs, List.append_assoc, List.singleton_append]

theorem outside_append_open (done rest : List Char) (h : '\x7b' ∉ front) :
    outside done (front ++ '\x7b' :: rest) = literalOf (done ++ front) ++ inside [] rest := by
  induction front generalizing done with
  | nil => rw [List.nil_append, outside, if_pos rfl, List.append_nil]
  | cons c front ih =>
      obtain ⟨hc, hfront⟩ := List.ne_and_not_mem_of_not_mem_cons h
      rw [List.cons_append, outside, if_neg hc.symm, ih _ hfront, List.append_assoc,
        List.singleton_append]

theorem inside_of_not_close (done : List Char) (h : '\x7d' ∉ cs) :
    inside done cs = [unclosed (done ++ cs)] := by
  induction cs generalizing done with
  | nil => rw [inside, List.append_nil]
  | cons c cs ih =>
      obtain ⟨hc, hcs⟩ := List.ne_and_not_mem_of_not_mem_cons h
      rw [inside, if_neg hc.symm, if_neg hcs]
      split
      · rfl
      · rw [ih _ hcs, List.append_assoc, List.singleton_append]

theorem inside_append_smooth (done rest : List Char) (h : Smooth body) :
    inside done (body ++ rest) = inside (done ++ body) rest := by
  induction body generalizing done with
  | nil => rw [List.nil_append, List.append_nil]
  | cons c body ih =>
      obtain ⟨hopen, hbody⟩ := List.ne_and_not_mem_of_not_mem_cons h.1
      obtain ⟨hclose, hbody'⟩ := List.ne_and_not_mem_of_not_mem_cons h.2
      rw [List.cons_append, inside, if_neg hclose.symm, if_neg hopen.symm, ih _ ⟨hbody, hbody'⟩,
        List.append_assoc, List.singleton_append]

theorem inside_append_close (rest : List Char) (h : Smooth body) :
    inside [] (body ++ '\x7d' :: rest) = closed body :: outside [] rest := by
  rw [inside_append_smooth _ _ h, List.nil_append, inside, if_pos rfl]

theorem inside_append_open {rest : List Char} (h : Smooth body) (hrest : '\x7d' ∈ rest) :
    inside [] (body ++ '\x7b' :: rest) = unclosed body :: outside [] ('\x7b' :: rest) := by
  rw [inside_append_smooth _ _ h, List.nil_append, inside, if_neg (by decide), if_pos rfl,
    if_pos hrest, outside, if_pos rfl]
  rfl

/-- Scanning comes to an end: every turn leaves less text for the next one. -/
theorem scans_outside (cs : List Char) : Scans cs (outside [] cs) := by
  induction hn : cs.length using Nat.strong_induction_on generalizing cs with
  | _ n ih =>
      subst hn
      by_cases hopen : '\x7b' ∈ cs
      · obtain ⟨front, rest, rfl, hfront⟩ := List.eq_append_cons_of_mem hopen
        rw [outside_append_open _ _ hfront, List.nil_append]
        by_cases hclose : '\x7d' ∈ rest
        · obtain ⟨body, more, rfl, hbody⟩ := List.eq_append_cons_of_mem hclose
          by_cases hnested : '\x7b' ∈ body
          · obtain ⟨part, deeper, rfl, hpart⟩ := List.eq_append_cons_of_mem hnested
            rw [List.mem_append, not_or] at hbody
            have hmore : '\x7d' ∈ deeper ++ '\x7d' :: more := by simp
            rw [List.append_assoc, List.cons_append, inside_append_open ⟨hpart, hbody.1⟩ hmore]
            exact .stray hfront ⟨hpart, hbody.1⟩ hmore (ih _ (by simp; omega) _ rfl)
          · rw [inside_append_close _ ⟨hnested, hbody⟩]
            exact .closed hfront ⟨hnested, hbody⟩ (ih _ (by simp; omega) _ rfl)
        · rw [inside_of_not_close _ hclose, List.nil_append]
          exact .unclosed hfront hclose
      · rw [outside_of_not_open _ hopen, List.nil_append]
        exact .plain hopen

end Turns

section Literals

/-- The text of a literal. -/
def Segment.literal? : Segment → Option String
  | literal text => some text
  | _ => none

/-- One of two pieces is no literal. -/
def Apart (s t : Segment) : Prop :=
  s.literal? = none ∨ t.literal? = none

@[simp] theorem literal?_unclosed (body : List Char) : (unclosed body).literal? = none := rfl

@[simp] theorem literal?_closed (body : List Char) : (closed body).literal? = none := by
  unfold closed
  split
  · split <;> rfl
  · rfl

theorem ne_empty_of_mem_literalOf {part : String} (h : .literal part ∈ literalOf cs) :
    part ≠ "" := by
  cases cs with
  | nil => exact absurd h List.not_mem_nil
  | cons c cs =>
      obtain rfl := Segment.literal.inj (List.mem_singleton.mp h)
      intro hempty
      exact absurd (congrArg String.toList hempty) (by simp)

theorem isChain_literalOf_append {s : Segment} {pieces : List Segment} (hs : s.literal? = none)
    (h : pieces.IsChain Apart) : (literalOf cs ++ s :: pieces).IsChain Apart := by
  have hrest : (s :: pieces).IsChain Apart :=
    List.isChain_cons.mpr ⟨fun _ _ => .inl hs, h⟩
  cases cs with
  | nil => exact hrest
  | cons c cs => exact List.isChain_cons_cons.mpr ⟨.inr hs, hrest⟩

/-- Literals are not empty, and two of them never stand side by side. -/
theorem Scans.literals {pieces : List Segment} (h : Scans cs pieces) :
    (∀ part, .literal part ∈ pieces → part ≠ "") ∧ pieces.IsChain Apart := by
  have hstep : ∀ (front : List Char) (s : Segment) (pieces : List Segment), s.literal? = none →
      (∀ part, .literal part ∈ pieces → part ≠ "") ∧ pieces.IsChain Apart →
      (∀ part, .literal part ∈ literalOf front ++ s :: pieces → part ≠ "") ∧
        (literalOf front ++ s :: pieces).IsChain Apart := by
    rintro front s pieces hs ⟨hparts, hchain⟩
    refine ⟨fun part hpart => ?_, isChain_literalOf_append hs hchain⟩
    rcases List.mem_append.mp hpart with hpart | hpart
    · exact ne_empty_of_mem_literalOf hpart
    · rcases List.mem_cons.mp hpart with rfl | hpart
      · exact absurd hs nofun
      · exact hparts part hpart
  induction h with
  | @plain cs hcs =>
      refine ⟨fun part => ne_empty_of_mem_literalOf, ?_⟩
      cases cs with
      | nil => exact .nil
      | cons c cs => exact .singleton _
  | @unclosed front rest hfront hrest =>
      exact hstep front _ [] (literal?_unclosed rest) ⟨fun _ h => absurd h List.not_mem_nil, .nil⟩
  | @stray front body rest pieces hfront hbody hrest next ih =>
      exact hstep front _ pieces (literal?_unclosed body) ih
  | @closed front body rest pieces hfront hbody next ih =>
      exact hstep front _ pieces (literal?_closed body) ih

end Literals

section Places

/-- Whether a text can be the path of a placeholder: it has no braces and is not blank. -/
def Names (path : List Char) : Prop :=
  Smooth path ∧ Text.isAllBlank path = false

theorem closed_of_names {path : List Char} (h : Names path) :
    closed (path ++ valueSuffix) = .reference (String.ofList path) := by
  rw [closed, Text.stripEnd_append]
  simp [h.2]

theorem smooth_append_valueSuffix {path : List Char} (h : Smooth path) :
    Smooth (path ++ valueSuffix) :=
  ⟨by simpa using ⟨h.1, by decide⟩, by simpa using ⟨h.2, by decide⟩⟩

theorem names_of_closed {path : String} (hbody : Smooth body) (h : closed body = .reference path) :
    Names path.toList := by
  rw [closed] at h
  split at h
  · rename_i found hfound
    split at h
    · cases h
    · rename_i hblank
      obtain rfl := Segment.reference.inj h
      have happend := Text.eq_append_of_stripEnd hfound
      subst happend
      rw [String.toList_ofList]
      refine ⟨⟨fun hmem => hbody.1 ?_, fun hmem => hbody.2 ?_⟩, Bool.not_eq_true _ ▸ hblank⟩
      · exact List.mem_append_left _ hmem
      · exact List.mem_append_left _ hmem
  · cases h

/-- The path of a reference could be written in a placeholder. -/
theorem Scans.names_of_reference {pieces : List Segment} (h : Scans cs pieces) {path : String}
    (hpath : .reference path ∈ pieces) : Names path.toList := by
  have hliteral : ∀ front, Segment.reference path ∉ literalOf front := by
    intro front hmem
    cases front with
    | nil => exact absurd hmem List.not_mem_nil
    | cons c front => exact absurd (List.mem_singleton.mp hmem) nofun
  induction h with
  | @plain cs hcs => exact absurd hpath (hliteral cs)
  | @unclosed front rest hfront hrest =>
      have hmem := (List.mem_append.mp hpath).resolve_left (hliteral front)
      exact absurd (List.mem_singleton.mp hmem) nofun
  | @stray front body rest pieces hfront hbody hrest next ih =>
      have hmem := (List.mem_append.mp hpath).resolve_left (hliteral front)
      exact ih ((List.mem_cons.mp hmem).resolve_left nofun)
  | @closed front body rest pieces hfront hbody next ih =>
      have hmem := (List.mem_append.mp hpath).resolve_left (hliteral front)
      rcases List.mem_cons.mp hmem with heq | hmem
      · exact names_of_closed hbody heq.symm
      · exact ih hmem

mutual

/-- Braces around a text without braces are found, whatever stands in front of them. -/
theorem outside_append_closed (hbody : Smooth body) (done front back : List Char) :
    ∃ before, outside done (front ++ '\x7b' :: (body ++ '\x7d' :: back)) =
      before ++ closed body :: outside [] back := by
  cases front with
  | nil =>
      rw [List.nil_append, outside, if_pos rfl, inside_append_close _ hbody]
      exact ⟨_, rfl⟩
  | cons c front =>
      rw [List.cons_append, outside]
      split
      · obtain ⟨before, hbefore⟩ := inside_append_closed hbody [] front back
        exact ⟨literalOf done ++ before, by rw [hbefore, List.append_assoc]⟩
      · exact outside_append_closed hbody (done ++ [c]) front back

theorem inside_append_closed (hbody : Smooth body) (done front back : List Char) :
    ∃ before, inside done (front ++ '\x7b' :: (body ++ '\x7d' :: back)) =
      before ++ closed body :: outside [] back := by
  -- a brace closes behind the front, so that the scan does not stop in it
  have hclose : ∀ front : List Char, '\x7d' ∈ front ++ '\x7b' :: (body ++ '\x7d' :: back) := by
    simp
  cases front with
  | nil =>
      have hmem : '\x7d' ∈ body ++ '\x7d' :: back := by simp
      rw [List.nil_append, inside, if_neg (by decide), if_pos rfl, if_pos hmem,
        inside_append_close _ hbody]
      exact ⟨[unclosed done], rfl⟩
  | cons c front =>
      rw [List.cons_append, inside]
      split
      · obtain ⟨before, hbefore⟩ := outside_append_closed hbody [] front back
        exact ⟨closed done :: before, by rw [hbefore, List.cons_append]⟩
      · split
        · obtain ⟨before, hbefore⟩ := inside_append_closed hbody [] front back
          exact ⟨unclosed done :: before, by rw [if_pos (hclose front), hbefore, List.cons_append]⟩
        · exact inside_append_closed hbody (done ++ [c]) front back

end

/-- A placeholder in a text is a piece of its own, and the text behind it is split for itself. -/
theorem scan_placeholder {path : String} (hpath : Names path.toList) (front back : String) :
    ∃ before, scan (front ++ "\x7b" ++ path ++ ".value\x7d" ++ back) =
        before ++ .reference path :: scan back ∧ sourceText before = front := by
  have htext : (front ++ "\x7b" ++ path ++ ".value\x7d" ++ back).toList =
      front.toList ++ '\x7b' :: (path.toList ++ valueSuffix ++ '\x7d' :: back.toList) := by
    simp [valueSuffix]
  obtain ⟨before, hbefore⟩ :=
    outside_append_closed (smooth_append_valueSuffix hpath.1) [] front.toList back.toList
  rw [closed_of_names hpath, String.ofList_toList] at hbefore
  have hwhole := sourceChars_outside [] (front.toList ++
    '\x7b' :: (path.toList ++ valueSuffix ++ '\x7d' :: back.toList))
  rw [hbefore, sourceChars_append, sourceChars_cons, sourceChars_outside, List.nil_append] at hwhole
  refine ⟨before, by rw [scan, htext, hbefore, scan], ?_⟩
  apply String.toList_injective
  rw [toList_sourceText]
  refine List.append_cancel_right (hwhole.trans ?_)
  simp [Segment.source, valueSuffix]

theorem exists_scan_of_placeholder {front path back : String} (hpath : Names path.toList) :
    ∃ before after, scan (front ++ "\x7b" ++ path ++ ".value\x7d" ++ back) =
        before ++ .reference path :: after ∧
      sourceText before = front ∧ sourceText after = back := by
  obtain ⟨before, hscan, hfront⟩ := scan_placeholder hpath front back
  exact ⟨before, scan back, hscan, hfront, sourceText_scan back⟩

/-- The pieces around a reference tell where its placeholder stands. -/
theorem eq_placeholder_of_scan {text path : String} {before after : List Segment}
    (h : scan text = before ++ .reference path :: after) :
    text = sourceText before ++ "\x7b" ++ path ++ ".value\x7d" ++ sourceText after ∧
      Names path.toList := by
  constructor
  · apply String.toList_injective
    rw [← sourceChars_scan, h]
    simp [toList_sourceText, Segment.source]
  · have hmem : .reference path ∈ scan text := by simp [h]
    exact (scans_outside text.toList).names_of_reference hmem

end Places

theorem references_eq_path? (text : String) :
    references text = (scan text).filterMap Segment.path? := by
  rw [references_eq_paths, path?_scan]

theorem hasReference_iff_references {text : String} :
    hasReference text = true ↔ references text ≠ [] := by
  rw [hasReference_iff_paths, references_eq_paths]

/-- Scanning a text ends. Its pieces cover the text and add up to its length; no literal among them
is empty or stands beside another one. The references are the placeholders of the text, each between
the pieces of what stands in front of it and behind it. The shortcuts agree with that: they find the
same references, and a text without any is rendered as it stands. -/
theorem scan_correct (text : String) :
    Scans text.toList (scan text) ∧
      sourceText (scan text) = text ∧
      ((scan text).map Segment.byteLength).sum = text.utf8ByteSize ∧
      (∀ part, .literal part ∈ scan text → part ≠ "") ∧
      (∀ before one other after,
        scan text ≠ before ++ .literal one :: .literal other :: after) ∧
      (∀ front path back : String,
        (text = front ++ "\x7b" ++ path ++ ".value\x7d" ++ back ∧ Smooth path.toList ∧
            Text.isAllBlank path.toList = false) ↔
          ∃ before after, scan text = before ++ .reference path :: after ∧
            sourceText before = front ∧ sourceText after = back) ∧
      references text = (scan text).filterMap Segment.path? ∧
      (hasReference text = true ↔ references text ≠ []) ∧
      (references text = [] → ∀ target stem, render target stem text = text) := by
  have hscans : Scans text.toList (scan text) := scans_outside text.toList
  obtain ⟨hliterals, hchain⟩ := hscans.literals
  refine ⟨hscans, sourceText_scan text, ?_, hliterals, ?_, ?_, references_eq_path? text,
    hasReference_iff_references, ?_⟩
  · rw [sum_byteLength, sourceText_scan]
  · intro before one other after h
    have hapart : Apart (.literal one) (.literal other) :=
      (List.isChain_append_cons_cons.mp (h ▸ hchain)).2.1
    rcases hapart with hnone | hnone <;> exact absurd hnone nofun
  · intro front path back
    constructor
    · rintro ⟨rfl, hpath⟩
      exact exists_scan_of_placeholder hpath
    · rintro ⟨before, after, hscan, rfl, rfl⟩
      exact eq_placeholder_of_scan hscan
  · intro hnone target stem
    rw [render_eq_expand]
    refine expand_of_not_hasReference ?_
    rw [← Bool.not_eq_true, hasReference_iff_references, not_not]
    exact hnone

/-- A text with a name that lacks its end and with a brace that nothing closes has no reference. -/
theorem scan_correct_malformed :
    references "x \x7ba\x7d \x7b\x7bb.value" = [] ∧
      render .cssReference "sando" "x \x7ba\x7d \x7b\x7bb.value" =
        "x \x7ba\x7d \x7b\x7bb.value" := by
  have hnone : references "x \x7ba\x7d \x7b\x7bb.value" = [] := by decide
  obtain ⟨-, -, -, -, -, -, -, -, hrender⟩ := scan_correct "x \x7ba\x7d \x7b\x7bb.value"
  exact ⟨hnone, hrender hnone .cssReference "sando"⟩

end DesignTokens.Placeholder
