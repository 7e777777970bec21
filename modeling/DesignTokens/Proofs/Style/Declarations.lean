import DesignTokens.Proofs.CustomProperty
import DesignTokens.Proofs.Style.Grouping
import DesignTokens.Proofs.Text.Blanks
import DesignTokens.Proofs.Text.Lines

/-!
Declarations read back from the text of a stylesheet. A line that begins with two hyphens, blanks apart,
declares a property. Every block declares each token once, in the order of the groups and at whatever
depth it is nested; nothing else in it can be taken for a declaration.
-/

namespace DesignTokens

open Text

namespace Stylesheet

/-- Whether a line begins with two hyphens, blanks apart. -/
def Declares (line : List Char) : Prop :=
  "--".toList <+: trim line

instance (line : List Char) : Decidable (Declares line) :=
  inferInstanceAs (Decidable (_ <+: _))

/-- The declaration in a line. -/
def declaration? (line : String) : Option String :=
  if Declares line.toList then some (String.ofList (trim line.toList)) else none

/-- The declarations in a text, one a line. -/
def declarationsIn (text : String) : List String :=
  ((splitAt '\n' text.toList).map String.ofList).filterMap declaration?

section Line

variable {front tail line : List Char} {c : Char}

theorem declares_iff : Declares line ↔ ∃ rest, trimStart line = '-' :: '-' :: rest := by
  have hhyphen : isBlank '-' = false := by decide
  constructor
  · intro h
    obtain ⟨rest, hrest⟩ := List.IsPrefix.trans h (isPrefix_trimEnd (trimStart line))
    exact ⟨rest, hrest.symm⟩
  · rintro ⟨rest, hrest⟩
    have htrim : trim line = ['-'] ++ '-' :: trimEnd rest := by
      rw [trim, hrest]
      exact trimEnd_append hhyphen ['-'] rest
    rw [Declares, htrim]
    exact ⟨trimEnd rest, rfl⟩

theorem declares_append_of_blank (h : ∀ c ∈ front, isBlank c = true) :
    Declares (front ++ line) ↔ Declares line := by
  rw [Declares, trim_append_of_blank h, Declares]

theorem not_declares_cons (hblank : isBlank c = false) (hc : c ≠ '-') : ¬ Declares (c :: line) := by
  rw [declares_iff, trimStart_cons hblank]
  rintro ⟨rest, hrest⟩
  exact hc (List.cons.inj hrest).1

/-- What is put behind a text makes it no declaration, unless it begins with a hyphen itself. -/
theorem not_declares_append (hline : ¬ Declares line) (htail : ¬ Declares tail)
    (hhead : tail.head? ≠ some '-') : ¬ Declares (line ++ tail) := by
  rw [declares_iff] at hline htail ⊢
  rintro ⟨rest, hrest⟩
  rw [trimStart, List.dropWhile_append] at hrest
  split at hrest
  · exact htail ⟨rest, hrest⟩
  · cases hstart : line.dropWhile isBlank with
    | nil => rename_i hne; exact hne (by rw [hstart]; rfl)
    | cons c cs =>
        rw [hstart, List.cons_append] at hrest
        obtain ⟨hc, hbehind⟩ := List.cons.inj hrest
        cases cs with
        | nil =>
            rw [List.nil_append] at hbehind
            exact hhead (by rw [hbehind]; rfl)
        | cons d ds =>
            obtain ⟨hd, -⟩ := List.cons.inj hbehind
            exact hline ⟨ds, by rw [trimStart, hstart, hc, hd]⟩

/-- A text without a line break that cannot be taken for the start of a declaration. -/
def Inert (text : String) : Prop :=
  '\n' ∉ text.toList ∧ ¬ Declares text.toList

theorem Inert.append {text ending : String} (h : Inert text) (hending : Inert ending)
    (hhead : ending.toList.head? ≠ some '-') : Inert (text ++ ending) := by
  rw [Inert, String.toList_append, List.mem_append, not_or]
  exact ⟨⟨h.1, hending.1⟩, not_declares_append h.2 hending.2 hhead⟩

theorem inert_of_head {text : String} (hbreak : '\n' ∉ text.toList)
    (hhead : text.toList.head? = some c) (hblank : isBlank c = false) (hc : c ≠ '-') : Inert text := by
  obtain ⟨rest, hrest⟩ := List.head?_eq_some_iff.mp hhead
  refine ⟨hbreak, ?_⟩
  rw [hrest]
  exact not_declares_cons hblank hc

theorem blank_indentation (depth : Nat) :
    ∀ c ∈ (Json.indentation depth).toList, isBlank c = true := by
  rw [Json.indentation]
  induction depth with
  | zero => exact fun c hc => absurd hc List.not_mem_nil
  | succ depth ih =>
      have htwo : "  ".toList = [' ', ' '] := rfl
      have hspace : isBlank ' ' = true := by decide
      rw [times, String.toList_append, htwo]
      refine List.forall_mem_append.mpr ⟨?_, ih⟩
      exact List.forall_mem_cons.mpr ⟨hspace, List.forall_mem_singleton.mpr hspace⟩

theorem no_break_indentation (depth : Nat) : '\n' ∉ (Json.indentation depth).toList := by
  rw [Json.indentation]
  induction depth with
  | zero => exact List.not_mem_nil
  | succ depth ih =>
      rw [times, String.toList_append, List.mem_append, not_or]
      exact ⟨by decide, ih⟩

theorem Inert.indented {text : String} (h : Inert text) (depth : Nat) :
    Inert (Json.indentation depth ++ text) := by
  rw [Inert, String.toList_append, declares_append_of_blank (blank_indentation depth), List.mem_append,
    not_or]
  exact ⟨⟨no_break_indentation depth, h.1⟩, h.2⟩

end Line

section Body

variable (s : Stylesheet) {tokens : List Token}

/-- No text that goes into the rules for some tokens has a line break. -/
structure OneLine (tokens : List Token) : Prop where
  stem : '\n' ∉ s.stem.toList
  segments : ∀ t ∈ tokens, ∀ segment ∈ t.path, '\n' ∉ segment.toList
  values : ∀ t ∈ tokens, '\n' ∉ (s.declarationValue t).toList
  root : '\n' ∉ s.selectors.root.toList
  flavorAttribute : '\n' ∉ s.selectors.flavorAttribute.toList
  modeAttribute : '\n' ∉ s.selectors.modeAttribute.toList

theorem toList_declaration (t : Token) :
    (s.declaration t).toList = '-' :: '-' :: (s.stem.toList ++ nameChars t.path ++ ": ".toList ++
      (s.declarationValue t).toList) ++ [';'] := by
  rw [declaration, String.toList_append, String.toList_append, String.toList_append, toList_name]
  simp

theorem trim_declaration (t : Token) : trim (s.declaration t).toList = (s.declaration t).toList := by
  have hhyphen : isBlank '-' = false := by decide
  have hsemicolon : isBlank ';' = false := by decide
  rw [toList_declaration, trim, List.cons_append, trimStart_cons hhyphen, ← List.cons_append]
  exact trimEnd_append hsemicolon _ []

theorem declaration?_declaration (depth : Nat) (t : Token) :
    declaration? (Json.indentation depth ++ s.declaration t) = some (s.declaration t) := by
  have htrim : trim (Json.indentation depth ++ s.declaration t).toList = (s.declaration t).toList := by
    rw [String.toList_append, trim_append_of_blank (blank_indentation depth), trim_declaration]
  have hdeclares : Declares (Json.indentation depth ++ s.declaration t).toList := by
    rw [Declares, htrim, toList_declaration]
    exact ⟨_, rfl⟩
  rw [declaration?, if_pos hdeclares, htrim, String.ofList_toList]

theorem not_declares_comment (depth : Nat) (category : String) :
    ¬ Declares (Json.indentation depth ++ "/* " ++ category ++ " */").toList := by
  rw [String.append_assoc, String.append_assoc, String.toList_append,
    declares_append_of_blank (blank_indentation depth), String.toList_append]
  exact not_declares_cons (by decide) (by decide)

theorem filterMap_groupLines (depth : Nat) (group : String × List Token) :
    (s.groupLines (Json.indentation depth) group).filterMap declaration? =
      group.2.map s.declaration := by
  have hcomment : declaration? (Json.indentation depth ++ "/* " ++ group.1 ++ " */") = none :=
    if_neg (not_declares_comment depth group.1)
  have hline : declaration? ∘ (fun t => Json.indentation depth ++ s.declaration t) =
      fun t => some (s.declaration t) :=
    funext (s.declaration?_declaration depth)
  rw [groupLines, List.filterMap_cons_none hcomment, List.filterMap_map, hline,
    List.filterMap_eq_map']

theorem filterMap_bodyLines (depth : Nat) (groups : List (String × List Token)) :
    (s.bodyLines (Json.indentation depth) groups).filterMap declaration? =
      (groups.flatMap Prod.snd).map s.declaration := by
  have hempty : declaration? "" = none := if_neg (by decide)
  induction groups with
  | nil => rfl
  | cons group rest ih =>
      cases rest with
      | nil => rw [bodyLines, filterMap_groupLines, List.flatMap_singleton]
      | cons next rest =>
          rw [bodyLines, List.filterMap_append, filterMap_groupLines,
            List.filterMap_cons_none hempty, ih, ← List.map_append]
          rfl

variable {s} {selectors : List String}

theorem forall_mem_bodyLines {P : String → Prop} {indent : String}
    {groups : List (String × List Token)} (hempty : P "")
    (h : ∀ group ∈ groups, ∀ line ∈ s.groupLines indent group, P line) :
    ∀ line ∈ s.bodyLines indent groups, P line := by
  induction groups with
  | nil => exact fun line hline => absurd hline List.not_mem_nil
  | cons group rest ih =>
      obtain ⟨hfirst, hrest⟩ := List.forall_mem_cons.mp h
      cases rest with
      | nil => exact hfirst
      | cons next rest =>
          rw [bodyLines, List.forall_mem_append, List.forall_mem_cons]
          exact ⟨hfirst, hempty, ih hrest⟩

theorem OneLine.name (h : s.OneLine tokens) {t : Token} (ht : t ∈ tokens) :
    '\n' ∉ (CustomProperty.name s.stem t.path).toList := by
  rw [toList_name, List.mem_append, List.mem_append, nameChars, List.mem_flatMap]
  rintro ((hhyphens | hstem) | ⟨segment, hsegment, hbreak⟩)
  · exact absurd hhyphens (by decide)
  · exact h.stem hstem
  · exact h.segments t ht segment hsegment ((List.mem_cons.mp hbreak).resolve_left (by decide))

theorem OneLine.declaration (h : s.OneLine tokens) {t : Token} (ht : t ∈ tokens) :
    '\n' ∉ (s.declaration t).toList := by
  simp [Stylesheet.declaration, h.name ht, h.values t ht]

theorem OneLine.category (h : s.OneLine tokens) {t : Token} (ht : t ∈ tokens) :
    '\n' ∉ t.category.toList := by
  rw [Token.category]
  cases hpath : t.path with
  | nil => exact List.not_mem_nil
  | cons segment rest => exact h.segments t ht segment (by rw [hpath]; exact List.mem_cons_self)

theorem OneLine.bodyLines (h : s.OneLine tokens) (depth : Nat) :
    ∀ line ∈ s.bodyLines (Json.indentation depth) (groupByCategory tokens), '\n' ∉ line.toList := by
  refine forall_mem_bodyLines List.not_mem_nil fun group hgroup line hline => ?_
  rcases List.mem_cons.mp hline with rfl | hline
  · obtain ⟨t, ht, hcategory⟩ :=
      exists_of_mem_keys_groupByCategory (List.mem_map_of_mem (f := Prod.fst) hgroup)
    have hbreak := h.category ht
    rw [hcategory] at hbreak
    simp [no_break_indentation, hbreak]
  · obtain ⟨t, ht, rfl⟩ := List.mem_map.mp hline
    rw [eq_filter_of_mem_group hgroup] at ht
    simp [no_break_indentation, h.declaration (List.mem_filter.mp ht).1]

theorem inert_selectorLines (h : ∀ selector ∈ selectors, Inert selector) (depth : Nat) :
    ∀ line ∈ selectorLines (Json.indentation depth) selectors, Inert line := by
  induction selectors with
  | nil => exact List.forall_mem_singleton.mpr ⟨by decide, by decide⟩
  | cons selector rest ih =>
      obtain ⟨hselector, hrest⟩ := List.forall_mem_cons.mp h
      have hindented := hselector.indented depth
      cases rest with
      | nil =>
          exact List.forall_mem_singleton.mpr (hindented.append ⟨by decide, by decide⟩ (by decide))
      | cons next rest =>
          exact List.forall_mem_cons.mpr
            ⟨hindented.append ⟨by decide, by decide⟩ (by decide), ih hrest⟩

/-- The lines of a rule declare every token once, in the order of the groups. -/
theorem filterMap_ruleLines (h : ∀ selector ∈ selectors, Inert selector) (tokens : List Token)
    (depth : Nat) :
    (s.ruleLines selectors tokens depth).filterMap declaration? =
      (byCategory tokens).map s.declaration := by
  have hselectors : (selectorLines (Json.indentation depth) selectors).filterMap declaration? = [] :=
    List.filterMap_eq_nil_iff.mpr fun line hline => if_neg (inert_selectorLines h depth line hline).2
  have hbrace : declaration? (Json.indentation depth ++ "\x7d") = none := by
    refine if_neg ?_
    rw [String.toList_append, declares_append_of_blank (blank_indentation depth)]
    decide
  rw [ruleLines, List.filterMap_append, List.filterMap_append, hselectors, filterMap_bodyLines,
    flatMap_groupByCategory, List.filterMap_cons_none hbrace]
  exact List.append_nil _

theorem OneLine.ruleLines (h : s.OneLine tokens)
    (hselectors : ∀ selector ∈ selectors, Inert selector) (depth : Nat) :
    ∀ line ∈ s.ruleLines selectors tokens depth, '\n' ∉ line.toList := by
  rw [Stylesheet.ruleLines, List.forall_mem_append, List.forall_mem_append, List.forall_mem_singleton]
  refine ⟨⟨fun line hline => (inert_selectorLines hselectors depth line hline).1, h.bodyLines _⟩, ?_⟩
  simp [no_break_indentation]

theorem ruleLines_ne_nil (selectors : List String) (tokens : List Token) (depth : Nat) :
    s.ruleLines selectors tokens depth ≠ [] :=
  List.append_ne_nil_of_right_ne_nil _ (List.cons_ne_nil _ _)

theorem declarationsIn_join {lines : List String} (hne : lines ≠ [])
    (h : ∀ line ∈ lines, '\n' ∉ line.toList) :
    declarationsIn (join "\n" lines) = lines.filterMap declaration? := by
  rw [declarationsIn, splitAt_join hne h, List.map_map]
  have hback : String.ofList ∘ String.toList = id := funext fun _ => String.ofList_toList
  rw [hback, List.map_id]

theorem OneLine.declarationsIn_rule (h : s.OneLine tokens)
    (hselectors : ∀ selector ∈ selectors, Inert selector) (depth : Nat) :
    declarationsIn (s.rule selectors tokens depth) = (byCategory tokens).map s.declaration := by
  rw [rule, declarationsIn_join (ruleLines_ne_nil _ _ _) (h.ruleLines hselectors depth),
    filterMap_ruleLines hselectors]

theorem OneLine.declarationsIn_mediaRule (h : s.OneLine tokens)
    (hselectors : ∀ selector ∈ selectors, Inert selector) {query : String} (hquery : '\n' ∉ query.toList) :
    declarationsIn (s.mediaRule query selectors tokens) = (byCategory tokens).map s.declaration := by
  have hlines : s.mediaRule query selectors tokens = join "\n"
      (("@media (" ++ query ++ ") \x7b") :: (s.ruleLines selectors tokens 1 ++ ["\x7d"])) := by
    have hne := s.ruleLines_ne_nil selectors tokens 1
    rw [join_cons _ _ (List.append_ne_nil_of_left_ne_nil hne _), join_concat _ _ hne, mediaRule, rule]
    apply String.toList_injective
    simp
  have hfirst : declaration? ("@media (" ++ query ++ ") \x7b") = none := by
    refine if_neg ?_
    rw [String.append_assoc, String.toList_append]
    exact not_declares_cons (by decide) (by decide)
  rw [hlines, declarationsIn_join (List.cons_ne_nil _ _), List.filterMap_cons_none hfirst,
    List.filterMap_append, filterMap_ruleLines hselectors]
  · exact List.append_nil _
  · refine List.forall_mem_cons.mpr ⟨by simp [hquery], ?_⟩
    exact List.forall_mem_append.mpr ⟨h.ruleLines hselectors 1, by decide⟩

theorem inert_attributeIs {name value : String} (hname : '\n' ∉ name.toList)
    (hvalue : '\n' ∉ value.toList) : Inert (Selectors.attributeIs name value) := by
  refine inert_of_head (c := '[') (by simp [Selectors.attributeIs, hname, hvalue]) ?_ (by decide)
    (by decide)
  simp [Selectors.attributeIs]

theorem OneLine.inert_unflavored (h : s.OneLine tokens) : Inert s.selectors.unflavored := by
  refine inert_of_head (c := ':') ?_ ?_ (by decide) (by decide)
  · simp [Selectors.unflavored, h.flavorAttribute]
  · simp [Selectors.unflavored]

theorem head?_unflavored (s : Selectors) : s.unflavored.toList.head? ≠ some '-' := by
  simp [Selectors.unflavored]

theorem head?_attributeIs (name value : String) :
    (Selectors.attributeIs name value).toList.head? ≠ some '-' := by
  simp [Selectors.attributeIs]

theorem OneLine.inert_forFlavor (h : s.OneLine tokens) (hroot : ¬ Declares s.selectors.root.toList)
    {flavor : String} (hflavor : '\n' ∉ flavor.toList) :
    ∀ selector ∈ s.selectors.forFlavor flavor, Inert selector := by
  have hexplicit : Inert (s.selectors.explicit flavor) := inert_attributeIs h.flavorAttribute hflavor
  have himplicit : Inert (s.selectors.root ++ s.selectors.unflavored) :=
    Inert.append ⟨h.root, hroot⟩ h.inert_unflavored (head?_unflavored _)
  rw [Selectors.forFlavor]
  split
  · exact List.forall_mem_cons.mpr ⟨himplicit, List.forall_mem_singleton.mpr hexplicit⟩
  · exact List.forall_mem_singleton.mpr hexplicit

theorem OneLine.inert_forMode (h : s.OneLine tokens) (hroot : ¬ Declares s.selectors.root.toList)
    {flavor mode : String} (hflavor : '\n' ∉ flavor.toList) (hmode : '\n' ∉ mode.toList) :
    ∀ selector ∈ s.selectors.forMode flavor mode, Inert selector := by
  have hexplicit : Inert (s.selectors.explicit flavor) := inert_attributeIs h.flavorAttribute hflavor
  have hpinned : Inert (s.selectors.pinned mode) := inert_attributeIs h.modeAttribute hmode
  have hboth := hexplicit.append hpinned (head?_attributeIs _ _)
  have himplicit : Inert (s.selectors.root ++ s.selectors.pinned mode ++ s.selectors.unflavored) :=
    (Inert.append ⟨h.root, hroot⟩ hpinned (head?_attributeIs _ _)).append h.inert_unflavored
      (head?_unflavored _)
  have haround : Inert (s.selectors.pinned mode ++ " " ++ s.selectors.explicit flavor) :=
    (hpinned.append ⟨by decide, by decide⟩ (by decide)).append hexplicit (head?_attributeIs _ _)
  rw [Selectors.forMode]
  split
  · exact List.forall_mem_cons.mpr ⟨himplicit, List.forall_mem_cons.mpr
      ⟨hboth, List.forall_mem_singleton.mpr haround⟩⟩
  · exact List.forall_mem_singleton.mpr hboth

/-- Where no text that is written has a line break and the root selector does not begin with two
hyphens, each block for a file of a flavor, and the rule for the document root, declares every token
once, in the order of the tokens sorted by the bytes of their categories. So all blocks of one file hold
the same declarations. -/
theorem declarationsIn_blocks (h : s.OneLine tokens) (hroot : ¬ Declares s.selectors.root.toList)
    {flavor : String} (hflavor : '\n' ∉ flavor.toList) {activation : Activation}
    (hquery : ∀ query ∈ activation.mediaQuery?, '\n' ∉ query.toList)
    (hpin : ∀ pin ∈ activation.pin?, '\n' ∉ pin.toList) :
    (∀ block ∈ s.flavorBlocks flavor activation tokens,
      declarationsIn block.text = (byCategory tokens).map s.declaration) ∧
      declarationsIn (s.rootText tokens) = (byCategory tokens).map s.declaration := by
  have hmedia : ∀ query, '\n' ∉ query.toList →
      declarationsIn (s.mediaBlock flavor query tokens).text = (byCategory tokens).map s.declaration :=
    fun query hquery => h.declarationsIn_mediaRule (h.inert_forFlavor hroot hflavor) hquery
  have hmanual : ∀ pin, '\n' ∉ pin.toList →
      declarationsIn (s.manualBlock flavor pin tokens).text = (byCategory tokens).map s.declaration :=
    fun pin hpin => h.declarationsIn_rule (h.inert_forMode hroot hflavor hpin) 0
  refine ⟨?_, h.declarationsIn_rule (List.forall_mem_singleton.mpr ⟨h.root, hroot⟩) 0⟩
  cases activation with
  | base =>
      exact List.forall_mem_singleton.mpr (h.declarationsIn_rule (h.inert_forFlavor hroot hflavor) 0)
  | media query => exact List.forall_mem_singleton.mpr (hmedia query (hquery query rfl))
  | motion query => exact List.forall_mem_singleton.mpr (hmedia query (hquery query rfl))
  | mediaOrManual query pin =>
      exact List.forall_mem_cons.mpr ⟨hmedia query (hquery query rfl),
        List.forall_mem_singleton.mpr (hmanual pin (hpin pin rfl))⟩
  | manual pin => exact List.forall_mem_singleton.mpr (hmanual pin (hpin pin rfl))

/-- Tokens of two categories, in turns. -/
def paletteTokens : List Token :=
  [⟨["space", "sm"], .string "4px", "4px", ⟨"a.json"⟩, true⟩,
    ⟨["color", "ink"], .string "#000", "#000", ⟨"a.json"⟩, true⟩,
    ⟨["space", "lg"], .string "9px", "9px", ⟨"b.json"⟩, true⟩,
    ⟨["color", "accent"], .string "#f00", "\x7bcolor.ink.value\x7d", ⟨"b.json"⟩, true⟩]

/-- A mode that is switched on by a media query and by hand has every declaration in both blocks. -/
theorem declarationsIn_blocks_palette :
    let s : Stylesheet := ⟨"sando", .standard⟩
    let dark : Activation := .mediaOrManual "prefers-color-scheme: dark" "dark"
    s.OneLine paletteTokens ∧ ¬ Declares s.selectors.root.toList ∧ '\n' ∉ "original".toList ∧
      (∀ query ∈ dark.mediaQuery?, '\n' ∉ query.toList) ∧ (∀ pin ∈ dark.pin?, '\n' ∉ pin.toList) ∧
      (byCategory paletteTokens).map s.declaration =
        ["--sando-color-ink: #000;", "--sando-color-accent: var(--sando-color-ink);",
          "--sando-space-sm: 4px;", "--sando-space-lg: 9px;"] ∧
      (∀ block ∈ s.flavorBlocks "original" dark paletteTokens,
        declarationsIn block.text = (byCategory paletteTokens).map s.declaration) ∧
      declarationsIn (s.rootText paletteTokens) = (byCategory paletteTokens).map s.declaration := by
  intro s dark
  have hline : s.OneLine paletteTokens :=
    ⟨by decide, by decide, by decide, by decide, by decide, by decide⟩
  have hroot : ¬ Declares s.selectors.root.toList := by decide
  have hflavor : '\n' ∉ "original".toList := by decide
  have hquery : ∀ query ∈ dark.mediaQuery?, '\n' ∉ query.toList := by decide
  have hpin : ∀ pin ∈ dark.pin?, '\n' ∉ pin.toList := by decide
  refine ⟨hline, hroot, hflavor, hquery, hpin, ?_,
    declarationsIn_blocks hline hroot hflavor hquery hpin⟩
  rw [← flatMap_groupByCategory]
  decide

end Body

end Stylesheet

end DesignTokens
