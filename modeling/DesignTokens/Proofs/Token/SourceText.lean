import DesignTokens.Proofs.Json.Characters
import DesignTokens.Proofs.Placeholder.Braces
import DesignTokens.Proofs.Token.Substitution

/-!
The placeholders in the text that a value was written as, and those that are followed in its strings.

No placeholder of a string is lost in the text. A list or an object runs its strings together into
one text, though, and a brace that is open in one of them can be closed in another. Where no string
starts by closing a brace behind `.value`, and escaping leaves the placeholders as they are, both
lists are the same.
-/

namespace DesignTokens

open Placeholder Json

section Followed

/-- Answers a path, and adds it to the list of what was asked for. -/
def ask (answer : String → Json.Value) (path : String) : StateM (List String) Json.Value := do
  modify (· ++ [path])
  return answer path

/-- The paths that following the references of a value asks for, one after the other, given the
answers. -/
def Json.Value.followed (answer : String → Json.Value) (v : Json.Value) : List String :=
  ((substitute (ask answer) v).run []).2

variable {answer : String → Json.Value}

theorem run_bind {α β : Type} (x : StateM (List String) α) (f : α → StateM (List String) β)
    (log : List String) : (x >>= f).run log = (f (x.run log).1).run (x.run log).2 := rfl

theorem run_substitutePieces (pieces : List Segment) (log : List String) :
    (substitutePieces (ask answer) pieces).run log =
      (filledPieces answer pieces, log ++ pieces.filterMap Segment.path?) := by
  induction pieces generalizing log with
  | nil => simp only [List.filterMap_nil, List.append_nil]; rfl
  | cons s rest ih =>
      cases s with
      | literal text | malformed text =>
          rw [substitutePieces, run_bind, ih]
          rfl
      | reference path =>
          rw [substitutePieces, run_bind]
          change ((substitutePieces (ask answer) rest >>= _).run (log ++ [path])) = _
          rw [run_bind, ih, List.append_assoc]
          rfl

theorem run_substituteText (text : String) (log : List String) :
    (substituteText (ask answer) text).run log =
      (filledText answer text, log ++ (scan text).filterMap Segment.path?) := by
  rw [substituteText]
  split
  · split
    · rename_i path hscan
      rw [filledText_of_lone answer hscan, hscan]
      rfl
    · rename_i hlone
      rw [filledText_of_pieces answer hlone, run_bind, run_substitutePieces]
      rfl
  · rename_i hreference
    have hnone : (scan text).filterMap Segment.path? = [] := by
      rw [path?_scan]
      exact not_not.mp (mt hasReference_iff_paths.mpr hreference)
    rw [hnone, List.append_nil, filledText_of_not_hasReference answer (by simpa using hreference)]
    rfl

mutual

/-- Following the references of a value asks for its placeholders from left to right. -/
theorem run_substitute : (v : Json.Value) → (log : List String) →
    (substitute (ask answer) v).run log = (v.filled answer, log ++ v.placeholders)
  | .string text, log => by
      rw [substitute, run_substituteText, Json.Value.filled, Json.Value.placeholders]
  | .array items, log => by
      rw [substitute, run_bind, run_substituteItems items, Json.Value.filled,
        Json.Value.placeholders]
      rfl
  | .object members, log => by
      rw [substitute, run_bind, run_substituteMembers members, Json.Value.filled,
        Json.Value.placeholders]
      rfl
  | .null, log | .boolean _, log | .number _, log =>
      congrArg (Prod.mk _) (List.append_nil log).symm

theorem run_substituteItems : (items : List Json.Value) → (log : List String) →
    (substituteItems (ask answer) items).run log =
      (filledItems answer items, log ++ itemPlaceholders items)
  | [], log => by rw [itemPlaceholders, List.append_nil]; rfl
  | v :: rest, log => by
      rw [substituteItems, run_bind, run_substitute v, run_bind, run_substituteItems rest,
        itemPlaceholders, List.append_assoc]
      rfl

theorem run_substituteMembers : (members : List (String × Json.Value)) → (log : List String) →
    (substituteMembers (ask answer) members).run log =
      (filledMembers answer members, log ++ memberPlaceholders members)
  | [], log => by rw [memberPlaceholders, List.append_nil]; rfl
  | (key, v) :: rest, log => by
      rw [substituteMembers, run_bind, run_substitute v, run_bind, run_substituteMembers rest,
        memberPlaceholders, List.append_assoc]
      rfl

end

theorem followed_eq_placeholders (answer : String → Json.Value) (v : Json.Value) :
    v.followed answer = v.placeholders := by
  rw [Json.Value.followed, run_substitute v, List.nil_append]

end Followed

section Kept

/-- Escaping keeps a placeholder, though maybe not its path. -/
theorem Placeholder.Mentions.escaped {cs : List Char} (h : Mentions cs) : Mentions (escaped cs) := by
  obtain ⟨front, body, back, rfl, hsmooth, hpath⟩ := h
  refine ⟨Json.escaped front, Json.escaped body, Json.escaped back, ?_, ?_, ?_⟩
  · rw [escaped_append, escaped_append, escaped_cons, escaped_cons]
    rfl
  · exact ⟨mt (mem_escaped_iff (.inl rfl) body).mp hsmooth.1,
      mt (mem_escaped_iff (.inr rfl) body).mp hsmooth.2⟩
  · rw [closed] at hpath
    split at hpath
    · rename_i path hstrip
      split at hpath
      · cases hpath
      · rename_i hblank
        have hnot : Text.isAllBlank (Json.escaped path) = false := by
          rw [Text.isAllBlank, List.all_eq_true] at hblank
          rw [Text.isAllBlank, ← Bool.not_eq_true, List.all_eq_true]
          refine fun hall => hblank fun c hc => ?_
          -- what a character is escaped with is blank only if the character is
          rcases escapeChar_cases c with hself | ⟨hback, -⟩
          · exact hall c (List.mem_flatMap.mpr ⟨c, hc, hself ▸ List.mem_singleton_self c⟩)
          · exact absurd (hall '\\' (List.mem_flatMap.mpr ⟨c, hc, hback⟩)) (by decide)
        have hsuffix : Json.escaped valueSuffix = valueSuffix := by decide
        rw [Text.eq_append_of_stripEnd hstrip, escaped_append, hsuffix, closed,
          Text.stripEnd_append]
        dsimp only
        rw [hnot]
        rfl
    · cases hpath

theorem infix_quote (text : String) : escaped text.toList <:+: (quote text).toList :=
  ⟨['"'], ['"'], by rw [toList_quote]; simp⟩

theorem mentions_of_reference {text path : String}
    (h : path ∈ (scan text).filterMap Segment.path?) : Mentions text.toList := by
  rw [← hasReference_iff_mentions, hasReference_iff_paths, ← path?_scan]
  exact List.ne_nil_of_mem h

mutual

theorem mentions_compact {path : String} : (v : Json.Value) → path ∈ v.placeholders →
    Mentions v.compact.toList
  | .string text, h => by
      rw [Json.Value.placeholders] at h
      rw [Json.Value.compact]
      exact (mentions_of_reference h).escaped.within (infix_quote text)
  | .array items, h => by
      rw [Json.Value.placeholders] at h
      rw [Json.Value.compact]
      refine (mentions_compactItems items h).within ⟨['['], [']'], ?_⟩
      simp
  | .object members, h => by
      rw [Json.Value.placeholders] at h
      rw [Json.Value.compact]
      refine (mentions_compactMembers members h).within ⟨['\x7b'], ['\x7d'], ?_⟩
      simp
  | .null, h => absurd h List.not_mem_nil
  | .boolean _, h => absurd h List.not_mem_nil
  | .number _, h => absurd h List.not_mem_nil

theorem mentions_compactItems {path : String} : (items : List Json.Value) →
    path ∈ itemPlaceholders items → Mentions (compactItems items).toList
  | [], h => absurd h List.not_mem_nil
  | [v], h => by
      rw [itemPlaceholders, itemPlaceholders, List.append_nil] at h
      exact mentions_compact v h
  | v :: w :: rest, h => by
      rw [itemPlaceholders, List.mem_append] at h
      rw [compactItems]
      rcases h with h | h
      · refine (mentions_compact v h).within ⟨[], ',' :: (compactItems (w :: rest)).toList, ?_⟩
        simp
      · refine (mentions_compactItems (w :: rest) h).within ⟨v.compact.toList ++ [','], [], ?_⟩
        simp

theorem mentions_compactMembers {path : String} : (members : List (String × Json.Value)) →
    path ∈ memberPlaceholders members → Mentions (compactMembers members).toList
  | [], h => absurd h List.not_mem_nil
  | [(key, v)], h => by
      rw [memberPlaceholders, memberPlaceholders, List.append_nil] at h
      rw [compactMembers]
      refine (mentions_compact v h).within ⟨(quote key).toList ++ [':'], [], ?_⟩
      simp
  | (key, v) :: m :: rest, h => by
      rw [memberPlaceholders, List.mem_append] at h
      rw [compactMembers]
      rcases h with h | h
      · refine (mentions_compact v h).within
          ⟨(quote key).toList ++ [':'], ',' :: (compactMembers (m :: rest)).toList, ?_⟩
        simp
      · refine (mentions_compactMembers (m :: rest) h).within
          ⟨(quote key).toList ++ ':' :: v.compact.toList ++ [','], [], ?_⟩
        simp

end

theorem infix_join {separator s : String} {texts : List String} (h : s ∈ texts) :
    s.toList <:+: (Text.join separator texts).toList := by
  induction texts with
  | nil => exact absurd h List.not_mem_nil
  | cons t rest ih =>
      cases rest with
      | nil =>
          rw [List.mem_singleton.mp h]
          exact List.infix_rfl
      | cons u rest =>
          rw [Text.join, String.toList_append, String.toList_append]
          rcases List.mem_cons.mp h with rfl | h
          · exact ((List.prefix_append _ _).trans (List.prefix_append _ _)).isInfix
          · exact (ih h).trans (List.suffix_append _ _).isInfix

mutual

theorem mentions_sourceText {path : String} : (v : Json.Value) → path ∈ v.placeholders →
    Mentions v.sourceText.toList
  | .string text, h => by
      rw [Json.Value.placeholders] at h
      exact mentions_of_reference h
  | .array items, h => by
      rw [Json.Value.placeholders] at h
      rw [Json.Value.sourceText]
      obtain ⟨s, hs, hmentions⟩ := mentions_sourceTexts items h
      exact hmentions.within (infix_join hs)
  | .object members, h => mentions_compact (.object members) h
  | .null, h => absurd h List.not_mem_nil
  | .boolean _, h => absurd h List.not_mem_nil
  | .number _, h => absurd h List.not_mem_nil

theorem mentions_sourceTexts {path : String} : (items : List Json.Value) →
    path ∈ itemPlaceholders items → ∃ s ∈ sourceTexts items, Mentions s.toList
  | [], h => absurd h List.not_mem_nil
  | v :: rest, h => by
      rw [itemPlaceholders, List.mem_append] at h
      rw [sourceTexts]
      rcases h with h | h
      · exact ⟨_, List.mem_cons_self, mentions_sourceText v h⟩
      · obtain ⟨s, hs, hmentions⟩ := mentions_sourceTexts rest h
        exact ⟨s, List.mem_cons_of_mem _ hs, hmentions⟩

end

/-- A value with placeholders in its strings was written with references. -/
theorem placeholders_eq_nil_of_not_hasReference {v : Json.Value}
    (h : hasReference v.sourceText = false) : v.placeholders = [] := by
  rw [List.eq_nil_iff_forall_not_mem]
  intro path hpath
  rw [hasReference_iff_mentions.mpr (mentions_sourceText v hpath)] at h
  exact Bool.noConfusion h

end Kept

section Same

/-- Whether a text in quotes reads like the text itself with certain placeholders. -/
def readsQuoted (text : String) (placeholders : List String) : Bool :=
  !closesEarly [] (escaped text.toList) && decide (paths none (escaped text.toList) = placeholders)

mutual

/-- Whether the strings of a value can be read one after the other in its JSON text. -/
def Json.Value.readsAsJson : Json.Value → Bool
  | .string text => readsQuoted text (references text)
  | .array items => itemsReadAsJson items
  | .object members => membersReadAsJson members
  | _ => true

def itemsReadAsJson : List Json.Value → Bool
  | [] => true
  | v :: rest => v.readsAsJson && itemsReadAsJson rest

def membersReadAsJson : List (String × Json.Value) → Bool
  | [] => true
  | (key, v) :: rest => readsQuoted key [] && v.readsAsJson && membersReadAsJson rest

end

mutual

/-- Whether the strings of a value in a list can be read one after the other. -/
def Json.Value.readsInList : Json.Value → Bool
  | .string text => !closesEarly [] text.toList
  | .array items => itemsReadInList items
  | .object members => membersReadAsJson members
  | _ => true

def itemsReadInList : List Json.Value → Bool
  | [] => true
  | v :: rest => v.readsInList && itemsReadInList rest

end

/-- Whether the strings of a value can be read one after the other in its text. A single string
always can. -/
def Json.Value.readsApart : Json.Value → Bool
  | .string _ => true
  | v => v.readsInList

variable {cs ds : List Char} {found more : List String}

/-- What is found in a text wherever no end in `.value` can start in front of it. -/
def Finds (cs : List Char) (found : List String) : Prop :=
  ∀ o, Guarded o → paths o cs = found

/-- Such a text that does not end in `.value` behind an open brace either. -/
structure Reads (cs : List Char) (found : List String) : Prop where
  finds : Finds cs found
  blunt : ∀ o, Guarded o → Blunt (opened o cs)

theorem Finds.join (c : Char) (hc : c ∉ valueSuffix ∧ c ≠ '\x7d') (hcs : Finds cs found)
    (hds : Finds ds more) : Finds (cs ++ c :: ds) (found ++ more) := by
  intro o ho
  have hguarded : Guarded (opened o (cs ++ [c])) := guarded_opened_concat hc.1
  have hafter := hds _ hguarded
  rw [opened_append, opened_cons, opened_nil] at hafter
  rw [paths_append, paths_cons, completed_of_ne hc.2, List.nil_append, hcs o ho, hafter]

theorem Reads.join (c : Char) (hc : c ∉ valueSuffix ∧ c ≠ '\x7d') (hcs : Reads cs found)
    (hds : Reads ds more) : Reads (cs ++ c :: ds) (found ++ more) where
  finds := hcs.finds.join c hc hds.finds
  blunt o _ := by
    rw [List.append_cons, opened_append]
    exact hds.blunt _ (guarded_opened_concat hc.1)

/-- A text between characters that are neither braces nor in `.value`. -/
theorem Finds.between (front back : Char) (hfront : front ∉ valueSuffix ∧ front ≠ '\x7d')
    (hback : back ∉ valueSuffix ∧ back ≠ '\x7d') (h : Finds cs found) :
    Reads (front :: cs ++ [back]) found where
  finds := by
    have hnil : Finds [] [] := fun _ _ => rfl
    have hall := (hnil.join front hfront h).join back hback hnil
    rwa [List.append_nil] at hall
  blunt _ _ := (guarded_opened_concat hback.1).blunt

theorem Reads.of_plain (h : ∀ c ∈ cs, c ≠ '\x7b' ∧ c ≠ '\x7d' ∧ c ≠ 'v') : Reads cs [] := by
  have hclose : '\x7d' ∉ cs := fun hc => (h _ hc).2.1 rfl
  exact ⟨fun _ _ => paths_of_not_close hclose, fun _ ho =>
    ho.blunt_opened ⟨fun hc => (h _ hc).1 rfl, hclose⟩ fun hc => (h _ hc).2.2 rfl⟩

theorem reads_null : Reads "null".toList [] :=
  .of_plain (by simp)

theorem reads_boolText (b : Bool) : Reads (boolText b).toList [] := by
  cases b <;> exact .of_plain (by simp [boolText])

theorem reads_number (n : Number) : Reads n.toText.toList [] :=
  .of_plain fun c hc =>
    have hnumeric := numeric_toText n c hc
    ⟨hnumeric.ne rfl (by decide), hnumeric.ne rfl (by decide), hnumeric.ne rfl (by decide)⟩

theorem finds_of_not_closesEarly (h : closesEarly [] cs = false) : Finds cs (paths none cs) :=
  fun _ ho => ho.paths_eq h

theorem reads_quote {text : String} (h : readsQuoted text found = true) :
    Reads (quote text).toList found := by
  rw [readsQuoted, Bool.and_eq_true, Bool.not_eq_true', decide_eq_true_eq] at h
  obtain ⟨hearly, rfl⟩ := h
  rw [toList_quote]
  exact (finds_of_not_closesEarly hearly).between '"' '"' (by decide) (by decide)

mutual

theorem reads_compact : (v : Json.Value) → v.readsAsJson = true →
    Reads v.compact.toList v.placeholders
  | .null, _ => reads_null
  | .boolean b, _ => reads_boolText b
  | .number n, _ => reads_number n
  | .string text, h => by
      rw [Json.Value.readsAsJson] at h
      have hfound : references text = (Json.Value.string text).placeholders := by
        rw [Json.Value.placeholders, references_eq_paths, path?_scan]
      exact hfound ▸ reads_quote h
  | .array items, h => by
      have hitems := reads_compactItems items h
      rw [Json.Value.compact, String.toList_append, String.toList_append]
      exact hitems.finds.between '[' ']' (by decide) (by decide)
  | .object members, h => by
      have hmembers := reads_compactMembers members h
      have hopen : Guarded (some []) := fun _ hbody => Option.some.inj hbody ▸ nofun
      rw [Json.Value.compact, String.toList_append, String.toList_append]
      change Reads ('\x7b' :: (compactMembers members).toList ++ ['\x7d']) (memberPlaceholders members)
      constructor
      · intro o _
        rw [List.cons_append, paths_cons, completed_of_ne (by decide), List.nil_append, advance_open,
          paths_append, hmembers.finds _ hopen, paths_cons, (hmembers.blunt _ hopen).completed_close,
          paths_nil, List.append_nil, List.append_nil]
      · intro o _
        rw [opened_append, opened_cons, advance_close, opened_nil]
        exact guarded_none.blunt

theorem reads_compactItems : (items : List Json.Value) → itemsReadAsJson items = true →
    Reads (compactItems items).toList (itemPlaceholders items)
  | [], _ => .of_plain (List.forall_mem_nil _)
  | [v], h => by
      rw [itemsReadAsJson, Bool.and_eq_true] at h
      rw [itemPlaceholders, itemPlaceholders, List.append_nil]
      exact reads_compact v h.1
  | v :: w :: rest, h => by
      rw [itemsReadAsJson, Bool.and_eq_true] at h
      rw [compactItems, itemPlaceholders, String.toList_append, String.toList_append,
        List.append_assoc]
      exact (reads_compact v h.1).join ',' (by decide) (reads_compactItems (w :: rest) h.2)

theorem reads_compactMembers : (members : List (String × Json.Value)) →
    membersReadAsJson members = true →
    Reads (compactMembers members).toList (memberPlaceholders members)
  | [], _ => .of_plain (List.forall_mem_nil _)
  | [(key, v)], h => by
      rw [membersReadAsJson, Bool.and_eq_true, Bool.and_eq_true] at h
      rw [compactMembers, memberPlaceholders, memberPlaceholders, List.append_nil,
        String.toList_append, String.toList_append, List.append_assoc]
      exact (reads_quote h.1.1).join ':' (by decide) (reads_compact v h.1.2)
  | (key, v) :: m :: rest, h => by
      rw [membersReadAsJson, Bool.and_eq_true, Bool.and_eq_true] at h
      have hmember := (reads_quote h.1.1).join ':' (by decide) (reads_compact v h.1.2)
      have hall := hmember.join ',' (by decide) (reads_compactMembers (m :: rest) h.2)
      rw [compactMembers, memberPlaceholders]
      simpa using hall

end

mutual

theorem finds_sourceText : (v : Json.Value) → v.readsInList = true →
    Finds v.sourceText.toList v.placeholders
  | .null, _ => fun _ _ => rfl
  | .boolean b, _ => (reads_boolText b).finds
  | .number n, _ => (reads_number n).finds
  | .string text, h => by
      rw [Json.Value.readsInList, Bool.not_eq_true'] at h
      rw [Json.Value.placeholders, Json.Value.sourceText, path?_scan]
      exact finds_of_not_closesEarly h
  | .array items, h => by
      rw [Json.Value.sourceText, Json.Value.placeholders]
      exact finds_sourceTexts items h
  | .object members, h => (reads_compact (.object members) h).finds

theorem finds_sourceTexts : (items : List Json.Value) → itemsReadInList items = true →
    Finds (Text.join ", " (sourceTexts items)).toList (itemPlaceholders items)
  | [], _ => fun _ _ => rfl
  | [v], h => by
      rw [itemsReadInList, Bool.and_eq_true] at h
      rw [itemPlaceholders, itemPlaceholders, List.append_nil]
      exact finds_sourceText v h.1
  | v :: w :: rest, h => by
      rw [itemsReadInList, Bool.and_eq_true] at h
      have hblank := (show Finds [] [] from fun _ _ => rfl).join ' ' (by decide)
        (finds_sourceTexts (w :: rest) h.2)
      have hall := (finds_sourceText v h.1).join ',' (by decide) hblank
      rw [sourceTexts, itemPlaceholders]
      simpa [sourceTexts, Text.join] using hall

end

/-- Where the strings of a value can be read one after the other in its text, the references of the
text are exactly the ones that are followed. -/
theorem references_sourceText {v : Json.Value} (h : v.readsApart = true) :
    references v.sourceText = v.placeholders := by
  rw [references_eq_paths]
  cases v with
  | string text => rw [Json.Value.placeholders, path?_scan]; rfl
  | _ => exact finds_sourceText _ h _ guarded_none

end Same

end DesignTokens
