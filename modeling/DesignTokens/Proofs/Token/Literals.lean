import DesignTokens.Proofs.Placeholder.Scanning
import DesignTokens.Proofs.Token.Expansion

/-!
Values that no placeholder is left in. References are replaced text by text, and what comes out is not
read again. A placeholder can therefore only be left at a seam between two texts, and there are two
kinds of seams: behind a brace that is left open in front of a placeholder or at the end of a string,
and in the JSON text of an object that is put into a longer string.
-/

namespace DesignTokens

open Placeholder Json Job

namespace Placeholder

variable {o : Option (List Char)} {cs ds front body : List Char} {pieces : List Segment}

section Shut

/-- No brace is open at the end of a text. -/
def Shut (cs : List Char) : Prop :=
  opened none cs = none

theorem Shut.eq (h : Shut cs) : opened none cs = none := h

theorem Shut.append (hcs : Shut cs) (hds : Shut ds) : Shut (cs ++ ds) := by
  rw [Shut, opened_append, hcs.eq, hds.eq]

/-- What stands behind a text without an open brace is read as if it stood alone. -/
theorem Shut.paths_append (hcs : Shut cs) : paths none (cs ++ ds) = paths none cs ++ paths none ds := by
  rw [Placeholder.paths_append, hcs.eq]

theorem shut_of_not_open (h : '\x7b' ∉ cs) : Shut cs := by
  unfold Shut
  induction cs with
  | nil => rfl
  | cons c cs ih =>
      obtain ⟨hc, hcs⟩ := List.ne_and_not_mem_of_not_mem_cons h
      rw [opened_cons, advance, if_neg hc.symm, Option.map_none, ite_self, ih hcs]

theorem shut_concat_close : Shut (cs ++ ['\x7d']) := by
  unfold Shut
  rw [opened_append, opened_cons, advance_close, opened_nil]

theorem references_eq_nil_of_not_open {text : String} (h : '\x7b' ∉ text.toList) :
    references text = [] :=
  if_neg h

theorem shut_join (separator : String) (hseparator : '\x7b' ∉ separator.toList)
    {texts : List String} (h : ∀ text ∈ texts, Shut text.toList) :
    Shut (Text.join separator texts).toList ∧
      references (Text.join separator texts) = texts.flatMap references := by
  induction texts with
  | nil => exact ⟨rfl, rfl⟩
  | cons text rest ih =>
      obtain ⟨htext, hrest⟩ := List.forall_mem_cons.mp h
      cases rest with
      | nil => exact ⟨htext, (List.append_nil _).symm⟩
      | cons next rest =>
          obtain ⟨hshut, hreferences⟩ := ih hrest
          have hfront : Shut (text.toList ++ separator.toList) :=
            htext.append (shut_of_not_open hseparator)
          rw [List.flatMap_cons, ← hreferences, Text.join, String.toList_append,
            String.toList_append]
          refine ⟨hfront.append hshut, ?_⟩
          rw [references_eq_paths, references_eq_paths, references_eq_paths, String.toList_append,
            String.toList_append, hfront.paths_append, htext.paths_append,
            paths_none_of_not_open hseparator, List.append_nil]

end Shut

section Seamless

/-- Whether no brace is open in front of a reference, given what stands behind the open brace in front
of the pieces. -/
def seamlessFrom : Option (List Char) → List Segment → Bool
  | _, [] => true
  | o, .literal text :: rest => seamlessFrom (opened o text.toList) rest
  | o, .malformed text :: rest => seamlessFrom (opened o text.toList) rest
  | o, .reference _ :: rest => o.isNone && seamlessFrom none rest

/-- Whether no brace is open in front of a placeholder in a text. -/
def seamless (text : String) : Bool :=
  seamlessFrom none (scan text)

variable {meaning : String → Json.Value}

theorem closed_cases (body : List Char) :
    (∃ path, closed body = .reference path) ∨
      closed body = .malformed (String.ofList ('\x7b' :: body ++ ['\x7d'])) := by
  rw [closed]
  split
  · split
    · exact .inr rfl
    · exact .inl ⟨_, rfl⟩
  · exact .inr rfl

theorem seamlessFrom_unclosed (body : List Char) (pieces : List Segment) :
    seamlessFrom o (unclosed body :: pieces) = seamlessFrom (opened (some []) body) pieces := by
  rw [unclosed, seamlessFrom, String.toList_ofList, opened_cons, advance_open]

theorem seamlessFrom_literalOf (front : List Char) (pieces : List Segment) :
    seamlessFrom o (literalOf front ++ pieces) = seamlessFrom (opened o front) pieces := by
  cases front with
  | nil => rfl
  | cons c front =>
      change seamlessFrom (opened o (String.ofList (c :: front)).toList) pieces = _
      rw [String.toList_ofList]

theorem toList_filledPieces_cons (s : Segment) (pieces : List Segment) :
    (filledPieces meaning (s :: pieces)).toList =
      (s.filled meaning).toList ++ (filledPieces meaning pieces).toList := by
  rw [filledPieces, String.toList_append]

theorem toList_filledPieces_literalOf (meaning : String → Json.Value) (front : List Char)
    (pieces : List Segment) :
    (filledPieces meaning (literalOf front ++ pieces)).toList =
      front ++ (filledPieces meaning pieces).toList := by
  cases front with
  | nil => rfl
  | cons c front =>
      change (filledPieces meaning (.literal (String.ofList (c :: front)) :: pieces)).toList = _
      rw [toList_filledPieces_cons, Segment.filled, String.toList_ofList]

theorem path?_literalOf_append (front : List Char) (pieces : List Segment) :
    (literalOf front ++ pieces).filterMap Segment.path? = pieces.filterMap Segment.path? := by
  cases front with
  | nil => rfl
  | cons c front => rfl

/-- Outside braces a text without an open brace does not matter. -/
theorem read_front (hfront : '\x7b' ∉ front)
    (ho : o = none ∨ (front ++ cs).head? = some '\x7b') (ds : List Char) :
    opened o (front ++ ds) = opened o ds ∧ paths o (front ++ ds) = paths o ds := by
  rcases ho with rfl | hhead
  · have hshut : Shut front := shut_of_not_open hfront
    rw [opened_append, hshut.paths_append, hshut.eq, paths_none_of_not_open hfront]
    exact ⟨rfl, rfl⟩
  · cases front with
    | nil => exact ⟨rfl, rfl⟩
    | cons c front => exact absurd (Option.some.inj hhead).symm (List.ne_of_not_mem_cons hfront)

/-- What an open brace starts is all that counts behind it. -/
theorem read_open (hbody : Smooth body) (ds : List Char) :
    opened o ('\x7b' :: body ++ ds) = opened (some body) ds ∧
      paths o ('\x7b' :: body ++ ds) = paths (some body) ds := by
  have hopened : opened (some []) body = some body := by
    rw [opened_of_smooth hbody, Option.map_some, List.nil_append]
  constructor
  · rw [List.cons_append, opened_cons, advance_open, opened_append, hopened]
  · rw [List.cons_append, paths_cons, advance_open, paths_append, hopened,
      completed_of_ne (by decide), paths_of_not_close hbody.2, List.nil_append, List.nil_append]

/-- In pieces without a seam, the references that are left are those of the texts that are put in, and
as many braces are open behind them as before. -/
theorem Scans.filled (h : Scans cs pieces)
    (hshut : ∀ path ∈ pieces.filterMap Segment.path?, Shut (meaning path).cssText.toList)
    (ho : o = none ∨ cs.head? = some '\x7b') (hseamless : seamlessFrom o pieces = true) :
    opened o (filledPieces meaning pieces).toList = opened o cs ∧
      paths o (filledPieces meaning pieces).toList =
        (pieces.filterMap Segment.path?).flatMap fun path => references (meaning path).cssText := by
  induction h generalizing o with
  | @plain cs hcs =>
      have htext := toList_filledPieces_literalOf meaning cs []
      have hpath := path?_literalOf_append cs []
      rw [← List.append_nil cs] at ho
      rw [List.append_nil] at htext hpath
      obtain ⟨-, hnone⟩ := read_front hcs ho []
      rw [htext, hpath]
      exact ⟨congrArg _ (List.append_nil cs), hnone⟩
  | @unclosed front rest hfront hrest =>
      have hlast : ((Placeholder.unclosed rest).filled meaning).toList = '\x7b' :: rest :=
        source_unclosed rest
      have hclose : '\x7d' ∉ '\x7b' :: rest ++ [] := by simpa using hrest
      obtain ⟨-, hnone⟩ := read_front hfront ho ('\x7b' :: rest ++ [])
      rw [paths_of_not_close hclose] at hnone
      rw [toList_filledPieces_literalOf, toList_filledPieces_cons, hlast, path?_literalOf_append]
      exact ⟨by rw [filledPieces, String.toList_empty, List.append_nil], hnone⟩
  | @stray front body rest pieces hfront hbody hrest next ih =>
      have hstray : ((Placeholder.unclosed body).filled meaning).toList = '\x7b' :: body :=
        source_unclosed body
      have hstart := read_front hfront ho
      rw [path?_literalOf_append] at hshut ⊢
      rw [seamlessFrom_literalOf, seamlessFrom_unclosed, opened_of_smooth hbody] at hseamless
      -- the brace behind the body makes the body irrelevant
      obtain ⟨hend, hfound⟩ := ih hshut (.inr rfl) hseamless
      rw [toList_filledPieces_literalOf, toList_filledPieces_cons, hstray, (hstart _).1, (hstart _).2,
        (hstart _).1, (read_open hbody _).1, (read_open hbody _).2, ← List.cons_append,
        (read_open hbody _).1]
      exact ⟨hend, hfound⟩
  | @closed front body rest pieces hfront hbody next ih =>
      have hstart := read_front hfront ho
      have hbehind : opened (some body) ('\x7d' :: rest) = opened none rest := rfl
      rw [path?_literalOf_append] at hshut ⊢
      rw [seamlessFrom_literalOf] at hseamless
      rw [toList_filledPieces_literalOf, toList_filledPieces_cons, (hstart _).1, (hstart _).2,
        (hstart _).1, ← List.cons_append, (read_open hbody _).1, hbehind]
      rcases closed_cases body with ⟨path, hclosed⟩ | hclosed
      · rw [hclosed] at hshut hseamless ⊢
        obtain ⟨hpath, hrest⟩ := List.forall_mem_cons.mp hshut
        rw [seamlessFrom, Bool.and_eq_true, Option.isNone_iff_eq_none] at hseamless
        obtain ⟨hfrom, hseamless⟩ := hseamless
        have hsame : opened o front = o := List.append_nil front ▸ (hstart []).1
        obtain rfl : o = none := hsame.symm.trans hfrom
        obtain ⟨hend, hfound⟩ := ih hrest (.inl rfl) hseamless
        rw [Segment.filled, hpath.paths_append, opened_append, hpath.eq, hfound, ← references_eq_paths]
        exact ⟨hend, rfl⟩
      · have hnone : (Placeholder.closed body).path?.toList = [] := by rw [hclosed]; rfl
        rw [hclosed] at hshut hseamless ⊢
        rw [seamlessFrom, String.toList_ofList, (read_open hbody _).1, opened_cons, advance_close,
          opened_nil] at hseamless
        obtain ⟨hend, hfound⟩ := ih hshut (.inl rfl) hseamless
        rw [Segment.filled, String.toList_ofList, List.append_assoc, List.singleton_append,
          (read_open hbody _).1, (read_open hbody _).2, opened_cons, paths_cons, advance_close,
          completed_close_some, hnone]
        exact ⟨hend, hfound⟩

/-- The paths of the placeholders in a text that has something else around them. -/
def spliced (text : String) : List String :=
  match scan text with
  | [.reference _] => []
  | pieces => pieces.filterMap Segment.path?

end Seamless

end Placeholder

namespace Json.Value

variable {meaning : String → Json.Value}

section Strings

mutual

/-- The strings in a value; the names of members are not among them. -/
def strings : Json.Value → List String
  | .string text => [text]
  | .array items => itemStrings items
  | .object members => memberStrings members
  | _ => []

def itemStrings : List Json.Value → List String
  | [] => []
  | v :: rest => v.strings ++ itemStrings rest

def memberStrings : List (String × Json.Value) → List String
  | [] => []
  | (_, v) :: rest => v.strings ++ memberStrings rest

end

mutual

theorem placeholders_eq_flatMap : (v : Json.Value) → v.placeholders = v.strings.flatMap references
  | .string text => by
      rw [placeholders, strings, List.flatMap_singleton, references_eq_path?]
  | .array items => by
      rw [placeholders, strings, itemPlaceholders_eq_flatMap items]
  | .object members => by
      rw [placeholders, strings, memberPlaceholders_eq_flatMap members]
  | .null | .boolean _ | .number _ => rfl

theorem itemPlaceholders_eq_flatMap : (items : List Json.Value) →
    itemPlaceholders items = (itemStrings items).flatMap references
  | [] => rfl
  | v :: rest => by
      rw [itemPlaceholders, itemStrings, List.flatMap_append, placeholders_eq_flatMap v,
        itemPlaceholders_eq_flatMap rest]

theorem memberPlaceholders_eq_flatMap : (members : List (String × Json.Value)) →
    memberPlaceholders members = (memberStrings members).flatMap references
  | [] => rfl
  | (_, v) :: rest => by
      rw [memberPlaceholders, memberStrings, List.flatMap_append, placeholders_eq_flatMap v,
        memberPlaceholders_eq_flatMap rest]

end

mutual

/-- Replacing references replaces the strings of a value one by one. -/
theorem strings_filled : (v : Json.Value) →
    (v.filled meaning).strings = v.strings.flatMap fun text => (filledText meaning text).strings
  | .string text => by
      rw [filled, strings, List.flatMap_singleton]
  | .array items => by
      rw [filled, strings, strings, itemStrings_filled items]
  | .object members => by
      rw [filled, strings, strings, memberStrings_filled members]
  | .null | .boolean _ | .number _ => rfl

theorem itemStrings_filled : (items : List Json.Value) →
    itemStrings (filledItems meaning items) =
      (itemStrings items).flatMap fun text => (filledText meaning text).strings
  | [] => rfl
  | v :: rest => by
      rw [filledItems, itemStrings, itemStrings, List.flatMap_append, strings_filled v,
        itemStrings_filled rest]

theorem memberStrings_filled : (members : List (String × Json.Value)) →
    memberStrings (filledMembers meaning members) =
      (memberStrings members).flatMap fun text => (filledText meaning text).strings
  | [] => rfl
  | (_, v) :: rest => by
      rw [filledMembers, memberStrings, memberStrings, List.flatMap_append, strings_filled v,
        memberStrings_filled rest]

end

mutual

/-- A value without placeholders means itself. -/
theorem filled_eq_self : (v : Json.Value) → v.placeholders = [] → v.filled meaning = v
  | .string text, h => by
      rw [placeholders, ← references_eq_path?] at h
      rw [filled]
      refine filledText_of_not_hasReference meaning ?_
      rwa [← Bool.not_eq_true, hasReference_iff_references, not_not]
  | .array items, h => by
      rw [filled, filledItems_eq_self items h]
  | .object members, h => by
      rw [filled, filledMembers_eq_self members h]
  | .null, _ | .boolean _, _ | .number _, _ => rfl

theorem filledItems_eq_self : (items : List Json.Value) → itemPlaceholders items = [] →
    filledItems meaning items = items
  | [], _ => rfl
  | v :: rest, h => by
      rw [itemPlaceholders, List.append_eq_nil_iff] at h
      rw [filledItems, filled_eq_self v h.1, filledItems_eq_self rest h.2]

theorem filledMembers_eq_self : (members : List (String × Json.Value)) →
    memberPlaceholders members = [] → filledMembers meaning members = members
  | [], _ => rfl
  | (_, v) :: rest, h => by
      rw [memberPlaceholders, List.append_eq_nil_iff] at h
      rw [filledMembers, filled_eq_self v h.1, filledMembers_eq_self rest h.2]

end

end Strings

section Texts

mutual

/-- The JSON texts of objects in the CSS text of a value. -/
def objectTexts : Json.Value → List String
  | .array items => itemObjectTexts items
  | .object members => [compact (.object members)]
  | _ => []

def itemObjectTexts : List Json.Value → List String
  | [] => []
  | v :: rest => v.objectTexts ++ itemObjectTexts rest

end

theorem shut_plain {v : Json.Value} (hopen : '\x7b' ∉ v.cssText.toList)
    (hplaceholders : v.placeholders = []) (hobjects : v.objectTexts = []) :
    Shut v.cssText.toList ∧ (references v.cssText = [] ↔
      v.placeholders = [] ∧ ∀ text ∈ v.objectTexts, references text = []) := by
  refine ⟨shut_of_not_open hopen, iff_of_true (references_eq_nil_of_not_open hopen) ?_⟩
  rw [hobjects]
  exact ⟨hplaceholders, List.forall_mem_nil _⟩

mutual

/-- Where the strings of a value leave no brace open, its CSS text does not either, and the
references in it are those of the strings and of the JSON texts. -/
theorem shut_cssText : (v : Json.Value) → (∀ text ∈ v.strings, Shut text.toList) →
    Shut v.cssText.toList ∧ (references v.cssText = [] ↔
      v.placeholders = [] ∧ ∀ text ∈ v.objectTexts, references text = [])
  | .string text, h => by
      refine ⟨h text List.mem_cons_self, ?_⟩
      rw [placeholders, ← references_eq_path?]
      exact (and_iff_left (List.forall_mem_nil _)).symm
  | .array items, h => by
      obtain ⟨hshut, hiff⟩ := shut_cssTexts items h
      obtain ⟨hjoin, hreferences⟩ := shut_join ", " (by decide) hshut
      refine ⟨hjoin, ?_⟩
      rw [cssText, hreferences, List.flatMap_eq_nil_iff]
      exact hiff
  | .object members, h => by
      refine ⟨?_, ?_⟩
      · rw [cssText, compact, String.toList_append]
        exact shut_concat_close
      · rw [cssText, objectTexts, List.forall_mem_singleton, iff_and_self]
        intro hnone
        refine placeholders_eq_nil_of_not_hasReference ?_
        rw [← Bool.not_eq_true, hasReference_iff_references, not_not]
        exact hnone
  | .null, _ => shut_plain List.not_mem_nil rfl rfl
  | .boolean b, _ => shut_plain (by cases b <;> decide) rfl rfl
  | .number n, _ =>
      shut_plain (fun hmem => (numeric_toText n _ hmem).ne rfl (by decide) rfl) rfl rfl

theorem shut_cssTexts : (items : List Json.Value) → (∀ text ∈ itemStrings items, Shut text.toList) →
    (∀ text ∈ cssTexts items, Shut text.toList) ∧ ((∀ text ∈ cssTexts items, references text = []) ↔
      itemPlaceholders items = [] ∧ ∀ text ∈ itemObjectTexts items, references text = [])
  | [], _ => ⟨List.forall_mem_nil _, iff_of_true (List.forall_mem_nil _) ⟨rfl, List.forall_mem_nil _⟩⟩
  | v :: rest, h => by
      obtain ⟨hstrings, hmore⟩ := List.forall_mem_append.mp h
      obtain ⟨hshut, hiff⟩ := shut_cssText v hstrings
      obtain ⟨hrest, hiffs⟩ := shut_cssTexts rest hmore
      rw [cssTexts, List.forall_mem_cons, List.forall_mem_cons, itemPlaceholders, itemObjectTexts,
        List.append_eq_nil_iff, List.forall_mem_append, hiff, hiffs]
      exact ⟨⟨hshut, hrest⟩, and_and_and_comm⟩

end

end Texts

section Filled

/-- The paths of the placeholders in the strings of a value that have something else around them. -/
def spliced (v : Json.Value) : List String :=
  v.strings.flatMap Placeholder.spliced

theorem mem_placeholders_of_spliced {v : Json.Value} {path : String} (h : path ∈ v.spliced) :
    path ∈ v.placeholders := by
  obtain ⟨text, htext, hpath⟩ := List.mem_flatMap.mp h
  rw [placeholders_eq_flatMap, List.mem_flatMap]
  refine ⟨text, htext, ?_⟩
  rw [Placeholder.spliced] at hpath
  split at hpath
  · exact absurd hpath List.not_mem_nil
  · rwa [references_eq_path?]

theorem filledText_of_seamless {text : String} (hseamless : seamless text = true)
    (hshut : ∀ path ∈ Placeholder.spliced text, ∀ part ∈ (meaning path).strings, Shut part.toList) :
    (Shut text.toList →
        (∀ path ∈ references text, ∀ part ∈ (meaning path).strings, Shut part.toList) →
        ∀ part ∈ (filledText meaning text).strings, Shut part.toList) ∧
      ((filledText meaning text).placeholders = [] ↔
        (∀ path ∈ references text, (meaning path).placeholders = []) ∧
          ∀ path ∈ Placeholder.spliced text, ∀ part ∈ (meaning path).objectTexts,
            references part = []) := by
  rw [references_eq_path?]
  by_cases hlone : ∃ path, scan text = [.reference path]
  · obtain ⟨path, hscan⟩ := hlone
    have hpaths : (scan text).filterMap Segment.path? = [path] := by rw [hscan]; rfl
    have hspliced : Placeholder.spliced text = [] := by rw [Placeholder.spliced, hscan]
    rw [filledText_of_lone meaning hscan, hpaths, hspliced, List.forall_mem_singleton,
      List.forall_mem_singleton]
    exact ⟨fun _ htarget => htarget, (and_iff_left (List.forall_mem_nil _)).symm⟩
  · rw [not_exists] at hlone
    have hspliced : Placeholder.spliced text = (scan text).filterMap Segment.path? := by
      rw [Placeholder.spliced]
      split
      · exact absurd ‹_› (hlone _)
      · rfl
    rw [hspliced] at hshut ⊢
    have hscans : Scans text.toList (scan text) := scans_outside text.toList
    obtain ⟨hend, hleft⟩ := hscans.filled
      (fun path hpath => (shut_cssText _ (hshut path hpath)).1) (.inl rfl) hseamless
    rw [filledText_of_pieces meaning hlone, strings, List.forall_mem_singleton, placeholders,
      path?_scan (filledPieces meaning (scan text)), hleft, List.flatMap_eq_nil_iff, ← forall₂_and]
    exact ⟨fun htext _ => hend.trans htext,
      forall₂_congr fun path hpath => (shut_cssText _ (hshut path hpath)).2⟩

/-- A value without a seam becomes literal if what it refers to is literal and no JSON text with a
reference is put into one of its strings. -/
theorem filled_of_seamless {v : Json.Value} (hseamless : ∀ text ∈ v.strings, seamless text = true)
    (hshut : ∀ path ∈ v.spliced, ∀ part ∈ (meaning path).strings, Shut part.toList) :
    ((∀ text ∈ v.strings, Shut text.toList) →
        (∀ path ∈ v.placeholders, ∀ part ∈ (meaning path).strings, Shut part.toList) →
        ∀ part ∈ (v.filled meaning).strings, Shut part.toList) ∧
      ((v.filled meaning).placeholders = [] ↔
        (∀ path ∈ v.placeholders, (meaning path).placeholders = []) ∧
          ∀ path ∈ v.spliced, ∀ part ∈ (meaning path).objectTexts, references part = []) := by
  have hfilled : (v.filled meaning).placeholders =
      v.strings.flatMap fun text => (filledText meaning text).placeholders := by
    rw [placeholders_eq_flatMap, strings_filled, List.flatMap_assoc]
    simp only [placeholders_eq_flatMap]
  rw [spliced, List.forall_mem_flatMap] at hshut
  have htext := fun text htext => filledText_of_seamless (hseamless text htext) (hshut text htext)
  rw [strings_filled, hfilled, List.flatMap_eq_nil_iff, placeholders_eq_flatMap v, spliced,
    List.forall_mem_flatMap, List.forall_mem_flatMap, List.forall_mem_flatMap,
    List.forall_mem_flatMap, ← forall₂_and]
  exact ⟨fun hends htargets text hmem =>
      (htext text hmem).1 (hends text hmem) (htargets text hmem),
    forall₂_congr fun text hmem => (htext text hmem).2⟩

end Filled

end Json.Value

namespace RawTokens

variable {tokens : RawTokens} {d : Dictionary}

/-- A token is written with a placeholder for another path that has something else around it. -/
def Splices (tokens : RawTokens) (source target : String) : Prop :=
  ∃ raw, Keyed.get? source tokens = some raw ∧ target ∈ raw.value.spliced

/-- No placeholder on the way to the value at a path stands behind an open brace, and no string that
is put into another one leaves a brace open. -/
structure Seamless (tokens : RawTokens) (path : String) : Prop where
  apart {source : String} {raw : RawToken} :
    Relation.ReflTransGen tokens.Refers path source → Keyed.get? source tokens = some raw →
    ∀ text ∈ raw.value.strings, seamless text = true
  shut {source target origin : String} {raw : RawToken} :
    Relation.ReflTransGen tokens.Refers path source → tokens.Splices source target →
    Relation.ReflTransGen tokens.Refers target origin → Keyed.get? origin tokens = some raw →
    ∀ text ∈ raw.value.strings, Shut text.toList

theorem Splices.refers {source target : String} (h : tokens.Splices source target) :
    tokens.Refers source target :=
  h.imp fun _ ⟨hraw, htarget⟩ => ⟨hraw, Json.Value.mem_placeholders_of_spliced htarget⟩

theorem Seamless.next {path target : String} (h : tokens.Seamless path)
    (hrefers : tokens.Refers path target) : tokens.Seamless target where
  apart hreach := h.apart (hreach.head hrefers)
  shut hreach := h.shut (hreach.head hrefers)

/-- Whether every string of all tokens keeps its placeholders apart from open braces, and leaves none
open. -/
def allSeamless (tokens : RawTokens) : Bool :=
  tokens.all fun entry => entry.2.value.strings.all fun text =>
    seamless text && (opened none text.toList).isNone

theorem seamless_of_all (h : tokens.allSeamless = true) (path : String) : tokens.Seamless path := by
  have hstring : ∀ {source raw}, Keyed.get? source tokens = some raw →
      ∀ text ∈ raw.value.strings, seamless text = true ∧ Shut text.toList := by
    intro source raw hraw text htext
    have hentry := List.all_eq_true.mp (List.all_eq_true.mp h _ (Keyed.mem_of_get? hraw)) text htext
    rw [Bool.and_eq_true, Option.isNone_iff_eq_none] at hentry
    exact hentry
  exact {
    apart := fun _ hraw text htext => (hstring hraw text htext).1
    shut := fun _ _ _ hraw text htext => (hstring hraw text htext).2 }

/-- If no string on the way to a value leaves a brace open, no string of the value does. -/
theorem Means.shut {path : String} {v : Json.Value} (h : tokens.Means path v)
    (hseamless : tokens.Seamless path)
    (hshut : ∀ origin raw, Relation.ReflTransGen tokens.Refers path origin →
      Keyed.get? origin tokens = some raw → ∀ text ∈ raw.value.strings, Shut text.toList) :
    ∀ part ∈ v.strings, Shut part.toList := by
  induction h with
  | @intro path raw meaning found targets ih =>
      have htargets : ∀ target ∈ raw.value.placeholders, ∀ part ∈ (meaning target).strings,
          Shut part.toList := by
        intro target htarget
        have hrefers : tokens.Refers path target := ⟨raw, found, htarget⟩
        exact ih target htarget (hseamless.next hrefers) fun origin raw hreach =>
          hshut origin raw (hreach.head hrefers)
      refine (Json.Value.filled_of_seamless (hseamless.apart .refl found) ?_).1
        (hshut path raw .refl found) htargets
      exact fun target htarget => htargets target (Json.Value.mem_placeholders_of_spliced htarget)

/-- What a token means is literal exactly if no JSON text with a reference is put into a string on
the way to it. -/
theorem Means.literal_iff {path : String} {v : Json.Value} (h : tokens.Means path v)
    (hseamless : tokens.Seamless path) :
    v.placeholders = [] ↔ ∀ source target, Relation.ReflTransGen tokens.Refers path source →
      tokens.Splices source target → ∀ part ∈ (tokens.meaning target).objectTexts,
        references part = [] := by
  induction h with
  | @intro path raw meaning found targets ih =>
      have hrefers : ∀ target ∈ raw.value.placeholders, tokens.Refers path target :=
        fun target htarget => ⟨raw, found, htarget⟩
      have hmeans : ∀ target ∈ raw.value.spliced, tokens.Means target (meaning target) :=
        fun target htarget => targets target (Json.Value.mem_placeholders_of_spliced htarget)
      have hnext := fun target htarget =>
        ih target htarget (hseamless.next (hrefers target htarget))
      have hshut : ∀ target ∈ raw.value.spliced, ∀ part ∈ (meaning target).strings,
          Shut part.toList := by
        intro target htarget
        have hsplices : tokens.Splices path target := ⟨raw, found, htarget⟩
        exact (hmeans target htarget).shut
          (hseamless.next (hrefers target (Json.Value.mem_placeholders_of_spliced htarget)))
          fun origin raw => hseamless.shut .refl hsplices
      refine (Json.Value.filled_of_seamless (hseamless.apart .refl found) hshut).2.trans ?_
      constructor
      · rintro ⟨hliteral, hobjects⟩ source target hreach hsplices
        rcases Relation.ReflTransGen.cases_head hreach with rfl | ⟨next, ⟨other, hother, hn⟩, hrest⟩
        · obtain ⟨other, hother, htarget⟩ := hsplices
          obtain rfl := Option.some.inj (hother.symm.trans found)
          rw [(hmeans target htarget).meaning_eq]
          exact hobjects target htarget
        · obtain rfl := Option.some.inj (hother.symm.trans found)
          exact (hnext next hn).mp (hliteral next hn) source target hrest hsplices
      · intro h
        constructor
        · exact fun next hn => (hnext next hn).mpr fun source target hrest =>
            h source target (hrest.head (hrefers next hn))
        · intro target htarget
          rw [← (hmeans target htarget).meaning_eq]
          exact h path target .refl ⟨raw, found, htarget⟩

end RawTokens

/-- The tokens of a dictionary as if their values had been written. -/
def Dictionary.asWritten (d : Dictionary) : RawTokens :=
  d.tokens.map fun t => (t.dottedPath, ⟨t.path, t.value, t.file, t.isSource⟩)

namespace RawTokens

variable {tokens : RawTokens} {d : Dictionary}

theorem Holds.value_eq (h : tokens.Holds d) {t : Token} (ht : t ∈ d.tokens) :
    t.value = tokens.meaning t.dottedPath := by
  obtain ⟨raw, -, htoken⟩ := h.eq_resolvedToken ht
  exact congrArg Token.value htoken

/-- Resolving literal values again gives the same tokens. -/
theorem Holds.resolve_asWritten (h : tokens.Holds d)
    (hliteral : ∀ t ∈ d.tokens, t.value.placeholders = []) :
    d.asWritten.resolve =
      .ok ⟨d.tokens.map fun t => { t with source := t.value.sourceText }⟩ := by
  have hkeys : (Keyed.keys d.asWritten).Nodup := by
    have hsame : Keyed.keys d.asWritten = Keyed.keys tokens := by
      rw [Dictionary.asWritten, h.tokens_eq, Keyed.keys, Keyed.keys, List.map_map, List.map_map]
      exact List.map_congr_left fun entry hentry => (h.indexed.key_eq entry hentry).symm
    exact hsame ▸ h.indexed.nodup
  have hnone : ∀ source target, ¬ d.asWritten.Refers source target := by
    rintro source target ⟨raw, hraw, htarget⟩
    obtain ⟨t, ht, heq⟩ := List.mem_map.mp (Keyed.mem_of_get? hraw)
    obtain ⟨rfl, rfl⟩ := Prod.mk.inj heq
    exact absurd htarget (hliteral t ht ▸ List.not_mem_nil)
  have hacyclic : d.asWritten.Acyclic := by
    intro path hcycle
    obtain ⟨next, hrefers, -⟩ := Relation.TransGen.head'_iff.mp hcycle
    exact hnone path next hrefers
  obtain ⟨e, he⟩ := resolve_isOk_iff.mpr
    ⟨fun source target hrefers => absurd hrefers (hnone source target), hacyclic⟩
  obtain ⟨memo, hrun⟩ := resolve_eq_ok.mp he
  obtain ⟨htokens, hmeans⟩ := resolveEach_faithful goodMemo_nil hrun
  have hsame : e.tokens = d.tokens.map fun t => { t with source := t.value.sourceText } := by
    rw [htokens, Dictionary.asWritten, List.map_map]
    refine List.map_congr_left fun t ht => ?_
    have hentry : (t.dottedPath, (⟨t.path, t.value, t.file, t.isSource⟩ : RawToken)) ∈ d.asWritten :=
      List.mem_map_of_mem ht
    have hvalue := (hmeans _ hentry).eq_filled (Keyed.get?_of_mem hkeys hentry)
    rw [Json.Value.filled_eq_self _ (hliteral t ht)] at hvalue
    exact congrArg (fun v => Token.mk t.path v t.value.sourceText t.file t.isSource) hvalue
  rw [he, ← hsame]

/-- Where no placeholder on the way to a value stands behind an open brace, and no string that is put
into another one leaves a brace open, the value is literal exactly if no JSON text that is put into a
string on the way has a reference. If all values of a dictionary are literal, resolving them again
changes nothing. -/
theorem values_literal_iff {dependencies sources : List Path} {w : Workspace}
    (hcollected : w.place.collected dependencies sources = .ok tokens)
    (hd : exec (resolveFiles dependencies sources) w = (.ok d, w)) :
    (∀ t ∈ d.tokens, tokens.Seamless t.dottedPath →
      (t.value.placeholders = [] ↔
        ∀ source target u, Relation.ReflTransGen tokens.Refers t.dottedPath source →
          tokens.Splices source target → d.get? target = some u →
          ∀ part ∈ u.value.objectTexts, references part = [])) ∧
    ((∀ t ∈ d.tokens, t.value.placeholders = []) →
      d.asWritten.resolve = .ok ⟨d.tokens.map fun t => { t with source := t.value.sourceText }⟩) := by
  have hholds := holds_of_resolved hcollected hd
  refine ⟨fun t ht hseamless => ?_, hholds.resolve_asWritten⟩
  obtain ⟨raw, hraw, -⟩ := hholds.eq_resolvedToken ht
  rw [hholds.value_eq ht, (hholds.means _ (Keyed.mem_of_get? hraw)).literal_iff hseamless]
  constructor
  · rintro h source target u hreach hsplices hu
    obtain ⟨hmem, rfl⟩ := Dictionary.mem_of_get? hu
    exact hholds.value_eq hmem ▸ h source _ hreach hsplices
  · intro h source target hreach hsplices
    obtain ⟨u, hu⟩ := Option.isSome_iff_exists.mp (hholds.isSome_get? hsplices.refers)
    obtain ⟨hmem, rfl⟩ := Dictionary.mem_of_get? hu
    exact hholds.value_eq hmem ▸ h source _ u hreach hsplices hu

/-- One token file, in which a token is put into the text of another one. -/
def edgeWorkspace : Workspace :=
  let text := "\x7b\"ink\":\x7b\"value\":\"#000\"\x7d," ++
    "\"edge\":\x7b\"value\":\"1px \x7bink.value\x7d\"\x7d\x7d"
  ⟨⟨⟨[(["t.json"], .file text.toUTF8 0)]⟩, []⟩, 0, 0, []⟩

theorem values_literal_iff_edge :
    ∃ tokens d t, edgeWorkspace.place.collected [] [⟨"t.json"⟩] = .ok tokens ∧
      exec (resolveFiles [] [⟨"t.json"⟩]) edgeWorkspace = (.ok d, edgeWorkspace) ∧
      d.get? "edge" = some t ∧ tokens.Seamless "edge" ∧ t.value.placeholders = [] ∧
      d.asWritten.resolve =
        .ok ⟨d.tokens.map fun t => { t with source := t.value.sourceText }⟩ := by
  have hall : (edgeWorkspace.place.collected [] [⟨"t.json"⟩]).toOption.map allSeamless =
      some true := by
    decide +kernel
  have hplain : (edgeWorkspace.place.dictionary [] [⟨"t.json"⟩]).toOption.map
      (fun d => ((d.get? "edge").isSome, d.tokens.flatMap fun u => u.value.objectTexts)) =
      some (true, []) := by
    decide +kernel
  cases hcollected : edgeWorkspace.place.collected [] [⟨"t.json"⟩] with
  | error e => exact absurd (hcollected ▸ hall) nofun
  | ok tokens =>
      cases hdictionary : edgeWorkspace.place.dictionary [] [⟨"t.json"⟩] with
      | error e => exact absurd (hdictionary ▸ hplain) nofun
      | ok d =>
          rw [hcollected] at hall
          rw [hdictionary] at hplain
          obtain ⟨hedge, hobjects⟩ := Prod.mk.inj (Option.some.inj hplain)
          obtain ⟨t, ht⟩ := Option.isSome_iff_exists.mp hedge
          have hd : exec (resolveFiles [] [⟨"t.json"⟩]) edgeWorkspace = (.ok d, edgeWorkspace) := by
            rw [exec_resolveFiles, hdictionary]
          have hseamless := seamless_of_all (Option.some.inj hall)
          obtain ⟨hiff, hagain⟩ := values_literal_iff hcollected hd
          have hliteral : ∀ u ∈ d.tokens, u.value.placeholders = [] := by
            intro u hu
            refine (hiff u hu (hseamless _)).mpr fun _ _ other _ _ hother part hpart => ?_
            have hnone := List.flatMap_eq_nil_iff.mp hobjects other (Dictionary.mem_of_get? hother).1
            exact absurd hpart (hnone ▸ List.not_mem_nil)
          exact ⟨tokens, d, t, rfl, hd, ht, hseamless "edge",
            hliteral t (Dictionary.mem_of_get? ht).1, hagain hliteral⟩

/-- In the JSON text of an object, a string can close the brace of the object. -/
example :
    references (Json.Value.compact (.object [("a", .string ".value\x7d")])) = ["\"a\":\""] := by
  decide

/-- One token file, in which a placeholder stands behind a brace that is open. -/
def seamWorkspace : Workspace :=
  let text := "\x7b\"dark\":\x7b\"value\":\"#000\"\x7d," ++
    "\"mode\":\x7b\"value\":\"dark\"\x7d," ++
    "\"ink\":\x7b\"value\":\"\x7b\x7bmode.value\x7d.value\x7d\"\x7d\x7d"
  ⟨⟨⟨[(["t.json"], .file text.toUTF8 0)]⟩, []⟩, 0, 0, []⟩

/-- The braces of such a token come together around what the inner placeholder stands for. Resolving
the resolved value again replaces it. -/
theorem placeholder_left_at_seam :
    ∃ d t e u, exec (resolveFiles [] [⟨"t.json"⟩]) seamWorkspace = (.ok d, seamWorkspace) ∧
      d.get? "ink" = some t ∧ t.value.placeholders = ["dark"] ∧
      t.cssValue = "\x7bdark.value\x7d" ∧
      d.asWritten.resolve = .ok e ∧ e.get? "ink" = some u ∧ u.cssValue = "#000" := by
  have hink : (seamWorkspace.place.dictionary [] [⟨"t.json"⟩]).toOption.bind
      (fun d => d.asWritten.resolve.toOption.map fun e =>
        ((d.get? "ink").map fun t => (t.value.placeholders, t.cssValue),
          (e.get? "ink").map (·.cssValue))) =
      some (some (["dark"], "\x7bdark.value\x7d"), some "#000") := by
    decide +kernel
  cases hd : seamWorkspace.place.dictionary [] [⟨"t.json"⟩] with
  | error e => exact absurd (hd ▸ hink) nofun
  | ok d =>
      rw [hd] at hink
      cases he : d.asWritten.resolve with
      | error cause =>
          change d.asWritten.resolve.toOption.map _ = _ at hink
          exact absurd (he ▸ hink) nofun
      | ok e =>
          change d.asWritten.resolve.toOption.map _ = _ at hink
          rw [he] at hink
          obtain ⟨ht, hu⟩ := Prod.mk.inj (Option.some.inj hink)
          obtain ⟨t, ht, hleft⟩ := Option.map_eq_some_iff.mp ht
          obtain ⟨u, hu, hagain⟩ := Option.map_eq_some_iff.mp hu
          obtain ⟨hpaths, hcss⟩ := Prod.mk.inj hleft
          exact ⟨d, t, e, u, by rw [exec_resolveFiles, hd], ht, hpaths, hcss, he, hu, hagain⟩

end RawTokens

end DesignTokens
