import DesignTokens.Proofs.Style.Declarations
import DesignTokens.Proofs.Token.Merging

/-!
Which tokens share a property. The name of a property tells what stands between the hyphens of its
token's path, and no more. Where no segment has a hyphen this is the path itself, so that the tokens of
a dictionary have different properties and a rule declares each of them once.
-/

namespace DesignTokens

open CustomProperty Job Text

section Names

variable {stem : String} {path other : List String}

/-- What stands between the hyphens in the segments of a path. -/
def hyphenParts (path : List String) : List (List Char) :=
  path.flatMap fun segment => splitAt '-' segment.toList

theorem splitAt_nameChars (path : List String) :
    splitAt '-' (nameChars path) = [] :: hyphenParts path := by
  induction path with
  | nil => rfl
  | cons segment rest ih =>
      have hfirst : splitAt '-' (nameChars (segment :: rest)) =
          [] :: splitAt '-' (segment.toList ++ nameChars rest) :=
        splitAt_append_mark '-' [] _
      rw [hfirst, hyphenParts, List.flatMap_cons, ← hyphenParts]
      -- What follows a segment begins with a hyphen, so no part reaches from one segment into the next.
      cases rest with
      | nil => simp [nameChars, hyphenParts]
      | cons next more =>
          have hnext : nameChars (next :: more) = '-' :: (next.toList ++ nameChars more) := rfl
          rw [hnext] at ih ⊢
          have hparts : splitAt '-' (next.toList ++ nameChars more) = hyphenParts (next :: more) :=
            (List.cons.inj ((splitAt_append_mark '-' [] _).symm.trans ih)).2
          rw [splitAt_append_mark, hparts]

/-- Two paths are named alike exactly if the same texts stand between their hyphens. -/
theorem name_eq_name_iff : name stem path = name stem other ↔ hyphenParts path = hyphenParts other := by
  rw [← String.toList_inj, toList_name, toList_name, List.append_cancel_left_eq]
  constructor
  · intro h
    have hsplit := congrArg (splitAt '-') h
    rw [splitAt_nameChars, splitAt_nameChars] at hsplit
    exact (List.cons.inj hsplit).2
  · intro h
    rw [← intercalate_splitAt '-' (nameChars path), splitAt_nameChars, h, ← splitAt_nameChars,
      intercalate_splitAt]

theorem hyphenParts_eq_map (h : ∀ segment ∈ path, '-' ∉ segment.toList) :
    hyphenParts path = path.map String.toList := by
  rw [hyphenParts, List.map_eq_flatMap]
  exact List.flatMap_congr fun segment hsegment => splitAt_of_not_mem (h segment hsegment)

/-- Without hyphens in the segments, empty ones among them, a name belongs to one path only. -/
theorem eq_of_name_eq (hpath : ∀ segment ∈ path, '-' ∉ segment.toList)
    (hother : ∀ segment ∈ other, '-' ∉ segment.toList) (h : name stem path = name stem other) :
    path = other := by
  rw [name_eq_name_iff, hyphenParts_eq_map hpath, hyphenParts_eq_map hother] at h
  exact (List.map_inj_right fun _ _ => String.toList_injective).mp h

-- A hyphen in a segment is taken for one that divides two.
example : name "sando" ["ink", "soft"] = name "sando" ["ink-soft"] := by decide

end Names

/-- Tokens with different dotted paths have different properties if there are no hyphens in them. -/
theorem RawTokens.Holds.nodup_names {tokens : RawTokens} {d : Dictionary} (h : tokens.Holds d)
    (hplain : ∀ t ∈ d.tokens, ∀ segment ∈ t.path, '-' ∉ segment.toList) (stem : String) :
    (d.tokens.map fun t => name stem t.path).Nodup := by
  have hdotted : (d.tokens.map Token.dottedPath).Nodup := by
    rw [h.map_dottedPath]
    exact h.indexed.nodup
  refine List.pairwise_map.mpr ((List.pairwise_map.mp hdotted).imp_of_mem ?_)
  intro t u ht hu hne hname
  exact hne (congrArg dotted (eq_of_name_eq (hplain t ht) (hplain u hu) hname))

/-- An element whose image no other element has is the only one that is found by its image. -/
theorem filter_image_eq {α β : Type} [DecidableEq β] {f : α → β} {l : List α}
    (h : (l.map f).Nodup) {a : α} (ha : a ∈ l) : l.filter (fun b => f b = f a) = [a] := by
  induction l with
  | nil => exact absurd ha List.not_mem_nil
  | cons b l ih =>
      obtain ⟨hb, hl⟩ := List.nodup_cons.mp h
      rcases List.mem_cons.mp ha with rfl | ha
      · have hnone : l.filter (fun b => f b = f a) = [] :=
          List.filter_eq_nil_iff.mpr fun c hc hfc =>
            hb (List.mem_map.mpr ⟨c, hc, of_decide_eq_true hfc⟩)
        rw [List.filter_cons_of_pos (by simp), hnone]
      · have hne : ¬ f b = f a := fun hfb => hb (hfb ▸ List.mem_map_of_mem ha)
        rw [List.filter_cons_of_neg (by simpa using hne), ih hl ha]

namespace Stylesheet

variable {s : Stylesheet} {tokens : List Token} {t : Token}

/-- The property of a declaration: what stands in front of its first colon. -/
def propertyOf (declaration : String) : String :=
  String.ofList (declaration.toList.takeWhile (· ≠ ':'))

theorem propertyOf_declaration (h : ':' ∉ (name s.stem t.path).toList) :
    propertyOf (s.declaration t) = name s.stem t.path := by
  have htext : (s.declaration t).toList =
      (name s.stem t.path).toList ++ ':' :: (" " ++ s.declarationValue t ++ ";").toList := by
    simp [declaration]
  rw [propertyOf, htext, takeWhile_append_mark h, String.ofList_toList]

/-- In the groups of tokens with different properties, one token alone has a property. -/
theorem filter_groups_eq (hnames : (tokens.map fun t => name s.stem t.path).Nodup) (ht : t ∈ tokens) :
    ((groupByCategory tokens).flatMap Prod.snd).filter
      (fun u => name s.stem u.path = name s.stem t.path) = [t] := by
  have hperm : (byCategory tokens).Perm tokens := List.mergeSort_perm _ _
  rw [flatMap_groupByCategory]
  exact filter_image_eq ((hperm.map _).nodup_iff.mpr hnames) (hperm.mem_iff.mpr ht)

/-- A rule that is read back declares such a property once, for that token. -/
theorem filter_declarationsIn_eq (h : s.OneLine tokens)
    (hcolon : ∀ u ∈ tokens, ':' ∉ (name s.stem u.path).toList)
    (hnames : (tokens.map fun t => name s.stem t.path).Nodup) (ht : t ∈ tokens)
    {selectors : List String} (hselectors : ∀ selector ∈ selectors, Inert selector) (depth : Nat) :
    (declarationsIn (s.rule selectors tokens depth)).filter (propertyOf · = name s.stem t.path) =
      [s.declaration t] := by
  have hread : ∀ u ∈ byCategory tokens,
      decide (propertyOf (s.declaration u) = name s.stem t.path) =
        decide (name s.stem u.path = name s.stem t.path) := by
    intro u hu
    rw [propertyOf_declaration (hcolon u (List.mem_mergeSort.mp hu))]
  calc (declarationsIn (s.rule selectors tokens depth)).filter (propertyOf · = name s.stem t.path)
      = ((byCategory tokens).filter
          fun u => propertyOf (s.declaration u) = name s.stem t.path).map s.declaration := by
        rw [h.declarationsIn_rule hselectors, List.filter_map]
        rfl
    _ = ((byCategory tokens).filter
          fun u => name s.stem u.path = name s.stem t.path).map s.declaration := by
        rw [List.filter_congr hread]
    _ = [s.declaration t] := by
        rw [← flatMap_groupByCategory, filter_groups_eq hnames ht, List.map_singleton]

/-- If no segment of a path in a dictionary has a hyphen, its tokens have different properties under
every stem, whatever else stands in the segments. A rule for tokens of the dictionary then has the
property of each of them in one place only, so that none takes the place of another: its groups hold no
other token with that property, and where the lines and names of the rule can be told apart in its text,
the declaration of the token is the only one for the property that is read back. -/
theorem properties_declared_once {dependencies sources : List Path} {w : Workspace} {d : Dictionary}
    (hd : exec (resolveFiles dependencies sources) w = (.ok d, w))
    (hplain : ∀ t ∈ d.tokens, ∀ segment ∈ t.path, '-' ∉ segment.toList) (s : Stylesheet) :
    (d.tokens.map fun t => name s.stem t.path).Nodup ∧
      ∀ tokens, tokens.Sublist d.tokens → ∀ t ∈ tokens,
        ((groupByCategory tokens).flatMap Prod.snd).filter
            (fun u => name s.stem u.path = name s.stem t.path) = [t] ∧
          (s.OneLine tokens → (∀ u ∈ tokens, ':' ∉ (name s.stem u.path).toList) →
            ∀ selectors, (∀ selector ∈ selectors, Inert selector) → ∀ depth,
              (declarationsIn (s.rule selectors tokens depth)).filter
                (propertyOf · = name s.stem t.path) = [s.declaration t]) := by
  obtain ⟨raw, -, hholds⟩ := RawTokens.exists_holds hd
  have hnames := hholds.nodup_names hplain s.stem
  refine ⟨hnames, fun tokens hsublist t ht => ?_⟩
  have hsome : (tokens.map fun t => name s.stem t.path).Nodup := hnames.sublist (hsublist.map _)
  refine ⟨filter_groups_eq hsome ht, ?_⟩
  intro hline hcolon selectors hselectors depth
  exact filter_declarationsIn_eq hline hcolon hsome ht hselectors depth

/-- Two token files. Members without a name stand above and below `color`, and the second file declares
`color.ink` again. -/
def namelessWorkspace : Workspace :=
  let base := "\x7b\"color\": \x7b\"\": \x7b\"value\": \"#fff\"\x7d, " ++
    "\"ink\": \x7b\"value\": \"#000\"\x7d\x7d, \"\": \x7b\"color\": \x7b\"value\": \"#eee\"\x7d\x7d\x7d"
  let dark := "\x7b\"color\": \x7b\"ink\": \x7b\"value\": \"\x7bcolor..value\x7d\"\x7d\x7d\x7d"
  ⟨⟨⟨[(["base.json"], .file base.toUTF8 0), (["dark.json"], .file dark.toUTF8 0)]⟩, []⟩, 0, 0, []⟩

/-- Its tokens and what is declared for them. -/
def namelessDeclarations : List (List String × String) :=
  [(["color", ""], "#fff"), (["color", "ink"], "var(--sando-color-)"), (["", "color"], "#eee")]

theorem exists_nameless :
    ∃ d, exec (resolveFiles [⟨"base.json"⟩] [⟨"dark.json"⟩]) namelessWorkspace =
        (.ok d, namelessWorkspace) ∧
      d.tokens.map (fun t => (t.path, declarationValue ⟨"sando", .standard⟩ t)) =
        namelessDeclarations := by
  have hfound : (namelessWorkspace.place.collected [⟨"base.json"⟩] [⟨"dark.json"⟩]).toOption.bind
      (fun tokens => tokens.resolve.toOption.map fun d =>
        d.tokens.map fun t => (t.path, declarationValue ⟨"sando", .standard⟩ t)) =
        some namelessDeclarations := by
    decide +kernel
  obtain ⟨-, d, -, hd, hlisted⟩ := exists_of_resolved hfound
  exact ⟨d, hd, hlisted⟩

/-- Members without a name keep their tokens apart from the others, and the rule for the document root
has one declaration for the token that refers to one of them. -/
theorem properties_declared_once_nameless :
    let s : Stylesheet := ⟨"sando", .standard⟩
    ∃ d, exec (resolveFiles [⟨"base.json"⟩] [⟨"dark.json"⟩]) namelessWorkspace =
        (.ok d, namelessWorkspace) ∧
      (∀ t ∈ d.tokens, ∀ segment ∈ t.path, '-' ∉ segment.toList) ∧
      (d.tokens.map fun t => name s.stem t.path).Nodup ∧
      d.tokens.map (fun t => name s.stem t.path) =
        ["--sando-color-", "--sando-color-ink", "--sando--color"] ∧
      (declarationsIn (s.rootText d.tokens)).filter (propertyOf · = "--sando-color-ink") =
        ["--sando-color-ink: var(--sando-color-);"] := by
  intro s
  obtain ⟨d, hd, hlisted⟩ := exists_nameless
  have hall : ∀ P : List String × String → Prop, (∀ entry ∈ namelessDeclarations, P entry) →
      ∀ t ∈ d.tokens, P (t.path, s.declarationValue t) := by
    intro P hP t ht
    refine hP _ ?_
    rw [← hlisted]
    exact List.mem_map_of_mem ht
  have hplain := hall (fun entry => ∀ segment ∈ entry.1, '-' ∉ segment.toList) (by decide)
  have hline : s.OneLine d.tokens := {
    stem := by decide
    segments := hall (fun entry => ∀ segment ∈ entry.1, '\n' ∉ segment.toList) (by decide)
    values := hall (fun entry => '\n' ∉ entry.2.toList) (by decide)
    root := by decide
    flavorAttribute := by decide
    modeAttribute := by decide }
  have hcolon := hall (fun entry => ':' ∉ (name s.stem entry.1).toList) (by decide)
  have hnames : d.tokens.map (fun t => name s.stem t.path) =
      namelessDeclarations.map fun entry => name s.stem entry.1 := by
    rw [← hlisted, List.map_map]
    rfl
  obtain ⟨t, ht, heq⟩ : ∃ t ∈ d.tokens,
      (t.path, s.declarationValue t) = (["color", "ink"], "var(--sando-color-)") := by
    rw [← List.mem_map, hlisted]
    decide
  obtain ⟨hpath, hvalue⟩ := Prod.mk.inj heq
  obtain ⟨hdistinct, honce⟩ := properties_declared_once hd hplain s
  have hroot : ∀ selector ∈ [s.selectors.root], Inert selector :=
    List.forall_mem_singleton.mpr ⟨by decide, by decide⟩
  have hread := (honce d.tokens (List.Sublist.refl _) t ht).2 hline hcolon _ hroot 0
  refine ⟨d, hd, hplain, hdistinct, hnames.trans (by decide), ?_⟩
  rw [declaration, hpath, hvalue] at hread
  exact hread

end Stylesheet

end DesignTokens
