import DesignTokens.Proofs.CustomProperty
import DesignTokens.Proofs.Token.Loading
import DesignTokens.Proofs.Token.SourceText

/-!
References and the tokens that they lead to. What the output writes for a reference, from its dotted
path alone, is compared with what it writes for the token that the dictionary has under that path.
-/

namespace DesignTokens

open Placeholder CustomProperty Job

section Paths

mutual

theorem path_leavesAt_ne_nil {path : List String} (hpath : path ≠ []) : (v : Json.Value) →
    {found : List (List String × Json.Value)} → leavesAt path v = .ok found →
    ∀ leaf ∈ found, leaf.1 ≠ []
  | .object members, found, h => by
      rw [leavesAt] at h
      split at h
      · obtain rfl := Except.ok.inj h
        exact List.forall_mem_singleton.mpr hpath
      · exact path_leavesIn_ne_nil members h
  | .null, _, h | .boolean _, _, h | .number _, _, h | .string _, _, h | .array _, _, h =>
      absurd h nofun

theorem path_leavesIn_ne_nil {path : List String} : (members : List (String × Json.Value)) →
    {found : List (List String × Json.Value)} → leavesIn path members = .ok found →
    ∀ leaf ∈ found, leaf.1 ≠ []
  | [], _, h => Except.ok.inj h ▸ fun _ hleaf => absurd hleaf List.not_mem_nil
  | (key, child) :: rest, found, h => by
      rw [leavesIn] at h
      split at h
      · exact path_leavesIn_ne_nil rest h
      · split at h
        · exact absurd h nofun
        · rename_i first hfirst
          cases hmore : leavesIn path rest with
          | error e =>
              rw [hmore] at h
              exact absurd h nofun
          | ok more =>
              rw [hmore] at h
              obtain rfl := Except.ok.inj h
              rw [List.forall_mem_append]
              exact ⟨path_leavesAt_ne_nil (by simp) child hfirst, path_leavesIn_ne_nil rest hmore⟩

end

/-- The path of every token in a document has a segment. -/
theorem path_documentTokens_ne_nil {p : Path} {text : String}
    {found : List (List String × Json.Value)} (h : documentTokens p text = .ok found) :
    ∀ leaf ∈ found, leaf.1 ≠ [] := by
  rw [documentTokens] at h
  split at h
  · cases h
  · split at h
    · cases h
    · rename_i document _ _ _ hleaves
      obtain rfl := Except.ok.inj h
      cases document with
      | object members => exact path_leavesIn_ne_nil members hleaves
      | _ => cases hleaves

end Paths

theorem Dictionary.mem_of_get? {d : Dictionary} {path : String} {t : Token}
    (h : d.get? path = some t) : t ∈ d.tokens ∧ t.dottedPath = path := by
  rw [Dictionary.get?] at h
  exact ⟨List.mem_of_find?_eq_some h, by simpa using List.find?_some h⟩

namespace RawTokens

variable {tokens : RawTokens} {d : Dictionary} {dependencies sources : List Path} {w : Workspace}

/-- A dictionary holds the collected tokens of its layer, each under its own dotted path, and every
path that one of them refers to. -/
structure Holds (tokens : RawTokens) (d : Dictionary) : Prop where
  indexed : tokens.Indexed
  closed : tokens.Closed
  means : ∀ entry ∈ tokens, tokens.Means entry.1 (tokens.meaning entry.1)
  tokens_eq : d.tokens = tokens.map tokens.resolvedToken
  path_ne_nil : ∀ t ∈ d.tokens, t.path ≠ []

theorem holds_of_resolved (hcollected : w.place.collected dependencies sources = .ok tokens)
    (hd : exec (resolveFiles dependencies sources) w = (.ok d, w)) : tokens.Holds d := by
  rw [exec_resolveFiles, Prod.mk.injEq] at hd
  have hresolve : tokens.resolve = .ok d := by
    rw [Place.dictionary, hcollected] at hd
    exact mapError_eq_ok.mp hd.1
  obtain ⟨memo, hrun⟩ := resolve_eq_ok.mp hresolve
  obtain ⟨htokens, hmeans⟩ := resolveEach_faithful goodMemo_nil hrun
  exact {
    indexed := indexed_of_collected hcollected
    closed := (resolve_isOk_iff.mp ⟨d, hresolve⟩).1
    means := hmeans
    tokens_eq := htokens
    path_ne_nil := paths_of_dictionary (P := (· ≠ [])) hd.1
      fun _ _ _ _ _ => path_documentTokens_ne_nil }

theorem exists_holds (hd : exec (resolveFiles dependencies sources) w = (.ok d, w)) :
    ∃ tokens, w.place.collected dependencies sources = .ok tokens ∧ tokens.Holds d := by
  cases hcollected : w.place.collected dependencies sources with
  | ok tokens => exact ⟨tokens, rfl, holds_of_resolved hcollected hd⟩
  | error e =>
      rw [exec_resolveFiles, Place.dictionary, hcollected] at hd
      cases (Prod.mk.inj hd).1

/-- Looking a path up in the dictionary gives the collected token under that path. -/
theorem Holds.get?_eq (h : tokens.Holds d) (path : String) :
    d.get? path =
      (Keyed.get? path tokens).map fun raw => tokens.resolvedToken (path, raw) := by
  have hsome : ∀ entries : RawTokens, (∀ entry ∈ entries, entry.1 = dotted entry.2.path) →
      (entries.map tokens.resolvedToken).find? (·.dottedPath == path) =
        (Keyed.get? path entries).map fun raw => tokens.resolvedToken (path, raw) := by
    intro entries hkeys
    induction entries with
    | nil => rfl
    | cons entry rest ih =>
        obtain ⟨key, raw⟩ := entry
        obtain ⟨hkey, hrest⟩ := List.forall_mem_cons.mp hkeys
        have hdotted : (tokens.resolvedToken (key, raw)).dottedPath = key := hkey.symm
        rw [List.map_cons, Keyed.get?]
        by_cases hpath : key = path
        · subst hpath
          rw [List.find?_cons_of_pos (by simp [hdotted]), if_pos rfl, Option.map_some]
        · rw [List.find?_cons_of_neg (by simpa [hdotted] using hpath), if_neg hpath, ih hrest]
  rw [Dictionary.get?, h.tokens_eq]
  exact hsome tokens h.indexed.key_eq

theorem Holds.eq_resolvedToken (h : tokens.Holds d) {t : Token} (ht : t ∈ d.tokens) :
    ∃ raw, Keyed.get? t.dottedPath tokens = some raw ∧
      t = tokens.resolvedToken (t.dottedPath, raw) := by
  rw [h.tokens_eq] at ht
  obtain ⟨⟨key, raw⟩, hentry, rfl⟩ := List.mem_map.mp ht
  have hkey : (tokens.resolvedToken (key, raw)).dottedPath = key :=
    (h.indexed.key_eq _ hentry).symm
  rw [hkey]
  exact ⟨raw, Keyed.get?_of_mem h.indexed.nodup hentry, rfl⟩

/-- The path that a token refers to leads to a token of the dictionary. -/
theorem Holds.isSome_get? (h : tokens.Holds d) {source target : String}
    (hrefers : tokens.Refers source target) : (d.get? target).isSome := by
  rw [h.get?_eq, Option.isSome_map]
  exact h.closed source target hrefers

/-- The name in the output of a reference is that of the token it leads to, with a hyphen for every
dot in its segments. It is the name under which the token is declared exactly if there is no such
dot. -/
theorem nameOfDotted_of_refers (hcollected : w.place.collected dependencies sources = .ok tokens)
    (hd : exec (resolveFiles dependencies sources) w = (.ok d, w)) {source target : String}
    (hrefers : tokens.Refers source target) (stem : String) :
    ∃ t, d.get? target = some t ∧
      nameOfDotted stem target = name stem (t.path.map hyphenated) ∧
      (nameOfDotted stem target = name stem t.path ↔
        ∀ segment ∈ t.path, '.' ∉ segment.toList) := by
  have hholds := holds_of_resolved hcollected hd
  obtain ⟨t, ht⟩ := Option.isSome_iff_exists.mp (hholds.isSome_get? hrefers)
  obtain ⟨hmem, rfl⟩ := Dictionary.mem_of_get? ht
  have hname := nameOfDotted_dotted stem (hholds.path_ne_nil t hmem)
  refine ⟨t, ht, hname, ?_⟩
  rw [Token.dottedPath, hname]
  exact name_map_hyphenated_iff

/-- Which paths each token refers to. -/
def links (tokens : RawTokens) : List (String × List String) :=
  tokens.map fun entry => (entry.1, entry.2.value.placeholders)

theorem Indexed.refers_of_links (h : tokens.Indexed) {source target : String}
    (targets : List String) (hlinks : (source, targets) ∈ tokens.links) (ht : target ∈ targets) :
    tokens.Refers source target := by
  obtain ⟨⟨key, raw⟩, hentry, heq⟩ := List.mem_map.mp hlinks
  obtain ⟨rfl, rfl⟩ := Prod.mk.inj heq
  exact ⟨raw, Keyed.get?_of_mem h.nodup hentry, ht⟩

/-- One token file. The name of `space.1.5` has a dot that separates no segments; `gap` refers to it
and `inset` refers to two tokens from a list. -/
def spaceWorkspace : Workspace :=
  let text := "\x7b\"space\": \x7b\"1.5\": \x7b\"value\": \"6px\"\x7d, \"small\": \x7b\"value\": 4\x7d\x7d, " ++
    "\"gap\": \x7b\"value\": \"calc(2 * \x7bspace.1.5.value\x7d)\"\x7d, " ++
    "\"inset\": \x7b\"value\": [\"\x7bgap.value\x7d\", \"\x7bspace.small.value\x7d\"]\x7d\x7d"
  ⟨⟨⟨[(["space.json"], .file text.toUTF8 0)]⟩, []⟩, 0, 0, []⟩

theorem exists_space :
    ∃ tokens d, spaceWorkspace.place.collected [] [⟨"space.json"⟩] = .ok tokens ∧
      exec (resolveFiles [] [⟨"space.json"⟩]) spaceWorkspace = (.ok d, spaceWorkspace) ∧
      tokens.links = [("space.1.5", []), ("space.small", []), ("gap", ["space.1.5"]),
        ("inset", ["gap", "space.small"])] := by
  have hlinks : (spaceWorkspace.place.collected [] [⟨"space.json"⟩]).toOption.bind
      (fun tokens => tokens.resolve.toOption.map fun _ => tokens.links) =
      some [("space.1.5", []), ("space.small", []), ("gap", ["space.1.5"]),
        ("inset", ["gap", "space.small"])] := by
    decide +kernel
  exact exists_of_resolved hlinks

theorem nameOfDotted_of_refers_space :
    ∃ tokens d t, spaceWorkspace.place.collected [] [⟨"space.json"⟩] = .ok tokens ∧
      exec (resolveFiles [] [⟨"space.json"⟩]) spaceWorkspace = (.ok d, spaceWorkspace) ∧
      tokens.Refers "inset" "space.small" ∧ d.get? "space.small" = some t ∧
      nameOfDotted "sando" "space.small" = name "sando" (t.path.map hyphenated) := by
  obtain ⟨tokens, d, hcollected, hd, hlinks⟩ := exists_space
  have hrefers : tokens.Refers "inset" "space.small" :=
    (indexed_of_collected hcollected).refers_of_links ["gap", "space.small"] (hlinks ▸ by decide)
      (by decide)
  obtain ⟨t, ht, hname, -⟩ := nameOfDotted_of_refers hcollected hd hrefers "sando"
  exact ⟨tokens, d, t, hcollected, hd, hrefers, ht, hname⟩

/-- A reference to a name with a dot links to a property that is not declared. -/
theorem nameOfDotted_ne_of_dot :
    ∃ tokens d t, spaceWorkspace.place.collected [] [⟨"space.json"⟩] = .ok tokens ∧
      exec (resolveFiles [] [⟨"space.json"⟩]) spaceWorkspace = (.ok d, spaceWorkspace) ∧
      tokens.Refers "gap" "space.1.5" ∧ d.get? "space.1.5" = some t ∧
      name "sando" t.path = "--sando-space-1.5" ∧
      nameOfDotted "sando" "space.1.5" = "--sando-space-1-5" := by
  obtain ⟨tokens, d, hcollected, hd, hlinks⟩ := exists_space
  have hholds := holds_of_resolved hcollected hd
  have hrefers : tokens.Refers "gap" "space.1.5" :=
    hholds.indexed.refers_of_links ["space.1.5"] (hlinks ▸ by decide) (by decide)
  obtain ⟨t, ht⟩ := Option.isSome_iff_exists.mp (hholds.isSome_get? hrefers)
  have hnames : (spaceWorkspace.place.dictionary [] [⟨"space.json"⟩]).toOption.bind
      (fun d => (d.get? "space.1.5").map fun t => name "sando" t.path) =
      some "--sando-space-1.5" := by
    decide +kernel
  rw [exec_resolveFiles, Prod.mk.injEq] at hd
  rw [hd.1] at hnames
  change (d.get? "space.1.5").map _ = _ at hnames
  rw [ht] at hnames
  rw [exec_resolveFiles, hd.1]
  exact ⟨tokens, d, t, hcollected, rfl, hrefers, ht, Option.some.inj hnames, by decide⟩

/-- A value whose placeholders are followed was written with references. Where its strings can be
read one after the other in its text, the text has exactly the references that are followed, and in
a dictionary they all lead to tokens. -/
theorem references_eq_followed (v : Json.Value) (answer : String → Json.Value) :
    (v.followed answer ≠ [] → hasReference v.sourceText = true) ∧
      (v.readsApart = true →
        references v.sourceText = v.followed answer ∧
          ∀ (dependencies sources : List Path) (w : Workspace) (tokens : RawTokens) (d : Dictionary),
            w.place.collected dependencies sources = .ok tokens →
            exec (resolveFiles dependencies sources) w = (.ok d, w) →
            ∀ t ∈ d.tokens, ∀ raw, Keyed.get? t.dottedPath tokens = some raw → raw.value = v →
              t.source = v.sourceText ∧ ∀ path ∈ references t.source, (d.get? path).isSome) := by
  rw [followed_eq_placeholders]
  constructor
  · intro h
    by_contra hnone
    exact h (placeholders_eq_nil_of_not_hasReference (Bool.not_eq_true _ ▸ hnone))
  · intro happart
    have hreferences := references_sourceText happart
    refine ⟨hreferences, ?_⟩
    rintro dependencies sources w tokens d hcollected hd t ht raw hraw rfl
    have hholds := holds_of_resolved hcollected hd
    have hsource : t.source = raw.value.sourceText := by
      obtain ⟨other, hother, htoken⟩ := hholds.eq_resolvedToken ht
      rw [htoken, Option.some.inj (hraw.symm.trans hother)]
      rfl
    refine ⟨hsource, fun path hpath => ?_⟩
    rw [hsource, hreferences] at hpath
    exact hholds.isSome_get? ⟨raw, hraw, hpath⟩

theorem references_eq_followed_inset :
    ∃ tokens d raw t, spaceWorkspace.place.collected [] [⟨"space.json"⟩] = .ok tokens ∧
      exec (resolveFiles [] [⟨"space.json"⟩]) spaceWorkspace = (.ok d, spaceWorkspace) ∧
      Keyed.get? "inset" tokens = some raw ∧ raw.value.readsApart = true ∧
      d.get? "inset" = some t ∧ t.source = raw.value.sourceText ∧
      references raw.value.sourceText = raw.value.followed (fun _ => .null) ∧
      ∀ path ∈ references t.source, (d.get? path).isSome := by
  obtain ⟨tokens, d, hcollected, hd, -⟩ := exists_space
  have hapart : (spaceWorkspace.place.collected [] [⟨"space.json"⟩]).toOption.map
      (fun tokens => (Keyed.get? "inset" tokens).map (·.value.readsApart)) = some (some true) := by
    decide +kernel
  rw [hcollected] at hapart
  obtain ⟨raw, hraw, happart⟩ := Option.map_eq_some_iff.mp (Option.some.inj hapart)
  have hfound : d.get? "inset" = some (tokens.resolvedToken ("inset", raw)) := by
    rw [(holds_of_resolved hcollected hd).get?_eq, hraw, Option.map_some]
  obtain ⟨hmem, hdotted⟩ := Dictionary.mem_of_get? hfound
  obtain ⟨hreferences, hall⟩ := (references_eq_followed raw.value fun _ => .null).2 happart
  obtain ⟨hsource, hsome⟩ := hall _ _ _ _ _ hcollected hd _ hmem raw (hdotted ▸ hraw) rfl
  exact ⟨tokens, d, raw, _, hcollected, hd, hraw, happart, hfound, hsource, hreferences, hsome⟩

/-- One token file with a list, in which a brace is open in one string and closed in the next. -/
def braceWorkspace : Workspace :=
  let text := "\x7b\"t\": \x7b\"value\": [\"\x7ba\", \"b.value\x7d\"]\x7d\x7d"
  ⟨⟨⟨[(["t.json"], .file text.toUTF8 0)]⟩, []⟩, 0, 0, []⟩

/-- No reference is followed in such a list, but its text has one, which leads nowhere. -/
theorem references_ne_followed :
    ∃ tokens d raw t, braceWorkspace.place.collected [] [⟨"t.json"⟩] = .ok tokens ∧
      exec (resolveFiles [] [⟨"t.json"⟩]) braceWorkspace = (.ok d, braceWorkspace) ∧
      Keyed.get? "t" tokens = some raw ∧ raw.value.followed (fun _ => .null) = [] ∧
      d.get? "t" = some t ∧ t.source = raw.value.sourceText ∧ references t.source = ["a, b"] ∧
      d.get? "a, b" = none := by
  have hread : (braceWorkspace.place.collected [] [⟨"t.json"⟩]).toOption.map
      (fun tokens => (Keyed.get? "t" tokens).map fun raw =>
        (raw.value.followed fun _ => .null, raw.value.sourceText)) =
      some (some ([], "\x7ba, b.value\x7d")) := by
    decide +kernel
  have hfound : (braceWorkspace.place.dictionary [] [⟨"t.json"⟩]).toOption.map
      (fun d => ((d.get? "t").map (·.source), (d.get? "a, b").isSome)) =
      some (some "\x7ba, b.value\x7d", false) := by
    decide +kernel
  cases hcollected : braceWorkspace.place.collected [] [⟨"t.json"⟩] with
  | error e => exact absurd (hcollected ▸ hread) nofun
  | ok tokens =>
      cases hd : braceWorkspace.place.dictionary [] [⟨"t.json"⟩] with
      | error e => exact absurd (hd ▸ hfound) nofun
      | ok d =>
          rw [hcollected] at hread
          rw [hd] at hfound
          obtain ⟨raw, hraw, hvalue⟩ := Option.map_eq_some_iff.mp (Option.some.inj hread)
          obtain ⟨ht, hnone⟩ := Prod.mk.inj (Option.some.inj hfound)
          obtain ⟨t, ht, hsource⟩ := Option.map_eq_some_iff.mp ht
          obtain ⟨hfollowed, htext⟩ := Prod.mk.inj hvalue
          refine ⟨tokens, d, raw, t, rfl, by rw [exec_resolveFiles, hd], hraw, hfollowed, ht,
            hsource.trans htext.symm, ?_, by simpa using hnone⟩
          rw [hsource]
          decide

end RawTokens

end DesignTokens
