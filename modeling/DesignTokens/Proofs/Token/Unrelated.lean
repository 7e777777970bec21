import DesignTokens.Proofs.Token.Masking

/-!
Files that share no path with the others. The tokens that such a file adds to those of the layers
that a layer depends on stand between the others and change nothing about them: what the others refer
to was there without it, and no declaration of its own takes the place of another one.
-/

namespace DesignTokens

open Job

namespace RawTokens

variable {tokens more : RawTokens} {keep : String → Bool}

/-- The tokens under the paths that a test lets through. -/
def within (keep : String → Bool) (tokens : RawTokens) : RawTokens :=
  tokens.filter fun entry => keep entry.1

theorem within_add (file : Path) (isSource : Bool) (found : List (List String × Json.Value)) :
    (tokens.add file isSource found).within keep =
      (tokens.within keep).add file isSource (found.filter fun leaf => keep (dotted leaf.1)) := by
  induction found generalizing tokens with
  | nil => rfl
  | cons leaf rest ih =>
      rw [List.filter_cons]
      apply ih.trans
      rw [within, Keyed.filter_put]
      split <;> rfl

theorem get?_within {path : String} {raw : RawToken}
    (h : Keyed.get? path (tokens.within keep) = some raw) : Keyed.get? path tokens = some raw := by
  rw [within, Keyed.get?_filter] at h
  split at h
  · exact h
  · cases h

/-- A token keeps its meaning among more tokens if none of those it was found with is replaced. -/
theorem Means.extend {path : String} {v : Json.Value}
    (hmore : ∀ path raw, Keyed.get? path tokens = some raw → Keyed.get? path more = some raw)
    (h : tokens.Means path v) : more.Means path v := by
  induction h with
  | intro meaning found targets ih => exact .intro meaning (hmore _ _ found) ih

end RawTokens

namespace Place

variable {w : Place} {isSource : Bool} {tokens out : RawTokens} {keep : String → Bool}

/-- The dotted paths of the tokens that a file declares. -/
def dottedPaths (w : Place) (p : Path) : List String :=
  match w.readText p with
  | .error _ => []
  | .ok text => ((declaredIn text).getD []).map dotted

theorem dottedPaths_eq {p : Path} {text : String} {found : List (List String × Json.Value)}
    (htext : w.readText p = .ok text) (hfound : documentTokens p text = .ok found) :
    w.dottedPaths p = found.map fun leaf => dotted leaf.1 := by
  rw [dottedPaths, htext]
  dsimp only
  rw [declaredIn_of_documentTokens hfound]
  simp

theorem loaded_append_eq_ok {paths rest : List Path} :
    w.loaded isSource tokens (paths ++ rest) = .ok out ↔
      ∃ between, w.loaded isSource tokens paths = .ok between ∧
        w.loaded isSource between rest = .ok out := by
  induction paths generalizing tokens with
  | nil =>
      constructor
      · intro h
        exact ⟨tokens, rfl, h⟩
      · rintro ⟨between, hnil, h⟩
        obtain rfl := Except.ok.inj hnil
        exact h
  | cons p paths ih =>
      simp only [List.cons_append, loaded_cons_eq_ok, ih]
      constructor
      · rintro ⟨text, found, htext, hfound, between, hpaths, h⟩
        exact ⟨between, ⟨text, found, htext, hfound, hpaths⟩, h⟩
      · rintro ⟨between, ⟨text, found, htext, hfound, hpaths⟩, h⟩
        exact ⟨text, found, htext, hfound, between, hpaths, h⟩

/-- Files with all of their paths among those of interest add the same to what is of interest. -/
theorem loaded_within {paths : List Path}
    (hkeep : ∀ p ∈ paths, ∀ path ∈ w.dottedPaths p, keep path)
    (hout : w.loaded isSource tokens paths = .ok out) :
    w.loaded isSource (tokens.within keep) paths = .ok (out.within keep) := by
  induction paths generalizing tokens with
  | nil =>
      obtain rfl := Except.ok.inj hout
      rfl
  | cons p rest ih =>
      obtain ⟨hp, hrest⟩ := List.forall_mem_cons.mp hkeep
      obtain ⟨text, found, htext, hfound, hout⟩ := loaded_cons_eq_ok.mp hout
      rw [dottedPaths_eq htext hfound, List.forall_mem_map] at hp
      apply loaded_cons_eq_ok.mpr
      refine ⟨text, found, htext, hfound, ?_⟩
      have hall : found.filter (fun leaf => keep (dotted leaf.1)) = found :=
        List.filter_eq_self.mpr hp
      have hnext := ih hrest hout
      rw [RawTokens.within_add, hall] at hnext
      exact hnext

/-- Without a file that has none of the paths of interest, what is of interest is collected alike. -/
theorem collected_within {before after own : List Path} {extra : Path}
    (hkeep : ∀ p ∈ before ++ after ++ own, ∀ path ∈ w.dottedPaths p, keep path)
    (hextra : ∀ path ∈ w.dottedPaths extra, keep path = false)
    (hout : w.collected (before ++ extra :: after) own = .ok out) :
    w.collected (before ++ after) own = .ok (out.within keep) := by
  simp only [List.forall_mem_append] at hkeep
  obtain ⟨⟨hbefore, hafter⟩, hown⟩ := hkeep
  rw [collected] at hout ⊢
  split at hout
  · cases hout
  rename_i dependencies hdependencies
  obtain ⟨first, hfirst, hlater⟩ := loaded_append_eq_ok.mp hdependencies
  obtain ⟨text, found, htext, hfound, hlater⟩ := loaded_cons_eq_ok.mp hlater
  have hnone : found.filter (fun leaf => keep (dotted leaf.1)) = [] := by
    rw [dottedPaths_eq htext hfound, List.forall_mem_map] at hextra
    simpa [List.filter_eq_nil_iff] using hextra
  have hsame : (first.add extra false found).within keep = first.within keep := by
    rw [RawTokens.within_add, hnone]
    rfl
  have hrest := loaded_within hafter hlater
  rw [hsame] at hrest
  have hfewer : w.loaded false [] (before ++ after) = .ok (dependencies.within keep) :=
    loaded_append_eq_ok.mpr ⟨_, loaded_within hbefore hfirst, hrest⟩
  rw [hfewer]
  exact loaded_within hown hout

end Place

namespace RawTokens

variable {tokens : RawTokens} {keep : String → Bool} {d d' : Dictionary}

/-- The dictionary of the tokens under the paths of interest is the part of the whole dictionary with
these paths. -/
theorem Holds.tokens_within (h : (tokens.within keep).Holds d) (h' : tokens.Holds d') :
    d'.tokens.filter (fun t => keep t.dottedPath) = d.tokens := by
  have hkey : ∀ entry ∈ tokens, keep (tokens.resolvedToken entry).dottedPath = keep entry.1 :=
    fun entry hentry => congrArg keep (h'.indexed.key_eq entry hentry).symm
  have hmeaning : ∀ entry ∈ tokens.within keep,
      tokens.meaning entry.1 = (tokens.within keep).meaning entry.1 := by
    intro entry hentry
    exact ((h.means entry hentry).extend fun _ _ => get?_within).meaning_eq
  calc d'.tokens.filter (fun t => keep t.dottedPath)
      = (tokens.filter fun entry => keep (tokens.resolvedToken entry).dottedPath).map
          tokens.resolvedToken := by
        rw [h'.tokens_eq, List.filter_map]
        rfl
    _ = (tokens.within keep).map tokens.resolvedToken := by
        rw [List.filter_congr hkey, within]
    _ = (tokens.within keep).map (tokens.within keep).resolvedToken := by
        apply List.map_congr_left
        intro entry hentry
        rw [resolvedToken, resolvedToken, hmeaning entry hentry]
    _ = d.tokens := h.tokens_eq.symm

/-- A file among those that a layer depends on whose paths no other file declares has no influence:
if the layer resolves without it and with it, the layer's own tokens are the same, and the tokens of
the larger dictionary without those of the file are all of the smaller one. -/
theorem sources_unrelated {before after own : List Path} {extra : Path} {w : Workspace}
    (hfresh : ∀ p ∈ before ++ after ++ own, ∀ path ∈ w.place.dottedPaths p,
      path ∉ w.place.dottedPaths extra)
    (hwithout : exec (resolveFiles (before ++ after) own) w = (.ok d, w))
    (hwith : exec (resolveFiles (before ++ extra :: after) own) w = (.ok d', w)) :
    d'.sources = d.sources ∧
      d'.tokens.filter (fun t => t.dottedPath ∉ w.place.dottedPaths extra) = d.tokens := by
  let keep : String → Bool := fun path => path ∉ w.place.dottedPaths extra
  have hkeep : ∀ p ∈ before ++ after ++ own, ∀ path ∈ w.place.dottedPaths p, keep path :=
    fun p hp path hpath => decide_eq_true (hfresh p hp path hpath)
  obtain ⟨tokens, hcollected, hholds⟩ := exists_holds hwith
  obtain ⟨fewer, hfewer, hholds'⟩ := exists_holds hwithout
  have hwithin := Place.collected_within hkeep (by simp [keep]) hcollected
  obtain rfl := Except.ok.inj (hfewer.symm.trans hwithin)
  have htokens : d'.tokens.filter (fun t => keep t.dottedPath) = d.tokens :=
    hholds'.tokens_within hholds
  refine ⟨?_, htokens⟩
  have hown : ∀ t ∈ d'.sources, keep t.dottedPath := by
    intro t ht
    rw [exec_resolveFiles, Prod.mk.injEq] at hwith
    refine paths_of_sources (P := fun path => keep (dotted path)) hwith.1 ?_ t ht
    intro p hp text found htext hfound leaf hleaf
    apply hkeep p (List.mem_append_right _ hp)
    rw [Place.dottedPaths_eq htext hfound]
    exact List.mem_map_of_mem hleaf
  calc d'.sources
      = d'.sources.filter (fun t => keep t.dottedPath) := (List.filter_eq_self.mpr hown).symm
    _ = d.sources := by
        rw [Dictionary.sources, Dictionary.sources, ← htokens, List.filter_filter,
          List.filter_filter]
        simp only [Bool.and_comm]

/-- Two files of other layers, and one of the layer itself, which refers to the first of them. -/
def insetWorkspace : Workspace :=
  let space := "\x7b\"space\": \x7b\"gap\": \x7b\"value\": 4\x7d\x7d\x7d"
  let notes := "\x7b\"note\": \x7b\"value\": \"\x7bspace.gap.value\x7d\"\x7d\x7d"
  let card := "\x7b\"inset\": \x7b\"value\": \"\x7bspace.gap.value\x7dpx\"\x7d\x7d"
  ⟨⟨⟨[(["space.json"], .file space.toUTF8 0), (["notes.json"], .file notes.toUTF8 0),
    (["card.json"], .file card.toUTF8 0)]⟩, []⟩, 0, 0, []⟩

theorem sources_unrelated_notes :
    ∃ d d' : Dictionary,
      (∀ p ∈ [(⟨"space.json"⟩ : Path)] ++ [] ++ [⟨"card.json"⟩],
        ∀ path ∈ insetWorkspace.place.dottedPaths p,
          path ∉ insetWorkspace.place.dottedPaths ⟨"notes.json"⟩) ∧
      exec (resolveFiles ([⟨"space.json"⟩] ++ []) [⟨"card.json"⟩]) insetWorkspace =
        (.ok d, insetWorkspace) ∧
      exec (resolveFiles ([⟨"space.json"⟩] ++ ⟨"notes.json"⟩ :: []) [⟨"card.json"⟩])
        insetWorkspace = (.ok d', insetWorkspace) ∧
      d'.tokens.map Token.dottedPath = ["space.gap", "note", "inset"] ∧ d'.sources = d.sources := by
  have hfresh : ∀ p ∈ [(⟨"space.json"⟩ : Path)] ++ [] ++ [⟨"card.json"⟩],
      ∀ path ∈ insetWorkspace.place.dottedPaths p,
        path ∉ insetWorkspace.place.dottedPaths ⟨"notes.json"⟩ := by
    decide +kernel
  have hok : (insetWorkspace.place.dictionary [⟨"space.json"⟩] [⟨"card.json"⟩]).isOk := by
    decide +kernel
  have hpaths : (insetWorkspace.place.dictionary [⟨"space.json"⟩, ⟨"notes.json"⟩]
      [⟨"card.json"⟩]).toOption.map (fun d => d.tokens.map Token.dottedPath) =
      some ["space.gap", "note", "inset"] := by
    decide +kernel
  cases hfewer : insetWorkspace.place.dictionary [⟨"space.json"⟩] [⟨"card.json"⟩] with
  | error e => exact absurd (hfewer ▸ hok) nofun
  | ok d =>
      cases hmore : insetWorkspace.place.dictionary [⟨"space.json"⟩, ⟨"notes.json"⟩]
          [⟨"card.json"⟩] with
      | error e => exact absurd (hmore ▸ hpaths) nofun
      | ok d' =>
          rw [hmore] at hpaths
          have hwithout : exec (resolveFiles ([⟨"space.json"⟩] ++ []) [⟨"card.json"⟩])
              insetWorkspace = (.ok d, insetWorkspace) := by
            rw [exec_resolveFiles, List.append_nil, hfewer]
          have hwith : exec (resolveFiles ([⟨"space.json"⟩] ++ ⟨"notes.json"⟩ :: [])
              [⟨"card.json"⟩]) insetWorkspace = (.ok d', insetWorkspace) := by
            rw [exec_resolveFiles, List.singleton_append, hmore]
          exact ⟨d, d', hfresh, hwithout, hwith, Option.some.inj hpaths,
            (sources_unrelated hfresh hwithout hwith).1⟩

end RawTokens

end DesignTokens
