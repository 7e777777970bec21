import DesignTokens.Proofs.Token.Linking

/-!
Which tokens several documents make together. Collecting visits the members of a document one after
the other, each before those inside of it; the tokens met on the way are merged over all documents,
so that a dotted path keeps the position at which it was met first and takes the token that was met
last.
-/

namespace DesignTokens

open Job

/-- The members that collecting comes upon from the members of a group on, with their paths: these
members themselves and, in those that are groups and no tokens, their members in turn. Members whose
name starts with `$` are left out. The document itself is no member and always entered. -/
inductive Reached : List String → List (String × Json.Value) → List String → Json.Value → Prop
  | member {path : List String} {members : List (String × Json.Value)} {key : String}
      {child : Json.Value} (hmem : (key, child) ∈ members) (hkey : key.toList.head? ≠ some '$') :
      Reached path members (path ++ [key]) child
  | inside {path : List String} {members inner : List (String × Json.Value)} {key : String}
      {deeper : List String} {v : Json.Value} (hmem : (key, .object inner) ∈ members)
      (hkey : key.toList.head? ≠ some '$') (hgroup : Keyed.get? "value" inner = none)
      (next : Reached (path ++ [key]) inner deeper v) :
      Reached path members deeper v

mutual

/-- The members that collecting comes upon, in document order. -/
def visitedAt (path : List String) : Json.Value → List (List String × Json.Value)
  | .object members =>
    match Keyed.get? "value" members with
    | some _ => [(path, .object members)]
    | none => (path, .object members) :: visitedIn path members
  | other => [(path, other)]

def visitedIn (path : List String) :
    List (String × Json.Value) → List (List String × Json.Value)
  | [] => []
  | (key, child) :: rest =>
    if key.toList.head? = some '$' then visitedIn path rest
    else visitedAt (path ++ [key]) child ++ visitedIn path rest

end

theorem mem_visitedAt_self (path : List String) (v : Json.Value) :
    (path, v) ∈ visitedAt path v := by
  cases v with
  | object members =>
      rw [visitedAt]
      split <;> exact List.mem_cons_self
  | null | boolean _ | number _ | string _ | array _ => exact List.mem_singleton_self _

theorem mem_visitedIn_of_mem {path : List String} {members : List (String × Json.Value)}
    {key : String} {child : Json.Value} (hmem : (key, child) ∈ members)
    (hkey : key.toList.head? ≠ some '$')
    {entry : List String × Json.Value} (hentry : entry ∈ visitedAt (path ++ [key]) child) :
    entry ∈ visitedIn path members := by
  induction members with
  | nil => exact absurd hmem List.not_mem_nil
  | cons first rest ih =>
      obtain ⟨k, c⟩ := first
      rw [visitedIn]
      rcases List.mem_cons.mp hmem with heq | hrest
      · obtain ⟨rfl, rfl⟩ := Prod.mk.inj heq
        rw [if_neg hkey]
        exact List.mem_append_left _ hentry
      · split
        · exact ih hrest
        · exact List.mem_append_right _ (ih hrest)

mutual

theorem reached_of_mem_visitedAt {path deeper : List String} {v : Json.Value} :
    (child : Json.Value) → (deeper, v) ∈ visitedAt path child →
      (deeper, v) = (path, child) ∨ ∃ members, child = .object members ∧
        Keyed.get? "value" members = none ∧ Reached path members deeper v
  | .object members, h => by
      rw [visitedAt] at h
      split at h
      · exact .inl (List.mem_singleton.mp h)
      · rename_i hgroup
        rcases List.mem_cons.mp h with h | h
        · exact .inl h
        · exact .inr ⟨members, rfl, hgroup, reached_of_mem_visitedIn members h⟩
  | .null, h | .boolean _, h | .number _, h | .string _, h | .array _, h =>
      .inl (List.mem_singleton.mp h)

theorem reached_of_mem_visitedIn {path deeper : List String} {v : Json.Value} :
    (members : List (String × Json.Value)) → (deeper, v) ∈ visitedIn path members →
      Reached path members deeper v
  | [], h => absurd h List.not_mem_nil
  | (key, child) :: rest, h => by
      have hrest : Reached path rest deeper v → Reached path ((key, child) :: rest) deeper v := by
        rintro (⟨hmem, hkey⟩ | ⟨hmem, hkey, hgroup, next⟩)
        · exact .member (List.mem_cons_of_mem _ hmem) hkey
        · exact .inside (List.mem_cons_of_mem _ hmem) hkey hgroup next
      rw [visitedIn] at h
      split at h
      · exact hrest (reached_of_mem_visitedIn rest h)
      · rename_i hkey
        rcases List.mem_append.mp h with h | h
        · rcases reached_of_mem_visitedAt child h with heq | ⟨members, rfl, hgroup, next⟩
          · obtain ⟨rfl, rfl⟩ := Prod.mk.inj heq
            exact .member List.mem_cons_self hkey
          · exact .inside List.mem_cons_self hkey hgroup next
        · exact hrest (reached_of_mem_visitedIn rest h)

end

/-- The list of visited members holds those that are reached and no others. -/
theorem mem_visitedIn_iff {path deeper : List String} {members : List (String × Json.Value)}
    {v : Json.Value} : (deeper, v) ∈ visitedIn path members ↔ Reached path members deeper v := by
  constructor
  · exact reached_of_mem_visitedIn members
  · intro h
    induction h with
    | member hmem hkey => exact mem_visitedIn_of_mem hmem hkey (mem_visitedAt_self _ _)
    | @inside path members inner key deeper v hmem hkey hgroup next ih =>
        refine mem_visitedIn_of_mem hmem hkey ?_
        rw [visitedAt, hgroup]
        exact List.mem_cons_of_mem _ ih

/-- The token that a visited member is. -/
def leaf? : List String × Json.Value → Option (List String × Json.Value)
  | (path, .object members) => (Keyed.get? "value" members).map (path, ·)
  | _ => none

/-- The tokens of a document are those among the members visited, and the first member that is no
object is refused. -/
def visit (found : List (List String × Json.Value)) :
    Except DocumentError (List (List String × Json.Value)) :=
  match found.find? fun entry => !entry.2.isObject with
  | some entry => .error (.neitherTokenNorGroup (dotted entry.1))
  | none => .ok (found.filterMap leaf?)

theorem visit_append (found more : List (List String × Json.Value)) :
    visit (found ++ more) =
      match visit found with
      | .error e => .error e
      | .ok first => (visit more).map (first ++ ·) := by
  rw [visit, visit, visit, List.find?_append, List.filterMap_append]
  cases found.find? fun entry => !entry.2.isObject with
  | some entry => rfl
  | none =>
      dsimp only [Option.none_or]
      cases more.find? fun entry => !entry.2.isObject <;> rfl

mutual

theorem leavesAt_eq (path : List String) : (v : Json.Value) →
    leavesAt path v = visit (visitedAt path v)
  | .object members => by
      rw [leavesAt, visitedAt]
      split
      · rename_i value hvalue
        simp [visit, Json.Value.isObject, leaf?, hvalue]
      · rename_i hvalue
        rw [leavesIn_eq path members]
        simp [visit, Json.Value.isObject, leaf?, hvalue]
  | .null | .boolean _ | .number _ | .string _ | .array _ => rfl

theorem leavesIn_eq (path : List String) : (members : List (String × Json.Value)) →
    leavesIn path members = visit (visitedIn path members)
  | [] => rfl
  | (key, child) :: rest => by
      rw [leavesIn, visitedIn]
      split
      · exact leavesIn_eq path rest
      · rw [leavesAt_eq (path ++ [key]) child, leavesIn_eq path rest]
        exact (visit_append _ _).symm

end

/-- Every member that is reached in a document is an object. -/
def Tidy (document : List (String × Json.Value)) : Prop :=
  ∀ path v, Reached [] document path v → v.isObject = true

theorem visit_eq_ok_iff {document : List (String × Json.Value)}
    {found : List (List String × Json.Value)} :
    visit (visitedIn [] document) = .ok found ↔
      Tidy document ∧ (visitedIn [] document).filterMap leaf? = found := by
  have htidy : Tidy document ↔
      (visitedIn [] document).find? (fun entry => !entry.2.isObject) = none := by
    simp [Tidy, List.find?_eq_none, ← mem_visitedIn_iff]
  rw [htidy, visit]
  cases (visitedIn [] document).find? fun entry => !entry.2.isObject with
  | some entry => simp
  | none => simp

/-- The dotted path of a token that is not resolved yet. -/
def RawToken.dottedPath (raw : RawToken) : String :=
  dotted raw.path

/-- The tokens of a document in document order. -/
def declared (file : Path) (isSource : Bool) (document : List (String × Json.Value)) :
    List RawToken :=
  ((visitedIn [] document).filterMap leaf?).map fun leaf => ⟨leaf.1, leaf.2, file, isSource⟩

namespace RawTokens

/-- Tokens one after the other, each under its dotted path. -/
def merge (tokens : RawTokens) (declarations : List RawToken) : RawTokens :=
  declarations.foldl (fun acc raw => Keyed.put raw.dottedPath raw acc) tokens

theorem merge_append (tokens : RawTokens) (declarations more : List RawToken) :
    tokens.merge (declarations ++ more) = (tokens.merge declarations).merge more :=
  List.foldl_append

theorem merge_concat (tokens : RawTokens) (declarations : List RawToken) (raw : RawToken) :
    tokens.merge (declarations ++ [raw]) =
      Keyed.put raw.dottedPath raw (tokens.merge declarations) := by
  rw [merge_append]
  rfl

theorem add_eq_merge (tokens : RawTokens) (file : Path) (isSource : Bool)
    (found : List (List String × Json.Value)) :
    tokens.add file isSource found =
      tokens.merge (found.map fun leaf => ⟨leaf.1, leaf.2, file, isSource⟩) := by
  rw [merge, List.foldl_map]
  rfl

/-- A dotted path keeps the position of its first declaration. -/
theorem keys_merge (declarations : List RawToken) :
    Keyed.keys (merge [] declarations) = (declarations.map RawToken.dottedPath).eraseDups := by
  induction declarations using List.reverseRecOn with
  | nil => rfl
  | append_singleton declarations raw ih =>
      rw [merge_concat, Keyed.keys_put, ih, List.map_append, List.map_singleton,
        List.eraseDups_append, List.cons_removeAll]
      by_cases hmem : raw.dottedPath ∈ declarations.map RawToken.dottedPath
      · rw [if_pos (List.mem_eraseDups.mpr hmem), if_neg (by simpa using hmem)]
        simp [List.removeAll]
      · rw [if_neg (mt List.mem_eraseDups.mp hmem), if_pos (by simpa using hmem)]
        simp [List.removeAll, List.eraseDups_cons]

/-- A dotted path has the token of its last declaration. -/
theorem get?_merge (path : String) (declarations : List RawToken) :
    Keyed.get? path (merge [] declarations) =
      (declarations.filter fun raw => raw.dottedPath = path).getLast? := by
  induction declarations using List.reverseRecOn with
  | nil => rfl
  | append_singleton declarations raw ih =>
      rw [merge_concat, Keyed.get?_put, ih, List.filter_append]
      by_cases hpath : raw.dottedPath = path
      · rw [if_pos hpath.symm, List.filter_singleton]
        simp [hpath]
      · rw [if_neg (Ne.symm hpath), List.filter_singleton]
        simp [hpath]

end RawTokens

namespace Place

/-- The members of the object that a file holds. -/
def document? (w : Place) (p : Path) : Option (List (String × Json.Value)) :=
  match w.readText p with
  | .error _ => none
  | .ok text =>
    match Json.parse text with
    | .ok (.object members) => some members
    | _ => none

variable {w : Place} {contents : Path → List (String × Json.Value)}

theorem documentTokens_of_document? {p : Path} {document : List (String × Json.Value)}
    (h : w.document? p = some document) :
    ∃ text, w.readText p = .ok text ∧
      documentTokens p text = (visit (visitedIn [] document)).mapError (.document p) := by
  rw [document?] at h
  split at h
  · cases h
  · rename_i text htext
    split at h
    · rename_i members hparse
      obtain rfl := Option.some.inj h
      refine ⟨text, htext, ?_⟩
      rw [documentTokens, hparse, ← leavesIn_eq]
      dsimp only [leaves]
      cases leavesIn [] members <;> rfl
    · cases h

theorem loaded_eq_ok_iff {isSource : Bool} {tokens out : RawTokens} {paths : List Path}
    (h : ∀ p ∈ paths, w.document? p = some (contents p)) :
    w.loaded isSource tokens paths = .ok out ↔
      (∀ p ∈ paths, Tidy (contents p)) ∧
        tokens.merge (paths.flatMap fun p => declared p isSource (contents p)) = out := by
  induction paths generalizing tokens with
  | nil => simp [loaded, RawTokens.merge]
  | cons p rest ih =>
      obtain ⟨hp, hrest⟩ := List.forall_mem_cons.mp h
      obtain ⟨text, htext, htokens⟩ := documentTokens_of_document? hp
      rw [loaded, htext, List.forall_mem_cons, List.flatMap_cons, RawTokens.merge_append]
      dsimp only
      rw [htokens]
      cases hvisit : visit (visitedIn [] (contents p)) with
      | error e =>
          have huntidy : ¬ Tidy (contents p) := by
            intro htidy
            cases hvisit.symm.trans (visit_eq_ok_iff.mpr ⟨htidy, rfl⟩)
          simp [Except.mapError, huntidy]
      | ok found =>
          obtain ⟨htidy, rfl⟩ := visit_eq_ok_iff.mp hvisit
          rw [and_iff_right htidy]
          exact (ih hrest).trans (by rw [RawTokens.add_eq_merge]; rfl)

theorem collected_eq_ok_iff {dependencies sources : List Path}
    (h : ∀ p ∈ dependencies ++ sources, w.document? p = some (contents p)) (out : RawTokens) :
    w.collected dependencies sources = .ok out ↔
      (∀ p ∈ dependencies ++ sources, Tidy (contents p)) ∧
        RawTokens.merge [] ((dependencies.flatMap fun p => declared p false (contents p)) ++
          sources.flatMap fun p => declared p true (contents p)) = out := by
  obtain ⟨hbefore, hafter⟩ := List.forall_mem_append.mp h
  rw [collected, List.forall_mem_append, RawTokens.merge_append, and_assoc]
  cases hloaded : w.loaded false [] dependencies with
  | error e =>
      have huntidy : ¬ ∀ p ∈ dependencies, Tidy (contents p) := by
        intro htidy
        cases hloaded.symm.trans ((loaded_eq_ok_iff hbefore).mpr ⟨htidy, rfl⟩)
      simp [huntidy]
  | ok tokens =>
      obtain ⟨htidy, rfl⟩ := (loaded_eq_ok_iff hbefore).mp hloaded
      rw [and_iff_right htidy]
      exact loaded_eq_ok_iff hafter

end Place

theorem exec_loadTokens_bind (dependencies sources : List Path) (w : Workspace) :
    exec (loadTokens false [] dependencies >>= fun tokens => loadTokens true tokens sources) w =
      (w.place.collected dependencies sources, w) := by
  rw [exec_bind, exec_loadTokens, Place.collected]
  cases w.place.loaded false [] dependencies with
  | error e => rfl
  | ok tokens => exact exec_loadTokens true tokens sources w

namespace RawTokens

variable {tokens : RawTokens} {d : Dictionary}

theorem Holds.map_dottedPath (h : tokens.Holds d) :
    d.tokens.map Token.dottedPath = Keyed.keys tokens := by
  rw [h.tokens_eq, List.map_map, Keyed.keys]
  exact List.map_congr_left fun entry hentry => (h.indexed.key_eq entry hentry).symm

theorem Holds.get?_iff (h : tokens.Holds d) {path : String} {t : Token} :
    d.get? path = some t ↔ t ∈ d.tokens ∧ t.dottedPath = path := by
  constructor
  · exact Dictionary.mem_of_get?
  · rintro ⟨ht, rfl⟩
    obtain ⟨raw, hraw, htoken⟩ := h.eq_resolvedToken ht
    rw [h.get?_eq, hraw, Option.map_some, ← htoken]

/-- Tokens of several files can be collected exactly if in each of their documents every member that
is reached is an object. A dictionary then lists every dotted path once, in the order in which the
paths are first declared, with the segments, text, file and origin of its last declaration. Looking
up a dotted path gives the token listed under it and no other. -/
theorem resolveFiles_merges (dependencies sources : List Path) (w : Workspace)
    (contents : Path → List (String × Json.Value))
    (hcontents : ∀ p ∈ dependencies ++ sources, w.place.document? p = some (contents p)) :
    let declarations := (dependencies.flatMap fun p => declared p false (contents p)) ++
      sources.flatMap fun p => declared p true (contents p)
    ((∃ tokens, exec (loadTokens false [] dependencies >>= fun tokens =>
        loadTokens true tokens sources) w = (.ok tokens, w)) ↔
      ∀ p ∈ dependencies ++ sources, ∀ path v, Reached [] (contents p) path v →
        v.isObject = true) ∧
    ∀ d, exec (resolveFiles dependencies sources) w = (.ok d, w) →
      d.tokens.map Token.dottedPath = (declarations.map RawToken.dottedPath).eraseDups ∧
      (d.tokens.map Token.dottedPath).Nodup ∧
      (∀ t ∈ d.tokens, ∃ raw,
        (declarations.filter fun raw => raw.dottedPath = t.dottedPath).getLast? = some raw ∧
          t.path = raw.path ∧ t.source = raw.value.sourceText ∧ t.file = raw.file ∧
          t.isSource = raw.isSource) ∧
      ∀ path t, d.get? path = some t ↔ t ∈ d.tokens ∧ t.dottedPath = path := by
  intro declarations
  have hok := Place.collected_eq_ok_iff hcontents
  constructor
  · simp only [exec_loadTokens_bind, Prod.mk.injEq, and_true, hok, exists_and_left, exists_eq',
      Tidy]
  · intro d hd
    obtain ⟨tokens, hcollected, hholds⟩ := exists_holds hd
    obtain ⟨-, rfl⟩ := (hok tokens).mp hcollected
    refine ⟨?_, ?_, ?_, fun path t => hholds.get?_iff⟩
    · rw [hholds.map_dottedPath]
      exact keys_merge declarations
    · rw [hholds.map_dottedPath]
      exact hholds.indexed.nodup
    · intro t ht
      obtain ⟨raw, hraw, htoken⟩ := hholds.eq_resolvedToken ht
      refine ⟨raw, (get?_merge t.dottedPath declarations).symm.trans hraw, ?_⟩
      rw [htoken]
      exact ⟨rfl, rfl, rfl, rfl⟩

/-- Two token files. The second one overrides `color.bg`, and with a dot in a name also `a.b`, which
the first one has as a member of `a`. -/
def overrideWorkspace : Workspace :=
  let base := "\x7b\"$schema\": 1, \"color\": \x7b\"bg\": \x7b\"value\": \"#fff\"\x7d, " ++
    "\"fg\": \x7b\"value\": \"#000\", \"note\": 1\x7d\x7d, " ++
    "\"a\": \x7b\"b\": \x7b\"value\": 1\x7d\x7d\x7d"
  let dark := "\x7b\"a.b\": \x7b\"value\": 2\x7d, " ++
    "\"color\": \x7b\"bg\": \x7b\"value\": \"#111\"\x7d\x7d\x7d"
  ⟨⟨⟨[(["base.json"], .file base.toUTF8 0), (["dark.json"], .file dark.toUTF8 0)]⟩, []⟩, 0, 0, []⟩

theorem resolveFiles_merges_override :
    ∃ (contents : Path → List (String × Json.Value)) (d : Dictionary) (t : Token) (raw : RawToken),
      (∀ p ∈ [⟨"base.json"⟩, ⟨"dark.json"⟩],
        overrideWorkspace.place.document? p = some (contents p)) ∧
      exec (resolveFiles [⟨"base.json"⟩] [⟨"dark.json"⟩]) overrideWorkspace =
        (.ok d, overrideWorkspace) ∧
      d.tokens.map Token.dottedPath = ["color.bg", "color.fg", "a.b"] ∧ d.get? "a.b" = some t ∧
      ((declared ⟨"base.json"⟩ false (contents ⟨"base.json"⟩) ++
        declared ⟨"dark.json"⟩ true (contents ⟨"dark.json"⟩)).filter fun raw =>
          raw.dottedPath = "a.b").getLast? = some raw ∧
      t.path = raw.path ∧ t.path = ["a.b"] ∧ t.source = "2" ∧ t.isSource = true := by
  have hsome : ∀ p ∈ [(⟨"base.json"⟩ : Path), ⟨"dark.json"⟩],
      (overrideWorkspace.place.document? p).isSome = true := by
    decide +kernel
  obtain ⟨contents, hcontents⟩ : ∃ contents : Path → List (String × Json.Value),
      ∀ p ∈ [⟨"base.json"⟩, ⟨"dark.json"⟩],
        overrideWorkspace.place.document? p = some (contents p) :=
    ⟨fun p => (overrideWorkspace.place.document? p).getD [],
      fun p hp => (Option.some_get (hsome p hp)).symm.trans (by rw [Option.get_eq_getD])⟩
  have hfound : (overrideWorkspace.place.dictionary [⟨"base.json"⟩] [⟨"dark.json"⟩]).toOption.map
      (fun d => (d.tokens.map Token.dottedPath,
        (d.get? "a.b").map fun t => (t.path, t.source, t.isSource))) =
      some (["color.bg", "color.fg", "a.b"], some (["a.b"], "2", true)) := by
    decide +kernel
  cases hdictionary : overrideWorkspace.place.dictionary [⟨"base.json"⟩] [⟨"dark.json"⟩] with
  | error e => exact absurd (hdictionary ▸ hfound) nofun
  | ok d =>
      rw [hdictionary] at hfound
      obtain ⟨hpaths, hvalues⟩ := Prod.mk.inj (Option.some.inj hfound)
      obtain ⟨t, ht, hshown⟩ := Option.map_eq_some_iff.mp hvalues
      obtain ⟨hpath, hsource, hflag⟩ : t.path = ["a.b"] ∧ t.source = "2" ∧ t.isSource = true := by
        simpa using hshown
      have hd : exec (resolveFiles [⟨"base.json"⟩] [⟨"dark.json"⟩]) overrideWorkspace =
          (.ok d, overrideWorkspace) := by
        rw [exec_resolveFiles, hdictionary]
      obtain ⟨-, -, hlast, hget⟩ := (resolveFiles_merges [⟨"base.json"⟩] [⟨"dark.json"⟩]
        overrideWorkspace contents hcontents).2 d hd
      obtain ⟨hmem, hdotted⟩ := (hget "a.b" t).mp ht
      obtain ⟨raw, hraw, hraw_path, -⟩ := hlast t hmem
      rw [hdotted, List.flatMap_singleton, List.flatMap_singleton] at hraw
      exact ⟨contents, d, t, raw, hcontents, hd, hpaths, ht, hraw, hraw_path, hpath, hsource, hflag⟩

end RawTokens

end DesignTokens
