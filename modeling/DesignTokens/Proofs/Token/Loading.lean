import DesignTokens.Proofs.Token.Resolution
import DesignTokens.Proofs.Workspace.Execution

/-!
The dictionary of a layer as a function of the texts of its files. Loading writes nothing, and the
collected tokens are listed under their own dotted paths, each once.
-/

namespace DesignTokens

/-- The tokens of one document. -/
def documentTokens (p : Path) (text : String) :
    Except TokenError (List (List String × Json.Value)) :=
  match Json.parse text with
  | .error e => .error (.json p e)
  | .ok document =>
    match leaves document with
    | .error e => .error (.document p e)
    | .ok found => .ok found

namespace Place

/-- Adds the tokens of files to tokens. -/
def loaded (w : Place) (isSource : Bool) : RawTokens → List Path → Except TokenError RawTokens
  | tokens, [] => .ok tokens
  | tokens, p :: rest =>
    match w.readText p with
    | .error e => .error (.file p e)
    | .ok text =>
      match documentTokens p text with
      | .error e => .error e
      | .ok found => w.loaded isSource (tokens.add p isSource found) rest

/-- The tokens of a layer before their references are followed. -/
def collected (w : Place) (dependencies sources : List Path) : Except TokenError RawTokens :=
  match w.loaded false [] dependencies with
  | .error e => .error e
  | .ok tokens => w.loaded true tokens sources

/-- The dictionary of a layer. -/
def dictionary (w : Place) (dependencies sources : List Path) : Except TokenError Dictionary :=
  match w.collected dependencies sources with
  | .error e => .error e
  | .ok tokens => tokens.resolve.mapError .reference

theorem loaded_congr {w v : Place} {isSource : Bool} {tokens : RawTokens} {paths : List Path}
    (h : ∀ p ∈ paths, w.readText p = v.readText p) :
    w.loaded isSource tokens paths = v.loaded isSource tokens paths := by
  induction paths generalizing tokens with
  | nil => rfl
  | cons p rest ih =>
      obtain ⟨hp, hrest⟩ := List.forall_mem_cons.mp h
      rw [loaded, loaded, hp]
      split
      · rfl
      · split
        · rfl
        · exact ih hrest

theorem collected_congr {w v : Place} {dependencies sources : List Path}
    (h : ∀ p ∈ dependencies ++ sources, w.readText p = v.readText p) :
    w.collected dependencies sources = v.collected dependencies sources := by
  rw [collected, collected, loaded_congr fun p hp => h p (List.mem_append_left _ hp)]
  split
  · rfl
  · exact loaded_congr fun p hp => h p (List.mem_append_right _ hp)

/-- A dictionary depends on nothing but the texts of its files. -/
theorem dictionary_congr {w v : Place} {dependencies sources : List Path}
    (h : ∀ p ∈ dependencies ++ sources, w.readText p = v.readText p) :
    w.dictionary dependencies sources = v.dictionary dependencies sources := by
  rw [dictionary, dictionary, collected_congr h]

theorem loaded_of_reads {w v : Place} {isSource : Bool} {tokens found : RawTokens}
    {paths : List Path}
    (h : ∀ p ∈ paths, ∀ text, w.readText p = .ok text → v.readText p = .ok text)
    (hw : w.loaded isSource tokens paths = .ok found) :
    v.loaded isSource tokens paths = .ok found := by
  induction paths generalizing tokens with
  | nil => exact hw
  | cons p rest ih =>
      obtain ⟨hp, hrest⟩ := List.forall_mem_cons.mp h
      rw [loaded] at hw ⊢
      split at hw
      · exact absurd hw nofun
      · rename_i text htext
        rw [hp text htext]
        dsimp only
        split at hw
        · exact absurd hw nofun
        · exact ih hrest hw

/-- A dictionary stays the same where all texts that it was made of can be read as well. -/
theorem dictionary_of_reads {w v : Place} {dependencies sources : List Path} {d : Dictionary}
    (h : ∀ p ∈ dependencies ++ sources, ∀ text, w.readText p = .ok text → v.readText p = .ok text)
    (hw : w.dictionary dependencies sources = .ok d) :
    v.dictionary dependencies sources = .ok d := by
  have hcollected : ∀ found, w.collected dependencies sources = .ok found →
      v.collected dependencies sources = .ok found := by
    intro found hfound
    rw [collected] at hfound ⊢
    split at hfound
    · exact absurd hfound nofun
    · rename_i tokens htokens
      rw [loaded_of_reads (fun p hp => h p (List.mem_append_left _ hp)) htokens]
      exact loaded_of_reads (fun p hp => h p (List.mem_append_right _ hp)) hfound
  rw [dictionary] at hw ⊢
  split at hw
  · exact absurd hw nofun
  · rename_i found hfound
    rw [hcollected found hfound]
    exact hw

end Place

open Job

theorem mapError_eq_ok {ε ε' α : Type} {f : ε → ε'} {x : Except ε α} {a : α} :
    x.mapError f = .ok a ↔ x = .ok a := by
  cases x with
  | error e => exact ⟨nofun, nofun⟩
  | ok b => exact ⟨fun h => congrArg _ (Except.ok.inj h), fun h => congrArg _ (Except.ok.inj h)⟩

theorem toOption_eq_some_iff {ε α : Type} {x : Except ε α} {a : α} :
    x.toOption = some a ↔ x = .ok a := by
  cases x with
  | error e => exact ⟨nofun, nofun⟩
  | ok b => exact ⟨fun h => congrArg _ (Option.some.inj h), fun h => congrArg _ (Except.ok.inj h)⟩

theorem exec_loadTokens (isSource : Bool) (tokens : RawTokens) (paths : List Path)
    (w : Workspace) :
    exec (loadTokens isSource tokens paths) w = (w.place.loaded isSource tokens paths, w) := by
  induction paths generalizing tokens with
  | nil => rfl
  | cons p rest ih =>
      rw [loadTokens, exec_bind, exec_query, Place.loaded]
      cases w.place.readText p with
      | error e => rfl
      | ok text =>
          simp only [documentTokens]
          change exec (match Json.parse text with
            | .error e => throw (.json p e)
            | .ok document =>
              match leaves document with
              | .error e => throw (.document p e)
              | .ok found => loadTokens isSource (tokens.add p isSource found) rest) w = _
          cases Json.parse text with
          | error e => rfl
          | ok document =>
              change exec (match leaves document with
                | .error e => throw (.document p e)
                | .ok found => loadTokens isSource (tokens.add p isSource found) rest) w = _
              cases hleaves : leaves document with
              | error e => simp only [hleaves]; rfl
              | ok found => simp only [hleaves]; exact ih _

/-- Resolving files reads their texts and changes nothing. -/
theorem exec_resolveFiles (dependencies sources : List Path) (w : Workspace) :
    exec (resolveFiles dependencies sources) w = (w.place.dictionary dependencies sources, w) := by
  rw [resolveFiles, exec_bind, exec_loadTokens, Place.dictionary, Place.collected]
  cases w.place.loaded false [] dependencies with
  | error e => rfl
  | ok tokens =>
      simp only [exec_bind, exec_loadTokens]
      cases w.place.loaded true tokens sources with
      | error e => rfl
      | ok tokens =>
          dsimp only
          cases tokens.resolve <;> rfl

/-- Files that can be collected and resolved have a dictionary, of which a test finds what it finds. -/
theorem exists_of_resolved {dependencies sources : List Path} {w : Workspace} {α : Type}
    {test : RawTokens → Dictionary → α} {found : α}
    (h : (w.place.collected dependencies sources).toOption.bind
      (fun tokens => tokens.resolve.toOption.map (test tokens)) = some found) :
    ∃ tokens d, w.place.collected dependencies sources = .ok tokens ∧
      exec (resolveFiles dependencies sources) w = (.ok d, w) ∧ test tokens d = found := by
  obtain ⟨tokens, hcollected, h⟩ := Option.bind_eq_some_iff.mp h
  obtain ⟨d, hd, hfound⟩ := Option.map_eq_some_iff.mp h
  rw [toOption_eq_some_iff] at hcollected hd
  refine ⟨tokens, d, hcollected, ?_, hfound⟩
  rw [exec_resolveFiles, Place.dictionary, hcollected]
  dsimp only
  rw [hd]
  rfl

namespace RawTokens

/-- Tokens are listed once each, under their dotted paths. -/
structure Indexed (tokens : RawTokens) : Prop where
  nodup : (Keyed.keys tokens).Nodup
  key_eq : ∀ entry ∈ tokens, entry.1 = dotted entry.2.path

theorem Indexed.nil : Indexed [] :=
  ⟨List.nodup_nil, by simp⟩

theorem mem_put {tokens : RawTokens} {key : String} {raw : RawToken} {entry : String × RawToken}
    (h : entry ∈ Keyed.put key raw tokens) : entry = (key, raw) ∨ entry ∈ tokens := by
  induction tokens with
  | nil => exact .inl (List.mem_singleton.mp h)
  | cons first rest ih =>
      obtain ⟨k, r⟩ := first
      rw [Keyed.put] at h
      split at h
      · rcases List.mem_cons.mp h with h | h
        · exact .inl h
        · exact .inr (List.mem_cons_of_mem _ h)
      · rcases List.mem_cons.mp h with h | h
        · exact .inr (h ▸ List.mem_cons_self)
        · exact (ih h).imp_right (List.mem_cons_of_mem _)

theorem Indexed.add {tokens : RawTokens} (h : tokens.Indexed) (file : Path) (isSource : Bool)
    (found : List (List String × Json.Value)) : (tokens.add file isSource found).Indexed := by
  induction found generalizing tokens with
  | nil => exact h
  | cons leaf rest ih =>
      refine ih ⟨Keyed.nodup_keys_put h.nodup, ?_⟩
      intro entry hentry
      rcases mem_put hentry with rfl | hentry
      · rfl
      · exact h.key_eq entry hentry

theorem Indexed.loaded {w : Place} {isSource : Bool} {tokens out : RawTokens} {paths : List Path}
    (h : tokens.Indexed) (hout : w.loaded isSource tokens paths = .ok out) : out.Indexed := by
  induction paths generalizing tokens with
  | nil => exact Except.ok.inj hout ▸ h
  | cons p rest ih =>
      rw [Place.loaded] at hout
      split at hout
      · exact absurd hout (by simp)
      · split at hout
        · exact absurd hout (by simp)
        · exact ih (h.add p isSource _) hout

theorem indexed_of_collected {w : Place} {dependencies sources : List Path} {tokens : RawTokens}
    (h : w.collected dependencies sources = .ok tokens) : tokens.Indexed := by
  rw [Place.collected] at h
  split at h
  · exact absurd h (by simp)
  · rename_i before hbefore
    exact (Indexed.nil.loaded hbefore).loaded h

/-- What holds of the tokens in the documents of files holds of the collected ones. -/
theorem forall_of_loaded {w : Place} {isSource : Bool} {tokens out : RawTokens}
    {paths : List Path} {P : RawToken → Prop}
    (hP : ∀ p ∈ paths, ∀ text found, w.readText p = .ok text → documentTokens p text = .ok found →
      ∀ leaf ∈ found, P ⟨leaf.1, leaf.2, p, isSource⟩)
    (htokens : ∀ entry ∈ tokens, P entry.2) (hout : w.loaded isSource tokens paths = .ok out) :
    ∀ entry ∈ out, P entry.2 := by
  induction paths generalizing tokens with
  | nil => exact Except.ok.inj hout ▸ htokens
  | cons p rest ih =>
      obtain ⟨hp, hrest⟩ := List.forall_mem_cons.mp hP
      rw [Place.loaded] at hout
      split at hout
      · exact absurd hout nofun
      · rename_i text htext
        split at hout
        · exact absurd hout nofun
        · rename_i found hfound
          refine ih hrest ?_ hout
          have hleaves := hp text found htext hfound
          clear hout htext hfound hp
          induction found generalizing tokens with
          | nil => exact htokens
          | cons leaf more ihmore =>
              obtain ⟨hleaf, hmore⟩ := List.forall_mem_cons.mp hleaves
              refine ihmore ?_ hmore
              intro entry hentry
              rcases mem_put hentry with rfl | hentry
              · exact hleaf
              · exact htokens entry hentry

theorem forall_of_dictionary {w : Place} {dependencies sources : List Path} {d : Dictionary}
    {P : RawToken → Prop} (hd : w.dictionary dependencies sources = .ok d)
    (hbefore : ∀ p ∈ dependencies, ∀ text found, w.readText p = .ok text →
      documentTokens p text = .ok found → ∀ leaf ∈ found, P ⟨leaf.1, leaf.2, p, false⟩)
    (hafter : ∀ p ∈ sources, ∀ text found, w.readText p = .ok text →
      documentTokens p text = .ok found → ∀ leaf ∈ found, P ⟨leaf.1, leaf.2, p, true⟩) :
    ∀ t ∈ d.tokens, ∃ raw, P raw ∧ raw.path = t.path ∧ raw.isSource = t.isSource := by
  rw [Place.dictionary, Place.collected] at hd
  split at hd
  · exact absurd hd nofun
  · rename_i tokens htokens
    split at htokens
    · exact absurd htokens nofun
    · rename_i before hloaded
      have hall := forall_of_loaded hafter
        (forall_of_loaded hbefore (fun _ h => absurd h List.not_mem_nil) hloaded) htokens
      obtain ⟨memo, hrun⟩ := resolve_eq_ok.mp (mapError_eq_ok.mp hd)
      rw [(resolveEach_faithful goodMemo_nil hrun).1]
      intro t ht
      obtain ⟨entry, hentry, rfl⟩ := List.mem_map.mp ht
      exact ⟨entry.2, hall entry hentry, rfl, rfl⟩

/-- What holds of the paths in the documents of files holds of the paths of their tokens. -/
theorem paths_of_dictionary {w : Place} {dependencies sources : List Path} {d : Dictionary}
    {P : List String → Prop} (hd : w.dictionary dependencies sources = .ok d)
    (hP : ∀ p ∈ dependencies ++ sources, ∀ text found, w.readText p = .ok text →
      documentTokens p text = .ok found → ∀ leaf ∈ found, P leaf.1) :
    ∀ t ∈ d.tokens, P t.path := by
  obtain ⟨hbefore, hafter⟩ := List.forall_mem_append.mp hP
  intro t ht
  obtain ⟨raw, hraw, hpath, -⟩ :=
    forall_of_dictionary (P := fun raw => P raw.path) hd hbefore hafter t ht
  exact hpath ▸ hraw

/-- The tokens that a layer exports stem from its own files. -/
theorem paths_of_sources {w : Place} {dependencies sources : List Path} {d : Dictionary}
    {P : List String → Prop} (hd : w.dictionary dependencies sources = .ok d)
    (hP : ∀ p ∈ sources, ∀ text found, w.readText p = .ok text →
      documentTokens p text = .ok found → ∀ leaf ∈ found, P leaf.1) :
    ∀ t ∈ d.sources, P t.path := by
  intro t ht
  obtain ⟨hmem, hsource⟩ := List.mem_filter.mp ht
  obtain ⟨raw, hraw, hpath, hflag⟩ := forall_of_dictionary
    (P := fun raw => raw.isSource = true → P raw.path) hd
    (fun _ _ _ _ _ _ _ _ h => absurd h nofun)
    (fun p hp text found htext hfound leaf hleaf _ => hP p hp text found htext hfound leaf hleaf)
    t hmem
  exact hpath ▸ hraw (hflag.trans hsource)

end RawTokens

end DesignTokens
