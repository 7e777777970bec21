import DesignTokens.Token.Tree
import DesignTokens.Proofs.Workspace.Tree

/-!
What a tree of tokens holds at a path of keys. A path that goes on somewhere is a group, whatever was
stored there before or comes after it; any other path at which tokens are stored holds the leaf of the
last of them.
-/

namespace DesignTokens

namespace Below

theorem nil_iff {m : List String} : Below [] m ↔ m ≠ [] :=
  and_iff_right List.nil_prefix

theorem cons_iff {a b : String} {l m : List String} :
    Below (a :: l) (b :: m) ↔ a = b ∧ Below l m := by
  rw [Below, Below, List.cons_prefix_cons, Ne, List.cons.injEq]
  constructor
  · rintro ⟨⟨rfl, hinit⟩, hne⟩
    exact ⟨rfl, hinit, fun heq => hne ⟨rfl, heq⟩⟩
  · rintro ⟨rfl, hinit, hne⟩
    exact ⟨⟨rfl, hinit⟩, fun heq => hne heq.2⟩

end Below

namespace Json.Value

/-- What is found in a value along a path of keys. -/
def at? : List String → Json.Value → Option Json.Value
  | [], v => some v
  | key :: rest, object members => (Keyed.get? key members).bind (at? rest)
  | _ :: _, _ => none

/-- A value that is not divided further; none for an object. -/
def leaf? : Json.Value → Option Json.Value
  | object _ => none
  | v => some v

variable {v : Json.Value}

theorem leaf?_eq_none_iff : v.leaf? = none ↔ ∃ members, v = .object members := by
  cases v <;> simp [leaf?]

theorem leaf?_of_not_isObject (h : v.isObject = false) : v.leaf? = some v := by
  cases v with
  | object members => cases h
  | null | boolean _ | number _ | string _ | array _ => rfl

theorem leaf?_eq_some_iff {u : Json.Value} (h : v.isObject = false) : u.leaf? = some v ↔ u = v := by
  constructor
  · intro hleaf
    cases u with
    | object members => cases hleaf
    | null | boolean _ | number _ | string _ | array _ => exact Option.some.inj hleaf
  · rintro rfl
    exact leaf?_of_not_isObject h

theorem at?_of_not_isObject (h : v.isObject = false) {path : List String} (hpath : path ≠ []) :
    v.at? path = none := by
  obtain ⟨key, rest, rfl⟩ := List.exists_cons_of_ne_nil hpath
  cases v with
  | object members => cases h
  | null | boolean _ | number _ | string _ | array _ => rfl

end Json.Value

namespace TokenTree

open Json.Value

variable {leaf : Json.Value} {path query : List String} {members : Members}

/-- What members hold at a path: nothing, a group or a leaf. -/
def standing (query : List String) (members : Members) : Option (Option Json.Value) :=
  ((Json.Value.object members).at? query).map leaf?

theorem standing_eq_leaf_iff {v : Json.Value} (h : v.isObject = false) :
    standing query members = some (some v) ↔ (Json.Value.object members).at? query = some v := by
  simp [standing, Option.map_eq_some_iff, leaf?_eq_some_iff h]

theorem standing_eq_group_iff :
    standing query members = some none ↔
      ∃ inner, (Json.Value.object members).at? query = some (.object inner) := by
  simp only [standing, Option.map_eq_some_iff, leaf?_eq_none_iff]
  constructor
  · rintro ⟨_, hfound, inner, rfl⟩
    exact ⟨inner, hfound⟩
  · rintro ⟨inner, hfound⟩
    exact ⟨_, hfound, inner, rfl⟩

theorem standing_cons (key : String) (rest : List String) (members : Members) :
    standing (key :: rest) members =
      (Keyed.get? key members).bind fun v => (v.at? rest).map leaf? := by
  rw [standing, at?, Option.map_bind]
  rfl

theorem standing_put (key other : String) (rest : List String) (v : Json.Value)
    (members : Members) :
    standing (other :: rest) (Keyed.put key v members) =
      if other = key then (v.at? rest).map leaf? else standing (other :: rest) members := by
  rw [standing_cons, Keyed.get?_put]
  split
  · rfl
  · rw [standing_cons]

/-- Below a key that holds no group there is nothing. -/
theorem standing_group?_getD {key : String} (hquery : query ≠ []) :
    standing query ((group? key members).getD []) = standing (key :: query) members := by
  obtain ⟨next, rest, rfl⟩ := List.exists_cons_of_ne_nil hquery
  rw [standing_cons key, group?]
  rcases Keyed.get? key members with _ | ⟨_ | _ | _ | _ | _ | _⟩ <;> rfl

/-- What stands at a path after a leaf was stored there: a group stays. -/
def replaced (leaf : Json.Value) : Option (Option Json.Value) → Option (Option Json.Value)
  | some none => some none
  | _ => some (some leaf)

theorem get?_of_group? {key : String} {inner : Members} (h : group? key members = some inner) :
    Keyed.get? key members = some (.object inner) := by
  rw [group?] at h
  split at h
  · rename_i found hfound
    rw [hfound, Option.some.inj h]
  · cases h

theorem standing_of_group? {key : String} {inner : Members} (h : group? key members = some inner) :
    standing [key] members = some none := by
  rw [standing_cons, get?_of_group? h]
  rfl

theorem replaced_of_group?_eq_none {key : String} (h : group? key members = none) :
    replaced leaf (standing [key] members) = some (some leaf) := by
  rw [group?] at h
  rw [standing_cons]
  split at h
  · cases h
  · rename_i hfree
    rcases hfound : Keyed.get? key members with _ | ⟨_ | _ | _ | _ | _ | inner⟩
    case some.object => exact absurd hfound (hfree inner)
    all_goals rfl

theorem plant_cons_cons (key next : String) (rest : List String) :
    plant leaf (key :: next :: rest) members =
      Keyed.put key (.object (plant leaf (next :: rest) ((group? key members).getD []))) members :=
  rfl

/-- Under another key nothing changes. -/
theorem standing_plant_of_ne {key first : String} {deeper rest : List String} (hne : key ≠ first) :
    standing (key :: deeper) (plant leaf (first :: rest) members) =
      standing (key :: deeper) members := by
  cases rest with
  | nil =>
      rw [plant]
      split
      · rfl
      · rw [standing_put, if_neg hne]
  | cons next rest => rw [plant_cons_cons, standing_put, if_neg hne]

theorem standing_plant_last (hleaf : leaf.isObject = false) (key : String) (deeper : List String) :
    standing (key :: deeper) (plant leaf [key] members) =
      if deeper = [] then replaced leaf (standing [key] members)
      else standing (key :: deeper) members := by
  rw [plant]
  cases hgroup : group? key members with
  | some inner =>
      dsimp only
      split
      · rename_i hdeeper
        rw [hdeeper, standing_of_group? hgroup]
        rfl
      · rfl
  | none =>
      dsimp only
      rw [standing_put, if_pos rfl]
      by_cases hdeeper : deeper = []
      · rw [if_pos hdeeper, hdeeper, replaced_of_group?_eq_none hgroup, at?, Option.map_some,
          leaf?_of_not_isObject hleaf]
      · rw [if_neg hdeeper, at?_of_not_isObject hleaf hdeeper, ← standing_group?_getD hdeeper, hgroup]
        obtain ⟨next, rest, rfl⟩ := List.exists_cons_of_ne_nil hdeeper
        rfl

/-- Storing a leaf makes groups of the paths above it. At its own path it stands, unless a group does;
everywhere else the members hold what they held before. -/
theorem standing_plant (hleaf : leaf.isObject = false) (hpath : path ≠ []) (hquery : query ≠ []) :
    standing query (plant leaf path members) =
      if Below query path then some none
      else if query = path then replaced leaf (standing path members)
      else standing query members := by
  induction path generalizing query members with
  | nil => exact absurd rfl hpath
  | cons first rest ih =>
      obtain ⟨key, deeper, rfl⟩ := List.exists_cons_of_ne_nil hquery
      by_cases hkey : key = first
      · subst hkey
        simp only [Below.cons_iff, true_and, List.cons.injEq]
        cases rest with
        | nil => rw [standing_plant_last hleaf, if_neg Below.not_nil]
        | cons next rest =>
            rw [plant_cons_cons, standing_put, if_pos rfl]
            by_cases hdeeper : deeper = []
            · rw [hdeeper, if_pos (Below.nil_iff.mpr (List.cons_ne_nil next rest))]
              rfl
            · have hinner : standing deeper (plant leaf (next :: rest)
                  ((group? key members).getD [])) = _ := ih (List.cons_ne_nil _ _) hdeeper
              rw [standing_group?_getD hdeeper, standing_group?_getD (List.cons_ne_nil _ _)] at hinner
              exact hinner
      · rw [standing_plant_of_ne hkey, if_neg fun h => hkey (Below.cons_iff.mp h).1,
          if_neg fun h => hkey (List.cons.inj h).1]

section Build

variable {category : Option String} {leafOf : Token → Json.Value} {tokens : List Token}

/-- The key path of a token that is kept; an empty one is dropped. -/
def keptPath? (category : Option String) (t : Token) : Option (List String) :=
  (keyPath? category t).filter (· ≠ [])

/-- The tokens that are kept under a key path, in their order. -/
def storedAt (category : Option String) (tokens : List Token) (path : List String) : List Token :=
  tokens.filter fun t => keptPath? category t = some path

/-- Whether the key path of a token that is kept goes on behind a path. -/
def GoesOn (category : Option String) (tokens : List Token) (path : List String) : Prop :=
  ∃ t ∈ tokens, ∃ longer ∈ keptPath? category t, Below path longer

instance (category : Option String) (tokens : List Token) (path : List String) :
    Decidable (GoesOn category tokens path) :=
  inferInstanceAs (Decidable (∃ _ ∈ _, ∃ _ ∈ _, _))

theorem addToken_eq (leafOf : Token → Json.Value) (members : Members) (t : Token) :
    addToken category leafOf members t =
      ((keptPath? category t).map fun path => plant (leafOf t) path members).getD members := by
  rw [addToken, keptPath?]
  rcases keyPath? category t with _ | _ | ⟨key, rest⟩ <;> rfl

theorem ne_nil_of_keptPath? {t : Token} (h : keptPath? category t = some path) : path ≠ [] := by
  obtain ⟨-, hne⟩ := Option.filter_eq_some_iff.mp h
  exact of_decide_eq_true hne

theorem goesOn_concat {t : Token} :
    GoesOn category (tokens ++ [t]) path ↔
      GoesOn category tokens path ∨ ∃ longer ∈ keptPath? category t, Below path longer := by
  simp [GoesOn, or_and_right, exists_or]

theorem storedAt_concat {t : Token} :
    storedAt category (tokens ++ [t]) path =
      storedAt category tokens path ++ if keptPath? category t = some path then [t] else [] := by
  rw [storedAt, storedAt, List.filter_append, List.filter_singleton]
  simp

/-- What the tree of some tokens holds at a path: a group if a key path goes on there, else the leaf
of the last token that was stored there. -/
theorem standing_foldl (hleaf : ∀ t ∈ tokens, (leafOf t).isObject = false) (hpath : path ≠ []) :
    standing path (tokens.foldl (addToken category leafOf) []) =
      if GoesOn category tokens path then some none
      else (storedAt category tokens path).getLast?.map fun t => some (leafOf t) := by
  induction tokens using List.reverseRecOn with
  | nil =>
      obtain ⟨key, rest, rfl⟩ := List.exists_cons_of_ne_nil hpath
      rfl
  | append_singleton tokens t ih =>
      rw [List.forall_mem_append, List.forall_mem_singleton] at hleaf
      rw [List.foldl_concat, addToken_eq]
      have hbefore := ih hleaf.1
      simp only [goesOn_concat, storedAt_concat]
      cases hkept : keptPath? category t with
      | none => simpa using hbefore
      | some longer =>
          rw [Option.map_some, Option.getD_some,
            standing_plant hleaf.2 (ne_nil_of_keptPath? hkept) hpath]
          have hexists : (∃ found ∈ some longer, Below path found) ↔ Below path longer := by simp
          simp only [hexists, Option.some.injEq]
          by_cases hbelow : Below path longer
          · rw [if_pos hbelow, if_pos (.inr hbelow)]
          · simp only [if_neg hbelow, or_iff_left hbelow]
            by_cases heq : path = longer
            · subst heq
              rw [if_pos rfl, if_pos rfl, hbefore, List.getLast?_concat]
              split
              · rfl
              · cases (storedAt category tokens path).getLast? <;> rfl
            · rw [if_neg heq, if_neg (Ne.symm heq), List.append_nil, hbefore]

/-- No group that is found at some path of these members has a key twice. -/
def Tidy (members : Members) : Prop :=
  ∀ path inner, (Json.Value.object members).at? path = some (.object inner) →
    (Keyed.keys inner).Nodup

theorem tidy_nil : Tidy [] := by
  intro path inner h
  cases path with
  | nil =>
      obtain rfl := Json.Value.object.inj (Option.some.inj h)
      exact List.nodup_nil
  | cons key rest => cases h

theorem Tidy.group?_getD (h : Tidy members) (key : String) :
    Tidy ((group? key members).getD []) := by
  cases hgroup : group? key members with
  | none => exact tidy_nil
  | some inner =>
      intro path deeper hpath
      refine h (key :: path) deeper ?_
      rw [at?, get?_of_group? hgroup]
      exact hpath

theorem Tidy.put (h : Tidy members) {key : String} {v : Json.Value}
    (hv : ∀ path inner, v.at? path = some (.object inner) → (Keyed.keys inner).Nodup) :
    Tidy (Keyed.put key v members) := by
  intro path inner hpath
  cases path with
  | nil =>
      obtain rfl := Json.Value.object.inj (Option.some.inj hpath)
      exact Keyed.nodup_keys_put (h [] members rfl)
  | cons other rest =>
      rw [at?, Keyed.get?_put] at hpath
      split at hpath
      · exact hv rest inner hpath
      · exact h (other :: rest) inner hpath

theorem Tidy.plant (h : Tidy members) (hleaf : leaf.isObject = false) (path : List String) :
    Tidy (plant leaf path members) := by
  induction path generalizing members with
  | nil => exact h
  | cons key rest ih =>
      cases rest with
      | nil =>
          rw [TokenTree.plant]
          split
          · exact h
          · refine h.put fun path inner hpath => ?_
            cases path with
            | nil => exact absurd (Option.some.inj hpath) fun heq => by rw [heq] at hleaf; cases hleaf
            | cons other rest =>
                rw [at?_of_not_isObject hleaf (List.cons_ne_nil _ _)] at hpath
                cases hpath
      | cons next rest =>
          rw [plant_cons_cons]
          exact h.put (ih (h.group?_getD key))

theorem tidy_foldl (hleaf : ∀ t ∈ tokens, (leafOf t).isObject = false) :
    Tidy (tokens.foldl (addToken category leafOf) []) := by
  induction tokens using List.reverseRecOn with
  | nil => exact tidy_nil
  | append_singleton tokens t ih =>
      rw [List.forall_mem_append, List.forall_mem_singleton] at hleaf
      rw [List.foldl_concat, addToken_eq]
      cases keptPath? category t with
      | none => exact ih hleaf.1
      | some path => exact (ih hleaf.1).plant hleaf.2 path

/-- A tree of tokens with leaves that are no objects. A leaf is found at a path exactly if a token is
kept under it and no key path of a kept token goes on behind it, and it is the leaf of the last such
token. A group is found below the root exactly where a key path goes on. No group has a key twice. -/
theorem build_exact (hleaf : ∀ t ∈ tokens, (leafOf t).isObject = false) (path : List String) :
    (∀ v, v.isObject = false →
      ((build tokens category leafOf).at? path = some v ↔
        ¬ GoesOn category tokens path ∧
          (storedAt category tokens path).getLast?.map leafOf = some v)) ∧
      (path ≠ [] → ((∃ members, (build tokens category leafOf).at? path = some (.object members)) ↔
        GoesOn category tokens path)) ∧
      ∀ members, (build tokens category leafOf).at? path = some (.object members) →
        (Keyed.keys members).Nodup := by
  refine ⟨fun v hv => ?_, fun hpath => ?_, tidy_foldl hleaf path⟩
  · rw [build, ← standing_eq_leaf_iff hv]
    by_cases hpath : path = []
    · have hnone : storedAt category tokens [] = [] := by
        rw [storedAt, List.filter_eq_nil_iff]
        intro t _ hstored
        exact ne_nil_of_keptPath? (of_decide_eq_true hstored) rfl
      rw [hpath, hnone]
      exact iff_of_false nofun nofun
    · rw [standing_foldl hleaf hpath]
      split
      · rename_i hgroup
        exact iff_of_false nofun fun h => h.1 hgroup
      · rename_i hgroup
        rw [and_iff_right hgroup]
        cases (storedAt category tokens path).getLast? <;> simp
  · rw [build, ← standing_eq_group_iff, standing_foldl hleaf hpath]
    split
    · rename_i hgroup
      exact iff_of_true rfl hgroup
    · rename_i hgroup
      refine iff_of_false ?_ hgroup
      cases (storedAt category tokens path).getLast? <;> simp

/-- Tokens of which one stands where the paths of others go on, and two stand at one place. -/
def insetTokens : List Token :=
  [⟨["space", "inset"], .string "8px", "8px", ⟨"a.json"⟩, true⟩,
    ⟨["space", "inset", "sm"], .string "4px", "4px", ⟨"a.json"⟩, true⟩,
    ⟨["font", "inset"], .string "serif", "serif", ⟨"a.json"⟩, true⟩,
    ⟨["space", "inset", "sm"], .string "5px", "5px", ⟨"b.json"⟩, true⟩]

/-- The group wins over the token at its place, and of two tokens at one place the last one. -/
theorem build_exact_inset :
    (∀ t ∈ insetTokens, (LeafStyle.literal.leaf "sando" t).isObject = false) ∧
      (build insetTokens (some "space") (LeafStyle.literal.leaf "sando")).at? ["inset", "sm"] =
        some (.string "5px") ∧
      ∃ members, (build insetTokens (some "space") (LeafStyle.literal.leaf "sando")).at? ["inset"] =
        some (.object members) := by
  have hleaf : ∀ t ∈ insetTokens, (LeafStyle.literal.leaf "sando" t).isObject = false := by decide
  refine ⟨hleaf, ?_, ?_⟩
  · exact ((build_exact hleaf ["inset", "sm"]).1 (.string "5px") rfl).mpr ⟨by decide, rfl⟩
  · exact ((build_exact hleaf ["inset"]).2.1 (by decide)).mpr (by decide)

end Build

end TokenTree

end DesignTokens
