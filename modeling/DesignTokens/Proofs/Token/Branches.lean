import DesignTokens.Proofs.Token.Tree

/-!
A tree of tokens, key by key. What it holds under a key grows from the entries below that key alone, in
the order in which they come. So the tree of one category is the group that the tree of all tokens
holds under the category, with its keys in the same order.
-/

namespace DesignTokens.TokenTree

/-- A leaf and the path of keys under which it is stored. -/
abbrev Entry := List String × Json.Value

/-- An entry as it is seen from inside the group under a key. -/
def Entry.under? (key : String) : Entry → Option Entry
  | ([], _) => none
  | (first :: rest, leaf) => if first = key then some (rest, leaf) else none

/-- The entries under a key, in their order. -/
def under (key : String) (entries : List Entry) : List Entry :=
  entries.filterMap (Entry.under? key)

/-- Whether some path of these entries goes on. -/
def Forks (entries : List Entry) : Prop :=
  ∃ e ∈ entries, e.1 ≠ []

/-- The members that grow from storing leaves one after the other. -/
def grown (entries : List Entry) : Members :=
  entries.foldl (fun members e => plant e.2 e.1 members) []

/-- No leaf that is an object is followed by a leaf at its place or behind it. -/
def Unmixed (entries : List Entry) : Prop :=
  entries.Pairwise fun e later => e.1 ≠ [] → e.2.isObject → ¬ e.1 <+: later.1

instance (entries : List Entry) : Decidable (Forks entries) :=
  inferInstanceAs (Decidable (∃ _ ∈ _, _))

variable {key first : String} {rest : List String} {leaf : Json.Value} {members : Members}
  {entries : List Entry} {e : Entry}

theorem grown_concat (entries : List Entry) (e : Entry) :
    grown (entries ++ [e]) = plant e.2 e.1 (grown entries) :=
  List.foldl_concat _ _ _ _

theorem under?_eq_some_iff : e.under? key = some (rest, leaf) ↔ e = (key :: rest, leaf) := by
  obtain ⟨_ | ⟨first, deeper⟩, v⟩ := e
  · simp [Entry.under?]
  · by_cases hfirst : first = key
    · simp [Entry.under?, hfirst]
    · simp [Entry.under?, hfirst]

theorem mem_under_iff : (rest, leaf) ∈ under key entries ↔ (key :: rest, leaf) ∈ entries := by
  simp [under, List.mem_filterMap, under?_eq_some_iff]

theorem under_concat (entries : List Entry) (e : Entry) :
    under key (entries ++ [e]) = under key entries ++ (e.under? key).toList := by
  rw [under, under, List.filterMap_append]
  cases h : e.under? key <;> simp [h]

theorem forks_concat : Forks (entries ++ [e]) ↔ Forks entries ∨ e.1 ≠ [] := by
  simp [Forks, or_and_right, exists_or]

theorem grown_of_not_forks (h : ¬ Forks entries) : grown entries = [] := by
  induction entries using List.reverseRecOn with
  | nil => rfl
  | append_singleton entries e ih =>
      rw [forks_concat, not_or, not_not] at h
      rw [grown_concat, h.2, ih h.1]
      rfl

theorem Unmixed.under (h : Unmixed entries) (key : String) : Unmixed (under key entries) := by
  refine List.Pairwise.filterMap _ (fun e later hmix inner he deeper hlater => ?_) h
  rw [under?_eq_some_iff.mp he, under?_eq_some_iff.mp hlater] at hmix
  intro _ hobject hstart
  exact hmix (List.cons_ne_nil _ _) hobject (List.cons_prefix_cons.mpr ⟨rfl, hstart⟩)

theorem unmixed_of_not_isObject (h : ∀ e ∈ entries, e.2.isObject = false) : Unmixed entries :=
  List.pairwise_of_forall_mem_list fun e he _ _ _ hobject => by
    rw [h e he] at hobject
    cases hobject

theorem get?_plant_of_ne (hne : key ≠ first) :
    Keyed.get? key (plant leaf (first :: rest) members) = Keyed.get? key members := by
  cases rest with
  | nil =>
      rw [plant]
      split
      · rfl
      · rw [Keyed.get?_put, if_neg hne]
  | cons next rest => rw [plant_cons_cons, Keyed.get?_put, if_neg hne]

/-- A leaf at a key leaves a group there as it is. -/
theorem get?_plant_last :
    Keyed.get? key (plant leaf [key] members) = some ((group? key members).elim leaf .object) := by
  rw [plant]
  cases hgroup : group? key members with
  | some inner => exact get?_of_group? hgroup
  | none => rw [Keyed.get?_put, if_pos rfl, Option.elim_none]

theorem get?_plant_of_ne_nil (hrest : rest ≠ []) :
    Keyed.get? key (plant leaf (key :: rest) members) =
      some (.object (plant leaf rest ((group? key members).getD []))) := by
  obtain ⟨next, deeper, rfl⟩ := List.exists_cons_of_ne_nil hrest
  rw [plant_cons_cons, Keyed.get?_put, if_pos rfl]

theorem group?_eq_some_iff {inner : Members} :
    group? key members = some inner ↔ Keyed.get? key members = some (.object inner) :=
  ⟨get?_of_group?, fun h => by rw [group?, h]⟩

/-- Leaves under a key are no objects if another one is stored there or behind it later. -/
theorem Unmixed.not_isObject_of_concat (h : Unmixed (entries ++ [(key :: rest, leaf)]))
    (hforks : ¬ Forks (TokenTree.under key entries)) {v : Json.Value}
    (hlast : (TokenTree.under key entries).getLast?.map Prod.snd = some v) : v.isObject = false := by
  obtain ⟨⟨path, _⟩, he, rfl⟩ := Option.map_eq_some_iff.mp hlast
  have hmem := List.mem_of_getLast? he
  obtain rfl : path = [] := not_not.mp fun hpath => hforks ⟨_, hmem, hpath⟩
  have hmix := (List.pairwise_append.mp h).2.2 _ (mem_under_iff.mp hmem) _ (List.mem_singleton_self _)
  exact Bool.eq_false_iff.mpr fun hobject =>
    hmix (List.cons_ne_nil _ _) hobject (List.prefix_append [key] rest)

/-- What members that grow from some entries hold under a key, told from the entries under it: a group
that grows from them if the path of one goes on, else the leaf of the last one. -/
def branch (inner : List Entry) : Option Json.Value :=
  if Forks inner then some (.object (grown inner)) else inner.getLast?.map Prod.snd

/-- The group that a further entry under the key meets. -/
theorem group?_of_branch (h : Unmixed (entries ++ [(key :: rest, leaf)]))
    (hbranch : Keyed.get? key members = branch (under key entries)) :
    group? key members =
      if Forks (under key entries) then some (grown (under key entries)) else none := by
  by_cases hforks : Forks (under key entries)
  · rw [if_pos hforks, group?_eq_some_iff, hbranch, branch, if_pos hforks]
  · rw [if_neg hforks, Option.eq_none_iff_forall_ne_some]
    intro inner hinner
    rw [group?_eq_some_iff, hbranch, branch, if_neg hforks] at hinner
    cases h.not_isObject_of_concat hforks hinner

theorem get?_grown (h : Unmixed entries) (key : String) :
    Keyed.get? key (grown entries) = branch (under key entries) := by
  induction entries using List.reverseRecOn with
  | nil => rfl
  | append_singleton entries e ih =>
      have hbefore := ih (List.pairwise_append.mp h).1
      rw [grown_concat, under_concat]
      cases he : e.under? key with
      | none =>
          rw [Option.toList_none, List.append_nil, ← hbefore]
          obtain ⟨_ | ⟨first, rest⟩, leaf⟩ := e
          · rfl
          · refine get?_plant_of_ne fun hkey => ?_
            rw [Entry.under?, if_pos hkey.symm] at he
            cases he
      | some inner =>
          obtain ⟨rest, leaf⟩ := inner
          obtain rfl := under?_eq_some_iff.mp he
          have hgroup := group?_of_branch h hbefore
          simp only [Option.toList_some, branch, forks_concat, List.getLast?_concat, grown_concat]
          by_cases hrest : rest = []
          · subst hrest
            rw [get?_plant_last, hgroup]
            by_cases hforks : Forks (under key entries)
            · rw [if_pos hforks, if_pos (.inl hforks)]
              rfl
            · rw [if_neg hforks, if_neg (not_or.mpr ⟨hforks, fun hne => hne rfl⟩)]
              rfl
          · have hinner : (group? key (grown entries)).getD [] = grown (under key entries) := by
              rw [hgroup]
              split
              · rfl
              · rename_i hforks
                exact (grown_of_not_forks hforks).symm
            rw [get?_plant_of_ne_nil hrest, hinner, if_pos (.inr hrest)]

section Build

variable {category : Option String} {leafOf : Token → Json.Value} {tokens : List Token}

/-- What is stored for a token that is kept. -/
def stored? (category : Option String) (leafOf : Token → Json.Value) (t : Token) : Option Entry :=
  (keyPath? category t).map fun path => (path, leafOf t)

/-- What is stored for the tokens, in their order. -/
def entriesOf (category : Option String) (leafOf : Token → Json.Value) (tokens : List Token) :
    List Entry :=
  tokens.filterMap (stored? category leafOf)

theorem build_eq_grown :
    build tokens category leafOf = .object (grown (entriesOf category leafOf tokens)) := by
  rw [build, grown, entriesOf, List.foldl_filterMap]
  congr 2
  funext members t
  rw [addToken, stored?]
  cases keyPath? category t <;> rfl

/-- Of the entries of all tokens, those under a category are the entries of that category. -/
theorem under_entriesOf (hpaths : ∀ t ∈ tokens, t.path ≠ []) (c : String) :
    under c (entriesOf none leafOf tokens) = entriesOf (some c) leafOf tokens := by
  rw [under, entriesOf, entriesOf, List.filterMap_filterMap]
  refine List.filterMap_congr fun t ht => ?_
  obtain ⟨first, rest, hpath⟩ := List.exists_cons_of_ne_nil (hpaths t ht)
  simp only [stored?, keyPath?, Token.category, hpath, List.headD_cons, List.drop_one, List.tail_cons,
    Option.map_some, Option.bind_some, Entry.under?]
  split <;> rfl

/-- The tree of one category is what the tree of all tokens holds under the category, if some path of
the category goes on behind it. -/
theorem build_category (hpaths : ∀ t ∈ tokens, t.path ≠ [])
    (hleaf : ∀ t ∈ tokens, (leafOf t).isObject = false) {c : String}
    (hc : ∃ t ∈ tokens, t.category = c ∧ 2 ≤ t.path.length) :
    (build tokens none leafOf).at? [c] = some (build tokens (some c) leafOf) := by
  have hunmixed : Unmixed (entriesOf none leafOf tokens) := by
    refine unmixed_of_not_isObject fun e he => ?_
    obtain ⟨t, ht, hentry⟩ := List.mem_filterMap.mp he
    rw [← Option.some.inj hentry]
    exact hleaf t ht
  have hforks : Forks (under c (entriesOf none leafOf tokens)) := by
    obtain ⟨t, ht, rfl, hlength⟩ := hc
    obtain ⟨first, rest, hpath⟩ := List.exists_cons_of_ne_nil (hpaths t ht)
    refine ⟨(rest, leafOf t), mem_under_iff.mpr (List.mem_filterMap.mpr ⟨t, ht, ?_⟩), ?_⟩
    · rw [stored?, keyPath?, Token.category, hpath]
      rfl
    · rintro rfl
      rw [hpath] at hlength
      exact absurd hlength (Nat.lt_irrefl 1)
  rw [build_eq_grown, build_eq_grown, ← under_entriesOf hpaths, Json.Value.at?,
    get?_grown hunmixed, branch, if_pos hforks]
  rfl

/-- Tokens of which the first names a category only, and another one stands where a path goes on. -/
def inkTokens : List Token :=
  [⟨["color"], .string "red", "red", ⟨"a.json"⟩, true⟩,
    ⟨["color", "ink"], .string "#000", "#000", ⟨"a.json"⟩, true⟩,
    ⟨["space", "sm"], .string "4px", "4px", ⟨"a.json"⟩, true⟩,
    ⟨["color", "paper"], .string "#fff", "#fff", ⟨"a.json"⟩, true⟩,
    ⟨["color", "ink", "faint"], .string "#333", "#333", ⟨"b.json"⟩, true⟩]

/-- The group that takes the place of a token keeps its position in both trees. -/
theorem build_category_ink :
    (∀ t ∈ inkTokens, t.path ≠ []) ∧
      (∀ t ∈ inkTokens, (LeafStyle.literal.leaf "sando" t).isObject = false) ∧
      (build inkTokens (some "color") (LeafStyle.literal.leaf "sando")) =
        .object [("ink", .object [("faint", .string "#333")]), ("paper", .string "#fff")] ∧
      (build inkTokens none (LeafStyle.literal.leaf "sando")).at? ["color"] =
        some (build inkTokens (some "color") (LeafStyle.literal.leaf "sando")) := by
  have hpaths : ∀ t ∈ inkTokens, t.path ≠ [] := by decide
  have hleaf : ∀ t ∈ inkTokens, (LeafStyle.literal.leaf "sando" t).isObject = false := by decide
  have hcolor : ∃ t ∈ inkTokens, t.category = "color" ∧ 2 ≤ t.path.length := by decide
  exact ⟨hpaths, hleaf, rfl, build_category hpaths hleaf hcolor⟩

end Build

end DesignTokens.TokenTree
