import DesignTokens.Proofs.Token.Branches
import Mathlib.Algebra.Order.BigOperators.Group.List
import Mathlib.Algebra.Order.Group.Nat

/-!
Trees of the same tokens in another order. They hold the same under the same keys, whichever of a group
and a token at its place comes first; only the order of the keys differs. A token whose value is an
object is the exception: where it comes before the tokens behind it, its members are taken for the
group's own.
-/

namespace DesignTokens

/-- Equality of values up to the order of the members of objects. -/
inductive Json.Value.UpToOrder : Json.Value → Json.Value → Prop
  | same (v : Json.Value) : UpToOrder v v
  | object {members others : List (String × Json.Value)} (hnodup : (Keyed.keys members).Nodup)
      (hkeys : (Keyed.keys members).Perm (Keyed.keys others))
      (hvalues : ∀ key v w, Keyed.get? key members = some v → Keyed.get? key others = some w →
        UpToOrder v w) :
      UpToOrder (.object members) (.object others)

namespace Json.Value.UpToOrder

variable {members others : List (String × Json.Value)} {v w : Json.Value}

theorem keys_perm (h : UpToOrder (.object members) (.object others)) :
    (Keyed.keys members).Perm (Keyed.keys others) := by
  cases h with
  | same => exact .refl _
  | object _ hkeys _ => exact hkeys

theorem of_get? (h : UpToOrder (.object members) (.object others)) {key : String}
    (hv : Keyed.get? key members = some v) (hw : Keyed.get? key others = some w) :
    UpToOrder v w := by
  cases h with
  | same => exact Option.some.inj (hv.symm.trans hw) ▸ .same v
  | object _ _ hvalues => exact hvalues key v w hv hw

end Json.Value.UpToOrder

namespace TokenTree

open Json.Value

variable {key : String} {leaf : Json.Value} {members : Members} {entries others : List Entry}

theorem nodup_keys_plant (h : (Keyed.keys members).Nodup) (path : List String) :
    (Keyed.keys (plant leaf path members)).Nodup := by
  cases path with
  | nil => exact h
  | cons key rest =>
      cases rest with
      | nil =>
          rw [plant]
          split
          · exact h
          · exact Keyed.nodup_keys_put h
      | cons next rest =>
          rw [plant_cons_cons]
          exact Keyed.nodup_keys_put h

theorem nodup_keys_grown (entries : List Entry) : (Keyed.keys (grown entries)).Nodup := by
  induction entries using List.reverseRecOn with
  | nil => exact List.nodup_nil
  | append_singleton entries e ih =>
      rw [grown_concat]
      exact nodup_keys_plant ih e.1

theorem isSome_branch_iff : (branch entries).isSome ↔ entries ≠ [] := by
  rw [branch]
  split
  · rename_i hforks
    obtain ⟨e, he, -⟩ := hforks
    exact iff_of_true rfl (List.ne_nil_of_mem he)
  · rw [Option.isSome_map, List.getLast?_isSome]

theorem mem_keys_grown_iff (h : Unmixed entries) :
    key ∈ Keyed.keys (grown entries) ↔ under key entries ≠ [] := by
  rw [← Keyed.isSome_get?_iff, get?_grown h, isSome_branch_iff]

/-- No two leaves have one place, and no path goes on behind the place of a leaf that is an object. -/
structure Separate (entries : List Entry) : Prop where
  distinct : (entries.map Prod.fst).Nodup
  below : ∀ e ∈ entries, e.1 ≠ [] → e.2.isObject → ∀ other ∈ entries, ¬ Below e.1 other.1

namespace Separate

theorem perm (h : Separate entries) (hperm : entries.Perm others) : Separate others where
  distinct := (hperm.map Prod.fst).nodup_iff.mp h.distinct
  below := fun e he hpath hobject other hother =>
    h.below e (hperm.mem_iff.mpr he) hpath hobject other (hperm.mem_iff.mpr hother)

theorem unmixed (h : Separate entries) : Unmixed entries := by
  refine (List.pairwise_map.mp h.distinct).imp_of_mem ?_
  intro e later he hlater hne hpath hobject hstart
  exact h.below e he hpath hobject later hlater ⟨hstart, Ne.symm hne⟩

theorem under (h : Separate entries) (key : String) : Separate (under key entries) where
  distinct := by
    have hdistinct := List.pairwise_map.mp h.distinct
    refine List.pairwise_map.mpr (List.Pairwise.filterMap _ ?_ hdistinct)
    intro e other hne inner he deeper hother hsame
    rw [under?_eq_some_iff.mp he, under?_eq_some_iff.mp hother] at hne
    exact hne (congrArg (key :: ·) hsame)
  below := fun e he _ hobject other hother hbelow =>
    h.below _ (mem_under_iff.mp he) (List.cons_ne_nil _ _) hobject _ (mem_under_iff.mp hother)
      (Below.cons_iff.mpr ⟨rfl, hbelow⟩)

/-- Where no path goes on there is one entry at most. -/
theorem eq_of_not_forks (h : Separate entries) (hforks : ¬ Forks entries) {e other : Entry}
    (he : e ∈ entries) (hother : other ∈ entries) : e = other := by
  have hpath : ∀ e ∈ entries, e.1 = [] := fun e he => not_not.mp fun hne => hforks ⟨e, he, hne⟩
  exact List.inj_on_of_nodup_map h.distinct he hother ((hpath e he).trans (hpath other hother).symm)

end Separate

theorem forks_perm (hperm : entries.Perm others) : Forks entries ↔ Forks others := by
  simp only [Forks, hperm.mem_iff]

theorem branch_eq_some {v : Json.Value} (h : branch entries = some v) :
    (Forks entries ∧ v = .object (grown entries)) ∨
      (¬ Forks entries ∧ ∃ e ∈ entries, e.2 = v) := by
  rw [branch] at h
  split at h
  · rename_i hforks
    exact .inl ⟨hforks, (Option.some.inj h).symm⟩
  · rename_i hforks
    obtain ⟨e, he, hv⟩ := Option.map_eq_some_iff.mp h
    exact .inr ⟨hforks, e, List.mem_of_getLast? he, hv⟩

/-- Entries in another order grow the same groups and leaves. The induction is on the length of the
paths, which are shorter inside each group. -/
theorem upToOrder_grown (n : Nat) (hlength : ∀ e ∈ entries, e.1.length ≤ n)
    (h : Separate entries) (hperm : entries.Perm others) :
    UpToOrder (.object (grown entries)) (.object (grown others)) := by
  induction n generalizing entries others with
  | zero =>
      have hnil : ¬ Forks entries := by
        rintro ⟨e, he, hne⟩
        exact hne (List.length_eq_zero_iff.mp (Nat.le_zero.mp (hlength e he)))
      rw [grown_of_not_forks hnil, grown_of_not_forks (mt (forks_perm hperm).mpr hnil)]
      exact .same _
  | succ n ih =>
      have hothers := (h.perm hperm).unmixed
      have hinner : ∀ key, (under key entries).Perm (under key others) := fun key =>
        hperm.filterMap _
      refine .object (nodup_keys_grown _) ?_ fun key v w hv hw => ?_
      · refine (List.perm_ext_iff_of_nodup (nodup_keys_grown _) (nodup_keys_grown _)).mpr fun key => ?_
        rw [mem_keys_grown_iff h.unmixed, mem_keys_grown_iff hothers, ← List.length_pos_iff,
          ← List.length_pos_iff, (hinner key).length_eq]
      · rw [get?_grown h.unmixed] at hv
        rw [get?_grown hothers] at hw
        rcases branch_eq_some hv with ⟨hforks, rfl⟩ | ⟨hforks, e, he, rfl⟩
        · obtain ⟨-, rfl⟩ := (branch_eq_some hw).resolve_right fun hnot =>
            hnot.1 ((forks_perm (hinner key)).mp hforks)
          refine ih (fun e he => ?_) (h.under key) (hinner key)
          exact Nat.le_of_succ_le_succ (hlength _ (mem_under_iff.mp he))
        · obtain ⟨-, other, hother, rfl⟩ := (branch_eq_some hw).resolve_left fun hgroup =>
            hforks ((forks_perm (hinner key)).mpr hgroup.1)
          rw [(h.under key).eq_of_not_forks hforks he ((hinner key).mem_iff.mpr hother)]
          exact .same _

section Build

variable {category : Option String} {leafOf : Token → Json.Value} {tokens rearranged : List Token}
  {style : LeafStyle} {stem : String}

theorem keyPath?_injOn {t u : Token} (ht : t.path ≠ []) (hu : u.path ≠ []) {path : List String}
    (htpath : keyPath? category t = some path) (hupath : keyPath? category u = some path) :
    t.path = u.path := by
  cases category with
  | none => exact (Option.some.inj htpath).trans (Option.some.inj hupath).symm
  | some c =>
      obtain ⟨first, rest, hfirst⟩ := List.exists_cons_of_ne_nil ht
      obtain ⟨other, deeper, hother⟩ := List.exists_cons_of_ne_nil hu
      simp only [keyPath?, Token.category, hfirst, hother, List.headD_cons, List.drop_one,
        List.tail_cons, Option.ite_none_right_eq_some, Option.some.injEq] at htpath hupath
      rw [hfirst, hother, htpath.1, hupath.1, htpath.2, hupath.2]

theorem mem_entriesOf_iff {e : Entry} :
    e ∈ entriesOf category leafOf tokens ↔
      ∃ t ∈ tokens, keyPath? category t = some e.1 ∧ leafOf t = e.2 := by
  simp [entriesOf, stored?, List.mem_filterMap, Option.map_eq_some_iff, Prod.ext_iff]

theorem separate_entriesOf (hpaths : ∀ t ∈ tokens, t.path ≠ [])
    (hdistinct : (tokens.map Token.path).Nodup)
    (hleaf : ∀ t ∈ tokens, ∀ path ∈ keptPath? category t, (leafOf t).isObject →
      ¬ GoesOn category tokens path) :
    Separate (entriesOf category leafOf tokens) where
  distinct := by
    have hpairs := (List.pairwise_map.mp hdistinct).imp_of_mem
      fun {t u} ht hu hne => (⟨hpaths t ht, hpaths u hu, hne⟩ : t.path ≠ [] ∧ u.path ≠ [] ∧ _)
    refine List.pairwise_map.mpr (List.Pairwise.filterMap _ ?_ hpairs)
    rintro t u ⟨ht, hu, hne⟩ e he other hother hsame
    obtain ⟨path, hpath, rfl⟩ := Option.map_eq_some_iff.mp he
    obtain ⟨longer, hlonger, rfl⟩ := Option.map_eq_some_iff.mp hother
    obtain rfl : path = longer := hsame
    exact hne (keyPath?_injOn ht hu hpath hlonger)
  below := by
    intro e he hpath hobject other hother hbelow
    obtain ⟨t, ht, hkey, hvalue⟩ := mem_entriesOf_iff.mp he
    obtain ⟨u, hu, hlonger, -⟩ := mem_entriesOf_iff.mp hother
    rw [← hvalue] at hobject
    have hkept : ∀ {v : Token} {p : List String}, keyPath? category v = some p → p ≠ [] →
        keptPath? category v = some p := fun hv hp =>
      Option.filter_eq_some_iff.mpr ⟨hv, decide_eq_true hp⟩
    have hne : other.1 ≠ [] := by
      rintro hnil
      rw [hnil] at hbelow
      exact Below.not_nil hbelow
    exact hleaf t ht e.1 (hkept hkey hpath) hobject ⟨u, hu, other.1, hkept hlonger hne, hbelow⟩

/-- The same tokens in another order give the same tree up to the order of keys, if a token with an
object for its value stands where no path of another token goes on. For trees of property names this is
no condition. -/
theorem build_rearranged (hperm : tokens.Perm rearranged) (hpaths : ∀ t ∈ tokens, t.path ≠ [])
    (hdistinct : (tokens.map Token.path).Nodup)
    (hvalues : style = .literal → ∀ t ∈ tokens, t.value.isObject →
      ∀ path ∈ keptPath? category t, ¬ GoesOn category tokens path) :
    UpToOrder (build tokens category (style.leaf stem))
      (build rearranged category (style.leaf stem)) := by
  have hseparate : Separate (entriesOf category (style.leaf stem) tokens) := by
    refine separate_entriesOf hpaths hdistinct fun t ht path hpath hobject => ?_
    cases style with
    | literal => exact hvalues rfl t ht hobject path hpath
    | propertyName => cases hobject
  rw [build_eq_grown, build_eq_grown]
  have hlength : ∀ e ∈ entriesOf category (style.leaf stem) tokens,
      e.1.length ≤ ((entriesOf category (style.leaf stem) tokens).map (·.1.length)).sum :=
    fun e he => List.le_sum_of_mem (List.mem_map_of_mem he)
  exact upToOrder_grown _ hlength hseparate (hperm.filterMap _)

/-- A composite token, one that stands behind another, and the one in front of it. -/
def cardTokens : List Token :=
  [⟨["shadow", "card"], .object [("blur", .string "4px")], "\x7b\"blur\":\"4px\"\x7d", ⟨"a.json"⟩,
      true⟩,
    ⟨["space", "inset", "sm"], .string "4px", "4px", ⟨"a.json"⟩, true⟩,
    ⟨["space", "inset"], .string "8px", "8px", ⟨"a.json"⟩, true⟩]

theorem build_rearranged_card :
    cardTokens.Perm cardTokens.reverse ∧ (∀ t ∈ cardTokens, t.path ≠ []) ∧
      (cardTokens.map Token.path).Nodup ∧
      (∀ t ∈ cardTokens, t.value.isObject →
        ∀ path ∈ keptPath? none t, ¬ GoesOn none cardTokens path) ∧
      UpToOrder (build cardTokens none (LeafStyle.literal.leaf "sando"))
        (build cardTokens.reverse none (LeafStyle.literal.leaf "sando")) := by
  have hperm : cardTokens.Perm cardTokens.reverse := (List.reverse_perm _).symm
  have hpaths : ∀ t ∈ cardTokens, t.path ≠ [] := by decide
  have hdistinct : (cardTokens.map Token.path).Nodup := by decide
  have hvalues : ∀ t ∈ cardTokens, t.value.isObject →
      ∀ path ∈ keptPath? none t, ¬ GoesOn none cardTokens path := by decide
  exact ⟨hperm, hpaths, hdistinct, hvalues,
    build_rearranged hperm hpaths hdistinct fun _ => hvalues⟩

/-- The members of a composite token that comes first stay in the group that takes its place; of one
that comes second nothing stays. -/
theorem build_mixes_composite :
    let composite : Token :=
      ⟨["card"], .object [("blur", .string "4px")], "\x7b\"blur\":\"4px\"\x7d", ⟨"a.json"⟩, true⟩
    let deeper : Token := ⟨["card", "inner"], .string "2px", "2px", ⟨"b.json"⟩, true⟩
    (∀ t ∈ [composite, deeper], t.path ≠ []) ∧ ([composite, deeper].map Token.path).Nodup ∧
      [composite, deeper].Perm [deeper, composite] ∧
      ¬ UpToOrder (build [composite, deeper] none (LeafStyle.literal.leaf "sando"))
        (build [deeper, composite] none (LeafStyle.literal.leaf "sando")) := by
  intro composite deeper
  refine ⟨by decide, by decide, .swap deeper composite [], fun h => ?_⟩
  have hfirst : build [composite, deeper] none (LeafStyle.literal.leaf "sando") =
      .object [("card", .object [("blur", .string "4px"), ("inner", .string "2px")])] := rfl
  have hsecond : build [deeper, composite] none (LeafStyle.literal.leaf "sando") =
      .object [("card", .object [("inner", .string "2px")])] := rfl
  rw [hfirst, hsecond] at h
  have hcard := h.of_get? (show Keyed.get? "card" _ = _ from rfl) rfl
  exact absurd hcard.keys_perm.length_eq (by decide)

end Build

end TokenTree

end DesignTokens
