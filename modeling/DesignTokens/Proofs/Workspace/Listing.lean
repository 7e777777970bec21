import DesignTokens.Layer.Discovery
import DesignTokens.Proofs.Layer.Outputs
import Mathlib.Data.List.Sort
import Mathlib.Order.Defs.LinearOrder

/-!
What listings of a tree contain. They are in ascending order, so what they list decides them.
-/

namespace DesignTokens

namespace FileTree

variable {t : FileTree} {l : Location}

theorem mem_childNames_iff {name : String} :
    name ∈ t.childNames l ↔ (t.lookup (l ++ [name])).isSome := by
  have hne : l ++ [name] ≠ [] := List.append_ne_nil_of_right_ne_nil _ (List.cons_ne_nil _ _)
  rw [childNames, List.mem_mergeSort, List.mem_filterMap, lookup_of_ne_nil hne,
    Keyed.isSome_get?_iff, Keyed.keys, List.mem_map]
  constructor
  · rintro ⟨entry, hentry, hname⟩
    obtain ⟨hdrop, hlast⟩ := Option.ite_none_right_eq_some.mp hname
    obtain ⟨front, hfront⟩ := List.getLast?_eq_some_iff.mp hlast
    refine ⟨entry, hentry, ?_⟩
    rw [hfront, List.dropLast_concat] at hdrop
    rw [hfront, hdrop]
  · rintro ⟨entry, hentry, heq⟩
    refine ⟨entry, hentry, ?_⟩
    rw [heq, List.dropLast_concat, if_pos rfl, List.getLast?_concat]

theorem WellFormed.childNames_nodup (hwf : t.WellFormed) : (t.childNames l).Nodup := by
  rw [childNames, List.Perm.nodup_iff (List.mergeSort_perm _ _)]
  have hkeys : (t.nodes.filterMap fun entry =>
      if entry.1.dropLast = l then entry.1.getLast? else none) =
      (Keyed.keys t.nodes).filterMap fun key => if key.dropLast = l then key.getLast? else none := by
    rw [Keyed.keys, List.filterMap_map]
    rfl
  rw [hkeys]
  refine hwf.nodup.filterMap ?_
  intro a b name ha hb
  obtain ⟨hdrop, hlast⟩ := Option.ite_none_right_eq_some.mp ha
  obtain ⟨hdrop', hlast'⟩ := Option.ite_none_right_eq_some.mp hb
  obtain ⟨front, rfl⟩ := List.getLast?_eq_some_iff.mp hlast
  obtain ⟨front', rfl⟩ := List.getLast?_eq_some_iff.mp hlast'
  rw [List.dropLast_concat] at hdrop hdrop'
  rw [hdrop, hdrop']

/-- The names in a directory are listed in ascending order, each once. -/
theorem WellFormed.childNames_ascending (hwf : t.WellFormed) :
    (t.childNames l).Pairwise (· < ·) := by
  have hsorted : (t.childNames l).Pairwise fun a b => (!decide (b < a)) = true := by
    rw [childNames]
    refine List.pairwise_mergeSort ?_ ?_ _
    · intro a b c hab hbc
      simp only [Bool.not_eq_true', decide_eq_false_iff_not, not_lt] at *
      exact le_trans hab hbc
    · intro a b
      simp only [Bool.or_eq_true, Bool.not_eq_true', decide_eq_false_iff_not, not_lt]
      exact le_total a b
  refine (hsorted.and hwf.childNames_nodup).imp ?_
  rintro a b ⟨hle, hne⟩
  simp only [Bool.not_eq_true', decide_eq_false_iff_not, not_lt] at hle
  exact lt_of_le_of_ne hle hne

end FileTree

namespace Place

open FileTree

variable {t : FileTree} {w : Place}

/-- A walk lists the files below a location, those that do not lie too deep. -/
theorem mem_walkFrom_iff (hwf : t.WellFormed) {depth : Nat} {l : Location} {p : Path}
    {x : Path × Location} :
    x ∈ walkFrom t depth l p ↔
      ∃ names, names ≠ [] ∧ names.length ≤ depth ∧ x = (p.joinAll names, l ++ names) ∧
        t.IsFile (l ++ names) := by
  induction depth generalizing l p with
  | zero =>
      constructor
      · intro h
        exact absurd h List.not_mem_nil
      · rintro ⟨names, hne, hlength, -⟩
        exact absurd (List.eq_nil_of_length_eq_zero (Nat.le_zero.mp hlength)) hne
  | succ depth ih =>
      rw [walkFrom, List.mem_flatMap]
      constructor
      · rintro ⟨name, -, hx⟩
        split at hx
        · obtain ⟨names, -, hlength, hx, hfile⟩ := ih.mp hx
          refine ⟨name :: names, List.cons_ne_nil _ _, ?_, ?_, ?_⟩
          · rw [List.length_cons]
            omega
          · rw [hx, List.append_assoc]
            rfl
          · rwa [List.append_assoc] at hfile
        · rename_i content modified hlookup
          refine ⟨[name], List.cons_ne_nil _ _, Nat.succ_le_succ (Nat.zero_le _), ?_, ?_⟩
          · exact List.mem_singleton.mp hx
          · exact ⟨content, modified, hlookup⟩
        · exact absurd hx List.not_mem_nil
      · rintro ⟨names, hne, hlength, hx, hfile⟩
        obtain ⟨name, rest, rfl⟩ := List.exists_cons_of_ne_nil hne
        obtain ⟨content, modified, hlookup⟩ := hfile
        have hsome : (t.lookup (l ++ name :: rest)).isSome := by
          rw [hlookup]
          rfl
        cases rest with
        | nil =>
            refine ⟨name, mem_childNames_iff.mpr hsome, ?_⟩
            rw [hlookup]
            exact List.mem_singleton.mpr hx
        | cons second rest =>
            have hassoc : l ++ name :: second :: rest = l ++ [name] ++ second :: rest := by simp
            have hdir : t.lookup (l ++ [name]) = some .directory := by
              refine hwf.lookup_of_below (m := l ++ name :: second :: rest) ?_ hsome
              rw [hassoc]
              exact Below.append (List.cons_ne_nil _ _)
            refine ⟨name, mem_childNames_iff.mpr (by rw [hdir]; rfl), ?_⟩
            rw [hdir]
            refine ih.mpr ⟨second :: rest, List.cons_ne_nil _ _, ?_, ?_, ?_⟩
            · rw [List.length_cons] at hlength
              omega
            · rw [hx, hassoc]
              rfl
            · rw [← hassoc]
              exact ⟨content, modified, hlookup⟩

theorem behind_of_mem_walkFrom (hwf : t.WellFormed) {depth : Nat} {l : Location} {p : Path}
    {name : String} {z : Path × Location}
    (hz : z ∈ (match t.lookup (l ++ [name]) with
      | some .directory => walkFrom t depth (l ++ [name]) (p.join name)
      | some (.file ..) => [(p.join name, l ++ [name])]
      | none => [])) : ∃ rest, z.2 = l ++ name :: rest := by
  split at hz
  · obtain ⟨names, -, -, hz, -⟩ := (mem_walkFrom_iff hwf).mp hz
    exact ⟨names, by rw [hz, List.append_assoc]; rfl⟩
  · exact ⟨[], by rw [List.mem_singleton.mp hz]⟩
  · exact absurd hz List.not_mem_nil

theorem walkFrom_ascending (hwf : t.WellFormed) (depth : Nat) (l : Location) (p : Path) :
    (walkFrom t depth l p).Pairwise fun x y => x.2 < y.2 := by
  induction depth generalizing l p with
  | zero => exact List.Pairwise.nil
  | succ depth ih =>
      rw [walkFrom, List.pairwise_flatMap]
      constructor
      · intro name _
        split
        · exact ih _ _
        · exact List.pairwise_singleton _ _
        · exact List.Pairwise.nil
      · refine hwf.childNames_ascending.imp ?_
        intro a b hab x hx y hy
        obtain ⟨rest, hx⟩ := behind_of_mem_walkFrom hwf hx
        obtain ⟨rest', hy⟩ := behind_of_mem_walkFrom hwf hy
        rw [hx, hy]
        refine List.append_left_lt ?_
        rw [List.cons_lt_cons_iff]
        exact .inl hab

theorem length_le_depthOf {l : Location} (h : (t.lookup l).isSome) : l.length ≤ depthOf t := by
  by_cases hne : l = []
  · rw [hne]
    exact Nat.zero_le _
  · have hmem : l.length ∈ t.nodes.map fun entry => entry.1.length := by
      obtain ⟨entry, hentry, heq⟩ := List.mem_map.mp (mem_keys_of_lookup hne h)
      exact List.mem_map.mpr ⟨entry, hentry, by rw [heq]⟩
    have hfold : ∀ (lengths : List Nat) (start : Nat),
        start ≤ lengths.foldl max start ∧ ∀ n ∈ lengths, n ≤ lengths.foldl max start := by
      intro lengths
      induction lengths with
      | nil => exact fun start => ⟨le_rfl, fun n hn => absurd hn List.not_mem_nil⟩
      | cons first rest ih =>
          intro start
          obtain ⟨hstart, hrest⟩ := ih (max start first)
          refine ⟨(le_max_left start first).trans hstart, List.forall_mem_cons.mpr ⟨?_, hrest⟩⟩
          exact (le_max_right start first).trans hstart
    exact (hfold _ 0).2 _ hmem

/-- The files below a directory, each with its path and its location. -/
theorem mem_filesBelow_iff (hwf : w.tree.WellFormed) {dir : Path} {x : Path × Location} :
    x ∈ w.filesBelow dir ↔
      w.isDirectory dir ∧ ∃ names, names ≠ [] ∧
        x = (dir.joinAll names, w.target dir ++ names) ∧ w.tree.IsFile (w.target dir ++ names) := by
  rw [filesBelow]
  by_cases hdir : w.isDirectory dir
  · rw [hdir, locate_of_isDirectory hdir, mem_walkFrom_iff hwf]
    constructor
    · rintro ⟨names, hne, -, hx, hfile⟩
      exact ⟨rfl, names, hne, hx, hfile⟩
    · rintro ⟨-, names, hne, hx, content, modified, hlookup⟩
      refine ⟨names, hne, ?_, hx, content, modified, hlookup⟩
      have hlength : (w.target dir ++ names).length ≤ depthOf w.tree :=
        length_le_depthOf (by rw [hlookup]; rfl)
      rw [List.length_append] at hlength
      omega
  · rw [Bool.eq_false_iff.mpr hdir]
    simp

/-- The names in a directory. -/
theorem namesIn_of_isDirectory {dir : Path} (h : w.isDirectory dir) :
    w.namesIn dir = w.tree.childNames (w.target dir) := by
  rw [namesIn, h, locate_of_isDirectory h]

theorem filesBelow_ascending (hwf : w.tree.WellFormed) (dir : Path) :
    (w.filesBelow dir).Pairwise fun x y => x.2 < y.2 := by
  rw [filesBelow]
  split
  · exact walkFrom_ascending hwf _ _ _
  · exact List.Pairwise.nil

end Place

end DesignTokens
