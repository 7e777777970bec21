import DesignTokens.Proofs.Cache.Fingerprint
import Mathlib.Order.Defs.LinearOrder

/-!
When a layer is up to date: its entry has the hashes of its sources, each output directory holds a
file, and no source is newer than any of these files.
-/

namespace DesignTokens

open FileTree

/-- The time of the last change of a file. -/
def Node.modified? : Node → Option Nat
  | .directory => none
  | .file _ modified => some modified

/-- The time of the last change of the file at a location. -/
def FileTree.modifiedAt (t : FileTree) (l : Location) : Option Nat :=
  (t.lookup l).bind Node.modified?

theorem FileTree.isFile_iff_modifiedAt {t : FileTree} {l : Location} :
    t.IsFile l ↔ (t.modifiedAt l).isSome := by
  rw [IsFile, modifiedAt]
  rcases t.lookup l with _ | ⟨_ | _⟩ <;> simp [Node.modified?]

instance (t : FileTree) (l : Location) : Decidable (t.IsFile l) :=
  decidable_of_iff _ FileTree.isFile_iff_modifiedAt.symm

namespace Place

variable {w : Place} {dir : Path} {dirs : List Path}

/-- What is left along proper names lies above where they lead to. -/
theorem prefix_of_mem_trail {l m : Location} {names : List String}
    (hnames : ∀ name ∈ names, ProperName name) (hm : m ∈ trail l names) :
    Below m (l ++ names) := by
  induction names generalizing l with
  | nil => exact absurd hm List.not_mem_nil
  | cons name names ih =>
      obtain ⟨hname, hrest⟩ := List.forall_mem_cons.mp hnames
      rw [trail, advance_of_proper l hname] at hm
      rcases List.mem_cons.mp hm with rfl | hm
      · exact Below.append (List.cons_ne_nil _ _)
      · rw [← List.singleton_append, ← List.append_assoc]
        exact ih hrest hm

theorem descend_of_proper {l : Location} {names : List String}
    (hnames : ∀ name ∈ names, ProperName name) : descend l names = l ++ names := by
  induction names generalizing l with
  | nil => exact (List.append_nil l).symm
  | cons name names ih =>
      obtain ⟨hname, hrest⟩ := List.forall_mem_cons.mp hnames
      rw [descend, List.foldl_cons, ← descend, advance_of_proper l hname, ih hrest,
        List.append_assoc, List.singleton_append]

theorem endsInSlash_pathOf {l : Location} (h : ∀ name ∈ l, ProperName name) :
    (pathOf l).endsInSlash = false := by
  rw [Path.endsInSlash, names_pathOf h]
  rcases List.eq_nil_or_concat l with rfl | ⟨front, name, rfl⟩
  · exact Bool.and_false _
  · rw [List.concat_eq_append] at h ⊢
    have hname : ProperName name := h name (List.mem_append_right _ (List.mem_singleton_self name))
    have hend : ∀ rest : List String, ∃ start,
        ['/'].intercalate ((rest ++ [name]).map String.toList) = start ++ name.toList := by
      intro rest
      induction rest with
      | nil => exact ⟨[], by simp⟩
      | cons first rest ih =>
          obtain ⟨start, hstart⟩ := ih
          obtain ⟨next, more, hmore⟩ : ∃ next more,
              (rest ++ [name]).map String.toList = next :: more := by
            cases rest <;> exact ⟨_, _, rfl⟩
          refine ⟨first.toList ++ ['/'] ++ start, ?_⟩
          rw [List.cons_append, List.map_cons, hmore, List.intercalate_cons_cons, ← hmore, hstart]
          simp
    obtain ⟨start, hstart⟩ := hend front
    have hlast : (pathOf (front ++ [name])).text.toList.getLast? ≠ some '/' := by
      have hslash : "/".toList = ['/'] := rfl
      rw [pathOf, String.toList_append, Text.toList_join, hslash, hstart, ← List.append_assoc,
        List.getLast?_append_of_ne_nil _ (Path.toList_ne_nil hname.ne_empty)]
      exact fun h => hname.no_slash (List.mem_of_getLast? h)
    rw [beq_false_of_ne hlast, Bool.false_and]

/-- The absolute path of what is there leads to it. -/
theorem node_pathOf (hwf : w.tree.WellFormed) {l : Location} {n : Node}
    (h : w.tree.lookup l = some n) : w.node (pathOf l) = .ok n := by
  have hproper := hwf.proper_of_lookup (by rw [h]; rfl)
  have horigin : w.origin (pathOf l) = [] := by
    rw [origin, if_pos (isAbsolute_pathOf l)]
  have htarget : w.target (pathOf l) = l := by
    rw [target, steps_pathOf hproper, horigin, descend_of_proper hproper, List.nil_append]
  rw [node_eq_ok_iff, locate_eq_ok_iff, htarget, names_pathOf hproper, horigin,
    endsInSlash_pathOf hproper]
  refine ⟨⟨?_, ?_, fun h => absurd h Bool.false_ne_true, rfl⟩, h⟩
  · intro hempty
    have hnames := congrArg String.toList hempty
    rw [pathOf, String.toList_append] at hnames
    cases hnames
  · intro m hm
    exact hwf.lookup_of_below (prefix_of_mem_trail hproper hm) (by rw [List.nil_append, h]; rfl)

theorem mem_timesBelow_iff {time : Nat} :
    time ∈ w.timesBelow dir ↔ ∃ x ∈ w.filesBelow dir, w.tree.modifiedAt x.2 = some time := by
  rw [timesBelow, List.mem_filterMap]
  refine exists_congr fun x => and_congr_right fun _ => ?_
  rw [modifiedAt]
  rcases w.tree.lookup x.2 with _ | ⟨_ | _⟩ <;> simp [Node.modified?]

theorem timesBelow_eq_nil_iff (hwf : w.tree.WellFormed) :
    w.timesBelow dir = [] ↔ w.filesBelow dir = [] := by
  constructor
  · intro h
    rw [List.eq_nil_iff_forall_not_mem]
    intro x hx
    obtain ⟨-, names, -, rfl, hfile⟩ := (mem_filesBelow_iff hwf).mp hx
    obtain ⟨time, htime⟩ := Option.isSome_iff_exists.mp (isFile_iff_modifiedAt.mp hfile)
    have hmem : time ∈ w.timesBelow dir := mem_timesBelow_iff.mpr ⟨_, hx, htime⟩
    exact absurd hmem (h ▸ List.not_mem_nil)
  · intro h
    rw [timesBelow, h]
    rfl

theorem outputTimes_eq_ok_iff {times : List Nat} :
    w.outputTimes dirs = .ok times ↔
      (∀ dir ∈ dirs, w.timesBelow dir ≠ []) ∧ times = dirs.flatMap w.timesBelow := by
  induction dirs generalizing times with
  | nil =>
      constructor
      · intro h
        exact ⟨fun _ h => absurd h List.not_mem_nil, (Except.ok.inj h).symm⟩
      · rintro ⟨-, rfl⟩
        rfl
  | cons dir rest ih =>
      rw [outputTimes, List.forall_mem_cons, List.flatMap_cons]
      split
      · rename_i hnone
        simp [hnone]
      · rename_i hne
        cases hrest : w.outputTimes rest with
        | error e =>
            have hnot : ¬ ∀ dir ∈ rest, w.timesBelow dir ≠ [] := by
              intro h
              cases hrest.symm.trans (ih.mpr ⟨h, rfl⟩)
            simp [Except.map, hnot]
        | ok more =>
            obtain ⟨hall, rfl⟩ := ih.mp hrest
            constructor
            · intro h
              exact ⟨⟨hne, hall⟩, (Except.ok.inj h).symm⟩
            · rintro ⟨-, rfl⟩
              rfl

/-- The oldest output is the least of the times, if every directory holds a file. -/
theorem oldestOutput_eq_ok_iff {oldest : Nat} :
    w.oldestOutput dirs = .ok oldest ↔
      (∀ dir ∈ dirs, w.timesBelow dir ≠ []) ∧
        (dirs.flatMap w.timesBelow).min? = some oldest := by
  rw [oldestOutput]
  cases htimes : w.outputTimes dirs with
  | error e =>
      have hnot : ¬ ∀ dir ∈ dirs, w.timesBelow dir ≠ [] := by
        intro h
        cases htimes.symm.trans (outputTimes_eq_ok_iff.mpr ⟨h, rfl⟩)
      simp [hnot]
  | ok times =>
      obtain ⟨hall, rfl⟩ := outputTimes_eq_ok_iff.mp htimes
      cases hlist : dirs.flatMap w.timesBelow with
      | nil => simp
      | cons time rest =>
          rw [List.min?_cons', Except.ok.injEq, Option.some.injEq]
          exact ⟨fun h => ⟨hall, h⟩, fun h => h.2⟩

theorem le_of_oldestOutput {oldest time : Nat} (h : w.oldestOutput dirs = .ok oldest)
    {x : Path × Location} (hdir : dir ∈ dirs) (hx : x ∈ w.filesBelow dir)
    (htime : w.tree.modifiedAt x.2 = some time) : oldest ≤ time :=
  (List.min?_eq_some_iff.mp (oldestOutput_eq_ok_iff.mp h).2).2 time
    (List.mem_flatMap.mpr ⟨dir, hdir, mem_timesBelow_iff.mpr ⟨x, hx, htime⟩⟩)

theorem mem_of_oldestOutput {oldest : Nat} (h : w.oldestOutput dirs = .ok oldest) :
    ∃ dir ∈ dirs, ∃ x ∈ w.filesBelow dir, w.tree.modifiedAt x.2 = some oldest := by
  have hmem := (List.min?_eq_some_iff.mp (oldestOutput_eq_ok_iff.mp h).2).1
  obtain ⟨dir, hdir, hmem⟩ := List.mem_flatMap.mp hmem
  exact ⟨dir, hdir, mem_timesBelow_iff.mp hmem⟩

theorem exists_oldestOutput (hwf : w.tree.WellFormed) (hne : dirs ≠ []) :
    (∃ oldest, w.oldestOutput dirs = .ok oldest) ↔ ∀ dir ∈ dirs, w.filesBelow dir ≠ [] := by
  have htimes : (∀ dir ∈ dirs, w.timesBelow dir ≠ []) ↔ ∀ dir ∈ dirs, w.filesBelow dir ≠ [] :=
    forall₂_congr fun dir _ => not_congr (timesBelow_eq_nil_iff hwf)
  rw [← htimes]
  constructor
  · rintro ⟨oldest, h⟩
    exact (oldestOutput_eq_ok_iff.mp h).1
  · intro hall
    obtain ⟨dir, rest, rfl⟩ := List.exists_cons_of_ne_nil hne
    cases hmin : ((dir :: rest).flatMap w.timesBelow).min? with
    | none =>
        rw [List.min?_eq_none_iff, List.flatMap_cons, List.append_eq_nil_iff] at hmin
        exact absurd hmin.1 (hall dir List.mem_cons_self)
    | some oldest => exact ⟨oldest, oldestOutput_eq_ok_iff.mpr ⟨hall, hmin⟩⟩

/-- A fingerprint has the hashes of the `json` files in the directory and no others. -/
theorem entries_of_fingerprint (hwf : w.tree.WellFormed) {hashes : Fingerprint}
    (h : w.fingerprint dir = .ok hashes) :
    Keyed.Ascending hashes ∧ (∀ entry ∈ hashes, ∃ x ∈ w.jsonEntries dir, w.hashEntry x = entry) ∧
      ∀ x ∈ w.jsonEntries dir, (w.hashEntry x).1 ∈ Keyed.keys hashes := by
  obtain rfl := Except.ok.inj ((fingerprint_eq hwf dir).symm.trans h)
  refine ⟨Keyed.ascending_sortedOf _, ?_, ?_⟩
  · intro entry hentry
    exact List.mem_map.mp (Keyed.mem_of_mem_sortedOf hentry)
  · intro x hx
    rw [Keyed.mem_keys_sortedOf_iff]
    exact List.mem_map_of_mem (List.mem_map_of_mem hx)

end Place

namespace Fingerprint

theorem firstDifference_eq_none_iff {recorded current : Fingerprint} :
    recorded.firstDifference current = none ↔
      ∀ entry ∈ current, Keyed.get? entry.1 recorded = some entry.2 := by
  refine ⟨fun h entry => get?_of_firstDifference h, ?_⟩
  intro h
  induction current with
  | nil => rfl
  | cons first rest ih =>
      obtain ⟨hfirst, hrest⟩ := List.forall_mem_cons.mp h
      rw [firstDifference, hfirst]
      exact (if_pos rfl).trans (ih hrest)

theorem firstRemoved_eq_none_iff {recorded current : Fingerprint} :
    current.firstRemoved recorded = none ↔
      ∀ entry ∈ recorded, (Keyed.get? entry.1 current).isSome := by
  rw [firstRemoved, Option.map_eq_none_iff, List.find?_eq_none]
  refine forall₂_congr fun entry _ => ?_
  cases Keyed.get? entry.1 current <;> simp

/-- There is no difference exactly if both have the same hashes. -/
theorem no_difference_iff {recorded current : Fingerprint} (hcurrent : Keyed.Ascending current) :
    recorded.firstDifference current = none ∧ current.firstRemoved recorded = none ↔
      ∀ key, Keyed.get? key current = Keyed.get? key recorded := by
  constructor
  · rintro ⟨hdifference, hremoved⟩
    exact get?_eq_of_no_difference hdifference hremoved
  · intro hsame
    rw [firstDifference_eq_none_iff, firstRemoved_eq_none_iff]
    constructor
    · intro entry hentry
      rw [← hsame]
      exact Keyed.get?_of_mem hcurrent.nodup hentry
    · intro entry hentry
      rw [hsame, Keyed.isSome_get?_iff]
      exact List.mem_map_of_mem hentry

theorem firstNewer_eq_none_iff {w : Place} {time : Nat} {hashes : Fingerprint} :
    firstNewer w time hashes = none ↔
      ∀ entry ∈ hashes, ∃ n, w.node ⟨entry.1⟩ = .ok n ∧
        ∀ modified, n.modified? = some modified → modified ≤ time := by
  induction hashes with
  | nil => exact ⟨fun _ _ h => absurd h List.not_mem_nil, fun _ => rfl⟩
  | cons first rest ih =>
      obtain ⟨file, hash⟩ := first
      rw [firstNewer, List.forall_mem_cons, ← ih]
      rcases hnode : w.node ⟨file⟩ with e | ⟨_ | ⟨content, modified⟩⟩
      · simp
      · simp [Node.modified?]
      · by_cases hlt : time < modified
        · simp [Node.modified?, hlt]
        · simp [Node.modified?, hlt, not_lt.mp hlt]

end Fingerprint

namespace CacheStore

open Place

variable {w : Place} {dir : Path} {outputs : List Path}

theorem firstNewer_of_fingerprint (hwf : w.tree.WellFormed) {hashes : Fingerprint} {oldest : Nat}
    (h : w.fingerprint dir = .ok hashes) :
    Fingerprint.firstNewer w oldest hashes = none ↔
      ∀ x ∈ w.jsonEntries dir, ∀ time, w.tree.modifiedAt x.2 = some time → time ≤ oldest := by
  obtain ⟨-, hentries, hkeys⟩ := entries_of_fingerprint hwf h
  have hnode : ∀ x ∈ w.jsonEntries dir, ∃ n, w.tree.lookup x.2 = some n ∧
      w.node ⟨(w.hashEntry x).1⟩ = .ok n := by
    intro x hx
    obtain ⟨-, names, -, rfl, hsome⟩ := (mem_jsonEntries_iff hwf).mp hx
    obtain ⟨-, content, modified, hlookup⟩ := isSome_jsonAt_iff.mp hsome
    exact ⟨_, hlookup, node_pathOf hwf hlookup⟩
  rw [Fingerprint.firstNewer_eq_none_iff]
  constructor
  · intro hall x hx time htime
    obtain ⟨entry, hentry, hkey⟩ := List.mem_map.mp (hkeys x hx)
    obtain ⟨n, hlookup, hn⟩ := hnode x hx
    obtain ⟨n', hn', hle⟩ := hall entry hentry
    have hpath : (⟨entry.1⟩ : Path) = ⟨(w.hashEntry x).1⟩ := congrArg Path.mk hkey
    rw [hpath, hn] at hn'
    obtain rfl := Except.ok.inj hn'
    rw [modifiedAt, hlookup] at htime
    exact hle time htime
  · intro hall entry hentry
    obtain ⟨x, hx, rfl⟩ := hentries entry hentry
    obtain ⟨n, hlookup, hn⟩ := hnode x hx
    refine ⟨n, hn, ?_⟩
    intro modified hmodified
    exact hall x hx modified (by rw [modifiedAt, hlookup]; exact hmodified)

theorem eq_nil_of_same {hashes recorded : Fingerprint} (h : w.fingerprint dir = .ok hashes)
    (hwf : w.tree.WellFormed)
    (hsame : ∀ key, Keyed.get? key hashes = Keyed.get? key recorded) :
    (hashes.isEmpty && recorded.isEmpty) = true ↔ w.jsonEntries dir = [] := by
  obtain ⟨-, hentries, hkeys⟩ := entries_of_fingerprint hwf h
  rw [Bool.and_eq_true, List.isEmpty_iff, List.isEmpty_iff]
  constructor
  · rintro ⟨rfl, -⟩
    rw [List.eq_nil_iff_forall_not_mem]
    exact fun x hx => absurd (hkeys x hx) List.not_mem_nil
  · intro hnone
    have hnil : hashes = [] := by
      rw [List.eq_nil_iff_forall_not_mem]
      intro entry hentry
      obtain ⟨x, hx, -⟩ := hentries entry hentry
      rw [hnone] at hx
      exact List.not_mem_nil hx
    refine ⟨hnil, ?_⟩
    rw [List.eq_nil_iff_forall_not_mem]
    intro entry hentry
    have hsome : (Keyed.get? entry.1 recorded).isSome :=
      Keyed.isSome_get?_iff.mpr (List.mem_map_of_mem hentry)
    rw [← hsame, hnil] at hsome
    exact absurd hsome nofun

/-- With the hashes of its entry a layer is up to date exactly if it has no sources, or if there are
outputs, of which the oldest is not older than any of the sources. -/
theorem decide_of_same (hwf : w.tree.WellFormed) {s : CacheStore} {layer : String}
    {entry : CacheEntry} {hashes : Fingerprint} (hentry : s.entry? layer = some entry)
    (h : w.fingerprint dir = .ok hashes)
    (hsame : ∀ key, Keyed.get? key hashes = Keyed.get? key entry.hashes) :
    s.decide w layer dir outputs = .upToDate ↔
      w.jsonEntries dir = [] ∨ ∃ oldest, w.oldestOutput outputs = .ok oldest ∧
        ∀ x ∈ w.jsonEntries dir, ∀ time, w.tree.modifiedAt x.2 = some time → time ≤ oldest := by
  obtain ⟨hascending, -, -⟩ := entries_of_fingerprint hwf h
  obtain ⟨hdifference, hremoved⟩ := (Fingerprint.no_difference_iff hascending).mpr hsame
  rw [decide, hentry]
  simp only [h]
  by_cases hnone : w.jsonEntries dir = []
  · rw [if_pos ((eq_nil_of_same h hwf hsame).mpr hnone)]
    exact iff_of_true rfl (.inl hnone)
  · rw [if_neg (mt (eq_nil_of_same h hwf hsame).mp hnone)]
    cases holdest : w.oldestOutput outputs with
    | error e => simp [hnone]
    | ok oldest =>
        simp only [hdifference, hremoved, Option.none_or]
        have hnewer : Fingerprint.firstNewer w oldest hashes = none ↔ _ :=
          firstNewer_of_fingerprint hwf h
        cases hfirst : Fingerprint.firstNewer w oldest hashes with
        | none =>
            refine iff_of_true rfl (.inr ⟨oldest, rfl, hnewer.mp hfirst⟩)
        | some reason =>
            refine iff_of_false Decision.noConfusion ?_
            rintro (h | ⟨_, ⟨⟩, hall⟩)
            · exact hnone h
            · cases (hnewer.mpr hall).symm.trans hfirst

end CacheStore

end DesignTokens
