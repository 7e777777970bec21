import DesignTokens.Proofs.Cache.Decision

/-!
The decision on a layer against the files. Whether the layer is up to date, and what a reason to
build it again says, is told by the sources, the outputs and the recorded hashes alone, whatever
order they are compared in.
-/

namespace DesignTokens

open FileTree

namespace Place

variable {w : Place} {dir out : Path} {outputs : List Path} {hashes : Fingerprint}

/-- A directory is there and holds a file at some depth. -/
def HoldsFile (w : Place) (out : Path) : Prop :=
  w.isDirectory out ∧ ∃ l, Below (w.target out) l ∧ w.tree.IsFile l

/-- A file below one of some directories was last changed at a point in time. -/
def WrittenAt (w : Place) (outputs : List Path) (time : Nat) : Prop :=
  ∃ out ∈ outputs, w.isDirectory out ∧
    ∃ l, Below (w.target out) l ∧ w.tree.modifiedAt l = some time

theorem filesBelow_ne_nil_iff (hwf : w.tree.WellFormed) :
    w.filesBelow out ≠ [] ↔ w.HoldsFile out := by
  constructor
  · intro h
    obtain ⟨x, hx⟩ := List.exists_mem_of_ne_nil _ h
    obtain ⟨hdir, names, hne, rfl, hfile⟩ := (mem_filesBelow_iff hwf).mp hx
    exact ⟨hdir, _, Below.append hne, hfile⟩
  · rintro ⟨hdir, l, hbelow, hfile⟩
    obtain ⟨names, hne, rfl⟩ := Below.iff_append.mp hbelow
    exact List.ne_nil_of_mem ((mem_filesBelow_iff hwf).mpr ⟨hdir, names, hne, rfl, hfile⟩)

theorem writtenAt_iff (hwf : w.tree.WellFormed) {time : Nat} :
    w.WrittenAt outputs time ↔
      ∃ out ∈ outputs, ∃ x ∈ w.filesBelow out, w.tree.modifiedAt x.2 = some time := by
  refine exists_congr fun out => and_congr_right fun _ => ?_
  constructor
  · rintro ⟨hdir, l, hbelow, htime⟩
    obtain ⟨names, hne, rfl⟩ := Below.iff_append.mp hbelow
    have hfile := isFile_iff_modifiedAt.mpr (Option.isSome_iff_exists.mpr ⟨time, htime⟩)
    exact ⟨_, (mem_filesBelow_iff hwf).mpr ⟨hdir, names, hne, rfl, hfile⟩, htime⟩
  · rintro ⟨x, hx, htime⟩
    obtain ⟨hdir, names, hne, rfl, -⟩ := (mem_filesBelow_iff hwf).mp hx
    exact ⟨hdir, _, Below.append hne, htime⟩

/-- The oldest output is an output, and no other one is older. -/
theorem writtenAt_of_oldestOutput (hwf : w.tree.WellFormed) {oldest : Nat}
    (h : w.oldestOutput outputs = .ok oldest) :
    w.WrittenAt outputs oldest ∧ ∀ time, w.WrittenAt outputs time → oldest ≤ time := by
  refine ⟨(writtenAt_iff hwf).mpr (mem_of_oldestOutput h), fun time htime => ?_⟩
  obtain ⟨out, hout, x, hx, hmodified⟩ := (writtenAt_iff hwf).mp htime
  exact le_of_oldestOutput h hout hx hmodified

theorem exists_oldestOutput_iff (hwf : w.tree.WellFormed) (hne : outputs ≠ []) :
    (∃ oldest, w.oldestOutput outputs = .ok oldest) ↔ ∀ out ∈ outputs, w.HoldsFile out := by
  rw [exists_oldestOutput hwf hne]
  exact forall₂_congr fun out _ => filesBelow_ne_nil_iff hwf

theorem source_of_mem_fingerprint (hwf : w.tree.WellFormed) (h : w.fingerprint dir = .ok hashes)
    {entry : String × String} (hentry : entry ∈ hashes) :
    ∃ l content, w.Source dir l content ∧ entry.1 = (pathOf l).text ∧
      entry.2 = Sha256.hexDigest content := by
  obtain ⟨hascending, -, -⟩ := entries_of_fingerprint hwf h
  exact (get?_fingerprint hwf h _ _).mp (Keyed.get?_of_mem hascending.nodup hentry)

theorem Source.get?_eq (hwf : w.tree.WellFormed) (h : w.fingerprint dir = .ok hashes)
    {l : Location} {content : ByteArray} (hsource : w.Source dir l content) :
    Keyed.get? (pathOf l).text hashes = some (Sha256.hexDigest content) :=
  (get?_fingerprint hwf h _ _).mpr ⟨l, content, hsource, rfl, rfl⟩

theorem modifiedAt_of_source {l : Location} {content : ByteArray} (h : w.Source dir l content) :
    ∃ modified, w.tree.lookup l = some (.file content modified) :=
  (jsonAt_eq_some_iff.mp h.2.2).2

end Place

open Place

/-- What a reason says of the file that it names: a source that was not recorded, or was recorded
with other contents, a recorded file that is no source any more, or a source that was changed after
an output was written. No other reason is given where there are outputs. -/
def RebuildReason.Holds (w : Place) (dir : Path) (outputs : List Path) (recorded : Fingerprint) :
    RebuildReason → Prop
  | sourceAdded p => ∃ l content, w.Source dir l content ∧ p = pathOf l ∧
      Keyed.get? p.text recorded = none
  | sourceChanged p => ∃ l content hash, w.Source dir l content ∧ p = pathOf l ∧
      Keyed.get? p.text recorded = some hash ∧ hash ≠ Sha256.hexDigest content
  | sourceRemoved p => (∃ hash, Keyed.get? p.text recorded = some hash) ∧
      ∀ l content, w.Source dir l content → p ≠ pathOf l
  | sourceNewerThanOutput p => ∃ l content modified time, w.Source dir l content ∧ p = pathOf l ∧
      w.tree.modifiedAt l = some modified ∧ w.WrittenAt outputs time ∧ time < modified
  | _ => False

namespace Fingerprint

variable {w : Place} {dir : Path} {outputs : List Path} {recorded current : Fingerprint}
  {reason : RebuildReason}

theorem exists_of_firstDifference (h : recorded.firstDifference current = some reason) :
    ∃ entry ∈ current,
      (Keyed.get? entry.1 recorded = none ∧ reason = .sourceAdded ⟨entry.1⟩) ∨
        ∃ hash, Keyed.get? entry.1 recorded = some hash ∧ hash ≠ entry.2 ∧
          reason = .sourceChanged ⟨entry.1⟩ := by
  induction current with
  | nil => cases h
  | cons first rest ih =>
      rw [List.exists_mem_cons_iff]
      obtain ⟨file, hash⟩ := first
      rw [firstDifference] at h
      split at h
      · rename_i hnone
        exact .inl (.inl ⟨hnone, (Option.some.inj h).symm⟩)
      · rename_i cached hcached
        split at h
        · exact .inr (ih h)
        · rename_i hne
          exact .inl (.inr ⟨cached, hcached, hne, (Option.some.inj h).symm⟩)

theorem exists_of_firstNewer {time : Nat} (h : firstNewer w time current = some reason) :
    ∃ entry ∈ current,
      (∃ content modified, w.node ⟨entry.1⟩ = .ok (.file content modified) ∧ time < modified ∧
        reason = .sourceNewerThanOutput ⟨entry.1⟩) ∨
      ∃ e, w.node ⟨entry.1⟩ = .error e := by
  induction current with
  | nil => cases h
  | cons first rest ih =>
      rw [List.exists_mem_cons_iff]
      obtain ⟨file, hash⟩ := first
      rw [firstNewer] at h
      split at h
      · rename_i content modified hnode
        split at h
        · rename_i hlt
          exact .inl (.inl ⟨content, modified, hnode, hlt, (Option.some.inj h).symm⟩)
        · exact .inr (ih h)
      · exact .inr (ih h)
      · rename_i e hnode
        exact .inl (.inr ⟨e, hnode⟩)

theorem holds_of_firstDifference (hwf : w.tree.WellFormed) (hcurrent : w.fingerprint dir = .ok current)
    (h : recorded.firstDifference current = some reason) :
    reason.Holds w dir outputs recorded := by
  obtain ⟨entry, hentry, hreason⟩ := exists_of_firstDifference h
  obtain ⟨l, content, hsource, hkey, hhash⟩ := source_of_mem_fingerprint hwf hcurrent hentry
  have hpath : (⟨entry.1⟩ : Path) = pathOf l := congrArg Path.mk hkey
  rcases hreason with ⟨hnone, rfl⟩ | ⟨cached, hcached, hne, rfl⟩
  · exact ⟨l, content, hsource, hpath, hnone⟩
  · exact ⟨l, content, cached, hsource, hpath, hcached, hhash ▸ hne⟩

theorem holds_of_firstRemoved (hwf : w.tree.WellFormed) (hcurrent : w.fingerprint dir = .ok current)
    (h : current.firstRemoved recorded = some reason) :
    reason.Holds w dir outputs recorded := by
  obtain ⟨entry, hfind, rfl⟩ := Option.map_eq_some_iff.mp h
  have hnone := List.find?_some hfind
  simp only [Option.isNone_iff_eq_none] at hnone
  have hsome : (Keyed.get? entry.1 recorded).isSome :=
    Keyed.isSome_get?_iff.mpr (List.mem_map_of_mem (List.mem_of_find?_eq_some hfind))
  refine ⟨Option.isSome_iff_exists.mp hsome, fun l content hsource hpath => ?_⟩
  have hkey : entry.1 = (pathOf l).text := congrArg Path.text hpath
  rw [hkey, hsource.get?_eq hwf hcurrent] at hnone
  cases hnone

theorem holds_of_firstNewer (hwf : w.tree.WellFormed) (hcurrent : w.fingerprint dir = .ok current)
    {time : Nat} (htime : w.WrittenAt outputs time) (h : firstNewer w time current = some reason) :
    reason.Holds w dir outputs recorded := by
  obtain ⟨entry, hentry, hreason⟩ := exists_of_firstNewer h
  obtain ⟨l, content, hsource, hkey, -⟩ := source_of_mem_fingerprint hwf hcurrent hentry
  obtain ⟨modified, hlookup⟩ := modifiedAt_of_source hsource
  have hpath : (⟨entry.1⟩ : Path) = pathOf l := congrArg Path.mk hkey
  have hnode := node_pathOf hwf hlookup
  rcases hreason with ⟨content', modified', hnode', hlt, rfl⟩ | ⟨e, hnode'⟩
  · rw [hpath, hnode] at hnode'
    obtain ⟨-, rfl⟩ := Node.file.inj (Except.ok.inj hnode')
    refine ⟨l, content, modified, time, hsource, hpath, ?_, htime, hlt⟩
    rw [modifiedAt, hlookup]
    rfl
  · rw [hpath, hnode] at hnode'
    cases hnode'

end Fingerprint

namespace CacheStore

variable {s : CacheStore} {w v : Place} {layer : String} {dir : Path} {outputs : List Path}
  {entry : CacheEntry} {current : Fingerprint} {oldest : Nat}

/-- With outputs the first difference decides, then the first removed source, then the first newer
one. -/
theorem decide_of_oldestOutput (hentry : s.entry? layer = some entry)
    (hcurrent : w.fingerprint dir = .ok current) (hsome : ¬ (current = [] ∧ entry.hashes = []))
    (holdest : w.oldestOutput outputs = .ok oldest) :
    s.decide w layer dir outputs =
      match (entry.hashes.firstDifference current).or
        ((current.firstRemoved entry.hashes).or (Fingerprint.firstNewer w oldest current)) with
      | some reason => .rebuild reason
      | none => .upToDate := by
  rw [decide, hentry]
  have hfull : ¬ (current.isEmpty && entry.hashes.isEmpty) := by
    rwa [Bool.and_eq_true, List.isEmpty_iff, List.isEmpty_iff]
  simp only [hcurrent, holdest]
  refine (if_neg hfull).trans ?_
  generalize (entry.hashes.firstDifference current).or _ = difference
  cases difference <;> rfl

theorem decide_of_empty (hentry : s.entry? layer = some entry) (hcurrent : w.fingerprint dir = .ok [])
    (hnone : entry.hashes = []) : s.decide w layer dir outputs = .upToDate := by
  rw [decide, hentry]
  simp [hcurrent, hnone]

/-- When a layer is up to date. -/
theorem upToDate_iff (hwf : w.tree.WellFormed) (houtputs : outputs ≠ [])
    (hentry : s.entry? layer = some entry) (hcurrent : w.fingerprint dir = .ok current) :
    s.decide w layer dir outputs = .upToDate ↔
      (current = [] ∧ entry.hashes = []) ∨
        ((∀ out ∈ outputs, w.HoldsFile out) ∧
          (∀ key, Keyed.get? key current = Keyed.get? key entry.hashes) ∧
          ∀ l content modified time, w.Source dir l content →
            w.tree.modifiedAt l = some modified → w.WrittenAt outputs time → modified ≤ time) := by
  constructor
  · intro h
    obtain ⟨entry', current', hentry', hcurrent', hsame⟩ := decide_eq_upToDate h
    obtain rfl := Option.some.inj (hentry'.symm.trans hentry)
    obtain rfl := Except.ok.inj (hcurrent'.symm.trans hcurrent)
    rcases (decide_of_same hwf hentry hcurrent hsame).mp h with hnone | ⟨oldest, holdest, hnewer⟩
    · have hempty := (eq_nil_of_same hcurrent hwf hsame).mpr hnone
      rw [Bool.and_eq_true, List.isEmpty_iff, List.isEmpty_iff] at hempty
      exact .inl hempty
    · obtain ⟨-, hleast⟩ := writtenAt_of_oldestOutput hwf holdest
      refine .inr ⟨(exists_oldestOutput_iff hwf houtputs).mp ⟨oldest, holdest⟩, hsame, ?_⟩
      intro l content modified time hsource hmodified htime
      obtain ⟨p, hmem⟩ := hsource.mem_jsonEntries hwf
      exact (hnewer _ hmem modified hmodified).trans (hleast time htime)
  · rintro (⟨rfl, hnone⟩ | ⟨hall, hsame, hnewer⟩)
    · exact decide_of_empty hentry hcurrent hnone
    · obtain ⟨oldest, holdest⟩ := (exists_oldestOutput_iff hwf houtputs).mpr hall
      refine (decide_of_same hwf hentry hcurrent hsame).mpr (.inr ⟨oldest, holdest, ?_⟩)
      intro x hx modified hmodified
      obtain ⟨content, hsource⟩ := exists_source hwf hx
      exact hnewer _ _ _ _ hsource hmodified (writtenAt_of_oldestOutput hwf holdest).1

/-- Where there are outputs, a reason to build again holds. -/
theorem holds_of_decide (hwf : w.tree.WellFormed) (houtputs : ∀ out ∈ outputs, w.HoldsFile out)
    (hne : outputs ≠ []) (hentry : s.entry? layer = some entry)
    (hcurrent : w.fingerprint dir = .ok current) {reason : RebuildReason}
    (h : s.decide w layer dir outputs = .rebuild reason) :
    reason.Holds w dir outputs entry.hashes := by
  obtain ⟨oldest, holdest⟩ := (exists_oldestOutput_iff hwf hne).mpr houtputs
  obtain ⟨hwritten, -⟩ := writtenAt_of_oldestOutput hwf holdest
  by_cases hsome : current = [] ∧ entry.hashes = []
  · rw [decide_of_empty hentry (hsome.1 ▸ hcurrent) hsome.2] at h
    cases h
  · rw [decide_of_oldestOutput hentry hcurrent hsome holdest] at h
    split at h
    · rename_i other hother
      obtain rfl := Decision.rebuild.inj h
      rcases Option.or_eq_some_iff.mp hother with hfound | ⟨-, hother⟩
      · exact Fingerprint.holds_of_firstDifference hwf hcurrent hfound
      · rcases Option.or_eq_some_iff.mp hother with hfound | ⟨-, hfound⟩
        · exact Fingerprint.holds_of_firstRemoved hwf hcurrent hfound
        · exact Fingerprint.holds_of_firstNewer hwf hcurrent hwritten hfound
    · cases h

/-- If only one source has other contents than at the time of the entry, it is the reason. -/
theorem decide_of_edit (hw : w.tree.WellFormed) (hv : v.tree.WellFormed) (hne : outputs ≠ [])
    (houtputs : ∀ out ∈ outputs, w.HoldsFile out) (hentry : s.entry? layer = some entry)
    (hcurrent : w.fingerprint dir = .ok current) (hrecorded : v.fingerprint dir = .ok entry.hashes)
    {l : Location} {old new : ByteArray} (hold : v.Source dir l old) (hnew : w.Source dir l new)
    (hedit : Sha256.hexDigest old ≠ Sha256.hexDigest new)
    (hothers : ∀ m content, m ≠ l → w.Source dir m content → v.Source dir m content) :
    s.decide w layer dir outputs = .rebuild (.sourceChanged (pathOf l)) := by
  obtain ⟨oldest, holdest⟩ := (exists_oldestOutput_iff hw hne).mpr houtputs
  have hthen := hold.get?_eq hv hrecorded
  have hnow := hnew.get?_eq hw hcurrent
  have hsome : ¬ (current = [] ∧ entry.hashes = []) := by
    rintro ⟨rfl, -⟩
    cases hnow
  have hdifference : entry.hashes.firstDifference current = some (.sourceChanged (pathOf l)) := by
    cases hfirst : entry.hashes.firstDifference current with
    | none =>
        have hsame := Fingerprint.get?_of_firstDifference hfirst (Keyed.mem_of_get? hnow)
        exact absurd (Option.some.inj (hthen.symm.trans hsame)) hedit
    | some reason =>
        obtain ⟨found, hfound, hreason⟩ := Fingerprint.exists_of_firstDifference hfirst
        obtain ⟨m, content, hsource, hkey, hhash⟩ := source_of_mem_fingerprint hw hcurrent hfound
        have hm : m = l := by
          by_contra hm
          have hsame := (hothers m content hm hsource).get?_eq hv hrecorded
          rw [← hkey, ← hhash] at hsame
          rcases hreason with ⟨hnone, -⟩ | ⟨hash, hhash', hne', -⟩
          · cases hsame.symm.trans hnone
          · exact hne' (Option.some.inj (hhash'.symm.trans hsame))
        rw [hm] at hkey
        rcases hreason with ⟨hnone, -⟩ | ⟨-, -, -, rfl⟩
        · rw [hkey, hthen] at hnone
          cases hnone
        · have hpath : (⟨found.1⟩ : Path) = pathOf l := congrArg Path.mk hkey
          rw [hpath]
  rw [decide_of_oldestOutput hentry hcurrent hsome holdest, hdifference]
  rfl

/-- A layer with an entry is up to date exactly if it had no sources and has none, or if each output
directory holds a file, the sources have the recorded hashes and none of them was changed after any
of the outputs was written. Where there are outputs, a reason to build it again names a file with
that property; if one source was edited since the entry was recorded, it is that source. -/
theorem decide_exact (hwf : w.tree.WellFormed) (hne : outputs ≠ [])
    (hentry : s.entry? layer = some entry) (hcurrent : w.fingerprint dir = .ok current) :
    (s.decide w layer dir outputs = .upToDate ↔
      (current = [] ∧ entry.hashes = []) ∨
        ((∀ out ∈ outputs, w.HoldsFile out) ∧
          (∀ key, Keyed.get? key current = Keyed.get? key entry.hashes) ∧
          ∀ l content modified time, w.Source dir l content →
            w.tree.modifiedAt l = some modified → w.WrittenAt outputs time → modified ≤ time)) ∧
      ((∀ out ∈ outputs, w.HoldsFile out) →
        (∀ reason, s.decide w layer dir outputs = .rebuild reason →
          reason.Holds w dir outputs entry.hashes) ∧
        ∀ (v : Place) (l : Location) (old new : ByteArray), v.tree.WellFormed →
          v.fingerprint dir = .ok entry.hashes → v.Source dir l old → w.Source dir l new →
          old ≠ new → (Sha256.hexDigest old = Sha256.hexDigest new → old = new) →
          (∀ m content, m ≠ l → (w.Source dir m content ↔ v.Source dir m content)) →
          s.decide w layer dir outputs = .rebuild (.sourceChanged (pathOf l))) := by
  refine ⟨upToDate_iff hwf hne hentry hcurrent, fun houtputs => ⟨?_, ?_⟩⟩
  · exact fun reason => holds_of_decide hwf houtputs hne hentry hcurrent
  · intro v l old new hv hrecorded hold hnew hedited hcollision hothers
    exact decide_of_edit hwf hv hne houtputs hentry hcurrent hrecorded hold hnew
      (mt hcollision hedited) fun m content hm => (hothers m content hm).mp

/-- A place with two sources and an output that is newer than both. -/
def paintPlace (paint : ByteArray) : Place :=
  ⟨⟨[(["src"], .directory), (["src", "a.json"], .file paint 1), (["src", "b.json"], .file ⟨#[2]⟩ 1),
    (["out"], .directory), (["out", "a.css"], .file .empty 7)]⟩, []⟩

/-- The entry for the sources in their first form. -/
def paintStore : CacheStore :=
  let w := paintPlace ⟨#[0]⟩
  CacheStore.memory.replace
    ⟨"paint", 3, Keyed.sortedOf ((w.jsonEntries ⟨"src"⟩).map w.hashEntry)⟩

/-- With one of two sources edited the layer is built again because of it, although the source is
older than the output. -/
theorem decide_exact_edited :
    paintStore.decide (paintPlace ⟨#[1]⟩) "paint" ⟨"src"⟩ [⟨"out"⟩] =
      .rebuild (.sourceChanged ⟨"/src/a.json"⟩) := by
  have hw : (paintPlace ⟨#[1]⟩).tree.WellFormed := by decide
  have hv : (paintPlace ⟨#[0]⟩).tree.WellFormed := by decide
  have hdir : ∀ paint, (paintPlace paint).isDirectory ⟨"src"⟩ = true := fun _ => rfl
  have htarget : ∀ paint, (paintPlace paint).target ⟨"src"⟩ = ["src"] := by
    intro paint
    rw [target]
    rfl
  have htarget' : (paintPlace ⟨#[1]⟩).target ⟨"out"⟩ = ["out"] := by decide +kernel
  have hout : (paintPlace ⟨#[1]⟩).HoldsFile ⟨"out"⟩ :=
    ⟨rfl, ["out", "a.css"], htarget' ▸ by decide, .empty, 7, rfl⟩
  have hsource : ∀ paint, (paintPlace paint).Source ⟨"src"⟩ ["src", "a.json"] paint :=
    fun paint => ⟨hdir paint, htarget paint ▸ by decide,
      jsonAt_eq_some_iff.mpr ⟨by decide, 1, rfl⟩⟩
  have hothers : ∀ m content, m ≠ ["src", "a.json"] →
      ((paintPlace ⟨#[1]⟩).Source ⟨"src"⟩ m content ↔
        (paintPlace ⟨#[0]⟩).Source ⟨"src"⟩ m content) := by
    intro m content hm
    have hset : (paintPlace ⟨#[1]⟩).tree =
        (paintPlace ⟨#[0]⟩).tree.set ["src", "a.json"] (.file ⟨#[1]⟩ 1) := by decide
    have hjson : (paintPlace ⟨#[1]⟩).tree.jsonAt m = (paintPlace ⟨#[0]⟩).tree.jsonAt m := by
      rw [jsonAt, jsonAt, hset, lookup_set_of_ne (List.cons_ne_nil _ _) hm]
    rw [Source, Source, hjson, hdir, hdir, htarget, htarget]
  have hentry : paintStore.entry? "paint" = some ⟨"paint", 3, Keyed.sortedOf
      (((paintPlace ⟨#[0]⟩).jsonEntries ⟨"src"⟩).map (paintPlace ⟨#[0]⟩).hashEntry)⟩ := rfl
  obtain ⟨-, hreasons⟩ := decide_exact hw (List.cons_ne_nil _ _) hentry
    (fingerprint_eq hw ⟨"src"⟩)
  obtain ⟨-, hedit⟩ := hreasons (List.forall_mem_singleton.mpr hout)
  exact hedit _ _ _ _ hv (fingerprint_eq hv ⟨"src"⟩) (hsource _) (hsource _) (by decide)
    (by decide +kernel) hothers

end CacheStore

end DesignTokens
