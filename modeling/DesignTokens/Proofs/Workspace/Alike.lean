import DesignTokens.Proofs.Workspace.Directories

/-!
Trees that are alike at some locations: they have files at the same places there, or the same contents.
Making directories, writing a file or pruning in both of them goes the same way and keeps them alike.
-/

namespace DesignTokens

/-- The bytes of a file; none for a directory. -/
def Node.content? : Node → Option ByteArray
  | .directory => none
  | .file content _ => some content

namespace FileTree

/-- What is at a location, whenever it was written. -/
def contentAt (t : FileTree) (l : Location) : Option (Option ByteArray) :=
  (t.lookup l).map Node.content?

theorem contentAt_eq_directory_iff {t : FileTree} {l : Location} :
    t.contentAt l = some none ↔ t.lookup l = some .directory := by
  rw [contentAt]
  rcases t.lookup l with _ | ⟨_ | _⟩ <;> simp [Node.content?]

theorem isFile_iff_contentAt {t : FileTree} {l : Location} :
    t.IsFile l ↔ ∃ content, t.contentAt l = some (some content) := by
  rw [contentAt, IsFile]
  rcases t.lookup l with _ | ⟨_ | _⟩ <;> simp [Node.content?]

theorem contentAt_eq_none_iff {t : FileTree} {l : Location} :
    t.contentAt l = none ↔ t.lookup l = none := by
  rw [contentAt, Option.map_eq_none_iff]

theorem requireDirectory_eq_contentAt (t : FileTree) (l : Location) :
    t.requireDirectory l =
      match t.contentAt l with
      | some none => .ok ()
      | some (some _) => .error .notDirectory
      | none => .error .notFound := by
  rw [requireDirectory, contentAt]
  rcases t.lookup l with _ | ⟨_ | _⟩ <;> rfl

/-- The tree with a directory at a location where no file is. -/
def enter (t : FileTree) (l : Location) : FileTree :=
  if t.lookup l = none then t.set l .directory else t

theorem lookup_enter {t : FileTree} {l m : Location} (hl : ¬ t.IsFile l) :
    (t.enter l).lookup m = if m = l then some .directory else t.lookup m := by
  rw [enter]
  rcases hlookup : t.lookup l with _ | ⟨_ | _⟩
  · rw [if_pos rfl, lookup_set_directory_of_none hlookup]
  · rw [if_neg nofun]
    split
    · rename_i hm
      rw [hm, hlookup]
    · rfl
  · exact absurd ⟨_, _, hlookup⟩ hl

theorem openWay_cons_of_isFile {t : FileTree} {l : Location} (hl : t.IsFile l)
    (ls : List Location) : t.openWay (l :: ls) = (t, false) := by
  obtain ⟨content, modified, hlookup⟩ := hl
  rw [openWay, hlookup]

theorem openWay_cons_of_not_isFile {t : FileTree} {l : Location} (hl : ¬ t.IsFile l)
    (ls : List Location) : t.openWay (l :: ls) = (t.enter l).openWay ls := by
  rw [openWay, enter]
  rcases hlookup : t.lookup l with _ | ⟨_ | _⟩
  · rfl
  · rfl
  · exact absurd ⟨_, _, hlookup⟩ hl

theorem isFile_enter_iff {t : FileTree} {l m : Location} (hl : ¬ t.IsFile l) :
    (t.enter l).IsFile m ↔ t.IsFile m := by
  rw [IsFile, lookup_enter hl]
  split
  · rename_i hm
    rw [hm]
    refine iff_of_false ?_ hl
    rintro ⟨_, _, h⟩
    cases h
  · rfl

/-- Only a file ends a way. -/
theorem openWay_eq_false_iff {t : FileTree} {ls : List Location} :
    (t.openWay ls).2 = false ↔ ∃ l ∈ ls, t.IsFile l := by
  induction ls generalizing t with
  | nil => exact ⟨nofun, fun ⟨_, hl, _⟩ => absurd hl List.not_mem_nil⟩
  | cons l ls ih =>
      rw [List.exists_mem_cons_iff]
      by_cases hl : t.IsFile l
      · rw [openWay_cons_of_isFile hl]
        exact ⟨fun _ => .inl hl, fun _ => rfl⟩
      · rw [openWay_cons_of_not_isFile hl, ih, or_iff_right hl]
        simp only [isFile_enter_iff hl]

/-- Trees with files at the same places of one kind, and with the same contents at those of
another. -/
structure Alike (S R : Location → Prop) (t u : FileTree) : Prop where
  files : ∀ l, S l → (t.IsFile l ↔ u.IsFile l)
  contents : ∀ l, R l → t.contentAt l = u.contentAt l

namespace Alike

variable {S R : Location → Prop} {t u : FileTree}

theorem isFile_iff (h : Alike S R t u) {l : Location} (hl : S l ∨ R l) :
    t.IsFile l ↔ u.IsFile l := by
  rcases hl with hl | hl
  · exact h.files l hl
  · rw [isFile_iff_contentAt, isFile_iff_contentAt, h.contents l hl]

theorem directory_iff (h : Alike S R t u) {l : Location} (hl : R l) :
    t.lookup l = some .directory ↔ u.lookup l = some .directory := by
  rw [← contentAt_eq_directory_iff, ← contentAt_eq_directory_iff, h.contents l hl]

theorem of_lookup_eq (h : Alike S R t u) {t' u' : FileTree} {l : Location}
    {k k' : Node} (hk : k.content? = k'.content?)
    (ht : ∀ m, t'.lookup m = if m = l then some k else t.lookup m)
    (hu : ∀ m, u'.lookup m = if m = l then some k' else u.lookup m) : Alike S R t' u' := by
  have hcontent : ∀ m, t'.contentAt m = if m = l then some k.content? else t.contentAt m := by
    intro m
    rw [contentAt, ht]
    split <;> rfl
  have hcontent' : ∀ m, u'.contentAt m = if m = l then some k.content? else u.contentAt m := by
    intro m
    rw [contentAt, hu, hk]
    split <;> rfl
  constructor
  · intro m hm
    rw [isFile_iff_contentAt, isFile_iff_contentAt, hcontent, hcontent']
    by_cases hml : m = l
    · rw [if_pos hml, if_pos hml]
    · rw [if_neg hml, if_neg hml, ← isFile_iff_contentAt, ← isFile_iff_contentAt]
      exact h.files m hm
  · intro m hm
    rw [hcontent, hcontent', h.contents m hm]

/-- Opening a way goes equally far in both trees. -/
theorem openWay (h : Alike S R t u) {ls : List Location} (hls : ∀ l ∈ ls, S l ∨ R l) :
    (t.openWay ls).2 = (u.openWay ls).2 ∧ Alike S R (t.openWay ls).1 (u.openWay ls).1 := by
  induction ls generalizing t u with
  | nil => exact ⟨rfl, h⟩
  | cons l ls ih =>
      obtain ⟨hl, hrest⟩ := List.forall_mem_cons.mp hls
      have hfile := h.isFile_iff hl
      by_cases ht : t.IsFile l
      · rw [openWay_cons_of_isFile ht, openWay_cons_of_isFile (hfile.mp ht)]
        exact ⟨rfl, h⟩
      · have hu := mt hfile.mpr ht
        rw [openWay_cons_of_not_isFile ht, openWay_cons_of_not_isFile hu]
        refine ih ?_ hrest
        exact h.of_lookup_eq rfl (fun m => lookup_enter ht) (fun m => lookup_enter hu)

theorem set (h : Alike S R t u) {l : Location} (hl : l ≠ []) {k k' : Node}
    (hk : k.content? = k'.content?) : Alike S R (t.set l k) (u.set l k') :=
  h.of_lookup_eq hk (fun _ => lookup_set hl) (fun _ => lookup_set hl)

theorem prune (h : Alike S R t u) {l : Location} (hl : l ≠ []) :
    Alike S R (t.prune l) (u.prune l) := by
  constructor
  · intro m hm
    rw [IsFile, IsFile, lookup_prune hl, lookup_prune hl]
    split
    · rfl
    · exact h.files m hm
  · intro m hm
    rw [contentAt, contentAt, lookup_prune hl, lookup_prune hl]
    split
    · rfl
    · exact h.contents m hm

end Alike

end FileTree

namespace Place

open FileTree

variable {w v : Place} {p : Path}

theorem readText_eq_contentAt (w : Place) (p : Path) :
    w.readText p =
      match w.locate p with
      | .error e => .error e
      | .ok l =>
        match w.tree.contentAt l with
        | none => .error .notFound
        | some none => .error .isDirectory
        | some (some content) =>
          match String.fromUTF8? content with
          | some text => .ok text
          | none => .error .notText := by
  rw [readText_eq, node_eq]
  cases w.locate p with
  | error e => rfl
  | ok l =>
      dsimp only
      rw [contentAt]
      rcases w.tree.lookup l with _ | ⟨_ | _⟩ <;> rfl

/-- What is read at a path depends on the contents along it, whenever they were written. -/
theorem readText_congr_contentAt (hcurrent : w.current = v.current)
    (h : ∀ l ∈ w.route p, w.tree.contentAt l = v.tree.contentAt l) :
    w.readText p = v.readText p := by
  have hlocate : w.locate p = v.locate p := by
    refine locate_congr hcurrent fun l hl => ?_
    rw [requireDirectory_eq_contentAt, requireDirectory_eq_contentAt, h l hl]
  rw [readText_eq_contentAt, readText_eq_contentAt, ← hlocate]
  cases hl : w.locate p with
  | error e => rfl
  | ok l =>
      obtain ⟨-, -, -, rfl⟩ := locate_eq_ok_iff.mp hl
      dsimp only
      rw [h _ (target_mem_route p)]

end Place

end DesignTokens
