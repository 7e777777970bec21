import DesignTokens.Proofs.Cache.Decision
import DesignTokens.Proofs.Workspace.Operations

/-!
Changes that make directories where nothing was, write files at the present time, and remove things
from one region only. Some files are spared: nothing is written in their place.
-/

namespace DesignTokens

open FileTree

/-- What a change may put in the place of a node. In a free place anything may be removed; a file is
written, at a certain time, where nothing is spared. -/
inductive Reworks (free spared : Prop) (time : Nat) : Option Node → Option Node → Prop
  | same (n : Option Node) : Reworks free spared time n n
  | opened {n : Option Node} (h : n = none ∨ free) : Reworks free spared time n (some .directory)
  | written {n : Option Node} (content : ByteArray) (h : n ≠ some .directory ∨ free)
    (hspared : ¬ spared) : Reworks free spared time n (some (.file content time))
  | removed {n : Option Node} (h : free) : Reworks free spared time n none

namespace Reworks

variable {free spared : Prop} {time : Nat} {k n m : Option Node}

theorem trans (hkn : Reworks free spared time k n) (hnm : Reworks free spared time n m) :
    Reworks free spared time k m := by
  cases hnm with
  | same => exact hkn
  | opened h =>
      refine .opened ?_
      rcases h with rfl | hfree
      · cases hkn with
        | same => exact .inl rfl
        | removed hfree => exact .inr hfree
      · exact .inr hfree
  | written content h hspared =>
      refine .written content ?_ hspared
      rcases h with hne | hfree
      · cases hkn with
        | same => exact .inl hne
        | opened => exact absurd rfl hne
        | written _ h _ => exact h
        | removed hfree => exact .inr hfree
      · exact .inr hfree
  | removed hfree => exact .removed hfree

theorem mono {free' : Prop} (hfree : free → free') (h : Reworks free spared time n m) :
    Reworks free' spared time n m := by
  cases h with
  | same => exact .same n
  | opened h => exact .opened (h.imp_right hfree)
  | written content h hspared => exact .written content (h.imp_right hfree) hspared
  | removed h => exact .removed (hfree h)

theorem directory (h : Reworks free spared time (some .directory) m) (hfree : ¬ free) :
    m = some .directory := by
  cases h with
  | same => rfl
  | opened => rfl
  | written _ h _ => exact absurd rfl (h.resolve_right hfree)
  | removed h => exact absurd h hfree

theorem isFile (h : Reworks free spared time n m) (hfree : ¬ free)
    (hn : ∃ content modified, n = some (.file content modified)) :
    ∃ content modified, m = some (.file content modified) := by
  cases h with
  | same => exact hn
  | opened h =>
      obtain ⟨content, modified, rfl⟩ := hn
      exact absurd (h.resolve_right hfree) nofun
  | written content => exact ⟨content, time, rfl⟩
  | removed h => exact absurd h hfree

/-- A file that is spared stays, and none comes in its place, unless its place is free. -/
theorem file_iff (h : Reworks free spared time n m) (hspared : spared)
    (hfree : free → ∀ content modified, n ≠ some (.file content modified)) {content : ByteArray}
    {modified : Nat} : m = some (.file content modified) ↔ n = some (.file content modified) := by
  cases h with
  | same => rfl
  | opened h =>
      refine iff_of_false nofun ?_
      rcases h with rfl | h
      · exact nofun
      · exact hfree h content modified
  | written _ _ h => exact absurd hspared h
  | removed h => exact iff_of_false nofun (hfree h content modified)

theorem modified (h : Reworks free spared time n m) {t : Nat}
    (hm : m.bind Node.modified? = some t) : n.bind Node.modified? = some t ∨ t = time := by
  cases h with
  | same => exact .inl hm
  | opened => exact absurd hm nofun
  | written => exact .inr (Option.some.inj hm).symm
  | removed => exact absurd hm nofun

end Reworks

/-- A change that removes things from a region only and writes nothing in place of spared files. -/
structure Reworked (region spared : Location → Prop) (time : Nat) (v w : Place) : Prop where
  current : w.current = v.current
  wellFormed : v.tree.WellFormed → w.tree.WellFormed
  lookup : ∀ l, Reworks (region l) (spared l) time (v.tree.lookup l) (w.tree.lookup l)

namespace Reworked

variable {region spared : Location → Prop} {time : Nat} {u v w : Place} {l : Location}

theorem refl (w : Place) : Reworked region spared time w w :=
  ⟨rfl, id, fun _ => .same _⟩

theorem trans (huv : Reworked region spared time u v) (hvw : Reworked region spared time v w) :
    Reworked region spared time u w :=
  ⟨hvw.current.trans huv.current, fun h => hvw.wellFormed (huv.wellFormed h),
    fun l => (huv.lookup l).trans (hvw.lookup l)⟩

theorem mono {region' : Location → Prop} (hregion : ∀ l, region l → region' l)
    (h : Reworked region spared time v w) : Reworked region' spared time v w :=
  ⟨h.current, h.wellFormed, fun l => (h.lookup l).mono (hregion l)⟩

theorem directory (h : Reworked region spared time v w) (hl : ¬ region l)
    (hdir : v.tree.lookup l = some .directory) : w.tree.lookup l = some .directory :=
  (hdir ▸ h.lookup l).directory hl

theorem isFile (h : Reworked region spared time v w) (hl : ¬ region l) (hfile : v.tree.IsFile l) :
    w.tree.IsFile l :=
  (h.lookup l).isFile hl hfile

theorem file_iff (h : Reworked region spared time v w) (hspared : spared l)
    (hregion : region l → ¬ v.tree.IsFile l) {content : ByteArray} {modified : Nat} :
    w.tree.lookup l = some (.file content modified) ↔
      v.tree.lookup l = some (.file content modified) :=
  (h.lookup l).file_iff hspared fun hin content modified hfile =>
    hregion hin ⟨content, modified, hfile⟩

theorem modifiedAt (h : Reworked region spared time v w) {t : Nat}
    (ht : w.tree.modifiedAt l = some t) : v.tree.modifiedAt l = some t ∨ t = time :=
  (h.lookup l).modified ht

theorem modifiedAt_of_spared (h : Reworked region spared time v w) (hspared : spared l)
    (hregion : region l → ¬ v.tree.IsFile l) : w.tree.modifiedAt l = v.tree.modifiedAt l := by
  have hiff : ∀ t : FileTree, ∀ time, t.modifiedAt l = some time ↔
      ∃ content, t.lookup l = some (.file content time) := by
    intro t time
    rw [FileTree.modifiedAt]
    rcases t.lookup l with _ | ⟨_ | _⟩ <;> simp [Node.modified?]
  apply Option.ext
  intro time
  simp only [hiff, h.file_iff hspared hregion]

theorem jsonAt_of_spared (h : Reworked region spared time v w) (hspared : spared l)
    (hregion : region l → ¬ v.tree.IsFile l) : w.tree.jsonAt l = v.tree.jsonAt l := by
  apply Option.ext
  intro content
  simp only [jsonAt_eq_some_iff, h.file_iff hspared hregion]

/-- A file that is spared is found only where it was before. -/
theorem lookup_of_file (h : Reworked region spared time v w) (hspared : spared l)
    {content : ByteArray} {modified : Nat}
    (hfile : w.tree.lookup l = some (.file content modified)) :
    v.tree.lookup l = some (.file content modified) := by
  have hlookup := h.lookup l
  rw [hfile] at hlookup
  generalize hn : some (Node.file content modified) = n at hlookup
  cases hlookup with
  | same => rfl
  | opened => cases hn
  | written _ _ hnot => exact absurd hspared hnot
  | removed => cases hn

/-- A spared file is found where it was, if nothing is removed. -/
theorem node_of_spared (h : Reworked (fun _ => False) spared time v w) {p : Path}
    {content : ByteArray} {modified : Nat} (hspared : spared (v.target p))
    (hnode : v.node p = .ok (.file content modified)) : w.node p = .ok (.file content modified) := by
  have hplace : (⟨w.tree, v.current⟩ : Place) = w := by rw [← h.current]
  rw [← hplace]
  exact Place.node_of_stays (fun l hl => h.directory id hl)
    (h.file_iff hspared False.elim).mpr hnode

/-- Where a way leads through directories, it still does, unless one of them could be removed. -/
theorem isDirectory (h : Reworked region spared time v w) {p : Path}
    (hway : ∀ l ∈ v.route p, ¬ region l) (hp : v.isDirectory p) : w.isDirectory p := by
  obtain ⟨htext, hpassable⟩ := Place.isDirectory_iff.mp hp
  rw [Place.isDirectory_iff, Place.route_congr h.current]
  exact ⟨htext, fun l hl => h.directory (hway l hl) (hpassable l hl)⟩

theorem of_opened {t : FileTree} (h : Opened w.tree t) :
    Reworked region spared time w ⟨t, w.current⟩ := by
  refine ⟨rfl, h.wellFormed, ?_⟩
  intro l
  rcases h.lookup l with hsame | ⟨hnone, hdir⟩
  · change Reworks _ _ _ _ (t.lookup l)
    rw [hsame]
    exact .same _
  · change Reworks _ _ _ _ (t.lookup l)
    rw [hnone, hdir]
    exact .opened (.inl rfl)

theorem of_write {p : Path} {content : ByteArray} {t : FileTree}
    (h : w.write p content time = .ok t) (hspared : ¬ spared (w.target p)) :
    Reworked region spared time w ⟨t, w.current⟩ := by
  refine ⟨rfl, fun hwf => Place.wellFormed_write hwf h, ?_⟩
  obtain ⟨l, name, -, htarget, -, hfree, rfl⟩ := Place.write_eq_ok h
  intro m
  rw [lookup_set (List.append_ne_nil_of_right_ne_nil l (List.cons_ne_nil name []))]
  split
  · rename_i hm
    rw [hm]
    exact .written content (.inl hfree) (htarget ▸ hspared)
  · exact .same _

end Reworked

/-- Where a job starts in a certain directory, it only reworks the files there. -/
def Reworking (start : Location) (region spared : Location → Prop) (x y : Workspace) : Prop :=
  x.place.current = start → y.stamp = x.stamp ∧ Reworked region spared x.stamp x.place y.place

namespace Reworking

open Job

variable {ε : Type} {start : Location} {region spared : Location → Prop}

theorem chain : Chain (Reworking start region spared) where
  refl x _ := ⟨rfl, .refl x.place⟩
  trans hxy hyz hx := by
    obtain ⟨hstamp, hreworked⟩ := hxy hx
    obtain ⟨hstamp', hreworked'⟩ := hyz (hreworked.current.trans hx)
    exact ⟨hstamp'.trans hstamp, hreworked.trans (hstamp ▸ hreworked')⟩
  report x _ _ := ⟨rfl, .refl x.place⟩

theorem writeText (refuseDirectory : Path → FileError → ε) (refuseFile : FileError → ε) {p : Path}
    (text : String) (hspared : ∀ w : Place, w.current = start → ¬ spared (w.target p)) :
    Within (Reworking start region spared) (Job.writeText refuseDirectory refuseFile p text) :=
  chain.writeText refuseDirectory refuseFile text
    (fun _ _ hopened _ => ⟨rfl, .of_opened hopened⟩)
    (fun x _ hwrite hx => ⟨rfl, .of_write hwrite (hspared x.place hx)⟩)

end Reworking

end DesignTokens
