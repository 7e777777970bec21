import DesignTokens.Proofs.Layer.Additions
import DesignTokens.Proofs.Layer.Mirror

/-!
Building a layer anew: the result and the outputs do not depend on what lay among the outputs
before, and a build that succeeds reports just what it leaves there. This takes a way to the output
directory that does not lead through the outputs of the layer and leaves only directories that are
there. Otherwise old outputs are not found, and stay.
-/

namespace DesignTokens

open FileTree Job

namespace BuildContext

variable {c : BuildContext} {layer kind : String} {u w : Place} {x y : Workspace}

/-- Files from which a layer is built again: they are the files `u`, but for the outputs of the
layer and directories on the way to these. No file stands in the place of an output directory. -/
structure Prior (c : BuildContext) (layer : String) (u w : Place) : Prop where
  wellFormed : w.tree.WellFormed
  framed : c.Framed layer u w
  free : ∀ kind, kind = "css" ∨ kind = "ts" →
    ¬ w.tree.IsFile (w.target c.outputDir ++ [kind, layer])

/-- Such files without any outputs of the layer. -/
structure Cleared (c : BuildContext) (layer : String) (u w : Place) : Prop where
  wellFormed : w.tree.WellFormed
  framed : c.Framed layer u w
  empty : ∀ l, c.Outputs u layer l → w.tree.lookup l = none

theorem Prior.clearDirectory (h : c.Prior layer u x.place) (hu : c.Approach layer u)
    (hkind : kind = "css" ∨ kind = "ts") (hlayer : ProperName layer) :
    ∃ after, exec (BuildContext.clearDirectory ((c.outputDir.join kind).join layer)) x =
        (.ok (), after) ∧
      c.Prior layer u after.place ∧
      ∀ l, after.place.tree.lookup l =
        if u.target c.outputDir ++ [kind, layer] <+: l then none else x.place.tree.lookup l := by
  have hdirect := (hu.framed h.framed h.wellFormed).direct
  obtain ⟨after, hrun⟩ := exec_clearDirectory_of_not_isFile (proper_kind hkind) hlayer h.wellFormed
    hdirect (h.free kind hkind)
  obtain ⟨tree, rfl, hwf, hlookup⟩ := exec_clearDirectory (proper_kind hkind) hlayer h.wellFormed
    hdirect hrun
  refine ⟨_, hrun, ⟨hwf, h.framed.trans ⟨rfl, fun l hl => .inl ?_⟩, ?_⟩, ?_⟩
  · exact (hlookup l).trans (if_neg fun hin => hl ⟨kind, hkind, hin⟩)
  · rintro other hother ⟨content, modified, hfile⟩
    rw [withTree_place, Place.target_mk, hlookup] at hfile
    split at hfile
    · cases hfile
    · exact h.free other hother ⟨content, modified, hfile⟩
  · rw [← Place.target_congr h.framed.current]
    exact hlookup

/-- From such files on, a build clears the outputs and goes on from there. -/
theorem Prior.exec_buildJob {layer : Layer} (h : c.Prior layer.name u x.place)
    (hu : c.Approach layer.name u) (hlayer : ProperName layer.name) :
    ∃ cleared : Workspace, c.Cleared layer.name u cleared.place ∧
      exec (c.buildJob layer) x = exec (c.writeOutputs layer >>= measure) cleared := by
  obtain ⟨between, hcss, hbetween, hlookup⟩ := h.clearDirectory hu (.inl rfl) hlayer
  obtain ⟨cleared, hts, hcleared, hlookup'⟩ := hbetween.clearDirectory hu (.inr rfl) hlayer
  refine ⟨cleared, ⟨hcleared.wellFormed, hcleared.framed, ?_⟩, ?_⟩
  · rintro l ⟨kind, rfl | rfl, hin⟩
    · rw [hlookup', hlookup, if_pos hin, ite_self]
    · rw [hlookup', if_pos hin]
  · rw [buildJob_eq, exec_bind, cssDir, tsDir, exec_bind, hcss]
    dsimp only
    rw [hts]

theorem Cleared.mirrored (hx : c.Cleared layer u x.place) (hy : c.Cleared layer u y.place)
    (hu : c.Approach layer u) : c.Mirrored layer x.place y.place x.place y.place := by
  refine .refl (hu.framed hx.framed hx.wellFormed) (hu.framed hy.framed hy.wellFormed)
    (hx.framed.current.trans hy.framed.current.symm) ⟨fun l hl => ?_, fun l hl => ?_⟩
  · rw [spine_congr hx.framed.current] at hl
    have hout := hu.not_outputs hl
    rw [hx.framed.isFile_iff hout, hy.framed.isFile_iff hout]
  · rw [outputs_congr hx.framed.current] at hl
    rw [contentAt, contentAt, hx.empty l hl, hy.empty l hl]

/-- A build makes files only where names have an extension. -/
theorem isFile_of_buildLayer {layer : Layer} (hlayer : ProperName layer.name) {l : Location}
    {name : String} (hl : l.getLast? = some name) (hname : '.' ∉ name.toList)
    (hfile : ((c.buildLayer layer).run x).2.place.tree.IsFile l) : x.place.tree.IsFile l := by
  have hspared : ∀ {p : Path}, Generated.Named p → ∀ w : Place,
      (w.target p).getLast? ≠ some name := by
    intro p hp w hlast
    obtain ⟨start, ext, -, -, hext⟩ := hp.getLast?_target w
    obtain rfl := Option.some.inj (hext.symm.trans hlast)
    rw [String.toList_ofList] at hname
    exact hname (List.mem_append_right _ List.mem_cons_self)
  have hclear : ∀ dir ∈ [c.cssDir layer.name, c.tsDir layer.name],
      Within (Reworking x.place.current (c.Outputs x.place layer.name) (·.getLast? = some name))
        (BuildContext.clearDirectory dir) := by
    rw [List.forall_mem_cons, List.forall_mem_singleton]
    exact ⟨reworking_clearDirectory x.place (.inl rfl) hlayer,
      reworking_clearDirectory x.place (.inr rfl) hlayer⟩
  obtain ⟨-, hreworked⟩ := run_buildLayer_within Reworking.chain c layer
    (fun p hp => reworking_write fun w _ => hspared hp w) hclear x rfl
  obtain ⟨content, modified, hlookup⟩ := hfile
  exact ⟨content, modified, hreworked.lookup_of_file hl hlookup⟩

section Discovered

variable {tokens : Path} {flavor : String} {kind : LayerKind}
  (hu : c.Approach kind.dirName u) (hdir : u.isDirectory tokens)
  (hapart : ¬ Overlap (u.target c.outputDir) (u.target tokens))
  (hplain : ∀ p ∈ sourceReads (Layer.ofKind u tokens flavor kind), ∀ content modified,
    u.tree.lookup (u.target p) = some (.file content modified) → PlainContent content)

include hu hdir hapart hplain

/-- Without old outputs, a layer is built in the same way wherever it is. -/
theorem tracks_cleared (hx : c.Cleared kind.dirName u x.place)
    (hy : c.Cleared kind.dirName u y.place) :
    Tracks id (fun x' y' => c.Mirrored kind.dirName x.place y.place x'.place y'.place) c
      (Layer.ofKind u tokens flavor kind) (fun category => '/' ∉ category.toList) := by
  have hname : (Layer.ofKind u tokens flavor kind).name = kind.dirName := Layer.name_ofKind ..
  rw [← hname]
  refine tracks_mirrored (Layer.plainLayer_ofKind hu.wellFormed) ?_ ?_
  · intro w v h p hp
    rw [hname] at h
    have hw := hx.framed.trans h.framed
    have hv := hy.framed.trans h.framed'
    refine Place.readText_congr_contentAt h.current fun l hl => ?_
    rw [Place.route_congr hw.current] at hl
    by_cases hout : c.Outputs u kind.dirName l
    · -- a way through the outputs finds what both builds have made there
      rw [← outputs_congr hx.framed.current] at hout
      exact h.alike.contents l hout
    · have hspine : l ∈ c.spine u → u.tree.lookup l = some .directory := by
        intro hspine
        rcases Layer.route_of_mem_layerReads hu.wellFormed hp l hl with hl | ⟨hin, -⟩
        · exact (Place.isDirectory_iff.mp hdir).2 l hl
        · exact hu.direct.directory_of_spine hapart hin hspine
      rw [contentAt, contentAt, hw.lookup_of_kept hout hspine, hv.lookup_of_kept hout hspine]
  · intro w v h p hp content modified hlookup
    rw [hname] at h
    have hw := hx.framed.trans h.framed
    have hin := (Layer.below_of_mem_layerReads hu.wellFormed (List.mem_append_right _ hp)).1
    rw [Place.target_congr hw.current, hw.lookup_of_kept
      (fun hout => hapart (.of_common (below_of_outputs hout).1 hin))
      (hu.direct.directory_of_spine hapart hin)] at hlookup
    exact hplain p hp content modified hlookup

/-- The outcome of a build and its outputs do not depend on old outputs, and the layer can be built
from there again. -/
theorem Prior.buildLayer (hx : c.Prior kind.dirName u x.place)
    (hy : c.Prior kind.dirName u y.place) :
    let layer := Layer.ofKind u tokens flavor kind
    ((c.buildLayer layer).run x).1 = ((c.buildLayer layer).run y).1 ∧
      (∀ l, c.Outputs u kind.dirName l → ((c.buildLayer layer).run x).2.place.tree.contentAt l =
        ((c.buildLayer layer).run y).2.place.tree.contentAt l) ∧
      c.Prior kind.dirName u ((c.buildLayer layer).run x).2.place := by
  intro layer
  have hname : layer.name = kind.dirName := Layer.name_ofKind ..
  have hproper : ProperName layer.name := (Layer.plainLayer_ofKind hu.wellFormed).name
  obtain ⟨x', hx', hrun⟩ := Prior.exec_buildJob (hname ▸ hx) (hname ▸ hu) hproper
  obtain ⟨y', hy', hrun'⟩ := Prior.exec_buildJob (hname ▸ hy) (hname ▸ hu) hproper
  rw [hname] at hx' hy'
  have hstart := hx'.mirrored hy' hu
  have hbuild := (tracks_cleared hu hdir hapart hplain hx' hy').outputs
  obtain ⟨-, -, hend⟩ := hbuild x' y' hstart
  have hfree : ∀ sub, sub = "css" ∨ sub = "ts" → ¬ ((c.buildLayer layer).run x).2.place.tree.IsFile
      (x.place.target c.outputDir ++ [sub, kind.dirName]) := by
    intro sub hsub hfile
    have hlast : (x.place.target c.outputDir ++ [sub, kind.dirName]).getLast? =
        some kind.dirName := by
      simp
    refine hx.free sub hsub (isFile_of_buildLayer hproper hlast ?_ hfile)
    cases kind <;> decide
  rw [result_buildLayer, result_buildLayer, place_buildLayer, place_buildLayer, hrun, hrun',
    hbuild.outcome_eq hstart]
  rw [place_buildLayer, hrun] at hfree
  refine ⟨rfl, ?_, hend.approach.wellFormed, hx'.framed.trans hend.framed, ?_⟩
  · intro l hl
    rw [← outputs_congr hx'.framed.current] at hl
    exact hend.alike.contents l hl
  · rwa [Place.target_congr (hend.framed.current.trans
      (hx'.framed.current.trans hx.framed.current.symm))]

/-- A build that succeeds reports the files of the output directories, with their sizes. -/
theorem Prior.listed (hx : c.Prior kind.dirName u x.place)
    (hsuccess : ((c.buildLayer (Layer.ofKind u tokens flavor kind)).run x).1.success) :
    let built := (c.buildLayer (Layer.ofKind u tokens flavor kind)).run x
    (∀ p, p ∈ built.1.files.map OutputFile.path ↔
        ∃ dir ∈ [c.cssDir kind.dirName, c.tsDir kind.dirName], ∃ l,
          (p, l) ∈ built.2.place.filesBelow dir) ∧
      (∀ file ∈ built.1.files, ∃ content, built.2.place.read file.path = .ok content ∧
        file.size = content.size) ∧
      built.1.totalBytes = (built.1.files.map OutputFile.size).foldr (· + ·) 0 := by
  have hname : (Layer.ofKind u tokens flavor kind).name = kind.dirName := Layer.name_ofKind ..
  have hlayer : PlainLayer (Layer.ofKind u tokens flavor kind) :=
    Layer.plainLayer_ofKind hu.wellFormed
  obtain ⟨files, after, hjob, hbuilt⟩ := run_of_success hsuccess
  rw [hbuilt]
  obtain ⟨cleared, hcleared, hrun⟩ := Prior.exec_buildJob (hname ▸ hx) (hname ▸ hu) hlayer.name
  rw [hname] at hcleared
  rw [hrun] at hjob
  obtain ⟨written, _, hwrite, hmeasure⟩ := exec_bind_eq_ok.mp hjob
  obtain ⟨rfl, rfl, hsizes⟩ := exec_measure hmeasure
  have hadded := added_writeOutputs hwrite
  obtain ⟨-, hwritten, hend⟩ := (tracks_cleared hu hdir hapart hplain hcleared
    hcleared).writeOutputs cleared cleared (hcleared.mirrored hcleared hu)
  rw [hwrite] at hwritten hend
  have hpaths : ∀ p ∈ files.map OutputFile.path, c.OutputPath kind.dirName p :=
    fun p hp => hname ▸ (hwritten _ rfl p hp).outputPath hlayer fun _ => id
  have hfiles : ∀ l, c.Outputs after.place kind.dirName l →
      (after.place.tree.IsFile l ↔ ∃ p ∈ files.map OutputFile.path, after.place.target p = l) := by
    intro l hl
    have hcurrent := hadded.current.trans hcleared.framed.current
    rw [outputs_congr hcurrent] at hl
    rw [hadded.files l, or_iff_right]
    · simp only [Place.target_congr hadded.current]
    · rintro ⟨content, modified, hlookup⟩
      cases (hcleared.empty l hl).symm.trans hlookup
  refine ⟨fun p => ?_, fun file hfile => ?_, rfl⟩
  · exact mem_iff_listed hend.approach.wellFormed hend.approach.direct kind.proper_dirName hpaths
      hfiles
  · obtain ⟨n, hnode, hsize⟩ := hsizes file hfile
    have hthere : after.place.tree.IsFile (after.place.target file.path) := by
      rw [Place.target_congr hadded.current]
      exact (hadded.files _).mpr (.inr ⟨_, List.mem_map_of_mem hfile, rfl⟩)
    obtain ⟨content, modified, hlookup⟩ := hthere
    obtain rfl := Option.some.inj ((Place.node_eq_ok_iff.mp hnode).2.symm.trans hlookup)
    exact ⟨content, Place.read_eq_ok_iff.mpr ⟨modified, hnode⟩, hsize⟩

end Discovered

end BuildContext

end DesignTokens
