import DesignTokens.Proofs.Build.Steady
import DesignTokens.Proofs.Layer.Mirror

/-!
Forced runs: each layer gets the result and the outputs of a build of its own, whatever becomes of the
others.
-/

namespace DesignTokens

open FileTree Place

namespace BuildContext

variable {c : BuildContext} {tokens : Path} {cache : Option Path} {kind : LayerKind}
  {kinds more : List LayerKind} {u v w : Place}

/-- The output directory, the tokens directory and the cache file do not overlap, and no way to one of
them leads through the outputs of a layer. -/
structure Detached (c : BuildContext) (tokens : Path) (cache : Option Path) (w : Place) : Prop where
  wellFormed : w.tree.WellFormed
  origin : w.tree.lookup (w.origin c.outputDir) = some .directory
  direct : c.Direct w
  sources : ¬ Overlap (w.target c.outputDir) (w.target tokens)
  cacheFile : ∀ p, cache = some p →
    ¬ Overlap (w.target c.outputDir) (w.target p) ∧ ¬ Overlap (w.target tokens) (w.target p)
  outputWay : ∀ l ∈ w.route c.outputDir, ¬ c.AllOutputs w l
  tokensWay : ∀ l ∈ w.route tokens, ¬ c.AllOutputs w l
  cacheWay : ∀ p, cache = some p → ∀ l ∈ w.wayTo p, ¬ c.AllOutputs w l

/-- What a run may change while it deals with some layers: their outputs, and places where nothing
was. -/
structure Undisturbed (c : BuildContext) (tokens : Path) (kinds : List LayerKind) (v w : Place) :
    Prop where
  current : w.current = v.current
  wellFormed : w.tree.WellFormed
  directories : ∀ l, ¬ c.AllOutputs v l → v.tree.lookup l = some .directory →
    w.tree.lookup l = some .directory
  sources : ∀ l, v.target tokens <+: l → (v.tree.lookup l).isSome →
    w.tree.lookup l = v.tree.lookup l
  files : ∀ l ∈ c.spine v, v.tree.IsFile l ↔ w.tree.IsFile l
  outputs : ∀ kind ∉ kinds, ∀ l, c.Outputs v kind.dirName l → w.tree.lookup l = v.tree.lookup l

theorem Undisturbed.refl (hwf : w.tree.WellFormed) : c.Undisturbed tokens kinds w w :=
  ⟨rfl, hwf, fun _ _ h => h, fun _ _ _ => rfl, fun _ _ => Iff.rfl, fun _ _ _ _ => rfl⟩

theorem Undisturbed.trans (huv : c.Undisturbed tokens kinds u v)
    (hvw : c.Undisturbed tokens more v w) : c.Undisturbed tokens (kinds ++ more) u w := by
  obtain ⟨hcurrent, hwf, hdirectories, hsources, hfiles, houtputs⟩ := hvw
  simp only [allOutputs_congr huv.current, target_congr huv.current, spine_congr huv.current,
    outputs_congr huv.current] at hdirectories hsources hfiles houtputs
  refine ⟨hcurrent.trans huv.current, hwf, ?_, ?_, ?_, ?_⟩
  · intro l hl hdir
    exact hdirectories l hl (huv.directories l hl hdir)
  · intro l hl hsome
    have hsame := huv.sources l hl hsome
    rw [← hsame] at hsome
    exact (hsources l hl hsome).trans hsame
  · intro l hl
    exact (huv.files l hl).trans (hfiles l hl)
  · intro kind hkind l hl
    rw [List.mem_append, not_or] at hkind
    exact (houtputs kind hkind.2 l hl).trans (huv.outputs kind hkind.1 l hl)

namespace Detached

theorem undisturbed (h : c.Detached tokens cache v) (hw : c.Undisturbed tokens kinds v w) :
    c.Detached tokens cache w := by
  obtain ⟨hcurrent, hwf, hdirectories, -, -, -⟩ := hw
  refine ⟨hwf, ?_, ?_, ?_, ?_, ?_, ?_, ?_⟩
  · rw [origin_congr hcurrent]
    exact hdirectories _ (h.outputWay _ (origin_mem_route _)) h.origin
  · intro l hl
    rw [route_congr hcurrent] at hl
    rw [target_congr hcurrent]
    exact (h.direct l hl).imp_right (hdirectories l (h.outputWay l hl))
  · rw [target_congr hcurrent, target_congr hcurrent]
    exact h.sources
  · intro p hp
    rw [target_congr hcurrent, target_congr hcurrent, target_congr hcurrent]
    exact h.cacheFile p hp
  · rw [route_congr hcurrent, allOutputs_congr hcurrent]
    exact h.outputWay
  · rw [route_congr hcurrent, allOutputs_congr hcurrent]
    exact h.tokensWay
  · intro p hp
    rw [wayTo_congr hcurrent, allOutputs_congr hcurrent]
    exact h.cacheWay p hp

theorem approach (h : c.Detached tokens cache w) (kind : LayerKind) :
    c.Approach kind.dirName w :=
  ⟨h.wellFormed, h.origin, h.direct, fun l hl hin => h.outputWay l hl ⟨kind, hin⟩⟩

theorem not_sources (h : c.Detached tokens cache w) {l : Location} (hl : w.target tokens <+: l) :
    ¬ w.target c.outputDir <+: l :=
  fun hin => h.sources (.of_common hin hl)

/-- The files of a layer are found again after builds of other layers. -/
theorem shared (h : c.Detached tokens cache v) (hdir : v.isDirectory tokens)
    (hw : c.Undisturbed tokens kinds v w) {flavor : String} {p : Path}
    (hp : p ∈ layerReads (Layer.ofKind v tokens flavor kind)) :
    c.Shared kind.dirName v w p := by
  obtain ⟨-, hpassable⟩ := isDirectory_iff.mp hdir
  intro l hl
  rcases Layer.route_of_mem_layerReads h.wellFormed hp l hl with hl | ⟨hin, hsome⟩
  · have hdirectory := hpassable l hl
    refine ⟨fun hin => h.tokensWay l hl ⟨kind, hin⟩, fun _ => hdirectory, ?_⟩
    rw [hdirectory, hw.directories l (h.tokensWay l hl) hdirectory]
  · exact ⟨fun hout => h.not_sources hin (below_of_outputs hout).1,
      h.direct.directory_of_spine h.sources hin, (hw.sources l hin hsome).symm⟩

theorem plain (h : c.Detached tokens cache v)
    (hcontents : ContentsBelow (v.target tokens) PlainContent v.tree) {flavor : String} {p : Path}
    (hp : p ∈ sourceReads (Layer.ofKind v tokens flavor kind)) {content : ByteArray} {modified : Nat}
    (hlookup : v.tree.lookup (v.target p) = some (.file content modified)) :
    PlainContent content := by
  obtain ⟨names, -, hnames, rfl, hends, -⟩ := Layer.exists_of_mem_sourceReads h.wellFormed hp
  rw [target_joinAll _ hnames, target_join _ kind.proper_dirName] at hlookup
  refine hcontents _ content ?_ (jsonAt_eq_some_iff.mpr ⟨hends, modified, hlookup⟩)
  rw [List.append_assoc]
  exact Below.append (List.cons_ne_nil _ _)

/-- A layer is built after others as it is built from the files that these started from. -/
theorem mirrored (h : c.Detached tokens cache v) (hdir : v.isDirectory tokens)
    (hcontents : ContentsBelow (v.target tokens) PlainContent v.tree)
    (hw : c.Undisturbed tokens kinds v w) (hkind : kind ∉ kinds) (flavor : String) {x y : Workspace}
    (hx : x.place = v) (hy : y.place = w) :
    let layer := Layer.ofKind v tokens flavor kind
    ((c.buildLayer layer).run x).1 = ((c.buildLayer layer).run y).1 ∧
      c.Mirrored kind.dirName v w ((c.buildLayer layer).run x).2.place
        ((c.buildLayer layer).run y).2.place := by
  intro layer
  have hname : layer.name = kind.dirName := Layer.name_ofKind v tokens flavor kind
  have halike : Alike (· ∈ c.spine v) (c.Outputs v kind.dirName) v.tree w.tree := by
    refine ⟨hw.files, ?_⟩
    intro l hl
    rw [contentAt, contentAt, hw.outputs kind hkind l hl]
  have hstart : c.Mirrored kind.dirName v w v w :=
    .refl (h.approach kind) ((h.undisturbed hw).approach kind) hw.current.symm halike
  subst hx hy
  rw [← hname] at hstart ⊢
  refine mirrored_buildLayer (Layer.plainLayer_ofKind h.wellFormed) hstart ?_ ?_
  · intro p hp
    rw [hname]
    exact h.shared hdir hw hp
  · intro p hp content modified hlookup
    exact h.plain hcontents hp hlookup

end Detached

end BuildContext

namespace Build

open BuildContext

variable {c : BuildContext} {tokens : Path} {cache : Option Path} {kind : LayerKind}
  {kinds more : List LayerKind} {flavor : String} {s t : BuildState} {x : Workspace}

/-- Layers have the results and the outputs that each of them gets from the workspace `x` on its
own. -/
structure Isolated (c : BuildContext) (tokens : Path) (flavor : String) (x : Workspace)
    (kinds : List LayerKind) (results : List LayerResult) (w : Place) : Prop where
  results : results = kinds.map fun kind =>
    ((c.buildLayer (Layer.ofKind x.place tokens flavor kind)).run x).1
  outputs : ∀ kind ∈ kinds, ∀ l, c.Outputs x.place kind.dirName l → w.tree.contentAt l =
    ((c.buildLayer (Layer.ofKind x.place tokens flavor kind)).run x).2.place.tree.contentAt l

/-- Later steps leave the outputs of a layer as they are. -/
theorem Isolated.cons {result : LayerResult} {results : List LayerResult} {v w : Place}
    (h : Isolated c tokens flavor x [kind] [result] v)
    (hrest : Isolated c tokens flavor x kinds results w)
    (hsame : ∀ l, c.Outputs x.place kind.dirName l → w.tree.lookup l = v.tree.lookup l) :
    Isolated c tokens flavor x (kind :: kinds) (result :: results) w := by
  refine ⟨?_, List.forall_mem_cons.mpr ⟨?_, hrest.outputs⟩⟩
  · rw [List.map_cons, ← hrest.results, List.cons.inj h.results |>.1]
  · intro l hl
    rw [contentAt, hsame l hl, ← contentAt]
    exact h.outputs kind List.mem_cons_self l hl

end Build

end DesignTokens
