import DesignTokens.Proofs.Layer.Confinement
import DesignTokens.Proofs.Workspace.Obstacles

/-!
Two builds of one layer from places that are alike where the build looks: both have the same result,
down to the message of an error, and leave the same outputs.
-/

namespace DesignTokens

open FileTree Job

namespace BuildContext

variable {c : BuildContext} {layer : String} {w₀ v₀ w v : Place}

/-- Where a layer can be built: the way to the output directory goes down to it, or through
directories that the build does not remove. -/
structure Approach (c : BuildContext) (layer : String) (w : Place) : Prop where
  wellFormed : w.tree.WellFormed
  origin : w.tree.lookup (w.origin c.outputDir) = some .directory
  direct : c.Direct w
  way : ∀ l ∈ w.route c.outputDir, ¬ c.Outputs w layer l

/-- On the way to the outputs lie directories, or what the output directory lies below or above. -/
theorem Direct.overlap_of_spine (h : c.Direct w) {l : Location} (hl : l ∈ c.spine w) :
    Overlap (w.target c.outputDir) l ∨ w.tree.lookup l = some .directory := by
  rcases List.mem_append.mp hl with hl | hl
  · exact (h l hl).imp_left .inr
  · left
    rcases List.mem_pair.mp hl with rfl | rfl
    · exact .inl (List.prefix_append _ _)
    · exact .inl (List.prefix_append _ _)

/-- Where the output directory does not overlap another one, the way to the outputs leads through
directories there. -/
theorem Direct.directory_of_spine (h : c.Direct w) {m l : Location}
    (hapart : ¬ Overlap (w.target c.outputDir) m) (hm : m <+: l) (hl : l ∈ c.spine w) :
    w.tree.lookup l = some .directory := by
  refine (h.overlap_of_spine hl).resolve_left ?_
  rintro (hover | hover)
  · exact hapart (.of_common hover hm)
  · exact hapart (.inr (hm.trans hover))

theorem Approach.not_outputs (h : c.Approach layer w) {l : Location} (hl : l ∈ c.spine w) :
    ¬ c.Outputs w layer l := by
  rcases List.mem_append.mp hl with hl | hl
  · exact h.way l hl
  · rintro ⟨kind, -, hin⟩
    have hlength := hin.length_le
    rcases List.mem_pair.mp hl with rfl | rfl <;> simp at hlength

theorem Approach.framed (h : c.Approach layer v) (hframed : c.Framed layer v w)
    (hwf : w.tree.WellFormed) : c.Approach layer w := by
  have hroute := Place.route_congr hframed.current c.outputDir
  have hdirectory : ∀ l ∈ v.route c.outputDir, v.tree.lookup l = some .directory →
      w.tree.lookup l = some .directory := by
    intro l hl hdir
    rcases hframed.outside l (h.way l hl) with hsame | ⟨-, hnone, -⟩
    · exact hsame.trans hdir
    · cases hdir.symm.trans hnone
  refine ⟨hwf, ?_, ?_, ?_⟩
  · rw [Place.origin_congr hframed.current]
    exact hdirectory _ (Place.origin_mem_route _) h.origin
  · intro l hl
    rw [hroute] at hl
    rw [Place.target_congr hframed.current]
    exact (h.direct l hl).imp_right (hdirectory l hl)
  · rw [hroute, outputs_congr hframed.current]
    exact h.way

/-- Two courses of a build of a layer, from the files `w₀` and `v₀` on: their outputs are the same,
and files stand at the same places of the way to these. -/
structure Mirrored (c : BuildContext) (layer : String) (w₀ v₀ w v : Place) : Prop where
  approach : c.Approach layer w
  approach' : c.Approach layer v
  framed : c.Framed layer w₀ w
  framed' : c.Framed layer v₀ v
  current : w.current = v.current
  alike : Alike (· ∈ c.spine w₀) (c.Outputs w₀ layer) w.tree v.tree

namespace Mirrored

theorem refl (hw : c.Approach layer w) (hv : c.Approach layer v) (hcurrent : w.current = v.current)
    (halike : Alike (· ∈ c.spine w) (c.Outputs w layer) w.tree v.tree) :
    c.Mirrored layer w v w v :=
  ⟨hw, hv, .refl layer w, .refl layer v, hcurrent, halike⟩

theorem step (h : c.Mirrored layer w₀ v₀ w v) {w' v' : Place} (hw : c.Framed layer w w')
    (hv : c.Framed layer v v') (hwf : w'.tree.WellFormed) (hwf' : v'.tree.WellFormed)
    (halike : Alike (· ∈ c.spine w₀) (c.Outputs w₀ layer) w'.tree v'.tree) :
    c.Mirrored layer w₀ v₀ w' v' :=
  ⟨h.approach.framed hw hwf, h.approach'.framed hv hwf', h.framed.trans hw, h.framed'.trans hv,
    hw.current.trans (h.current.trans hv.current.symm), halike⟩

/-- The outputs and the way to them. -/
theorem mem_way (h : c.Mirrored layer w₀ v₀ w v) {kind : String} {names : List String}
    (hkind : kind = "css" ∨ kind = "ts")
    (hnames : ∀ name ∈ kind :: layer :: names, ProperName name) :
    ∀ l ∈ w.route (c.outputDir.joinAll (kind :: layer :: names)),
      l ∈ c.spine w₀ ∨ c.Outputs w₀ layer l := by
  intro l hl
  rw [← spine_congr h.framed.current, ← outputs_congr h.framed.current]
  exact BuildContext.mem_way hkind hnames hl

theorem outputs (h : c.Mirrored layer w₀ v₀ w v) {kind : String} (hkind : kind = "css" ∨ kind = "ts")
    (names : List String) : c.Outputs w₀ layer (w.target c.outputDir ++ kind :: layer :: names) := by
  rw [Place.target_congr h.framed.current]
  exact outputs_append hkind names

/-- The same error comes of the same file. -/
theorem obstacle_eq (h : c.Mirrored layer w₀ v₀ w v) {p : Path} (hp : c.OutputPath layer p) :
    w.obstacle p.above = v.obstacle p.above := by
  obtain ⟨kind, names, name, hkind, hnames, hname, rfl⟩ := hp
  have hway : ∀ u : Place,
      u.wayTo ((c.outputDir.joinAll (kind :: layer :: names)).join name).above ⊆
        u.route (c.outputDir.joinAll (kind :: layer :: names)) := by
    intro u
    rw [← Place.wayTo_join _ hname]
    exact Place.wayTo_above_subset _
  have horigin : ∀ u : Place, c.Approach layer u → u.tree.lookup
      (u.origin ((c.outputDir.joinAll (kind :: layer :: names)).join name).above) =
        some .directory := by
    intro u hu
    rw [Place.origin_above, Place.origin_join _ hname, Place.origin_joinAll _ hnames]
    exact hu.origin
  have hdirect := h.approach.direct.place.joinAll hnames
  have hdirect' := h.approach'.direct.place.joinAll hnames
  rw [Place.Direct, ← Place.target_congr h.current] at hdirect'
  refine Place.obstacle_congr h.current h.approach.wellFormed h.approach'.wellFormed
    (horigin w h.approach) (horigin v h.approach') (fun l hl => hdirect l (hway w hl))
    (fun l hl => hdirect' l (hway v hl)) ?_
  intro l hl
  exact h.alike.isFile_iff (h.mem_way hkind.cases hnames l (hway w hl))

end Mirrored

/-- Writing a file of a layer keeps two courses in step. -/
theorem mirrored_writeText {ε : Type} (refuseDirectory : Path → FileError → ε)
    (refuseFile : FileError → ε) {p : Path} (hp : c.OutputPath layer p) (text : String) :
    Lockstep id (fun x y => c.Mirrored layer w₀ v₀ x.place y.place) (fun _ => True)
      (writeText refuseDirectory refuseFile p text) := by
  intro x y h
  have hwf : ∀ z : Workspace, z.place.tree.WellFormed →
      (exec (writeText refuseDirectory refuseFile p text) z).2.place.tree.WellFormed := by
    intro z hz
    obtain ⟨tree, hrun, hwf, -⟩ := lookup_writeText refuseDirectory refuseFile p text z
    rw [hrun]
    exact hwf hz
  have hspine := spine_congr (c := c) h.framed.current
  have houtputs := outputs_congr (c := c) h.framed.current
  obtain ⟨halike, -, hsame⟩ := alike_writeText refuseDirectory refuseFile hp text
    h.approach.wellFormed h.approach'.wellFormed h.approach.origin h.approach'.origin h.current
    (by rw [hspine, houtputs]; exact h.alike)
  rw [hspine, houtputs] at halike
  refine ⟨congrArg (Except.mapError id) (hsame (h.obstacle_eq hp)), fun _ _ => trivial, ?_⟩
  exact h.step (framed_writeText refuseDirectory refuseFile hp text x)
    (framed_writeText refuseDirectory refuseFile hp text y) (hwf x h.approach.wellFormed)
    (hwf y h.approach'.wellFormed) halike

/-- Clearing the outputs of a layer keeps two courses in step. -/
theorem mirrored_clearDirectory {kind : String} (hkind : kind = "css" ∨ kind = "ts")
    (hlayer : ProperName layer) :
    Lockstep id (fun x y => c.Mirrored layer w₀ v₀ x.place y.place) (fun _ => True)
      (clearDirectory ((c.outputDir.join kind).join layer)) := by
  intro x y h
  have hmem := h.outputs hkind []
  have hne : x.place.target c.outputDir ++ [kind, layer] ≠ [] :=
    List.append_ne_nil_of_right_ne_nil _ (List.cons_ne_nil _ _)
  rw [exec_clearDirectory_eq (proper_kind hkind) hlayer h.approach.wellFormed h.approach.direct,
    exec_clearDirectory_eq (proper_kind hkind) hlayer h.approach'.wellFormed h.approach'.direct,
    ← Place.target_congr h.current]
  rcases hx : x.place.tree.lookup (x.place.target c.outputDir ++ [kind, layer]) with _ | ⟨_ | _⟩
  · have hcontent := h.alike.contents _ hmem
    rw [contentAt_eq_none_iff.mpr hx] at hcontent
    rw [contentAt_eq_none_iff.mp hcontent.symm]
    exact ⟨rfl, fun _ _ => trivial, h⟩
  · rw [(h.alike.directory_iff hmem).mp hx]
    refine ⟨rfl, fun _ _ => trivial, h.step (.prune hkind) ?_ h.approach.wellFormed.prune
      h.approach'.wellFormed.prune (h.alike.prune hne)⟩
    rw [Place.target_congr h.current]
    exact .prune hkind
  · obtain ⟨content, modified, hy⟩ := (h.alike.isFile_iff (.inr hmem)).mp ⟨_, _, hx⟩
    rw [hy]
    exact ⟨rfl, fun _ _ => trivial, h⟩

/-- What a build finds where it has written. -/
theorem Mirrored.node_content (h : c.Mirrored layer w₀ v₀ w v) {p : Path}
    (hp : c.OutputPath layer p) :
    (w.node p).map Node.content? = (v.node p).map Node.content? := by
  obtain ⟨kind, names, name, hkind, hnames, hname, rfl⟩ := hp
  have hway := h.mem_way hkind.cases hnames
  have hmem := h.outputs hkind.cases (names ++ [name])
  rw [← List.cons_append, ← List.cons_append, ← List.append_assoc] at hmem
  have hcontent := h.alike.contents _ hmem
  have hblocked : w.tree.blockage (w.route (c.outputDir.joinAll (kind :: layer :: names))) =
        some .notDirectory ↔
      v.tree.blockage (v.route (c.outputDir.joinAll (kind :: layer :: names))) =
        some .notDirectory := by
    rw [(h.approach.direct.place.joinAll hnames).blockage_eq_iff h.approach.wellFormed
        (by rw [Place.origin_joinAll _ hnames]; exact h.approach.origin),
      (h.approach'.direct.place.joinAll hnames).blockage_eq_iff h.approach'.wellFormed
        (by rw [Place.origin_joinAll _ hnames]; exact h.approach'.origin),
      ← Place.route_congr h.current]
    exact exists_congr fun l => and_congr_right fun hl => h.alike.isFile_iff (hway l hl)
  rw [(h.approach.direct.place.joinAll hnames).node_join h.approach.wellFormed hname,
    (h.approach'.direct.place.joinAll hnames).node_join h.approach'.wellFormed hname,
    Place.target_joinAll _ hnames, Place.target_joinAll _ hnames, ← Place.target_congr h.current]
  simp only [hblocked]
  rw [contentAt, contentAt] at hcontent
  generalize w.tree.lookup _ = left at hcontent ⊢
  generalize v.tree.lookup _ = right at hcontent ⊢
  cases left with
  | none => rw [Option.map_eq_none_iff.mp hcontent.symm]
  | some n =>
      obtain ⟨n', rfl, hn⟩ := Option.map_eq_some_iff.mp hcontent.symm
      exact congrArg Except.ok hn.symm

/-- Files that a build finds where another place has them too. -/
def Shared (c : BuildContext) (layer : String) (w₀ v₀ : Place) (p : Path) : Prop :=
  ∀ l ∈ w₀.route p, ¬ c.Outputs w₀ layer l ∧
    (l ∈ c.spine w₀ → w₀.tree.lookup l = some .directory) ∧
    w₀.tree.lookup l = v₀.tree.lookup l

theorem Framed.lookup_of_kept (h : c.Framed layer v w) {l : Location} (hout : ¬ c.Outputs v layer l)
    (hspine : l ∈ c.spine v → v.tree.lookup l = some .directory) :
    w.tree.lookup l = v.tree.lookup l := by
  rcases h.outside l hout with hsame | ⟨hmem, hnone, -⟩
  · exact hsame
  · cases (hspine hmem).symm.trans hnone

theorem Mirrored.lookup_eq (h : c.Mirrored layer w₀ v₀ w v) {p : Path}
    (hp : c.Shared layer w₀ v₀ p) {l : Location} (hl : l ∈ w₀.route p) :
    w.tree.lookup l = w₀.tree.lookup l ∧ w.tree.lookup l = v.tree.lookup l := by
  obtain ⟨hout, hspine, hsame⟩ := hp l hl
  have hcurrent : v₀.current = w₀.current :=
    h.framed'.current.symm.trans (h.current.symm.trans h.framed.current)
  have hw := h.framed.lookup_of_kept hout hspine
  refine ⟨hw, ?_⟩
  rw [← outputs_congr hcurrent] at hout
  rw [← spine_congr hcurrent, hsame] at hspine
  rw [hw, hsame, h.framed'.lookup_of_kept hout hspine]

section Layers

variable {layer : Layer}

/-- Two courses of a build keep in step if they read the same texts. -/
theorem tracks_mirrored (hlayer : PlainLayer layer)
    (hreads : ∀ w v, c.Mirrored layer.name w₀ v₀ w v → ∀ p ∈ layerReads layer,
      w.readText p = v.readText p)
    (hplain : ∀ w v, c.Mirrored layer.name w₀ v₀ w v → ∀ p ∈ sourceReads layer,
      ∀ content modified, w.tree.lookup (w.target p) = some (.file content modified) →
        PlainContent content) :
    Tracks id (fun x y => c.Mirrored layer.name w₀ v₀ x.place y.place) c layer
      (fun category => '/' ∉ category.toList) where
  report _ := fun _ _ h => ⟨rfl, fun _ _ => trivial, h⟩
  resolve {dependencies sources} hdependencies hsources := by
    intro x y h
    have hread : ∀ p ∈ dependencies ++ sources, x.place.readText p = y.place.readText p := by
      intro p hp
      refine hreads _ _ h p ?_
      rcases List.mem_append.mp hp with hp | hp
      · exact hdependencies hp
      · exact List.mem_append_right _ (hsources hp)
    rw [exec_resolveFiles, exec_resolveFiles, Place.dictionary_congr hread]
    refine ⟨rfl, ?_, h⟩
    intro d hd
    rw [← Place.dictionary_congr hread] at hd
    refine RawTokens.paths_of_sources (P := fun path => '/' ∉ (path.headD "").toList) hd ?_
    intro p hp text found htext hfound
    obtain ⟨content, modified, hlookup, hcontent⟩ := Place.exists_of_readText htext
    rw [← tokensIn_eq hcontent hfound]
    exact hplain _ _ h p (hsources hp) content modified hlookup
  write hp _ _ :=
    (mirrored_writeText _ _ (hp.outputPath hlayer fun _ => id) _).bind fun _ _ => .pure trivial
  node hp _ _ h := by
    rw [h.node_content (hp.outputPath hlayer fun _ => id)]

/-- Builds of a layer from places that are alike where the build looks have the same result and leave
the same outputs. -/
theorem mirrored_buildLayer (hlayer : PlainLayer layer) {x y : Workspace}
    (h : c.Mirrored layer.name x.place y.place x.place y.place)
    (hshared : ∀ p ∈ layerReads layer, c.Shared layer.name x.place y.place p)
    (hplain : ∀ p ∈ sourceReads layer, ∀ content modified,
      x.place.tree.lookup (x.place.target p) = some (.file content modified) →
        PlainContent content) :
    ((c.buildLayer layer).run x).1 = ((c.buildLayer layer).run y).1 ∧
      c.Mirrored layer.name x.place y.place ((c.buildLayer layer).run x).2.place
        ((c.buildLayer layer).run y).2.place := by
  have hjob : Lockstep id (fun x' y' => c.Mirrored layer.name x.place y.place x'.place y'.place)
      (fun _ => True) (c.buildJob layer) := by
    refine (tracks_mirrored hlayer ?_ ?_).buildJob ?_
    · intro w v h p hp
      refine Place.readText_congr (Place.node_congr h.current ?_)
      rw [Place.route_congr h.framed.current]
      exact fun l hl => (h.lookup_eq (hshared p hp) hl).2
    · intro w v h p hp content modified hlookup
      rw [Place.target_congr h.framed.current, (h.lookup_eq
        (hshared p (List.mem_append_right _ hp)) (Place.target_mem_route p)).1] at hlookup
      exact hplain p hp content modified hlookup
    rw [List.forall_mem_cons, List.forall_mem_singleton]
    exact ⟨mirrored_clearDirectory (.inl rfl) hlayer.name,
      mirrored_clearDirectory (.inr rfl) hlayer.name⟩
  obtain ⟨-, -, hend⟩ := hjob x y h
  rw [result_buildLayer, result_buildLayer, place_buildLayer, place_buildLayer, hjob.outcome_eq h]
  exact ⟨rfl, hend⟩

end Layers

end BuildContext

end DesignTokens
