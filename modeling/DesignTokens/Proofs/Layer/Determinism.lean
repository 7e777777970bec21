import DesignTokens.Proofs.Layer.Traversal

/-!
Two builds of one layer, from the same texts on, leave the same outputs, whatever else was there
before.
-/

namespace DesignTokens

namespace BuildContext

open FileTree Job

/-- Two courses of a build of a layer, from the files `w₀` and `v₀` on: their outputs are the same
so far. -/
structure Twin (c : BuildContext) (layer : String) (w₀ v₀ w v : Place) : Prop where
  ready : c.Ready w
  ready' : c.Ready v
  framed : c.Framed layer w₀ w
  framed' : c.Framed layer v₀ v
  current : w.current = v.current
  alike : Alike (· ∈ c.spine w₀) (c.Outputs w₀ layer) w.tree v.tree
  untyped : c.typedModules = false → ∀ l, w₀.target c.outputDir ++ ["ts", layer] <+: l →
    w.tree.lookup l = none

variable {c : BuildContext} {layer : String} {w₀ v₀ w v : Place} {kind name : String}
  {names : List String}

theorem Ready.writeText {ε : Type} (refuseDirectory : Path → FileError → ε)
    (refuseFile : FileError → ε) {p : Path} (hp : c.OutputPath layer p) (text : String)
    {x : Workspace} (h : c.Ready x.place) :
    c.Ready (exec (Job.writeText refuseDirectory refuseFile p text) x).2.place := by
  obtain ⟨kind, names, name, hkind, hnames, hname, rfl⟩ := hp
  have hready := h.openWay hnames
  rcases hopen : x.place.tree.openWay
      (x.place.route (c.outputDir.joinAll (kind :: layer :: names))) with ⟨t, clear⟩
  rw [exec_writeText_join refuseDirectory refuseFile hname text h.wellFormed
    (by rw [Place.origin_joinAll _ hnames]; exact h.origin) hopen]
  rw [hopen] at hready
  cases clear with
  | false => exact hready
  | true =>
      have hpassable := passable_openWay (congrArg Prod.snd hopen)
      rw [hopen] at hpassable
      rw [Place.target_joinAll _ hnames]
      simp only [if_true]
      split
      · exact hready
      · rename_i hfree
        have hset := hready.set hnames hname (by rw [Place.route_mk t x.place]; exact hpassable)
          (by rw [Place.target_mk t x.place]; exact hfree) text.toUTF8 x.stamp
        rwa [Place.target_mk t x.place] at hset

/-- Where no typed modules are wanted, none are written. -/
theorem Ready.typed_writeText {ε : Type} (refuseDirectory : Path → FileError → ε)
    (refuseFile : FileError → ε) {p : Path} (hp : c.OutputPath layer p) (text : String)
    {x : Workspace} (h : c.Ready x.place) (htyped : c.typedModules = false) {l : Location}
    (hl : x.place.target c.outputDir ++ ["ts", layer] <+: l)
    (hnone : x.place.tree.lookup l = none) :
    (exec (Job.writeText refuseDirectory refuseFile p text) x).2.place.tree.lookup l = none := by
  obtain ⟨kind, names, name, hkind, hnames, hname, rfl⟩ := hp
  obtain ⟨tree, hrun, -, hlookup⟩ := lookup_writeText refuseDirectory refuseFile
    ((c.outputDir.joinAll (kind :: layer :: names)).join name) text x
  rw [hrun]
  rcases hlookup l with hsame | ⟨hmem, -, -⟩ | ⟨rfl, -⟩
  · exact hsame.trans hnone
  · obtain ⟨more, hroute, hmore⟩ := Place.route_joinAll (w := x.place) c.outputDir hnames
    rw [Place.wayTo_join _ hname, hroute] at hmem
    rcases List.mem_append.mp hmem with hmem | hmem
    · exact absurd ((Below.append (List.cons_ne_nil _ _)).trans_le hl) (h.straight l hmem)
    · obtain ⟨front, hne, hfront, rfl⟩ := hmore l hmem
      obtain ⟨first, rest, rfl⟩ := List.exists_cons_of_ne_nil hne
      obtain ⟨rfl, -⟩ := List.cons_prefix_cons.mp hfront
      exact absurd hl (hkind.not_typed htyped)
  · rw [Place.target_join _ hname, Place.target_joinAll _ hnames, List.append_assoc] at hl
    exact absurd hl (hkind.not_typed htyped)

/-- Writing a file of a layer keeps two courses in step. -/
theorem lockstep_writeText {ε : Type} (refuseDirectory : Path → FileError → ε)
    (refuseFile : FileError → ε) {p : Path} (hp : c.OutputPath layer p) (text : String) :
    Lockstep (fun _ => ()) (fun x y => c.Twin layer w₀ v₀ x.place y.place) (fun _ => True)
      (writeText refuseDirectory refuseFile p text) := by
  intro x y h
  have hframed := framed_writeText refuseDirectory refuseFile hp text x
  have hframed' := framed_writeText refuseDirectory refuseFile hp text y
  have hready := h.ready.writeText refuseDirectory refuseFile hp text
  have hready' := h.ready'.writeText refuseDirectory refuseFile hp text
  have huntyped : c.typedModules = false → ∀ l, w₀.target c.outputDir ++ ["ts", layer] <+: l →
      (exec (writeText refuseDirectory refuseFile p text) x).2.place.tree.lookup l = none := by
    intro htyped l hl
    refine h.ready.typed_writeText _ _ hp text htyped ?_ (h.untyped htyped l hl)
    rwa [Place.target_congr h.framed.current]
  have hspine := spine_congr (c := c) h.framed.current
  have houtputs := outputs_congr (c := c) h.framed.current
  obtain ⟨halike, hsame, -⟩ := alike_writeText refuseDirectory refuseFile hp text h.ready.wellFormed
    h.ready'.wellFormed h.ready.origin h.ready'.origin h.current
    (by rw [hspine, houtputs]; exact h.alike)
  rw [hspine, houtputs] at halike
  exact ⟨hsame, fun _ _ => trivial, hready, hready', h.framed.trans hframed,
    h.framed'.trans hframed', hframed.current.trans (h.current.trans hframed'.current.symm), halike,
    huntyped⟩

/-- Documents whose tokens have categories that can be file names. -/
def PlainAt (w : Place) (p : Path) : Prop :=
  ∀ text found, w.readText p = .ok text → documentTokens p text = .ok found →
    ∀ leaf ∈ found, '/' ∉ (leaf.1.headD "").toList

/-- Files that both courses read alike. -/
def Readable (c : BuildContext) (layer : String) (w₀ v₀ : Place) (paths : List Path) : Prop :=
  ∀ p ∈ paths, ∀ w v, c.Twin layer w₀ v₀ w v → w.readText p = v.readText p ∧ PlainAt w p

section Layers

variable {layer : Layer}

/-- What lies where it was written can be reached. -/
theorem Ready.passable_way (h : c.Ready w) (hnames : ∀ name ∈ names, ProperName name)
    (hsome : (w.tree.lookup (w.target c.outputDir ++ names ++ [name])).isSome) :
    w.tree.Passable (w.route (c.outputDir.joinAll names)) := by
  obtain ⟨more, hroute, hmore⟩ := Place.route_joinAll (w := w) c.outputDir hnames
  have hbelow : Below (w.target c.outputDir) (w.target c.outputDir ++ names ++ [name]) := by
    rw [List.append_assoc]
    exact Below.append (List.append_ne_nil_of_right_ne_nil _ (List.cons_ne_nil _ _))
  rw [hroute, Passable, List.forall_mem_append]
  refine ⟨h.reach _ hbelow hsome, ?_⟩
  intro l hl
  obtain ⟨front, -, hfront, rfl⟩ := hmore l hl
  refine h.wellFormed.lookup_of_below (m := w.target c.outputDir ++ names ++ [name]) ⟨?_, ?_⟩ hsome
  · rw [List.append_assoc, List.prefix_append_right_inj]
    exact hfront.trans (List.prefix_append _ _)
  · intro heq
    have hlength := congrArg List.length heq
    have hle := hfront.length_le
    simp only [List.length_append, List.length_cons, List.length_nil] at hlength
    omega

theorem Ready.node_output (h : c.Ready w) (hnames : ∀ name ∈ names, ProperName name)
    (hname : ProperName name) :
    (w.node ((c.outputDir.joinAll names).join name)).toOption =
      w.tree.lookup (w.target c.outputDir ++ names ++ [name]) := by
  have hnode := fun n => Place.node_join_eq_ok_iff (w := w) (p := c.outputDir.joinAll names)
    hname (n := n)
  rw [Place.target_joinAll _ hnames] at hnode
  cases hlookup : w.tree.lookup (w.target c.outputDir ++ names ++ [name]) with
  | none =>
      cases hresult : w.node ((c.outputDir.joinAll names).join name) with
      | error e => rfl
      | ok n => exact absurd (hlookup.symm.trans ((hnode n).mp hresult).2) nofun
  | some n =>
      rw [(hnode n).mpr ⟨h.passable_way hnames (by rw [hlookup]; rfl), hlookup⟩]
      rfl

theorem Twin.node_content (h : c.Twin layer.name w₀ v₀ w v) {p : Path}
    (hp : c.OutputPath layer.name p) :
    (w.node p).toOption.map Node.content? = (v.node p).toOption.map Node.content? := by
  obtain ⟨kind, names, name, hkind, hnames, hname, rfl⟩ := hp
  rw [h.ready.node_output hnames hname, h.ready'.node_output hnames hname,
    ← Place.target_congr h.current]
  refine h.alike.contents _ ?_
  rw [Place.target_congr h.framed.current, List.append_assoc]
  exact outputs_append hkind.cases (names ++ [name])

/-- Two courses of a build keep in step if they read the same texts. -/
theorem tracks_twin (hlayer : PlainLayer layer)
    (hreads : c.Readable layer.name w₀ v₀ (layerReads layer)) :
    Tracks (fun _ => ()) (fun x y => c.Twin layer.name w₀ v₀ x.place y.place) c layer
      (fun category => '/' ∉ category.toList) where
  report _ := fun _ _ h => ⟨rfl, fun _ _ => trivial, h⟩
  resolve {dependencies sources} hdependencies hsources := by
    have hread : ∀ p ∈ dependencies ++ sources, p ∈ layerReads layer := by
      intro p hp
      rcases List.mem_append.mp hp with hp | hp
      · exact hdependencies hp
      · exact List.mem_append_right _ (hsources hp)
    intro x y htwin
    rw [exec_resolveFiles, exec_resolveFiles,
      Place.dictionary_congr fun p hp => (hreads p (hread p hp) _ _ htwin).1]
    refine ⟨rfl, ?_, htwin⟩
    intro d hd t ht
    rw [← Place.dictionary_congr fun p hp => (hreads p (hread p hp) _ _ htwin).1] at hd
    exact RawTokens.paths_of_dictionary (P := fun path => '/' ∉ (path.headD "").toList) hd
      (fun p hp => (hreads p (hread p hp) _ _ htwin).2) t (List.mem_filter.mp ht).1
  write hp _ _ :=
    (lockstep_writeText _ _ (hp.outputPath hlayer fun _ => id) _).bind fun _ _ => .pure trivial
  node {p} hp x y htwin := by
    have hsame := htwin.node_content (hp.outputPath hlayer fun _ => id)
    generalize x.place.node p = left at *
    generalize y.place.node p = right at *
    obtain e | n := left
    · obtain e' | n' := right
      · rfl
      · cases hsame
    · obtain e' | n' := right
      · cases hsame
      · exact congrArg Except.ok (Option.some.inj hsame)

theorem Ready.not_outputs (h : c.Ready w) {name : String} {l : Location} (hl : l ∈ c.spine w) :
    ¬ c.Outputs w name l := by
  rintro ⟨kind, -, hin⟩
  have hbelow : Below (w.target c.outputDir) l :=
    (Below.append (List.cons_ne_nil kind [name])).trans_le hin
  rcases List.mem_append.mp hl with hl | hl
  · exact h.straight l hl hbelow
  · have hlength := hin.length_le
    rcases List.mem_pair.mp hl with rfl | rfl <;> simp at hlength

/-- Clearing leaves nothing of the outputs of a layer and everything else as it is. -/
theorem effect_clear (hlayer : ProperName layer.name) {w : Workspace} (h : c.Ready w.place) :
    ∃ after, effect (do
        clearDirectory (c.cssDir layer.name)
        clearDirectory (c.tsDir layer.name) : Job TokenError Unit) w = (some (), after) ∧
      c.Ready after.place ∧ c.Framed layer.name w.place after.place ∧
      (∀ l, c.Outputs w.place layer.name l → after.place.tree.lookup l = none) ∧
      ∀ l, ¬ c.Outputs w.place layer.name l →
        after.place.tree.lookup l = w.place.tree.lookup l := by
  obtain ⟨between, hcss, hready, hframed, hlookup⟩ :=
    effect_clearDirectory (.inl rfl) hlayer h
  obtain ⟨after, hts, hready', hframed', hlookup'⟩ :=
    effect_clearDirectory (.inr rfl) hlayer hready
  rw [Place.target_congr hframed.current] at hlookup'
  refine ⟨after, ?_, hready', hframed.trans hframed', ?_, ?_⟩
  · rw [effect_bind, cssDir, hcss]
    exact hts
  · rintro l ⟨kind, rfl | rfl, hin⟩
    · rw [hlookup', hlookup, if_pos hin, ite_self]
    · rw [hlookup', if_pos hin]
  · intro l hl
    rw [hlookup', hlookup, if_neg fun hin => hl ⟨"ts", .inr rfl, hin⟩,
      if_neg fun hin => hl ⟨"css", .inl rfl, hin⟩]

/-- Builds of a layer from the same texts succeed or fail alike and leave the same outputs. -/
theorem buildLayer_twin (hlayer : PlainLayer layer) {w v : Workspace} (hw : c.Ready w.place)
    (hv : c.Ready v.place) (hcurrent : w.place.current = v.place.current)
    (hfiles : ∀ l ∈ c.spine w.place, w.place.tree.IsFile l ↔ v.place.tree.IsFile l)
    (hreads : c.Readable layer.name w.place v.place (layerReads layer)) :
    ((c.buildLayer layer).run w).1.success = ((c.buildLayer layer).run v).1.success ∧
      c.Twin layer.name w.place v.place ((c.buildLayer layer).run w).2.place
        ((c.buildLayer layer).run v).2.place := by
  obtain ⟨w', hclear, hready, hframed, houtputs, hothers⟩ := effect_clear hlayer.name hw
  obtain ⟨v', hclear', hready', hframed', houtputs', hothers'⟩ := effect_clear hlayer.name hv
  have halike : Alike (· ∈ c.spine w.place) (c.Outputs w.place layer.name) w'.place.tree
      v'.place.tree := by
    constructor
    · intro l hl
      have hl' : l ∈ c.spine v.place := spine_congr (c := c) hcurrent ▸ hl
      rw [IsFile, IsFile, hothers l (hw.not_outputs hl), hothers' l (hv.not_outputs hl')]
      exact hfiles l hl
    · intro l hl
      have hl' : c.Outputs v.place layer.name l := outputs_congr (c := c) hcurrent ▸ hl
      rw [contentAt_eq_none_iff.mpr (houtputs l hl), contentAt_eq_none_iff.mpr (houtputs' l hl')]
  have htwin : c.Twin layer.name w.place v.place w'.place v'.place :=
    ⟨hready, hready', hframed, hframed',
      hframed.current.trans (hcurrent.trans hframed'.current.symm), halike,
      fun _ l hl => houtputs l ⟨"ts", .inr rfl, hl⟩⟩
  have hjob : ∀ x x' : Workspace, effect (do
        clearDirectory (c.cssDir layer.name)
        clearDirectory (c.tsDir layer.name) : Job TokenError Unit) x = (some (), x') →
      effect (c.buildJob layer) x = effect (c.writeOutputs layer >>= measure) x' := by
    intro x x' hx
    rw [buildJob_eq, effect_bind, hx]
  obtain ⟨hsuccess, -, hplace⟩ := run_buildLayer c layer w
  obtain ⟨hsuccess', -, hplace'⟩ := run_buildLayer c layer v
  obtain ⟨hsame, -, hend⟩ := (tracks_twin hlayer hreads).outputs.effect_eq htwin
  rw [hsuccess, hsuccess', hplace, hplace', hjob w w' hclear, hjob v v' hclear', hsame]
  exact ⟨rfl, hend⟩

end Layers

end BuildContext

end DesignTokens
