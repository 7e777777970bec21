import DesignTokens.Layer.Build
import DesignTokens.Proofs.Workspace.Alike

/-!
The outputs of a layer in a tree: where they lie, what making them needs of the tree, and what it
leaves alone.
-/

namespace DesignTokens

namespace BuildContext

open FileTree

variable (c : BuildContext)

/-- Where every build of a layer passes on the way to its outputs. -/
def spine (w : Place) : List Location :=
  w.route c.outputDir ++
    [w.target c.outputDir ++ ["css"], w.target c.outputDir ++ ["ts"]]

/-- The location of an output directory of a layer, or one below it. -/
def Outputs (w : Place) (layer : String) (l : Location) : Prop :=
  ∃ kind, (kind = "css" ∨ kind = "ts") ∧ w.target c.outputDir ++ [kind, layer] <+: l

/-- The way to the output directory does not lead through what lies below it, all of the way is
there if something lies below it, and files lie only where builds write them. -/
structure Ready (w : Place) : Prop where
  wellFormed : w.tree.WellFormed
  origin : w.tree.lookup (w.origin c.outputDir) = some .directory
  straight : ∀ l ∈ w.route c.outputDir, ¬ Below (w.target c.outputDir) l
  reach : ∀ l, Below (w.target c.outputDir) l → (w.tree.lookup l).isSome →
    w.tree.Passable (w.route c.outputDir)
  deep : ∀ l, Below (w.target c.outputDir) l → w.tree.IsFile l →
    (w.target c.outputDir).length + 3 ≤ l.length

/-- The files `w` come from the files `v` by builds of a layer: what lies outside of its outputs is
as before, but for directories that were made on the way to them. -/
structure Framed (layer : String) (v w : Place) : Prop where
  current : w.current = v.current
  outside : ∀ l, ¬ c.Outputs v layer l →
    w.tree.lookup l = v.tree.lookup l ∨
      l ∈ c.spine v ∧ v.tree.lookup l = none ∧ w.tree.lookup l = some .directory

variable {c} {layer : String} {u v w : Place}

theorem spine_congr (h : w.current = v.current) : c.spine w = c.spine v := by
  rw [spine, spine, Place.route_congr h, Place.target_congr h]

theorem outputs_congr (h : w.current = v.current) : c.Outputs w = c.Outputs v := by
  funext layer l
  rw [Outputs, Outputs, Place.target_congr h]

theorem below_of_outputs {l : Location} (h : c.Outputs w layer l) :
    Below (w.target c.outputDir) l := by
  obtain ⟨dir, -, hin⟩ := h
  exact (Below.append (List.cons_ne_nil _ _)).trans_le hin

theorem Framed.refl (layer : String) (w : Place) : c.Framed layer w w :=
  ⟨rfl, fun _ _ => .inl rfl⟩

theorem Framed.trans (huv : c.Framed layer u v) (hvw : c.Framed layer v w) :
    c.Framed layer u w := by
  refine ⟨hvw.current.trans huv.current, ?_⟩
  intro l hl
  rcases hvw.outside l (outputs_congr huv.current ▸ hl) with hw | ⟨hspine, hnone, hdir⟩
  · rw [hw]
    exact huv.outside l hl
  · rw [spine_congr huv.current] at hspine
    rcases huv.outside l hl with hv | ⟨-, -, hdir'⟩
    · exact .inr ⟨hspine, hv ▸ hnone, hdir⟩
    · exact absurd (hdir'.symm.trans hnone) nofun

/-- Outside of a layer's outputs, files stand where they stood before. -/
theorem Framed.isFile_iff (h : c.Framed layer v w) {l : Location} (hl : ¬ c.Outputs v layer l) :
    w.tree.IsFile l ↔ v.tree.IsFile l :=
  isFile_iff_of_made ((h.outside l hl).imp_right And.right)

/-- Another tree seen from the same directory. -/
theorem Ready.of_tree (h : c.Ready w) {t : FileTree} (hwf : t.WellFormed)
    (horigin : t.lookup (w.origin c.outputDir) = some .directory)
    (hreach : ∀ l, Below (w.target c.outputDir) l → (t.lookup l).isSome →
      t.Passable (w.route c.outputDir))
    (hdeep : ∀ l, Below (w.target c.outputDir) l → t.IsFile l →
      (w.target c.outputDir).length + 3 ≤ l.length) : c.Ready ⟨t, w.current⟩ := by
  have hroute := Place.route_mk t w c.outputDir
  have htarget := Place.target_mk t w c.outputDir
  constructor
  · exact hwf
  · exact horigin
  · rw [hroute, htarget]
    exact h.straight
  · rw [hroute, htarget]
    exact hreach
  · rw [htarget]
    exact hdeep

section Steps

variable {kind name : String} {names : List String}

theorem proper_kind (hkind : kind = "css" ∨ kind = "ts") : ProperName kind := by
  rcases hkind with rfl | rfl <;> constructor <;> decide

theorem outputs_append (hkind : kind = "css" ∨ kind = "ts") (names : List String) :
    c.Outputs w layer (w.target c.outputDir ++ kind :: layer :: names) := by
  refine ⟨kind, hkind, ?_⟩
  rw [List.prefix_append_right_inj]
  exact ⟨names, rfl⟩

/-- A way into the outputs of a layer. -/
theorem mem_way (hkind : kind = "css" ∨ kind = "ts")
    (hnames : ∀ name ∈ kind :: layer :: names, ProperName name) {l : Location}
    (hl : l ∈ w.route (c.outputDir.joinAll (kind :: layer :: names))) :
    l ∈ c.spine w ∨ c.Outputs w layer l := by
  obtain ⟨more, hroute, hmore⟩ := Place.route_joinAll (w := w) c.outputDir hnames
  rw [hroute] at hl
  rcases List.mem_append.mp hl with hl | hl
  · exact .inl (List.mem_append_left _ hl)
  · obtain ⟨front, hne, hfront, rfl⟩ := hmore l hl
    obtain ⟨first, rest, rfl⟩ := List.exists_cons_of_ne_nil hne
    obtain ⟨rfl, hrest⟩ := List.cons_prefix_cons.mp hfront
    cases rest with
    | nil =>
        left
        apply List.mem_append_right
        rcases hkind with rfl | rfl <;> simp
    | cons second rest =>
        obtain ⟨rfl, -⟩ := List.cons_prefix_cons.mp hrest
        refine .inr ⟨first, hkind, ?_⟩
        rw [List.prefix_append_right_inj]
        exact ⟨rest, rfl⟩

theorem Ready.openWay (h : c.Ready w) (hnames : ∀ name ∈ names, ProperName name) :
    c.Ready ⟨(w.tree.openWay (w.route (c.outputDir.joinAll names))).1, w.current⟩ := by
  obtain ⟨more, hroute, -⟩ := Place.route_joinAll (w := w) c.outputDir hnames
  refine h.of_tree ?_ (lookup_openWay_of_some h.origin) ?_ ?_
  · rw [Place.route]
    refine h.wellFormed.openWay_visits ?_ fun name hname => proper_of_mem_steps hname
    rw [Place.origin_joinAll _ hnames]
    exact h.origin
  · intro l hl hsome
    have hpassable : (w.tree.openWay (w.route (c.outputDir.joinAll names))).1.lookup l =
        w.tree.lookup l ∨
        (w.tree.openWay (w.route c.outputDir)).2 = true := by
      rw [hroute, openWay_append]
      split
      · rename_i hclear
        exact .inr hclear
      · exact .inl (lookup_openWay_of_not_mem fun hmem => h.straight l hmem hl)
    rcases hpassable with hsame | hclear
    · intro m hm
      exact lookup_openWay_of_some (h.reach l hl (hsame ▸ hsome) m hm)
    · rw [hroute, openWay_append, if_pos hclear]
      intro m hm
      exact lookup_openWay_of_some (passable_openWay hclear m hm)
  · intro l hl hfile
    exact h.deep l hl (isFile_openWay_iff.mp hfile)

/-- Writing a file of a layer into a directory that is there. -/
theorem Ready.set (h : c.Ready w) (hnames : ∀ name ∈ kind :: layer :: names, ProperName name)
    (hname : ProperName name)
    (hway : w.tree.Passable (w.route (c.outputDir.joinAll (kind :: layer :: names))))
    (hfree : w.tree.lookup (w.target c.outputDir ++ kind :: layer :: names ++ [name]) ≠
      some .directory) (content : ByteArray) (time : Nat) :
    c.Ready ⟨w.tree.set (w.target c.outputDir ++ kind :: layer :: names ++ [name])
      (.file content time), w.current⟩ := by
  obtain ⟨more, hroute, -⟩ := Place.route_joinAll (w := w) c.outputDir hnames
  have hne : w.target c.outputDir ++ kind :: layer :: names ++ [name] ≠ [] :=
    List.append_ne_nil_of_right_ne_nil _ (List.cons_ne_nil _ _)
  have hdir : w.tree.lookup (w.target c.outputDir ++ kind :: layer :: names) =
      some .directory := by
    rw [← Place.target_joinAll c.outputDir hnames]
    exact hway _ (Place.target_mem_route _)
  have hkeep : ∀ l, w.tree.lookup l = some .directory →
      (w.tree.set (w.target c.outputDir ++ kind :: layer :: names ++ [name])
        (.file content time)).lookup l = some .directory := by
    intro l hl
    rw [lookup_set_of_ne hne, hl]
    rintro rfl
    exact hfree hl
  refine h.of_tree (h.wellFormed.set hdir hname (.inr hfree)) (hkeep _ h.origin) ?_ ?_
  · intro _ _ _ l hl
    refine hkeep l (hway l ?_)
    rw [hroute]
    exact List.mem_append_left _ hl
  · intro l hl hfile
    by_cases heq : l = w.target c.outputDir ++ kind :: layer :: names ++ [name]
    · rw [heq]
      simp only [List.length_append, List.length_cons, List.length_nil]
      omega
    · refine h.deep l hl ?_
      rwa [IsFile, lookup_set_of_ne hne heq] at hfile

theorem Ready.prune (h : c.Ready w) :
    c.Ready ⟨w.tree.prune (w.target c.outputDir ++ [kind, layer]), w.current⟩ := by
  have hne : w.target c.outputDir ++ [kind, layer] ≠ [] :=
    List.append_ne_nil_of_right_ne_nil _ (List.cons_ne_nil _ _)
  have hbelow : Below (w.target c.outputDir) (w.target c.outputDir ++ [kind, layer]) :=
    Below.append (List.cons_ne_nil _ _)
  have hroute : ∀ l ∈ w.route c.outputDir,
      (w.tree.prune (w.target c.outputDir ++ [kind, layer])).lookup l = w.tree.lookup l := by
    intro l hl
    rw [lookup_prune hne, if_neg]
    exact fun hin => h.straight l hl (hbelow.trans_le hin)
  have hlookup : ∀ l, (w.tree.prune (w.target c.outputDir ++ [kind, layer])).lookup l = none ∨
      (w.tree.prune (w.target c.outputDir ++ [kind, layer])).lookup l = w.tree.lookup l := by
    intro l
    rw [lookup_prune hne]
    split
    · exact .inl rfl
    · exact .inr rfl
  refine h.of_tree h.wellFormed.prune ?_ ?_ ?_
  · exact (hroute _ (Place.origin_mem_route _)).trans h.origin
  · intro l hl hsome m hm
    rw [hroute m hm]
    refine h.reach l hl ?_ m hm
    rcases hlookup l with hnone | hsame
    · rw [hnone] at hsome
      exact absurd hsome nofun
    · exact hsame ▸ hsome
  · intro l hl hfile
    refine h.deep l hl ?_
    obtain ⟨content, modified, hfile⟩ := hfile
    rcases hlookup l with hnone | hsame
    · exact absurd (hnone.symm.trans hfile) nofun
    · exact ⟨content, modified, hsame ▸ hfile⟩

theorem Framed.prune (hkind : kind = "css" ∨ kind = "ts") :
    c.Framed layer w ⟨w.tree.prune (w.target c.outputDir ++ [kind, layer]), w.current⟩ := by
  refine ⟨rfl, ?_⟩
  intro l hl
  left
  rw [lookup_prune (List.append_ne_nil_of_right_ne_nil _ (List.cons_ne_nil _ _)), if_neg]
  exact fun hin => hl ⟨kind, hkind, hin⟩

theorem effect_clearDirectory_eq (dir : Path) (w : Workspace) :
    Job.effect (clearDirectory dir) w =
      if w.place.pathExists dir then
        ((w.place.removeDirectory dir).2.toOption,
          Job.withTree w (w.place.removeDirectory dir).1)
      else (some (), w) := by
  rw [clearDirectory, Job.effect_bind]
  change Job.effect (if w.place.pathExists dir then
    Job.steps (TokenError.file dir) fun place => place.removeDirectory dir else pure ()) w = _
  split
  · rw [Job.effect_steps]
  · rfl

/-- Clearing an output directory always succeeds. -/
theorem effect_clearDirectory (hkind : kind = "css" ∨ kind = "ts") (hlayer : ProperName layer)
    {w : Workspace} (h : c.Ready w.place) :
    ∃ after, Job.effect (clearDirectory ((c.outputDir.join kind).join layer)) w = (some (), after) ∧
      c.Ready after.place ∧ c.Framed layer w.place after.place ∧
      ∀ l, after.place.tree.lookup l =
        if w.place.target c.outputDir ++ [kind, layer] <+: l then none
        else w.place.tree.lookup l := by
  have hkindName := proper_kind hkind
  have htarget : w.place.target (c.outputDir.join kind) ++ [layer] =
      w.place.target c.outputDir ++ [kind, layer] := by
    rw [Place.target_join _ hkindName, List.append_assoc, List.singleton_append]
  have hbelow : Below (w.place.target c.outputDir) (w.place.target c.outputDir ++ [kind, layer]) :=
    Below.append (List.cons_ne_nil _ _)
  have hupper : Below (w.place.target c.outputDir ++ [kind])
      (w.place.target c.outputDir ++ [kind, layer]) := by
    refine ⟨?_, by simp⟩
    rw [List.prefix_append_right_inj]
    exact ⟨[layer], rfl⟩
  rw [effect_clearDirectory_eq]
  rcases hl : w.place.tree.lookup (w.place.target c.outputDir ++ [kind, layer]) with _ | ⟨_ | _⟩
  · have habsent : w.place.pathExists ((c.outputDir.join kind).join layer) = false := by
      rw [Bool.eq_false_iff, Ne, Place.pathExists_join_iff _ hlayer, htarget, hl]
      exact fun hexists => absurd hexists.2 nofun
    rw [if_neg (by rw [habsent]; exact Bool.false_ne_true)]
    refine ⟨w, rfl, h, Framed.refl layer w.place, ?_⟩
    intro l
    split
    · rename_i hin
      by_cases heq : l = w.place.target c.outputDir ++ [kind, layer]
      · rw [heq, hl]
      · exact h.wellFormed.lookup_below_eq_none ⟨hin, heq⟩ (by rw [hl]; exact nofun)
    · rfl
  · have hway : w.place.tree.Passable (w.place.route (c.outputDir.join kind)) := by
      rw [Place.route_join _ hkindName, Passable, List.forall_mem_append,
        List.forall_mem_singleton]
      refine ⟨h.reach _ hbelow (by rw [hl]; rfl), ?_⟩
      exact h.wellFormed.lookup_of_below hupper (by rw [hl]; rfl)
    have hexists : w.place.pathExists ((c.outputDir.join kind).join layer) := by
      rw [Place.pathExists_join_iff _ hlayer, htarget, hl]
      exact ⟨hway, rfl⟩
    rw [if_pos hexists, Place.removeDirectory_join _ hlayer hway, htarget, hl]
    refine ⟨_, rfl, h.prune, Framed.prune hkind, ?_⟩
    intro l
    exact lookup_prune (List.append_ne_nil_of_right_ne_nil _ (List.cons_ne_nil _ _))
  · have hdeep := h.deep _ hbelow ⟨_, _, hl⟩
    rw [List.length_append] at hdeep
    simp only [List.length_cons, List.length_nil] at hdeep
    omega

end Steps

end BuildContext

end DesignTokens
