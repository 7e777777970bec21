import DesignTokens.Proofs.Build.Rebuild
import Mathlib.Data.List.Forall2

/-!
Runs of a build. A full run leaves every layer as a build of that layer from the present sources
does, whether it was built again or left alone.
-/

namespace DesignTokens

open FileTree Place

theorem map_fst_planFrom (decision : Layer → Decision) (rebuilt : Bool) (layers : List Layer) :
    (planFrom decision rebuilt layers).map Prod.fst = layers := by
  induction layers generalizing rebuilt with
  | nil => rfl
  | cons layer rest ih => rw [planFrom, List.map_cons, ih]

/-- Once a layer is built again, all later ones are. -/
theorem needsRebuild_of_mem_planFrom (decision : Layer → Decision) {layers : List Layer}
    {x : Layer × Decision} (hx : x ∈ planFrom decision true layers) : x.2.needsRebuild := by
  induction layers with
  | nil => exact absurd hx List.not_mem_nil
  | cons layer rest ih =>
      rw [planFrom, Bool.true_or] at hx
      rcases List.mem_cons.mp hx with rfl | hx
      · rfl
      · exact ih hx

/-- A layer that has to be built again on its own account is not left alone. -/
theorem needsRebuild_of_decision (decision : Layer → Decision) {rebuilt : Bool}
    {layers : List Layer} {x : Layer × Decision} (hx : x ∈ planFrom decision rebuilt layers)
    (hneeds : (decision x.1).needsRebuild) : x.2.needsRebuild := by
  induction layers generalizing rebuilt with
  | nil => exact absurd hx List.not_mem_nil
  | cons layer rest ih =>
      rw [planFrom] at hx
      rcases List.mem_cons.mp hx with rfl | hx
      · cases rebuilt with
        | false => exact hneeds
        | true => rfl
      · exact ih hx

/-- A layer that is left alone is up to date on its own account. -/
theorem decision_of_mem_planFrom {decision : Layer → Decision} {rebuilt : Bool}
    {layers : List Layer} {x : Layer × Decision} (hx : x ∈ planFrom decision rebuilt layers)
    (hskip : x.2 = .upToDate) : decision x.1 = .upToDate := by
  cases hown : decision x.1 with
  | upToDate => rfl
  | rebuild reason =>
      have hneeds := needsRebuild_of_decision decision hx (hown ▸ rfl)
      rw [hskip] at hneeds
      exact absurd hneeds Bool.false_ne_true

/-- The first layer that is built again on its own account, with every later one. -/
def outdated (decision : Layer → Decision) (layers : List Layer) : List Layer :=
  layers.dropWhile fun layer => !(decision layer).needsRebuild

/-- The layers that a plan builds again. -/
theorem filter_planFrom (decision : Layer → Decision) (layers : List Layer) :
    ((planFrom decision false layers).filter fun step => step.2.needsRebuild).map Prod.fst =
      outdated decision layers := by
  induction layers with
  | nil => rfl
  | cons layer rest ih =>
      rw [planFrom, outdated, List.dropWhile_cons, if_neg Bool.false_ne_true, Bool.false_or]
      cases hdecision : (decision layer).needsRebuild with
      | false =>
          rw [List.filter_cons_of_neg (by simp [hdecision]), ih]
          rfl
      | true =>
          -- from here on the plan does not look at the layers any more
          have hlater : ∀ step ∈ planFrom decision true rest, step.2.needsRebuild :=
            fun step hstep => needsRebuild_of_mem_planFrom decision hstep
          rw [List.filter_cons_of_pos (by exact hdecision), List.filter_eq_self.mpr hlater,
            List.map_cons, map_fst_planFrom]
          rfl

theorem Decision.needsRebuild_eq {decision : Decision} {keep : Prop} [Decidable keep]
    (h : decision = .upToDate ↔ keep) : decision.needsRebuild = !decide keep := by
  by_cases hkeep : keep
  · rw [h.mpr hkeep, decide_eq_true hkeep]
    rfl
  · rw [decide_eq_false hkeep]
    cases decision with
    | upToDate => exact absurd (h.mp rfl) hkeep
    | rebuild reason => rfl

theorem outdated_eq {decision : Layer → Decision} {keep : Layer → Bool} {layers : List Layer}
    (h : ∀ layer ∈ layers, (decision layer).needsRebuild = !keep layer) :
    outdated decision layers = layers.dropWhile keep := by
  induction layers with
  | nil => rfl
  | cons layer rest ih =>
      obtain ⟨hlayer, hrest⟩ := List.forall_mem_cons.mp h
      rw [outdated, List.dropWhile_cons, List.dropWhile_cons, hlayer, Bool.not_not, ← outdated,
        ih hrest]

theorem planFrom_of_upToDate {decision : Layer → Decision} {layers : List Layer}
    (h : ∀ layer ∈ layers, decision layer = .upToDate) :
    ∀ step ∈ planFrom decision false layers, step.2 = .upToDate := by
  induction layers with
  | nil => exact fun _ hstep => absurd hstep List.not_mem_nil
  | cons layer rest ih =>
      obtain ⟨hlayer, hrest⟩ := List.forall_mem_cons.mp h
      rw [planFrom, hlayer]
      exact List.forall_mem_cons.mpr ⟨rfl, ih hrest⟩

/-- Layers in front of one that stands early in the order stand early too. -/
theorem LayerKind.mem_of_rank_le {front back : List LayerKind} {kind other : LayerKind}
    (hall : LayerKind.all = front ++ back) (hkind : kind ∈ front) (hrank : other.rank ≤ kind.rank) :
    other ∈ front := by
  have hpairs : (front ++ back).Pairwise fun a b => a.rank < b.rank := by
    rw [← hall]
    decide
  obtain ⟨-, -, hbetween⟩ := List.pairwise_append.mp hpairs
  have hmem : other ∈ front ++ back := hall ▸ other.mem_all
  rcases List.mem_append.mp hmem with hmem | hmem
  · exact hmem
  · have hlt := hbetween kind hkind other hmem
    omega

namespace Build

open BuildContext

variable {c : BuildContext} {tokens : Path} {cache : Option Path} {contents : ByteArray → Prop}
  {flavor : String} {kind : LayerKind} {kinds more : List LayerKind} {start g : Place}
  {s mid after : BuildState} {results others : List LayerResult}

/-- A cache entry of a layer stands for a successful build from certain files. -/
def Fresh (c : BuildContext) (tokens : Path) (flavor : String) (g : Place) (kind : LayerKind)
    (s : BuildState) : Prop :=
  ∀ entry, s.store.entry? kind.dirName = some entry →
    (∃ hashes, g.fingerprint (tokens.join kind.dirName) = .ok hashes ∧
      ∀ key, Keyed.get? key hashes = Keyed.get? key entry.hashes) ∧
    c.Settled (Layer.ofKind g tokens flavor kind) true g s.workspace.place

/-- A run that started from certain files has dealt with some layers. -/
structure Advanced (c : BuildContext) (tokens : Path) (cache : Option Path)
    (contents : ByteArray → Prop) (flavor : String) (start : Place) (kinds : List LayerKind)
    (results : List LayerResult) (s after : BuildState) : Prop where
  sound : c.Sound tokens cache contents after.workspace.place
  keeps : c.Keeps tokens start after.workspace.place
  path : after.store.path = s.store.path
  ascending : Keyed.Ascending after.store.entries
  results : List.Forall₂ (fun kind result => result.layer = kind.dirName ∧
    c.Settled (Layer.ofKind start tokens flavor kind) result.success start after.workspace.place)
      kinds results
  outputs : ∀ kind ∉ kinds, ∀ l, c.Outputs start kind.dirName l →
    after.workspace.place.tree.lookup l = s.workspace.place.tree.lookup l
  entries : ∀ kind ∉ kinds, after.store.entry? kind.dirName = s.store.entry? kind.dirName
  fresh : ∀ kind ∈ kinds, Fresh c tokens flavor start kind after

theorem Advanced.nil (hsound : c.Sound tokens cache contents s.workspace.place)
    (hkeeps : c.Keeps tokens start s.workspace.place) (hascending : Keyed.Ascending s.store.entries) :
    Advanced c tokens cache contents flavor start [] [] s s :=
  ⟨hsound, hkeeps, rfl, hascending, .nil, fun _ _ _ _ => rfl, fun _ _ => rfl,
    fun _ h => absurd h List.not_mem_nil⟩

theorem Advanced.append (h : Advanced c tokens cache contents flavor start kinds results s mid)
    (hmore : Advanced c tokens cache contents flavor start more others mid after)
    (hdisjoint : ∀ kind ∈ kinds, kind ∉ more) :
    Advanced c tokens cache contents flavor start (kinds ++ more) (results ++ others) s after := by
  have hkeep : ∀ kind ∈ kinds, ∀ success,
      c.Settled (Layer.ofKind start tokens flavor kind) success start mid.workspace.place →
      c.Settled (Layer.ofKind start tokens flavor kind) success start after.workspace.place := by
    intro kind hkind success hsettled
    refine hsettled.of_lookup ?_
    rw [Layer.name_ofKind]
    exact hmore.outputs kind (hdisjoint kind hkind)
  constructor
  · exact hmore.sound
  · exact hmore.keeps
  · exact hmore.path.trans h.path
  · exact hmore.ascending
  · refine List.rel_append ?_ hmore.results
    have hresults := h.results
    rw [List.forall₂_iff_zip] at hresults ⊢
    refine ⟨hresults.1, ?_⟩
    intro kind result hmem
    obtain ⟨hlayer, hsettled⟩ := hresults.2 hmem
    exact ⟨hlayer, hkeep kind (List.of_mem_zip hmem).1 _ hsettled⟩
  · intro kind hkind l hl
    rw [List.mem_append, not_or] at hkind
    rw [hmore.outputs kind hkind.2 l hl, h.outputs kind hkind.1 l hl]
  · intro kind hkind
    rw [List.mem_append, not_or] at hkind
    rw [hmore.entries kind hkind.2, h.entries kind hkind.1]
  · intro kind hkind entry hentry
    by_cases hlater : kind ∈ more
    · exact hmore.fresh kind hlater entry hentry
    · have hearlier := (List.mem_append.mp hkind).resolve_right hlater
      rw [hmore.entries kind hlater] at hentry
      obtain ⟨hhashes, hsettled⟩ := h.fresh kind hearlier entry hentry
      exact ⟨hhashes, hkeep kind hearlier _ hsettled⟩

/-- A layer that is built again. -/
theorem Advanced.rebuild (hplain : ∀ content, contents content → PlainContent content)
    (hstart : c.Sound tokens cache contents start)
    (hsound : c.Sound tokens cache contents s.workspace.place)
    (hkeeps : c.Keeps tokens start s.workspace.place) (hpath : s.store.path = cache)
    (hascending : Keyed.Ascending s.store.entries) {result : LayerResult}
    (hrun : (Build.rebuild c (Layer.ofKind start tokens flavor kind)).perform s = (result, after)) :
    Advanced c tokens cache contents flavor start [kind] [result] s after := by
  have hakin := hkeeps.akin kind
  have hlayer := Layer.ofKind_congr flavor hstart.sources hsound.sources hakin.current
    hakin.agree
  rw [hlayer] at hrun
  have h := rebuilt hplain hsound hpath hascending hrun
  have hsettled := h.settled.transport hplain hsound hstart hakin.symm
  have hprint : start.fingerprint (tokens.join kind.dirName) =
      s.workspace.place.fingerprint (tokens.join kind.dirName) :=
    fingerprint_congr hstart.ready.wellFormed hsound.ready.wellFormed hakin.current
      kind.proper_dirName hstart.sources.directory hsound.sources.directory
      (hakin.agree kind le_rfl)
  refine ⟨h.sound, hkeeps.trans h.keeps, h.path, h.ascending, ?_, ?_, ?_, ?_⟩
  · exact .cons ⟨h.layer, hsettled⟩ .nil
  · intro other hother l hl
    rw [← outputs_congr (c := c) hkeeps.current] at hl
    exact h.others other (fun heq => hother (heq ▸ List.mem_singleton_self _)) l hl
  · intro other hother
    exact h.otherEntries other fun heq => hother (heq ▸ List.mem_singleton_self _)
  · intro other hother entry hentry
    obtain rfl := List.mem_singleton.mp hother
    obtain ⟨hsuccess, hhashes⟩ := h.ownEntry entry hentry
    exact ⟨⟨entry.hashes, hprint.trans hhashes, fun _ => rfl⟩, hsuccess ▸ hsettled⟩

/-- Layers that are left alone. -/
theorem Advanced.skipAll (hsound : c.Sound tokens cache contents s.workspace.place)
    (hascending : Keyed.Ascending s.store.entries)
    (hsettled : ∀ kind ∈ kinds,
      c.Settled (Layer.ofKind s.workspace.place tokens flavor kind) true s.workspace.place
        s.workspace.place ∧ Fresh c tokens flavor s.workspace.place kind s) :
    Advanced c tokens cache contents flavor s.workspace.place kinds
      (kinds.map fun kind => .upToDate kind.dirName) s s := by
  refine ⟨hsound, Keeps.refl _, rfl, hascending, ?_, fun _ _ _ _ => rfl, fun _ _ => rfl,
    fun kind hkind => (hsettled kind hkind).2⟩
  rw [List.forall₂_map_right_iff, List.forall₂_same]
  intro kind hkind
  exact ⟨rfl, (hsettled kind hkind).1⟩

theorem perform_followEach_cons (layer : Layer) (decision : Decision)
    (rest : List (Layer × Decision)) (s : BuildState) :
    (followEach c ((layer, decision) :: rest)).perform s =
      let first := (follow c layer decision).perform s
      let later := (followEach c rest).perform first.2
      (first.1 :: later.1, later.2) := rfl

/-- Layers that are all built again. -/
theorem Advanced.rebuildAll (hplain : ∀ content, contents content → PlainContent content)
    (hstart : c.Sound tokens cache contents start)
    (hsound : c.Sound tokens cache contents s.workspace.place)
    (hkeeps : c.Keeps tokens start s.workspace.place) (hpath : s.store.path = cache)
    (hascending : Keyed.Ascending s.store.entries) (hnodup : kinds.Nodup)
    {steps : List (Layer × Decision)}
    (hlayers : steps.map Prod.fst = kinds.map (Layer.ofKind start tokens flavor))
    (hrebuild : ∀ step ∈ steps, step.2.needsRebuild)
    (hrun : (followEach c steps).perform s = (results, after)) :
    Advanced c tokens cache contents flavor start kinds results s after := by
  induction kinds generalizing steps s results with
  | nil =>
      obtain rfl := List.map_eq_nil_iff.mp hlayers
      obtain ⟨rfl, rfl⟩ := Prod.mk.inj hrun
      exact .nil hsound hkeeps hascending
  | cons kind kinds ih =>
      obtain ⟨step, rest, rfl, hfirst, hrest⟩ := List.map_eq_cons_iff.mp hlayers
      obtain ⟨layer, decision⟩ := step
      obtain ⟨hneeds, hlater⟩ := List.forall_mem_cons.mp hrebuild
      obtain ⟨hnot, hnodup⟩ := List.nodup_cons.mp hnodup
      dsimp only at hfirst hneeds
      subst hfirst
      rw [perform_followEach_cons] at hrun
      cases decision with
      | upToDate => exact absurd hneeds nofun
      | rebuild reason =>
          rw [follow] at hrun
          rcases hone : (Build.rebuild c (Layer.ofKind start tokens flavor kind)).perform s with
            ⟨result, mid⟩
          rw [hone] at hrun
          rcases hmore : (followEach c rest).perform mid with ⟨others, last⟩
          dsimp only at hrun
          rw [hmore] at hrun
          obtain ⟨rfl, rfl⟩ := Prod.mk.inj hrun
          have hhead := Advanced.rebuild hplain hstart hsound hkeeps hpath hascending hone
          have htail := ih hhead.sound hhead.keeps (hhead.path.trans hpath) hhead.ascending hnodup
            hrest hlater hmore
          exact hhead.append htail fun other hother =>
            List.mem_singleton.mp hother ▸ hnot

theorem skipped_buildLayer (layer : Layer) (x : Workspace) :
    ((c.buildLayer layer).run x).1.skipped = false := by
  rw [run_buildLayer_eq]
  rcases Job.exec (c.buildJob layer) x with ⟨_ | files, after⟩ <;> rfl

/-- A layer is reported as left alone if that was planned. -/
theorem skipped_followEach (steps : List (Layer × Decision)) (s : BuildState) :
    ((followEach c steps).perform s).1.map LayerResult.skipped =
      steps.map fun step => !step.2.needsRebuild := by
  induction steps generalizing s with
  | nil => rfl
  | cons step rest ih =>
      obtain ⟨layer, decision⟩ := step
      rw [perform_followEach_cons, List.map_cons, ih, List.map_cons]
      congr 1
      cases decision with
      | upToDate => rfl
      | rebuild reason =>
          change ((Build.rebuild c layer).perform s).1.skipped = false
          rw [perform_rebuild]
          exact skipped_buildLayer layer s.workspace

/-- The result of each layer carries its name. -/
theorem layer_followEach (c : BuildContext) (steps : List (Layer × Decision)) (s : BuildState) :
    ((followEach c steps).perform s).1.map LayerResult.layer = steps.map fun step => step.1.name := by
  induction steps generalizing s with
  | nil => rfl
  | cons step rest ih =>
      obtain ⟨layer, decision⟩ := step
      rw [perform_followEach_cons, List.map_cons, ih, List.map_cons]
      congr 1
      cases decision with
      | upToDate => rfl
      | rebuild reason =>
          change ((rebuild c layer).perform s).1.layer = layer.name
          rw [perform_rebuild]
          exact (BuildContext.run_buildLayer c layer s.workspace).2.1

/-- A plan leaves some layers alone, up to one that is built again together with all that follow. -/
theorem planned (hplain : ∀ content, contents content → PlainContent content)
    (hsound : c.Sound tokens cache contents s.workspace.place) (hpath : s.store.path = cache)
    (hascending : Keyed.Ascending s.store.entries) (hnodup : kinds.Nodup)
    {decision : Layer → Decision}
    (hrun : (followEach c (planFrom decision false
      (kinds.map (Layer.ofKind s.workspace.place tokens flavor)))).perform s = (results, after)) :
    ∃ front back built, kinds = front ++ back ∧
      results = (front.map fun kind => .upToDate kind.dirName) ++ built ∧
      (∀ kind ∈ front, decision (Layer.ofKind s.workspace.place tokens flavor kind) = .upToDate) ∧
      (∀ result ∈ built, result.skipped = false) ∧
      Advanced c tokens cache contents flavor s.workspace.place back built s after := by
  induction kinds generalizing results after with
  | nil =>
      obtain ⟨rfl, rfl⟩ := Prod.mk.inj hrun
      exact ⟨[], [], [], rfl, rfl, fun _ h => absurd h List.not_mem_nil,
        fun _ h => absurd h List.not_mem_nil, .nil hsound (Keeps.refl _) hascending⟩
  | cons kind kinds ih =>
      cases hdecision : decision (Layer.ofKind s.workspace.place tokens flavor kind) with
      | upToDate =>
          rcases hmore : (followEach c (planFrom decision false
            (kinds.map (Layer.ofKind s.workspace.place tokens flavor)))).perform s with
            ⟨others, last⟩
          obtain ⟨front, back, built, rfl, rfl, hfront, hbuilt, hadvanced⟩ :=
            ih (List.nodup_cons.mp hnodup).2 hmore
          have hresult : (followEach c (planFrom decision false
              ((kind :: (front ++ back)).map
                (Layer.ofKind s.workspace.place tokens flavor)))).perform s =
              (((kind :: front).map fun kind => .upToDate kind.dirName) ++ built, last) := by
            rw [List.map_cons, planFrom, hdecision, perform_followEach_cons]
            change (LayerResult.upToDate (Layer.ofKind s.workspace.place tokens flavor kind).name ::
              ((followEach c _).perform s).1, ((followEach c _).perform s).2) = _
            rw [Layer.name_ofKind]
            change (_ :: ((followEach c (planFrom decision false _)).perform s).1,
              ((followEach c (planFrom decision false _)).perform s).2) = _
            rw [hmore]
            rfl
          obtain ⟨rfl, rfl⟩ := Prod.mk.inj (hresult.symm.trans hrun)
          refine ⟨kind :: front, back, built, rfl, rfl, ?_, hbuilt, hadvanced⟩
          exact List.forall_mem_cons.mpr ⟨hdecision, hfront⟩
      | rebuild reason =>
          have hrebuild : ∀ step ∈ planFrom decision false
              ((kind :: kinds).map (Layer.ofKind s.workspace.place tokens flavor)),
              step.2.needsRebuild := by
            rw [List.map_cons, planFrom, hdecision]
            intro step hstep
            rcases List.mem_cons.mp hstep with rfl | hstep
            · rfl
            · exact needsRebuild_of_mem_planFrom decision hstep
          refine ⟨[], kind :: kinds, results, rfl, rfl, fun _ h => absurd h List.not_mem_nil, ?_,
            .rebuildAll hplain hsound hsound (Keeps.refl _) hpath hascending hnodup
              (map_fst_planFrom decision false _) hrebuild hrun⟩
          have hskipped := skipped_followEach (c := c) (planFrom decision false
            ((kind :: kinds).map (Layer.ofKind s.workspace.place tokens flavor))) s
          rw [hrun] at hskipped
          intro result hresult
          have hmem := hskipped ▸ List.mem_map_of_mem (f := LayerResult.skipped) hresult
          obtain ⟨step, hstep, heq⟩ := List.mem_map.mp hmem
          rw [← heq, hrebuild step hstep]
          rfl

end Build

end DesignTokens
