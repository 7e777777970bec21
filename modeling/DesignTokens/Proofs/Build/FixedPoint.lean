import DesignTokens.Proofs.Build.Steady

/-!
When a second run has nothing to do. After a run that succeeded, each layer is left alone that has no
sources or a file in every output directory, and a layer that was built has these files if it made a
stylesheet and, where typed modules are wanted, exports tokens.
-/

namespace DesignTokens

open FileTree Place

namespace BuildContext

variable {c : BuildContext} {tokens : Path} {v w : Place} {kind : LayerKind}

/-- A layer without sources, or one from which a build makes a file in every output directory. -/
def Productive (c : BuildContext) (w : Place) (layer : Layer) : Prop :=
  w.jsonFiles layer.sourceDir = [] ∨ layer.sources.isEmpty = false ∧
    (c.typedModules = true → ∃ tokens ∈ c.exported w layer, tokens ≠ [])

instance (c : BuildContext) (w : Place) (layer : Layer) : Decidable (c.Productive w layer) :=
  inferInstanceAs (Decidable (_ ∨ _ ∧ (_ → _)))

/-- Places with the same sources and outputs; other files may differ. -/
structure Aside (c : BuildContext) (tokens : Path) (v w : Place) : Prop where
  current : w.current = v.current
  sources : ∀ l, v.IsSource tokens l → w.tree.lookup l = v.tree.lookup l
  outputs : ∀ l, c.AllOutputs v l → w.tree.lookup l = v.tree.lookup l

theorem Aside.refl (w : Place) : c.Aside tokens w w :=
  ⟨rfl, fun _ _ => rfl, fun _ _ => rfl⟩

theorem Furnished.aside {layer layer' : Layer} (h : c.Furnished v layer)
    (hv : c.Accessible tokens v) (hw : c.Accessible tokens w) (haside : c.Aside tokens v w)
    (hname : layer.name = kind.dirName) (hdir : layer.sourceDir = tokens.join kind.dirName)
    (hname' : layer'.name = kind.dirName) (hdir' : layer'.sourceDir = tokens.join kind.dirName) :
    c.Furnished w layer' := by
  rw [hv.furnished_iff hname hdir] at h
  rw [hw.furnished_iff hname' hdir', sourceOf_congr haside.current]
  refine h.imp ?_ ?_
  · intro hnone l hl
    rw [IsFile, haside.sources l ⟨kind, hl⟩]
    exact hnone l hl
  · intro hall sub hsub
    obtain ⟨l, hl, hfile⟩ := hall sub hsub
    refine ⟨l, ?_, ?_⟩
    · rwa [target_congr haside.current]
    · rwa [IsFile, haside.outputs l ⟨kind, sub, hsub.cases, hl.1⟩]

end BuildContext

namespace Build

open BuildContext

variable {c : BuildContext} {tokens : Path} {flavor : String} {kind : LayerKind}
  {b s t : BuildState} {layers : List Layer}

theorem Steady.aside (h : Steady c tokens kind s) (hs : c.Accessible tokens s.workspace.place)
    (ht : c.Accessible tokens t.workspace.place)
    (haside : c.Aside tokens s.workspace.place t.workspace.place) (hstore : t.store = s.store) :
    Steady c tokens kind t := by
  have hhashes : t.workspace.place.fingerprint (tokens.join kind.dirName) =
      s.workspace.place.fingerprint (tokens.join kind.dirName) := by
    refine fingerprint_congr ht.wellFormed hs.wellFormed haside.current kind.proper_dirName
      ht.directory hs.directory ?_
    rw [target_congr haside.current]
    intro l hl
    by_cases hjson : endsInJson l
    · rw [jsonAt, jsonAt, haside.sources l ⟨kind, hl, hjson⟩]
    · rw [jsonAt, jsonAt, if_neg hjson, if_neg hjson]
  constructor
  · rw [Unchanged, hstore, hhashes]
    exact h.recorded
  · rw [sourceOf_congr haside.current, wanted_congr haside.current]
    intro l hl time htime m hm later hlater
    rw [modifiedAt, haside.sources l ⟨kind, hl⟩] at htime
    rw [modifiedAt, haside.outputs m ⟨kind, hm.outputs⟩] at hlater
    exact h.ordered l hl time htime m hm later hlater

/-- Files that a layer is built from read as they did before the run. -/
theorem Prepared.readText (h : Prepared c tokens s) {time : Nat} {z : Place}
    (hz : c.Reshaped tokens time s.workspace.place z) {p : Path}
    (hp : p ∈ layerReads (Layer.ofKind s.workspace.place tokens flavor kind)) {text : String}
    (htext : z.readText p = .ok text) : s.workspace.place.readText p = .ok text := by
  have hwf := h.separate.wellFormed
  obtain ⟨other, names, hne, hproper, rfl, hends, -⟩ : ∃ other : LayerKind, ∃ names, names ≠ [] ∧
      (∀ name ∈ names, ProperName name) ∧ p = (tokens.join other.dirName).joinAll names ∧
      endsInJson (s.workspace.place.target tokens ++ [other.dirName] ++ names) ∧
      (s.workspace.place.tree.lookup
        (s.workspace.place.target tokens ++ [other.dirName] ++ names)).isSome := by
    rcases List.mem_append.mp hp with hp | hp
    · obtain ⟨other, -, hp⟩ := Layer.mem_sourceReads_of_mem_dependencies hp
      exact ⟨other, Layer.exists_of_mem_sourceReads hwf hp⟩
    · exact ⟨kind, Layer.exists_of_mem_sourceReads hwf hp⟩
  have htarget : ∀ v : Place, v.target ((tokens.join other.dirName).joinAll names) =
      v.target tokens ++ [other.dirName] ++ names := by
    intro v
    rw [target_joinAll _ hproper, target_join _ other.proper_dirName]
  have hsource : s.workspace.place.IsSource tokens
      (s.workspace.place.target tokens ++ [other.dirName] ++ names) :=
    ⟨other, Below.append hne, hends⟩
  obtain ⟨content, hread⟩ : ∃ content, z.read ((tokens.join other.dirName).joinAll names) =
      .ok content := by
    rw [Place.readText] at htext
    cases hread : z.read ((tokens.join other.dirName).joinAll names) with
    | error e =>
        rw [hread] at htext
        cases htext
    | ok content => exact ⟨content, rfl⟩
  obtain ⟨modified, hnode⟩ := read_eq_ok_iff.mp hread
  have hlookup := (node_eq_ok_iff.mp hnode).2
  rw [htarget, target_congr hz.current] at hlookup
  have hbefore := (h.separate.file_iff hz hsource).mp hlookup
  have hdir := isDirectory_join_of_isFile hwf other.proper_dirName h.directory hne
    (isSome_jsonAt_iff.mpr ⟨hends, content, modified, hbefore⟩)
  rw [← target_join _ other.proper_dirName] at hbefore
  rw [Place.readText, hread] at htext
  rw [Place.readText, read_joinAll hwf hdir hne hbefore]
  exact htext

/-- A layer that was dealt with in a run which started from certain files. -/
structure Completed (c : BuildContext) (tokens : Path) (flavor : String) (start : Place)
    (kind : LayerKind) (s : BuildState) : Prop where
  steady : Steady c tokens kind s
  furnished : c.Productive start (Layer.ofKind start tokens flavor kind) →
    c.Furnished s.workspace.place (Layer.ofKind start tokens flavor kind)

theorem Completed.bypassed {start : Place} (h : Completed c tokens flavor start kind s)
    (hs : Prepared c tokens s) (ht : Bypassed c tokens kind s t) :
    Completed c tokens flavor start kind t := by
  refine ⟨h.steady.bypassed hs ht, fun hproductive => ?_⟩
  have hfurnished := h.furnished hproductive
  rw [hs.accessible.furnished_iff (Layer.name_ofKind _ _ _ _) (Layer.sourceDir_ofKind _ _ _ _)]
    at hfurnished
  rw [(hs.progressed ht.toProgressed).accessible.furnished_iff (Layer.name_ofKind _ _ _ _)
    (Layer.sourceDir_ofKind _ _ _ _), sourceOf_congr ht.reshaped.current]
  refine hfurnished.imp ?_ fun hall sub hsub => ht.filled hsub (hall sub hsub)
  rintro hnone l hl ⟨content, modified, hfile⟩
  exact hnone l hl ⟨content, modified, (hs.separate.file_iff ht.reshaped ⟨kind, hl⟩).mp hfile⟩

theorem Completed.rebuild (hb : Prepared c tokens b) (hs : Progressed c tokens b s)
    (hsuccess : ((c.buildLayer (Layer.ofKind b.workspace.place tokens flavor kind)).run
      s.workspace).1.success = true) {after : BuildState}
    (hafter : after.workspace =
      ((c.buildLayer (Layer.ofKind b.workspace.place tokens flavor kind)).run s.workspace).2)
    (hprogressed : Progressed c tokens s after) (hsteady : Steady c tokens kind after) :
    Completed c tokens flavor b.workspace.place kind after := by
  refine ⟨hsteady, ?_⟩
  have hname := Layer.name_ofKind b.workspace.place tokens flavor kind
  have hdir := Layer.sourceDir_ofKind b.workspace.place tokens flavor kind
  have hbAfter := hs.trans hprogressed
  intro hproductive
  rw [(hb.progressed hbAfter).accessible.furnished_iff hname hdir,
    sourceOf_congr hbAfter.reshaped.current]
  rcases hproductive with hnone | ⟨hsources, hexported⟩
  · left
    have hfurnished : c.Furnished b.workspace.place
        (Layer.ofKind b.workspace.place tokens flavor kind) := .inl hnone
    rintro l hl ⟨content, modified, hfile⟩
    have hbefore := (hb.separate.file_iff hbAfter.reshaped ⟨kind, hl⟩).mp hfile
    obtain ⟨x, hx, -⟩ := hb.accessible.exists_mem_jsonEntries_iff.mpr
      ⟨hl, content, modified, hbefore⟩
    rw [jsonFiles_eq, List.map_eq_nil_iff, hdir] at hnone
    exact List.not_mem_nil (hnone ▸ hx)
  · right
    rw [hafter, ← hname]
    have hplain : PlainLayer (Layer.ofKind b.workspace.place tokens flavor kind) :=
      Layer.plainLayer_ofKind hb.separate.wellFormed
    exact filled_of_success hplain.name (fun l ⟨_, _, hjson⟩ => hjson)
      (fun variants hvariants variant hvariant =>
        (hplain.flavors variants hvariants variant hvariant).name)
      (fun z hz p hp text htext => hb.readText hz hp htext)
      (fun l hl => ⟨kind, hname ▸ hl⟩) hs.stamp hs.reshaped hsuccess hsources hexported

/-- A run of builds that all succeed completes every layer, if those that it leaves alone were. -/
theorem Prepared.followEach (hb : Prepared c tokens b) (hs : Progressed c tokens b s)
    {steps : List (Layer × Decision)}
    (hsteps : ∀ step ∈ steps, ∃ kind,
      step.1 = Layer.ofKind b.workspace.place tokens flavor kind)
    (hsuccess : ∀ result ∈ ((followEach c steps).perform s).1, result.success = true)
    (hcompleted : ∀ kind, (∀ step ∈ steps,
        step.1 = Layer.ofKind b.workspace.place tokens flavor kind → step.2 = .upToDate) →
      Completed c tokens flavor b.workspace.place kind s) :
    Progressed c tokens b ((followEach c steps).perform s).2 ∧
      ∀ kind, Completed c tokens flavor b.workspace.place kind ((followEach c steps).perform s).2 := by
  induction steps generalizing s with
  | nil => exact ⟨hs, fun kind => hcompleted kind fun _ hstep => absurd hstep List.not_mem_nil⟩
  | cons step rest ih =>
      obtain ⟨layer, decision⟩ := step
      obtain ⟨⟨kind, hlayer⟩, hrest⟩ := List.forall_mem_cons.mp hsteps
      dsimp only at hlayer
      subst hlayer
      rw [perform_followEach_cons] at hsuccess ⊢
      dsimp only at hsuccess ⊢
      obtain ⟨hfirst, hlater⟩ := List.forall_mem_cons.mp hsuccess
      cases decision with
      | upToDate =>
          refine ih hs hrest hlater fun other hother => hcompleted other ?_
          exact List.forall_mem_cons.mpr ⟨fun _ => rfl, hother⟩
      | rebuild reason =>
          have hprepared := hb.progressed hs
          change ((Build.rebuild c _).perform s).1.success = true at hfirst
          rw [perform_rebuild] at hfirst
          obtain ⟨recorded, hafter, hworkspace, hprogressed, hsteady, hothers⟩ := hprepared.rebuild
            (Layer.name_ofKind _ _ _ kind) (Layer.sourceDir_ofKind _ _ _ kind) hfirst
          have hown := Completed.rebuild hb hs hfirst hworkspace hprogressed hsteady
          have hrecorded := hprepared.progressed hprogressed
          rw [follow, hafter] at hlater ⊢
          refine ih ((hs.trans hprogressed).trans (hrecorded.bypassed_flush kind).toProgressed) hrest
            hlater fun other hother => ?_
          -- what holds of the other layers is kept by the build and by writing the cache file
          have hbefore : Completed c tokens flavor b.workspace.place other recorded := by
            by_cases heq : other = kind
            · exact heq ▸ hown
            · refine (hcompleted other ?_).bypassed hprepared (hothers other heq)
              refine List.forall_mem_cons.mpr ⟨fun hsame => ?_, hother⟩
              have hname := congrArg Layer.name hsame
              rw [Layer.name_ofKind, Layer.name_ofKind] at hname
              exact absurd (LayerKind.dirName_injective hname).symm heq
          exact hbefore.bypassed hrecorded (hrecorded.bypassed_flush other)

theorem perform_run_of_success {o : BuildOptions}
    (h : BuildReport.success
      ⟨((followEach c (plan o c s.store s.workspace.place layers)).perform s).1, 0⟩ = true) :
    (run o c layers).perform s =
      (⟨((followEach c (plan o c s.store s.workspace.place layers)).perform s).1, 0⟩,
        ((followEach c (plan o c s.store s.workspace.place layers)).perform s).2) := by
  have hrun : (run o c layers).perform s =
      let done := (followEach c (plan o c s.store s.workspace.place layers)).perform s
      let outcome : BuildReport := ⟨done.1, 0⟩
      perform (do
        if !outcome.success then report [.buildFailed outcome.failed.length]
        pure outcome) done.2 := rfl
  rw [hrun]
  dsimp only
  rw [h]
  rfl

/-- A run in which every layer is up to date changes nothing. -/
theorem perform_run_of_upToDate {o : BuildOptions}
    (h : ∀ step ∈ plan o c s.store s.workspace.place layers, step.2 = .upToDate) :
    (run o c layers).perform s =
      (⟨(layers.filter o.selects).map fun layer => .upToDate layer.name, 0⟩, s) := by
  have hfollow : ∀ steps : List (Layer × Decision), (∀ step ∈ steps, step.2 = .upToDate) →
      (followEach c steps).perform s =
        ((steps.map Prod.fst).map fun layer => .upToDate layer.name, s) := by
    intro steps hsteps
    induction steps with
    | nil => rfl
    | cons step rest ih =>
        obtain ⟨layer, decision⟩ := step
        obtain ⟨hfirst, hrest⟩ := List.forall_mem_cons.mp hsteps
        dsimp only at hfirst
        subst hfirst
        rw [perform_followEach_cons]
        change (_ :: ((followEach c rest).perform s).1, ((followEach c rest).perform s).2) = _
        rw [ih hrest]
        rfl
  have hdone := hfollow _ h
  have hlayers : (plan o c s.store s.workspace.place layers).map Prod.fst =
      layers.filter o.selects := map_fst_planFrom _ false _
  have hsuccess : BuildReport.success
      ⟨((followEach c (plan o c s.store s.workspace.place layers)).perform s).1, 0⟩ = true := by
    rw [hdone, BuildReport.success, List.all_map, List.all_eq_true]
    exact fun _ _ => rfl
  rw [perform_run_of_success hsuccess, hdone, hlayers]

theorem Prepared.completed_run (hs : Prepared c tokens s) {force : Bool}
    (hlayers : Layer.discover s.workspace.place tokens flavor = .ok layers)
    (hsuccess : ((run ⟨force, none⟩ c layers).perform s).1.success = true) :
    Progressed c tokens s ((run ⟨force, none⟩ c layers).perform s).2 ∧
      ∀ kind, Completed c tokens flavor s.workspace.place kind
        ((run ⟨force, none⟩ c layers).perform s).2 := by
  obtain ⟨hresults, -⟩ := perform_run ⟨force, none⟩ c layers s
  rw [BuildReport.success, hresults] at hsuccess
  rw [perform_run_of_success hsuccess]
  rw [plan_full] at hsuccess ⊢
  have hfst := map_fst_planFrom (decisionFor ⟨force, none⟩ c s.store s.workspace.place) false layers
  rw [eq_discoverIn_of_discover hlayers, Layer.discoverIn_eq] at hfst hsuccess ⊢
  refine hs.followEach (.refl s) ?_ (List.all_eq_true.mp hsuccess) ?_
  · intro step hstep
    have hmem := hfst ▸ List.mem_map_of_mem (f := Prod.fst) hstep
    obtain ⟨kind, -, heq⟩ := List.mem_map.mp hmem
    exact ⟨kind, heq.symm⟩
  · intro kind hall
    have hmem : Layer.ofKind s.workspace.place tokens flavor kind ∈
        LayerKind.all.map (Layer.ofKind s.workspace.place tokens flavor) :=
      List.mem_map_of_mem kind.mem_all
    rw [← hfst] at hmem
    obtain ⟨⟨_, decision⟩, hstep, rfl⟩ := List.mem_map.mp hmem
    -- a layer that the run leaves alone was up to date on its own account, so it is furnished
    have hdecision := decide_of_decisionFor (decision_of_mem_planFrom hstep (hall _ hstep rfl))
    have hsteady := steady_of_decide hs.accessible (Layer.name_ofKind _ _ _ kind)
      (Layer.sourceDir_ofKind _ _ _ kind) hdecision
    exact ⟨hsteady, fun _ => (hsteady.decide_eq_upToDate_iff hs.accessible
      (Layer.name_ofKind _ _ _ kind) (Layer.sourceDir_ofKind _ _ _ kind)).mp hdecision⟩

/-- After a full run that succeeded, while sources, outputs and cache entries stay as they are, the
next full run builds the first layer with sources that lacks a file in one of its output
directories, with every later one. A layer lacks none if it makes a stylesheet and, where typed
modules are wanted, exports tokens; with such layers only, the next run does nothing at all. -/
theorem run_again {force : Bool} (hseparate : c.Separate tokens s.store.path s.workspace.place)
    (hpast : ∀ l, s.workspace.place.IsSource tokens l → ∀ time,
      s.workspace.place.tree.modifiedAt l = some time → time ≤ s.workspace.stamp)
    (hlayers : Layer.discover s.workspace.place tokens flavor = .ok layers)
    (hsuccess : ((run ⟨force, none⟩ c layers).perform s).1.success = true)
    (hstore : t.store = ((run ⟨force, none⟩ c layers).perform s).2.store)
    (haside : c.Aside tokens ((run ⟨force, none⟩ c layers).perform s).2.workspace.place
      t.workspace.place)
    (haccessible : c.Accessible tokens t.workspace.place) :
    ∃ found, Layer.discover t.workspace.place tokens flavor = .ok found ∧
      let again := (run ⟨false, none⟩ c found).perform t
      ((again.1.results.filter fun result => !result.skipped).map LayerResult.layer =
        (found.dropWhile fun layer => c.Furnished t.workspace.place layer).map Layer.name) ∧
      (∀ layer ∈ layers, c.Productive s.workspace.place layer →
        ∃ layer' ∈ found, layer'.name = layer.name ∧ c.Furnished t.workspace.place layer') ∧
      ((∀ layer ∈ layers, c.Productive s.workspace.place layer) →
        again = (⟨found.map fun layer => .upToDate layer.name, 0⟩, t)) := by
  have hdirectory := Layer.isDirectory_of_discover hlayers
  have hprepared : Prepared c tokens s := ⟨hseparate, hdirectory, hpast⟩
  obtain ⟨hprogressed, hcompleted⟩ := hprepared.completed_run hlayers hsuccess
  have haccessible' := (hprepared.progressed hprogressed).accessible
  rw [eq_discoverIn_of_discover hlayers, Layer.discoverIn_eq]
  refine ⟨Layer.discoverIn t.workspace.place tokens flavor,
    if_pos haccessible.directory, ?_⟩
  rw [Layer.discoverIn_eq]
  intro again
  have hdecision : ∀ kind,
      decisionFor ⟨false, none⟩ c t.store t.workspace.place
        (Layer.ofKind t.workspace.place tokens flavor kind) = .upToDate ↔
      c.Furnished t.workspace.place (Layer.ofKind t.workspace.place tokens flavor kind) := fun kind =>
    ((hcompleted kind).steady.aside haccessible' haccessible haside hstore).decide_eq_upToDate_iff
      haccessible (Layer.name_ofKind _ _ _ _) (Layer.sourceDir_ofKind _ _ _ _)
  -- what the first run made is still there, for the outputs are unchanged
  have hfurnished : ∀ kind,
      c.Productive s.workspace.place (Layer.ofKind s.workspace.place tokens flavor kind) →
      c.Furnished t.workspace.place (Layer.ofKind t.workspace.place tokens flavor kind) :=
    fun kind hproductive => ((hcompleted kind).furnished hproductive).aside haccessible' haccessible
      haside (Layer.name_ofKind _ _ _ _) (Layer.sourceDir_ofKind _ _ _ _)
      (Layer.name_ofKind _ _ _ _) (Layer.sourceDir_ofKind _ _ _ _)
  refine ⟨?_, ?_, ?_⟩
  · rw [built_run]
    refine congrArg (List.map Layer.name) (outdated_eq ?_)
    rw [List.forall_mem_map]
    exact fun kind _ => Decision.needsRebuild_eq (hdecision kind)
  · rw [List.forall_mem_map]
    intro kind hkind hproductive
    refine ⟨_, List.mem_map_of_mem hkind, ?_, hfurnished kind hproductive⟩
    rw [Layer.name_ofKind, Layer.name_ofKind]
  · intro hproductive
    rw [List.forall_mem_map] at hproductive
    refine (perform_run_of_upToDate ?_).trans ?_
    · rw [plan_full]
      refine planFrom_of_upToDate ?_
      rw [List.forall_mem_map]
      exact fun kind hkind => (hdecision kind).mpr (hfurnished kind (hproductive kind hkind))
    · rfl

/-- The settings of a project that wants typed modules. -/
def typedContext : BuildContext :=
  { inkContext "a" with typedModules := true }

/-- The project with one file of ingredients after a build with typed modules. -/
def typedBuilt : BuildState :=
  ((run ⟨false, none⟩ typedContext inkLayers).perform inkStart).2

theorem separate_ink :
    typedContext.Separate ⟨"tokens"⟩ inkStart.store.path inkStart.workspace.place := by
  have htokens : inkStart.workspace.place.target ⟨"tokens"⟩ = ["tokens"] := by decide +kernel
  have hdist : inkStart.workspace.place.target typedContext.outputDir = ["dist"] := by
    decide +kernel
  have hcache : inkStart.workspace.place.target ⟨"cache.json"⟩ = ["cache.json"] := by decide +kernel
  have houtputs : ∀ l, typedContext.AllOutputs inkStart.workspace.place l → Below ["dist"] l := by
    rintro l ⟨kind, sub, -, hl⟩
    rw [hdist] at hl
    exact Below.trans_le (Below.append (List.cons_ne_nil _ _)) hl
  have hsources : ∀ l, inkStart.workspace.place.IsSource ⟨"tokens"⟩ l → ["tokens"] <+: l := by
    rintro l ⟨kind, hl, -⟩
    rw [htokens] at hl
    exact (List.prefix_append _ _).trans hl.1
  refine ⟨by decide +kernel, ?_, ?_, ?_, ?_, ?_⟩
  · show ∀ l ∈ _, _
    decide +kernel
  · have hway : ∀ l ∈ inkStart.workspace.place.route typedContext.outputDir,
        ¬ Below ["dist"] l := by
      decide +kernel
    exact fun l hl hin => hway l hl (houtputs l hin)
  · have hway : ∀ l ∈ inkStart.workspace.place.route ⟨"tokens"⟩, ¬ Below ["dist"] l := by
      decide +kernel
    exact fun l hl hin => hway l hl (houtputs l hin)
  · intro l hl hin _
    have hboth := List.prefix_or_prefix_of_prefix (hsources l hl) (houtputs l hin).1
    exact absurd hboth (by decide)
  · rintro _ ⟨⟩ hin
    rw [hcache] at hin
    exact absurd (hsources _ hin) (by decide)

/-- A second build of typed modules does nothing. -/
theorem run_again_ink :
    ∃ found, Layer.discover typedBuilt.workspace.place ⟨"tokens"⟩ "original" = .ok found ∧
      (run ⟨false, none⟩ typedContext found).perform typedBuilt =
        (⟨found.map fun layer => .upToDate layer.name, 0⟩, typedBuilt) := by
  have hpast : ∀ l, inkStart.workspace.place.IsSource ⟨"tokens"⟩ l → ∀ time,
      inkStart.workspace.place.tree.modifiedAt l = some time →
      time ≤ inkStart.workspace.stamp := by
    have hall : ∀ entry ∈ inkStart.workspace.place.tree.nodes, ∀ time,
        entry.2.modified? = some time → time ≤ inkStart.workspace.stamp := by
      decide +kernel
    rintro l ⟨kind, hl, -⟩ time htime
    obtain ⟨n, hlookup, hn⟩ := Option.bind_eq_some_iff.mp htime
    exact hall _ (mem_nodes_of_lookup (fun heq => Below.not_nil (heq ▸ hl)) hlookup) time hn
  have hlayers : Layer.discover inkStart.workspace.place ⟨"tokens"⟩ "original" = .ok inkLayers := by
    decide +kernel
  have hsuccess :
      ((run ⟨false, none⟩ typedContext inkLayers).perform inkStart).1.success = true := by
    decide +kernel
  have hproductive : ∀ layer ∈ inkLayers,
      typedContext.Productive inkStart.workspace.place layer := by
    decide +kernel
  have hprepared : Prepared typedContext ⟨"tokens"⟩ inkStart :=
    ⟨separate_ink, by decide +kernel, hpast⟩
  have haccessible : typedContext.Accessible ⟨"tokens"⟩ typedBuilt.workspace.place := by
    rw [typedBuilt]
    exact (hprepared.progressed (hprepared.completed_run hlayers hsuccess).1).accessible
  obtain ⟨found, hfound, -, -, hagain⟩ := run_again (t := typedBuilt) separate_ink hpast hlayers
    hsuccess (by rw [typedBuilt]) (by rw [typedBuilt]; exact .refl _) haccessible
  exact ⟨found, hfound, hagain hproductive⟩

/-- A project with one file of ingredients that has no tokens. -/
def emptyStart : BuildState :=
  ⟨⟨⟨⟨[(["tokens"], .directory), (["tokens", "ingredients"], .directory),
      (["tokens", "ingredients", "a.json"], .file "\x7b\x7d".toUTF8 0)]⟩, []⟩, 1, 0, []⟩,
    ⟨some ⟨"cache.json"⟩, []⟩⟩

/-- Without tokens there is no typed module, and every run builds the layer again for the lack of
one. -/
theorem rebuilds_without_tokens :
    let layers := Layer.discoverIn emptyStart.workspace.place ⟨"tokens"⟩ "original"
    let first := (run ⟨false, none⟩ typedContext layers).perform emptyStart
    let second := (run ⟨false, none⟩ typedContext layers).perform first.2
    Layer.discover emptyStart.workspace.place ⟨"tokens"⟩ "original" = .ok layers ∧
      first.1.success = true ∧
      Layer.discover first.2.workspace.place ⟨"tokens"⟩ "original" = .ok layers ∧
      second.1.success = true ∧
      second.1.results.map LayerResult.skipped = [false, false, false] := by
  decide +kernel

end Build

end DesignTokens
