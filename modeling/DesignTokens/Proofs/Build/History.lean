import DesignTokens.Proofs.Build.Progress

/-!
Histories of full runs. What a run leaves does not depend on what was built before: it is what a
forced run leaves that finds an empty output directory.
-/

namespace DesignTokens

open FileTree Place BuildContext

namespace BuildOptions

/-- The layers that a run deals with. -/
def kinds (o : BuildOptions) : List LayerKind :=
  LayerKind.all.filter fun kind => o.only.all (· == kind.dirName)

theorem nodup_kinds (o : BuildOptions) : o.kinds.Nodup := by
  have hall : LayerKind.all.Nodup := by decide
  exact hall.filter _

theorem not_mem_back {o : BuildOptions} {front back : List LayerKind} (h : o.kinds = front ++ back) :
    ∀ kind ∈ front, kind ∉ back := by
  have hnodup := o.nodup_kinds
  rw [h] at hnodup
  intro kind hfront hback
  exact List.disjoint_of_nodup_append hnodup hfront hback

theorem kinds_full {o : BuildOptions} (h : o.only = none) : o.kinds = LayerKind.all := by
  rw [kinds, h]
  rfl

end BuildOptions

namespace Build

variable {c : BuildContext} {tokens : Path} {cache : Option Path} {contents : ByteArray → Prop}
  {flavor : String} {kind : LayerKind} {force : Bool} {s : BuildState}

theorem perform_run (o : BuildOptions) (c : BuildContext) (layers : List Layer) (s : BuildState) :
    let done := (followEach c (plan o c s.store s.workspace.place layers)).perform s
    ((run o c layers).perform s).1.results = done.1 ∧
      ((run o c layers).perform s).2.store = done.2.store ∧
      ((run o c layers).perform s).2.workspace.place = done.2.workspace.place := by
  intro done
  have hrun : (run o c layers).perform s =
      let outcome : BuildReport := ⟨done.1, 0⟩
      perform (do
        if !outcome.success then report [.buildFailed outcome.failed.length]
        pure outcome) done.2 := rfl
  rw [hrun]
  dsimp only
  cases (!BuildReport.success ⟨done.1, 0⟩) with
  | true => exact ⟨rfl, rfl, rfl⟩
  | false => exact ⟨rfl, rfl, rfl⟩

/-- The report of a run tells for each layer of its plan whether it was left alone. -/
theorem results_run (o : BuildOptions) (c : BuildContext) (layers : List Layer) (s : BuildState) :
    ((run o c layers).perform s).1.results.map (fun result => (result.layer, result.skipped)) =
      (plan o c s.store s.workspace.place layers).map fun step =>
        (step.1.name, !step.2.needsRebuild) := by
  rw [(perform_run o c layers s).1, ← List.zip_map', layer_followEach, skipped_followEach,
    List.zip_map']

theorem plan_full (c : BuildContext) (store : CacheStore) (w : Place) (layers : List Layer) :
    plan ⟨force, none⟩ c store w layers =
      planFrom (decisionFor ⟨force, none⟩ c store w) false layers := by
  have hall : layers.filter (BuildOptions.selects ⟨force, none⟩) = layers :=
    List.filter_eq_self.mpr fun _ _ => rfl
  rw [plan, hall]

/-- A full run builds the layers that are outdated. -/
theorem built_run (c : BuildContext) (layers : List Layer) (s : BuildState) :
    ((((run ⟨force, none⟩ c layers).perform s).1.results.filter fun result =>
        !result.skipped).map LayerResult.layer) =
      (outdated (decisionFor ⟨force, none⟩ c s.store s.workspace.place) layers).map Layer.name := by
  have hrows := congrArg (fun rows : List (String × Bool) =>
    (rows.filter fun row => !row.2).map Prod.fst) (results_run ⟨force, none⟩ c layers s)
  rw [List.filter_map, List.filter_map, List.map_map, List.map_map, plan_full] at hrows
  rw [← filter_planFrom, List.map_map]
  simpa only [Function.comp_def, Bool.not_not] using hrows

theorem plan_discoverIn (o : BuildOptions) (c : BuildContext) (store : CacheStore) (w : Place)
    (tokens : Path) (flavor : String) :
    plan o c store w (Layer.discoverIn w tokens flavor) =
      planFrom (decisionFor o c store w) false (o.kinds.map (Layer.ofKind w tokens flavor)) := by
  have hselects : (o.selects ∘ Layer.ofKind w tokens flavor) =
      fun kind => o.only.all (· == kind.dirName) := by
    funext kind
    rw [Function.comp_apply, BuildOptions.selects, Layer.name_ofKind]
    cases o.only <;> rfl
  rw [plan, Layer.discoverIn_eq, List.filter_map, hselects, BuildOptions.kinds]

/-- All cache entries stand for successful builds from the same files. -/
structure Consistent (c : BuildContext) (tokens : Path) (cache : Option Path)
    (contents : ByteArray → Prop) (flavor : String) (s : BuildState) : Prop where
  sound : c.Sound tokens cache contents s.workspace.place
  path : s.store.path = cache
  ascending : Keyed.Ascending s.store.entries
  fresh : ∃ g : Place, c.Sound tokens cache contents g ∧ g.current = s.workspace.place.current ∧
    (∀ l ∈ c.spine g, g.tree.IsFile l ↔ s.workspace.place.tree.IsFile l) ∧
    ∀ kind, Fresh c tokens flavor g kind s

/-- The sources of a layer have the hashes of its cache entry. -/
def Unchanged (tokens : Path) (s : BuildState) (kind : LayerKind) : Prop :=
  ∃ entry hashes, s.store.entry? kind.dirName = some entry ∧
    s.workspace.place.fingerprint (tokens.join kind.dirName) = .ok hashes ∧
    ∀ key, Keyed.get? key hashes = Keyed.get? key entry.hashes

theorem decide_of_decisionFor {o : BuildOptions} {store : CacheStore} {w : Place} {layer : Layer}
    (h : decisionFor o c store w layer = .upToDate) :
    store.decide w layer.name layer.sourceDir (c.outputDirs layer) = .upToDate := by
  rw [decisionFor] at h
  split at h
  · exact absurd h nofun
  · exact h

theorem unchanged_of_decision {o : BuildOptions} {w : Place}
    (h : decisionFor o c s.store s.workspace.place (Layer.ofKind w tokens flavor kind) =
      .upToDate) : Unchanged tokens s kind := by
  have hdecide := decide_of_decisionFor h
  rw [Layer.name_ofKind, Layer.sourceDir_ofKind] at hdecide
  exact CacheStore.decide_eq_upToDate hdecide

/-- Unchanged sources are those for which the cache entry was made. -/
theorem Unchanged.agree (hcollision : NoCollision contents) {g : Place}
    (hg : c.Sound tokens cache contents g) (hs : c.Sound tokens cache contents s.workspace.place)
    (hcurrent : g.current = s.workspace.place.current) {entry : CacheEntry}
    (hentry : s.store.entry? kind.dirName = some entry)
    (hrecorded : ∃ hashes, g.fingerprint (tokens.join kind.dirName) = .ok hashes ∧
      ∀ key, Keyed.get? key hashes = Keyed.get? key entry.hashes)
    (h : Unchanged tokens s kind) :
    AgreeBelow (g.target tokens ++ [kind.dirName]) g.tree s.workspace.place.tree := by
  have hbelow : ∀ {w : Place}, c.Sound tokens cache contents w →
      ContentsBelow (w.target tokens ++ [kind.dirName]) contents w.tree :=
    fun hw m content hm => hw.contents m content (hm.of_le (List.prefix_append _ _))
  obtain ⟨recorded, hrecorded, hrecordedKeys⟩ := hrecorded
  obtain ⟨entry', hashes, hentry', hhashes, hkeys⟩ := h
  obtain rfl := Option.some.inj (hentry.symm.trans hentry')
  exact agreeBelow_of_fingerprint hg.ready.wellFormed hs.ready.wellFormed hcurrent
    kind.proper_dirName hg.sources.directory hs.sources.directory hcollision (hbelow hg)
    (target_congr hcurrent tokens ▸ hbelow hs) hrecorded hhashes
    fun key => (hrecordedKeys key).trans (hkeys key).symm

/-- If the sources of a layer and of those in front of it are unchanged, the layer is settled. -/
theorem Consistent.settled (hcollision : NoCollision contents)
    (hplain : ∀ content, contents content → PlainContent content)
    (h : Consistent c tokens cache contents flavor s)
    (hunchanged : ∀ other : LayerKind, other.rank ≤ kind.rank → Unchanged tokens s other) :
    c.Settled (Layer.ofKind s.workspace.place tokens flavor kind) true s.workspace.place
        s.workspace.place ∧
      Fresh c tokens flavor s.workspace.place kind s := by
  obtain ⟨g, hg, hcurrent, hfiles, hfresh⟩ := h.fresh
  have hakin : c.Akin tokens kind g s.workspace.place := by
    refine ⟨hcurrent, hfiles, ?_⟩
    intro other hrank
    obtain ⟨entry, -, hentry, -, -⟩ := hunchanged other hrank
    exact (hunchanged other hrank).agree hcollision hg h.sound hcurrent hentry
      (hfresh other entry hentry).1
  obtain ⟨entry, hashes, hentry, hhashes, hkeys⟩ := hunchanged kind le_rfl
  obtain ⟨-, hsettled⟩ := hfresh kind entry hentry
  have hown := hsettled.transport hplain hg h.sound hakin
  refine ⟨hown, ?_⟩
  intro entry' hentry'
  obtain rfl := Option.some.inj (hentry.symm.trans hentry')
  exact ⟨⟨hashes, hhashes, hkeys⟩, hown⟩

theorem Advanced.congr {start : Place} {kinds : List LayerKind} {results : List LayerResult}
    {mid after : BuildState} (h : Advanced c tokens cache contents flavor start kinds results s mid)
    (hstore : after.store = mid.store) (hplace : after.workspace.place = mid.workspace.place) :
    Advanced c tokens cache contents flavor start kinds results s after := by
  obtain ⟨hsound, hkeeps, hpath, hascending, hresults, houtputs, hentries, hfresh⟩ := h
  simp only [← hstore, ← hplace] at hsound hkeeps hpath hascending hresults
  simp only [Fresh, ← hstore, ← hplace] at houtputs hentries hfresh
  exact ⟨hsound, hkeeps, hpath, hascending, hresults, houtputs, hentries, hfresh⟩

/-- A run leaves the selected layers alone up to one that is built again with all that follow. -/
theorem run_selected (flavor : String) (o : BuildOptions)
    (hplain : ∀ content, contents content → PlainContent content)
    (hsound : c.Sound tokens cache contents s.workspace.place) (hpath : s.store.path = cache)
    (hascending : Keyed.Ascending s.store.entries) :
    let done := (run o c (Layer.discoverIn s.workspace.place tokens flavor)).perform s
    ∃ front back built, o.kinds = front ++ back ∧
      done.1.results = (front.map fun kind => .upToDate kind.dirName) ++ built ∧
      (∀ kind ∈ front, decisionFor o c s.store s.workspace.place
        (Layer.ofKind s.workspace.place tokens flavor kind) = .upToDate) ∧
      (∀ result ∈ built, result.skipped = false) ∧
      Advanced c tokens cache contents flavor s.workspace.place back built s done.2 := by
  intro done
  obtain ⟨hresults, hstore, hplace⟩ := perform_run o c
    (Layer.discoverIn s.workspace.place tokens flavor) s
  rw [plan_discoverIn] at hresults hstore hplace
  obtain ⟨front, back, built, hkinds, hsplit, hfront, hbuilt, hadvanced⟩ :=
    planned hplain hsound hpath hascending o.nodup_kinds (Prod.eta _).symm
  exact ⟨front, back, built, hkinds, hresults.trans hsplit, hfront, hbuilt,
    hadvanced.congr hstore hplace⟩

/-- A full run settles all layers. -/
theorem Consistent.run (hcollision : NoCollision contents)
    (hplain : ∀ content, contents content → PlainContent content)
    (h : Consistent c tokens cache contents flavor s) (force : Bool) :
    let done := (Build.run ⟨force, none⟩ c
      (Layer.discoverIn s.workspace.place tokens flavor)).perform s
    Advanced c tokens cache contents flavor s.workspace.place LayerKind.all done.1.results s
      done.2 := by
  intro done
  obtain ⟨front, back, built, hall, hresults, hfront, -, hadvanced⟩ :=
    run_selected flavor ⟨force, none⟩ hplain h.sound h.path h.ascending
  have hdisjoint := BuildOptions.not_mem_back hall
  rw [BuildOptions.kinds_full rfl] at hall
  have hskip : Advanced c tokens cache contents flavor s.workspace.place front
      (front.map fun kind => .upToDate kind.dirName) s s :=
    .skipAll h.sound h.ascending fun kind hkind =>
      h.settled hcollision hplain fun other hrank =>
        unchanged_of_decision (hfront other (LayerKind.mem_of_rank_le hall hkind hrank))
  rw [hall, hresults]
  exact hskip.append hadvanced hdisjoint

/-- After a full run all cache entries stand for builds from the same files. -/
theorem Advanced.consistent {start : Place} {results : List LayerResult} {after : BuildState}
    (hstart : c.Sound tokens cache contents start) (hpath : s.store.path = cache)
    (h : Advanced c tokens cache contents flavor start LayerKind.all results s after) :
    Consistent c tokens cache contents flavor after := by
  refine ⟨h.sound, h.path.trans hpath, h.ascending, start, hstart, h.keeps.current.symm, ?_, ?_⟩
  · intro l hl
    exact (h.keeps.files l hl).symm
  · intro kind
    exact h.fresh kind kind.mem_all

/-- A project before its first build: nothing lies in the output directory. -/
structure Unbuilt (c : BuildContext) (tokens : Path) (cache : Option Path)
    (contents : ByteArray → Prop) (w : Place) : Prop where
  wellFormed : w.tree.WellFormed
  home : w.tree.lookup w.current = some .directory
  directory : w.isDirectory tokens
  regular : RegularBelow (w.target tokens) w.tree
  contents : ContentsBelow (w.target tokens) contents w.tree
  apart : c.Apart tokens cache w
  empty : ∀ l, Below (w.target c.outputDir) l → w.tree.lookup l = none

theorem Unbuilt.sound {w : Place} (h : Unbuilt c tokens cache contents w) :
    c.Sound tokens cache contents w := by
  have horigin : ∀ p, w.tree.lookup (w.origin p) = some .directory := by
    intro p
    rw [origin]
    split
    · exact lookup_nil
    · exact h.home
  refine ⟨⟨h.wellFormed, horigin _, ?_, ?_, ?_⟩, ⟨h.wellFormed, h.directory, h.regular⟩, h.contents,
    h.apart, fun p _ => horigin p⟩
  · intro l hl
    exact (h.apart.outputWay l hl).1
  · intro l hl hsome
    rw [h.empty l hl] at hsome
    cases hsome
  · rintro l hl ⟨content, modified, hfile⟩
    cases (h.empty l hl).symm.trans hfile

theorem Unbuilt.of_nodes {w : Place} (hwf : w.tree.WellFormed)
    (hhome : w.tree.lookup w.current = some .directory) (hdir : w.isDirectory tokens)
    (hapart : c.Apart tokens cache w)
    (hjson : ∀ entry ∈ w.tree.nodes, endsInJson entry.1 →
      ∃ content, entry.2.content? = some content ∧ contents content)
    (hempty : ∀ entry ∈ w.tree.nodes, ¬ Below (w.target c.outputDir) entry.1) :
    Unbuilt c tokens cache contents w := by
  have hnode : ∀ {l l' n}, Below l l' → w.tree.lookup l' = some n → (l', n) ∈ w.tree.nodes :=
    fun hbelow hlookup => mem_nodes_of_lookup (fun heq => Below.not_nil (heq ▸ hbelow)) hlookup
  refine ⟨hwf, hhome, hdir, ?_, ?_, hapart, ?_⟩
  · intro m hm hends hlookup
    obtain ⟨content, hcontent, -⟩ := hjson _ (hnode hm hlookup) hends
    exact absurd hcontent nofun
  · intro m content hm hcontent
    obtain ⟨hends, modified, hlookup⟩ := jsonAt_eq_some_iff.mp hcontent
    obtain ⟨other, hother, hmem⟩ := hjson _ (hnode hm hlookup) hends
    rw [Option.some.inj hother]
    exact hmem
  · intro l hl
    rw [Option.eq_none_iff_forall_ne_some]
    intro n hlookup
    exact hempty _ (hnode hl hlookup) hl

/-- Without cache entries there is nothing to be consistent with. -/
theorem consistent_of_no_entries {w : Workspace} (h : c.Sound tokens cache contents w.place) :
    Consistent c tokens cache contents flavor ⟨w, ⟨cache, []⟩⟩ :=
  ⟨h, rfl, List.Pairwise.nil, w.place, h, rfl, fun _ _ => Iff.rfl, fun _ _ hentry =>
    absurd hentry nofun⟩

/-- The token files are changed. -/
structure Edited (tokens : Path) (contents : ByteArray → Prop) (v w : Place) : Prop where
  current : w.current = v.current
  outside : ∀ l, ¬ Below (v.target tokens) l → w.tree.lookup l = v.tree.lookup l
  wellFormed : w.tree.WellFormed
  regular : RegularBelow (v.target tokens) w.tree
  contents : ContentsBelow (v.target tokens) contents w.tree

/-- Writing a token file is such a change. -/
theorem Edited.of_set {v : Place} (h : c.Sound tokens cache contents v) {l : Location} {name : String}
    {content : ByteArray} (modified : Nat) (hbelow : Below (v.target tokens) (l ++ [name]))
    (hdir : v.tree.lookup l = some .directory) (hname : ProperName name)
    (hnot : v.tree.lookup (l ++ [name]) ≠ some .directory) (hcontent : contents content) :
    Edited tokens contents v ⟨v.tree.set (l ++ [name]) (.file content modified), v.current⟩ := by
  have hne : l ++ [name] ≠ [] := List.append_ne_nil_of_right_ne_nil l (List.cons_ne_nil _ _)
  constructor
  · rfl
  · intro m hm
    exact lookup_set_of_ne hne fun heq => hm (heq ▸ hbelow)
  · exact h.ready.wellFormed.set hdir hname (.inr hnot)
  · intro m hm hjson
    rw [lookup_set hne]
    split
    · exact nofun
    · exact h.sources.regular m hm hjson
  · intro m other hm hother
    obtain ⟨hjson, _, hlookup⟩ := jsonAt_eq_some_iff.mp hother
    rw [lookup_set hne] at hlookup
    split at hlookup
    · obtain ⟨rfl, -⟩ := Node.file.inj (Option.some.inj hlookup)
      exact hcontent
    · exact h.contents m other hm (jsonAt_eq_some_iff.mpr ⟨hjson, _, hlookup⟩)

theorem Edited.sound {v w : Place} (hedit : Edited tokens contents v w)
    (h : c.Sound tokens cache contents v) : c.Sound tokens cache contents w := by
  have hroute : ∀ p, w.route p = v.route p := route_congr hedit.current
  have htarget : ∀ p, w.target p = v.target p := target_congr hedit.current
  have horigin : ∀ p, w.origin p = v.origin p := origin_congr hedit.current
  have hway : ∀ l ∈ v.route c.outputDir, w.tree.lookup l = v.tree.lookup l :=
    fun l hl => hedit.outside l (h.apart.outputWay l hl).2
  have houtput : ∀ l, Below (v.target c.outputDir) l → w.tree.lookup l = v.tree.lookup l :=
    fun l hl => hedit.outside l fun htokens => h.apart.not_below_both hl.1 htokens.1
  have hdirectory : w.isDirectory tokens := by
    obtain ⟨htext, hpassable⟩ := isDirectory_iff.mp h.sources.directory
    rw [isDirectory_iff, hroute]
    refine ⟨htext, ?_⟩
    intro l hl
    rw [hedit.outside l (h.apart.tokensWay l hl).2]
    exact hpassable l hl
  refine ⟨⟨hedit.wellFormed, ?_, ?_, ?_, ?_⟩, ⟨hedit.wellFormed, hdirectory, ?_⟩, ?_,
    h.apart.congr hedit.current, ?_⟩
  · rw [horigin, hway _ (origin_mem_route _)]
    exact h.ready.origin
  · rw [hroute, htarget]
    exact h.ready.straight
  · intro l hl hsome m hm
    rw [htarget] at hl
    rw [hroute] at hm
    rw [houtput l hl] at hsome
    rw [hway m hm]
    exact h.ready.reach l hl hsome m hm
  · intro l hl hfile
    rw [htarget] at hl ⊢
    rw [IsFile, houtput l hl] at hfile
    exact h.ready.deep l hl hfile
  · rw [htarget]
    exact hedit.regular
  · rw [htarget]
    exact hedit.contents
  · intro p hp
    have hmem : v.origin p ∈ v.wayTo p := by
      rw [wayTo]
      exact mem_visits_self _ _
    rw [horigin, hedit.outside _ (h.apart.cacheWay p hp _ hmem).2]
    exact h.cacheOrigin p hp

theorem Edited.consistent {w : Workspace}
    (hedit : Edited tokens contents s.workspace.place w.place)
    (h : Consistent c tokens cache contents flavor s) :
    Consistent c tokens cache contents flavor ⟨w, s.store⟩ := by
  obtain ⟨g, hg, hcurrent, hfiles, hfresh⟩ := h.fresh
  refine ⟨hedit.sound h.sound, h.path, h.ascending, g, hg, hcurrent.trans hedit.current.symm, ?_, ?_⟩
  · intro l hl
    rw [hfiles l hl]
    have hspine : l ∈ c.spine s.workspace.place := spine_congr (c := c) hcurrent ▸ hl
    have hnot : ¬ Below (s.workspace.place.target tokens) l := by
      rcases List.mem_append.mp hspine with hmem | hmem
      · exact (h.sound.apart.outputWay l hmem).2
      · intro hbelow
        refine h.sound.apart.not_below_both ?_ hbelow.1
        rcases List.mem_pair.mp hmem with rfl | rfl
        · exact List.prefix_append _ _
        · exact List.prefix_append _ _
    rw [IsFile, IsFile, hedit.outside l hnot]
  · intro kind entry hentry
    obtain ⟨hhashes, hsettled⟩ := hfresh kind entry hentry
    refine ⟨hhashes, hsettled.of_lookup ?_⟩
    intro l hl
    rw [outputs_congr (c := c) hcurrent] at hl
    exact hedit.outside l fun htokens =>
      h.sound.apart.not_below_both (below_of_outputs hl).1 htokens.1

/-- The states that a project goes through in full runs and in changes of its token files, from a
state without cache entries and outputs on. -/
inductive History (c : BuildContext) (tokens : Path) (cache : Option Path)
    (contents : ByteArray → Prop) (flavor : String) : BuildState → Prop
  | start {w : Workspace} (h : Unbuilt c tokens cache contents w.place) :
    History c tokens cache contents flavor ⟨w, ⟨cache, []⟩⟩
  | edit {s : BuildState} {w : Workspace} (h : History c tokens cache contents flavor s)
    (hedit : Edited tokens contents s.workspace.place w.place) :
    History c tokens cache contents flavor ⟨w, s.store⟩
  | run {s : BuildState} {layers : List Layer} (h : History c tokens cache contents flavor s)
    (force : Bool) (hlayers : Layer.discover s.workspace.place tokens flavor = .ok layers) :
    History c tokens cache contents flavor ((Build.run ⟨force, none⟩ c layers).perform s).2

theorem History.consistent (hcollision : NoCollision contents)
    (hplain : ∀ content, contents content → PlainContent content)
    (h : History c tokens cache contents flavor s) :
    Consistent c tokens cache contents flavor s := by
  induction h with
  | start h => exact consistent_of_no_entries h.sound
  | edit _ hedit ih => exact hedit.consistent ih
  | run _ force hlayers ih =>
      rw [eq_discoverIn_of_discover hlayers]
      exact (ih.run hcollision hplain force).consistent ih.sound ih.path

/-- Without its outputs a project is as before its first build. -/
def cleaned (c : BuildContext) (s : BuildState) : BuildState :=
  let w := s.workspace.place
  ⟨{ s.workspace with place := ⟨w.tree.clear (w.target c.outputDir), w.current⟩ },
    ⟨s.store.path, []⟩⟩

theorem map_eq_of_forall₂ {α β γ : Type} {R S : α → β → Prop} {f : β → γ} {xs : List α}
    {ys zs : List β} (hys : List.Forall₂ R xs ys) (hzs : List.Forall₂ S xs zs)
    (h : ∀ x y z, R x y → S x z → f y = f z) : ys.map f = zs.map f := by
  induction hys generalizing zs with
  | nil =>
      cases hzs
      rfl
  | cons hxy _ ih =>
      rcases hzs with _ | ⟨hxz, hzs⟩
      rw [List.map_cons, List.map_cons, h _ _ _ hxy hxz, ih hzs]

theorem exists_of_forall₂ {α β : Type} {R : α → β → Prop} {xs : List α} {ys : List β}
    (h : List.Forall₂ R xs ys) {x : α} (hx : x ∈ xs) : ∃ y ∈ ys, R x y := by
  induction h with
  | nil => exact absurd hx List.not_mem_nil
  | cons hxy _ ih =>
      rcases List.mem_cons.mp hx with rfl | hx
      · exact ⟨_, List.mem_cons_self, hxy⟩
      · obtain ⟨y, hy, hR⟩ := ih hx
        exact ⟨y, List.mem_cons_of_mem _ hy, hR⟩

/-- Every full run succeeds for the same layers and leaves the same outputs as a forced run that
finds an empty output directory and no cache entries. -/
theorem History.run_eq_clean (hcollision : NoCollision contents)
    (hplain : ∀ content, contents content → PlainContent content)
    (h : History c tokens cache contents flavor s) (force : Bool) {layers : List Layer}
    (hlayers : Layer.discover s.workspace.place tokens flavor = .ok layers) :
    let done := (Build.run ⟨force, none⟩ c layers).perform s
    let clean := (Build.run ⟨true, none⟩ c layers).perform (cleaned c s)
    Layer.discover (cleaned c s).workspace.place tokens flavor = .ok layers ∧
      done.1.results.map (fun result => (result.layer, result.success)) =
        clean.1.results.map (fun result => (result.layer, result.success)) ∧
      ∀ layer ∈ layers, ∀ l, c.Outputs s.workspace.place layer.name l →
        done.2.workspace.place.tree.contentAt l = clean.2.workspace.place.tree.contentAt l := by
  intro done clean
  have hconsistent := h.consistent hcollision hplain
  have hsound := hconsistent.sound
  obtain ⟨hcleared, hkeeps⟩ := hsound.cleared
  have hempty : Consistent c tokens cache contents flavor (cleaned c s) := by
    rw [cleaned, hconsistent.path]
    exact consistent_of_no_entries hcleared
  have hsame : ∀ kind, Layer.ofKind s.workspace.place tokens flavor kind =
      Layer.ofKind (cleaned c s).workspace.place tokens flavor kind := fun kind =>
    Layer.ofKind_congr flavor hsound.sources hcleared.sources hkeeps.current.symm
      (hkeeps.akin kind).agree
  have hdiscover : layers = Layer.discoverIn (cleaned c s).workspace.place tokens flavor := by
    rw [eq_discoverIn_of_discover hlayers, Layer.discoverIn_eq, Layer.discoverIn_eq,
      List.map_inj_left.mpr fun kind _ => hsame kind]
  have hdone := hconsistent.run hcollision hplain force
  have hclean := hempty.run hcollision hplain true
  rw [← eq_discoverIn_of_discover hlayers] at hdone
  rw [← hdiscover] at hclean
  -- both runs leave what a build from the present sources gives
  have hboth : ∀ kind success success',
      c.Settled (Layer.ofKind s.workspace.place tokens flavor kind) success s.workspace.place
        done.2.workspace.place →
      c.Settled (Layer.ofKind (cleaned c s).workspace.place tokens flavor kind) success'
        (cleaned c s).workspace.place clean.2.workspace.place →
      success = success' ∧ ∀ l, c.Outputs s.workspace.place kind.dirName l →
        done.2.workspace.place.tree.contentAt l = clean.2.workspace.place.tree.contentAt l := by
    intro kind success success' hsettled hsettled'
    obtain ⟨hsuccess, hcontents⟩ := hsettled s.workspace rfl
    obtain ⟨hsuccess', hcontents'⟩ :=
      hsettled'.transport hplain hcleared hsound (hkeeps.akin kind).symm s.workspace rfl
    rw [Layer.name_ofKind] at hcontents hcontents'
    exact ⟨hsuccess.symm.trans hsuccess', fun l hl => (hcontents l hl).trans (hcontents' l hl).symm⟩
  refine ⟨?_, ?_, ?_⟩
  · have hdirectory : (cleaned c s).workspace.place.isDirectory tokens := hcleared.sources.directory
    rw [Layer.discover, if_pos hdirectory, ← hdiscover]
  · refine map_eq_of_forall₂ hdone.results hclean.results ?_
    rintro kind result result' ⟨hlayer, hsettled⟩ ⟨hlayer', hsettled'⟩
    rw [hlayer, hlayer', (hboth kind _ _ hsettled hsettled').1]
  · rw [eq_discoverIn_of_discover hlayers, Layer.discoverIn_eq, List.forall_mem_map]
    intro kind _
    rw [Layer.name_ofKind]
    obtain ⟨result, -, -, hsettled⟩ := exists_of_forall₂ hdone.results kind.mem_all
    obtain ⟨result', -, -, hsettled'⟩ := exists_of_forall₂ hclean.results kind.mem_all
    exact (hboth kind _ _ hsettled hsettled').2

/-- The bytes of a file with one color. -/
def inkContent : ByteArray :=
  "\x7b\"color\": \x7b\"ink\": \x7b\"value\": \"#000\"\x7d\x7d\x7d".toUTF8

/-- A project with one file of ingredients. -/
def inkWorkspace : Workspace :=
  ⟨⟨⟨[(["tokens"], .directory), (["tokens", "ingredients"], .directory),
      (["tokens", "ingredients", "a.json"], .file inkContent 0)]⟩, []⟩, 1, 0, []⟩

def inkContext (stem : String) : BuildContext :=
  ⟨⟨"dist"⟩, stem, Selectors.standard, ModeRegistry.builtin, false, "stamp"⟩

def inkLayers : List Layer :=
  Layer.discoverIn inkWorkspace.place ⟨"tokens"⟩ "original"

def inkStart : BuildState :=
  ⟨inkWorkspace, ⟨some ⟨"cache.json"⟩, []⟩⟩

/-- The project after its first build. -/
def inkBuilt : BuildState :=
  ((run ⟨false, none⟩ (inkContext "a") inkLayers).perform inkStart).2

theorem unbuilt_ink :
    Unbuilt (inkContext "a") ⟨"tokens"⟩ (some ⟨"cache.json"⟩) (· = inkContent)
      inkWorkspace.place := by
  refine .of_nodes (by decide +kernel) lookup_nil (by decide +kernel) ?_ ?_ (by decide +kernel)
  · constructor
    · decide +kernel
    · decide +kernel
    · decide +kernel
    · rintro _ ⟨⟩
      decide +kernel
    · rintro _ ⟨⟩
      decide +kernel
  · have hall : ∀ entry ∈ inkWorkspace.place.tree.nodes, endsInJson entry.1 →
        entry.2.content? = some inkContent := by
      decide +kernel
    intro entry hentry hjson
    exact ⟨inkContent, hall entry hentry hjson, rfl⟩

theorem noCollision_ink : NoCollision (· = inkContent) := by
  rintro a b rfl rfl _
  rfl

theorem plainContent_ink : ∀ content, content = inkContent → PlainContent content := by
  rintro _ rfl
  decide +kernel

theorem history_ink :
    History (inkContext "a") ⟨"tokens"⟩ (some ⟨"cache.json"⟩) (· = inkContent) "original"
      inkBuilt := by
  have hlayers : Layer.discover inkWorkspace.place ⟨"tokens"⟩ "original" = .ok inkLayers := by
    decide +kernel
  exact .run (.start unbuilt_ink) false hlayers

theorem discover_ink :
    Layer.discover inkBuilt.workspace.place ⟨"tokens"⟩ "original" = .ok inkLayers := by
  decide +kernel

/-- A second run leaves every layer alone. -/
theorem run_eq_clean_ink :
    let done := (run ⟨false, none⟩ (inkContext "a") inkLayers).perform inkBuilt
    let clean := (run ⟨true, none⟩ (inkContext "a") inkLayers).perform
      (cleaned (inkContext "a") inkBuilt)
    done.1.results.map LayerResult.skipped = [true, true, true] ∧
      done.1.results.map (fun result => (result.layer, result.success)) =
        clean.1.results.map (fun result => (result.layer, result.success)) ∧
      ∀ layer ∈ inkLayers, ∀ l, (inkContext "a").Outputs inkBuilt.workspace.place layer.name l →
        done.2.workspace.place.tree.contentAt l = clean.2.workspace.place.tree.contentAt l := by
  obtain ⟨-, hresults, houtputs⟩ :=
    history_ink.run_eq_clean noCollision_ink plainContent_ink false discover_ink
  refine ⟨?_, hresults, houtputs⟩
  decide +kernel

/-- A project with one file of recipes. -/
def recipeStart : BuildState :=
  ⟨⟨⟨⟨[(["tokens"], .directory), (["tokens", "recipes"], .directory),
      (["tokens", "recipes", "a.json"], .file inkContent 0)]⟩, []⟩, 1, 0, []⟩,
    ⟨some ⟨"cache.json"⟩, []⟩⟩

def recipeLayers : List Layer :=
  Layer.discoverIn recipeStart.workspace.place ⟨"tokens"⟩ "original"

def withoutRecipes (w : Place) : Place :=
  ⟨w.tree.prune ["tokens", "recipes", "a.json"], w.current⟩

def emptyLayers : List Layer :=
  Layer.discoverIn (withoutRecipes recipeStart.workspace.place) ⟨"tokens"⟩ "original"

/-- The way to the output directory enters and leaves the outputs of the flavors. -/
def windingContext : BuildContext :=
  { inkContext "a" with outputDir := ⟨"dist/css/flavors/../.."⟩ }

/-- The project with its file removed after the first build. -/
def recipesRemoved : BuildState :=
  let built := ((run ⟨false, none⟩ windingContext recipeLayers).perform recipeStart).2
  ⟨{ built.workspace with place := withoutRecipes built.workspace.place }, built.store⟩

/-- Where the way to the output directory leads through the outputs of a layer, these are cleared
first: the outputs of a later layer are not found then, and the stylesheet of a file that is gone
stays. -/
theorem winding_run_ne_clean :
    let start := recipeStart.workspace.place
    let done := (run ⟨true, none⟩ windingContext emptyLayers).perform recipesRemoved
    let clean := (run ⟨true, none⟩ windingContext emptyLayers).perform
      (cleaned windingContext recipesRemoved)
    let sheet : Location := ["dist", "css", "recipes", "tokens.css"]
    NoCollision (· = inkContent) ∧ PlainContent inkContent ∧
      ¬ Overlap (start.target windingContext.outputDir) (start.target ⟨"tokens"⟩) ∧
      ¬ Overlap (start.target windingContext.outputDir) (start.target ⟨"cache.json"⟩) ∧
      ¬ Overlap (start.target ⟨"tokens"⟩) (start.target ⟨"cache.json"⟩) ∧
      (∀ entry ∈ start.tree.nodes, ¬ Below (start.target windingContext.outputDir) entry.1) ∧
      Layer.discover start ⟨"tokens"⟩ "original" = .ok recipeLayers ∧
      windingContext.Outputs start "recipes" sheet ∧
      Layer.discover recipesRemoved.workspace.place ⟨"tokens"⟩ "original" = .ok emptyLayers ∧
      done.1.results.map LayerResult.success = [true, true, true] ∧
      clean.1.results.map LayerResult.success = [true, true, true] ∧
      (done.2.workspace.place.tree.contentAt sheet).isSome ∧
      clean.2.workspace.place.tree.contentAt sheet = none := by
  refine ⟨noCollision_ink, plainContent_ink _ rfl, by decide +kernel, by decide +kernel,
    by decide +kernel, by decide +kernel, by decide +kernel, ⟨"css", .inl rfl, by decide +kernel⟩,
    by decide +kernel⟩

end Build

end DesignTokens
