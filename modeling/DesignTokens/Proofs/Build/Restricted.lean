import DesignTokens.Proofs.Build.History

/-!
Runs of all layers mixed with runs of single ones. A layer that is left alone has the sources of its
last successful build. The files that it includes may be others, once a run of a single layer has
made the cache forget about them.
-/

namespace DesignTokens

open FileTree Place BuildContext

namespace Place

variable {u v w : Place} {p : Path}

/-- A file has the same contents in two places. -/
def SameFile (v w : Place) (p : Path) : Prop :=
  ∃ content, v.read p = .ok content ∧ w.read p = .ok content

theorem SameFile.symm (h : v.SameFile w p) : w.SameFile v p := by
  obtain ⟨content, hv, hw⟩ := h
  exact ⟨content, hw, hv⟩

theorem SameFile.trans (huv : u.SameFile v p) (hvw : v.SameFile w p) : u.SameFile w p := by
  obtain ⟨content, hu, hv⟩ := huv
  obtain ⟨content', hv', hw⟩ := hvw
  obtain rfl := Except.ok.inj (hv.symm.trans hv')
  exact ⟨content, hu, hw⟩

theorem sameFile_of_agree {tokens : Path} {flavor : String} {kind : LayerKind}
    (hv : v.TokensAt tokens) (hw : w.TokensAt tokens) (hcurrent : v.current = w.current)
    (hagree : AgreeBelow (v.target tokens ++ [kind.dirName]) v.tree w.tree)
    (hp : p ∈ sourceReads (Layer.ofKind w tokens flavor kind)) : v.SameFile w p := by
  obtain ⟨names, hne, rfl, hsome⟩ := Layer.mem_sourceReads_ofKind hw hp
  obtain ⟨content, hcontent⟩ := Option.isSome_iff_exists.mp hsome
  refine ⟨content, hv.read hne ?_, hw.read hne hcontent⟩
  rw [hagree _ (Below.append hne), target_congr hcurrent, hcontent]

end Place

namespace Build

variable {c : BuildContext} {tokens : Path} {cache : Option Path} {contents : ByteArray → Prop}
  {flavor : String} {kind other : LayerKind} {o : BuildOptions} {s after : BuildState}
  {start : Place} {front back : List LayerKind} {built : List LayerResult}

/-- Whether results tell of a successful build of a layer. -/
def builds (results : List LayerResult) (kind : LayerKind) : Bool :=
  results.any fun result => result.layer == kind.dirName && result.success && !result.skipped

/-- What there is to know about the last successful builds of layers. -/
structure Log where
  /-- The files that the build found. -/
  built : LayerKind → Option Place
  /-- Whether all layers were to be built in that run, and no run of a single layer has built an
  earlier one since. -/
  whole : LayerKind → Bool

/-- Before any build. -/
def Log.empty : Log :=
  ⟨fun _ => none, fun _ => false⟩

/-- After one more run. -/
def Log.next (log : Log) (o : BuildOptions) (w : Place) (results : List LayerResult) : Log where
  built := fun kind => if builds results kind then some w else log.built kind
  whole := fun kind =>
    if builds results kind then o.only.isNone
    else log.whole kind && (o.only.isNone || LayerKind.all.all fun other =>
      !(decide (other.rank < kind.rank) && builds results other))

theorem builds_upToDate_append (kinds : List LayerKind) (built : List LayerResult)
    (kind : LayerKind) :
    builds ((kinds.map fun kind => LayerResult.upToDate kind.dirName) ++ built) kind =
      builds built kind := by
  have hnone : builds (kinds.map fun kind => LayerResult.upToDate kind.dirName) kind = false := by
    rw [builds, List.any_eq_false, List.forall_mem_map]
    intro other _
    simp [LayerResult.upToDate]
  rw [builds, List.any_append, ← builds, ← builds, hnone, Bool.false_or]

/-- A layer that a run has dealt with and that has an entry was built in it. -/
theorem Advanced.builds (hbuilt : ∀ result ∈ built, result.skipped = false)
    (h : Advanced c tokens cache contents flavor start back built s after) {entry : CacheEntry}
    (hentry : after.store.entry? kind.dirName = some entry) (hkind : kind ∈ back) :
    Build.builds built kind = true := by
  obtain ⟨result, hresult, hlayer, hsettled⟩ := exists_of_forall₂ h.results hkind
  have hsuccess : result.success = true :=
    (hsettled ⟨start, 0, 0, []⟩ rfl).1.symm.trans
      ((h.fresh kind hkind entry hentry).2 ⟨start, 0, 0, []⟩ rfl).1
  rw [Build.builds, List.any_eq_true]
  refine ⟨result, hresult, ?_⟩
  rw [hlayer, hsuccess, hbuilt result hresult]
  simp

/-- A layer that was built in a run is one that the run has dealt with. -/
theorem Advanced.mem_of_builds
    (h : Advanced c tokens cache contents flavor start back built s after)
    (hbuilds : Build.builds built kind = true) : kind ∈ back := by
  obtain ⟨result, hresult, hflags⟩ := List.any_eq_true.mp hbuilds
  obtain ⟨other, hother, hlayer, -⟩ := exists_of_forall₂ h.results.flip hresult
  rw [hlayer, Bool.and_eq_true, Bool.and_eq_true, beq_iff_eq] at hflags
  rw [LayerKind.dirName_injective hflags.1.1] at hother
  exact hother

/-- A layer with an entry was built in the run, or it has the entry that it had before. -/
theorem Advanced.entry_cases (hbuilt : ∀ result ∈ built, result.skipped = false)
    (h : Advanced c tokens cache contents flavor start back built s after) {entry : CacheEntry}
    (hentry : after.store.entry? kind.dirName = some entry) :
    Build.builds built kind = true ∧ kind ∈ back ∨
      Build.builds built kind = false ∧ kind ∉ back ∧
        s.store.entry? kind.dirName = some entry := by
  by_cases hkind : kind ∈ back
  · exact .inl ⟨h.builds hbuilt hentry hkind, hkind⟩
  · refine .inr ⟨?_, hkind, ?_⟩
    · rw [← Bool.not_eq_true]
      exact fun hbuilds => hkind (h.mem_of_builds hbuilds)
    · rw [← h.entries kind hkind]
      exact hentry

/-- A cache entry of a layer has the hashes of the files of the last successful build. If that was
part of a full run, earlier layers with an entry were last built from the same files. -/
structure Tracked (c : BuildContext) (tokens : Path) (cache : Option Path)
    (contents : ByteArray → Prop) (s : BuildState) (log : Log) : Prop where
  sound : c.Sound tokens cache contents s.workspace.place
  path : s.store.path = cache
  ascending : Keyed.Ascending s.store.entries
  entries : ∀ kind entry, s.store.entry? kind.dirName = some entry →
    ∃ g, log.built kind = some g ∧ c.Sound tokens cache contents g ∧
      g.current = s.workspace.place.current ∧
      ∃ hashes, g.fingerprint (tokens.join kind.dirName) = .ok hashes ∧
        ∀ key, Keyed.get? key hashes = Keyed.get? key entry.hashes
  whole : ∀ kind other : LayerKind, ∀ entry entry' g g',
    s.store.entry? kind.dirName = some entry → s.store.entry? other.dirName = some entry' →
    other.rank < kind.rank → log.whole kind = true → log.built kind = some g →
    log.built other = some g' → AgreeBelow (g.target tokens ++ [other.dirName]) g.tree g'.tree

theorem tracked_of_no_entries {w : Workspace} (h : c.Sound tokens cache contents w.place)
    (log : Log) : Tracked c tokens cache contents ⟨w, ⟨cache, []⟩⟩ log :=
  ⟨h, rfl, List.Pairwise.nil, fun _ _ hentry => absurd hentry nofun,
    fun _ _ _ _ _ _ hentry => absurd hentry nofun⟩

theorem Edited.tracked {w : Workspace} {log : Log}
    (hedit : Edited tokens contents s.workspace.place w.place)
    (h : Tracked c tokens cache contents s log) :
    Tracked c tokens cache contents ⟨w, s.store⟩ log := by
  refine ⟨hedit.sound h.sound, h.path, h.ascending, ?_, h.whole⟩
  intro kind entry hentry
  obtain ⟨g, hg, hsound, hcurrent, hhashes⟩ := h.entries kind entry hentry
  exact ⟨g, hg, hsound, hcurrent.trans hedit.current.symm, hhashes⟩

/-- A layer whose sources are unchanged has those of its last successful build. -/
theorem Tracked.agree (hcollision : NoCollision contents) {log : Log}
    (h : Tracked c tokens cache contents s log) (hunchanged : Unchanged tokens s kind) :
    ∃ g, log.built kind = some g ∧ c.Sound tokens cache contents g ∧
      g.current = s.workspace.place.current ∧
      AgreeBelow (g.target tokens ++ [kind.dirName]) g.tree s.workspace.place.tree := by
  obtain ⟨entry, -, hentry, -, -⟩ := id hunchanged
  obtain ⟨g, hg, hsound, hcurrent, hhashes⟩ := h.entries kind entry hentry
  exact ⟨g, hg, hsound, hcurrent, hunchanged.agree hcollision hsound h.sound hcurrent hentry hhashes⟩

/-- A full run after which a layer has its entry from a build in the run, or a run that has built no
earlier layer. -/
theorem Tracked.run (hcollision : NoCollision contents)
    (hplain : ∀ content, contents content → PlainContent content) {log : Log}
    (h : Tracked c tokens cache contents s log) (flavor : String) (o : BuildOptions) :
    let done := (Build.run o c (Layer.discoverIn s.workspace.place tokens flavor)).perform s
    Tracked c tokens cache contents done.2
      (log.next o s.workspace.place done.1.results) := by
  intro done
  obtain ⟨front, back, built, hkinds, hresults, hfront, hbuilt, hadvanced⟩ :=
    run_selected flavor o hplain h.sound h.path h.ascending
  have hbuilds : ∀ kind, builds done.1.results kind = builds built kind := by
    intro kind
    rw [hresults, builds_upToDate_append]
  refine ⟨hadvanced.sound, hadvanced.path.trans h.path, hadvanced.ascending, ?_, ?_⟩
  · intro kind entry hentry
    simp only [Log.next, hbuilds]
    rcases hadvanced.entry_cases hbuilt hentry with ⟨hnow, hback⟩ | ⟨hnot, -, hold⟩
    · rw [if_pos hnow]
      exact ⟨s.workspace.place, rfl, h.sound, hadvanced.keeps.current.symm,
        (hadvanced.fresh kind hback entry hentry).1⟩
    · rw [if_neg (by rw [hnot]; exact Bool.false_ne_true)]
      obtain ⟨g, hg, hsound, hcurrent, hhashes⟩ := h.entries kind entry hold
      exact ⟨g, hg, hsound, hcurrent.trans hadvanced.keeps.current.symm, hhashes⟩
  · intro kind other entry entry' g g' hentry hentry' hrank
    simp only [Log.next, hbuilds]
    rcases hadvanced.entry_cases hbuilt hentry with ⟨hnow, -⟩ | ⟨hnot, hout, hold⟩
    · -- the layer was built in a full run, from the files from which earlier ones are left alone
      rw [if_pos hnow, if_pos hnow]
      intro hfull hg hg'
      obtain rfl := Option.some.inj hg
      rcases hadvanced.entry_cases hbuilt hentry' with ⟨hnow', -⟩ | ⟨hnot', hout', -⟩
      · rw [if_pos hnow'] at hg'
        obtain rfl := Option.some.inj hg'
        exact fun _ _ => rfl
      · rw [if_neg (by rw [hnot']; exact Bool.false_ne_true)] at hg'
        have hall := (BuildOptions.kinds_full (Option.isNone_iff_eq_none.mp hfull)).symm.trans hkinds
        have hfirst : other ∈ front :=
          (List.mem_append.mp (hall ▸ other.mem_all)).resolve_right hout'
        obtain ⟨g'', hg'', -, hcurrent, hagree⟩ :=
          h.agree hcollision (unchanged_of_decision (hfront other hfirst))
        obtain rfl := Option.some.inj (hg'.symm.trans hg'')
        rw [target_congr hcurrent] at hagree
        exact hagree.symm
    · rw [if_neg (by rw [hnot]; exact Bool.false_ne_true),
        if_neg (by rw [hnot]; exact Bool.false_ne_true)]
      intro hwhole hg hg'
      obtain ⟨hwhole, hsingle⟩ := Bool.and_eq_true_iff.mp hwhole
      rcases hadvanced.entry_cases hbuilt hentry' with ⟨hnow', hback'⟩ | ⟨hnot', -, hold'⟩
      · have hfull : o.only.isNone = true := by
          refine (Bool.or_eq_true_iff.mp hsingle).resolve_right ?_
          intro hnone
          have hother := List.all_eq_true.mp hnone other other.mem_all
          rw [hnow', decide_eq_true hrank] at hother
          exact absurd hother nofun
        have hall := (BuildOptions.kinds_full (Option.isNone_iff_eq_none.mp hfull)).symm.trans hkinds
        have hfirst : kind ∈ front :=
          (List.mem_append.mp (hall ▸ kind.mem_all)).resolve_right hout
        exact absurd hback' (BuildOptions.not_mem_back hkinds other
          (LayerKind.mem_of_rank_le hall hfirst hrank.le))
      · rw [if_neg (by rw [hnot']; exact Bool.false_ne_true)] at hg'
        exact h.whole kind other entry entry' g g' hold hold' hrank hwhole hg hg'

/-- The states that a project goes through in runs of all layers or of single ones and in changes of
its token files, with the log of its builds. -/
inductive Course (c : BuildContext) (tokens : Path) (cache : Option Path)
    (contents : ByteArray → Prop) (flavor : String) : BuildState → Log → Prop
  | start {w : Workspace} (h : Unbuilt c tokens cache contents w.place) :
    Course c tokens cache contents flavor ⟨w, ⟨cache, []⟩⟩ .empty
  | edit {s : BuildState} {log : Log} {w : Workspace}
    (h : Course c tokens cache contents flavor s log)
    (hedit : Edited tokens contents s.workspace.place w.place) :
    Course c tokens cache contents flavor ⟨w, s.store⟩ log
  | run {s : BuildState} {log : Log} {layers : List Layer}
    (h : Course c tokens cache contents flavor s log) (o : BuildOptions)
    (hlayers : Layer.discover s.workspace.place tokens flavor = .ok layers) :
    Course c tokens cache contents flavor ((Build.run o c layers).perform s).2
      (log.next o s.workspace.place ((Build.run o c layers).perform s).1.results)

theorem Course.tracked (hcollision : NoCollision contents)
    (hplain : ∀ content, contents content → PlainContent content) {log : Log}
    (h : Course c tokens cache contents flavor s log) : Tracked c tokens cache contents s log := by
  induction h with
  | start h => exact tracked_of_no_entries h.sound _
  | edit _ hedit ih => exact hedit.tracked ih
  | run _ o hlayers ih =>
      rw [eq_discoverIn_of_discover hlayers]
      exact ih.run hcollision hplain flavor o

/-- A layer that is left alone has the sources of its last successful build. In a full run its
included files are those of that build too if and only if the earlier layers were last built from the
same ones. That is so if that build was part of a full run and no earlier layer was built by a run of
its own since. -/
theorem Course.sources_of_skipped (hcollision : NoCollision contents)
    (hplain : ∀ content, contents content → PlainContent content) {log : Log}
    (h : Course c tokens cache contents flavor s log) (o : BuildOptions) {layers : List Layer}
    (hlayers : Layer.discover s.workspace.place tokens flavor = .ok layers) :
    let w := s.workspace.place
    let done := (Build.run o c layers).perform s
    ∀ layer ∈ layers, ∀ result ∈ done.1.results, result.layer = layer.name →
      result.skipped = true →
      ∃ g, log.built layer.kind = some g ∧
        (∀ p ∈ sourceReads layer, g.SameFile w p) ∧
        (o.only = none →
          ((∀ p ∈ layer.dependencies, g.SameFile w p) ↔
            ∀ earlier ∈ layers, earlier.kind.rank < layer.kind.rank →
              ∃ g', log.built earlier.kind = some g' ∧
                ∀ p ∈ layer.dependencies, p ∈ sourceReads earlier → g.SameFile g' p) ∧
          (log.whole layer.kind = true →
            (∃ former, Layer.discover g tokens flavor = .ok former ∧ layer ∈ former) ∧
              ∀ p ∈ layer.dependencies, g.SameFile w p)) := by
  intro w done layer hlayer result hresult hname hskipped
  have htracked := h.tracked hcollision hplain
  obtain ⟨front, back, built, hkinds, hresults, hfront, hbuilt, -⟩ :=
    run_selected flavor o hplain htracked.sound htracked.path htracked.ascending
  rw [← eq_discoverIn_of_discover hlayers] at hresults
  rw [eq_discoverIn_of_discover hlayers, Layer.discoverIn_eq] at hlayer
  obtain ⟨kind, -, rfl⟩ := List.mem_map.mp hlayer
  have hkind : kind ∈ front := by
    rw [hresults] at hresult
    rcases List.mem_append.mp hresult with hmem | hmem
    · obtain ⟨other, hother, rfl⟩ := List.mem_map.mp hmem
      rw [Layer.name_ofKind] at hname
      rw [← LayerKind.dirName_injective hname]
      exact hother
    · exact absurd (hskipped.symm.trans (hbuilt result hmem)) nofun
  have hunchanged : ∀ kind ∈ front, Unchanged tokens s kind := fun kind hkind =>
    unchanged_of_decision (hfront kind hkind)
  obtain ⟨g, hg, hsound, hcurrent, hagree⟩ := htracked.agree hcollision (hunchanged kind hkind)
  rw [Layer.kind_ofKind]
  refine ⟨g, hg, ?_, ?_⟩
  · intro p hp
    exact sameFile_of_agree hsound.sources htracked.sound.sources hcurrent hagree hp
  intro hfull
  have hall := (BuildOptions.kinds_full hfull).symm.trans hkinds
  have hearlier : ∀ other : LayerKind, other.rank < kind.rank → ∃ g', log.built other = some g' ∧
      c.Sound tokens cache contents g' ∧ g'.current = w.current ∧
      AgreeBelow (g'.target tokens ++ [other.dirName]) g'.tree w.tree := fun other hrank =>
    htracked.agree hcollision (hunchanged other (LayerKind.mem_of_rank_le hall hkind hrank.le))
  refine ⟨⟨?_, ?_⟩, ?_⟩
  · intro hsame earlier hlayer' hrank
    rw [eq_discoverIn_of_discover hlayers, Layer.discoverIn_eq] at hlayer'
    obtain ⟨other, -, rfl⟩ := List.mem_map.mp hlayer'
    rw [Layer.kind_ofKind] at hrank ⊢
    obtain ⟨g', hg', hsound', hcurrent', hagree'⟩ := hearlier other hrank
    refine ⟨g', hg', ?_⟩
    intro p hp hp'
    have hother : g'.SameFile w p :=
      sameFile_of_agree hsound'.sources htracked.sound.sources hcurrent' hagree' hp'
    exact (hsame p hp).trans hother.symm
  · intro hlogged p hp
    obtain ⟨other, hrank, hp'⟩ := Layer.mem_sourceReads_of_mem_dependencies hp
    obtain ⟨g', hg', hsound', hcurrent', hagree'⟩ := hearlier other hrank
    have hlayer' : Layer.ofKind w tokens flavor other ∈ layers := by
      rw [eq_discoverIn_of_discover hlayers, Layer.discoverIn_eq]
      exact List.mem_map_of_mem other.mem_all
    obtain ⟨g'', hg'', hsame⟩ :=
      hlogged _ hlayer' (by rw [Layer.kind_ofKind]; exact hrank)
    rw [Layer.kind_ofKind] at hg''
    obtain rfl := Option.some.inj (hg'.symm.trans hg'')
    exact (hsame p hp hp').trans
      (sameFile_of_agree hsound'.sources htracked.sound.sources hcurrent' hagree' hp')
  · intro hwhole
    have hupTo : AgreeUpTo (g.target tokens) kind g.tree w.tree := by
      intro other hrank
      rcases hrank.lt_or_eq with hrank | heq
      · obtain ⟨g', hg', -, hcurrent', hagree'⟩ := hearlier other hrank
        obtain ⟨entry, -, hentry, -⟩ := hunchanged kind hkind
        obtain ⟨entry', -, hentry', -⟩ :=
          hunchanged other (LayerKind.mem_of_rank_le hall hkind hrank.le)
        have hboth := htracked.whole kind other entry entry' g g' hentry hentry' hrank hwhole hg hg'
        rw [target_congr (hcurrent'.trans hcurrent.symm)] at hagree'
        exact fun m hm => (hboth m hm).trans (hagree' m hm)
      · rw [LayerKind.rank_injective heq]
        exact hagree
    refine ⟨⟨Layer.discoverIn g tokens flavor, ?_, ?_⟩, ?_⟩
    · rw [Layer.discover, if_pos hsound.sources.directory]
    · rw [Layer.discoverIn_eq, ← Layer.ofKind_congr flavor hsound.sources htracked.sound.sources
        hcurrent hupTo]
      exact List.mem_map_of_mem kind.mem_all
    · intro p hp
      obtain ⟨other, hrank, hp'⟩ := Layer.mem_sourceReads_of_mem_dependencies hp
      exact sameFile_of_agree hsound.sources htracked.sound.sources hcurrent
        (hupTo other hrank.le) hp'

/-- What there is to know about the build of `inkBuilt`. -/
def inkLog : Log :=
  Log.empty.next ⟨false, none⟩ inkStart.workspace.place
    ((run ⟨false, none⟩ (inkContext "a") inkLayers).perform inkStart).1.results

theorem course_ink :
    Course (inkContext "a") ⟨"tokens"⟩ (some ⟨"cache.json"⟩) (· = inkContent) "original" inkBuilt
      inkLog := by
  have hstart : Course (inkContext "a") ⟨"tokens"⟩ (some ⟨"cache.json"⟩) (· = inkContent) "original"
      inkStart .empty :=
    .start unbuilt_ink
  have hlayers : Layer.discover inkStart.workspace.place ⟨"tokens"⟩ "original" = .ok inkLayers := by
    decide +kernel
  exact hstart.run ⟨false, none⟩ hlayers

theorem sources_of_skipped_ink :
    ((run ⟨false, none⟩ (inkContext "a") inkLayers).perform inkBuilt).1.results.map
        LayerResult.skipped = [true, true, true] ∧
      ∀ layer ∈ inkLayers, ∃ g, inkLog.built layer.kind = some g ∧
        (∀ p ∈ sourceReads layer, g.SameFile inkBuilt.workspace.place p) ∧
        ∀ p ∈ layer.dependencies, g.SameFile inkBuilt.workspace.place p := by
  have hskipped : ∀ layer ∈ inkLayers,
      ∃ result ∈ ((run ⟨false, none⟩ (inkContext "a") inkLayers).perform inkBuilt).1.results,
        result.layer = layer.name ∧ result.skipped = true := by
    decide +kernel
  have hwhole : ∀ layer ∈ inkLayers, inkLog.whole layer.kind = true := by
    decide +kernel
  refine ⟨by decide +kernel, fun layer hlayer => ?_⟩
  obtain ⟨result, hresult, hname, hskipped⟩ := hskipped layer hlayer
  obtain ⟨g, hg, hsources, hfull⟩ := course_ink.sources_of_skipped noCollision_ink
    plainContent_ink ⟨false, none⟩ discover_ink layer hlayer result hresult hname hskipped
  exact ⟨g, hg, hsources, ((hfull rfl).2 (hwhole layer hlayer)).2⟩

/-- The bytes of a flavor that refers to the color of `inkContent`. -/
def pageContent : ByteArray :=
  "\x7b\"page\": \x7b\"value\": \"\x7bcolor.ink.value\x7d\"\x7d\x7d".toUTF8

/-- The bytes of a file with another color under the same name. -/
def grayContent : ByteArray :=
  "\x7b\"color\": \x7b\"ink\": \x7b\"value\": \"#333\"\x7d\x7d\x7d".toUTF8

/-- A project with one file of ingredients and one flavor. -/
def pageStart : BuildState :=
  ⟨⟨⟨⟨[(["tokens"], .directory), (["tokens", "ingredients"], .directory),
      (["tokens", "ingredients", "a.json"], .file inkContent 0), (["tokens", "flavors"], .directory),
      (["tokens", "flavors", "original"], .directory),
      (["tokens", "flavors", "original", "flavor.json"], .file pageContent 0)]⟩, []⟩, 1, 0, []⟩,
    ⟨some ⟨"cache.json"⟩, []⟩⟩

def pageLayers : List Layer :=
  Layer.discoverIn pageStart.workspace.place ⟨"tokens"⟩ "original"

def inkFile : Path := ⟨"tokens/ingredients/a.json"⟩

/-- The state with other bytes in the file of ingredients. -/
def recolored (s : BuildState) : BuildState :=
  let w := s.workspace
  let file := ["tokens", "ingredients", "a.json"]
  ⟨{ w with place := ⟨w.place.tree.set file (.file grayContent 1), w.place.current⟩ }, s.store⟩

/-- If the ingredients are changed and built on their own, the next full run leaves the flavor alone
that includes them, though it was built before the change. -/
theorem skipped_after_single_run :
    let first := (run ⟨false, none⟩ (inkContext "a") pageLayers).perform pageStart
    let single := (run ⟨false, some "ingredients"⟩ (inkContext "a") pageLayers).perform
      (recolored first.2)
    let last := (run ⟨false, none⟩ (inkContext "a") pageLayers).perform single.2
    first.1.results.map (fun result => (result.layer, result.success, result.skipped)) =
        [("ingredients", true, false), ("flavors", true, false), ("recipes", true, false)] ∧
      single.1.results.map (fun result => (result.layer, result.skipped)) =
        [("ingredients", false)] ∧
      last.1.results.map (fun result => (result.layer, result.skipped)) =
        [("ingredients", true), ("flavors", true), ("recipes", true)] ∧
      (pageLayers.find? (·.name == "flavors")).map Layer.dependencies = some [inkFile] ∧
      pageStart.workspace.place.read inkFile = .ok inkContent ∧
      single.2.workspace.place.read inkFile = .ok grayContent := by
  decide +kernel

end Build
end DesignTokens
