import DesignTokens.Proofs.Build.History
import DesignTokens.Proofs.Layer.Operations

/-!
Which layers have cache entries after any sequence of runs and changes of files: those whose last
build succeeded. A layer that failed is built again until it succeeds.
-/

namespace DesignTokens

open FileTree Job

/-- A well-formed tree stays well-formed. -/
def Sturdy (x y : Workspace) : Prop :=
  x.place.tree.WellFormed → y.place.tree.WellFormed

theorem chain_sturdy : Chain Sturdy :=
  ⟨fun _ h => h, fun hxy hyz h => hyz (hxy h), fun _ _ h => h⟩

theorem sturdy_writeText {ε : Type} (refuseDirectory : Path → FileError → ε)
    (refuseFile : FileError → ε) (p : Path) (text : String) :
    Within Sturdy (writeText refuseDirectory refuseFile p text) :=
  chain_sturdy.writeText refuseDirectory refuseFile text
    (fun _ _ hopened hwf => hopened.wellFormed hwf)
    (fun _ _ hwrite hwf => Place.wellFormed_write hwf hwrite)

theorem sturdy_buildLayer (c : BuildContext) (layer : Layer) (x : Workspace) :
    Sturdy x ((c.buildLayer layer).run x).2 := by
  refine BuildContext.run_buildLayer_within chain_sturdy c layer ?_ ?_ x
  · intro p _ stamp body
    exact chain_sturdy.bind (sturdy_writeText _ _ _ _) fun _ => chain_sturdy.pure _
  · intro dir _
    exact BuildContext.within_clearDirectory chain_sturdy dir fun y _ hwf =>
      Place.wellFormed_removeDirectory hwf dir

namespace Build

theorem sturdy_flush (s : BuildState) : Sturdy s.workspace (flush.perform s).2.workspace := by
  have hstore : Within Sturdy s.store.flush := by
    rw [CacheStore.flush]
    split
    · exact chain_sturdy.pure _
    · exact sturdy_writeText _ _ _ _
  intro hwf
  rw [(perform_flush s).2]
  exact hstore s.workspace hwf

/-- A build of a layer that a run tried. -/
structure Attempt where
  layer : Layer
  success : Bool
  /-- The files as the build left them. -/
  place : Place

/-- The builds that following the steps of a plan tries, in their order. -/
def attemptsOf (c : BuildContext) : List (Layer × Decision) → BuildState → List Attempt
  | [], _ => []
  | (layer, .upToDate) :: rest, s => attemptsOf c rest ((follow c layer .upToDate).perform s).2
  | (layer, .rebuild reason) :: rest, s =>
    let built := (c.buildLayer layer).run s.workspace
    ⟨layer, built.1.success, built.2.place⟩ ::
      attemptsOf c rest ((follow c layer (.rebuild reason)).perform s).2

def attempts (o : BuildOptions) (c : BuildContext) (layers : List Layer) (s : BuildState) :
    List Attempt :=
  attemptsOf c (plan o c s.store s.workspace.place layers) s

theorem results_attemptsOf (c : BuildContext) (steps : List (Layer × Decision)) (s : BuildState) :
    (attemptsOf c steps s).map (fun attempt => (attempt.layer.name, attempt.success)) =
      (((followEach c steps).perform s).1.filter fun result => !result.skipped).map
        fun result => (result.layer, result.success) := by
  induction steps generalizing s with
  | nil => rfl
  | cons step rest ih =>
      obtain ⟨layer, decision⟩ := step
      rw [perform_followEach_cons]
      cases decision with
      | upToDate =>
          rw [attemptsOf, ih]
          rfl
      | rebuild reason =>
          have hresult : ((follow c layer (.rebuild reason)).perform s).1 =
              ((c.buildLayer layer).run s.workspace).1 := by
            rw [follow, perform_rebuild]
          obtain ⟨-, hlayer, -⟩ := BuildContext.run_buildLayer c layer s.workspace
          rw [attemptsOf, List.map_cons, ih, List.filter_cons_of_pos, List.map_cons, hresult, hlayer]
          rw [hresult, skipped_buildLayer]
          rfl

/-- The report of a run tells of what it tried: the results of layers that were not skipped. -/
theorem results_attempts (o : BuildOptions) (c : BuildContext) (layers : List Layer)
    (s : BuildState) :
    (attempts o c layers s).map (fun attempt => (attempt.layer.name, attempt.success)) =
      (((run o c layers).perform s).1.results.filter fun result => !result.skipped).map
        fun result => (result.layer, result.success) := by
  rw [attempts, results_attemptsOf, (perform_run o c layers s).1]

/-- The last build of a layer of some name in a log that has the latest ones first. -/
def latest (log : List Attempt) (name : String) : Option Attempt :=
  log.find? fun attempt => attempt.layer.name == name

theorem latest_cons (attempt : Attempt) (log : List Attempt) (name : String) :
    latest (attempt :: log) name =
      if name = attempt.layer.name then some attempt else latest log name := by
  rw [latest, List.find?_cons]
  by_cases hname : name = attempt.layer.name
  · rw [if_pos hname, hname, beq_self_eq_true]
  · rw [if_neg hname, beq_false_of_ne (Ne.symm hname)]
    rfl

/-- The entries of a cache store stand for the last builds that succeeded. -/
structure Accounted (log : List Attempt) (s : BuildState) : Prop where
  wellFormed : s.workspace.place.tree.WellFormed
  ascending : Keyed.Ascending s.store.entries
  entries : ∀ name entry, s.store.entry? name = some entry →
    ∃ attempt, latest log name = some attempt ∧ attempt.success = true ∧
      attempt.place.fingerprint attempt.layer.sourceDir = .ok entry.hashes
  successes : ∀ name attempt, latest log name = some attempt → attempt.success = true →
    (s.store.entry? name).isSome

variable {c : BuildContext} {log : List Attempt} {s : BuildState}

theorem Accounted.congr (h : Accounted log s) {t : BuildState} (hstore : t.store = s.store)
    (hwf : t.workspace.place.tree.WellFormed) : Accounted log t := by
  refine ⟨hwf, ?_, ?_, ?_⟩
  · rw [hstore]
    exact h.ascending
  · rw [hstore]
    exact h.entries
  · rw [hstore]
    exact h.successes

theorem Accounted.flush (h : Accounted log s) : Accounted log (flush.perform s).2 :=
  h.congr (perform_flush s).1 (sturdy_flush s h.wellFormed)

/-- A build that succeeded is recorded with the hashes that its sources have after it. -/
theorem Accounted.record (h : Accounted log s) {w : Workspace} (hwf : w.place.tree.WellFormed)
    (layer : Layer) :
    Accounted (⟨layer, true, w.place⟩ :: log) ((record layer).perform ⟨w, s.store⟩).2 := by
  have hhashes := Place.fingerprint_eq hwf layer.sourceDir
  rw [perform_record layer ⟨w, s.store⟩ hhashes]
  refine Accounted.flush ⟨hwf, h.ascending.putSorted, ?_, ?_⟩
  · intro name entry hentry
    rw [CacheStore.entry?_replace] at hentry
    rw [latest_cons]
    dsimp only at hentry ⊢
    split at hentry
    · rename_i hname
      obtain rfl := Option.some.inj hentry
      exact ⟨_, if_pos hname, rfl, hhashes⟩
    · rename_i hname
      rw [if_neg hname]
      exact h.entries name entry hentry
  · intro name attempt hlatest hsuccess
    rw [CacheStore.entry?_replace]
    rw [latest_cons] at hlatest
    dsimp only at hlatest ⊢
    split
    · rfl
    · rename_i hname
      rw [if_neg hname] at hlatest
      exact h.successes name attempt hlatest hsuccess

theorem Accounted.forget (h : Accounted log s) {w : Workspace} (hwf : w.place.tree.WellFormed)
    (layer : Layer) :
    Accounted (⟨layer, false, w.place⟩ :: log) ((forget layer).perform ⟨w, s.store⟩).2 := by
  have hother : ∀ name, name ≠ layer.name →
      latest (⟨layer, false, w.place⟩ :: log) name = latest log name := by
    intro name hname
    rw [latest_cons, if_neg hname]
  have hfailed : ∀ name attempt, latest (⟨layer, false, w.place⟩ :: log) name = some attempt →
      attempt.success = true → name ≠ layer.name := by
    rintro name attempt hlatest hsuccess rfl
    rw [latest_cons, if_pos rfl] at hlatest
    obtain rfl := Option.some.inj hlatest
    exact Bool.false_ne_true hsuccess
  rw [perform_forget]
  dsimp only
  split
  · refine Accounted.flush ⟨hwf, h.ascending.erase, ?_, ?_⟩
    · intro name entry hentry
      have hname : name ≠ layer.name := by
        rintro rfl
        exact absurd ((CacheStore.entry?_remove_self h.ascending layer.name).symm.trans hentry)
          nofun
      rw [hother name hname]
      exact h.entries name entry ((CacheStore.entry?_remove_of_ne s.store hname).symm.trans hentry)
    · intro name attempt hlatest hsuccess
      have hname := hfailed name attempt hlatest hsuccess
      rw [hother name hname] at hlatest
      dsimp only
      rw [CacheStore.entry?_remove_of_ne s.store hname]
      exact h.successes name attempt hlatest hsuccess
  · -- without an entry nothing is changed, and the failed build leaves it without one
    rename_i hnone
    refine ⟨hwf, h.ascending, ?_, ?_⟩
    · intro name entry hentry
      have hname : name ≠ layer.name := by
        rintro rfl
        exact hnone (by rw [hentry]; rfl)
      rw [hother name hname]
      exact h.entries name entry hentry
    · intro name attempt hlatest hsuccess
      rw [hother name (hfailed name attempt hlatest hsuccess)] at hlatest
      exact h.successes name attempt hlatest hsuccess

theorem Accounted.rebuild (h : Accounted log s) (layer : Layer) :
    let built := (c.buildLayer layer).run s.workspace
    Accounted (⟨layer, built.1.success, built.2.place⟩ :: log)
      ((rebuild c layer).perform s).2 := by
  intro built
  have hwf : built.2.place.tree.WellFormed := sturdy_buildLayer c layer s.workspace h.wellFormed
  have hrebuilt : ((Build.rebuild c layer).perform s).2 =
      ((if built.1.success then Build.record layer else Build.forget layer).perform
        ⟨built.2, s.store⟩).2 := by
    rw [perform_rebuild]
  rw [hrebuilt]
  cases built.1.success with
  | true => exact h.record hwf layer
  | false => exact h.forget hwf layer

theorem Accounted.followEach (h : Accounted log s) (steps : List (Layer × Decision)) :
    Accounted ((attemptsOf c steps s).reverse ++ log) ((followEach c steps).perform s).2 := by
  induction steps generalizing s log with
  | nil => exact h
  | cons step rest ih =>
      obtain ⟨layer, decision⟩ := step
      rw [perform_followEach_cons]
      cases decision with
      | upToDate => exact ih h
      | rebuild reason =>
          -- the log grows at its front, so the rest of the run goes on from this build's entry
          rw [attemptsOf, List.reverse_cons, List.append_assoc]
          exact ih (h.rebuild layer)

/-- The states that a cache store goes through which starts empty, with the builds that were tried
so far, the latest ones first. Between runs the files may change in any way. -/
inductive Timeline : List Attempt → BuildState → Prop
  | start {w : Workspace} (hwf : w.place.tree.WellFormed) (path : Option Path) :
    Timeline [] ⟨w, ⟨path, []⟩⟩
  | edit {log : List Attempt} {s : BuildState} {w : Workspace} (h : Timeline log s)
    (hwf : w.place.tree.WellFormed) : Timeline log ⟨w, s.store⟩
  | run {log : List Attempt} {s : BuildState} (h : Timeline log s) (o : BuildOptions)
    (c : BuildContext) (layers : List Layer) :
    Timeline ((attempts o c layers s).reverse ++ log) ((Build.run o c layers).perform s).2

theorem Timeline.accounted (h : Timeline log s) : Accounted log s := by
  induction h with
  | start hwf path => exact ⟨hwf, .nil, fun _ _ h => absurd h nofun, fun _ _ h => absurd h nofun⟩
  | edit _ hwf ih => exact ⟨hwf, ih.ascending, ih.entries, ih.successes⟩
  | @run log s _ o c layers ih =>
      have hdone := ih.followEach (c := c) (plan o c s.store s.workspace.place layers)
      obtain ⟨-, hstore, hplace⟩ := perform_run o c layers s
      exact hdone.congr hstore (hplace ▸ hdone.wellFormed)

/-- After any sequence of runs, a layer has a cache entry exactly if its last build succeeded, and
the entry has the hashes of its sources at that build. So a layer whose last build failed, or that
was never built, is not planned as up to date. -/
theorem Timeline.entry_iff (h : Timeline log s) :
    (∀ name, (s.store.entry? name).isSome ↔
      ∃ attempt, latest log name = some attempt ∧ attempt.success = true) ∧
    (∀ name entry, s.store.entry? name = some entry →
      ∃ attempt, latest log name = some attempt ∧ attempt.success = true ∧
        attempt.place.fingerprint attempt.layer.sourceDir = .ok entry.hashes) ∧
    ∀ o c layers, ∀ step ∈ plan o c s.store s.workspace.place layers,
      (∀ attempt, latest log step.1.name = some attempt → attempt.success = false) →
        step.2.needsRebuild := by
  have haccounted := h.accounted
  have hiff : ∀ name, (s.store.entry? name).isSome ↔
      ∃ attempt, latest log name = some attempt ∧ attempt.success = true := by
    intro name
    constructor
    · intro hsome
      obtain ⟨entry, hentry⟩ := Option.isSome_iff_exists.mp hsome
      obtain ⟨attempt, hlatest, hsuccess, -⟩ := haccounted.entries name entry hentry
      exact ⟨attempt, hlatest, hsuccess⟩
    · rintro ⟨attempt, hlatest, hsuccess⟩
      exact haccounted.successes name attempt hlatest hsuccess
  refine ⟨hiff, haccounted.entries, ?_⟩
  intro o c layers step hstep hfailed
  have hnone : s.store.entry? step.1.name = none := by
    rw [← Option.not_isSome_iff_eq_none, hiff]
    rintro ⟨attempt, hlatest, hsuccess⟩
    exact Bool.false_ne_true ((hfailed attempt hlatest).symm.trans hsuccess)
  refine needsRebuild_of_decision _ hstep ?_
  rw [decisionFor, CacheStore.decide, hnone]
  cases o.force <;> rfl

/-- The project after a first run, with a file of ingredients that is then cut off. -/
def cutInk : BuildState :=
  ⟨{ inkBuilt.workspace with
      place := ⟨inkBuilt.workspace.place.tree.set ["tokens", "ingredients", "a.json"]
        (.file "\x7b".toUTF8 2), []⟩ }, inkBuilt.store⟩

/-- The builds that a run in it tries, behind those of the first run. -/
def cutLog : List Attempt :=
  (attempts ⟨false, none⟩ (inkContext "a") inkLayers cutInk).reverse ++
    ((attempts ⟨false, none⟩ (inkContext "a") inkLayers inkStart).reverse ++ [])

def cutBuilt : BuildState :=
  ((run ⟨false, none⟩ (inkContext "a") inkLayers).perform cutInk).2

theorem timeline_cut : Timeline cutLog cutBuilt := by
  have hstart : Timeline [] inkStart := .start (by decide +kernel) _
  have hbuilt : Timeline _ inkBuilt := hstart.run ⟨false, none⟩ (inkContext "a") inkLayers
  have hcut : Timeline _ cutInk := hbuilt.edit (by decide +kernel)
  exact hcut.run ⟨false, none⟩ (inkContext "a") inkLayers

/-- The layer of the cut file fails and loses its entry, so that it is built again. -/
theorem entry_iff_cut :
    (latest cutLog "ingredients").map Attempt.success = some false ∧
      (inkBuilt.store.entry? "ingredients").isSome ∧
      ¬ (cutBuilt.store.entry? "ingredients").isSome ∧
      (cutBuilt.store.entry? "recipes").isSome ∧
      ∀ step ∈ plan ⟨false, none⟩ (inkContext "a") cutBuilt.store cutBuilt.workspace.place inkLayers,
        step.1.name = "ingredients" → step.2.needsRebuild := by
  obtain ⟨hbuilt, hfailed, hrecipes⟩ : (inkBuilt.store.entry? "ingredients").isSome ∧
      (latest cutLog "ingredients").map Attempt.success = some false ∧
      (latest cutLog "recipes").map Attempt.success = some true := by
    decide +kernel
  have hlatest : ∀ attempt, latest cutLog "ingredients" = some attempt →
      attempt.success = false := by
    intro attempt hattempt
    rw [hattempt] at hfailed
    exact Option.some.inj hfailed
  obtain ⟨hiff, -, hplan⟩ := timeline_cut.entry_iff
  refine ⟨hfailed, hbuilt, ?_, ?_, ?_⟩
  · rw [hiff]
    rintro ⟨attempt, hattempt, hsuccess⟩
    exact Bool.false_ne_true ((hlatest attempt hattempt).symm.trans hsuccess)
  · rw [hiff]
    obtain ⟨attempt, hattempt, hsuccess⟩ := Option.map_eq_some_iff.mp hrecipes
    exact ⟨attempt, hattempt, hsuccess⟩
  · intro step hstep hname
    exact hplan _ _ _ step hstep fun attempt hattempt => hlatest attempt (hname ▸ hattempt)

end Build

end DesignTokens
