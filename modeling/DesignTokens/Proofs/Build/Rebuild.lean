import DesignTokens.Proofs.Build.Steps

namespace DesignTokens

open FileTree Place

namespace CacheStore

theorem entry?_replace (s : CacheStore) (entry : CacheEntry) (layer : String) :
    CacheStore.entry? (s.replace entry) layer = if layer = entry.layer then some entry else s.entry? layer :=
  Keyed.get?_putSorted

theorem entry?_remove_of_ne (s : CacheStore) {layer other : String} (hne : other ≠ layer) :
    CacheStore.entry? (s.remove layer) other = s.entry? other :=
  Keyed.get?_erase_of_ne hne

theorem entry?_remove_self {s : CacheStore} (h : Keyed.Ascending s.entries) (layer : String) :
    CacheStore.entry? (s.remove layer) layer = none :=
  Keyed.get?_erase_self h.nodup

end CacheStore

namespace BuildContext

variable {c : BuildContext} {tokens : Path} {cache : Option Path} {contents : ByteArray → Prop}
  {flavor : String} {kind other : LayerKind} {success : Bool} {g g' v w : Place}

/-- The outputs of a layer are those of a build from certain files. -/
def Settled (c : BuildContext) (layer : Layer) (success : Bool) (g w : Place) : Prop :=
  ∀ x : Workspace, x.place = g →
    ((c.buildLayer layer).run x).1.success = success ∧
      ∀ l, c.Outputs g layer.name l →
        w.tree.contentAt l = ((c.buildLayer layer).run x).2.place.tree.contentAt l

theorem Settled.of_lookup {layer : Layer} (h : c.Settled layer success g v)
    (hsame : ∀ l, c.Outputs g layer.name l → w.tree.lookup l = v.tree.lookup l) :
    c.Settled layer success g w := by
  intro x hx
  obtain ⟨hsuccess, hcontents⟩ := h x hx
  refine ⟨hsuccess, ?_⟩
  intro l hl
  rw [contentAt, hsame l hl, ← contentAt]
  exact hcontents l hl

/-- Which of two places with the same sources a layer is built from makes no difference. -/
theorem Settled.transport (hplain : ∀ content, contents content → PlainContent content)
    (hg : c.Sound tokens cache contents g) (hg' : c.Sound tokens cache contents g')
    (hakin : c.Akin tokens kind g g')
    (h : c.Settled (Layer.ofKind g tokens flavor kind) success g w) :
    c.Settled (Layer.ofKind g' tokens flavor kind) success g' w := by
  rw [← Layer.ofKind_congr flavor hg.sources hg'.sources hakin.current hakin.agree]
  intro x hx
  obtain ⟨hsuccess, hcontents⟩ := h ⟨g, 0, 0, []⟩ rfl
  obtain ⟨hsame, htwin⟩ := hg.buildLayer_akin flavor hplain (w := ⟨g, 0, 0, []⟩)
    (hx ▸ hg') (hx ▸ hakin)
  refine ⟨hsame.symm.trans hsuccess, ?_⟩
  intro l hl
  rw [← outputs_congr (c := c) hakin.current] at hl
  rw [hcontents l hl]
  exact htwin.alike.contents l hl

theorem settled_build (flavor : String) (kind : LayerKind)
    (hplain : ∀ content, contents content → PlainContent content)
    {x : Workspace} (h : c.Sound tokens cache contents x.place) :
    let run := (c.buildLayer (Layer.ofKind x.place tokens flavor kind)).run x
    c.Settled (Layer.ofKind x.place tokens flavor kind) run.1.success x.place run.2.place := by
  intro run y hy
  obtain ⟨hsame, htwin⟩ := h.buildLayer_akin flavor hplain (w := x)
    (v := y) (by rw [hy]; exact h) (by rw [hy]; exact (Keeps.refl x.place).akin kind)
  exact ⟨hsame.symm, htwin.alike.contents⟩

theorem outputs_disjoint {l : Location} {layer name : String} (hl : c.Outputs w layer l)
    (hl' : c.Outputs w name l) : layer = name := by
  obtain ⟨dir, -, hin⟩ := hl
  obtain ⟨dir', -, hin'⟩ := hl'
  have heq := List.prefix_of_prefix_length_le hin hin' (by simp)
  rw [List.prefix_append_right_inj] at heq
  have hpair := heq.eq_of_length (by simp)
  simp only [List.cons.injEq, and_true] at hpair
  exact hpair.2

/-- A build of a layer does not touch the outputs of another one. -/
theorem Framed.outputs_other {layer name : String} (hready : c.Ready v)
    (h : c.Framed layer v w) (hne : name ≠ layer) {l : Location} (hl : c.Outputs v name l) :
    w.tree.lookup l = v.tree.lookup l := by
  rcases h.outside l fun hin => hne (outputs_disjoint hl hin) with hsame | ⟨hspine, -, -⟩
  · exact hsame
  · exact absurd hl (hready.not_outputs hspine)

end BuildContext

namespace Build

open BuildContext

variable {c : BuildContext} {tokens : Path} {cache : Option Path} {contents : ByteArray → Prop}
  {flavor : String} {kind : LayerKind}

/-- What a build returns, and the state in which it ends. -/
def perform {α : Type} (build : Build α) (s : BuildState) : α × BuildState :=
  StateT.run build s

@[simp] theorem perform_pure {α : Type} (a : α) (s : BuildState) :
    (pure a : Build α).perform s = (a, s) := rfl

theorem perform_bind {α β : Type} (build : Build α) (next : α → Build β) (s : BuildState) :
    (build >>= next).perform s = (next (build.perform s).1).perform (build.perform s).2 := rfl

theorem perform_get (s : BuildState) : (get : Build BuildState).perform s = (s, s) := rfl

theorem perform_set (s t : BuildState) : (set t : Build Unit).perform s = ((), t) := rfl

theorem perform_liftJob {ε α : Type} (job : Job ε α) (s : BuildState) :
    (liftJob job).perform s =
      ((Job.exec job s.workspace).1, { s with workspace := (Job.exec job s.workspace).2 }) := rfl

theorem perform_flush (s : BuildState) :
    (flush.perform s).2.store = s.store ∧
      (flush.perform s).2.workspace.place = (Job.exec s.store.flush s.workspace).2.place := by
  rw [flush, perform_bind, perform_get, perform_bind, perform_liftJob]
  rcases Job.exec s.store.flush s.workspace with ⟨_ | _, after⟩
  · exact ⟨rfl, rfl⟩
  · exact ⟨rfl, rfl⟩

theorem perform_record (layer : Layer) (s : BuildState) {hashes : Fingerprint}
    (h : s.workspace.place.fingerprint layer.sourceDir = .ok hashes) :
    (record layer).perform s = flush.perform
      { s with store := s.store.replace ⟨layer.name, s.workspace.clock, hashes⟩ } := by
  rw [record, perform_bind, perform_get]
  dsimp only
  rw [h]
  rfl

theorem perform_forget (layer : Layer) (s : BuildState) :
    (forget layer).perform s =
      if (s.store.entry? layer.name).isSome then
        flush.perform { s with store := s.store.remove layer.name }
      else ((), s) := by
  rw [forget, perform_bind, perform_get]
  split
  · rw [perform_bind, perform_set]
  · rfl

theorem perform_rebuild (layer : Layer) (s : BuildState) :
    (rebuild c layer).perform s =
      let built := (c.buildLayer layer).run s.workspace
      (built.1, ((if built.1.success then record layer else forget layer).perform
        { s with workspace := built.2 }).2) := by
  rw [rebuild, perform_bind, perform_get]
  rcases (c.buildLayer layer).run s.workspace with ⟨result, after⟩
  dsimp only
  rw [perform_bind, perform_set]
  dsimp only
  split
  · rw [perform_bind, perform_pure]
  · rw [perform_bind, perform_pure]

/-- Bringing the cache up to date touches neither sources nor outputs. -/
structure Noted (c : BuildContext) (tokens : Path) (cache : Option Path)
    (contents : ByteArray → Prop) (v w : Place) : Prop where
  sound : c.Sound tokens cache contents w
  keeps : c.Keeps tokens v w
  outputs : ∀ l, Below (v.target c.outputDir) l → w.tree.lookup l = v.tree.lookup l

theorem noted_flush {s : BuildState} (h : c.Sound tokens cache contents s.workspace.place)
    (hpath : s.store.path = cache) :
    Noted c tokens cache contents s.workspace.place (flush.perform s).2.workspace.place := by
  obtain ⟨-, hplace⟩ := perform_flush s
  obtain ⟨hsound, hkeeps, houtputs⟩ := h.flush hpath
  constructor
  · rw [hplace]
    exact hsound
  · rw [hplace]
    exact hkeeps
  · rw [hplace]
    exact houtputs

theorem record_spec {s : BuildState} (h : c.Sound tokens cache contents s.workspace.place)
    (hpath : s.store.path = cache) (layer : Layer) {hashes : Fingerprint}
    (hhashes : s.workspace.place.fingerprint layer.sourceDir = .ok hashes) :
    Noted c tokens cache contents s.workspace.place
        ((record layer).perform s).2.workspace.place ∧
      ((record layer).perform s).2.store =
        s.store.replace ⟨layer.name, s.workspace.clock, hashes⟩ := by
  rw [perform_record layer s hhashes]
  refine ⟨?_, (perform_flush _).1⟩
  exact noted_flush (s := ⟨s.workspace, s.store.replace ⟨layer.name, s.workspace.clock, hashes⟩⟩)
    h hpath

theorem forget_spec {s : BuildState} (h : c.Sound tokens cache contents s.workspace.place)
    (hpath : s.store.path = cache) (layer : Layer) :
    Noted c tokens cache contents s.workspace.place
        ((forget layer).perform s).2.workspace.place ∧
      ((forget layer).perform s).2.store =
        if (s.store.entry? layer.name).isSome then s.store.remove layer.name else s.store := by
  rw [perform_forget]
  split
  · refine ⟨?_, (perform_flush _).1⟩
    exact noted_flush (s := ⟨s.workspace, s.store.remove layer.name⟩) h hpath
  · exact ⟨⟨h, Keeps.refl _, fun _ _ => rfl⟩, rfl⟩

/-- What building a layer again does to the state of a build. -/
structure Rebuilt (c : BuildContext) (tokens : Path) (cache : Option Path)
    (contents : ByteArray → Prop) (flavor : String) (kind : LayerKind) (result : LayerResult)
    (s after : BuildState) : Prop where
  layer : result.layer = kind.dirName
  sound : c.Sound tokens cache contents after.workspace.place
  keeps : c.Keeps tokens s.workspace.place after.workspace.place
  settled : c.Settled (Layer.ofKind s.workspace.place tokens flavor kind) result.success
    s.workspace.place after.workspace.place
  others : ∀ other, other ≠ kind → ∀ l, c.Outputs s.workspace.place other.dirName l →
    after.workspace.place.tree.lookup l = s.workspace.place.tree.lookup l
  path : after.store.path = s.store.path
  ascending : Keyed.Ascending after.store.entries
  otherEntries : ∀ other, other ≠ kind →
    after.store.entry? other.dirName = s.store.entry? other.dirName
  ownEntry : ∀ entry, after.store.entry? kind.dirName = some entry → result.success ∧
    s.workspace.place.fingerprint (tokens.join kind.dirName) = .ok entry.hashes

theorem rebuilt (hplain : ∀ content, contents content → PlainContent content) {s : BuildState}
    (h : c.Sound tokens cache contents s.workspace.place) (hpath : s.store.path = cache)
    (hascending : Keyed.Ascending s.store.entries) {result : LayerResult} {after : BuildState}
    (hrun : (rebuild c (Layer.ofKind s.workspace.place tokens flavor kind)).perform s =
      (result, after)) :
    Rebuilt c tokens cache contents flavor kind result s after := by
  rw [perform_rebuild] at hrun
  obtain ⟨-, htwin⟩ := h.buildLayer_akin flavor hplain
    (w := s.workspace) (v := s.workspace) h ((Keeps.refl _).akin kind)
  have hsettled := settled_build flavor kind hplain h
  obtain ⟨-, hlayer, -⟩ := run_buildLayer c (Layer.ofKind s.workspace.place tokens flavor kind)
    s.workspace
  generalize (c.buildLayer (Layer.ofKind s.workspace.place tokens flavor kind)).run s.workspace =
    built at hrun htwin hsettled hlayer
  obtain ⟨outcome, between⟩ := built
  obtain ⟨rfl, rfl⟩ := Prod.mk.inj hrun
  rw [Layer.name_ofKind] at hlayer
  have hkeeps := h.keeps_of_framed htwin.framed
  have hsound := h.keeps hkeeps htwin.ready
  have hframed := htwin.framed
  rw [Layer.name_ofKind] at hframed
  have hprint : between.place.fingerprint (tokens.join kind.dirName) =
      s.workspace.place.fingerprint (tokens.join kind.dirName) := by
    refine (fingerprint_congr h.ready.wellFormed hsound.ready.wellFormed hkeeps.current.symm
      kind.proper_dirName h.sources.directory hsound.sources.directory ?_).symm
    exact (hkeeps.akin kind).agree kind le_rfl
  obtain ⟨hashes, hhashes, -⟩ := fingerprint_spec hsound.ready.wellFormed kind.proper_dirName
    hsound.sources.directory
  -- the outputs are as the build left them, and the other layers' as they were before it
  have hrest : ∀ {w : Place}, Noted c tokens cache contents between.place w →
      c.Settled (Layer.ofKind s.workspace.place tokens flavor kind) outcome.success
        s.workspace.place w ∧
      ∀ other, other ≠ kind → ∀ l, c.Outputs s.workspace.place other.dirName l →
        w.tree.lookup l = s.workspace.place.tree.lookup l := by
    intro w hnoted
    have hsame : ∀ l, Below (s.workspace.place.target c.outputDir) l →
        w.tree.lookup l = between.place.tree.lookup l := by
      intro l hl
      rw [← target_congr hkeeps.current] at hl
      exact hnoted.outputs l hl
    refine ⟨hsettled.of_lookup fun l hl => hsame l (below_of_outputs hl), ?_⟩
    intro other hne l hl
    rw [hsame l (below_of_outputs hl)]
    exact hframed.outputs_other h.ready (fun heq => hne (LayerKind.dirName_injective heq)) hl
  cases hsuccess : outcome.success with
  | true =>
      obtain ⟨hnoted, hstore⟩ := record_spec (s := ⟨between, s.store⟩) hsound hpath
        (Layer.ofKind s.workspace.place tokens flavor kind)
        (by rw [Layer.sourceDir_ofKind]; exact hhashes)
      rw [Layer.name_ofKind] at hstore
      obtain ⟨houtputs, hothers⟩ := hrest hnoted
      simp only [if_true]
      refine ⟨hlayer, hnoted.sound, hkeeps.trans hnoted.keeps, houtputs, hothers, ?_, ?_, ?_, ?_⟩
      · rw [hstore]
        rfl
      · rw [hstore]
        exact hascending.putSorted
      · intro other hne
        rw [hstore, CacheStore.entry?_replace, if_neg]
        exact fun heq => hne (LayerKind.dirName_injective heq)
      · intro entry hentry
        rw [hstore, CacheStore.entry?_replace, if_pos rfl] at hentry
        obtain rfl := Option.some.inj hentry
        exact ⟨hsuccess, hprint.symm.trans hhashes⟩
  | false =>
      obtain ⟨hnoted, hstore⟩ := forget_spec (s := ⟨between, s.store⟩) hsound hpath
        (Layer.ofKind s.workspace.place tokens flavor kind)
      rw [Layer.name_ofKind] at hstore
      obtain ⟨houtputs, hothers⟩ := hrest hnoted
      simp only [Bool.false_eq_true, if_false]
      refine ⟨hlayer, hnoted.sound, hkeeps.trans hnoted.keeps, houtputs, hothers, ?_, ?_, ?_, ?_⟩
      · rw [hstore]
        split
        · rfl
        · rfl
      · rw [hstore]
        split
        · exact hascending.erase
        · exact hascending
      · intro other hne
        rw [hstore]
        split
        · exact CacheStore.entry?_remove_of_ne _ fun heq => hne (LayerKind.dirName_injective heq)
        · rfl
      · intro entry hentry
        rw [hstore] at hentry
        split at hentry
        · rw [CacheStore.entry?_remove_self hascending] at hentry
          exact absurd hentry nofun
        · rename_i hnone
          exact absurd (by rw [hentry]; rfl) hnone

end Build
end DesignTokens
