import DesignTokens.Proofs.Build.History
import DesignTokens.Proofs.Layer.Furnish

/-!
Layers that need no build: their entries have the hashes of their sources, and no source is newer than
an output. A run that succeeds leaves all layers like this, whichever of them it built.
-/

namespace DesignTokens

open FileTree Place

/-- A location where a `json` file is a source of a layer. -/
def Place.SourceOf (w : Place) (tokens : Path) (kind : LayerKind) (l : Location) : Prop :=
  Below (w.target tokens ++ [kind.dirName]) l ∧ endsInJson l

/-- A location where a `json` file is a source of some layer. -/
def Place.IsSource (w : Place) (tokens : Path) (l : Location) : Prop :=
  ∃ kind, w.SourceOf tokens kind l

namespace BuildContext

variable {c : BuildContext} {tokens : Path} {cache : Option Path} {region : Location → Prop}
  {time : Nat} {v w : Place} {kind : LayerKind}

theorem sourceOf_congr (h : w.current = v.current) : w.SourceOf tokens = v.SourceOf tokens := by
  funext kind l
  rw [SourceOf, SourceOf, target_congr h]

theorem isSource_congr (h : w.current = v.current) : w.IsSource tokens = v.IsSource tokens := by
  funext l
  rw [IsSource, IsSource, sourceOf_congr h]

def AllOutputs (c : BuildContext) (w : Place) (l : Location) : Prop :=
  ∃ kind : LayerKind, c.Outputs w kind.dirName l

theorem allOutputs_congr (h : w.current = v.current) : c.AllOutputs w = c.AllOutputs v := by
  funext l
  rw [AllOutputs, AllOutputs, outputs_congr h]

/-- Clearing the outputs of layers takes no sources, and no directory on the way to the sources or to
the outputs. -/
structure Separate (c : BuildContext) (tokens : Path) (cache : Option Path) (w : Place) : Prop where
  wellFormed : w.tree.WellFormed
  direct : c.Direct w
  outputWay : ∀ l ∈ w.route c.outputDir, ¬ c.AllOutputs w l
  tokensWay : ∀ l ∈ w.route tokens, ¬ c.AllOutputs w l
  sources : ∀ l, w.IsSource tokens l → c.AllOutputs w l → ¬ w.tree.IsFile l
  cacheFile : ∀ p, cache = some p → ¬ w.IsSource tokens (w.target p)

/-- A change that leaves the sources of all layers alone. -/
abbrev Reshaped (c : BuildContext) (tokens : Path) (time : Nat) (v w : Place) : Prop :=
  Reworked (c.AllOutputs v) (v.IsSource tokens) time v w

theorem Reshaped.trans {u : Place} (huv : c.Reshaped tokens time u v)
    (hvw : c.Reshaped tokens time v w) : c.Reshaped tokens time u w := by
  rw [Reshaped, allOutputs_congr huv.current, isSource_congr huv.current] at hvw
  exact Reworked.trans huv hvw

namespace Separate

theorem file_iff (h : c.Separate tokens cache v) (hw : c.Reshaped tokens time v w) {l : Location}
    (hl : v.IsSource tokens l) {content : ByteArray} {modified : Nat} :
    w.tree.lookup l = some (.file content modified) ↔
      v.tree.lookup l = some (.file content modified) :=
  hw.file_iff hl (h.sources l hl)

theorem reshaped (h : c.Separate tokens cache v) (hw : c.Reshaped tokens time v w) :
    c.Separate tokens cache w := by
  have houtputs : c.AllOutputs w = c.AllOutputs v := allOutputs_congr hw.current
  have hsources : w.IsSource tokens = v.IsSource tokens := isSource_congr hw.current
  refine ⟨hw.wellFormed h.wellFormed, h.direct.reworked hw h.outputWay, ?_, ?_, ?_, ?_⟩
  · rw [route_congr hw.current, houtputs]
    exact h.outputWay
  · rw [route_congr hw.current, houtputs]
    exact h.tokensWay
  · rw [houtputs, hsources]
    rintro l hl hin ⟨content, modified, hfile⟩
    exact h.sources l hl hin ⟨content, modified, (h.file_iff hw hl).mp hfile⟩
  · intro p hp
    rw [hsources, target_congr hw.current]
    exact h.cacheFile p hp

theorem isDirectory (h : c.Separate tokens cache v) (hw : c.Reshaped tokens time v w)
    (hdir : v.isDirectory tokens) : w.isDirectory tokens :=
  Reworked.isDirectory hw h.tokensWay hdir

theorem agreeBelow (h : c.Separate tokens cache v) (hw : c.Reshaped tokens time v w)
    (kind : LayerKind) : AgreeBelow (v.target tokens ++ [kind.dirName]) w.tree v.tree := by
  intro l hl
  by_cases hjson : endsInJson l
  · exact hw.jsonAt_of_spared ⟨kind, hl, hjson⟩ (h.sources l ⟨kind, hl, hjson⟩)
  · rw [jsonAt, jsonAt, if_neg hjson, if_neg hjson]

end Separate

/-- A location below an output directory of a layer. -/
def Wanted (c : BuildContext) (w : Place) (layer : String) (l : Location) : Prop :=
  ∃ sub, c.Makes sub ∧ Below (w.target c.outputDir ++ [sub, layer]) l

theorem wanted_congr (h : w.current = v.current) : c.Wanted w = c.Wanted v := by
  funext layer l
  rw [Wanted, Wanted, target_congr h]

theorem Wanted.outputs {layer : String} {l : Location} (h : c.Wanted w layer l) :
    c.Outputs w layer l := by
  obtain ⟨sub, hsub, hl⟩ := h
  exact ⟨sub, hsub.cases, hl.1⟩

theorem mem_outputDirs_iff {layer : Layer} {dir : Path} :
    dir ∈ c.outputDirs layer ↔
      ∃ sub, c.Makes sub ∧ dir = (c.outputDir.join sub).join layer.name := by
  rw [outputDirs, List.mem_cons]
  constructor
  · rintro (rfl | hts)
    · exact ⟨"css", .inl rfl, rfl⟩
    · split at hts
      · rename_i htyped
        exact ⟨"ts", .inr ⟨rfl, htyped⟩, List.mem_singleton.mp hts⟩
      · exact absurd hts List.not_mem_nil
  · rintro ⟨sub, rfl | ⟨rfl, htyped⟩, rfl⟩
    · exact .inl rfl
    · rw [if_pos htyped]
      exact .inr (List.mem_singleton_self _)

/-- The tokens directory is there, and so is the way to the output directory as far as it does not
just go down. -/
structure Accessible (c : BuildContext) (tokens : Path) (w : Place) : Prop where
  wellFormed : w.tree.WellFormed
  direct : c.Direct w
  directory : w.isDirectory tokens

/-- A layer has no sources, or there is a file in each of its output directories. -/
def Furnished (c : BuildContext) (w : Place) (layer : Layer) : Prop :=
  w.jsonFiles layer.sourceDir = [] ∨ ∀ dir ∈ c.outputDirs layer, w.filesBelow dir ≠ []

instance (c : BuildContext) (w : Place) (layer : Layer) : Decidable (c.Furnished w layer) :=
  inferInstanceAs (Decidable (_ ∨ _))

namespace Accessible

theorem exists_mem_jsonEntries_iff (h : c.Accessible tokens w) {l : Location} :
    (∃ x ∈ w.jsonEntries (tokens.join kind.dirName), x.2 = l) ↔
      w.SourceOf tokens kind l ∧ w.tree.IsFile l := by
  constructor
  · rintro ⟨x, hx, rfl⟩
    obtain ⟨names, hne, rfl, hsome⟩ :=
      (mem_jsonEntries_join_iff h.wellFormed kind.proper_dirName h.directory).mp hx
    obtain ⟨hjson, hfile⟩ := isSome_jsonAt_iff.mp hsome
    exact ⟨⟨Below.append hne, hjson⟩, hfile⟩
  · rintro ⟨⟨hl, hjson⟩, hfile⟩
    obtain ⟨names, hne, rfl⟩ := Below.iff_append.mp hl
    exact ⟨_, (mem_jsonEntries_join_iff h.wellFormed kind.proper_dirName h.directory).mpr
      ⟨names, hne, rfl, isSome_jsonAt_iff.mpr ⟨hjson, hfile⟩⟩, rfl⟩

theorem exists_mem_filesBelow_iff (h : c.Accessible tokens w) {sub : String} (hsub : c.Makes sub)
    {l : Location} :
    (∃ x ∈ w.filesBelow ((c.outputDir.join sub).join kind.dirName), x.2 = l) ↔
      Below (w.target c.outputDir ++ [sub, kind.dirName]) l ∧ w.tree.IsFile l := by
  have htarget := c.target_join_join w (proper_kind hsub.cases) kind.proper_dirName
  constructor
  · rintro ⟨x, hx, rfl⟩
    obtain ⟨-, names, hne, rfl, hfile⟩ := (mem_filesBelow_iff h.wellFormed).mp hx
    rw [htarget] at hfile ⊢
    exact ⟨Below.append hne, hfile⟩
  · rintro ⟨hl, hfile⟩
    have hdir := h.direct.isDirectory h.wellFormed (proper_kind hsub.cases) kind.proper_dirName hl
      (by obtain ⟨content, modified, hlookup⟩ := hfile; rw [hlookup]; rfl)
    obtain ⟨names, hne, rfl⟩ := Below.iff_append.mp hl
    rw [← htarget] at hfile ⊢
    exact ⟨_, (mem_filesBelow_iff h.wellFormed).mpr ⟨hdir, names, hne, rfl, hfile⟩, rfl⟩

theorem furnished_iff (h : c.Accessible tokens w) {layer : Layer} (hname : layer.name = kind.dirName)
    (hdir : layer.sourceDir = tokens.join kind.dirName) :
    c.Furnished w layer ↔ (∀ l, w.SourceOf tokens kind l → ¬ w.tree.IsFile l) ∨
      ∀ sub, c.Makes sub → c.Filled kind.dirName sub w := by
  refine or_congr ?_ ?_
  · rw [jsonFiles_eq, List.map_eq_nil_iff, List.eq_nil_iff_forall_not_mem, hdir]
    constructor
    · intro hnone l hl hfile
      obtain ⟨x, hx, -⟩ := h.exists_mem_jsonEntries_iff.mpr ⟨hl, hfile⟩
      exact hnone x hx
    · intro hnone x hx
      obtain ⟨hl, hfile⟩ := h.exists_mem_jsonEntries_iff.mp ⟨x, hx, rfl⟩
      exact hnone x.2 hl hfile
  · constructor
    · intro hall sub hsub
      obtain ⟨x, hx⟩ := List.exists_mem_of_ne_nil _ (hall _ (mem_outputDirs_iff.mpr ⟨sub, hsub, rfl⟩))
      rw [hname] at hx
      exact ⟨x.2, (h.exists_mem_filesBelow_iff hsub).mp ⟨x, hx, rfl⟩⟩
    · intro hall dir hdir
      obtain ⟨sub, hsub, rfl⟩ := mem_outputDirs_iff.mp hdir
      obtain ⟨l, hl⟩ := hall sub hsub
      obtain ⟨x, hx, -⟩ := (h.exists_mem_filesBelow_iff hsub).mpr hl
      rw [hname]
      exact List.ne_nil_of_mem hx

end Accessible

end BuildContext

namespace Build

open BuildContext

variable {c : BuildContext} {tokens : Path} {kind : LayerKind} {s t : BuildState} {layer : Layer}

/-- A state in which a project can be built, with sources that were written before the outputs of the
build will be. -/
structure Prepared (c : BuildContext) (tokens : Path) (s : BuildState) : Prop where
  separate : c.Separate tokens s.store.path s.workspace.place
  directory : s.workspace.place.isDirectory tokens
  past : ∀ l, s.workspace.place.IsSource tokens l → ∀ time,
    s.workspace.place.tree.modifiedAt l = some time → time ≤ s.workspace.stamp

theorem Prepared.accessible (h : Prepared c tokens s) : c.Accessible tokens s.workspace.place :=
  ⟨h.separate.wellFormed, h.separate.direct, h.directory⟩

/-- A layer that was recorded with its present sources, none of which is newer than an output. -/
structure Steady (c : BuildContext) (tokens : Path) (kind : LayerKind) (s : BuildState) : Prop where
  recorded : Unchanged tokens s kind
  ordered : ∀ l, s.workspace.place.SourceOf tokens kind l → ∀ time,
    s.workspace.place.tree.modifiedAt l = some time →
    ∀ m, c.Wanted s.workspace.place kind.dirName m → ∀ later,
      s.workspace.place.tree.modifiedAt m = some later → time ≤ later

/-- A steady layer is left alone exactly if it is furnished. -/
theorem Steady.decide_eq_upToDate_iff (h : Steady c tokens kind s)
    (hs : c.Accessible tokens s.workspace.place) (hname : layer.name = kind.dirName)
    (hdir : layer.sourceDir = tokens.join kind.dirName) :
    s.store.decide s.workspace.place layer.name layer.sourceDir (c.outputDirs layer) = .upToDate ↔
      c.Furnished s.workspace.place layer := by
  obtain ⟨entry, hashes, hentry, hhashes, hsame⟩ := h.recorded
  rw [← hname] at hentry
  rw [← hdir] at hhashes
  have houtputs : (∃ oldest, s.workspace.place.oldestOutput (c.outputDirs layer) = .ok oldest) ↔
      ∀ dir ∈ c.outputDirs layer, s.workspace.place.filesBelow dir ≠ [] :=
    exists_oldestOutput hs.wellFormed (List.cons_ne_nil _ _)
  rw [CacheStore.decide_of_same hs.wellFormed hentry hhashes hsame, Furnished, jsonFiles_eq,
    List.map_eq_nil_iff, ← houtputs]
  refine or_congr_right ⟨fun ⟨oldest, holdest, _⟩ => ⟨oldest, holdest⟩, ?_⟩
  rintro ⟨oldest, holdest⟩
  -- the oldest output is one of the outputs, and no source is newer than any of these
  refine ⟨oldest, holdest, ?_⟩
  intro x hx time htime
  obtain ⟨dir, houtput, y, hy, hlater⟩ := mem_of_oldestOutput holdest
  obtain ⟨sub, hsub, rfl⟩ := mem_outputDirs_iff.mp houtput
  rw [hname] at hy
  obtain ⟨hbelow, -⟩ := (hs.exists_mem_filesBelow_iff hsub).mp ⟨y, hy, rfl⟩
  obtain ⟨hsource, -⟩ := hs.exists_mem_jsonEntries_iff.mp ⟨x, hdir ▸ hx, rfl⟩
  exact h.ordered x.2 hsource time htime y.2 ⟨sub, hsub, hbelow⟩ oldest hlater

theorem steady_of_decide (hs : c.Accessible tokens s.workspace.place)
    (hname : layer.name = kind.dirName) (hdir : layer.sourceDir = tokens.join kind.dirName)
    (h : s.store.decide s.workspace.place layer.name layer.sourceDir (c.outputDirs layer) =
      .upToDate) : Steady c tokens kind s := by
  obtain ⟨entry, hashes, hentry, hhashes, hsame⟩ := CacheStore.decide_eq_upToDate h
  refine ⟨⟨entry, hashes, hname ▸ hentry, hdir ▸ hhashes, hsame⟩, ?_⟩
  rintro l hl time htime m ⟨sub, hsub, hm⟩ later hlater
  obtain ⟨x, hx, rfl⟩ := hs.exists_mem_jsonEntries_iff.mpr
    ⟨hl, isFile_iff_modifiedAt.mpr (by rw [htime]; rfl)⟩
  obtain ⟨y, hy, rfl⟩ := (hs.exists_mem_filesBelow_iff hsub).mpr
    ⟨hm, isFile_iff_modifiedAt.mpr (by rw [hlater]; rfl)⟩
  rcases (CacheStore.decide_of_same hs.wellFormed hentry hhashes hsame).mp h with
    hnone | ⟨oldest, holdest, hall⟩
  · rw [hdir] at hnone
    exact absurd hx (hnone ▸ List.not_mem_nil)
  · refine (hall x (hdir ▸ hx) time htime).trans (le_of_oldestOutput holdest ?_ hy hlater)
    exact mem_outputDirs_iff.mpr ⟨sub, hsub, by rw [hname]⟩

/-- What a step of a build changes: files and cache entries. -/
structure Progressed (c : BuildContext) (tokens : Path) (s t : BuildState) : Prop where
  stamp : t.workspace.stamp = s.workspace.stamp
  path : t.store.path = s.store.path
  reshaped : c.Reshaped tokens s.workspace.stamp s.workspace.place t.workspace.place

theorem Progressed.refl (s : BuildState) : Progressed c tokens s s :=
  ⟨rfl, rfl, .refl _⟩

theorem Progressed.trans {u : BuildState} (hst : Progressed c tokens s t)
    (htu : Progressed c tokens t u) : Progressed c tokens s u :=
  ⟨htu.stamp.trans hst.stamp, htu.path.trans hst.path,
    hst.reshaped.trans (hst.stamp ▸ htu.reshaped)⟩

theorem Prepared.progressed (h : Prepared c tokens s) (ht : Progressed c tokens s t) :
    Prepared c tokens t := by
  have hsources : t.workspace.place.IsSource tokens = s.workspace.place.IsSource tokens :=
    isSource_congr ht.reshaped.current
  refine ⟨?_, h.separate.isDirectory ht.reshaped h.directory, ?_⟩
  · rw [ht.path]
    exact h.separate.reshaped ht.reshaped
  · rw [hsources, ht.stamp]
    intro l hl time htime
    rw [ht.reshaped.modifiedAt_of_spared hl (h.separate.sources l hl)] at htime
    exact h.past l hl time htime

/-- A step that deals with other layers than a certain one. -/
structure Bypassed (c : BuildContext) (tokens : Path) (kind : LayerKind) (s t : BuildState) : Prop
    extends Progressed c tokens s t where
  entry : t.store.entry? kind.dirName = s.store.entry? kind.dirName
  files : ∀ l, c.Outputs s.workspace.place kind.dirName l → s.workspace.place.tree.IsFile l →
    t.workspace.place.tree.IsFile l

theorem Steady.bypassed (h : Steady c tokens kind s) (hs : Prepared c tokens s)
    (ht : Bypassed c tokens kind s t) : Steady c tokens kind t := by
  have hprepared := hs.progressed ht.toProgressed
  have hhashes : t.workspace.place.fingerprint (tokens.join kind.dirName) =
      s.workspace.place.fingerprint (tokens.join kind.dirName) := by
    refine fingerprint_congr hprepared.separate.wellFormed hs.separate.wellFormed ht.reshaped.current
      kind.proper_dirName hprepared.directory hs.directory ?_
    rw [target_congr ht.reshaped.current]
    exact hs.separate.agreeBelow ht.reshaped kind
  constructor
  · rw [Unchanged, ht.entry, hhashes]
    exact h.recorded
  · rw [sourceOf_congr ht.reshaped.current, wanted_congr ht.reshaped.current]
    intro l hl time htime m hm later hlater
    have hsource : s.workspace.place.IsSource tokens l := ⟨kind, hl⟩
    rw [ht.reshaped.modifiedAt_of_spared hsource (hs.separate.sources l hsource)] at htime
    rcases ht.reshaped.modifiedAt hlater with hbefore | rfl
    · exact h.ordered l hl time htime m hm later hbefore
    · -- an output that was written since has the stamp, which no source exceeds
      exact hs.past l hsource time htime

theorem Bypassed.filled (ht : Bypassed c tokens kind s t) {sub : String} (hsub : c.Makes sub)
    (h : c.Filled kind.dirName sub s.workspace.place) :
    c.Filled kind.dirName sub t.workspace.place := by
  obtain ⟨l, hl, hfile⟩ := h
  refine ⟨l, ?_, ht.files l ⟨sub, hsub.cases, hl.1⟩ hfile⟩
  rwa [target_congr ht.reshaped.current]

theorem Prepared.bypassed_flush (h : Prepared c tokens s) (kind : LayerKind) :
    Bypassed c tokens kind s (flush.perform s).2 := by
  have hflush : Job.Within (Reworking s.workspace.place.current (fun _ => False)
      (s.workspace.place.IsSource tokens)) s.store.flush := by
    rw [CacheStore.flush]
    cases hpath : s.store.path with
    | none => exact Reworking.chain.pure _
    | some p =>
        refine Reworking.writeText _ _ _ fun w hw => ?_
        rw [target_congr hw]
        exact h.separate.cacheFile p hpath
  obtain ⟨hstamp, hreworked⟩ := hflush s.workspace rfl
  obtain ⟨hstore, hplace⟩ := perform_flush s
  rw [← hplace] at hreworked
  refine ⟨⟨?_, congrArg CacheStore.path hstore, hreworked.mono fun _ => False.elim⟩, by rw [hstore],
    fun l _ hfile => hreworked.isFile id hfile⟩
  rw [flush, perform_bind, perform_get, perform_bind, perform_liftJob]
  rcases hrun : Job.exec s.store.flush s.workspace with ⟨_ | _, after⟩
  · rw [hrun] at hstamp
    exact hstamp
  · rw [hrun] at hstamp
    exact hstamp

/-- Building a layer with success records it, deals with no other layer, and ends with writing the
cache file. -/
theorem Prepared.rebuild (h : Prepared c tokens s) (hname : layer.name = kind.dirName)
    (hdir : layer.sourceDir = tokens.join kind.dirName)
    (hsuccess : ((c.buildLayer layer).run s.workspace).1.success = true) :
    ∃ recorded : BuildState, ((rebuild c layer).perform s).2 = (flush.perform recorded).2 ∧
      recorded.workspace = ((c.buildLayer layer).run s.workspace).2 ∧
      Progressed c tokens s recorded ∧ Steady c tokens kind recorded ∧
      ∀ other, other ≠ kind → Bypassed c tokens other s recorded := by
  have hproper : ProperName layer.name := hname ▸ kind.proper_dirName
  have hjson : ∀ l, s.workspace.place.IsSource tokens l → endsInJson l :=
    fun l ⟨_, _, hjson⟩ => hjson
  obtain ⟨hstamp, hreworked⟩ := reworked_buildLayer c hjson hproper s.workspace
  have hfresh : ∀ l, c.Outputs s.workspace.place layer.name l → ∀ time,
      ((c.buildLayer layer).run s.workspace).2.place.tree.modifiedAt l = some time →
      time = s.workspace.stamp := fun l hl time htime =>
    modifiedAt_of_success hproper h.separate.wellFormed h.separate.direct
      (fun l hl hin => h.separate.outputWay l hl ⟨kind, hname ▸ hin⟩) hsuccess hl htime
  rw [perform_rebuild]
  dsimp only
  rw [if_pos hsuccess]
  generalize (c.buildLayer layer).run s.workspace = built at hstamp hreworked hfresh
  obtain ⟨hashes, hhashes⟩ : ∃ hashes, built.2.place.fingerprint layer.sourceDir = .ok hashes :=
    ⟨_, fingerprint_eq (hreworked.wellFormed h.separate.wellFormed) layer.sourceDir⟩
  have hentry : ∀ name,
      CacheStore.entry? (s.store.replace ⟨layer.name, built.2.clock, hashes⟩) name =
      if name = layer.name then some ⟨layer.name, built.2.clock, hashes⟩
      else s.store.entry? name :=
    fun name => CacheStore.entry?_replace s.store _ name
  have hprogressed : Progressed c tokens s
      ⟨built.2, s.store.replace ⟨layer.name, built.2.clock, hashes⟩⟩ :=
    ⟨hstamp, rfl, Reworked.mono (fun l hl => ⟨kind, hname ▸ hl⟩) hreworked⟩
  refine ⟨⟨built.2, s.store.replace ⟨layer.name, built.2.clock, hashes⟩⟩,
    congrArg Prod.snd (perform_record layer ⟨built.2, s.store⟩ hhashes), rfl, hprogressed, ?_, ?_⟩
  · refine ⟨⟨_, hashes, (hentry _).trans (if_pos hname.symm), hdir ▸ hhashes, fun _ => rfl⟩, ?_⟩
    intro l hl time htime m hm later hlater
    have houtput := hm.outputs
    rw [outputs_congr hreworked.current, ← hname] at houtput
    rw [hfresh m houtput later hlater, ← hstamp]
    exact (h.progressed hprogressed).past l ⟨kind, hl⟩ time htime
  · intro other hother
    have hne : other.dirName ≠ layer.name :=
      fun heq => hother (LayerKind.dirName_injective (heq.trans hname))
    refine ⟨hprogressed, (hentry _).trans (if_neg hne), ?_⟩
    exact fun l hl hfile => hreworked.isFile (fun hin => hne (outputs_disjoint hl hin)) hfile

end Build

end DesignTokens
