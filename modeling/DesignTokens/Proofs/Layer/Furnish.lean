import DesignTokens.Proofs.Layer.Refill
import DesignTokens.Proofs.Layer.Sources

/-!
What a build of a layer that succeeds leaves in the layer's output directories: a stylesheet if the
layer has sources, and an index of typed modules if it exports tokens.
-/

namespace DesignTokens

open FileTree Job

/-- A generated file is found with its contents. -/
theorem node_of_exec_generated {p q : Path} {stamp body : String} {x after : Workspace}
    (h : exec (Generated.write p stamp body) x = (.ok q, after)) :
    ∃ modified, after.place.node p =
      .ok (.file (Generated.contents stamp body).toUTF8 modified) := by
  obtain ⟨_, between, hwrite, hreturn⟩ := exec_bind_eq_ok.mp h
  obtain rfl := congrArg Prod.snd hreturn
  rcases exec_writeText_cases TokenError.file (.file p) p (Generated.contents stamp body) x with
    ⟨modified, -, hnode⟩ | ⟨e, hfailed, -⟩
  · rw [hwrite] at hnode
    exact ⟨modified, hnode⟩
  · rw [hwrite] at hfailed
    cases hfailed

theorem isFile_of_exec_generated {p q : Path} {stamp body : String} {x after : Workspace}
    (h : exec (Generated.write p stamp body) x = (.ok q, after)) :
    after.place.tree.IsFile (after.place.target p) := by
  obtain ⟨modified, hnode⟩ := node_of_exec_generated h
  exact ⟨_, modified, (Place.node_eq_ok_iff.mp hnode).2⟩

theorem ofCategories_ne_nil {categories : List String} (h : categories ≠ []) :
    ModuleName.ofCategories categories ≠ [] := by
  obtain ⟨category, rest, rfl⟩ := List.exists_cons_of_ne_nil h
  exact List.cons_ne_nil _ _

theorem TypedModule.isFile_index {dir : Path} {tokens : List Token} {style : LeafStyle}
    {stem stamp : String} (hne : tokens ≠ []) {written : List Path} {x after : Workspace}
    (h : exec (write dir tokens style stem stamp) x = (.ok written, after)) :
    after.place.tree.IsFile (after.place.target (dir.join indexName)) := by
  obtain ⟨_, _, -, hrest⟩ := exec_bind_eq_ok.mp h
  obtain ⟨modules, between, -, hindex⟩ := exec_bind_eq_ok.mp hrest
  rw [if_neg (by simpa using ofCategories_ne_nil (sortedCategories_ne_nil hne))] at hindex
  obtain ⟨_, last, hwrite, hreturn⟩ := exec_bind_eq_ok.mp hindex
  obtain rfl := congrArg Prod.snd hreturn
  exact isFile_of_exec_generated hwrite

namespace BuildContext

variable {c : BuildContext} {layer : Layer} {v w : Place} {region spared : Location → Prop}
  {time : Nat}

/-- There is a file below an output directory of a layer. -/
def Filled (c : BuildContext) (layer sub : String) (w : Place) : Prop :=
  ∃ l, Below (w.target c.outputDir ++ [sub, layer]) l ∧ w.tree.IsFile l

theorem Filled.reworked {layer sub : String} (h : c.Filled layer sub v)
    (hw : Reworked region spared time v w)
    (hregion : ∀ l, v.target c.outputDir ++ [sub, layer] <+: l → ¬ region l) :
    c.Filled layer sub w := by
  obtain ⟨l, hl, hfile⟩ := h
  refine ⟨l, ?_, hw.isFile (hregion l hl.1) hfile⟩
  rwa [Place.target_congr hw.current]

/-- The tokens of which a layer has typed modules: its own, or those of the base file of the default
flavor. -/
def exported (c : BuildContext) (w : Place) (layer : Layer) : Option (List Token) :=
  match layer.sources with
  | .files paths => (w.dictionary layer.dependencies paths).toOption.map Dictionary.sources
  | .flavors variants =>
    variants.foldl (fun typed flavor =>
      if c.selectors.isDefaultFlavor flavor.name then
        (w.dictionary layer.dependencies [flavor.baseFile]).toOption.map Dictionary.sources
      else typed) none

theorem Filled.of_isFile {sub layer : String} (hsub : ProperName sub) (hlayer : ProperName layer)
    (names : List String) (hne : names ≠ []) (hnames : ∀ name ∈ names, ProperName name)
    (h : w.tree.IsFile (w.target (((c.outputDir.join sub).join layer).joinAll names))) :
    c.Filled layer sub w := by
  rw [Place.target_joinAll _ hnames, c.target_join_join w hsub hlayer] at h
  exact ⟨_, Below.append hne, h⟩

theorem reworked_of_exec {α : Type} {job : Job TokenError α} {x after : Workspace}
    {result : Except TokenError α} (hjob : Within (Reworking x.place.current region spared) job)
    (h : exec job x = (result, after)) :
    after.stamp = x.stamp ∧ Reworked region spared x.stamp x.place after.place :=
  hjob.of_exec h rfl

/-- The generated files so far last until the end of a build. -/
theorem Filled.exec {sub layer : String} {x after : Workspace} (h : c.Filled layer sub x.place)
    {α : Type} {job : Job TokenError α} {result : Except TokenError α}
    (hjob : Within (Reworking x.place.current (fun _ => False) fun _ => False) job)
    (hrun : exec job x = (result, after)) : c.Filled layer sub after.place :=
  h.reworked (reworked_of_exec hjob hrun).2 fun _ _ => id

theorem reworking_any {start : Location} (p : Path) (hp : Generated.Named p) (stamp body : String) :
    Within (Reworking start (fun _ => False) fun _ => False) (Generated.write p stamp body) :=
  reworking_generated (fun _ h => h.elim) hp stamp body

theorem reworking_typed {start : Location} {dir : Path} (name stamp body : String) :
    Within (Reworking start (fun _ => False) fun _ => False)
      (Generated.write (dir.join (name ++ ".ts")) stamp body) :=
  reworking_any _ (Generated.named_ts dir name) stamp body

theorem filled_writeTyped (hlayer : ProperName layer.name) (htyped : c.typedModules = true)
    {tokens : List Token} (hne : tokens ≠ []) {written : List Path} {x after : Workspace}
    (h : exec (c.writeTyped layer tokens) x = (.ok written, after)) :
    c.Filled layer.name "ts" after.place := by
  rw [writeTyped, if_pos htyped] at h
  exact .of_isFile (proper_kind (.inr rfl)) hlayer [TypedModule.indexName] (List.cons_ne_nil _ _)
    (by decide) (TypedModule.isFile_index hne h)

theorem filled_writeSingle (hlayer : ProperName layer.name) {paths written : List Path}
    {x after : Workspace} (h : exec (c.writeSingle layer paths) x = (.ok written, after)) :
    c.Filled layer.name "css" after.place ∧
      ∃ d, x.place.dictionary layer.dependencies paths = .ok d ∧
        (c.typedModules = true → d.sources ≠ [] → c.Filled layer.name "ts" after.place) := by
  obtain ⟨d, _, hresolve, hrest⟩ := exec_bind_eq_ok.mp h
  rw [exec_resolveFiles] at hresolve
  obtain ⟨hdictionary, rfl⟩ := Prod.mk.inj hresolve
  obtain ⟨_, y, -, hrest⟩ := exec_bind_eq_ok.mp hrest
  obtain ⟨css, z, hcss, hrest⟩ := exec_bind_eq_ok.mp hrest
  obtain ⟨more, last, htyped, hreturn⟩ := exec_bind_eq_ok.mp hrest
  obtain rfl := congrArg Prod.snd hreturn
  have hfile : c.Filled layer.name "css" z.place :=
    .of_isFile (proper_kind (.inl rfl)) hlayer ["tokens.css"] (List.cons_ne_nil _ _) (by decide)
      (isFile_of_exec_generated hcss)
  refine ⟨hfile.exec (within_writeTyped Reworking.chain c layer reworking_typed _) htyped,
    d, hdictionary, ?_⟩
  intro hwanted hne
  exact filled_writeTyped hlayer hwanted hne htyped

/-- Every flavor has a stylesheet, and the typed modules are those of the default flavor. -/
theorem filled_writeFlavors (hlayer : ProperName layer.name) (hspared : ∀ l, spared l → endsInJson l)
    {variants : List Flavor} (hnames : ∀ flavor ∈ variants, ProperName flavor.name)
    (hreads : ∀ z, Reworked region spared time v z → ∀ flavor ∈ variants,
      ∀ p ∈ layer.dependencies ++ [flavor.baseFile], ∀ text, z.readText p = .ok text →
        v.readText p = .ok text)
    {typed found : Option (List Token)} {written : List Path} {x after : Workspace}
    (hstamp : x.stamp = time) (hx : Reworked region spared time v x.place)
    (h : exec (c.writeFlavors layer typed variants) x = (.ok (written, found), after)) :
    (variants ≠ [] → c.Filled layer.name "css" after.place) ∧
      found = variants.foldl (fun typed flavor =>
        if c.selectors.isDefaultFlavor flavor.name then
          (v.dictionary layer.dependencies [flavor.baseFile]).toOption.map Dictionary.sources
        else typed) typed := by
  induction variants generalizing typed written x with
  | nil =>
      obtain ⟨hfound, -⟩ := Prod.mk.inj h
      obtain ⟨-, rfl⟩ := Prod.mk.inj (Except.ok.inj hfound)
      exact ⟨fun hne => absurd rfl hne, rfl⟩
  | cons flavor rest ih =>
      obtain ⟨hname, hrestNames⟩ := List.forall_mem_cons.mp hnames
      obtain ⟨d, _, hresolve, hrest⟩ := exec_bind_eq_ok.mp h
      rw [exec_resolveFiles] at hresolve
      obtain ⟨hdictionary, rfl⟩ := Prod.mk.inj hresolve
      obtain ⟨css, y, hcss, hrest⟩ := exec_bind_eq_ok.mp hrest
      obtain ⟨modes, z, hmodes, hrest⟩ := exec_bind_eq_ok.mp hrest
      obtain ⟨⟨more, last⟩, _, hmore, hreturn⟩ := exec_bind_eq_ok.mp hrest
      obtain ⟨hlast, rfl⟩ := Prod.mk.inj hreturn
      obtain ⟨-, rfl⟩ := Prod.mk.inj (Except.ok.inj hlast)
      have hgenerated : ∀ (p : Path), Generated.Named p → ∀ stamp body,
          Within (Reworking v.current region spared) (Generated.write p stamp body) :=
        fun p hp stamp body => reworking_generated hspared hp stamp body
      have hnamed : Generated.Named (((c.cssDir layer.name).join flavor.name).join "flavor.css") :=
        Generated.named_css _ "flavor"
      -- the files of this flavor
      obtain ⟨hstampY, hy⟩ := reworked_of_exec (hx.current ▸
        within_writeFlavorFile Reworking.chain c (hgenerated _ hnamed) _ _ _) hcss
      obtain ⟨hstampZ, hz⟩ := reworked_of_exec ((hy.current.trans hx.current) ▸
        within_writeModes Reworking.chain c _ _ fun _ _ =>
          hgenerated _ (Generated.named_css _ _)) hmodes
      have hfile : c.Filled layer.name "css" y.place := by
        obtain ⟨_, _, -, hwrite⟩ := exec_bind_eq_ok.mp hcss
        have hproper : ∀ name ∈ [flavor.name, "flavor.css"], ProperName name := by
          rw [List.forall_mem_cons, List.forall_mem_singleton]
          exact ⟨hname, by decide⟩
        exact .of_isFile (proper_kind (.inl rfl)) hlayer [flavor.name, "flavor.css"]
          (List.cons_ne_nil _ _) hproper (isFile_of_exec_generated hwrite)
      have hfileZ : c.Filled layer.name "css" z.place :=
        hfile.exec (within_writeModes Reworking.chain c _ _ fun _ _ =>
          reworking_any _ (Generated.named_css _ _)) hmodes
      -- the files of the others
      have hd : v.dictionary layer.dependencies [flavor.baseFile] = .ok d :=
        Place.dictionary_of_reads (hreads x.place hx flavor List.mem_cons_self) hdictionary
      obtain ⟨-, hfound⟩ := ih hrestNames
        (fun z hz other hother => hreads z hz other (List.mem_cons_of_mem _ hother))
        (hstampZ.trans (hstampY.trans hstamp))
        (hx.trans (hstamp ▸ hy.trans (hstampY ▸ hz))) hmore
      refine ⟨fun _ => hfileZ.exec (within_writeFlavors Reworking.chain c layer _
        fun _ _ p hp => reworking_any p (named_of_mem_flavorSheets hp)) hmore, ?_⟩
      rw [hfound, List.foldl_cons, hd]
      rfl

theorem filled_writeTheme (hlayer : ProperName layer.name) (hspared : ∀ l, spared l → endsInJson l)
    {variants : List Flavor} (hnames : ∀ flavor ∈ variants, ProperName flavor.name)
    (hreads : ∀ z, Reworked region spared time v z → ∀ flavor ∈ variants,
      ∀ p ∈ layer.dependencies ++ [flavor.baseFile], ∀ text, z.readText p = .ok text →
        v.readText p = .ok text)
    {written : List Path} {x after : Workspace} (hstamp : x.stamp = time)
    (hx : Reworked region spared time v x.place)
    (h : exec (c.writeTheme layer variants) x = (.ok written, after)) :
    (variants ≠ [] → c.Filled layer.name "css" after.place) ∧
      ∀ tokens, variants.foldl (fun typed flavor =>
          if c.selectors.isDefaultFlavor flavor.name then
            (v.dictionary layer.dependencies [flavor.baseFile]).toOption.map Dictionary.sources
          else typed) none = some tokens →
        c.typedModules = true → tokens ≠ [] → c.Filled layer.name "ts" after.place := by
  obtain ⟨⟨css, found⟩, y, hflavors, hrest⟩ := exec_bind_eq_ok.mp h
  obtain ⟨hcss, rfl⟩ := filled_writeFlavors hlayer hspared hnames hreads hstamp hx hflavors
  have hlast : ∀ job : Job TokenError (List Path),
      Within (Reworking y.place.current (fun _ => False) fun _ => False) job →
      exec job y = (.ok written, after) → variants ≠ [] → c.Filled layer.name "css" after.place :=
    fun job hjob hrun hne => (hcss hne).exec hjob hrun
  dsimp only at hrest
  split at hrest
  · rename_i tokens htokens
    refine ⟨hlast _ (Reworking.chain.bind
      (within_writeTyped Reworking.chain c layer reworking_typed _)
      fun _ => Reworking.chain.pure _) hrest, ?_⟩
    intro tokens' htokens' htyped hne
    obtain rfl := Option.some.inj (htokens.symm.trans htokens')
    obtain ⟨more, z, hmore, hreturn⟩ := exec_bind_eq_ok.mp hrest
    obtain rfl := congrArg Prod.snd hreturn
    exact filled_writeTyped hlayer htyped hne hmore
  · rename_i hnone
    refine ⟨hlast _ ?_ hrest, ?_⟩
    · split
      · exact Reworking.chain.bind (Reworking.chain.reports _) fun _ => Reworking.chain.pure _
      · exact Reworking.chain.pure _
    · intro tokens htokens
      exact absurd (hnone.symm.trans htokens) nofun

/-- A build that succeeds fills the output directories of a layer that has sources and, where typed
modules are wanted, exports tokens. -/
theorem filled_of_success (hlayer : ProperName layer.name)
    (hspared : ∀ l, spared l → endsInJson l)
    (hnames : ∀ variants, layer.sources = .flavors variants → ∀ flavor ∈ variants,
      ProperName flavor.name)
    (hreads : ∀ z, Reworked region spared time v z → ∀ p ∈ layerReads layer, ∀ text,
      z.readText p = .ok text → v.readText p = .ok text)
    (hregion : ∀ l, c.Outputs v layer.name l → region l) {x : Workspace} (hstamp : x.stamp = time)
    (hx : Reworked region spared time v x.place)
    (hsuccess : ((c.buildLayer layer).run x).1.success = true)
    (hsources : layer.sources.isEmpty = false)
    (hexported : c.typedModules = true → ∃ tokens ∈ c.exported v layer, tokens ≠ []) :
    ∀ sub, c.Makes sub → c.Filled layer.name sub ((c.buildLayer layer).run x).2.place := by
  rw [run_buildLayer_eq] at hsuccess ⊢
  rcases hrun : exec (c.buildJob layer) x with ⟨_ | files, after⟩
  · rw [hrun] at hsuccess
    exact absurd hsuccess Bool.false_ne_true
  · dsimp only
    rw [buildJob, writeLayer_eq] at hrun
    obtain ⟨written, done, hwrite, hmeasure⟩ := exec_bind_eq_ok.mp hrun
    obtain ⟨_, y, hcss, hrest⟩ := exec_bind_eq_ok.mp hwrite
    obtain ⟨_, z, hts, houtputs⟩ := exec_bind_eq_ok.mp hrest
    have hclear : ∀ kind, (kind = "css" ∨ kind = "ts") → Within (Reworking v.current region spared)
        (clearDirectory ((c.outputDir.join kind).join layer.name)) := by
      intro kind hkind x hx
      obtain ⟨hstamp, hreworked⟩ := reworking_clearDirectory v hkind hlayer x hx
      exact ⟨hstamp, hreworked.mono hregion⟩
    obtain ⟨hstampY, hy⟩ := reworked_of_exec (hx.current ▸ hclear "css" (.inl rfl)) hcss
    obtain ⟨hstampZ, hz⟩ := reworked_of_exec
      ((hy.current.trans hx.current) ▸ hclear "ts" (.inr rfl)) hts
    have hvz : Reworked region spared time v z.place :=
      hx.trans (hstamp ▸ hy.trans (hstampY ▸ hz))
    have hstampZ : z.stamp = time := hstampZ.trans (hstampY.trans hstamp)
    have hlast : ∀ sub, c.Filled layer.name sub done.place → c.Filled layer.name sub after.place :=
      fun sub hfilled => hfilled.exec (within_measure Reworking.chain written) hmeasure
    rw [writeOutputs, if_neg (by rw [hsources]; exact Bool.false_ne_true)] at houtputs
    rw [layerReads, sourceReads] at hreads
    rw [exported] at hexported
    cases hcase : layer.sources with
    | files paths =>
        simp only [hcase] at houtputs hreads hexported
        obtain ⟨hfile, d, hd, htyped⟩ := filled_writeSingle hlayer houtputs
        have hd : v.dictionary layer.dependencies paths = .ok d :=
          Place.dictionary_of_reads (hreads z.place hvz) hd
        rintro sub (rfl | ⟨rfl, hwanted⟩)
        · exact hlast "css" hfile
        · obtain ⟨tokens, htokens, hne⟩ := hexported hwanted
          rw [hd] at htokens
          obtain rfl := Option.some.inj htokens
          exact hlast "ts" (htyped hwanted hne)
    | flavors variants =>
        simp only [hcase] at houtputs hreads hexported
        have hbase : ∀ z, Reworked region spared time v z → ∀ flavor ∈ variants,
            ∀ p ∈ layer.dependencies ++ [flavor.baseFile], ∀ text, z.readText p = .ok text →
              v.readText p = .ok text := by
          intro z hz flavor hflavor p hp
          refine hreads z hz p ?_
          rcases List.mem_append.mp hp with hp | hp
          · exact List.mem_append_left _ hp
          · refine List.mem_append_right _ (List.mem_flatMap.mpr ⟨flavor, hflavor, ?_⟩)
            exact List.mem_singleton.mp hp ▸ List.mem_cons_self
        obtain ⟨hfile, htyped⟩ := filled_writeTheme hlayer hspared (hnames variants hcase) hbase
          hstampZ hvz houtputs
        have hne : variants ≠ [] := by
          rintro rfl
          rw [hcase] at hsources
          cases hsources
        rintro sub (rfl | ⟨rfl, hwanted⟩)
        · exact hlast "css" (hfile hne)
        · obtain ⟨tokens, htokens, hsome⟩ := hexported hwanted
          exact hlast "ts" (htyped tokens htokens hwanted hsome)

end BuildContext

end DesignTokens
