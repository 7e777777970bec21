import DesignTokens.Proofs.Layer.Furnish

/-!
What a build of a layer that succeeds leaves in the stylesheets of its modes: each holds the tokens
of the mode's file, switched on as the registry resolves the mode's name. A stylesheet stays as it
was written because every later one, and every typed module, goes to another location.
-/

namespace DesignTokens

open FileTree Job

namespace BuildContext

/-- Flavors and modes that each have a stylesheet of their own. -/
structure SheetsApart (variants : List Flavor) : Prop where
  plain : ∀ flavor ∈ variants, PlainFlavor flavor
  modes : ∀ flavor ∈ variants, (Keyed.keys flavor.modeFiles).Nodup
  names : (variants.map Flavor.name).Nodup

end BuildContext

namespace Flavor

theorem map_name_discover_sublist (w : Place) (dir : Path) :
    ((discover w dir).map Flavor.name).Sublist (w.namesIn dir) := by
  have hnames : ∀ entries : List (String × Path),
      ((entries.filterMap fun entry => (baseFile? w entry.2).map fun base =>
        (⟨entry.1, base, modeFilesIn w entry.2⟩ : Flavor)).map Flavor.name).Sublist
          (entries.map Prod.fst) := by
    intro entries
    induction entries with
    | nil => exact .slnil
    | cons entry rest ih =>
        rw [List.filterMap_cons, List.map_cons]
        rcases baseFile? w entry.2 with _ | base
        · exact ih.cons _
        · exact ih.cons_cons _
  have hcandidates : ((candidates w dir).map Prod.fst).Sublist (w.namesIn dir) := by
    have hall : ((w.namesIn dir).map fun name => (name, dir.join name)).map Prod.fst =
        w.namesIn dir := by
      rw [List.map_map]
      exact List.map_id _
    exact hall ▸ List.filter_sublist.map Prod.fst
  exact (hnames _).trans hcandidates

theorem sheetsApart_discover {w : Place} (hw : w.tree.WellFormed) (dir : Path) :
    BuildContext.SheetsApart (discover w dir) := by
  refine ⟨fun flavor hflavor => plainFlavor_of_mem_discover hw hflavor, ?_, ?_⟩
  · intro flavor hflavor
    obtain ⟨n, base, -, -, -, rfl⟩ := exists_of_mem_discover hw hflavor
    exact (Keyed.ascending_sortedOf _).nodup
  · refine List.Nodup.sublist (map_name_discover_sublist w dir) ?_
    rw [Place.namesIn]
    split
    · exact hw.childNames_ascending.imp fun h => ne_of_lt h
    · exact List.nodup_nil

end Flavor

theorem Layer.sheetsApart_of_discover {w : Place} (hw : w.tree.WellFormed) {tokens : Path}
    {flavor : String} {layers : List Layer} (h : discover w tokens flavor = .ok layers)
    {layer : Layer} (hlayer : layer ∈ layers) {variants : List Flavor}
    (hvariants : layer.sources = .flavors variants) : BuildContext.SheetsApart variants := by
  obtain ⟨kind, rfl⟩ := exists_ofKind_of_mem h hlayer
  cases kind with
  | primitives => cases hvariants
  | theme =>
      obtain rfl := LayerSources.flavors.inj hvariants
      exact Flavor.sheetsApart_discover hw _
  | composite => cases hvariants

namespace BuildContext

variable {c : BuildContext} {layer : Layer} {w : Place}

theorem target_modeSheet (dir : Path) {mode : String} (hmode : '/' ∉ mode.toList) :
    w.target (modeSheet dir mode) = w.target dir ++ ["flavor-" ++ mode ++ ".css"] :=
  Place.target_join _ (proper_modeSheet hmode)

theorem target_modeSheet_injective {dir : Path} {mode other : String} (hmode : '/' ∉ mode.toList)
    (hother : '/' ∉ other.toList)
    (h : w.target (modeSheet dir mode) = w.target (modeSheet dir other)) : mode = other := by
  rw [target_modeSheet dir hmode, target_modeSheet dir hother, List.append_cancel_left_eq,
    List.singleton_inj, ← String.toList_inj] at h
  simpa only [String.toList_append, List.append_cancel_right_eq, List.append_cancel_left_eq,
    String.toList_inj] using h

theorem target_flavorSheets {flavor : Flavor} (hflavor : PlainFlavor flavor) {p : Path}
    (hp : p ∈ c.flavorSheets layer flavor) :
    ∃ file, w.target p = w.target (c.cssDir layer.name) ++ [flavor.name, file] := by
  have hdir : w.target ((c.cssDir layer.name).join flavor.name) =
      w.target (c.cssDir layer.name) ++ [flavor.name] := Place.target_join _ hflavor.name
  rcases List.mem_cons.mp hp with rfl | hp
  · refine ⟨"flavor.css", ?_⟩
    rw [Place.target_join _ (by decide), hdir, List.append_assoc, List.singleton_append]
  · obtain ⟨mode, hmode, rfl⟩ := List.mem_map.mp hp
    refine ⟨"flavor-" ++ mode.1 ++ ".css", ?_⟩
    rw [target_modeSheet _ (hflavor.modes mode hmode), hdir, List.append_assoc,
      List.singleton_append]

/-- A typed module is never written in place of a mode's stylesheet. -/
theorem target_typed_ne (dir sheets : Path) (name : String) {mode : String}
    (hmode : '/' ∉ mode.toList) :
    w.target (dir.join (name ++ ".ts")) ≠ w.target (modeSheet sheets mode) := by
  have hending : ".ts".toList = '.' :: ['t', 's'] := rfl
  obtain ⟨start, hlast⟩ := w.exists_getLast?_target dir name hending (by decide) (by decide)
    (by decide)
  intro heq
  rw [heq, target_modeSheet sheets hmode, List.getLast?_concat, Option.some_inj,
    ← String.toList_inj, String.toList_ofList, String.toList_append] at hlast
  -- the two names differ in the last character but one
  have hends := congrArg (fun name : List Char => name.reverse.take 2) hlast
  simp at hends

/-- Writing to another location spares what is found at a path. -/
theorem reworking_beside {p q : Path} (hne : ∀ v : Place, v.target q ≠ v.target p)
    (stamp body : String) :
    Within (Reworking w.current (fun _ => False) (· = w.target p)) (Generated.write q stamp body) :=
  reworking_write (fun v hv heq => hne v (heq.trans (Place.target_congr hv.symm p))) stamp body

theorem node_of_exec {α : Type} {job : Job TokenError α} {p : Path} {x after : Workspace}
    {result : Except TokenError α}
    (hjob : Within (Reworking x.place.current (fun _ => False) (· = x.place.target p)) job)
    (h : exec job x = (result, after)) {content : ByteArray} {modified : Nat}
    (hnode : x.place.node p = .ok (.file content modified)) :
    after.place.node p = .ok (.file content modified) :=
  (reworked_of_exec hjob h).2.node_of_spared rfl hnode

/-- A job from the workspace `x` to `after` has compiled the file of a mode: the stylesheet at a path
is that of the tokens that the file had on the way. -/
def Compiled (c : BuildContext) (R : Workspace → Workspace → Prop) (dependencies : List Path)
    (flavor : String) (p file : Path) (activation : Activation) (x after : Workspace) : Prop :=
  ∃ y d modified, R x y ∧ y.place.dictionary dependencies [file] = .ok d ∧
    after.place.node p = .ok (.file (Generated.contents c.stamp
      (c.stylesheet.flavorText flavor activation d.sources)).toUTF8 modified)

namespace Compiled

variable {R : Workspace → Workspace → Prop} {dependencies : List Path} {flavor : String}
  {p file : Path} {activation : Activation} {x y z : Workspace}

theorem of_earlier (hR : Chain R) (hxy : R x y)
    (h : c.Compiled R dependencies flavor p file activation y z) :
    c.Compiled R dependencies flavor p file activation x z := by
  obtain ⟨u, d, modified, hyu, hrest⟩ := h
  exact ⟨u, d, modified, hR.trans hxy hyu, hrest⟩

theorem exec (h : c.Compiled R dependencies flavor p file activation x y) {α : Type}
    {job : Job TokenError α} {result : Except TokenError α}
    (hjob : Within (Reworking y.place.current (fun _ => False) (· = y.place.target p)) job)
    (hrun : Job.exec job y = (result, z)) :
    c.Compiled R dependencies flavor p file activation x z := by
  obtain ⟨u, d, modified, hxu, hd, hnode⟩ := h
  exact ⟨u, d, modified, hxu, hd, node_of_exec hjob hrun hnode⟩

end Compiled

section Emitting

variable {R : Workspace → Workspace → Prop} (hR : Chain R)
  (hwrite : ∀ p, Generated.Named p → ∀ stamp body, Within R (Generated.write p stamp body))

include hR hwrite

/-- Each mode has its stylesheet: it is written in the mode's turn and kept in those that follow. -/
theorem compiled_writeModes {dependencies : List Path} {flavor : String} {dir : Path}
    {modes : List (String × Path)} (hplain : ∀ mode ∈ modes, '/' ∉ mode.1.toList)
    (hnodup : (Keyed.keys modes).Nodup) {written : List Path} {x after : Workspace}
    (h : exec (c.writeModes dependencies flavor dir modes) x = (.ok written, after)) :
    ∀ mode ∈ modes, c.Compiled R dependencies flavor (modeSheet dir mode.1) mode.2
      (c.modes.resolve (some mode.1)) x after := by
  induction modes generalizing written x with
  | nil => exact fun _ hmode => absurd hmode List.not_mem_nil
  | cons mode rest ih =>
      obtain ⟨hmode, hrestPlain⟩ := List.forall_mem_cons.mp hplain
      obtain ⟨hnew, hrestNodup⟩ := List.nodup_cons.mp hnodup
      obtain ⟨_, y, hreport, hrest⟩ := exec_bind_eq_ok.mp h
      obtain ⟨d, _, hresolve, hrest⟩ := exec_bind_eq_ok.mp hrest
      rw [exec_resolveFiles] at hresolve
      obtain ⟨hdictionary, rfl⟩ := Prod.mk.inj hresolve
      obtain ⟨css, z, hcss, hrest⟩ := exec_bind_eq_ok.mp hrest
      obtain ⟨more, _, hmore, hreturn⟩ := exec_bind_eq_ok.mp hrest
      obtain rfl := congrArg Prod.snd hreturn
      have hxy : R x y := (hR.reports _).of_exec hreport
      have hnamed : Generated.Named (modeSheet dir mode.1) := Generated.named_css dir _
      have hyz : R y z :=
        (within_writeFlavorFile hR c (hwrite _ hnamed) flavor _ d.sources).of_exec hcss
      refine List.forall_mem_cons.mpr ⟨?_, fun other hother =>
        (ih hrestPlain hrestNodup hmore other hother).of_earlier hR (hR.trans hxy hyz)⟩
      have hdone : c.Compiled R dependencies flavor (modeSheet dir mode.1) mode.2
          (c.modes.resolve (some mode.1)) x z := by
        obtain ⟨_, _, -, hgenerated⟩ := exec_bind_eq_ok.mp hcss
        obtain ⟨modified, hnode⟩ := node_of_exec_generated hgenerated
        exact ⟨y, d, modified, hxy, hdictionary, hnode⟩
      refine hdone.exec (within_writeModes Reworking.chain c _ _ fun other hother =>
        reworking_beside fun v heq => ?_) hmore
      have hsame := target_modeSheet_injective (hrestPlain other hother) hmode heq
      exact hnew (hsame ▸ List.mem_map_of_mem hother)

/-- The stylesheets of a flavor stay while those of other flavors are written. -/
theorem compiled_writeFlavors {variants : List Flavor} (hapart : SheetsApart variants)
    {typed : Option (List Token)} {result : List Path × Option (List Token)} {x after : Workspace}
    (h : exec (c.writeFlavors layer typed variants) x = (.ok result, after)) :
    ∀ flavor ∈ variants, ∀ mode ∈ flavor.modeFiles,
      c.Compiled R (layer.dependencies ++ [flavor.baseFile]) flavor.name
        (modeSheet ((c.cssDir layer.name).join flavor.name) mode.1) mode.2
        (c.modes.resolve (some mode.1)) x after := by
  induction variants generalizing typed result x with
  | nil => exact fun _ hflavor => absurd hflavor List.not_mem_nil
  | cons flavor rest ih =>
      obtain ⟨hplain, hrestPlain⟩ := List.forall_mem_cons.mp hapart.plain
      obtain ⟨hmodes, hrestModes⟩ := List.forall_mem_cons.mp hapart.modes
      obtain ⟨hnew, hrestNames⟩ := List.nodup_cons.mp hapart.names
      obtain ⟨d, _, hresolve, hrest⟩ := exec_bind_eq_ok.mp h
      rw [exec_resolveFiles] at hresolve
      obtain ⟨-, rfl⟩ := Prod.mk.inj hresolve
      obtain ⟨css, y, hcss, hrest⟩ := exec_bind_eq_ok.mp hrest
      obtain ⟨written, z, hwritten, hrest⟩ := exec_bind_eq_ok.mp hrest
      obtain ⟨⟨more, last⟩, _, hmore, hreturn⟩ := exec_bind_eq_ok.mp hrest
      obtain rfl := congrArg Prod.snd hreturn
      have hnamed : Generated.Named (((c.cssDir layer.name).join flavor.name).join "flavor.css") :=
        Generated.named_css _ "flavor"
      have hxy : R x y :=
        (within_writeFlavorFile hR c (hwrite _ hnamed) _ _ _).of_exec hcss
      have hyz : R y z :=
        (within_writeModes hR c _ _ fun _ _ => hwrite _ (Generated.named_css _ _)).of_exec hwritten
      refine List.forall_mem_cons.mpr ⟨?_, fun other hother mode hmode =>
        (ih ⟨hrestPlain, hrestModes, hrestNames⟩ hmore other hother mode hmode).of_earlier hR
          (hR.trans hxy hyz)⟩
      intro mode hmode
      refine ((compiled_writeModes hR hwrite hplain.modes hmodes hwritten mode hmode).exec
        (within_writeFlavors Reworking.chain c layer _ fun other hother p hp =>
          reworking_beside fun v heq => ?_) hmore).of_earlier hR hxy
      have hsheet : modeSheet ((c.cssDir layer.name).join flavor.name) mode.1 ∈
          c.flavorSheets layer flavor := List.mem_cons_of_mem _ (List.mem_map_of_mem hmode)
      obtain ⟨file, hfile⟩ := target_flavorSheets (w := v) (hrestPlain other hother) hp
      obtain ⟨file', hfile'⟩ := target_flavorSheets (w := v) hplain hsheet
      rw [hfile, hfile', List.append_cancel_left_eq] at heq
      obtain ⟨hname, -⟩ := List.cons.inj heq
      exact hnew (hname ▸ List.mem_map_of_mem hother)

theorem compiled_writeTheme {variants : List Flavor} (hapart : SheetsApart variants)
    {written : List Path} {x after : Workspace}
    (h : exec (c.writeTheme layer variants) x = (.ok written, after)) :
    ∀ flavor ∈ variants, ∀ mode ∈ flavor.modeFiles,
      c.Compiled R (layer.dependencies ++ [flavor.baseFile]) flavor.name
        (modeSheet ((c.cssDir layer.name).join flavor.name) mode.1) mode.2
        (c.modes.resolve (some mode.1)) x after := by
  intro flavor hflavor mode hmode
  obtain ⟨⟨css, typed⟩, y, hflavors, hrest⟩ := exec_bind_eq_ok.mp h
  refine (compiled_writeFlavors hR hwrite hapart hflavors flavor hflavor mode hmode).exec ?_ hrest
  have hplain := (hapart.plain flavor hflavor).modes mode hmode
  cases typed with
  | some tokens =>
      refine Reworking.chain.bind (within_writeTyped Reworking.chain c layer ?_ tokens)
        fun _ => Reworking.chain.pure _
      exact fun name => reworking_beside fun v => target_typed_ne _ _ name hplain
  | none =>
      dsimp only
      split
      · exact Reworking.chain.bind (Reworking.chain.reports _) fun _ => Reworking.chain.pure _
      · exact Reworking.chain.pure _

end Emitting

/-- A build of a layer from `x` to `after` emits a mode with an activation: the mode's stylesheet is
that of the tokens which its file had in the course of the build. -/
def Emits (c : BuildContext) (layer : Layer) (flavor : Flavor) (mode : String × Path)
    (activation : Activation) (x after : Workspace) : Prop :=
  ∃ v d, Reworked (c.Outputs x.place layer.name) (endsInJson ·) x.stamp x.place v ∧
    v.dictionary (layer.dependencies ++ [flavor.baseFile]) [mode.2] = .ok d ∧
    after.place.readText (modeSheet ((c.cssDir layer.name).join flavor.name) mode.1) =
      .ok (Generated.contents c.stamp (c.stylesheet.flavorText flavor.name activation d.sources))

/-- A build that succeeds emits every mode as the registry resolves its name. -/
theorem emits_buildLayer (hlayer : ProperName layer.name) {variants : List Flavor}
    (hvariants : layer.sources = .flavors variants) (hapart : SheetsApart variants) {x : Workspace}
    (hsuccess : ((c.buildLayer layer).run x).1.success = true) :
    ∀ flavor ∈ variants, ∀ mode ∈ flavor.modeFiles,
      c.Emits layer flavor mode (c.modes.resolve (some mode.1)) x
        ((c.buildLayer layer).run x).2 := by
  intro flavor hflavor mode hmode
  rw [run_buildLayer_eq] at hsuccess ⊢
  rcases hrun : exec (c.buildJob layer) x with ⟨_ | files, after⟩
  · rw [hrun] at hsuccess
    exact absurd hsuccess Bool.false_ne_true
  · dsimp only
    rw [buildJob, writeLayer_eq] at hrun
    obtain ⟨written, done, hwritten, hmeasure⟩ := exec_bind_eq_ok.mp hrun
    obtain ⟨_, y, hcss, hrest⟩ := exec_bind_eq_ok.mp hwritten
    obtain ⟨_, z, hts, houtputs⟩ := exec_bind_eq_ok.mp hrest
    have hempty : ¬ layer.sources.isEmpty := by
      rw [hvariants, LayerSources.isEmpty, List.isEmpty_iff]
      exact List.ne_nil_of_mem hflavor
    rw [writeOutputs, if_neg hempty] at houtputs
    simp only [hvariants] at houtputs
    have hR : Chain (Reworking x.place.current (c.Outputs x.place layer.name) (endsInJson ·)) :=
      Reworking.chain
    have hwrite : ∀ p, Generated.Named p → ∀ stamp body,
        Within (Reworking x.place.current (c.Outputs x.place layer.name) (endsInJson ·))
          (Generated.write p stamp body) :=
      fun p hp stamp body => reworking_generated (fun _ h => h) hp stamp body
    have hxz := hR.trans
      ((reworking_clearDirectory x.place (.inl rfl) hlayer).of_exec hcss)
      ((reworking_clearDirectory x.place (.inr rfl) hlayer).of_exec hts)
    obtain ⟨u, d, modified, hxu, hd, hnode⟩ :=
      ((compiled_writeTheme hR hwrite hapart houtputs flavor hflavor mode hmode).exec
        (within_measure Reworking.chain written) hmeasure).of_earlier hR hxz
    exact ⟨u.place, d, (hxu rfl).2, hd, Place.readText_of_node hnode⟩


end BuildContext

end DesignTokens
