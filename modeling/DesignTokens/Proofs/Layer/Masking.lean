import DesignTokens.Proofs.Layer.Determinism
import DesignTokens.Proofs.Token.Masking
import DesignTokens.Proofs.Workspace.Variation

/-!
Two builds of a layer on dependencies with other values. What a build of a layer other than the
primitives writes does not depend on the values in the files that the layer depends on, as long as
they declare the same tokens.
-/

namespace DesignTokens

open FileTree Job

/-- The paths of the tokens that a file declares, in document order. -/
def declaredPaths (content : ByteArray) : Option (List (List String)) :=
  (String.fromUTF8? content).bind declaredIn

/-- Files that vary declare the same paths. -/
def Variation.KeepsPaths (D : Variation) : Prop :=
  ∀ l a b, D l a b → declaredPaths a = declaredPaths b

/-- A file does not vary. -/
def Variation.Spares (D : Variation) (start : Place) (p : Path) : Prop :=
  ∀ a b, ¬ D (start.target p) a b

section Writers

variable {start : Place} {D : Variation} {done : List Location} {tokens tokens' : List Token}

theorem Place.Varied.masked {w v : Place} (h : Place.Varied start D done w v) (hD : D.KeepsPaths)
    {dependencies sources : List Path} (hsources : ∀ p ∈ sources, D.Spares start p) :
    Place.Masked dependencies sources w v := by
  constructor
  · intro p _ text text' hw hv
    rcases h.readText_cases hw hv with rfl | ⟨a, b, hab, ha, hb⟩
    · rfl
    · have hpaths := hD _ a b hab
      rwa [declaredPaths, declaredPaths, ha, hb, Option.bind_some, Option.bind_some] at hpaths
  · intro p hp text text' hw hv
    rcases h.readText_cases hw hv with heq | ⟨a, b, hab, -, -⟩
    · exact heq
    · exact absurd hab (hsources p hp a b)

theorem coupled_resolveFiles (hD : D.KeepsPaths) (dependencies : List Path) {sources : List Path}
    (hsources : ∀ p ∈ sources, D.Spares start p) :
    Coupled start D done (fun d d' _ => d.sources.map Token.shown = d'.sources.map Token.shown)
      (resolveFiles dependencies sources) (resolveFiles dependencies sources) := by
  refine .look (f := (·.dictionary dependencies sources)) (g := (·.dictionary dependencies sources))
    (exec_resolveFiles dependencies sources) (exec_resolveFiles dependencies sources) ?_
  intro w v d d' hvaried hw hv
  exact (hvaried.masked hD hsources).shown_sources hw hv

/-- Both runs wrote the same file. -/
def SameFile (start : Place) (p q : Path) (done : List Location) : Prop :=
  p = q ∧ start.target p ∈ done

/-- Both runs wrote the same files. -/
def SameFiles (start : Place) (ps qs : List Path) (done : List Location) : Prop :=
  ps = qs ∧ ∀ p ∈ ps, start.target p ∈ done

theorem SameFiles.nil : SameFiles start [] [] done :=
  ⟨rfl, fun _ h => absurd h List.not_mem_nil⟩

theorem SameFiles.cons {p q : Path} {ps qs : List Path} {more : List Location}
    (h : SameFile start p q done) (hmore : done ⊆ more) (hrest : SameFiles start ps qs more) :
    SameFiles start (p :: ps) (q :: qs) more := by
  obtain ⟨rfl, hp⟩ := h
  obtain ⟨rfl, hps⟩ := hrest
  exact ⟨rfl, List.forall_mem_cons.mpr ⟨hmore hp, hps⟩⟩

theorem SameFiles.append {ps qs ps' qs' : List Path} {more : List Location}
    (h : SameFiles start ps qs done) (hmore : done ⊆ more) (hrest : SameFiles start ps' qs' more) :
    SameFiles start (ps ++ ps') (qs ++ qs') more := by
  obtain ⟨rfl, hps⟩ := h
  obtain ⟨rfl, hps'⟩ := hrest
  exact ⟨rfl, List.forall_mem_append.mpr ⟨fun p hp => hmore (hps p hp), hps'⟩⟩

theorem coupled_generated (p : Path) (stamp : String) {body body' : String} (h : body = body') :
    Coupled start D done (SameFile start) (Generated.write p stamp body)
      (Generated.write p stamp body') := by
  subst h
  exact .bind (.writeText _ _ _ _) fun _ _ _ _ hp => .pure ⟨rfl, hp⟩

theorem coupled_writeModules (dir : Path) {leaf : Token → Json.Value} (stamp : String)
    (h : ∀ name, TypedModule.moduleText tokens leaf name = TypedModule.moduleText tokens' leaf name)
    (names : List ModuleName) :
    Coupled start D done (SameFiles start) (TypedModule.writeModules dir tokens leaf stamp names)
      (TypedModule.writeModules dir tokens' leaf stamp names) := by
  induction names generalizing done with
  | nil => exact .pure .nil
  | cons name rest ih =>
      refine .bind (.report _ _) fun _ _ _ _ _ =>
        .bind (coupled_generated _ stamp (h name)) fun p q more _ hp => ?_
      exact .bind ih fun ps qs last hlast hps => .pure (.cons hp hlast hps)

/-- Typed modules of property names are written about what is shown of the tokens. -/
theorem coupled_writeTypedModules (h : tokens.map Token.shown = tokens'.map Token.shown) (dir : Path)
    (stem stamp : String) :
    Coupled start D done (SameFiles start)
      (TypedModule.write dir tokens .propertyName stem stamp)
      (TypedModule.write dir tokens' .propertyName stem stamp) := by
  have htexts : ∀ name,
      TypedModule.moduleText tokens (LeafStyle.propertyName.leaf stem) name =
        TypedModule.moduleText tokens' (LeafStyle.propertyName.leaf stem) name := by
    intro name
    refine eq_of_shown_eq (f := fun ts => TypedModule.moduleText ts _ name) (fun ts => ?_) h
    have hleaf : ∀ t : Token, LeafStyle.propertyName.leaf stem t.shown =
        LeafStyle.propertyName.leaf stem t := by
      intro t
      rw [LeafStyle.leaf, LeafStyle.leaf, Token.shown_path]
    rw [TypedModule.moduleText, TypedModule.moduleText,
      build_map (fun _ => Token.shown_path) hleaf]
  have hcategories : TypedModule.sortedCategories tokens = TypedModule.sortedCategories tokens' := by
    refine eq_of_shown_eq (fun ts => ?_) h
    rw [TypedModule.sortedCategories, TypedModule.sortedCategories,
      categoriesOf_map fun _ => Token.shown_category]
  rw [TypedModule.write, TypedModule.write, hcategories]
  refine .bind (.report _ _) fun _ _ _ _ _ =>
    .bind (coupled_writeModules dir stamp htexts _) fun ps qs more hmore hps => ?_
  split
  · exact .pure hps
  · refine .bind (coupled_generated _ stamp rfl) fun p q last hlast hp => .pure ?_
    exact hps.append hlast (.cons hp (List.Subset.refl _) .nil)

end Writers

namespace BuildContext

variable {c : BuildContext} {layer : Layer} {start : Place} {D : Variation} {done : List Location}
  {tokens tokens' : List Token}

theorem coupled_writeTyped (hkind : layer.kind ≠ .primitives)
    (h : tokens.map Token.shown = tokens'.map Token.shown) :
    Coupled start D done (SameFiles start) (c.writeTyped layer tokens)
      (c.writeTyped layer tokens') := by
  have hstyle : layer.kind.leafStyle = .propertyName := by
    cases hcase : layer.kind with
    | primitives => exact absurd hcase hkind
    | theme | composite => rfl
  rw [writeTyped, writeTyped, hstyle]
  split
  · exact coupled_writeTypedModules h _ _ _
  · exact .pure .nil

theorem coupled_writeSingle (hkind : layer.kind ≠ .primitives) (hD : D.KeepsPaths)
    {paths : List Path} (hpaths : ∀ p ∈ paths, D.Spares start p) :
    Coupled start D done (SameFiles start) (c.writeSingle layer paths)
      (c.writeSingle layer paths) := by
  refine .bind (coupled_resolveFiles hD layer.dependencies hpaths) fun d d' _ _ hshown =>
    .bind (.report _ _) fun _ _ _ _ _ => .bind (coupled_generated _ c.stamp ?_)
      fun p q _ _ hp => .bind (coupled_writeTyped hkind hshown)
        fun ps qs last hlast hps => .pure (.cons hp hlast hps)
  exact eq_of_shown_eq c.stylesheet.rootText_shown hshown

theorem coupled_writeFlavorFile (h : tokens.map Token.shown = tokens'.map Token.shown) (p : Path)
    (flavor : String) (activation : Activation) :
    Coupled start D done (SameFile start) (c.writeFlavorFile p flavor activation tokens)
      (c.writeFlavorFile p flavor activation tokens') :=
  .bind (.report _ _) fun _ _ _ _ _ =>
    coupled_generated _ c.stamp (eq_of_shown_eq (c.stylesheet.flavorText_shown flavor activation) h)

theorem coupled_writeModes (hD : D.KeepsPaths) (dependencies : List Path) (flavor : String)
    (dir : Path) {modes : List (String × Path)} (hmodes : ∀ mode ∈ modes, D.Spares start mode.2) :
    Coupled start D done (SameFiles start) (c.writeModes dependencies flavor dir modes)
      (c.writeModes dependencies flavor dir modes) := by
  induction modes generalizing done with
  | nil => exact .pure .nil
  | cons mode rest ih =>
      obtain ⟨hmode, hrest⟩ := List.forall_mem_cons.mp hmodes
      refine .bind (.report _ _) fun _ _ _ _ _ =>
        .bind (coupled_resolveFiles hD dependencies (List.forall_mem_singleton.mpr hmode))
          fun d d' _ _ hshown => .bind (coupled_writeFlavorFile hshown _ _ _) fun p q _ _ hp => ?_
      exact .bind (ih hrest) fun ps qs last hlast hps => .pure (.cons hp hlast hps)

/-- The tokens for the typed modules, if there are any, are shown alike. -/
def SameTyped (typed typed' : Option (List Token)) : Prop :=
  typed.map (·.map Token.shown) = typed'.map (·.map Token.shown)

theorem coupled_writeFlavors (hD : D.KeepsPaths) {typed typed' : Option (List Token)}
    (htyped : SameTyped typed typed') {variants : List Flavor}
    (hvariants : ∀ p ∈ variants.flatMap flavorReads, D.Spares start p) :
    Coupled start D done
      (fun result result' more => SameFiles start result.1 result'.1 more ∧
        SameTyped result.2 result'.2)
      (c.writeFlavors layer typed variants) (c.writeFlavors layer typed' variants) := by
  induction variants generalizing done typed typed' with
  | nil => exact .pure ⟨.nil, htyped⟩
  | cons flavor rest ih =>
      rw [List.flatMap_cons, List.forall_mem_append, flavorReads, List.forall_mem_cons,
        List.forall_mem_map] at hvariants
      obtain ⟨⟨hbase, hmodes⟩, hrest⟩ := hvariants
      refine .bind (coupled_resolveFiles hD layer.dependencies (List.forall_mem_singleton.mpr hbase))
        fun d d' _ _ hshown => .bind (coupled_writeFlavorFile hshown _ _ _) fun p q _ _ hp => ?_
      refine .bind (coupled_writeModes hD _ flavor.name _ hmodes) fun ps qs more hmore hps =>
        .bind (ih ?_ hrest) fun result result' last hlast hresult => .pure ⟨?_, hresult.2⟩
      · split
        · exact congrArg some hshown
        · exact htyped
      · exact (SameFiles.cons hp hmore hps).append hlast hresult.1

theorem coupled_writeTheme (hkind : layer.kind ≠ .primitives) (hD : D.KeepsPaths)
    {variants : List Flavor} (hvariants : ∀ p ∈ variants.flatMap flavorReads, D.Spares start p) :
    Coupled start D done (SameFiles start) (c.writeTheme layer variants)
      (c.writeTheme layer variants) := by
  refine .bind (coupled_writeFlavors hD rfl hvariants) ?_
  rintro ⟨ps, typed⟩ ⟨qs, typed'⟩ more - ⟨hps, htyped⟩
  cases typed with
  | none =>
      obtain rfl := Option.map_eq_none_iff.mp htyped.symm
      dsimp only
      split
      · exact .bind (.report _ _) fun _ _ last hlast _ => .pure ⟨hps.1, fun p hp => hlast (hps.2 p hp)⟩
      · exact .pure hps
  | some tokens =>
      obtain ⟨tokens', rfl, hshown⟩ := Option.map_eq_some_iff.mp htyped.symm
      exact .bind (coupled_writeTyped hkind hshown.symm) fun ps' qs' last hlast hps' =>
        .pure (hps.append hlast hps')

theorem coupled_writeOutputs (hkind : layer.kind ≠ .primitives) (hD : D.KeepsPaths)
    (hsources : ∀ p ∈ sourceReads layer, D.Spares start p) :
    Coupled start D done (SameFiles start) (c.writeOutputs layer) (c.writeOutputs layer) := by
  rw [writeOutputs]
  split
  · exact .bind (.report _ _) fun _ _ _ _ _ => .pure .nil
  · rw [sourceReads] at hsources
    cases hcase : layer.sources with
    | files paths =>
        simp only [hcase] at hsources
        exact coupled_writeSingle hkind hD hsources
    | flavors variants =>
        simp only [hcase] at hsources
        exact coupled_writeTheme hkind hD hsources

theorem coupled_clearDirectory (dir : Path) :
    Coupled start D [] (fun _ _ more => more = []) (clearDirectory dir) (clearDirectory dir) := by
  refine .bind (P := fun w v more => more = [] ∧ w.pathExists dir = v.pathExists dir)
    (.look exec_place exec_place ?_) ?_
  · intro w v a b hvaried hw hv
    obtain rfl := Except.ok.inj hw
    obtain rfl := Except.ok.inj hv
    exact ⟨rfl, hvaried.pathExists_eq⟩
  · rintro w v _ - ⟨rfl, hexists⟩
    rw [hexists]
    split
    · exact .steps _ fun w v hvaried => (hvaried.removeDirectory dir).1
    · exact .pure rfl

/-- The same sizes are found for files that were written. -/
theorem coupled_measure {written : List Path} (h : ∀ p ∈ written, start.target p ∈ done) :
    Coupled start D done
      (fun files files' more => files = files' ∧ ∀ file ∈ files, start.target file.path ∈ more)
      (measure written) (measure written) := by
  induction written generalizing done with
  | nil => exact .pure ⟨rfl, fun _ h => absurd h List.not_mem_nil⟩
  | cons p rest ih =>
      obtain ⟨hp, hrest⟩ := List.forall_mem_cons.mp h
      rw [measure_cons]
      refine .bind (P := fun n n' more => done ⊆ more ∧ start.target p ∈ more ∧ n.content? = n'.content?)
        (.look (f := fun w => (w.node p).mapError (.file p))
          (g := fun w => (w.node p).mapError (.file p)) (exec_query _ _) (exec_query _ _) ?_) ?_
      · intro w v n n' hvaried hw hv
        obtain ⟨content, hn, hn'⟩ :=
          hvaried.content_eq hp (mapError_eq_ok.mp hw) (mapError_eq_ok.mp hv)
        exact ⟨List.Subset.refl _, hp, hn.trans hn'.symm⟩
      · rintro n n' more - ⟨hdone, hp, hcontent⟩
        refine .bind (ih fun q hq => hdone (hrest q hq)) ?_
        rintro files _ last hlast ⟨rfl, hfiles⟩
        rw [hcontent]
        exact .pure ⟨rfl, List.forall_mem_cons.mpr ⟨hlast hp, hfiles⟩⟩

theorem coupled_buildJob (hkind : layer.kind ≠ .primitives) (hD : D.KeepsPaths)
    (hsources : ∀ p ∈ sourceReads layer, D.Spares start p) :
    Coupled start D []
      (fun files files' more => files = files' ∧ ∀ file ∈ files, start.target file.path ∈ more)
      (c.buildJob layer) (c.buildJob layer) := by
  rw [buildJob, writeLayer_eq, bind_assoc]
  refine .bind (coupled_clearDirectory _) ?_
  rintro _ _ _ - rfl
  rw [bind_assoc]
  refine .bind (coupled_clearDirectory _) ?_
  rintro _ _ _ - rfl
  refine .bind (coupled_writeOutputs hkind hD hsources) ?_
  rintro written _ more - ⟨rfl, hwritten⟩
  exact coupled_measure hwritten

theorem node_of_buildJob {w after : Workspace} {files : List OutputFile}
    (h : exec (c.buildJob layer) w = (.ok files, after)) :
    ∀ file ∈ files, ∃ n, after.place.node file.path = .ok n := by
  rw [buildJob, exec_bind] at h
  rcases hwrite : exec (c.writeLayer layer) w with ⟨_ | written, between⟩
  · rw [hwrite] at h
    cases h
  · rw [hwrite] at h
    obtain ⟨rfl, -, hfiles⟩ := exec_measure h
    exact fun file hfile => (hfiles file hfile).imp fun _ => And.left

/-- Files that the same build finds before it, but for the contents of files that the layer depends
on and that are not its own; these files declare the same tokens. -/
structure SameTokens (layer : Layer) (w v : Place) : Prop where
  current : w.current = v.current
  sources : ∀ p ∈ sourceReads layer, w.tree.contentAt (w.target p) = v.tree.contentAt (w.target p)
  dependencies : ∀ p ∈ layer.dependencies,
    w.tree.contentAt (w.target p) = v.tree.contentAt (w.target p) ∨
      ∃ a b, declaredPaths a = declaredPaths b ∧ w.tree.contentAt (w.target p) = some (some a) ∧
        v.tree.contentAt (w.target p) = some (some b)
  others : ∀ l, (∀ p ∈ layer.dependencies, w.target p ≠ l) → w.tree.contentAt l = v.tree.contentAt l

/-- Which bytes of dependencies differ. -/
def differing (layer : Layer) (w v : Place) : Variation := fun l a b =>
  (∃ p ∈ layer.dependencies, w.target p = l) ∧ (∀ p ∈ sourceReads layer, w.target p ≠ l) ∧
    declaredPaths a = declaredPaths b ∧ w.tree.contentAt l = some (some a) ∧
    v.tree.contentAt l = some (some b)

theorem SameTokens.varied {w v : Place} (h : SameTokens layer w v) :
    Place.Varied w (differing layer w v) [] w v := by
  refine ⟨rfl, h.current.symm, fun l => ?_, fun _ hl => absurd hl List.not_mem_nil⟩
  by_cases hdependency : ∃ p ∈ layer.dependencies, w.target p = l
  · by_cases hsource : ∃ p ∈ sourceReads layer, w.target p = l
    · obtain ⟨p, hp, rfl⟩ := hsource
      exact .inl (h.sources p hp)
    · obtain ⟨p, hp, rfl⟩ := hdependency
      rcases h.dependencies p hp with heq | ⟨a, b, hpaths, ha, hb⟩
      · exact .inl heq
      · exact .inr ⟨a, b, ⟨⟨p, hp, rfl⟩, fun q hq heq => hsource ⟨q, hq, heq⟩, hpaths, ha, hb⟩, ha, hb⟩
  · exact .inl (h.others l fun p hp heq => hdependency ⟨p, hp, heq⟩)

/-- Builds of a layer other than the primitives, on dependencies that declare the same tokens with
any values: if both succeed, they write the same files with the same contents, and no file differs
after them but dependencies that differed before. -/
theorem buildLayer_masks (c : BuildContext) (hkind : layer.kind ≠ .primitives) {w v : Workspace}
    (h : SameTokens layer w.place v.place) (hw : ((c.buildLayer layer).run w).1.success)
    (hv : ((c.buildLayer layer).run v).1.success) :
    ((c.buildLayer layer).run w).1 = ((c.buildLayer layer).run v).1 ∧
      (∀ file ∈ ((c.buildLayer layer).run w).1.files, ∃ content,
        ((c.buildLayer layer).run w).2.place.read file.path = .ok content ∧
          ((c.buildLayer layer).run v).2.place.read file.path = .ok content) ∧
      ∀ l, ((c.buildLayer layer).run w).2.place.tree.contentAt l =
          ((c.buildLayer layer).run v).2.place.tree.contentAt l ∨
        ∃ a b, differing layer w.place v.place l a b ∧
          ((c.buildLayer layer).run w).2.place.tree.contentAt l = some (some a) ∧
          ((c.buildLayer layer).run v).2.place.tree.contentAt l = some (some b) := by
  obtain ⟨files, after, hjob, hrun⟩ := run_of_success hw
  obtain ⟨files', after', hjob', hrun'⟩ := run_of_success hv
  have hpaths : (differing layer w.place v.place).KeepsPaths := fun _ _ _ hdiffer => hdiffer.2.2.1
  have hspared : ∀ p ∈ sourceReads layer, (differing layer w.place v.place).Spares w.place p :=
    fun p hp _ _ hdiffer => hdiffer.2.1 p hp rfl
  obtain ⟨done, -, ⟨rfl, hdone⟩, hvaried⟩ :=
    coupled_buildJob hkind hpaths hspared w v files files' after after' h.varied hjob hjob'
  rw [hrun, hrun']
  refine ⟨rfl, fun file hfile => ?_, hvaried.tree.nodes⟩
  obtain ⟨n, hn⟩ := node_of_buildJob hjob file hfile
  obtain ⟨n', hn'⟩ := node_of_buildJob hjob' file hfile
  obtain ⟨content, hcontent, hcontent'⟩ := hvaried.content_eq (hdone file hfile) hn hn'
  exact ⟨content, Place.read_of_node hn hcontent, Place.read_of_node hn' hcontent'⟩

/-- A layer with one flavor, which depends on one file. -/
def pageLayer : Layer :=
  ⟨"flavors", .theme, ⟨"flavors"⟩, [⟨"ink.json"⟩], .flavors [⟨"original", ⟨"flavor.json"⟩, []⟩]⟩

/-- The files of `pageLayer`, with the value of the token that its flavor refers to in a list. -/
def pageWorkspace (ink : String) : Workspace :=
  let inks := "\x7b\"ink\": \x7b\"value\": " ++ ink ++ "\x7d\x7d"
  let page := "\x7b\"page\": \x7b\"value\": [\"1px\", \"\x7bink.value\x7d\"]\x7d, " ++
    "\"gap\": \x7b\"value\": \"4px\"\x7d\x7d"
  ⟨⟨⟨[(["ink.json"], .file inks.toUTF8 0), (["flavor.json"], .file page.toUTF8 0)]⟩, []⟩, 1, 0, []⟩

def pageContext : BuildContext :=
  ⟨⟨"dist"⟩, "a", Selectors.standard, ModeRegistry.builtin, false, "stamp"⟩

theorem sameTokens_page :
    SameTokens pageLayer (pageWorkspace "\"#000\"").place (pageWorkspace "[1, 2]").place := by
  constructor
  case current => rfl
  case sources => decide +kernel
  case dependencies =>
    intro p hp
    obtain rfl := List.mem_singleton.mp hp
    exact .inr ⟨("\x7b\"ink\": \x7b\"value\": \"#000\"\x7d\x7d").toUTF8,
      ("\x7b\"ink\": \x7b\"value\": [1, 2]\x7d\x7d").toUTF8, by decide +kernel⟩
  case others =>
    intro l hl
    have htarget : (pageWorkspace "\"#000\"").place.target ⟨"ink.json"⟩ = ["ink.json"] := by
      decide +kernel
    have hne : ["ink.json"] ≠ l := htarget ▸ hl ⟨"ink.json"⟩ (List.mem_singleton.mpr rfl)
    cases l with
    | nil => rfl
    | cons name names => simp only [pageWorkspace, contentAt, lookup, Keyed.get?, if_neg hne]

theorem buildLayer_masks_page :
    ((pageContext.buildLayer pageLayer).run (pageWorkspace "\"#000\"")).1 =
        ((pageContext.buildLayer pageLayer).run (pageWorkspace "[1, 2]")).1 ∧
      ((pageContext.buildLayer pageLayer).run (pageWorkspace "[1, 2]")).1.success = true ∧
      (pageWorkspace "\"#000\"").place.tree.contentAt ["ink.json"] ≠
        (pageWorkspace "[1, 2]").place.tree.contentAt ["ink.json"] := by
  have hsuccess : ((pageContext.buildLayer pageLayer).run (pageWorkspace "\"#000\"")).1.success := by
    decide +kernel
  have hsuccess' : ((pageContext.buildLayer pageLayer).run (pageWorkspace "[1, 2]")).1.success := by
    decide +kernel
  have hkind : pageLayer.kind ≠ .primitives := by decide
  exact ⟨(buildLayer_masks pageContext hkind sameTokens_page hsuccess hsuccess').1, hsuccess',
    by decide +kernel⟩

end BuildContext

end DesignTokens
