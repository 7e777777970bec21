import DesignTokens.Proofs.Build.Layout
import DesignTokens.Proofs.Layer.Refill

/-!
Where builds of a layer write. Outside of the layer's output directories nothing is removed or
replaced; only a category with a slash in its name makes a typed module that may lie elsewhere.
-/

namespace DesignTokens

open FileTree Job

namespace BuildContext

/-- A token in a layer's own files has this category. -/
def HasCategory (w : Place) (layer : Layer) (category : String) : Prop :=
  ∃ p ∈ sourceReads layer, ∃ content modified,
    w.tree.lookup (w.target p) = some (.file content modified) ∧
      ∃ leaf ∈ tokensIn content, leaf.1.headD "" = category

/-- The typed module of a category that cannot be a file name. -/
def Stray (c : BuildContext) (w : Place) (layer : Layer) (p : Path) : Prop :=
  c.typedModules = true ∧ ∃ category, HasCategory w layer category ∧ '/' ∈ category.toList ∧
    p = (c.tsDir layer.name).join (category ++ ".ts")

/-- What may have become of a node outside of the outputs of a layer. -/
inductive Strayed (c : BuildContext) (v : Place) (layer : Layer) (l : Location) :
    Option Node → Prop
  | same : Strayed c v layer l (v.tree.lookup l)
  | opened (hnone : v.tree.lookup l = none)
      (hway : l ∈ c.spine v ∨ ∃ p, c.Stray v layer p ∧ l ∈ v.wayTo p) :
      Strayed c v layer l (some .directory)
  | written {p : Path} (hp : c.Stray v layer p) (hl : l = v.target p)
      (hfree : v.tree.lookup l ≠ some .directory) (content : ByteArray) (time : Nat) :
      Strayed c v layer l (some (.file content time))

/-- The files `w` come from the files `v` by a build of a layer. -/
structure Confined (c : BuildContext) (layer : Layer) (v w : Place) : Prop where
  current : w.current = v.current
  outside : ∀ l, ¬ c.Outputs v layer.name l → c.Strayed v layer l (w.tree.lookup l)

variable {c : BuildContext} {layer : Layer} {u v w : Place}

theorem Confined.refl (w : Place) : c.Confined layer w w :=
  ⟨rfl, fun _ _ => .same⟩

/-- Changes among the outputs do not matter. -/
theorem Confined.framed (h : c.Confined layer v w) (hframed : c.Framed layer.name w u) :
    c.Confined layer v u := by
  refine ⟨hframed.current.trans h.current, ?_⟩
  intro l hl
  have hbefore := h.outside l hl
  rcases hframed.outside l (outputs_congr h.current ▸ hl) with hsame | ⟨hspine, hnone, hdir⟩
  · rwa [hsame]
  · rw [hnone] at hbefore
    rw [hdir]
    rw [spine_congr h.current] at hspine
    generalize hn : (none : Option Node) = n at hbefore
    cases hbefore with
    | same => exact .opened hn.symm (.inl hspine)
    | opened => cases hn
    | written => cases hn

/-- Without strays a build changes nothing outside of the outputs. -/
theorem Confined.framed_of_no_stray (h : c.Confined layer v w) (hstray : ∀ p, ¬ c.Stray v layer p) :
    c.Framed layer.name v w := by
  refine ⟨h.current, ?_⟩
  intro l hl
  have hafter := h.outside l hl
  generalize w.tree.lookup l = n at hafter ⊢
  cases hafter with
  | same => exact .inl rfl
  | opened hnone hway =>
      refine .inr ⟨hway.resolve_right ?_, hnone, rfl⟩
      rintro ⟨p, hp, -⟩
      exact hstray p hp
  | written hp => exact absurd hp (hstray _)

/-- Writing a stray makes directories on the way to it, and the file. -/
theorem Confined.stray (h : c.Confined layer v w) {p : Path} (hp : c.Stray v layer p)
    {t : FileTree} (hopened : Opened w.tree t)
    (hway : ∀ l, l ∉ w.wayTo p → t.lookup l = w.tree.lookup l) :
    c.Confined layer v ⟨t, w.current⟩ := by
  refine ⟨h.current, ?_⟩
  intro l hl
  have hbefore := h.outside l hl
  change c.Strayed v layer l (t.lookup l)
  rcases hopened.lookup l with hsame | ⟨hnone, hdir⟩
  · rwa [hsame]
  · have hmem : l ∈ v.wayTo p := by
      rw [← Place.wayTo_congr h.current]
      by_contra hout
      have heq := hway l hout
      rw [hnone, hdir] at heq
      cases heq
    rw [hnone] at hbefore
    rw [hdir]
    generalize hn : (none : Option Node) = n at hbefore
    cases hbefore with
    | same => exact .opened hn.symm (.inr ⟨p, hp, hmem⟩)
    | opened => cases hn
    | written => cases hn

theorem Confined.write (h : c.Confined layer v w) {p : Path} (hp : c.Stray v layer p)
    {content : ByteArray} {time : Nat} {tree : FileTree}
    (hwrite : w.write p content time = .ok tree) :
    c.Confined layer v ⟨tree, w.current⟩ := by
  obtain ⟨-, -, -, -, -, hfree, rfl⟩ := Place.exists_of_write hwrite
  refine ⟨h.current, ?_⟩
  intro l hl
  have hbefore := h.outside l hl
  have hne : w.target p ≠ [] := by
    rintro hnil
    exact hfree (hnil ▸ lookup_nil)
  change c.Strayed v layer l ((w.tree.set (w.target p) (.file content time)).lookup l)
  rw [lookup_set hne]
  split
  · rename_i heq
    rw [heq] at hbefore ⊢
    refine .written hp (Place.target_congr h.current p) ?_ content time
    generalize w.tree.lookup (w.target p) = n at hbefore hfree
    cases hbefore with
    | same => exact hfree
    | opened => exact absurd rfl hfree
    | written _ _ hfree' => exact hfree'
  · exact hbefore

theorem Written.named {T : String → Prop} {p : Path} (hp : Written c layer T p) :
    Generated.Named p := by
  cases hp with
  | tokens => exact Generated.named_css _ "tokens"
  | base => exact Generated.named_css _ "flavor"
  | mode => exact Generated.named_css _ _
  | module => exact Generated.named_ts _ _
  | index => exact Generated.named_ts _ "index"

/-- A build writes among the outputs, or a stray. -/
theorem Written.outputPath_or_stray (hlayer : PlainLayer layer) {p : Path}
    (hp : Written c layer (HasCategory v layer) p) : c.OutputPath layer.name p ∨ c.Stray v layer p := by
  have hplain : ∀ {q}, Written c layer (fun category => '/' ∉ category.toList) q →
      c.OutputPath layer.name q := fun hq => hq.outputPath hlayer fun _ => id
  cases hp with
  | tokens => exact .inl (hplain .tokens)
  | base hvariants hflavor => exact .inl (hplain (.base hvariants hflavor))
  | mode hvariants hflavor hmode => exact .inl (hplain (.mode hvariants hflavor hmode))
  | index htyped => exact .inl (hplain (.index htyped))
  | @module category htyped hcategory =>
      by_cases hslash : '/' ∈ category.toList
      · exact .inr ⟨htyped, category, hcategory, hslash, rfl⟩
      · exact .inl (hplain (.module htyped hslash))

theorem confined_writeText {ε : Type} (refuseDirectory : Path → FileError → ε)
    (refuseFile : FileError → ε) {p : Path}
    (hp : c.OutputPath layer.name p ∨ c.Stray v layer p) (text : String) {x : Workspace}
    (h : c.Confined layer v x.place) :
    c.Confined layer v (exec (writeText refuseDirectory refuseFile p text) x).2.place := by
  rcases hp with hp | hp
  · exact h.framed (framed_writeText refuseDirectory refuseFile hp text x)
  · obtain ⟨t, hopened, hway, hrest⟩ := exec_writeText refuseDirectory refuseFile p text x
    have hconfined := h.stray hp hopened hway
    rcases hrest with ⟨tree, htree, hrun⟩ | ⟨e, -, hrun⟩
    · rw [hrun]
      exact hconfined.write hp htree
    · rw [hrun]
      exact hconfined

/-- Clearing changes nothing outside of the outputs. -/
theorem framed_clearDirectory {layer kind : String} (hkind : kind = "css" ∨ kind = "ts")
    (hlayer : ProperName layer) :
    Within (fun x y : Workspace => c.Framed layer x.place y.place)
      (clearDirectory ((c.outputDir.join kind).join layer)) := by
  have hchain : Chain fun x y : Workspace => c.Framed layer x.place y.place :=
    ⟨fun x => .refl layer x.place, .trans, fun x _ => .refl layer x.place⟩
  refine within_clearDirectory hchain _ ?_
  intro x hexists
  obtain ⟨hway, -⟩ := (Place.pathExists_join_iff _ hlayer).mp hexists
  have hup : x.place.target (c.outputDir.join kind) ++ [layer] =
      x.place.target c.outputDir ++ [kind, layer] := by
    rw [← Place.target_join _ hlayer, c.target_join_join x.place (proper_kind hkind) hlayer]
  rw [Place.removeDirectory_join _ hlayer hway, hup]
  rcases x.place.tree.lookup (x.place.target c.outputDir ++ [kind, layer]) with _ | ⟨_ | _⟩
  · exact .refl layer x.place
  · exact Framed.prune hkind
  · exact .refl layer x.place

/-- A build of a layer on its way from the workspace `x₀`. -/
structure Underway (c : BuildContext) (layer : Layer) (x₀ x : Workspace) : Prop where
  stamp : x.stamp = x₀.stamp
  reworked : Reworked (c.Outputs x₀.place layer.name) (endsInJson ·) x₀.stamp x₀.place x.place
  confined : c.Confined layer x₀.place x.place

variable {x₀ x : Workspace}

theorem Underway.step (h : c.Underway layer x₀ x) {y : Workspace}
    (hreworking : Reworking x₀.place.current (c.Outputs x₀.place layer.name) (endsInJson ·) x y)
    (hconfined : c.Confined layer x₀.place y.place) : c.Underway layer x₀ y := by
  obtain ⟨hstamp, hreworked⟩ := hreworking h.reworked.current
  exact ⟨hstamp.trans h.stamp, h.reworked.trans (h.stamp ▸ hreworked), hconfined⟩

/-- The categories of the tokens that a build exports are those in the layer's files before it. -/
theorem Underway.category (h : c.Underway layer x₀ x)
    (hjson : ∀ p ∈ sourceReads layer, endsInJson (x₀.place.target p))
    {dependencies sources : List Path} (hsources : sources ⊆ sourceReads layer) {d : Dictionary}
    (hd : x.place.dictionary dependencies sources = .ok d) :
    ∀ t ∈ d.sources, HasCategory x₀.place layer t.category := by
  refine RawTokens.paths_of_sources
    (P := fun path => HasCategory x₀.place layer (path.headD "")) hd ?_
  intro p hp text found htext hfound leaf hleaf
  obtain ⟨content, modified, hlookup, hcontent⟩ := Place.exists_of_readText htext
  rw [Place.target_congr h.reworked.current] at hlookup
  refine ⟨p, hsources hp, content, modified,
    h.reworked.lookup_of_file (hjson p (hsources hp)) hlookup, leaf, ?_, rfl⟩
  rwa [tokensIn_eq hcontent hfound]

/-- Every step of a build stays among the outputs and the strays. -/
theorem tracks_underway (hlayer : PlainLayer layer)
    (hjson : ∀ p ∈ sourceReads layer, endsInJson (x₀.place.target p)) :
    Tracks id (fun x y => x = y ∧ c.Underway layer x₀ x) c layer
      (HasCategory x₀.place layer) where
  report notices := by
    rintro x _ ⟨rfl, h⟩
    exact ⟨rfl, fun _ _ => trivial, rfl, h.stamp, h.reworked, h.confined⟩
  resolve {dependencies sources} _ hsources := by
    rintro x _ ⟨rfl, h⟩
    rw [exec_resolveFiles]
    exact ⟨rfl, fun d hd => h.category hjson hsources hd, rfl, h⟩
  write {p} hp stamp body := by
    rintro x _ ⟨rfl, h⟩
    refine ⟨rfl, fun _ _ => trivial, rfl, ?_⟩
    have hnamed : Generated.Named p := hp.named
    have hrun : (exec (Generated.write p stamp body) x).2 = (exec (writeText TokenError.file
        (.file p) p (Generated.contents stamp body)) x).2 := by
      rw [Generated.write, exec_bind]
      rcases exec (writeText TokenError.file (.file p) p (Generated.contents stamp body)) x
        with ⟨_ | _, _⟩ <;> rfl
    refine h.step (reworking_generated (fun _ hspared => hspared) hnamed stamp body x) ?_
    rw [hrun]
    exact confined_writeText _ _ (hp.outputPath_or_stray hlayer) _ h.confined
  node _ := by
    rintro x _ ⟨rfl, -⟩
    rfl

/-- What a build of a layer changes, whether it succeeds or fails. -/
theorem confined_buildLayer (hlayer : PlainLayer layer) (x : Workspace)
    (hjson : ∀ p ∈ sourceReads layer, endsInJson (x.place.target p)) :
    c.Confined layer x.place ((c.buildLayer layer).run x).2.place := by
  have hclear : ∀ kind, kind = "css" ∨ kind = "ts" →
      Lockstep id (fun y z => y = z ∧ c.Underway layer x y) (fun _ => True)
        (clearDirectory ((c.outputDir.join kind).join layer.name)) := by
    rintro kind hkind y _ ⟨rfl, h⟩
    refine ⟨rfl, fun _ _ => trivial, rfl, h.step ?_ ?_⟩
    · rw [← outputs_congr h.reworked.current, ← h.reworked.current]
      exact reworking_clearDirectory y.place hkind hlayer.name y
    · exact h.confined.framed (framed_clearDirectory hkind hlayer.name y)
  have hjob : Lockstep id (fun y z => y = z ∧ c.Underway layer x y) (fun _ => True)
      (c.buildJob layer) := by
    refine (tracks_underway hlayer hjson).buildJob ?_
    rw [List.forall_mem_cons, List.forall_mem_singleton]
    exact ⟨hclear "css" (.inl rfl), hclear "ts" (.inr rfl)⟩
  obtain ⟨-, -, -, hend⟩ := hjob x x ⟨rfl, rfl, .refl _, .refl _⟩
  rw [run_buildLayer_eq]
  rcases hrun : exec (c.buildJob layer) x with ⟨_ | files, after⟩
  · rw [hrun] at hend
    exact hend.confined
  · rw [hrun] at hend
    exact hend.confined

/-- A build of any layer that was found, from whatever files on and whether it succeeds or fails,
removes and replaces nothing outside of the layer's two output directories and makes only directories
on the way to these; the exceptions are the modules of categories with a slash. -/
theorem buildLayer_confined {w : Place} {tokens : Path} {flavor : String} {layers : List Layer}
    (hwf : w.tree.WellFormed) (hlayers : Layer.discover w tokens flavor = .ok layers)
    (hlayer : layer ∈ layers) (c : BuildContext) (x : Workspace) :
    c.Confined layer x.place ((c.buildLayer layer).run x).2.place ∧
      ((∀ p, ¬ c.Stray x.place layer p) →
        c.Framed layer.name x.place ((c.buildLayer layer).run x).2.place) := by
  obtain ⟨kind, rfl⟩ := exists_ofKind_of_mem hlayers hlayer
  have hconfined : c.Confined (Layer.ofKind w tokens flavor kind) x.place
      ((c.buildLayer (Layer.ofKind w tokens flavor kind)).run x).2.place :=
    confined_buildLayer (Layer.plainLayer_ofKind hwf) x
      fun p hp => Layer.endsInJson_of_mem_sourceReads hwf hp x.place
  exact ⟨hconfined, hconfined.framed_of_no_stray⟩

/-- A project whose only category leads to a file beside the layer's modules. -/
def strayWorkspace : Workspace :=
  let text := "\x7b\"../x\": \x7b\"a\": \x7b\"value\": 1\x7d\x7d\x7d"
  ⟨⟨⟨[(["tokens"], .directory), (["tokens", "ingredients"], .directory),
      (["tokens", "ingredients", "a.json"], .file text.toUTF8 0), (["dist"], .directory),
      (["dist", "ts"], .directory), (["dist", "ts", "x.ts"], .file "mine".toUTF8 0)]⟩, []⟩, 1, 0, []⟩

def strayContext : BuildContext :=
  ⟨⟨"dist"⟩, "a", Selectors.standard, ModeRegistry.builtin, true, "stamp"⟩

def strayLayer : Layer :=
  Layer.ofKind strayWorkspace.place ⟨"tokens"⟩ "original" .primitives

theorem discover_stray :
    Layer.discover strayWorkspace.place ⟨"tokens"⟩ "original" =
      .ok (Layer.discoverIn strayWorkspace.place ⟨"tokens"⟩ "original") := by
  rw [Layer.discover, if_pos (by decide +kernel)]

theorem buildLayer_confined_stray :
    strayContext.Confined strayLayer strayWorkspace.place
      ((strayContext.buildLayer strayLayer).run strayWorkspace).2.place :=
  (buildLayer_confined (by decide +kernel) discover_stray List.mem_cons_self strayContext
    strayWorkspace).1

/-- A file that is no output of the layer is written over: its time is that of the build. -/
theorem buildLayer_replaces_stray :
    ¬ strayContext.Outputs strayWorkspace.place strayLayer.name ["dist", "ts", "x.ts"] ∧
      strayWorkspace.place.tree.lookup ["dist", "ts", "x.ts"] = some (.file "mine".toUTF8 0) ∧
      ((strayContext.buildLayer strayLayer).run strayWorkspace).2.place.tree.modifiedAt
        ["dist", "ts", "x.ts"] = some 1 := by
  have htarget : strayWorkspace.place.target strayContext.outputDir = ["dist"] := by
    decide +kernel
  refine ⟨?_, ?_, ?_⟩
  · rintro ⟨kind, -, hin⟩
    have hname : strayLayer.name = "ingredients" := rfl
    rw [htarget, hname, List.cons_append, List.nil_append, List.cons_prefix_cons,
      List.cons_prefix_cons, List.cons_prefix_cons] at hin
    exact absurd hin.2.2.1 (by decide)
  · decide +kernel
  · decide +kernel

end BuildContext

end DesignTokens
