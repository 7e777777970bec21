import DesignTokens.Proofs.Layer.Sources

/-!
Projects whose token files, outputs and cache file do not get into each other's way, and builds of a
layer in them.
-/

namespace DesignTokens

open FileTree Place

/-- The tokens in the bytes of a file; none if they cannot be read. -/
def tokensIn (content : ByteArray) : List (List String × Json.Value) :=
  match String.fromUTF8? content with
  | none => []
  | some text =>
    match documentTokens ⟨""⟩ text with
    | .ok found => found
    | .error _ => []

/-- The categories of a file's tokens can be file names. -/
def PlainContent (content : ByteArray) : Prop :=
  ∀ leaf ∈ tokensIn content, '/' ∉ (leaf.1.headD "").toList

instance (content : ByteArray) : Decidable (PlainContent content) :=
  inferInstanceAs (Decidable (∀ leaf ∈ tokensIn content, _))

theorem tokensIn_eq {content : ByteArray} {p : Path} {text : String}
    {found : List (List String × Json.Value)} (htext : String.fromUTF8? content = some text)
    (hfound : documentTokens p text = .ok found) : tokensIn content = found := by
  rw [tokensIn, htext]
  simp only [documentTokens] at hfound ⊢
  cases hparse : Json.parse text with
  | error e =>
      rw [hparse] at hfound
      exact absurd hfound nofun
  | ok document =>
      rw [hparse] at hfound
      cases hleaves : leaves document with
      | error e => simp [hleaves] at hfound
      | ok found' => simpa [hleaves] using hfound

namespace BuildContext

variable {c : BuildContext} {tokens : Path} {cache : Option Path} {contents : ByteArray → Prop}

/-- The output directory, the tokens directory and the cache file do not overlap: no way to one of
them enters the output directory or the tokens directory, and the cache file does not lie there. -/
structure Apart (c : BuildContext) (tokens : Path) (cache : Option Path) (w : Place) : Prop where
  outputWay : ∀ l ∈ w.route c.outputDir,
    ¬ Below (w.target c.outputDir) l ∧ ¬ Below (w.target tokens) l
  tokensWay : ∀ l ∈ w.route tokens, ¬ Below (w.target c.outputDir) l ∧ ¬ Below (w.target tokens) l
  different : w.target c.outputDir ≠ w.target tokens
  cacheWay : ∀ p, cache = some p → ∀ l ∈ w.wayTo p,
    ¬ Below (w.target c.outputDir) l ∧ ¬ Below (w.target tokens) l
  cacheFile : ∀ p, cache = some p → ¬ Below (w.target c.outputDir) (w.target p) ∧
    ¬ Below (w.target tokens) (w.target p) ∧ w.target p ∉ w.route c.outputDir

/-- A place in which a project can be built. -/
structure Sound (c : BuildContext) (tokens : Path) (cache : Option Path)
    (contents : ByteArray → Prop) (w : Place) : Prop where
  ready : c.Ready w
  sources : w.TokensAt tokens
  contents : ContentsBelow (w.target tokens) contents w.tree
  apart : c.Apart tokens cache w
  cacheOrigin : ∀ p, cache = some p → w.tree.lookup (w.origin p) = some .directory

/-- A change of files that leaves the sources and all directories outside of the outputs. -/
structure Keeps (c : BuildContext) (tokens : Path) (v w : Place) : Prop where
  current : w.current = v.current
  directories : ∀ l, ¬ Below (v.target c.outputDir) l → v.tree.lookup l = some .directory →
    w.tree.lookup l = some .directory
  sources : ∀ l, Below (v.target tokens) l → w.tree.lookup l = v.tree.lookup l
  files : ∀ l ∈ c.spine v, w.tree.IsFile l ↔ v.tree.IsFile l

variable {u v w : Place} {layer : String}

theorem Apart.congr (h : c.Apart tokens cache w) (hcurrent : v.current = w.current) :
    c.Apart tokens cache v := by
  have hroute : ∀ p, w.route p = v.route p := fun p => route_congr hcurrent.symm p
  have htarget : ∀ p, w.target p = v.target p := fun p => target_congr hcurrent.symm p
  have hway : ∀ p, w.wayTo p = v.wayTo p := fun p => wayTo_congr hcurrent.symm p
  obtain ⟨houtput, htokens, hne, hcacheWay, hcacheFile⟩ := h
  simp only [hroute, htarget, hway] at houtput htokens hne hcacheWay hcacheFile
  exact ⟨houtput, htokens, hne, hcacheWay, hcacheFile⟩

/-- Nothing lies below both directories. -/
theorem Apart.not_below_both (h : c.Apart tokens cache w) {l : Location}
    (houtput : w.target c.outputDir <+: l) (htokens : w.target tokens <+: l) : False := by
  rcases List.prefix_or_prefix_of_prefix houtput htokens with hle | hle
  · exact (h.tokensWay _ (target_mem_route _)).1 ⟨hle, Ne.symm h.different⟩
  · exact (h.outputWay _ (target_mem_route _)).2 ⟨hle, h.different⟩

theorem Keeps.refl (w : Place) : c.Keeps tokens w w :=
  ⟨rfl, fun _ _ h => h, fun _ _ => rfl, fun _ _ => Iff.rfl⟩

theorem Keeps.trans (huv : c.Keeps tokens u v) (hvw : c.Keeps tokens v w) :
    c.Keeps tokens u w := by
  have htarget : ∀ p, v.target p = u.target p := target_congr huv.current
  have hspine : c.spine v = c.spine u := spine_congr huv.current
  obtain ⟨hcurrent, hdirectories, hsources, hfiles⟩ := hvw
  simp only [htarget, hspine] at hdirectories hsources hfiles
  constructor
  · exact hcurrent.trans huv.current
  · intro l hl hdir
    exact hdirectories l hl (huv.directories l hl hdir)
  · intro l hl
    exact (hsources l hl).trans (huv.sources l hl)
  · intro l hl
    exact (hfiles l hl).trans (huv.files l hl)

theorem Sound.keeps (h : c.Sound tokens cache contents v) (hkeeps : c.Keeps tokens v w)
    (hready : c.Ready w) : c.Sound tokens cache contents w := by
  have hroute : ∀ p, w.route p = v.route p := route_congr hkeeps.current
  have htarget : ∀ p, w.target p = v.target p := target_congr hkeeps.current
  have hdirectory : w.isDirectory tokens := by
    obtain ⟨htext, hpassable⟩ := isDirectory_iff.mp h.sources.directory
    rw [isDirectory_iff, hroute]
    refine ⟨htext, ?_⟩
    intro l hl
    exact hkeeps.directories l (h.apart.tokensWay l hl).1 (hpassable l hl)
  refine ⟨hready, ⟨hready.wellFormed, hdirectory, ?_⟩, ?_, h.apart.congr hkeeps.current, ?_⟩
  · intro l hl hjson
    rw [htarget] at hl
    rw [hkeeps.sources l hl]
    exact h.sources.regular l hl hjson
  · intro l content hl hcontent
    rw [htarget] at hl
    rw [jsonAt, hkeeps.sources l hl, ← jsonAt] at hcontent
    exact h.contents l content hl hcontent
  · intro p hp
    have horigin : v.origin p ∈ v.wayTo p := by
      rw [wayTo]
      exact mem_visits_self _ _
    rw [origin_congr hkeeps.current]
    exact hkeeps.directories _ (h.apart.cacheWay p hp _ horigin).1 (h.cacheOrigin p hp)

/-- What a build of a layer changes has nothing to do with the sources. -/
theorem Sound.keeps_of_framed (h : c.Sound tokens cache contents v)
    (hframed : c.Framed layer v w) : c.Keeps tokens v w := by
  have hnot : ∀ l, c.Outputs v layer l → Below (v.target c.outputDir) l := by
    rintro l ⟨kind, -, hin⟩
    exact (Below.append (List.cons_ne_nil _ _)).trans_le hin
  constructor
  · exact hframed.current
  · intro l hl hdir
    rcases hframed.outside l (mt (hnot l) hl) with hsame | ⟨-, hnone, -⟩
    · rw [hsame, hdir]
    · exact absurd (hdir.symm.trans hnone) nofun
  · intro l hl
    have hout : ¬ c.Outputs v layer l := fun hin => h.apart.not_below_both (hnot l hin).1 hl.1
    rcases hframed.outside l hout with hsame | ⟨hspine, -, -⟩
    · exact hsame
    · rcases List.mem_append.mp hspine with hmem | hmem
      · exact absurd hl (h.apart.outputWay l hmem).2
      · rcases List.mem_pair.mp hmem with rfl | rfl
        · exact absurd hl.1 fun hle => h.apart.not_below_both (List.prefix_append _ _) hle
        · exact absurd hl.1 fun hle => h.apart.not_below_both (List.prefix_append _ _) hle
  · intro l hl
    rcases hframed.outside l (h.ready.not_outputs hl) with hsame | ⟨-, hnone, hdir⟩
    · rw [IsFile, IsFile, hsame]
    · simp [IsFile, hnone, hdir]

/-- Two places with the same sources for a layer, in which the outputs can be reached alike. -/
structure Akin (c : BuildContext) (tokens : Path) (kind : LayerKind) (w v : Place) : Prop where
  current : w.current = v.current
  files : ∀ l ∈ c.spine w, w.tree.IsFile l ↔ v.tree.IsFile l
  agree : AgreeUpTo (w.target tokens) kind w.tree v.tree

variable {kind : LayerKind} {flavor : String}

theorem Akin.symm (h : c.Akin tokens kind w v) : c.Akin tokens kind v w := by
  refine ⟨h.current.symm, ?_, ?_⟩
  · intro l hl
    rw [← spine_congr (c := c) h.current] at hl
    exact (h.files l hl).symm
  · rw [← target_congr h.current]
    intro other hrank m hm
    exact (h.agree other hrank m hm).symm

theorem Akin.trans (huv : c.Akin tokens kind u v) (hvw : c.Akin tokens kind v w) :
    c.Akin tokens kind u w := by
  refine ⟨huv.current.trans hvw.current, ?_, ?_⟩
  · intro l hl
    exact (huv.files l hl).trans (hvw.files l (spine_congr (c := c) huv.current ▸ hl))
  · intro other hrank m hm
    exact (huv.agree other hrank m hm).trans
      (hvw.agree other hrank m (target_congr huv.current tokens ▸ hm))

theorem Keeps.akin (h : c.Keeps tokens v w) (kind : LayerKind) : c.Akin tokens kind v w :=
  ⟨h.current.symm, fun l hl => (h.files l hl).symm,
    AgreeUpTo.of_below (fun l hl => (h.sources l hl).symm) kind⟩

theorem Sound.readable (hplain : ∀ content, contents content → PlainContent content)
    (hw : c.Sound tokens cache contents w) (hv : c.Sound tokens cache contents v)
    (hakin : c.Akin tokens kind w v) :
    c.Readable layer w v (layerReads (Layer.ofKind w tokens flavor kind)) := by
  intro p hp w' v' htwin
  obtain ⟨other, names, hrank, hne, rfl, hsome⟩ := Layer.mem_layerReads_ofKind hw.sources hp
  obtain ⟨content, hcontent⟩ := Option.isSome_iff_exists.mp hsome
  have hbelow : Below (w.target tokens) (w.target tokens ++ [other.dirName] ++ names) := by
    rw [List.append_assoc]
    exact Below.append (List.cons_ne_nil _ _)
  have hkeeps := hw.keeps_of_framed htwin.framed
  have hkeeps' := hv.keeps_of_framed htwin.framed'
  have hsound := hw.keeps hkeeps htwin.ready
  have hsound' := hv.keeps hkeeps' htwin.ready'
  have hread : w'.tree.jsonAt (w'.target tokens ++ [other.dirName] ++ names) = some content := by
    rw [jsonAt, target_congr hkeeps.current, hkeeps.sources _ hbelow, ← jsonAt, hcontent]
  have hread' : v'.tree.jsonAt (v'.target tokens ++ [other.dirName] ++ names) = some content := by
    rw [hakin.agree other hrank _ (Below.append hne)] at hcontent
    rw [target_congr hakin.current] at hcontent hbelow
    rw [jsonAt, target_congr hkeeps'.current, hkeeps'.sources _ hbelow, ← jsonAt, hcontent]
  refine ⟨?_, ?_⟩
  · rw [hsound.sources.readText hne hread, hsound'.sources.readText hne hread']
  · intro text found htext hfound
    rw [hsound.sources.readText hne hread] at htext
    split at htext
    · rename_i text' htext'
      obtain rfl := Except.ok.inj htext
      rw [← tokensIn_eq htext' hfound]
      exact hplain content (hw.contents _ content hbelow hcontent)
    · cases htext

/-- Builds of a layer from the same sources succeed alike and leave the same outputs. -/
theorem Sound.buildLayer_akin (flavor : String)
    (hplain : ∀ content, contents content → PlainContent content)
    {w v : Workspace} (hw : c.Sound tokens cache contents w.place)
    (hv : c.Sound tokens cache contents v.place) (hakin : c.Akin tokens kind w.place v.place) :
    let layer := Layer.ofKind w.place tokens flavor kind
    ((c.buildLayer layer).run w).1.success = ((c.buildLayer layer).run v).1.success ∧
      c.Twin layer.name w.place v.place ((c.buildLayer layer).run w).2.place
        ((c.buildLayer layer).run v).2.place :=
  buildLayer_twin (Layer.plainLayer_ofKind hw.ready.wellFormed) hw.ready hv.ready hakin.current hakin.files
    (hw.readable hplain hv hakin)

end BuildContext

end DesignTokens
