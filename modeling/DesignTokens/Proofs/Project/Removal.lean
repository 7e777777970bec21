import DesignTokens.CommandLine.Run
import DesignTokens.Proofs.Cache.Fingerprint
import DesignTokens.Proofs.Layer.Sources

/-!
What removing the outputs of a project spares: its root, its configuration, and the directory of its
tokens, but not what lies in that directory.
-/

namespace DesignTokens

open FileTree

namespace Path

/-- The component that a step stands for. -/
def stepComponent (name : String) : Component :=
  if name = ".." then .up else .name name

theorem filterMap_component? (parts : List (List Char)) :
    parts.filterMap component? =
      ((parts.filter fun part => !isFiller part).map String.ofList).map stepComponent := by
  induction parts with
  | nil => rfl
  | cons part rest ih =>
      rw [List.filterMap_cons, component?]
      by_cases hfiller : isFiller part
      · rw [if_pos hfiller, List.filter_cons_of_neg (by simp [hfiller]), ih]
      · have hup : String.ofList part = ".." ↔ part = ['.', '.'] :=
          ⟨fun h => by simpa using congrArg String.toList h, fun h => h ▸ rfl⟩
        rw [if_neg hfiller, List.filter_cons_of_pos (by simpa using hfiller), List.map_cons,
          List.map_cons, ih, stepComponent]
        by_cases hdots : part = ['.', '.']
        · rw [if_pos hdots, if_pos (hup.mpr hdots)]
        · rw [if_neg hdots, if_neg (mt hup.mp hdots)]

theorem components_of_isAbsolute {p : Path} (h : p.isAbsolute) :
    p.components = .root :: p.steps.map stepComponent := by
  rw [components, isAbsolute_iff.mp h, filterMap_component?, ← steps_eq]
  rfl

end Path

namespace Place

variable {w : Place}

/-- Absolute paths lie in one another as the locations do. -/
theorem startsWith_pathOf_iff {p : Path} {l m : Location} (hp : p.isAbsolute) (hsteps : p.steps = m)
    (hm : ∀ name ∈ m, ProperName name) (hl : ∀ name ∈ l, ProperName name) :
    p.startsWith (pathOf l) ↔ l <+: m := by
  have hname : ∀ names : Location, (∀ name ∈ names, ProperName name) →
      names.map Path.stepComponent = names.map .name := by
    intro names hnames
    exact List.map_inj_left.mpr fun name hname => if_neg (hnames name hname).ne_up
  rw [Path.startsWith, Path.components_of_isAbsolute hp,
    Path.components_of_isAbsolute (isAbsolute_pathOf l), steps_pathOf hl, hsteps, hname l hl,
    hname m hm, List.isPrefixOf_iff_prefix, List.prefix_cons_inj]
  exact List.prefix_map_iff_of_injective fun a b hab => Path.Component.name.inj hab

/-- Something is at a location that a path means; the empty path means the current directory. -/
def Stands (w : Place) (p : Path) (l : Location) : Prop :=
  w.locate (if p.text.isEmpty then ⟨"."⟩ else p) = .ok l ∧ (w.tree.lookup l).isSome

theorem Stands.settled {p : Path} {l : Location} (h : w.Stands p l) : w.settled p = pathOf l := by
  obtain ⟨hlocate, hsome⟩ := h
  obtain ⟨n, hlookup⟩ := Option.isSome_iff_exists.mp hsome
  have hcanonical : w.canonical (if p.text.isEmpty then ⟨"."⟩ else p) = .ok (pathOf l) := by
    rw [canonical, hlocate]
    simp only [bind, Except.bind, hlookup]
    rfl
  simp only [Place.settled, hcanonical]

theorem Stands.of_locate {p : Path} {l : Location} (h : w.locate p = .ok l)
    (hsome : (w.tree.lookup l).isSome) : w.Stands p l := by
  obtain ⟨htext, -⟩ := locate_eq_ok_iff.mp h
  rw [Stands, if_neg (by simpa using htext)]
  exact ⟨h, hsome⟩

end Place

namespace Config

open Job

variable {c : Config} {w : Place} {o r t : Location}

theorem proper_configFileName : ProperName configFileName := by
  decide

theorem removableOutput_eq_ok {d : Path} (h : c.removableOutput w = .ok d) :
    d = c.outputPath ∧ ¬ (w.settled c.root).startsWith (w.settled c.outputPath) ∧
      ¬ (w.settled c.tokensPath).startsWith (w.settled c.outputPath) ∧
      ¬ ((w.settled c.root).join configFileName).startsWith (w.settled c.outputPath) := by
  rw [removableOutput] at h
  split at h
  · exact absurd h nofun
  · rename_i hroot
    split at h
    · exact absurd h nofun
    · rename_i hsources
      rw [Bool.or_eq_true, not_or] at hsources
      exact ⟨(Except.ok.inj h).symm, hroot, hsources⟩

theorem startsWith_output_iff (hwf : w.tree.WellFormed) (ho : w.Stands c.outputPath o) {p : Path}
    {l : Location} (hl : w.Stands p l) :
    (w.settled p).startsWith (w.settled c.outputPath) ↔ o <+: l := by
  have hproper := hwf.proper_of_lookup hl.2
  rw [hl.settled, ho.settled]
  exact Place.startsWith_pathOf_iff (Place.isAbsolute_pathOf l) (Place.steps_pathOf hproper) hproper
    (hwf.proper_of_lookup ho.2)

theorem config_startsWith_output_iff (hwf : w.tree.WellFormed) (ho : w.Stands c.outputPath o)
    (hr : w.Stands c.root r) :
    ((w.settled c.root).join configFileName).startsWith (w.settled c.outputPath) ↔
      o <+: r ++ [configFileName] := by
  have hproper := hwf.proper_of_lookup hr.2
  have hsteps : ((Place.pathOf r).join configFileName).steps = r ++ [configFileName] := by
    rw [Path.steps_join _ proper_configFileName, Place.steps_pathOf hproper]
  rw [hr.settled, ho.settled]
  refine Place.startsWith_pathOf_iff ?_ hsteps ?_ (hwf.proper_of_lookup ho.2)
  · rw [Path.isAbsolute_join _ proper_configFileName.no_slash]
    exact Place.isAbsolute_pathOf r
  · rw [List.forall_mem_append, List.forall_mem_singleton]
    exact ⟨hproper, proper_configFileName⟩

/-- An output directory that is there may be removed exactly if neither the tokens directory nor the
configuration lies in it, nor the root, which the configuration lies in. -/
theorem removableOutput_eq_ok_iff (hwf : w.tree.WellFormed) (ho : w.Stands c.outputPath o)
    (hr : w.Stands c.root r) (ht : w.Stands c.tokensPath t) :
    c.removableOutput w = .ok c.outputPath ↔ ¬ o <+: t ∧ ¬ o <+: r ++ [configFileName] := by
  constructor
  · intro h
    obtain ⟨-, -, htokens, hconfig⟩ := removableOutput_eq_ok h
    rw [startsWith_output_iff hwf ho ht] at htokens
    rw [config_startsWith_output_iff hwf ho hr] at hconfig
    exact ⟨htokens, hconfig⟩
  · rintro ⟨htokens, hconfig⟩
    have hroot : ¬ o <+: r := fun h => hconfig (h.trans (List.prefix_append _ _))
    rw [← startsWith_output_iff hwf ho ht] at htokens
    rw [← startsWith_output_iff hwf ho hr] at hroot
    rw [← config_startsWith_output_iff hwf ho hr] at hconfig
    rw [removableOutput, if_neg hroot, if_neg]
    rw [Bool.or_eq_true, not_or]
    exact ⟨htokens, hconfig⟩

theorem isSome_lookup_above {l m : Location} (hwf : w.tree.WellFormed) (hlm : l <+: m)
    (hm : (w.tree.lookup m).isSome) : (w.tree.lookup l).isSome := by
  by_cases heq : m = l
  · exact heq ▸ hm
  · rw [hwf.lookup_of_below ⟨hlm, heq⟩ hm]
    rfl

theorem exec_clean_of_error {x : Workspace} {e : RemovalError}
    (h : c.removableOutput x.place = .error e) : exec c.clean x = (.error e, x) := by
  rw [clean, exec_bind, exec_place]
  dsimp only
  rw [h]
  rfl

theorem exec_runClean_of_error {x : Workspace} {config : Path} {e : RemovalError}
    (hload : Config.load x.place config = .ok c) (h : c.removableOutput x.place = .error e) :
    exec (Command.runClean config) x = (.error (.removal e), x) := by
  have hconfig : exec (Command.configAt config) x = (.ok c, x) := by
    rw [Command.configAt, exec_bind, exec_place]
    dsimp only
    rw [hload]
    rfl
  have hclean : exec (ExceptT.adapt CommandError.removal c.clean) x = (.error (.removal e), x) := by
    rw [exec_adapt, exec_clean_of_error h]
    rfl
  rw [Command.runClean, exec_bind, hconfig]
  dsimp only
  rw [exec_bind, hclean]

/-- An output directory that may be removed holds neither the project's root nor its configuration
nor its tokens directory. It holds sources only if it lies strictly below the tokens directory. If
it may not be removed, the command that removes outputs changes nothing. -/
theorem removableOutput_spares {x : Workspace} (hwf : x.place.tree.WellFormed) (c : Config) :
    (∀ d o, c.removableOutput x.place = .ok d → x.place.locate d = .ok o →
      (∀ r, x.place.Stands c.root r → ¬ o <+: r ∧
        ((x.place.tree.lookup (r ++ [configFileName])).isSome → ¬ o <+: r ++ [configFileName])) ∧
      (∀ t, x.place.Stands c.tokensPath t → ¬ o <+: t) ∧
      ∀ layers, Layer.discover x.place c.tokensPath c.selectors.defaultFlavor = .ok layers →
        ∀ layer ∈ layers, ∀ p ∈ BuildContext.sourceReads layer, o <+: x.place.target p →
          Below (x.place.target c.tokensPath) o) ∧
    ∀ e, c.removableOutput x.place = .error e →
      ∀ config date, Config.load x.place config = .ok c →
        exec (Command.run .clean config date) x = (.error (.removal e), x) := by
  refine ⟨?_, fun e he config date hload => exec_runClean_of_error hload he⟩
  intro d o hd ho
  obtain ⟨rfl, hroot, htokens, hconfig⟩ := removableOutput_eq_ok hd
  have hstands : (x.place.tree.lookup o).isSome → x.place.Stands c.outputPath o :=
    Place.Stands.of_locate ho
  have hnotTokens : ∀ t, x.place.Stands c.tokensPath t → ¬ o <+: t := by
    intro t ht hin
    have hout := hstands (isSome_lookup_above hwf hin ht.2)
    exact htokens ((startsWith_output_iff hwf hout ht).mpr hin)
  refine ⟨?_, hnotTokens, ?_⟩
  · intro r hr
    constructor
    · intro hin
      have hout := hstands (isSome_lookup_above hwf hin hr.2)
      exact hroot ((startsWith_output_iff hwf hout hr).mpr hin)
    · intro hthere hin
      have hout := hstands (isSome_lookup_above hwf hin hthere)
      exact hconfig ((config_startsWith_output_iff hwf hout hr).mpr hin)
  · intro layers hlayers layer hlayer p hp hin
    have hdirectory := Layer.isDirectory_of_discover hlayers
    obtain ⟨kind, rfl⟩ := exists_ofKind_of_mem hlayers hlayer
    have ht : x.place.Stands c.tokensPath (x.place.target c.tokensPath) := by
      obtain ⟨hlocate, hlookup⟩ :=
        Place.node_eq_ok_iff.mp (Place.isDirectory_iff_node.mp hdirectory)
      exact Place.Stands.of_locate hlocate (by rw [hlookup]; rfl)
    have hbelow := (Layer.below_of_mem_layerReads hwf (List.mem_append_right _ hp)).1
    rcases List.prefix_or_prefix_of_prefix hbelow hin with hle | hle
    · refine ⟨hle, ?_⟩
      rintro rfl
      exact hnotTokens _ ht List.prefix_rfl
    · exact absurd hle (hnotTokens _ ht)

/-- A project that is configured to put its outputs into a certain directory. -/
def tidyProject (output : String) : Workspace :=
  ⟨⟨⟨[(["sando.toml"], .file ("[build]\noutput_dir = \"" ++ output ++ "\"\n").toUTF8 0),
      (["dist"], .directory), (["tokens"], .directory), (["tokens", "ingredients"], .directory),
      (["tokens", "ingredients", "a.json"], .file "\x7b\x7d".toUTF8 0)]⟩, []⟩, 1, 0, []⟩

def tidyConfig (output : String) : Config :=
  { Config.new defaultProjectName with build := { BuildSettings.standard with outputDir := output } }

/-- An output directory of its own holds none of the sources; the tokens directory as an output
directory is left as it is. -/
theorem removableOutput_spares_tidy :
    (removableOutput (tidyProject "dist").place (tidyConfig "dist") = .ok ⟨"dist"⟩ ∧
      ∀ layer ∈ Layer.discoverIn (tidyProject "dist").place ⟨"tokens"⟩ "original",
        ∀ p ∈ BuildContext.sourceReads layer, ¬ ["dist"] <+: (tidyProject "dist").place.target p) ∧
    exec (Command.run .clean ⟨"sando.toml"⟩ (.ok "stamp")) (tidyProject "tokens") =
      (.error (.removal (.holdsSources ⟨"/tokens"⟩)), tidyProject "tokens") := by
  have hwf : (tidyProject "dist").place.tree.WellFormed := by decide +kernel
  have hwf' : (tidyProject "tokens").place.tree.WellFormed := by decide +kernel
  have hremovable : removableOutput (tidyProject "dist").place (tidyConfig "dist") =
      .ok ⟨"dist"⟩ := by
    decide +kernel
  refine ⟨⟨hremovable, ?_⟩, ?_⟩
  · intro layer hlayer p hp hin
    have hbelow := ((removableOutput_spares hwf (tidyConfig "dist")).1 ⟨"dist"⟩ ["dist"] hremovable
      (by decide +kernel)).2.2 (Layer.discoverIn (tidyProject "dist").place ⟨"tokens"⟩ "original")
      (by decide +kernel) layer hlayer p hp hin
    exact absurd hbelow (by decide +kernel)
  · exact (removableOutput_spares hwf' (tidyConfig "tokens")).2 (.holdsSources ⟨"/tokens"⟩)
      (by decide +kernel) ⟨"sando.toml"⟩ (.ok "stamp") (by decide +kernel)

/-- An output directory below the tokens directory may be removed with the sources in it. -/
theorem sources_in_removableOutput :
    let w := tidyProject "tokens/ingredients"
    let c := tidyConfig "tokens/ingredients"
    Config.load w.place ⟨"sando.toml"⟩ = .ok c ∧
      c.removableOutput w.place = .ok ⟨"tokens/ingredients"⟩ ∧
      w.place.locate ⟨"tokens/ingredients"⟩ = .ok ["tokens", "ingredients"] ∧
      (Layer.discoverIn w.place c.tokensPath "original").map BuildContext.sourceReads =
        [[⟨"tokens/ingredients/a.json"⟩], [], []] ∧
      w.place.target ⟨"tokens/ingredients/a.json"⟩ = ["tokens", "ingredients", "a.json"] ∧
      let cleaned := exec (Command.run .clean ⟨"sando.toml"⟩ (.ok "stamp")) w
      cleaned.1 = .ok ⟨true, ""⟩ ∧
        cleaned.2.place.tree.lookup ["tokens", "ingredients", "a.json"] = none := by
  decide +kernel

end Config

end DesignTokens
