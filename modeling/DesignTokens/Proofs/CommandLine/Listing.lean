import DesignTokens.Proofs.CommandLine.Status
import DesignTokens.Proofs.Layer.Emission
import DesignTokens.Proofs.Style.Mode
import DesignTokens.Proofs.Token.SourceText

/-!
What `list` tells about the modes of a project, and how a build emits them. A listing looks a mode up
by its name; a build resolves the name, and the name of the base is reserved there.
-/

namespace DesignTokens

/-- A text of a listing tells that the file of a mode is emitted with an activation. -/
inductive Tells : String → Activation → Prop
  | known (a : Activation) : Tells a.describe a
  | unknown : Tells "unknown, emitted as base" .base

theorem describe_ne_unknown (a : Activation) : a.describe ≠ "unknown, emitted as base" := by
  intro h
  have hfive := congrArg (fun text : String => text.toList.take 5) h
  rw [a.take_describe] at hfive
  cases a <;> simp [Activation.opening] at hfive

theorem tells_describe_iff {a b : Activation} : Tells a.describe b ↔ b = a := by
  constructor
  · intro h
    generalize htext : a.describe = text at h
    cases h with
    | known => exact (Activation.describe_injective htext).symm
    | unknown => exact absurd htext (describe_ne_unknown a)
  · rintro rfl
    exact .known b

theorem tells_unknown_iff {a : Activation} : Tells "unknown, emitted as base" a ↔ a = .base := by
  constructor
  · intro h
    generalize htext : "unknown, emitted as base" = text at h
    cases h with
    | known => exact absurd htext.symm (describe_ne_unknown a)
    | unknown => rfl
  · rintro rfl
    exact .unknown

namespace ModeRegistry

/-- The activation that a listing tells: that of the mode with a name, or that of the base. -/
def listed (r : ModeRegistry) (name : String) : Activation :=
  ((r.get? name).map Mode.activation).getD .base

theorem listed_of_ne_base (r : ModeRegistry) {name : String} (hname : name ≠ baseModeName) :
    r.listed name = r.resolve (some name) :=
  (r.resolve_of_ne_base hname).symm

/-- No mode is built in under the name of the base. -/
theorem listed_base (overrides : List Mode) :
    (builtin.withOverrides overrides).listed baseModeName =
      ((overrides.reverse.find? fun m => m.name == baseModeName).map Mode.activation).getD
        .base := by
  have hbuiltin : builtin.get? baseModeName = none := by decide
  rw [listed, get?_withOverrides, hbuiltin, Option.or_none]

end ModeRegistry

namespace Command

open Job

theorem modeLine_tells (r : ModeRegistry) (name : String) :
    ∃ text, modeLine r name = "    " ++ name ++ ": " ++ text ++ "\n" ∧
      ∀ a, Tells text a ↔ a = r.listed name := by
  rw [modeLine, ModeRegistry.listed]
  cases r.get? name with
  | none => exact ⟨_, rfl, fun _ => tells_unknown_iff⟩
  | some mode => exact ⟨_, rfl, fun _ => tells_describe_iff⟩

theorem exec_list {config : Path} {x : Workspace} {project : Config} {layers : List Layer}
    (hload : Config.load x.place config = .ok project)
    (hdiscover : Layer.discover x.place project.tokensPath project.selectors.defaultFlavor =
      .ok layers) (date : Except BuildDateError String) :
    ∃ after, exec (run .list config date) x =
        (.ok ⟨true, Text.join "" (layers.map (layerLines project))⟩, after) ∧
      after.place = x.place := by
  rw [run, runList, exec_bind, exec_projectAt_eq, hload]
  simp only [hdiscover]
  exact ⟨_, rfl, rfl⟩

/-- Every mode file that is found has its line. -/
theorem modeLine_infix (project : Config) {layers : List Layer} {layer : Layer}
    (hlayer : layer ∈ layers) {variants : List Flavor}
    (hvariants : layer.sources = .flavors variants) {flavor : Flavor} (hflavor : flavor ∈ variants)
    {mode : String × Path} (hmode : mode ∈ flavor.modeFiles) :
    (modeLine project.modeRegistry mode.1).toList <:+:
      (Text.join "" (layers.map (layerLines project))).toList := by
  have htail : ∀ {line text : String} (head : String), line.toList <:+: text.toList →
      line.toList <:+: (head ++ text).toList := by
    intro line text head h
    rw [String.toList_append]
    exact h.trans (List.suffix_append _ _).isInfix
  have hmodes : (modeLine project.modeRegistry mode.1).toList <:+:
      (flavorLines project.selectors project.modeRegistry flavor).toList := by
    rw [flavorLines]
    exact htail _ (infix_join (List.mem_map_of_mem hmode))
  have hflavors : (flavorLines project.selectors project.modeRegistry flavor).toList <:+:
      (layerLines project layer).toList := by
    rw [layerLines, hvariants]
    exact htail _ (infix_join (List.mem_map_of_mem hflavor))
  exact (hmodes.trans hflavors).trans (infix_join (List.mem_map_of_mem hlayer))

/-- The line that `list` prints for a mode of a flavor tells how a build emits the mode's file, unless
the mode is called like the base: such a file is always emitted as the base, whereas the line tells
the activation of the last mode that the configuration puts under that name. -/
theorem list_tells_emitted {config : Path} {x : Workspace} {project : Config} {layers : List Layer}
    (hwf : x.place.tree.WellFormed) (hload : Config.load x.place config = .ok project)
    (hdiscover : Layer.discover x.place project.tokensPath project.selectors.defaultFlavor =
      .ok layers) (date : Except BuildDateError String) (stamp : String) :
    let c := project.buildContext stamp
    ∃ output after, exec (run .list config date) x = (.ok ⟨true, output⟩, after) ∧
      after.place = x.place ∧ output = Text.join "" (layers.map (layerLines project)) ∧
      ∀ layer ∈ layers, ∀ variants, layer.sources = .flavors variants →
        ∀ flavor ∈ variants, ∀ mode ∈ flavor.modeFiles,
          let listed := c.modes.listed mode.1
          let emitted := c.modes.resolve (some mode.1)
          (∃ text, ("    " ++ mode.1 ++ ": " ++ text ++ "\n").toList <:+: output.toList ∧
            ∀ a, Tells text a ↔ a = listed) ∧
          (∀ z, ((c.buildLayer layer).run z).1.success = true →
            c.Emits layer flavor mode emitted z ((c.buildLayer layer).run z).2) ∧
          (mode.1 ≠ baseModeName → listed = emitted) ∧
          (mode.1 = baseModeName → emitted = .base ∧
            listed = ((project.modes.reverse.find? fun m => m.name == baseModeName).map
              Mode.activation).getD .base) := by
  intro c
  obtain ⟨after, hlist, hplace⟩ := exec_list hload hdiscover date
  refine ⟨_, after, hlist, hplace, rfl, ?_⟩
  intro layer hlayer variants hvariants flavor hflavor mode hmode listed emitted
  have hapart := Layer.sheetsApart_of_discover hwf hdiscover hlayer hvariants
  obtain ⟨kind, rfl⟩ := exists_ofKind_of_mem hdiscover hlayer
  refine ⟨?_, ?_, ?_, ?_⟩
  · obtain ⟨text, hline, htells⟩ := modeLine_tells c.modes mode.1
    refine ⟨text, ?_, htells⟩
    rw [← hline]
    exact modeLine_infix project hlayer hvariants hflavor hmode
  · intro z hsuccess
    exact BuildContext.emits_buildLayer (Layer.plainLayer_ofKind hwf).name hvariants hapart
      hsuccess flavor hflavor mode hmode
  · exact fun hne => c.modes.listed_of_ne_base hne
  · intro hbase
    simp only [listed, emitted, hbase]
    exact ⟨rfl, ModeRegistry.listed_base project.modes⟩

/-- A project whose configuration has a mode with the name of the base. -/
def reservedWorkspace : Workspace :=
  ⟨⟨⟨[(["sando.toml"], .file "[[modes]]\nname = \"base\"\nmanual_only = true\n".toUTF8 0),
      (["tokens"], .directory), (["tokens", "flavors"], .directory),
      (["tokens", "flavors", "original"], .directory),
      (["tokens", "flavors", "original", "flavor-base.json"],
        .file "\x7b\"ink\": \x7b\"value\": \"#000\"\x7d\x7d".toUTF8 0),
      (["tokens", "flavors", "original", "flavor-dark.json"],
        .file "\x7b\"ink\": \x7b\"value\": \"#fff\"\x7d\x7d".toUTF8 0),
      (["tokens", "flavors", "original", "flavor.json"], .file "\x7b\x7d".toUTF8 0)]⟩, []⟩,
    1, 0, []⟩

def reservedConfig : Config :=
  { Config.new defaultProjectName with
    modes := [⟨"base", .color, none, none, false, true, false⟩] }

def reservedFlavor : Flavor :=
  ⟨"original", ⟨"tokens/flavors/original/flavor.json"⟩,
    [("base", ⟨"tokens/flavors/original/flavor-base.json"⟩),
      ("dark", ⟨"tokens/flavors/original/flavor-dark.json"⟩)]⟩

def reservedLayer : Layer :=
  ⟨"flavors", .theme, ⟨"tokens/flavors"⟩, [], .flavors [reservedFlavor]⟩

def reservedLayers : List Layer :=
  [⟨"ingredients", .primitives, ⟨"tokens/ingredients"⟩, [], .files []⟩, reservedLayer,
    ⟨"recipes", .composite, ⟨"tokens/recipes"⟩, [⟨"tokens/flavors/original/flavor.json"⟩],
      .files []⟩]

theorem load_reserved :
    Config.load reservedWorkspace.place ⟨"sando.toml"⟩ = .ok reservedConfig := by
  decide +kernel

theorem discover_reserved :
    Layer.discover reservedWorkspace.place reservedConfig.tokensPath
      reservedConfig.selectors.defaultFlavor = .ok reservedLayers := by
  have hnames : reservedWorkspace.place.namesIn ⟨"tokens/flavors/original"⟩ =
      ["flavor-base.json", "flavor-dark.json", "flavor.json"] := by
    rw [Place.namesIn_of_isDirectory (by decide +kernel), FileTree.childNames]
    refine (List.mergeSort_of_pairwise ?_).trans ?_
    · decide +kernel
    · decide +kernel
  have hbase : Flavor.baseFile? reservedWorkspace.place ⟨"tokens/flavors/original"⟩ =
      some reservedFlavor.baseFile := by
    rw [Flavor.baseFile?, hnames]
    decide +kernel
  have hmodes : Flavor.modeFilesIn reservedWorkspace.place ⟨"tokens/flavors/original"⟩ =
      reservedFlavor.modeFiles := by
    rw [Flavor.modeFilesIn, hnames]
    decide +kernel
  have hcandidates : Flavor.candidates reservedWorkspace.place ⟨"tokens/flavors"⟩ =
      [("original", ⟨"tokens/flavors/original"⟩)] := by
    decide +kernel
  have hflavors : Flavor.discover reservedWorkspace.place ⟨"tokens/flavors"⟩ =
      [reservedFlavor] := by
    rw [Flavor.discover, hcandidates, List.filterMap_cons, hbase, hmodes]
    rfl
  have hdir : reservedConfig.tokensPath.join flavorsName = ⟨"tokens/flavors"⟩ := by decide +kernel
  rw [Layer.discover, if_pos (by decide +kernel), Layer.discoverIn, hdir, hflavors]
  decide +kernel

theorem success_reserved :
    (((reservedConfig.buildContext "now").buildLayer reservedLayer).run
      reservedWorkspace).1.success = true := by
  decide +kernel

/-- The mode `dark` is listed as it is emitted. -/
theorem list_tells_emitted_dark :
    (reservedWorkspace.place.tree.WellFormed ∧
      Config.load reservedWorkspace.place ⟨"sando.toml"⟩ = .ok reservedConfig ∧
      Layer.discover reservedWorkspace.place reservedConfig.tokensPath
        reservedConfig.selectors.defaultFlavor = .ok reservedLayers) ∧
    ∃ output after text,
      exec (run .list ⟨"sando.toml"⟩ (.ok "now")) reservedWorkspace = (.ok ⟨true, output⟩, after) ∧
      ("    " ++ "dark" ++ ": " ++ text ++ "\n").toList <:+: output.toList ∧
      Tells text (.mediaOrManual "prefers-color-scheme: dark" "dark") ∧
      (((reservedConfig.buildContext "now").buildLayer reservedLayer).run
        reservedWorkspace).1.success = true ∧
      (reservedConfig.buildContext "now").Emits reservedLayer reservedFlavor
        ("dark", ⟨"tokens/flavors/original/flavor-dark.json"⟩)
        (.mediaOrManual "prefers-color-scheme: dark" "dark") reservedWorkspace
        (((reservedConfig.buildContext "now").buildLayer reservedLayer).run
          reservedWorkspace).2 := by
  have hwf : reservedWorkspace.place.tree.WellFormed := by decide +kernel
  have hresolve : (reservedConfig.buildContext "now").modes.resolve (some "dark") =
      .mediaOrManual "prefers-color-scheme: dark" "dark" := by
    decide +kernel
  obtain ⟨output, after, hlist, -, -, hmodes⟩ :=
    list_tells_emitted hwf load_reserved discover_reserved (.ok "now") "now"
  obtain ⟨⟨text, hline, htells⟩, hemits, hagree, -⟩ := hmodes reservedLayer (by decide)
    [reservedFlavor] rfl reservedFlavor List.mem_cons_self
    ("dark", ⟨"tokens/flavors/original/flavor-dark.json"⟩) (by decide)
  have hemitted := hemits reservedWorkspace success_reserved
  dsimp only at hline htells hagree hemitted
  rw [hresolve] at hagree hemitted
  exact ⟨⟨hwf, load_reserved, discover_reserved⟩, output, after, text, hlist, hline,
    (htells _).mpr (hagree (by decide)).symm, success_reserved, hemitted⟩

/-- The mode `base` is listed as switched on by hand, and its file is emitted as the base. -/
theorem list_misreports_base :
    Config.load reservedWorkspace.place ⟨"sando.toml"⟩ = .ok reservedConfig ∧
    Layer.discover reservedWorkspace.place reservedConfig.tokensPath
      reservedConfig.selectors.defaultFlavor = .ok reservedLayers ∧
    (∃ after, exec (run .list ⟨"sando.toml"⟩ (.ok "now")) reservedWorkspace =
      (.ok ⟨true, "ingredients (0 files)\nflavors (1 flavors)\n  original (default)\n" ++
        "    base: ManualOnly \x7b attribute: \"base\" \x7d\n" ++
        "    dark: AutoPlusManual \x7b media_query: \"prefers-color-scheme: dark\", " ++
        "attribute: \"dark\" \x7d\nrecipes (0 files)\n"⟩, after)) ∧
    (∀ a, Tells "ManualOnly \x7b attribute: \"base\" \x7d" a ↔ a = .manual "base") ∧
    (reservedConfig.buildContext "now").modes.resolve (some "base") = .base ∧
    (((reservedConfig.buildContext "now").buildLayer reservedLayer).run
      reservedWorkspace).1.success = true ∧
    (reservedConfig.buildContext "now").Emits reservedLayer reservedFlavor
      ("base", ⟨"tokens/flavors/original/flavor-base.json"⟩) .base reservedWorkspace
      (((reservedConfig.buildContext "now").buildLayer reservedLayer).run reservedWorkspace).2 := by
  have houtput : Text.join "" (reservedLayers.map (layerLines reservedConfig)) =
      "ingredients (0 files)\nflavors (1 flavors)\n  original (default)\n" ++
        "    base: ManualOnly \x7b attribute: \"base\" \x7d\n" ++
        "    dark: AutoPlusManual \x7b media_query: \"prefers-color-scheme: dark\", " ++
        "attribute: \"dark\" \x7d\nrecipes (0 files)\n" := by
    decide +kernel
  have hdescribe : "ManualOnly \x7b attribute: \"base\" \x7d" =
      (Activation.manual "base").describe := by
    decide +kernel
  have hapart := Layer.sheetsApart_of_discover (by decide +kernel) discover_reserved
    (show reservedLayer ∈ reservedLayers by decide) rfl
  obtain ⟨after, hlist, -⟩ := exec_list load_reserved discover_reserved (.ok "now")
  rw [houtput] at hlist
  refine ⟨load_reserved, discover_reserved, ⟨after, hlist⟩, ?_, rfl, success_reserved, ?_⟩
  · intro a
    rw [hdescribe]
    exact tells_describe_iff
  · exact BuildContext.emits_buildLayer (by decide) rfl hapart success_reserved reservedFlavor
      List.mem_cons_self ("base", ⟨"tokens/flavors/original/flavor-base.json"⟩) (by decide)

end Command

end DesignTokens
