import DesignTokens.Proofs.Keyed
import DesignTokens.Toml.Value

/-!
Tables that are written one after the other, each with its members, are assembled as they are
written.
-/

namespace DesignTokens.Toml

variable {k : String} {before inner members : Members} {elements : List Members}

/-- Statements that give the members of a table their values. -/
def assignments (members : Members) : List Statement :=
  members.map fun (key, v) => .assign [] key v

/-- Members followed by the tables under one key, if there are any. -/
def withTables (before : Members) (k : String) (elements : List Members) : Members :=
  before ++ if elements.isEmpty then [] else [(k, .tables elements)]

/-- Statements that put tables under a repeated header. -/
def listings (k : String) (elements : List Members) : List Statement :=
  elements.flatMap fun members => .repeatedHeader [] k :: assignments members

end DesignTokens.Toml
