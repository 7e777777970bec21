import DesignTokens.Token.Error
import DesignTokens.Workspace.Job

/-!
Generated files: a header that warns against editing, an empty line, and the body.
-/

namespace DesignTokens.Generated

/-- The comment at the top of every generated file. -/
def header (stamp : String) : String :=
  "/**\n * Do not edit directly, this file was auto-generated by sando.\n * Generated on " ++
    stamp ++ "\n */\n"

/-- A text that ends in a line break. -/
def endLine (text : String) : String :=
  if text.toList.getLast? = some '\n' then text else text ++ "\n"

/-- The contents of a generated file. -/
def contents (stamp body : String) : String :=
  endLine (header stamp ++ "\n" ++ body)

/-- Writes a generated file and the directories above it. -/
def write (p : Path) (stamp body : String) : Job TokenError Path := do
  Job.writeText .file (.file p) p (contents stamp body)
  return p

end DesignTokens.Generated
