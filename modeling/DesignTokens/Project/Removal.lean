import DesignTokens.Project.Config
import DesignTokens.Workspace.Job

/-!
Removing what builds have made. An output directory that holds the project or its sources is left
alone.
-/

namespace DesignTokens

/-- Why outputs are not removed. -/
inductive RemovalError where
  | holdsRoot (output : Path)
  | holdsSources (output : Path)
  | failed (path : Path) (cause : FileError)
deriving DecidableEq, Repr

def RemovalError.message : RemovalError → String
  | holdsRoot output => "Refusing to remove " ++ output.text ++ ": it contains the project root"
  | holdsSources output =>
    "Refusing to remove " ++ output.text ++ ": it contains token sources or " ++ configFileName
  | failed path cause => "Failed to remove " ++ path.text ++ ": " ++ cause.message

namespace Place

/-- The absolute path of what is there, or else the path as it is, without dots for the current
directory. -/
def settled (w : Place) (p : Path) : Path :=
  let p : Path := if p.text.isEmpty then ⟨"."⟩ else p
  match w.canonical p with
  | .ok absolute => absolute
  | .error _ => p.withoutHere

end Place

namespace Config

/-- The output directory, if neither the project's root nor its tokens nor its configuration lie in
it. -/
def removableOutput (w : Place) (c : Config) : Except RemovalError Path :=
  let output := w.settled c.outputPath
  let root := w.settled c.root
  if root.startsWith output then .error (.holdsRoot output)
  else if (w.settled c.tokensPath).startsWith output ||
      (root.join configFileName).startsWith output then .error (.holdsSources output)
  else .ok c.outputPath

/-- Removes the output directory and the cache file. -/
def clean (c : Config) : Job RemovalError Unit := do
  match c.removableOutput (← Job.place) with
  | .error e => throw e
  | .ok output =>
    if (← Job.place).pathExists output then
      Job.steps (.failed output) fun w => w.removeDirectory output
    if (← Job.place).pathExists c.cachePath then
      Job.change (.failed c.cachePath) fun w => w.removeFile c.cachePath

end Config

end DesignTokens
