import DesignTokens.Notice
import DesignTokens.Workspace.FileTree

/-!
Jobs: computations that read and change files, report notices and may fail. What a job did before
it failed stays done.
-/

namespace DesignTokens

/-- The files that jobs work on, with the times they stamp on what they write. -/
structure Workspace where
  place : Place
  /-- The modification time of files that are written now. -/
  stamp : Nat
  /-- Milliseconds since 1970. -/
  clock : Nat
  /-- What was reported, the oldest first. -/
  notices : List Notice
deriving DecidableEq

/-- A computation on a workspace that may fail with an `ε`. -/
abbrev Job (ε α : Type) := ExceptT ε (StateM Workspace) α

namespace Job

variable {ε : Type}

/-- The files as they are. -/
def place : Job ε Place := do
  return (← get).place

/-- Reports notices. -/
def report (notices : List Notice) : Job ε Unit :=
  modify fun w => { w with notices := w.notices ++ notices }

/-- Puts new contents under the current directory's tree. -/
def setTree (tree : FileTree) : Job ε Unit :=
  modify fun w => { w with place := { w.place with tree := tree } }

/-- A result computed from the files, with its refusal turned into an error. -/
def query {α : Type} (refuse : FileError → ε) (f : Place → Except FileError α) : Job ε α := do
  match f (← place) with
  | .ok a => pure a
  | .error e => throw (refuse e)

/-- A change of the files that is made as a whole or refused. -/
def change (refuse : FileError → ε) (f : Place → Except FileError FileTree) : Job ε Unit := do
  setTree (← query refuse f)

/-- A change of the files that may stop half-way. -/
def steps (refuse : FileError → ε) (f : Place → FileTree × Except FileError Unit) :
    Job ε Unit := do
  let (tree, outcome) := f (← place)
  setTree tree
  match outcome with
  | .ok () => pure ()
  | .error e => throw (refuse e)

/-- Writes a file. -/
def writeFile (refuse : FileError → ε) (p : Path) (content : ByteArray) : Job ε Unit := do
  let stamp := (← get).stamp
  change refuse fun w => w.write p content stamp

/-- Writes a text file and makes the directories above it. -/
def writeText (refuseDirectory : Path → FileError → ε) (refuseFile : FileError → ε) (p : Path)
    (text : String) : Job ε Unit := do
  match p.parent with
  | some up => steps (refuseDirectory up) fun w => w.makeDirectories up
  | none => pure ()
  writeFile refuseFile p text.toUTF8

end Job

end DesignTokens
