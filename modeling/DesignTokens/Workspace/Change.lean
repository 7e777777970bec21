import DesignTokens.Workspace.FileTree

/-!
What has to be done to a tree of files to make another one of it.
-/

namespace DesignTokens

inductive Change where
  /-- Removes a file, or a directory with everything below it. -/
  | remove (location : Location)
  | makeDirectory (location : Location)
  | write (location : Location) (content : ByteArray)
deriving DecidableEq

namespace FileTree

/-- Whether a location is a directory in both trees or in neither one. -/
def sameKind (a b : Option Node) : Bool :=
  (a == some .directory) == (b == some .directory)

/-- What is there before and not after, or is there as something else. Of a directory that goes,
only the directory is listed. -/
def removals (before after : FileTree) : List Change :=
  before.nodes.filterMap fun entry =>
    let now := after.lookup entry.1
    let gone := now.isNone || !sameKind (some entry.2) now
    if gone && after.lookup entry.1.dropLast == some .directory then some (.remove entry.1)
    else none

/-- The directories that are new, each behind those that hold it. -/
def newDirectories (before after : FileTree) : List Change :=
  let fresh := after.nodes.filter fun entry =>
    entry.2 == .directory && before.lookup entry.1 != some .directory
  (fresh.mergeSort fun a b => a.1.length ≤ b.1.length).map fun entry => .makeDirectory entry.1

/-- The files that are new or were written again. -/
def writes (before after : FileTree) : List Change :=
  after.nodes.filterMap fun entry =>
    match entry.2 with
    | .directory => none
    | .file content _ =>
      if before.lookup entry.1 == some entry.2 then none else some (.write entry.1 content)

/-- The changes from one tree to another, in an order in which they can be made. -/
def changesTo (before after : FileTree) : List Change :=
  before.removals after ++ before.newDirectories after ++ before.writes after

end FileTree

end DesignTokens
