import DesignTokens.Keyed
import DesignTokens.Workspace.Path

/-!
A tree of files, and what a path means in it.

The tree is a table from locations, the names on the way down from the root, to files and
directories. A path is walked name by name from a starting location; every location on the way has
to be a directory, and `..` goes up in the tree itself.
-/

namespace DesignTokens

/-- The names on the way from the root to a file or directory. -/
abbrev Location := List String

instance decidableEqByteArray : DecidableEq ByteArray := fun a b =>
  if h : a.data = b.data then isTrue (ByteArray.ext h) else isFalse fun e => h (congrArg _ e)

/-- A directory, or a file with its bytes and the time of its last change. -/
inductive Node where
  | directory
  | file (content : ByteArray) (modified : Nat)
deriving DecidableEq

/-- Why an operation on files is refused. -/
inductive FileError where
  | notFound
  | alreadyExists
  | notDirectory
  | isDirectory
  | notEmpty
  | invalidArgument
  | busy
  | notText
deriving DecidableEq, Repr

def FileError.message : FileError → String
  | notFound => "No such file or directory (os error 2)"
  | busy => "Device or resource busy (os error 16)"
  | alreadyExists => "File exists (os error 17)"
  | notDirectory => "Not a directory (os error 20)"
  | isDirectory => "Is a directory (os error 21)"
  | invalidArgument => "Invalid argument (os error 22)"
  | notEmpty => "Directory not empty (os error 39)"
  | notText => "stream did not contain valid UTF-8"

/-- Files and directories by location. The root is always there and not listed. -/
structure FileTree where
  nodes : List (Location × Node)
deriving DecidableEq

namespace FileTree

def empty : FileTree := ⟨[]⟩

def lookup (t : FileTree) : Location → Option Node
  | [] => some .directory
  | l => Keyed.get? l t.nodes

/-- Stores a node; one that is already there is replaced. -/
def set (t : FileTree) (l : Location) (n : Node) : FileTree :=
  ⟨Keyed.put l n t.nodes⟩

/-- Drops a location and everything below it. -/
def prune (t : FileTree) (l : Location) : FileTree :=
  ⟨t.nodes.filter fun entry => !l.isPrefixOf entry.1⟩

/-- Drops everything below a location. -/
def clear (t : FileTree) (l : Location) : FileTree :=
  ⟨t.nodes.filter fun entry => !(l.isPrefixOf entry.1 && entry.1 != l)⟩

/-- The names directly below a location, in ascending order. -/
def childNames (t : FileTree) (l : Location) : List String :=
  let names := t.nodes.filterMap fun entry =>
    if entry.1.dropLast = l then entry.1.getLast? else none
  names.mergeSort fun a b => !(b < a)

/-- Everything strictly below a location. -/
def below (t : FileTree) (l : Location) : List (Location × Node) :=
  t.nodes.filter fun entry => l.isPrefixOf entry.1 && entry.1 != l

/-- Refuses a location that is no directory. -/
def requireDirectory (t : FileTree) (l : Location) : Except FileError Unit :=
  match t.lookup l with
  | some .directory => .ok ()
  | some (.file ..) => .error .notDirectory
  | none => .error .notFound

/-- Walks down from a location. -/
def walk (t : FileTree) : Location → List String → Except FileError Location
  | l, [] => .ok l
  | l, name :: names => do
    t.requireDirectory l
    if name = "." then t.walk l names
    else if name = ".." then t.walk l.dropLast names
    else t.walk (l ++ [name]) names

end FileTree

namespace Path

/-- The names of a path, dots included. -/
def names (p : Path) : List String :=
  ((Text.splitAt '/' p.text.toList).filter (· ≠ [])).map String.ofList

/-- Whether a path ends in a slash behind a name. -/
def endsInSlash (p : Path) : Bool :=
  p.text.toList.getLast? == some '/' && !p.names.isEmpty

end Path

/-- A file tree seen from a current directory. -/
structure Place where
  tree : FileTree
  current : Location
deriving DecidableEq

namespace Place

/-- Where a path starts. -/
def origin (w : Place) (p : Path) : Location :=
  if p.isAbsolute then [] else w.current

/-- The location that a path means, whether something is there or not. -/
def locate (w : Place) (p : Path) : Except FileError Location :=
  if p.text.isEmpty then .error .notFound
  else do
    let l ← w.tree.walk (w.origin p) p.names
    if p.endsInSlash then w.tree.requireDirectory l
    pure l

/-- The file or directory at a path. -/
def node (w : Place) (p : Path) : Except FileError Node := do
  match w.tree.lookup (← w.locate p) with
  | some n => pure n
  | none => throw .notFound

def pathExists (w : Place) (p : Path) : Bool :=
  (w.node p).isOk

def isDirectory (w : Place) (p : Path) : Bool :=
  match w.node p with
  | .ok .directory => true
  | _ => false

def isFile (w : Place) (p : Path) : Bool :=
  match w.node p with
  | .ok (.file ..) => true
  | _ => false

/-- The bytes of a file. -/
def read (w : Place) (p : Path) : Except FileError ByteArray := do
  match ← w.node p with
  | .file content _ => pure content
  | .directory => throw .isDirectory

/-- The text of a file. -/
def readText (w : Place) (p : Path) : Except FileError String := do
  match String.fromUTF8? (← w.read p) with
  | some text => pure text
  | none => throw .notText

/-- The absolute path of a location. -/
def pathOf (l : Location) : Path :=
  ⟨"/" ++ Text.join "/" l⟩

/-- The absolute path of an existing file or directory. -/
def canonical (w : Place) (p : Path) : Except FileError Path := do
  let l ← w.locate p
  match w.tree.lookup l with
  | some _ => pure (pathOf l)
  | none => throw .notFound

/-- The directory that holds the last name of a path, and that name. -/
def holder (w : Place) (p : Path) : Except FileError (Location × Option String) :=
  if p.text.isEmpty then .error .notFound
  else do
    let l ← w.tree.walk (w.origin p) p.names.dropLast
    w.tree.requireDirectory l
    pure (l, p.names.getLast?)

/-- Writes a file; its directory has to be there. -/
def write (w : Place) (p : Path) (content : ByteArray) (time : Nat) :
    Except FileError FileTree := do
  match ← w.holder p with
  | (_, none) => throw .isDirectory
  | (l, some name) =>
    if name = "." ∨ name = ".." ∨ p.endsInSlash then throw .isDirectory
    match w.tree.lookup (l ++ [name]) with
    | some .directory => throw .isDirectory
    | _ => pure (w.tree.set (l ++ [name]) (.file content time))

/-- Makes one directory. -/
def makeDirectory (w : Place) (p : Path) : Except FileError FileTree := do
  match ← w.holder p with
  | (_, none) => throw .alreadyExists
  | (l, some name) =>
    if name = "." ∨ name = ".." then throw .alreadyExists
    match w.tree.lookup (l ++ [name]) with
    | some _ => throw .alreadyExists
    | none => pure (w.tree.set (l ++ [name]) .directory)

/-- Makes a directory and those missing above it, at most as many as the first argument says. What
was made before a refusal stays. -/
def makeAncestors : Nat → Place → Path → FileTree × Except FileError Unit
  | depth, w, p =>
    if p.text.isEmpty then (w.tree, .ok ())
    else match w.makeDirectory p with
      | .ok tree => (tree, .ok ())
      | .error .notFound =>
        match depth, p.parent with
        | depth + 1, some up =>
          match makeAncestors depth w up with
          | (tree, .error e) => (tree, .error e)
          | (tree, .ok ()) =>
            match { w with tree := tree }.makeDirectory p with
            | .ok tree => (tree, .ok ())
            | .error e =>
              if { w with tree := tree }.isDirectory p then (tree, .ok ()) else (tree, .error e)
        | _, _ => (w.tree, .error .notFound)
      | .error e => if w.isDirectory p then (w.tree, .ok ()) else (w.tree, .error e)

/-- Makes a directory and those missing above it. -/
def makeDirectories (w : Place) (p : Path) : FileTree × Except FileError Unit :=
  makeAncestors p.parts.length w p

/-- Removes a directory with everything below it. A path that ends in a dot or in two names no
directory that could be removed: its contents go, and the directory stays. -/
def removeDirectory (w : Place) (p : Path) : FileTree × Except FileError Unit :=
  match w.locate p with
  | .error e => (w.tree, .error e)
  | .ok l =>
    match w.tree.lookup l with
    | none => (w.tree, .error .notFound)
    | some (.file ..) => (w.tree, .error .notDirectory)
    | some .directory =>
      match p.names.getLast? with
      | none => (w.tree.clear l, .error .busy)
      | some "." => (w.tree.clear l, .error .invalidArgument)
      | some ".." => (w.tree.clear l, .error .notEmpty)
      | some _ => (w.tree.prune l, .ok ())

/-- Removes a file. -/
def removeFile (w : Place) (p : Path) : Except FileError FileTree := do
  match ← w.holder p with
  | (_, none) => throw .isDirectory
  | (l, some name) =>
    if name = "." ∨ name = ".." then throw .isDirectory
    match w.tree.lookup (l ++ [name]) with
    | none => throw .notFound
    | some .directory => throw .isDirectory
    | some (.file ..) =>
      if p.endsInSlash then throw .notDirectory
      pure (w.tree.prune (l ++ [name]))

end Place

end DesignTokens
