import DesignTokens.CommandLine.Footprint
import DesignTokens.Workspace.Change
import Std.Time.DateTime.Timestamp

/-!
The program: it reads the files that its command works on, runs the command on them, and then makes
the changes and prints what the command has to say.
-/

namespace DesignTokens.Main

/-- What is on disk at a location. -/
def nodeOnDisk (l : Location) : IO (Option Node) := do
  try
    let path ← IO.FS.realPath (Place.pathOf l).text
    let about ← path.metadata
    match about.type with
    | .dir => return some .directory
    | .file =>
      let time := about.modified.sec * 1000000000 + about.modified.nsec.toNat
      return some (.file (← IO.FS.readBinFile path) time.toNat)
    | _ => return none
  catch _ => return none

/-- Adds everything below a location to a tree. -/
partial def addBelow (t : FileTree) (l : Location) : IO FileTree := do
  let path ← IO.FS.realPath (Place.pathOf l).text
  let mut t := t
  for entry in ← path.readDir do
    let inner := l ++ [entry.fileName]
    if let some node ← nodeOnDisk inner then
      t := t.set inner node
      if node == .directory then t ← addBelow t inner
  return t

/-- Adds what is on the way of a path, step by step. -/
def addOnWay (t : FileTree) (l : Location) : List String → IO (FileTree × Location)
  | [] => return (t, l)
  | name :: names => do
    let l := if name = "." then l else if name = ".." then l.dropLast else l ++ [name]
    match ← nodeOnDisk l with
    | none => return (t, l)
    | some node => addOnWay (if l.isEmpty then t else t.set l node) l names

/-- Adds what an invocation works on. -/
def addFootprint (w : Place) (f : Footprint) : IO Place := do
  let (tree, l) ← addOnWay w.tree (w.origin f.path) f.path.names
  let tree ←
    if f.deep && tree.lookup l == some .directory then addBelow tree l else pure tree
  return { w with tree := tree }

/-- Makes a change on disk. -/
def perform : Change → IO Unit
  | .remove l => do
    let path := (Place.pathOf l).text
    match ← nodeOnDisk l with
    | some .directory => IO.FS.removeDirAll path
    | _ => IO.FS.removeFile path
  | .makeDirectory l => IO.FS.createDirAll (Place.pathOf l).text
  | .write l content => IO.FS.writeBinFile (Place.pathOf l).text content

/-- The current directory, with the directories that hold it. -/
def startPlace : IO Place := do
  let names := Path.names ⟨(← IO.currentDir).toString⟩
  let (tree, l) ← addOnWay FileTree.empty [] names
  return ⟨tree, l⟩

/-- The date of a build that starts at a number of seconds, unless the environment sets another
one. -/
def dateOfBuild (seconds : Int) : IO (Except BuildDateError String) := do
  match ← IO.getEnv "SOURCE_DATE_EPOCH" with
  | some epoch => return BuildDate.ofEpoch epoch
  | none => return .ok (BuildDate.text seconds)

def severityText : Severity → String
  | .warning => "WARN"
  | .error => "ERROR"

/-- Runs a command. -/
def runInvocation (i : Invocation) : IO UInt32 := do
  let now := (← Std.Time.Timestamp.now).toNanosecondsSinceUnixEpoch.val
  let mut w ← startPlace
  -- The configuration and the tokens each tell where more files are.
  for _ in [0, 1, 2] do
    for f in Footprint.ofInvocation w i do
      w ← addFootprint w f
  let start : Workspace := ⟨w, now.toNat, (now / 1000000).toNat, []⟩
  let (result, finish) := (i.command.run i.config (← dateOfBuild (now / 1000000000))).run.run start
  for change in w.tree.changesTo finish.place.tree do
    perform change
  for notice in finish.notices do
    IO.eprintln (severityText notice.severity ++ " " ++ notice.message)
  match result with
  | .ok outcome =>
    IO.print outcome.output
    return if outcome.success then 0 else 1
  | .error e =>
    IO.eprintln ("ERROR " ++ e.message)
    return 1

def usageText : String :=
  Text.join "\n" [
    "Compile layered design tokens into CSS custom properties and typed modules", "",
    "Usage: sando [OPTIONS] <COMMAND>", "",
    "Commands:",
    "  build [--force] [--layer <LAYER>]  Build stale layers and print a summary",
    "  status                             Show whether each layer needs a rebuild",
    "  list                               List discovered layers, flavors and modes",
    "  clean                              Remove generated output and the build cache",
    "  init [PATH] [--name <NAME>]        Create sando.toml and a starter token tree", "",
    "Options:",
    "  -c, --config <CONFIG>  Path to sando.toml or the directory holding it",
    "  -v, --verbose          Log debug output",
    "  -q, --quiet            Only log warnings and errors",
    "  -h, --help             Print help",
    "  -V, --version          Print version"]

def usageMessage : UsageError → String
  | .unknownArgument => "unexpected argument"
  | .unknownCommand => "unrecognized subcommand"
  | .invalidValue => "a value is required"
  | .needlessValue => "unexpected value"
  | .conflict => "arguments cannot be used together or twice"
  | .noCommand => "a subcommand is required"
  | .noArguments => "a subcommand is required"
  | .helpWanted => "help"
  | .versionWanted => "version"

/-- Says what is wrong with the arguments, or what they ask for instead of a command. -/
def explain : UsageError → IO UInt32
  | .helpWanted => do
    IO.println usageText
    return 0
  | .versionWanted => do
    IO.println "sando 0.1.0"
    return 0
  | .noArguments => do
    IO.eprintln usageText
    return 2
  | e => do
    IO.eprintln ("error: " ++ usageMessage e)
    return 2

end DesignTokens.Main

def main (arguments : List String) : IO UInt32 := do
  match DesignTokens.CommandLine.parse arguments with
  | .ok i => DesignTokens.Main.runInvocation i
  | .error e => DesignTokens.Main.explain e
