import DesignTokens.Json.Fault
import DesignTokens.Json.Printer
import DesignTokens.Keyed
import DesignTokens.Workspace.Job

/-!
Cache entries and where they are kept: in memory, or also in a file. An entry tells which sources a
layer was last built from, by their absolute paths and hashes.
-/

namespace DesignTokens

/-- Hashes of source files by absolute path, in ascending order. -/
abbrev Fingerprint := List (String × String)

structure CacheEntry where
  layer : String
  /-- Milliseconds since 1970. -/
  timestamp : Nat
  hashes : Fingerprint
deriving DecidableEq, Repr

/-- Why a cache file cannot be used. -/
inductive CacheError where
  | file (path : Path) (cause : FileError)
  | json (path : Path) (cause : Json.ReadError)
deriving DecidableEq, Repr

def CacheError.message : CacheError → String
  | file path cause =>
    "Cache file " ++ path.text ++ " could not be accessed: " ++ cause.message
  | json path cause => "Cache file " ++ path.text ++ " is malformed: " ++ cause.message

/-- Entries by layer name in ascending order, and the file they are written to. -/
structure CacheStore where
  path : Option Path
  entries : List (String × CacheEntry)
deriving DecidableEq, Repr

namespace CacheStore

/-- An empty store without a file. -/
def memory : CacheStore := ⟨none, []⟩

/-- An empty store with a file. -/
def emptyAt (p : Path) : CacheStore := ⟨some p, []⟩

def entry? (s : CacheStore) (layer : String) : Option CacheEntry :=
  Keyed.get? layer s.entries

/-- Stores an entry in place of the layer's earlier one. -/
def replace (s : CacheStore) (entry : CacheEntry) : CacheStore :=
  { s with entries := Keyed.putSorted entry.layer entry s.entries }

/-- Drops the entry of a layer. -/
def remove (s : CacheStore) (layer : String) : CacheStore :=
  { s with entries := Keyed.erase layer s.entries }

/-- An entry as it stands in a cache file. -/
def entryText (entry : CacheEntry) : String :=
  Json.indentedObject 1
    [("timestamp", entry.timestamp.repr),
     ("files", Json.indentedObject 2 (entry.hashes.map fun h => (h.1, Json.quote h.2)))]

/-- The contents of a cache file. -/
def text (s : CacheStore) : String :=
  Json.indentedObject 0 (s.entries.map fun e => (e.1, entryText e.2))

/-- Writes the entries to the store's file, if it has one. -/
def flush (s : CacheStore) : Job CacheError Unit := do
  match s.path with
  | none => pure ()
  | some p => Job.writeText (fun _ => .file p) (.file p) p s.text

end CacheStore

end DesignTokens
