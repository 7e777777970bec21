import DesignTokens.Cache.File
import DesignTokens.Layer.Discovery
import DesignTokens.Sha256

/-!
Whether a layer has to be built again. It is up to date if its sources have the hashes of its cache
entry, its outputs are there, and no source was changed after the oldest output was written.
-/

namespace DesignTokens

namespace Place

/-- The hash of a file's contents. -/
def hashFile (w : Place) (p : Path) : Except TokenError String :=
  match w.read p with
  | .ok content => .ok (Sha256.hexDigest content)
  | .error e => .error (.file p e)

/-- The name of a source file in cache entries: its absolute path. -/
def cacheKey (w : Place) (p : Path) : String :=
  match w.canonical p with
  | .ok absolute => absolute.text
  | .error _ => p.text

/-- Keys and hashes of files, in their order. -/
def hashEach (w : Place) : List Path → Except TokenError (List (String × String))
  | [] => .ok []
  | p :: rest =>
    match w.hashFile p with
    | .error e => .error e
    | .ok hash => (w.hashEach rest).map fun more => (w.cacheKey p, hash) :: more

/-- The hashes of the `json` files below a directory. -/
def fingerprint (w : Place) (dir : Path) : Except TokenError Fingerprint :=
  (w.hashEach (w.jsonFiles dir)).map Keyed.sortedOf

/-- The modification times of the files below a directory. -/
def timesBelow (w : Place) (dir : Path) : List Nat :=
  (w.filesBelow dir).filterMap fun file =>
    match w.tree.lookup file.2 with
    | some (.file _ modified) => some modified
    | _ => none

/-- The modification times of the files below directories, or the first directory that is missing
or holds no file. -/
def outputTimes (w : Place) : List Path → Except Path (List Nat)
  | [] => .ok []
  | dir :: rest =>
    match w.timesBelow dir with
    | [] => .error dir
    | times => (w.outputTimes rest).map fun more => times ++ more

/-- The time of the oldest file below directories, or the first directory that is missing or holds
no file. -/
def oldestOutput (w : Place) (dirs : List Path) : Except Path Nat :=
  match w.outputTimes dirs with
  | .error dir => .error dir
  | .ok [] => .error (dirs.headD ⟨""⟩)
  | .ok (time :: times) => .ok (times.foldl min time)

end Place

/-- Why a layer has to be built again. -/
inductive RebuildReason where
  | forced
  /-- An earlier layer is built again in the same run. -/
  | dependencyRebuilt
  | noCacheEntry
  | outputMissing (path : Path)
  | sourceChanged (path : Path)
  | sourceAdded (path : Path)
  | sourceRemoved (path : Path)
  | sourceNewerThanOutput (path : Path)
  | unreadable (reason : String)
deriving DecidableEq, Repr

def RebuildReason.message : RebuildReason → String
  | forced => "rebuild forced"
  | dependencyRebuilt => "a dependency layer was rebuilt"
  | noCacheEntry => "no cache entry"
  | outputMissing path => "output missing: " ++ path.text
  | sourceChanged path => "source changed: " ++ path.text
  | sourceAdded path => "source added: " ++ path.text
  | sourceRemoved path => "source removed: " ++ path.text
  | sourceNewerThanOutput path => "source newer than output: " ++ path.text
  | unreadable reason => "sources unreadable: " ++ reason

/-- What to do with a layer. -/
inductive Decision where
  | upToDate
  | rebuild (reason : RebuildReason)
deriving DecidableEq, Repr

def Decision.needsRebuild : Decision → Bool
  | upToDate => false
  | rebuild _ => true

namespace Fingerprint

/-- The first source that a recorded fingerprint does not have, or has with another hash. -/
def firstDifference (recorded : Fingerprint) : Fingerprint → Option RebuildReason
  | [] => none
  | (file, hash) :: rest =>
    match Keyed.get? file recorded with
    | none => some (.sourceAdded ⟨file⟩)
    | some cached => if cached = hash then firstDifference recorded rest
      else some (.sourceChanged ⟨file⟩)

/-- The first source of a recorded fingerprint that is no longer there. -/
def firstRemoved (current recorded : Fingerprint) : Option RebuildReason :=
  (recorded.find? fun entry => (Keyed.get? entry.1 current).isNone).map fun entry =>
    .sourceRemoved ⟨entry.1⟩

/-- The first source that was changed after a point in time. -/
def firstNewer (w : Place) (time : Nat) : Fingerprint → Option RebuildReason
  | [] => none
  | (file, _) :: rest =>
    match w.node ⟨file⟩ with
    | .ok (.file _ modified) =>
      if time < modified then some (.sourceNewerThanOutput ⟨file⟩) else firstNewer w time rest
    | .ok .directory => firstNewer w time rest
    | .error e => some (.unreadable (file ++ ": " ++ e.message))

end Fingerprint

/-- What to do with a layer, by its cache entry, its sources and its outputs. A layer that had no
sources and still has none is up to date whatever its outputs are. -/
def CacheStore.decide (s : CacheStore) (w : Place) (layer : String) (sourceDir : Path)
    (outputDirs : List Path) : Decision :=
  match s.entry? layer with
  | none => .rebuild .noCacheEntry
  | some entry =>
    match w.fingerprint sourceDir with
    | .error e => .rebuild (.unreadable e.message)
    | .ok current =>
      if current.isEmpty && entry.hashes.isEmpty then .upToDate
      else match w.oldestOutput outputDirs with
        | .error dir => .rebuild (.outputMissing dir)
        | .ok oldest =>
          let difference := (Fingerprint.firstDifference entry.hashes current).or
            ((Fingerprint.firstRemoved current entry.hashes).or
              (Fingerprint.firstNewer w oldest current))
          match difference with
          | some reason => .rebuild reason
          | none => .upToDate

end DesignTokens
