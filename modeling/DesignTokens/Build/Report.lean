import DesignTokens.Layer.Basic
import DesignTokens.Number.Decimal
import DesignTokens.Text.Blank

/-!
The report of a build: a table with one row per layer and a row of totals, then the errors.
-/

namespace DesignTokens

/-- Units of sizes from 1024 bytes on, each 1024 times the one before. -/
def sizeUnits : List String := ["KB", "MB", "GB", "TB"]

/-- The first unit in which a size is below 1024, or the last one, with the bytes it stands for. -/
def sizeUnit (size : Nat) : Nat → List String → String × Nat
  | bytes, [] => ("", bytes)
  | bytes, [last] => (last, bytes)
  | bytes, unit :: next :: rest =>
    if size < 1024 * bytes then (unit, bytes) else sizeUnit size (1024 * bytes) (next :: rest)

/-- A natural number rounded to the precision of binary64. -/
def roundedSize (n : Nat) : Nat :=
  let q := ((Magnitude.ofNat? n).getD .zero).toQuotient
  q.1 / q.2

/-- A size with its unit, from 1024 bytes on with one place. -/
def formatBytes (n : Nat) : String :=
  if n < 1024 then n.repr ++ " B"
  else
    let size := roundedSize n
    let unit := sizeUnit size 1024 sizeUnits
    fixedPlaces 1 size unit.2 ++ " " ++ unit.1

/-- A duration in milliseconds, from one second on in seconds with two places. -/
def formatDuration (ms : Nat) : String :=
  if ms < 1000 then ms.repr ++ " ms"
  else
    let seconds := ((Magnitude.nearest? (roundedSize ms) 1000).getD .zero).toQuotient
    fixedPlaces 2 seconds.1 seconds.2 ++ " s"

/-- The outcome of a build. -/
structure BuildReport where
  results : List LayerResult
  /-- Milliseconds. -/
  duration : Nat
deriving DecidableEq, Repr

namespace BuildReport

/-- Whether every layer succeeded; one that was left alone counts as a success. -/
def success (r : BuildReport) : Bool :=
  r.results.all LayerResult.success

def failed (r : BuildReport) : List LayerResult :=
  r.results.filter fun result => !result.success

def result? (r : BuildReport) (layer : String) : Option LayerResult :=
  r.results.find? fun result => result.layer == layer

/-- A row of the table. -/
structure Row where
  layer : String
  status : String
  files : String
  size : String
  duration : String
deriving DecidableEq, Repr

def Row.cells (row : Row) : List String :=
  [row.layer, row.status, row.files, row.size, row.duration]

def headings : Row := ⟨"Layer", "Status", "Files", "Size", "Duration"⟩

def statusText (result : LayerResult) : String :=
  if result.success then (if result.skipped then "up to date" else "built") else "FAILED"

def rowOf (result : LayerResult) : Row :=
  ⟨result.layer, statusText result, result.fileCount.repr, formatBytes result.totalBytes,
    formatDuration result.duration⟩

/-- The row of totals. -/
def totals (r : BuildReport) : Row :=
  ⟨"total", if r.success then "ok" else "FAILED",
    ((r.results.map LayerResult.fileCount).foldr (· + ·) 0).repr,
    formatBytes ((r.results.map LayerResult.totalBytes).foldr (· + ·) 0),
    formatDuration r.duration⟩

def rows (r : BuildReport) : List Row :=
  headings :: r.results.map rowOf ++ [r.totals]

/-- The widths of the columns. -/
structure Widths where
  layer : Nat
  status : Nat
  files : Nat
  size : Nat
  duration : Nat
deriving DecidableEq, Repr

/-- Widths that are wide enough for a row too. A cell counts with its bytes. -/
def Widths.cover (w : Widths) (row : Row) : Widths :=
  ⟨max w.layer row.layer.utf8ByteSize, max w.status row.status.utf8ByteSize,
    max w.files row.files.utf8ByteSize, max w.size row.size.utf8ByteSize,
    max w.duration row.duration.utf8ByteSize⟩

def widths (rows : List Row) : Widths :=
  rows.foldl Widths.cover ⟨0, 0, 0, 0, 0⟩

def Widths.total (w : Widths) : Nat :=
  w.layer + w.status + w.files + w.size + w.duration

/-- A row with its cells filled up to the widths, words to the left and numbers to the right. -/
def Row.line (w : Widths) (row : Row) : String :=
  let cells := Text.padEnd w.layer row.layer ++ "  " ++ Text.padEnd w.status row.status ++ "  " ++
    Text.padStart w.files row.files ++ "  " ++ Text.padStart w.size row.size ++ "  " ++
    Text.padStart w.duration row.duration
  String.ofList (Text.trimEnd cells.toList)

/-- The line under the headings. -/
def dashes (w : Widths) : String :=
  Text.times "-" (w.total + 8)

/-- The lines of the table. -/
def tableLines (r : BuildReport) : List String :=
  let w := widths r.rows
  headings.line w :: dashes w :: (r.results.map fun result => (rowOf result).line w) ++
    [r.totals.line w]

/-- The errors under the table. -/
def errorText (results : List LayerResult) : String :=
  results.foldl (fun text result =>
    match result.errorMessage with
    | some message => text ++ "\n" ++ result.layer ++ ": " ++ message ++ "\n"
    | none => text) ""

/-- The table and the errors. -/
def summary (r : BuildReport) : String :=
  (r.tableLines.foldl (fun text line => text ++ line ++ "\n") "") ++ errorText r.results

end BuildReport

end DesignTokens
