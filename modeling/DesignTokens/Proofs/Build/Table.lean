import DesignTokens.Build.Report
import DesignTokens.Proofs.Text.Blanks
import DesignTokens.Proofs.Text.Digits
import DesignTokens.Proofs.Text.Lines
import Mathlib.Data.List.Forall2

/-!
The table of a report. A column is as wide as its longest cell has bytes, so there is room for the
characters of every cell; a row ends in a duration, and nothing is trimmed from that. So all lines are
as long as the line of dashes.
-/

namespace DesignTokens

open Text

section Cells

theorem break_notMem_times {s : String} (h : '\n' ∉ s.toList) (n : Nat) :
    '\n' ∉ (times s n).toList := by
  induction n with
  | zero => exact List.not_mem_nil
  | succ n ih =>
      rw [times, String.toList_append, List.mem_append, not_or]
      exact ⟨h, ih⟩

theorem break_notMem_fixedPlaces (places num den : Nat) :
    '\n' ∉ (fixedPlaces places num den).toList := by
  simp only [fixedPlaces, zeroPadded, String.toList_append, List.mem_append, not_or]
  exact ⟨⟨notMem_repr rfl _, by decide⟩, break_notMem_times (by decide) _, notMem_repr rfl _⟩

theorem sizeUnit_mem {size bytes : Nat} {units : List String} (hne : units ≠ []) :
    (sizeUnit size bytes units).1 ∈ units := by
  induction units generalizing bytes with
  | nil => exact absurd rfl hne
  | cons unit rest ih =>
      cases rest with
      | nil => exact List.mem_singleton_self unit
      | cons next rest =>
          rw [sizeUnit]
          split
          · exact List.mem_cons_self
          · exact List.mem_cons_of_mem _ (ih (List.cons_ne_nil next rest))

theorem break_notMem_formatBytes (n : Nat) : '\n' ∉ (formatBytes n).toList := by
  rw [formatBytes]
  split
  · rw [String.toList_append, List.mem_append, not_or]
    exact ⟨notMem_repr rfl n, by decide⟩
  · have hunits : ∀ unit ∈ sizeUnits, '\n' ∉ unit.toList := by decide
    simp only [String.toList_append, List.mem_append, not_or]
    exact ⟨⟨break_notMem_fixedPlaces _ _ _, by decide⟩,
      hunits _ (sizeUnit_mem (List.cons_ne_nil _ _))⟩

/-- A duration ends in its unit. -/
theorem formatDuration_eq (ms : Nat) :
    ∃ front, (formatDuration ms).toList = front ++ ['s'] ∧ '\n' ∉ front := by
  rw [formatDuration]
  split
  · refine ⟨ms.repr.toList ++ [' ', 'm'], by rw [String.toList_append, List.append_assoc]; rfl, ?_⟩
    rw [List.mem_append, not_or]
    exact ⟨notMem_repr rfl ms, by decide⟩
  · refine ⟨(fixedPlaces 2 _ _).toList ++ [' '],
      by rw [String.toList_append, List.append_assoc]; rfl, ?_⟩
    rw [List.mem_append, not_or]
    exact ⟨break_notMem_fixedPlaces _ _ _, by decide⟩

end Cells

namespace BuildReport

/-- A field of a table holds a cell in full, and blanks behind it up to the width. -/
def FilledEnd (width : Nat) (cell : String) (field : List Char) : Prop :=
  ∃ blanks, field = cell.toList ++ List.replicate blanks ' ' ∧ field.length = width

/-- A field of a table holds a cell in full, and blanks in front of it up to the width. -/
def FilledStart (width : Nat) (cell : String) (field : List Char) : Prop :=
  ∃ blanks, field = List.replicate blanks ' ' ++ cell.toList ∧ field.length = width

theorem filledEnd_padEnd {width : Nat} {cell : String} (h : cell.utf8ByteSize ≤ width) :
    FilledEnd width cell (padEnd width cell).toList := by
  have hlength := length_le_utf8ByteSize cell
  refine ⟨width - cell.length, toList_padEnd width cell, ?_⟩
  rw [toList_padEnd, List.length_append, List.length_replicate, String.length_toList]
  omega

theorem filledStart_padStart {width : Nat} {cell : String} (h : cell.utf8ByteSize ≤ width) :
    FilledStart width cell (padStart width cell).toList := by
  have hlength := length_le_utf8ByteSize cell
  refine ⟨width - cell.length, toList_padStart width cell, ?_⟩
  rw [toList_padStart, List.length_append, List.length_replicate, String.length_toList]
  omega

/-- What stands between two columns. -/
def gap : List Char := [' ', ' ']

/-- A line shows the cells of a row in columns. -/
def Row.Shown (w : Widths) (row : Row) (line : List Char) : Prop :=
  ∃ layer status files size duration,
    FilledEnd w.layer row.layer layer ∧ FilledEnd w.status row.status status ∧
    FilledStart w.files row.files files ∧ FilledStart w.size row.size size ∧
    FilledStart w.duration row.duration duration ∧
    line = layer ++ gap ++ status ++ gap ++ files ++ gap ++ size ++ gap ++ duration

variable {w : Widths} {row : Row} {line : List Char}

theorem Row.Shown.length_eq (h : row.Shown w line) : line.length = w.total + 8 := by
  obtain ⟨layer, status, files, size, duration, ⟨-, -, hlayer⟩, ⟨-, -, hstatus⟩, ⟨-, -, hfiles⟩,
    ⟨-, -, hsize⟩, ⟨-, -, hduration⟩, rfl⟩ := h
  have hgap : gap.length = 2 := rfl
  simp only [List.length_append, Widths.total]
  omega

/-- The columns are wide enough for the bytes of a row. -/
structure Widths.Covers (w : Widths) (row : Row) : Prop where
  layer : row.layer.utf8ByteSize ≤ w.layer
  status : row.status.utf8ByteSize ≤ w.status
  files : row.files.utf8ByteSize ≤ w.files
  size : row.size.utf8ByteSize ≤ w.size
  duration : row.duration.utf8ByteSize ≤ w.duration

theorem Widths.covers_cover (w : Widths) (row : Row) : (w.cover row).Covers row where
  layer := Nat.le_max_right _ _
  status := Nat.le_max_right _ _
  files := Nat.le_max_right _ _
  size := Nat.le_max_right _ _
  duration := Nat.le_max_right _ _

theorem Widths.Covers.cover (h : w.Covers row) (other : Row) : (w.cover other).Covers row where
  layer := h.layer.trans (Nat.le_max_left _ _)
  status := h.status.trans (Nat.le_max_left _ _)
  files := h.files.trans (Nat.le_max_left _ _)
  size := h.size.trans (Nat.le_max_left _ _)
  duration := h.duration.trans (Nat.le_max_left _ _)

theorem Widths.Covers.foldl (h : w.Covers row) (rows : List Row) :
    (rows.foldl Widths.cover w).Covers row := by
  induction rows generalizing w with
  | nil => exact h
  | cons other rows ih => exact ih (h.cover other)

/-- The widths of a table are enough for all of its rows. -/
theorem covers_widths {rows : List Row} (h : row ∈ rows) : (widths rows).Covers row := by
  rw [widths]
  generalize (⟨0, 0, 0, 0, 0⟩ : Widths) = w
  induction rows generalizing w with
  | nil => exact absurd h List.not_mem_nil
  | cons other rows ih =>
      rcases List.mem_cons.mp h with rfl | h
      · exact (w.covers_cover row).foldl rows
      · exact ih h (w.cover other)

/-- Trimming leaves a row as it is, for its last cell ends in no blank. -/
theorem shown_line (hw : w.Covers row) {front : List Char} {c : Char} (hc : isBlank c = false)
    (hend : row.duration.toList = front ++ [c]) : row.Shown w (row.line w).toList := by
  refine ⟨_, _, _, _, _, filledEnd_padEnd hw.layer, filledEnd_padEnd hw.status,
    filledStart_padStart hw.files, filledStart_padStart hw.size,
    filledStart_padStart hw.duration, ?_⟩
  rw [Row.line, String.toList_ofList, toList_padStart w.duration row.duration, hend]
  simp only [String.toList_append, toList_padStart w.duration row.duration, hend,
    ← List.append_assoc]
  exact trimEnd_append hc _ []

/-- Nothing but a cell can break a line. -/
theorem Row.Shown.break_notMem (h : row.Shown w line)
    (hcells : ∀ cell ∈ row.cells, '\n' ∉ cell.toList) : '\n' ∉ line := by
  obtain ⟨layer, status, files, size, duration, ⟨_, hlayer, -⟩, ⟨_, hstatus, -⟩, ⟨_, hfiles, -⟩,
    ⟨_, hsize, -⟩, ⟨_, hduration, -⟩, rfl⟩ := h
  have hgap : '\n' ∉ gap := by decide
  have hblanks : ∀ n, '\n' ∉ List.replicate n ' ' := fun n hmem =>
    absurd (List.eq_of_mem_replicate hmem) (by decide)
  simp only [Row.cells, List.forall_mem_cons] at hcells
  simp only [hlayer, hstatus, hfiles, hsize, hduration, List.mem_append, hcells, hgap, hblanks,
    or_self, not_false_iff]

theorem toList_dashes (w : Widths) : (dashes w).toList = List.replicate (w.total + 8) '-' :=
  toList_times '-' _

theorem break_notMem_statusText (result : LayerResult) : '\n' ∉ (statusText result).toList := by
  rw [statusText]
  split
  · split <;> decide
  · decide

variable {r : BuildReport}

theorem shown_headings (r : BuildReport) :
    headings.Shown (widths r.rows) (headings.line (widths r.rows)).toList := by
  have hend : headings.duration.toList = "Duratio".toList ++ ['n'] := rfl
  exact shown_line (covers_widths List.mem_cons_self) rfl hend

theorem shown_rowOf {result : LayerResult} (h : result ∈ r.results) :
    (rowOf result).Shown (widths r.rows) ((rowOf result).line (widths r.rows)).toList := by
  obtain ⟨front, hend, -⟩ := formatDuration_eq result.duration
  have hmem : rowOf result ∈ r.rows :=
    List.mem_append_left _ (List.mem_cons_of_mem _ (List.mem_map_of_mem h))
  exact shown_line (covers_widths hmem) rfl hend

theorem shown_totals (r : BuildReport) :
    r.totals.Shown (widths r.rows) (r.totals.line (widths r.rows)).toList := by
  obtain ⟨front, hend, -⟩ := formatDuration_eq r.duration
  have hmem : r.totals ∈ r.rows := List.mem_append_right _ (List.mem_singleton_self _)
  exact shown_line (covers_widths hmem) rfl hend

theorem break_notMem_formatDuration (ms : Nat) : '\n' ∉ (formatDuration ms).toList := by
  obtain ⟨front, hend, hfront⟩ := formatDuration_eq ms
  rw [hend, List.mem_append, not_or]
  exact ⟨hfront, by decide⟩

theorem break_notMem_rowOf {result : LayerResult} (h : '\n' ∉ result.layer.toList) :
    ∀ cell ∈ (rowOf result).cells, '\n' ∉ cell.toList := by
  simp only [Row.cells, rowOf, List.forall_mem_cons]
  exact ⟨h, break_notMem_statusText result, notMem_repr rfl _, break_notMem_formatBytes _,
    break_notMem_formatDuration _, fun _ hcell => absurd hcell List.not_mem_nil⟩

theorem break_notMem_totals (r : BuildReport) : ∀ cell ∈ r.totals.cells, '\n' ∉ cell.toList := by
  have hstatus : '\n' ∉ (if r.success then "ok" else "FAILED").toList := by
    split <;> decide
  simp only [Row.cells, totals, List.forall_mem_cons]
  exact ⟨by decide, hstatus, notMem_repr rfl _, break_notMem_formatBytes _,
    break_notMem_formatDuration _, fun _ hcell => absurd hcell List.not_mem_nil⟩

theorem toList_foldl_lines (lines : List String) (text : String) :
    (lines.foldl (fun text line => text ++ line ++ "\n") text).toList =
      text.toList ++ (lines.map String.toList).flatMap (· ++ ['\n']) := by
  induction lines generalizing text with
  | nil => exact (List.append_nil _).symm
  | cons line lines ih =>
      rw [List.foldl_cons, ih, List.map_cons, List.flatMap_cons, String.toList_append,
        String.toList_append, List.append_assoc, List.append_assoc, List.append_assoc]
      rfl

theorem toList_summary (r : BuildReport) :
    r.summary.toList =
      (r.tableLines.map String.toList).flatMap (· ++ ['\n']) ++ (errorText r.results).toList := by
  rw [summary, String.toList_append, toList_foldl_lines, String.toList_empty, List.nil_append]

/-- The summary of a build starts with a table: headings, dashes, a line for each layer and one of
totals. Every cell stands in its column in full, the columns are the same in all lines, and all lines
have one length. -/
theorem summary_aligned (hnames : ∀ result ∈ r.results, '\n' ∉ result.layer.toList) :
    ∃ (w : Widths) (header rule : List Char) (rows : List (List Char)) (last : List Char),
      (splitAt '\n' r.summary.toList).take (r.results.length + 3) =
          header :: rule :: (rows ++ [last]) ∧
        headings.Shown w header ∧ rule = List.replicate (w.total + 8) '-' ∧
        List.Forall₂ (fun result row => (rowOf result).Shown w row) r.results rows ∧
        r.totals.Shown w last ∧
        ∀ line ∈ header :: rule :: (rows ++ [last]), line.length = w.total + 8 := by
  have hheader := shown_headings r
  have hlast := shown_totals r
  have hrows : List.Forall₂ (fun result row => (rowOf result).Shown (widths r.rows) row) r.results
      (r.results.map fun result => ((rowOf result).line (widths r.rows)).toList) := by
    rw [List.forall₂_map_right_iff, List.forall₂_same]
    exact fun result hresult => shown_rowOf hresult
  have hlines : r.tableLines.map String.toList =
      (headings.line (widths r.rows)).toList :: List.replicate ((widths r.rows).total + 8) '-' ::
        ((r.results.map fun result => ((rowOf result).line (widths r.rows)).toList) ++
          [(r.totals.line (widths r.rows)).toList]) := by
    simp only [tableLines, List.map_cons, List.map_append, List.map_map, List.map_nil,
      toList_dashes, Function.comp_def, List.cons_append]
  have hbreaks : ∀ line ∈ r.tableLines.map String.toList, '\n' ∉ line := by
    rw [hlines, List.forall_mem_cons, List.forall_mem_cons, List.forall_mem_append,
      List.forall_mem_map, List.forall_mem_singleton]
    refine ⟨hheader.break_notMem (by decide), ?_, ?_, hlast.break_notMem (break_notMem_totals r)⟩
    · exact fun hmem => absurd (List.eq_of_mem_replicate hmem) (by decide)
    · exact fun result hresult =>
        (shown_rowOf hresult).break_notMem (break_notMem_rowOf (hnames result hresult))
  refine ⟨widths r.rows, _, _, _, _, ?_, hheader, rfl, hrows, hlast, ?_⟩
  · rw [toList_summary, splitAt_flatMap_append hbreaks, ← hlines, List.take_left']
    simp [tableLines]
  · rw [List.forall_mem_cons, List.forall_mem_cons, List.forall_mem_append, List.forall_mem_map,
      List.forall_mem_singleton]
    exact ⟨hheader.length_eq, List.length_replicate, fun result hresult =>
      (shown_rowOf hresult).length_eq, hlast.length_eq⟩

/-- A layer with a name outside of ASCII, and one that failed. -/
def mixedReport : BuildReport :=
  ⟨[.built "größenübersicht" [⟨⟨"dist/a.css"⟩, 1048575⟩] 12, .failed "日本" "boom" 1250], 1262⟩

/-- The name of the first layer has 15 characters in 17 bytes. -/
theorem summary_aligned_mixed :
    (∀ result ∈ mixedReport.results, '\n' ∉ result.layer.toList) ∧
      ∃ width, ∀ line ∈ (splitAt '\n' mixedReport.summary.toList).take 5, line.length = width := by
  have hnames : ∀ result ∈ mixedReport.results, '\n' ∉ result.layer.toList := by decide
  obtain ⟨w, header, rule, rows, last, hlines, -, -, -, -, hlength⟩ := summary_aligned hnames
  exact ⟨hnames, _, hlines ▸ hlength⟩

end BuildReport

end DesignTokens
