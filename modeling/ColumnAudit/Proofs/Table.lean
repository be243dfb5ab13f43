import ColumnAudit.Audit.Report
import ColumnAudit.Proofs.Text.Blank
import Mathlib.Data.List.Forall2
import Mathlib.Data.List.Induction
import Mathlib.Order.Bounds.Basic
import Mathlib.Order.MinMax

/-! # The layout of tables

A table is built up from its headers by calls that align a column or add a row (`built`), in any order.
Putting a cell on one line does not change its width (`width_onOneLine`), and a column is as wide as
the widest of its cells, so every cell is filled up to the width of its column and none is cut
(`fills_cellText`). A row thus stays on its line whatever its cells hold (`render_layout`).
-/

namespace ColumnAudit.Table
open Text
set_option autoImplicit false

/-! ## Cells -/

theorem widthFrom_map_onOneLine (escape : Bool) (t : List Char) :
    widthFrom escape (t.map fun c => if c = '\n' ∨ c = '\r' ∨ c = '\t' then ' ' else c) =
      widthFrom escape t := by
  induction t generalizing escape with
  | nil => rfl
  | cons c t ih =>
    rw [List.map_cons]
    split
    · rename_i hc
      rcases hc with rfl | rfl | rfl <;> simp [widthFrom, ih]
    · rw [widthFrom, widthFrom, ih, ih, ih]

/-- Putting a cell on one line keeps its width. -/
theorem width_onOneLine (cell : String) : width (onOneLine cell) = width cell := by
  rw [width, onOneLine, String.toList_ofList, widthFrom_map_onOneLine, width]

theorem newline_not_mem_onOneLine (cell : String) : '\n' ∉ (onOneLine cell).toList := by
  rw [onOneLine, String.toList_ofList, List.mem_map]
  rintro ⟨c, -, hc⟩
  split at hc
  · cases hc
  · rename_i hplain
    exact hplain (.inl hc)

/-- A text of one character many times. -/
def repeated (c : Char) (n : Nat) : String := String.ofList (List.replicate n c)

theorem pushn_eq_repeated (c : Char) (n : Nat) : "".pushn c n = repeated c n := by
  rw [String.pushn_eq_repeat_push, repeated]
  induction n with
  | zero => rfl
  | succ n ih =>
    rw [Nat.repeat, ih, ← String.toList_inj, String.toList_push, String.toList_ofList,
      String.toList_ofList, List.replicate_succ']

theorem width_dashes (n : Nat) : width (repeated '-' n) = n := by
  rw [width, repeated, String.toList_ofList]
  induction n with
  | zero => rfl
  | succ n ih =>
    rw [List.replicate_succ, widthFrom]
    simp [ih]

/-- The text of a cell in a column: its value on one line and, on the other side, as many spaces as
its value is narrower than the column. -/
def Fills (columnWidth : Nat) (side : Align) (value text : String) : Prop :=
  ∃ n, width value + n = columnWidth ∧
    text = match side with
      | .left => onOneLine value ++ repeated ' ' n
      | .right => repeated ' ' n ++ onOneLine value

theorem fills_cellText {value : String} {columnWidth : Nat} (h : width value ≤ columnWidth)
    (side : Align) : Fills columnWidth side value (cellText value columnWidth side) := by
  refine ⟨columnWidth - width value, Nat.add_sub_cancel' h, ?_⟩
  have hpadding : "".pushn ' ' (columnWidth - width (onOneLine value)) =
      repeated ' ' (columnWidth - width value) := by
    rw [width_onOneLine, pushn_eq_repeated]
  cases side with
  | left => exact congrArg (onOneLine value ++ ·) hpadding
  | right => exact congrArg (· ++ onOneLine value) hpadding

theorem Fills.newline_not_mem {columnWidth : Nat} {side : Align} {value text : String}
    (h : Fills columnWidth side value text) : '\n' ∉ text.toList := by
  obtain ⟨n, -, rfl⟩ := h
  have hspaces : '\n' ∉ (repeated ' ' n).toList := by
    rw [repeated, String.toList_ofList]
    intro hmem
    cases List.eq_of_mem_replicate hmem
  have hvalue := newline_not_mem_onOneLine value
  cases side with
  | left =>
    rw [String.toList_append, List.mem_append]
    exact not_or.2 ⟨hvalue, hspaces⟩
  | right =>
    rw [String.toList_append, List.mem_append]
    exact not_or.2 ⟨hspaces, hvalue⟩

/-! ## Columns -/

theorem isGreatest_foldl_max {α : Type} (f : α → Nat) (l : List α) (start : Nat) :
    IsGreatest {m | m = start ∨ ∃ x ∈ l, m = f x} (l.foldl (fun m x => max m (f x)) start) := by
  induction l generalizing start with
  | nil => simp [IsGreatest, upperBounds]
  | cons y l ih =>
    rw [List.foldl_cons]
    obtain ⟨hmem, hbound⟩ := ih (max start (f y))
    have hlow := hbound (.inl rfl)
    constructor
    · rcases hmem with heq | ⟨x, hx, heq⟩
      · rw [heq]
        rcases max_choice start (f y) with h | h
        · exact .inl h
        · exact .inr ⟨y, List.mem_cons_self .., h⟩
      · exact .inr ⟨x, List.mem_cons_of_mem y hx, heq⟩
    · rintro m (rfl | ⟨x, hx, rfl⟩)
      · exact (le_max_left _ _).trans hlow
      · rcases List.mem_cons.1 hx with rfl | hx
        · exact (le_max_right _ _).trans hlow
        · exact hbound (.inr ⟨x, hx, rfl⟩)

/-- The width of a column: that of its widest cell, and at least one. -/
def columnWidth (t : Table) (i : Nat) : Nat :=
  (t.headers :: t.rows).foldl (fun w row => max w (width (row.getD i ""))) 1

theorem widths_eq (t : Table) : t.widths = (List.range t.headers.length).map t.columnWidth := rfl

theorem isGreatest_columnWidth (t : Table) (i : Nat) :
    IsGreatest {m | m = 1 ∨ ∃ row ∈ t.headers :: t.rows, m = width (row.getD i "")}
      (t.columnWidth i) :=
  isGreatest_foldl_max (fun row : List String => width (row.getD i "")) (t.headers :: t.rows) 1

/-! ## Lines -/

/-- The row of dashes between the headers and the other rows. -/
def rule (columns : Nat) (columnWidth : Nat → Nat) : List String :=
  (List.range columns).map fun i => repeated '-' (columnWidth i)

/-- The line of a row: a cell for each column, two spaces between them, and no blanks at the end. -/
structure IsLine (columns : Nat) (columnWidth : Nat → Nat) (side : Nat → Align)
    (row : List String) (line : String) : Prop where
  cells : ∃ cell : Nat → String,
    (∀ i < columns, Fills (columnWidth i) (side i) (row.getD i "") (cell i)) ∧
    line = String.ofList (trimEnd ("  ".intercalate ((List.range columns).map cell)).toList)
  one_line : '\n' ∉ line.toList
  no_trailing : ∀ c ∈ line.toList.getLast?, isBlank c = false

/-- The text consists of these lines, each of them ended. -/
def HasLines (text : String) (lines : List String) : Prop :=
  text = String.join (lines.map (· ++ "\n")) ∧ ∀ line ∈ lines, '\n' ∉ line.toList

theorem isLine_of_cells {columns : Nat} {columnWidth : Nat → Nat} {side : Nat → Align}
    {row : List String} {cell : Nat → String}
    (h : ∀ i < columns, Fills (columnWidth i) (side i) (row.getD i "") (cell i)) :
    IsLine columns columnWidth side row
      (String.ofList (trimEnd ("  ".intercalate ((List.range columns).map cell)).toList)) where
  cells := ⟨cell, h, rfl⟩
  one_line := by
    rw [String.toList_ofList]
    intro hmem
    have hjoined := (trimEnd_prefix_self _).mem hmem
    rw [String.toList_intercalate] at hjoined
    refine forall_mem_intercalate (p := (· ≠ '\n')) (by simp) ?_ _ hjoined rfl
    simp only [List.mem_map, List.mem_range]
    rintro _ ⟨_, ⟨i, hi, rfl⟩, rfl⟩ c hc rfl
    exact (h i hi).newline_not_mem hc
  no_trailing := by
    rw [String.toList_ofList]
    exact isBlank_getLast?_trimEnd _

theorem map_zipIdx_map_range {α β : Type} (n : Nat) (f : Nat → α) (g : α × Nat → β) :
    ((List.range n).map f).zipIdx.map g = (List.range n).map fun i => g (f i, i) := by
  apply List.ext_getElem
  · simp
  · intro i hi hi'
    simp

/-! ## Tables -/

/-- A call that builds up a table. -/
inductive Call where
  | align (column : Nat) (side : Align)
  | row (cells : List String)

/-- The table after a call. -/
def Call.apply (t : Table) : Call → Table
  | align column side => t.align column side
  | row cells => t.addRow cells

/-- A table with these headers after calls. -/
def built (headers : List String) (calls : List Call) : Table :=
  calls.foldl Call.apply (ofHeaders headers)

/-- The rows that calls add. -/
def rowsOf (calls : List Call) : List (List String) :=
  calls.filterMap fun
    | .align .. => none
    | .row cells => some cells

/-- The sides that calls give a column, in order. -/
def sidesOf (calls : List Call) (column : Nat) : List Align :=
  calls.filterMap fun
    | .align other side => if other = column then some side else none
    | .row _ => none

/-- The side that the last call for a column gives it; without one it is the left. -/
def sideOf (calls : List Call) (column : Nat) : Align := (sidesOf calls column).getLast?.getD .left

section Built
variable (headers : List String) (calls : List Call)

theorem built_concat (call : Call) :
    built headers (calls ++ [call]) = call.apply (built headers calls) := by
  rw [built, List.foldl_append]
  rfl

theorem headers_built : (built headers calls).headers = headers := by
  induction calls using List.reverseRecOn with
  | nil => rfl
  | append_singleton calls call ih =>
    rw [built_concat]
    cases call <;> exact ih

theorem rows_built : (built headers calls).rows = rowsOf calls := by
  induction calls using List.reverseRecOn with
  | nil => rfl
  | append_singleton calls call ih =>
    rw [built_concat, rowsOf, List.filterMap_append, ← rowsOf, ← ih]
    cases call with
    | align column side => exact (List.append_nil _).symm
    | row cells => rfl

theorem length_aligns_built : (built headers calls).aligns.length = headers.length := by
  induction calls using List.reverseRecOn with
  | nil => exact List.length_map _
  | append_singleton calls call ih =>
    rw [built_concat]
    cases call with
    | align column side =>
      rw [Call.apply, Table.align, List.length_set]
      exact ih
    | row cells => exact ih

/-- Only the last call for a column of the table matters. -/
theorem getD_aligns_built {column : Nat} (h : column < headers.length) :
    (built headers calls).aligns.getD column .left = sideOf calls column := by
  induction calls using List.reverseRecOn with
  | nil => simp [built, ofHeaders, sideOf, sidesOf, h]
  | append_singleton calls call ih =>
    rw [built_concat, sideOf, sidesOf, List.filterMap_append, ← sidesOf]
    cases call with
    | align other side =>
      have hlength := length_aligns_built headers calls
      rw [Call.apply, Table.align]
      by_cases hother : other = column
      · subst hother
        simp [List.getD_eq_getElem?_getD, hlength, h]
      · rw [List.getD_eq_getElem?_getD, List.getElem?_set_ne hother, ← List.getD_eq_getElem?_getD,
          ih]
        simp [hother, sideOf]
    | row cells =>
      rw [Call.apply, Table.addRow]
      simpa [sideOf] using ih

/-- The line of a row that is not wider than the columns. -/
theorem exists_line {row : List String} (hfits : ∀ i < headers.length,
    width (row.getD i "") ≤ (built headers calls).columnWidth i) :
    ∃ shown, (built headers calls).line (built headers calls).widths row = shown ++ "\n" ∧
      IsLine headers.length (built headers calls).columnWidth (sideOf calls) row shown := by
  refine ⟨_, rfl, ?_⟩
  rw [widths_eq, map_zipIdx_map_range, headers_built]
  refine isLine_of_cells fun i hi => ?_
  dsimp only
  rw [getD_aligns_built headers calls hi]
  exact fills_cellText (hfits i hi) (sideOf calls i)

theorem exists_lines {rows : List (List String)} (hfits : ∀ row ∈ rows, ∀ i < headers.length,
    width (row.getD i "") ≤ (built headers calls).columnWidth i) :
    ∃ lines : List String,
      HasLines (String.join (rows.map ((built headers calls).line (built headers calls).widths)))
        lines ∧
      List.Forall₂ (IsLine headers.length (built headers calls).columnWidth (sideOf calls)) rows
        lines := by
  induction rows with
  | nil => exact ⟨[], ⟨rfl, nofun⟩, .nil⟩
  | cons row rows ih =>
    rw [List.forall_mem_cons] at hfits
    obtain ⟨shown, hshown, hline⟩ := exists_line headers calls hfits.1
    obtain ⟨lines, ⟨htext, hplain⟩, hlines⟩ := ih hfits.2
    refine ⟨shown :: lines, ⟨?_, ?_⟩, .cons hline hlines⟩
    · rw [List.map_cons, List.map_cons, String.join_cons, String.join_cons, hshown, htext]
    · rw [List.forall_mem_cons]
      exact ⟨hline.one_line, hplain⟩

/-- The lines of a text as the layout of a table has them: columns as wide as their widest cells, and
a line for the headers, one of dashes and one for each row. -/
structure LaidOut (headers : List String) (rows : List (List String)) (side : Nat → Align)
    (text : String) (columnWidth : Nat → Nat) (lines : List String) : Prop where
  widest : ∀ i < headers.length,
    IsGreatest {m | m = 1 ∨ ∃ row ∈ headers :: rows, m = width (row.getD i "")} (columnWidth i)
  ended : HasLines text lines
  count : lines.length = 2 + rows.length
  shown : List.Forall₂ (IsLine headers.length columnWidth side)
    (headers :: rule headers.length columnWidth :: rows) lines

theorem getD_rule {columns i : Nat} (columnWidth : Nat → Nat) (hi : i < columns) :
    (rule columns columnWidth).getD i "" = repeated '-' (columnWidth i) := by
  simp [rule, hi]

theorem exists_laidOut : ∃ (w : Nat → Nat) (lines : List String),
    LaidOut headers (rowsOf calls) (sideOf calls) (built headers calls).render w lines := by
  have hheaders := headers_built headers calls
  have hrows := rows_built headers calls
  generalize hw : (built headers calls).columnWidth = w
  have hgreatest : ∀ i, IsGreatest
      {m | m = 1 ∨ ∃ row ∈ headers :: rowsOf calls, m = width (row.getD i "")} (w i) := by
    intro i
    rw [← hw, ← hrows]
    nth_rewrite 1 [← hheaders]
    exact isGreatest_columnWidth _ i
  have hdashes : ((built headers calls).widths.map fun w => "".pushn '-' w) =
      rule headers.length w := by
    rw [widths_eq, hheaders, hw, List.map_map]
    exact List.map_congr_left fun i _ => pushn_eq_repeated '-' (w i)
  -- The dashes fill their column, so with them all rows fit and no padding is cut short.
  have hfits : ∀ row ∈ headers :: rule headers.length w :: rowsOf calls, ∀ i < headers.length,
      width (row.getD i "") ≤ (built headers calls).columnWidth i := by
    intro row hrow i hi
    rw [hw]
    rcases List.mem_cons.1 hrow with rfl | hrow
    · exact (hgreatest i).2 (.inr ⟨_, List.mem_cons_self .., rfl⟩)
    · rcases List.mem_cons.1 hrow with rfl | hrow
      · rw [getD_rule w hi, width_dashes]
      · exact (hgreatest i).2 (.inr ⟨row, List.mem_cons_of_mem _ hrow, rfl⟩)
  obtain ⟨lines, hended, hshown⟩ := exists_lines headers calls hfits
  rw [hw] at hshown
  refine ⟨w, lines, fun i _ => hgreatest i, ?_, ?_, hshown⟩
  · rw [render, hdashes, hheaders, hrows]
    exact hended
  · rw [← hshown.length_eq, List.length_cons, List.length_cons]
    omega

end Built

theorem exists_built (r : Audit.Report) :
    ∃ headers calls, r.table = built headers calls ∧ rowsOf calls = r.rows := by
  refine ⟨["scope", "file", "total", "matched", "percentage", "unmatched", "excluded_non_db"],
    [.align 2 .right, .align 3 .right, .align 4 .right] ++ r.rows.map .row, ?_, ?_⟩
  · rw [built, List.foldl_append, List.foldl_map]
    rfl
  · simp [rowsOf, List.filterMap_map]

theorem length_rows (r : Audit.Report) : r.rows.length = 3 + r.actions.size + r.types.size := by
  simp only [Audit.Report.rows, Source.ScanKind.all, List.flatMap_cons, List.flatMap_nil,
    List.append_nil, List.length_append, List.length_map, List.length_cons, List.length_nil,
    NameMap.size, Audit.Report.entries]
  omega

/-- A table has a line for its headers, one of dashes and one for each row. Each ends behind its last
character that is no blank, and before it is trimmed it has a cell for each header, which is filled
up to the width of its column. The table of a report has a line for each source and five others. -/
theorem render_layout :
    (∀ (headers : List String) (calls : List Call), ∃ (w : Nat → Nat) (lines : List String),
      LaidOut headers (rowsOf calls) (sideOf calls) (built headers calls).render w lines) ∧
    ∀ r : Audit.Report, ∃ lines, HasLines r.table.render lines ∧
      lines.length = 5 + r.actions.size + r.types.size := by
  refine ⟨exists_laidOut, fun r => ?_⟩
  obtain ⟨headers, calls, htable, hrows⟩ := exists_built r
  obtain ⟨w, lines, hlaid⟩ := exists_laidOut headers calls
  refine ⟨lines, ?_, ?_⟩
  · rw [htable]
    exact hlaid.ended
  · rw [hlaid.count, hrows, length_rows]
    omega

/-- A cell with a line end in it, a column on the right and a row that is too short. -/
theorem render_layout_short_row :
    let calls : List Call := [.row ["a\nb", "1"], .align 1 .right, .row ["c"]]
    (built ["n", "v"] calls).render = "n    v\n---  -\na b  1\nc\n" ∧ ∃ w lines,
      LaidOut ["n", "v"] (rowsOf calls) (sideOf calls) "n    v\n---  -\na b  1\nc\n" w lines ∧
        w 0 = 3 ∧ lines.length = 4 := by
  intro calls
  have htext : (built ["n", "v"] calls).render = "n    v\n---  -\na b  1\nc\n" := by decide +kernel
  obtain ⟨w, lines, hlaid⟩ := render_layout.1 ["n", "v"] calls
  rw [htext] at hlaid
  refine ⟨htext, w, lines, hlaid, ?_, hlaid.count⟩
  refine (hlaid.widest 0 (by decide)).unique ⟨.inr ⟨["a\nb", "1"], by decide, by decide +kernel⟩, ?_⟩
  rintro m (rfl | ⟨row, hrow, rfl⟩)
  · decide
  · have hall : ∀ row ∈ ["n", "v"] :: rowsOf calls, width (row.getD 0 "") ≤ 3 := by decide +kernel
    exact hall row hrow

end ColumnAudit.Table
