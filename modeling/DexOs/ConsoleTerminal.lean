import DexOs.ConsoleHistory

/-! The console refines a terminal that keeps every row. -/

namespace DexOs

open DexOs.Lib DexOs.Console

/-- A terminal that never forgets: `lines` are all rows since the last clear, oldest first, and `row`
counts from the first of them. -/
structure Terminal where
  lines : List (List UInt16)
  row : ℕ
  col : ℕ
  color : UInt8

namespace Terminal

def start (w h : ℕ) (color : UInt8) : Terminal := ⟨List.replicate h (List.replicate w (vgaEntry 32 color)), 0, 0, color⟩

def nextRow (w : ℕ) (t : Terminal) : Terminal :=
  if t.lines.length ≤ t.row + 1 then
    { t with lines := t.lines ++ [List.replicate w (vgaEntry 32 t.color)], row := t.row + 1 }
  else { t with row := t.row + 1 }

def write (t : Terminal) (ch : Int8) : Terminal :=
  { t with
    lines := t.lines.set t.row ((t.lines.getD t.row []).set t.col (vgaEntry ch t.color))
    col := t.col + 1 }

def wrap (w : ℕ) (t : Terminal) : Terminal := if w ≤ t.col then { t with col := 0 }.nextRow w else t

def put (w : ℕ) (t : Terminal) (ch : Int8) : Terminal :=
  if ch = 10 then { t with col := 0 }.nextRow w
  else if ch = 13 then { t with col := 0 }
  else if ch = 8 then { t with col := t.col - 1 }
  else (t.write ch).wrap w

def run (w h : ℕ) (t : Terminal) : Output → Terminal
  | .putc ch => t.put w ch
  | .write s => (s.takeWhile (· ≠ 0)).foldl (put w) t
  | .setColor fg bg => { t with color := (bg <<< 4) ||| (fg &&& 0x0F) }
  | .clear => start w h t.color

end Terminal

namespace Console

variable {c : Console} {t : Terminal}

section Text

theorem vgaScrollUp_history (h : Valid c) : c.vgaScrollUp.history = (c.history ++ [c.line 0]).rtake 512 := by
  have hhead : c.sbufHead % 512 = c.sbufHead := Nat.mod_eq_of_lt h.head_lt
  have hrow (i : ℕ) : c.vgaScrollUp.sbufRow i = if i = c.sbufHead then c.line 0 else c.sbufRow i := by
    simp only [vgaScrollUp, sbufRow]
    rw [slice_copyCells (le_refl c.cols), h.ring_rows, hhead]
    rfl
  have hpush := ring_push (a := c.sbufRow) (b := c.vgaScrollUp.sbufRow) h.head_lt h.count_le
    (by rw [hrow, if_pos rfl]) (fun i _ hi => by rw [hrow, if_neg hi])
  rw [history, history, h.ring_rows, ← hpush]
  simp only [vgaScrollUp, h.ring_rows]

theorem vgaScrollUp_window (h : 0 < c.rows) : c.window = c.line 0 :: c.window.tail ∧
    c.vgaScrollUp.window = c.window.tail ++ [c.blankLine] := by
  obtain ⟨n, hn⟩ : ∃ n, c.rows = n + 1 := ⟨c.rows - 1, by omega⟩
  have hrows : c.vgaScrollUp.rows = n + 1 := hn
  have hwin : c.window = c.line 0 :: (List.range n).map fun r => c.line (r + 1) := by
    rw [window, hn, List.range_succ_eq_map]
    simp [Function.comp_def]
  constructor
  · rw [hwin]
    rfl
  · rw [hwin, window, hrows, List.range_succ, List.map_append, List.tail_cons, List.map_singleton,
      vgaScrollUp_line (by omega), if_neg (by omega)]
    congr 1
    apply List.map_congr_left
    intro r hr
    rw [List.mem_range] at hr
    rw [vgaScrollUp_line (by omega), if_pos (by omega)]

theorem vgaScrollUp_text (h : Valid c) : c.vgaScrollUp.text = (c.text ++ [c.blankLine]).rtake (512 + c.rows) := by
  obtain ⟨hwin, hscroll⟩ := vgaScrollUp_window h.rows_pos
  have hlen : (c.window.tail ++ [c.blankLine]).length = c.rows := by
    have hpos := h.rows_pos
    rw [List.length_append, List.length_tail, length_window, List.length_singleton]
    omega
  have hsplit : c.text ++ [c.blankLine] = (c.history ++ [c.line 0]) ++ (c.window.tail ++ [c.blankLine]) := by
    rw [text]
    nth_rewrite 1 [hwin]
    simp
  have htake := rtake_append (c.history ++ [c.line 0]) (c.window.tail ++ [c.blankLine]) 512
  rw [hlen] at htake
  rw [hsplit, htake, text, vgaScrollUp_history h, hscroll]

theorem writeCell_window (h : c.col < c.cols) (ch : Int8) :
    (c.writeCell ch).window = c.window.set c.row ((c.line c.row).set c.col (vgaEntry ch c.color)) := by
  have hline (r : ℕ) : (c.writeCell ch).line r =
      if r = c.row then (c.line r).set c.col (vgaEntry ch c.color) else c.line r := slice_update h _ _
  apply List.ext_getElem?
  intro r
  have hrows : (c.writeCell ch).rows = c.rows := rfl
  rw [List.getElem?_set, window, window, hrows, List.getElem?_map, List.getElem?_map]
  by_cases hr : r < c.rows
  · rw [List.getElem?_range hr, Option.map_some, Option.map_some, hline]
    by_cases he : r = c.row
    · subst he
      rw [if_pos rfl, if_pos rfl, if_pos (by simpa using hr)]
    · rw [if_neg he, if_neg (Ne.symm he)]
  · rw [List.getElem?_eq_none (by simpa using hr)]
    split_ifs with h1 h2
    · simp at h2
      omega
    · rfl
    · rfl

theorem writeCell_text (h : Valid c) (ch : Int8) : (c.writeCell ch).text =
    c.text.set (c.sbufCount + c.row) ((c.line c.row).set c.col (vgaEntry ch c.color)) := by
  have hhist : (c.writeCell ch).history = c.history := rfl
  rw [text, hhist, writeCell_window h.col_lt, text, List.set_append, length_history, if_neg (by omega),
    Nat.add_sub_cancel_left]

theorem text_cursor (h : Valid c) : c.text[c.sbufCount + c.row]? = some (c.line c.row) := by
  rw [text, List.getElem?_append_right (by rw [length_history]; omega), length_history, Nat.add_sub_cancel_left,
    window, List.getElem?_map, List.getElem?_range h.row_lt, Option.map_some]

end Text

section Refinement

/-- The ring and the window hold the last rows of the terminal, and the cursors agree. -/
structure Refines (t : Terminal) (c : Console) : Prop where
  text : c.text = t.lines.rtake (512 + c.rows)
  row : t.row + c.rows = t.lines.length + c.row
  col : t.col = c.col
  color : t.color = c.color
  rows_le : c.rows ≤ t.lines.length

theorem Refines.count (hr : Refines t c) : c.sbufCount = min t.lines.length (512 + c.rows) - c.rows := by
  have hlen := congrArg List.length hr.text
  rw [Console.text, List.length_append, length_history, length_window, List.rtake, List.length_drop] at hlen
  omega

theorem nextRow_refines (h : Valid c) (hr : Refines t c) : Refines (t.nextRow c.cols) c.nextRow.1 := by
  have hlt := h.row_lt
  have hrow := hr.row
  have hle := hr.rows_le
  rw [Terminal.nextRow, Console.nextRow]
  by_cases hbot : c.rows ≤ c.row + 1
  · rw [if_pos (by omega), if_pos hbot]
    have hlen : (t.lines ++ [List.replicate c.cols (vgaEntry 32 t.color)]).length = t.lines.length + 1 := by simp
    have htext : c.vgaScrollUp.text =
        (t.lines ++ [List.replicate c.cols (vgaEntry 32 t.color)]).rtake (512 + c.rows) := by
      rw [vgaScrollUp_text h, hr.text, hr.color]
      exact rtake_push _ _ _
    constructor
    case text => exact htext
    case row =>
      change t.row + 1 + c.rows = _ + c.lastRow
      rw [lastRow_of_pos h.rows_pos, hlen]
      omega
    case col => exact hr.col
    case color => exact hr.color
    case rows_le =>
      change c.rows ≤ _
      rw [hlen]
      omega
  · rw [if_neg (by omega), if_neg hbot]
    exact { hr with row := show t.row + 1 + c.rows = t.lines.length + (c.row + 1) by omega }

theorem write_refines (h : Valid c) (hr : Refines t c) (ch : Int8) : Refines (t.write ch) (c.writeCell ch) := by
  have hlt := h.row_lt
  have hrow := hr.row
  have hle := hr.rows_le
  have hcount := hr.count
  have hidx : t.row - (t.lines.length - (512 + c.rows)) = c.sbufCount + c.row := by omega
  have hline : t.lines.getD t.row [] = c.line c.row := by
    have hget := text_cursor h
    rw [hr.text, List.rtake, List.getElem?_drop, ← hidx, Nat.add_sub_cancel' (by omega)] at hget
    rw [List.getD_eq_getElem?_getD, hget, Option.getD_some]
  have hlines : (t.write ch).lines = t.lines.set t.row ((c.line c.row).set c.col (vgaEntry ch c.color)) := by
    rw [Terminal.write, hline, hr.col, hr.color]
  have hlen : (t.write ch).lines.length = t.lines.length := by rw [hlines, List.length_set]
  constructor
  case text =>
    rw [hlines, writeCell_text h, hr.text, ← hidx]
    exact (rtake_set _ (by omega)).symm
  case row =>
    rw [hlen]
    exact hr.row
  case col => exact congrArg (· + 1) hr.col
  case color => exact hr.color
  case rows_le =>
    rw [hlen]
    exact hr.rows_le

theorem wrap_refines (h : Valid { c with col := 0 }) (hr : Refines t c) : Refines (t.wrap c.cols) c.wrap.1 := by
  have hrcol : Refines { t with col := 0 } { c with col := 0 } := { hr with col := rfl }
  rw [Terminal.wrap, hr.col, Console.wrap]
  split
  case isTrue => exact nextRow_refines h hrcol
  case isFalse => exact hr

theorem put_refines (h : Valid c) (hr : Refines t c) (ch : Int8) : Refines (t.put c.cols ch) (c.putChar ch) := by
  have hcol : Valid ({ c with col := 0 } : Console) := { h with col_lt := h.cols_pos }
  have hrcol : Refines { t with col := 0 } { c with col := 0 } := { hr with col := rfl }
  rw [Terminal.put, putChar]
  split_ifs with hn hret hb hpos
  · exact nextRow_refines hcol hrcol
  · exact hrcol
  · exact { hr with col := show t.col - 1 = c.col - 1 by rw [hr.col] }
  · exact { hr with col := show t.col - 1 = c.col by rw [hr.col]; omega }
  · obtain ⟨vram, cursor, he⟩ := c.putGlyph_eq ch
    have hwrite := write_refines h hr ch
    have hput : Valid ({ c.writeCell ch with col := 0 } : Console) := { h with col_lt := h.cols_pos }
    have hwrap := wrap_refines hput hwrite
    rw [he]
    exact { hwrap with }

theorem consolePutc_refines (h : Valid c) (hr : Refines t c) (ch : Int8) :
    Refines (t.put c.cols ch) (c.consolePutc ch) := by
  obtain ⟨cursor, serial, he⟩ := c.consolePutc_eq ch
  rw [he]
  exact { put_refines h hr ch with }

theorem consolePutc_cols (c : Console) (ch : Int8) : (c.consolePutc ch).cols = c.cols :=
  congrArg Prod.fst (c.consolePutc_shape ch)

theorem consoleWrite_refines (h : Valid c) (hr : Refines t c) (s : List Int8) :
    Refines ((s.takeWhile (· ≠ 0)).foldl (Terminal.put c.cols) t) (c.consoleWrite s) := by
  induction s generalizing c t with
  | nil => exact hr
  | cons ch s ih =>
    rw [consoleWrite]
    by_cases h0 : ch = 0
    · rw [if_pos h0, List.takeWhile_cons_of_neg (by simpa using h0)]
      exact hr
    · have hnext := ih (consolePutc_valid h ch) (consolePutc_refines h hr ch)
      rw [if_neg h0, List.takeWhile_cons_of_pos (by simpa using h0), List.foldl_cons]
      rwa [consolePutc_cols] at hnext

theorem consoleClear_refines (c : Console) : Refines (.start c.cols c.rows c.color) c.consoleClear := by
  obtain ⟨vram, cursor, he⟩ := c.vgaClear_eq
  have htext : c.cleared.text = List.replicate c.rows (List.replicate c.cols (vgaEntry 32 c.color)) := by
    rw [Console.text, show c.cleared.history = [] from rfl, List.nil_append, List.eq_replicate_iff]
    constructor
    · exact length_window _
    · intro l hl
      obtain ⟨r, hr, rfl⟩ := List.mem_map.mp hl
      rw [List.mem_range] at hr
      have hline := clear_rows c.blank c.cols c.rows r c.cells
      rw [if_pos (show r < c.rows from hr)] at hline
      exact hline
  rw [consoleClear, he]
  constructor
  case text =>
    change c.cleared.text = List.rtake _ (512 + c.rows)
    rw [htext, Terminal.start, List.rtake, List.length_replicate, Nat.sub_eq_zero_of_le (by omega), List.drop_zero]
  case row => simp [Terminal.start, cleared]
  case col => rfl
  case color => rfl
  case rows_le => simp [Terminal.start, cleared]

theorem Output.run_refines (h : Valid c) (hr : Refines t c) (o : Output) :
    Refines (t.run c.cols c.rows o) (o.run c) := by
  cases o with
  | putc ch => exact consolePutc_refines h hr ch
  | write s => exact consoleWrite_refines h hr s
  | setColor fg bg => exact { hr with color := rfl }
  | clear =>
    rw [Terminal.run, hr.color]
    exact consoleClear_refines c

theorem runs_shape (c : Console) (calls : List Output) : (calls.foldl Output.run c).shape = c.shape := by
  induction calls generalizing c with
  | nil => rfl
  | cons o calls ih => rw [List.foldl_cons, ih, Output.run_shape]

theorem runs_refine (h : Valid c) (hr : Refines t c) (calls : List Output) :
    Refines (calls.foldl (Terminal.run c.cols c.rows) t) (calls.foldl Output.run c) := by
  induction calls generalizing c t with
  | nil => exact hr
  | cons o calls ih =>
    have hshape := Output.run_shape c o
    simp only [shape, Prod.mk.injEq] at hshape
    have hnext := ih (Output.run_valid h o) (Output.run_refines h hr o)
    rw [hshape.1, hshape.2.1] at hnext
    exact hnext

def printed (c : Console) (calls : List Output) : Console := calls.foldl Output.run c.consoleClear

def transcript (color : UInt8) (calls : List Output) : Terminal :=
  calls.foldl (Terminal.run 80 25) (.start 80 25 color)

/-- The scrollback and the window are the last rows of the terminal, and the cursor is in the same
place. -/
theorem console_refines_terminal (hc : c.cols = 80) (hr : c.rows = 25) (calls : List Output) :
    (c.printed calls).history ++ (c.printed calls).window =
        (transcript c.color calls).lines.drop ((transcript c.color calls).lines.length -
          min (transcript c.color calls).lines.length (512 + 25)) ∧
      (transcript c.color calls).row = (transcript c.color calls).lines.length - 25 + (c.printed calls).row ∧
      (transcript c.color calls).col = (c.printed calls).col := by
  have hvalid : Valid c.consoleClear := consoleClear_valid (by omega) (by omega)
  have hshape := vgaClear_shape c
  simp only [shape, Prod.mk.injEq] at hshape
  have hcols : c.consoleClear.cols = 80 := hshape.1.trans hc
  have hrows : c.consoleClear.rows = 25 := hshape.2.1.trans hr
  have hruns := runs_refine hvalid (consoleClear_refines c) calls
  rw [hc, hr, hcols, hrows] at hruns
  change Refines (transcript c.color calls) (c.printed calls) at hruns
  have hsame : (c.printed calls).rows = 25 := by
    rw [← hrows]
    exact congrArg (fun s => s.2.1) (runs_shape c.consoleClear calls)
  have htext := hruns.text
  have hrow := hruns.row
  have hle := hruns.rows_le
  rw [hsame] at htext hrow hle
  have hlast (n : ℕ) : n - min n (512 + 25) = n - (512 + 25) := by omega
  refine ⟨?_, by omega, hruns.col⟩
  rw [← Console.text, htext, hlast, List.rtake]

theorem console_refines_terminal_vga :
    (vgaConsole.printed [.write [72, 105, 10]]).history ++ (vgaConsole.printed [.write [72, 105, 10]]).window =
      (transcript vgaConsole.color [.write [72, 105, 10]]).lines := by
  have hdrop : ∀ l : List (List UInt16), l.length = 25 → l.drop (l.length - min l.length (512 + 25)) = l := by
    intro l hl
    rw [hl]
    rfl
  have hlen : (transcript vgaConsole.color [.write [72, 105, 10]]).lines.length = 25 := by decide +kernel
  exact (console_refines_terminal rfl rfl [.write [72, 105, 10]]).1.trans (hdrop _ hlen)

end Refinement

end Console

end DexOs
