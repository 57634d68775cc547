import DexOs.ConsoleScreen

/-! The scrollback ring, the window, and the part of both that `render_view` draws. -/

namespace DexOs.Console

open DexOs.Lib

variable {c : Console}

def sbufRow (c : Console) (i : ℕ) : List UInt16 := slice c.sbuf (i * c.cols) c.cols

def history (c : Console) : List (List UInt16) := ring c.sbufRow c.sbufRows c.sbufHead c.sbufCount

def window (c : Console) : List (List UInt16) := (List.range c.rows).map c.line

def text (c : Console) : List (List UInt16) := c.history ++ c.window

def screenRow (c : Console) (r : ℕ) : List UInt16 := slice c.vram (r * c.vramPitchChars) c.cols

structure Valid (c : Console) : Prop where
  cols_pos : 0 < c.cols
  rows_pos : 0 < c.rows
  row_lt : c.row < c.rows
  col_lt : c.col < c.cols
  ring_rows : c.sbufRows = 512
  head_lt : c.sbufHead < 512
  count_le : c.sbufCount ≤ 512

theorem length_history (c : Console) : c.history.length = c.sbufCount := length_ring ..

theorem length_window (c : Console) : c.window.length = c.rows := by simp [window]

section Frame

/-! Drawing touches the screen only. -/

theorem renderView_eq (c : Console) :
    ∃ vram cursor, c.renderView = { c with vram := vram, hwCursor := cursor } := by
  rw [renderView]
  split_ifs
  · exact ⟨_, _, rfl⟩
  · exact ⟨_, _, rfl⟩
  · exact ⟨_, _, rfl⟩

theorem vgaFlush_eq (c : Console) :
    ∃ vram cursor, c.vgaFlush = { c with vram := vram, hwCursor := cursor } := by
  rw [vgaFlush]
  split_ifs
  · exact ⟨_, _, rfl⟩
  · exact c.renderView_eq
  · exact ⟨_, _, rfl⟩

theorem vgaClear_eq (c : Console) :
    ∃ vram cursor, c.vgaClear = { c.cleared with vram := vram, hwCursor := cursor } := by
  rw [vgaClear]
  split_ifs
  · exact c.cleared.vgaFlush_eq
  · exact ⟨_, _, rfl⟩

theorem putGlyph_eq (c : Console) (ch : Int8) :
    ∃ vram cursor, c.putGlyph ch = { (c.writeCell ch).wrap.1 with vram := vram, hwCursor := cursor } := by
  rw [putGlyph]
  split_ifs
  · exact ⟨_, _, rfl⟩
  · exact vgaFlush_eq _
  · exact ⟨_, _, rfl⟩

end Frame

section Validity

theorem cleared_valid (hc : 0 < c.cols) (hr : 0 < c.rows) : Valid c.cleared where
  cols_pos := hc
  rows_pos := hr
  row_lt := hr
  col_lt := hc
  ring_rows := rfl
  head_lt := Nat.zero_lt_succ 511
  count_le := Nat.zero_le 512

theorem vgaScrollUp_valid (h : Valid c) : Valid c.vgaScrollUp := by
  have hhead : (c.sbufHead + 1) % c.sbufRows < 512 := by
    rw [h.ring_rows]
    exact Nat.mod_lt _ (Nat.zero_lt_succ 511)
  have hcount : (if c.sbufCount < c.sbufRows then c.sbufCount + 1 else c.sbufCount) ≤ 512 := by
    have hle := h.count_le
    rw [h.ring_rows]
    split <;> omega
  exact { h with head_lt := hhead, count_le := hcount }

theorem nextRow_valid (h : Valid c) : Valid c.nextRow.1 := by
  have hpos := h.rows_pos
  rw [nextRow]
  split
  case isTrue hbot =>
    have hscroll := vgaScrollUp_valid h
    exact { hscroll with row_lt := show c.lastRow < c.rows by rw [lastRow_of_pos hpos]; omega }
  case isFalse hbot => exact { h with row_lt := Nat.lt_of_not_le hbot }

theorem wrap_valid (h : Valid c) (ch : Int8) : Valid (c.writeCell ch).wrap.1 := by
  have hput : Valid ({ c.writeCell ch with col := 0 } : Console) := { h with col_lt := h.cols_pos }
  rw [wrap]
  split
  case isTrue => exact nextRow_valid hput
  case isFalse hend => exact { h with col_lt := Nat.lt_of_not_le hend }

theorem putChar_valid (h : Valid c) (ch : Int8) : Valid (c.putChar ch) := by
  have hcol : Valid ({ c with col := 0 } : Console) := { h with col_lt := h.cols_pos }
  rw [putChar]
  split_ifs with hn hr hb hpos
  · exact nextRow_valid hcol
  · exact hcol
  · have hlt := h.col_lt
    exact { h with col_lt := show c.col - 1 < c.cols by omega }
  · exact h
  · obtain ⟨vram, cursor, he⟩ := c.putGlyph_eq ch
    rw [he]
    exact { wrap_valid h ch with }

theorem consolePutc_valid (h : Valid c) (ch : Int8) : Valid (c.consolePutc ch) := by
  obtain ⟨cursor, serial, he⟩ := c.consolePutc_eq ch
  rw [he]
  exact { putChar_valid h ch with }

theorem consoleClear_valid (hc : 0 < c.cols) (hr : 0 < c.rows) : Valid c.consoleClear := by
  obtain ⟨vram, cursor, he⟩ := c.vgaClear_eq
  rw [consoleClear, he]
  exact { cleared_valid hc hr with }

theorem consoleWrite_valid (h : Valid c) (s : List Int8) : Valid (c.consoleWrite s) := by
  induction s generalizing c with
  | nil => exact h
  | cons ch s ih =>
    rw [consoleWrite]
    split
    case isTrue => exact h
    case isFalse => exact ih (consolePutc_valid h ch)

theorem Output.run_valid (h : Valid c) (o : Output) : Valid (o.run c) := by
  cases o with
  | putc ch => exact consolePutc_valid h ch
  | write s => exact consoleWrite_valid h s
  | setColor fg bg => exact { h with }
  | clear => exact consoleClear_valid h.cols_pos h.rows_pos

theorem renderView_valid (h : Valid c) : Valid c.renderView := by
  obtain ⟨vram, cursor, he⟩ := c.renderView_eq
  rw [he]
  exact { h with }

theorem Page.run_valid (h : Valid c) (p : Page) : Valid (p.run c) := by
  have hview (n : ℕ) : Valid ({ c with viewOffsetRows := n } : Console) := { h with }
  cases p with
  | up => exact renderView_valid (hview _)
  | down => exact renderView_valid (hview _)
  | home => exact renderView_valid (hview _)
  | last => exact renderView_valid (hview _)

end Validity

section Shape

def shape (c : Console) : ℕ × ℕ × ℕ × Bool := (c.cols, c.rows, c.vramPitchChars, c.active)

theorem nextRow_shape (c : Console) : c.nextRow.1.shape = c.shape := by
  rw [nextRow]
  split <;> rfl

theorem wrap_shape (c : Console) : c.wrap.1.shape = c.shape := by
  rw [wrap]
  split
  case isTrue => exact nextRow_shape _
  case isFalse => rfl

theorem putChar_shape (c : Console) (ch : Int8) : (c.putChar ch).shape = c.shape := by
  rw [putChar]
  split_ifs
  · exact nextRow_shape _
  · rfl
  · rfl
  · rfl
  · obtain ⟨vram, cursor, he⟩ := c.putGlyph_eq ch
    rw [he]
    exact wrap_shape _

theorem consolePutc_shape (c : Console) (ch : Int8) : (c.consolePutc ch).shape = c.shape := by
  obtain ⟨cursor, serial, he⟩ := c.consolePutc_eq ch
  rw [he]
  exact putChar_shape c ch

theorem consoleWrite_shape (c : Console) (s : List Int8) : (c.consoleWrite s).shape = c.shape := by
  induction s generalizing c with
  | nil => rfl
  | cons ch s ih =>
    rw [consoleWrite]
    split
    case isTrue => rfl
    case isFalse => rw [ih, consolePutc_shape]

theorem vgaClear_shape (c : Console) : c.vgaClear.shape = c.shape := by
  obtain ⟨vram, cursor, he⟩ := c.vgaClear_eq
  rw [he]
  rfl

theorem renderView_shape (c : Console) : c.renderView.shape = c.shape := by
  obtain ⟨vram, cursor, he⟩ := c.renderView_eq
  rw [he]
  rfl

theorem Output.run_shape (c : Console) (o : Output) : (o.run c).shape = c.shape := by
  cases o with
  | putc ch => exact consolePutc_shape c ch
  | write s => exact consoleWrite_shape c s
  | setColor fg bg => rfl
  | clear => exact vgaClear_shape c

theorem Page.run_shape (c : Console) (p : Page) : (p.run c).shape = c.shape := by
  cases p with
  | up => exact renderView_shape _
  | down => exact renderView_shape _
  | home => exact renderView_shape _
  | last => exact renderView_shape _

end Shape

section Render

theorem normalize_of_nonneg {idx : ℤ} (h : 0 ≤ idx) (n fuel : ℕ) : normalize n fuel idx = idx := by
  cases fuel with
  | zero => rfl
  | succ fuel => rw [normalize, if_neg (by omega)]

theorem firstShown_eq (h : Valid c) : c.firstShown = ((c.sbufHead + 512 - c.histToShow) % 512 : ℕ) := by
  have hhead := h.head_lt
  have hhist : c.histToShow ≤ 512 := by
    have hle := h.count_le
    rw [histToShow]
    split_ifs <;> omega
  rw [firstShown, h.ring_rows]
  simp only [show (c.sbufHead : ℤ) - 1 - ((c.histToShow : ℤ) - 1) = c.sbufHead - c.histToShow by omega]
  by_cases hneg : c.sbufHead < c.histToShow
  · obtain ⟨n, hn⟩ : ∃ n, ((c.sbufHead : ℤ) - c.histToShow).natAbs = n + 1 :=
      ⟨c.histToShow - c.sbufHead - 1, by omega⟩
    rw [hn, normalize, if_pos (by omega), normalize_of_nonneg (by omega), Nat.mod_eq_of_lt (by omega)]
    omega
  · rw [normalize_of_nonneg (by omega)]
    omega

theorem drawHistory_rows (h : Valid c) (hp : c.cols ≤ c.vramPitchChars) {i : ℕ} (hi : i < 512) (n : ℕ) :
    (forRange c.drawHistory n (c.vram, (i : ℤ))).2 = ((i + n) % 512 : ℕ) ∧
      ∀ r, slice (forRange c.drawHistory n (c.vram, (i : ℤ))).1 (r * c.vramPitchChars) c.cols =
        if r < n then c.sbufRow ((i + r) % 512) else c.screenRow r := by
  induction n with
  | zero =>
    constructor
    · rw [Nat.add_zero, Nat.mod_eq_of_lt hi]
      rfl
    · intro r
      rfl
  | succ n ih =>
    obtain ⟨hidx, hrows⟩ := ih
    rw [forRange, drawHistory, hidx, h.ring_rows]
    constructor
    · have hnext : (((i + n) % 512 : ℕ) : ℤ) + 1 = (((i + n) % 512 + 1 : ℕ) : ℤ) := rfl
      rw [hnext, ← Int.ofNat_tmod, Nat.mod_add_mod]
      rfl
    · intro r
      rw [slice_copyCells hp, hrows, Int.toNat_natCast, Nat.mod_mod]
      by_cases hr : r = n
      · subst hr
        rw [if_pos rfl, if_pos (Nat.lt_succ_self r)]
        rfl
      · rw [if_neg hr]
        congr 1
        simp only [eq_iff_iff]
        omega

theorem drawLive_rows (hp : c.cols ≤ c.vramPitchChars) (n r : ℕ) (a : ℕ → UInt16) :
    slice (forRange c.drawLive n a) (r * c.vramPitchChars) c.cols =
      if c.histToShow ≤ r ∧ r < c.histToShow + n then c.line (r - c.histToShow)
      else slice a (r * c.vramPitchChars) c.cols := by
  apply forRange_rows (fun a r => slice a (r * c.vramPitchChars) c.cols) c.histToShow c.line
  intro k a r
  rw [drawLive, slice_copyCells hp, Nat.add_sub_cancel_left]
  rfl

theorem renderView_screenRow (h : Valid c) (hp : c.cols ≤ c.vramPitchChars) (ha : c.active = true) {r : ℕ}
    (hr : r < c.rows) :
    c.renderView.screenRow r = if r < c.histToShow then c.sbufRow ((c.sbufHead + 512 - c.histToShow + r) % 512)
      else c.line (r - c.histToShow) := by
  have hdrawn : c.renderView.screenRow r = slice c.drawnView (r * c.vramPitchChars) c.cols := by
    rw [renderView, if_neg (by simp [ha])]
    split <;> rfl
  rw [hdrawn, drawnView, drawLive_rows hp, firstShown_eq h,
    (drawHistory_rows h hp (Nat.mod_lt _ (Nat.zero_lt_succ 511)) _).2, Nat.mod_add_mod]
  by_cases hlive : c.histToShow ≤ r
  · rw [if_pos (by omega), if_neg (by omega)]
  · rw [if_neg (by omega), if_pos (by omega), if_pos (by omega)]

theorem renderView_text (h : Valid c) (hp : c.cols ≤ c.vramPitchChars) (ha : c.active = true) {r : ℕ}
    (hr : r < c.rows) :
    c.text[c.sbufCount - c.histToShow + r]? = some (c.renderView.screenRow r) := by
  have hle : c.histToShow ≤ c.sbufCount := by
    rw [histToShow]
    split_ifs <;> omega
  have hcount := h.count_le
  rw [renderView_screenRow h hp ha hr, text]
  by_cases hhist : r < c.histToShow
  · rw [if_pos hhist, List.getElem?_append_left (by rw [length_history]; omega), history, ring,
      List.getElem?_map, List.getElem?_range (by omega), h.ring_rows, Option.map_some]
    congr 3
    omega
  · rw [if_neg hhist, List.getElem?_append_right (by rw [length_history]; omega), length_history, window,
      List.getElem?_map, List.getElem?_range (by omega), Option.map_some]
    congr 2
    omega

end Render

section Runs

/-- The states of the console of 80 columns and 25 rows: it is set up on the VGA memory or on a text
framebuffer of that size, and output and page calls follow. -/
inductive Reach : Console → Prop
  | init (c : Console) (h : c.cols = 0) : Reach c.consoleInit
  | text (c : Console) (fb : ℕ → UInt16) (pitch : ℕ) (h : 160 ≤ pitch) (hp : pitch < 2 ^ 17) :
    Reach (c.consoleInitText fb 80 25 pitch)
  | output {c : Console} (o : Output) : Reach c → Reach (o.run c)
  | page {c : Console} (p : Page) : Reach c → Reach (p.run c)

structure Standard (c : Console) : Prop extends Valid c where
  cols_eq : c.cols = 80
  rows_eq : c.rows = 25
  pitch_ge : 80 ≤ c.vramPitchChars
  shown : c.active = true

theorem Standard.of_shape {c' : Console} (h : Standard c) (hv : Valid c') (hs : c'.shape = c.shape) : Standard c' := by
  simp only [shape, Prod.mk.injEq] at hs
  obtain ⟨hcols, hrows, hpitch, hactive⟩ := hs
  exact { hv with
    cols_eq := hcols.trans h.cols_eq
    rows_eq := hrows.trans h.rows_eq
    pitch_ge := hpitch ▸ h.pitch_ge
    shown := hactive.trans h.shown }

theorem vgaClear_standard (hc : c.cols = 80) (hr : c.rows = 25) (hp : 80 ≤ c.vramPitchChars) :
    Standard { c.vgaClear with active := true } := by
  obtain ⟨vram, cursor, he⟩ := c.vgaClear_eq
  have hvalid := cleared_valid (c := c) (hc ▸ Nat.zero_lt_succ 79) (hr ▸ Nat.zero_lt_succ 24)
  rw [he]
  exact { hvalid with cols_eq := hc, rows_eq := hr, pitch_ge := hp, shown := rfl }

theorem Reach.standard (h : Reach c) : Standard c := by
  induction h with
  | init c hc =>
    rw [consoleInit, if_pos hc]
    exact vgaClear_standard rfl rfl (le_refl 80)
  | text c fb pitch h hp =>
    apply vgaClear_standard rfl rfl
    change 80 ≤ if pitch / 2 % 2 ^ 16 = 0 then 80 % 2 ^ 16 else pitch / 2 % 2 ^ 16
    split <;> omega
  | output o _ ih => exact ih.of_shape (Output.run_valid ih.toValid o) (Output.run_shape _ o)
  | page p _ ih => exact ih.of_shape (Page.run_valid ih.toValid p) (Page.run_shape _ p)

def viewStart (c : Console) : ℕ := c.sbufCount - min c.viewOffsetRows c.sbufCount

def ShowsFrom (c : Console) (start : ℕ) : Prop := ∀ r < c.rows, c.text[start + r]? = some (c.screenRow r)

theorem renderView_text_eq (c : Console) : c.renderView.text = c.text := by
  obtain ⟨vram, cursor, he⟩ := c.renderView_eq
  rw [he]
  rfl

theorem renderView_showsFrom (h : Valid c) (hp : c.cols ≤ c.vramPitchChars) (ha : c.active = true) (start : ℕ) :
    ShowsFrom c.renderView start ↔ ∀ r < c.rows, c.text[start + r]? = c.text[c.sbufCount - c.histToShow + r]? := by
  have hrows : c.renderView.rows = c.rows := congrArg (fun s => s.2.1) c.renderView_shape
  rw [ShowsFrom, hrows, renderView_text_eq]
  apply forall₂_congr
  intro r hr
  rw [renderView_text h hp ha hr]

/-- A view of at most one screen of history is drawn as it should be. A view further back shows the
last screen of history instead. -/
theorem view_shown_iff (h : Reach c) :
    ShowsFrom c.renderView c.viewStart ↔ (min c.viewOffsetRows c.sbufCount ≤ 25 ∨
      ∀ r < 25, c.text[c.viewStart + r]? = c.text[c.sbufCount - 25 + r]?) := by
  have hs := h.standard
  have hpitch : c.cols ≤ c.vramPitchChars := hs.cols_eq ▸ hs.pitch_ge
  rw [renderView_showsFrom hs.toValid hpitch hs.shown, hs.rows_eq]
  have hhist : c.histToShow = min (min c.viewOffsetRows c.sbufCount) 25 := by
    rw [histToShow, hs.rows_eq]
    split_ifs <;> omega
  by_cases hle : min c.viewOffsetRows c.sbufCount ≤ 25
  · rw [hhist, Nat.min_eq_left hle]
    exact iff_of_true (fun _ _ => rfl) (.inl hle)
  · rw [hhist, Nat.min_eq_right (by omega)]
    constructor
    · exact .inr
    · intro hr
      exact hr.resolve_left hle

def coldConsole : Console :=
  ⟨0, 0, 0, 0, 0, fun _ => 0, 0, fun _ => 0, fun _ => 0, 0, 0, 0, 0, false, 0, []⟩

def scrolledConsole : Console := coldConsole.consoleInit.consoleWrite (65 :: List.replicate 51 10)

theorem scrolledConsole_reach : Reach scrolledConsole := (Reach.init coldConsole rfl).output (.write _)

theorem ShowsFrom.first (h : ShowsFrom c 0) (hr : 0 < c.rows) (hc : 0 < c.cols) (hn : 0 < c.sbufCount) :
    c.sbuf ((c.sbufHead + c.sbufRows - c.sbufCount) % c.sbufRows * c.cols) = c.vram 0 := by
  have hrow := h 0 hr
  rw [text, List.getElem?_append_left (by rw [length_history]; exact hn), history, ring,
    List.getElem?_map, List.getElem?_range hn, Option.map_some, Option.some_inj] at hrow
  have hcell := slice_inj.mp hrow 0 hc
  simpa only [Nat.add_zero, Nat.zero_mul] using hcell

theorem home_shows_wrong_rows :
    Reach scrolledConsole.consolePageHome ∧
      ¬ ShowsFrom scrolledConsole.consolePageHome.renderView scrolledConsole.consolePageHome.viewStart := by
  constructor
  · exact scrolledConsole_reach.page .home
  · intro h
    have hstart : scrolledConsole.consolePageHome.viewStart = 0 := by decide +kernel
    rw [hstart] at h
    have hfirst := h.first (by decide +kernel) (by decide +kernel) (by decide +kernel)
    revert hfirst
    decide +kernel

theorem view_shown_iff_one_page :
    ShowsFrom scrolledConsole.consolePageUp.renderView scrolledConsole.consolePageUp.viewStart := by
  have hreach : Reach scrolledConsole.consolePageUp := scrolledConsole_reach.page .up
  exact (view_shown_iff hreach).mpr (.inl (by decide +kernel))

end Runs

end DexOs.Console
