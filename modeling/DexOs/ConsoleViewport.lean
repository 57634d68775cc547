import DexOs.ConsoleBounds
import DexOs.ConsoleTerminal

/-! The viewport of a console of 80 columns and 25 rows, and the rows that have ever left its window. -/

namespace DexOs

open DexOs.Lib

namespace Console

def rowOut (c : Console) : List (List UInt16) := if c.rows ≤ c.row + 1 then [c.line 0] else []

def wrapOut (c : Console) : List (List UInt16) := if c.cols ≤ c.col then c.rowOut else []

def scrolledOut (c : Console) (ch : Int8) : List (List UInt16) :=
  if ch = 10 then c.rowOut
  else if ch = 13 ∨ ch = 8 then []
  else (c.writeCell ch).wrapOut

def Op.scrolledOut (c : Console) : Op → List (List UInt16)
  | putc ch => c.scrolledOut ch
  | _ => []

/-- The states of a console of 80 columns and 25 rows, each with every row that was ever scrolled out of the window. -/
inductive Logged : Console → List (List UInt16) → Prop
  | init (c : Console) (h : c.cols = 0) : Logged c.consoleInit []
  | text (c : Console) (fb : ℕ → UInt16) (pitch : ℕ) : Logged (c.consoleInitText fb 80 25 pitch) []
  | create (c : Console) : Logged (c.consoleCreateVgaText 80 25) []
  | step {c : Console} {log : List (List UInt16)} (o : Op) : Logged c log → Logged (o.run c) (log ++ o.scrolledOut c)

def topRow (c : Console) (log : List (List UInt16)) : ℕ := log.length - c.viewOffsetRows

/-- The ring holds the last `sbuf_count` of the rows, and the viewport begins in the ring. -/
structure Kept (c : Console) (log : List (List UInt16)) : Prop where
  kept : c.history = log.rtake c.sbufCount
  count_le_length : c.sbufCount ≤ log.length
  offset_le : c.viewOffsetRows ≤ c.sbufCount

/-- What output does to the viewport: it stands still until the ring overtakes it. -/
structure Pinned (c : Console) (log : List (List UInt16)) (c' : Console) (log' : List (List UInt16)) : Prop where
  grows : log <+: log'
  count : c'.sbufCount = min (c.sbufCount + (log'.length - log.length)) 512
  top : c'.topRow log' = max (c.topRow log) (log'.length - 512)
  viewing : 0 < c'.viewOffsetRows

structure Advanced (c : Console) (log : List (List UInt16)) (c' : Console) (log' : List (List UInt16)) : Prop where
  kept : Kept c' log'
  pinned : 0 < c.viewOffsetRows → Pinned c log c' log'

variable {c c' c'' : Console} {log log' log'' : List (List UInt16)}

theorem Pinned.trans (h : Pinned c log c' log') (h' : Pinned c' log' c'' log'') : Pinned c log c'' log'' := by
  have hle := h.grows.length_le
  have hle' := h'.grows.length_le
  have hcount := h.count
  have hcount' := h'.count
  constructor
  case grows => exact h.grows.trans h'.grows
  case count => omega
  case top =>
    rw [h'.top, h.top]
    omega
  case viewing => exact h'.viewing

theorem Kept.stays (h : Kept c log) (hv : Valid c) (hhist : c'.history = c.history)
    (hcount : c'.sbufCount = c.sbufCount) (hoffset : c'.viewOffsetRows = c.viewOffsetRows) : Advanced c log c' log := by
  have hle := h.offset_le
  have hcap := hv.count_le
  have hlen := h.count_le_length
  constructor
  case kept => exact ⟨by rw [hhist, hcount, h.kept], by omega, by omega⟩
  case pinned =>
    intro hview
    constructor
    case grows => exact List.prefix_rfl
    case count => omega
    case top =>
      unfold topRow
      omega
    case viewing => omega

theorem rtake_extended {l : List (List UInt16)} {n : ℕ} (hn : n ≤ l.length) (x : List UInt16) (k : ℕ) :
    (l.rtake n ++ [x]).rtake k = (l ++ [x]).rtake (min (n + 1) k) := by
  have happ := rtake_append l [x] n
  rw [List.length_singleton] at happ
  rw [← happ]
  unfold List.rtake
  rw [List.drop_drop, List.length_drop, List.length_append, List.length_singleton]
  congr 1
  omega

theorem vgaScrollUp_advanced (hv : Valid c) (h : Kept c log) :
    Advanced c log c.vgaScrollUp (log ++ [c.line 0]) := by
  have hle := hv.count_le
  have hlen := h.count_le_length
  have hoff := h.offset_le
  have hcount : c.vgaScrollUp.sbufCount = min (c.sbufCount + 1) 512 := by
    change (if c.sbufCount < c.sbufRows then c.sbufCount + 1 else c.sbufCount) = _
    rw [hv.ring_rows]
    split <;> omega
  have hlog : (log ++ [c.line 0]).length = log.length + 1 := by rw [List.length_append, List.length_singleton]
  have hoffset : c.vgaScrollUp.viewOffsetRows =
      if c.viewOffsetRows = 0 then 0 else min (c.viewOffsetRows + 1) c.vgaScrollUp.sbufCount := by
    change pinnedOffset c.viewOffsetRows c.vgaScrollUp.sbufCount = _
    unfold pinnedOffset
    split
    · split <;> split <;> omega
    · split <;> omega
  constructor
  case kept =>
    constructor
    case kept => rw [vgaScrollUp_history hv, h.kept, rtake_extended hlen, hcount]
    case count_le_length => omega
    case offset_le =>
      rw [hoffset]
      split <;> omega
  case pinned =>
    intro hview
    rw [if_neg (by omega)] at hoffset
    constructor
    case grows => exact List.prefix_append _ _
    case count => omega
    case top =>
      unfold topRow
      omega
    case viewing => omega

theorem nextRow_advanced (hv : Valid c) (h : Kept c log) : Advanced c log c.nextRow.1 (log ++ c.rowOut) := by
  rw [nextRow, rowOut]
  by_cases hbot : c.rows ≤ c.row + 1
  · rw [if_pos hbot, if_pos hbot]
    have hscroll := vgaScrollUp_advanced hv h
    exact ⟨{ hscroll.kept with }, fun hview => { hscroll.pinned hview with }⟩
  · rw [if_neg hbot, if_neg hbot, List.append_nil]
    exact h.stays hv rfl rfl rfl

theorem putGlyph_advanced (hv : Valid c) (h : Kept c log) (ch : Int8) :
    Advanced c log (c.putGlyph ch) (log ++ (c.writeCell ch).wrapOut) := by
  have hput : Valid ({ c.writeCell ch with col := 0 } : Console) := { hv with col_lt := hv.cols_pos }
  have hwrite : Kept { c.writeCell ch with col := 0 } log := { h with }
  have hwrap : Advanced c log (c.writeCell ch).wrap.1 (log ++ (c.writeCell ch).wrapOut) := by
    rw [wrap, wrapOut]
    by_cases hend : (c.writeCell ch).cols ≤ (c.writeCell ch).col
    · have hnext := nextRow_advanced hput hwrite
      rw [if_pos hend, if_pos hend]
      exact ⟨hnext.kept, fun hview => { hnext.pinned hview with }⟩
    · rw [if_neg hend, if_neg hend, List.append_nil]
      exact h.stays hv rfl rfl rfl
  obtain ⟨vram, cursor, he⟩ := c.putGlyph_eq ch
  rw [he]
  exact ⟨{ hwrap.kept with }, fun hview => { hwrap.pinned hview with }⟩

theorem putChar_advanced (hv : Valid c) (h : Kept c log) (ch : Int8) :
    Advanced c log (c.putChar ch) (log ++ c.scrolledOut ch) := by
  have hcol : Valid ({ c with col := 0 } : Console) := { hv with col_lt := hv.cols_pos }
  have hstart : Kept { c with col := 0 } log := { h with }
  rw [putChar, scrolledOut]
  by_cases hn : ch = 10
  · have hnext := nextRow_advanced hcol hstart
    rw [if_pos hn, if_pos hn]
    exact ⟨hnext.kept, fun hview => { hnext.pinned hview with }⟩
  rw [if_neg hn, if_neg hn]
  by_cases hr : ch = 13
  · rw [if_pos hr, if_pos (.inl hr), List.append_nil]
    exact h.stays hv rfl rfl rfl
  by_cases hb : ch = 8
  · rw [if_neg hr, if_pos hb, if_pos (Or.inr hb : ch = 13 ∨ ch = 8), List.append_nil]
    split
    · exact h.stays hv rfl rfl rfl
    · exact h.stays hv rfl rfl rfl
  · rw [if_neg hr, if_neg hb, if_neg (not_or.mpr ⟨hr, hb⟩)]
    exact putGlyph_advanced hv h ch

theorem consolePutc_advanced (hv : Valid c) (h : Kept c log) (ch : Int8) :
    Advanced c log (c.consolePutc ch) (log ++ c.scrolledOut ch) := by
  have hput := putChar_advanced hv h ch
  obtain ⟨cursor, serial, he⟩ := c.consolePutc_eq ch
  rw [he]
  exact ⟨{ hput.kept with }, fun hview => { hput.pinned hview with }⟩

structure Scrolled (c : Console) (log : List (List UInt16)) : Prop extends Valid c, Kept c log where
  cols_eq : c.cols = 80
  rows_eq : c.rows = 25

theorem vgaClear_scrolled (hc : c.cols = 80) (hr : c.rows = 25) (active : Bool) (log : List (List UInt16)) :
    Scrolled { c.vgaClear with active := active } log := by
  obtain ⟨vram, cursor, he⟩ := c.vgaClear_eq
  have hvalid := cleared_valid (c := c) (hc ▸ Nat.zero_lt_succ 79) (hr ▸ Nat.zero_lt_succ 24)
  rw [he]
  refine { hvalid with cols_eq := hc, rows_eq := hr, kept := ?_, count_le_length := Nat.zero_le _, offset_le := Nat.le_refl 0 }
  change [] = log.drop (log.length - 0)
  rw [Nat.sub_zero, List.drop_length]

theorem Page.run_scrolled (h : Scrolled c log) (p : Page) : Scrolled (p.run c) log := by
  have hmove {n : ℕ} (hn : n ≤ c.sbufCount) : Scrolled ({ c with viewOffsetRows := n } : Console).renderView log := by
    obtain ⟨vram, cursor, he⟩ := ({ c with viewOffsetRows := n } : Console).renderView_eq
    rw [he]
    exact { h with offset_le := hn }
  have hle := h.offset_le
  cases p with
  | up =>
    apply hmove
    split <;> omega
  | down =>
    apply hmove
    split <;> omega
  | home => exact hmove le_rfl
  | last => exact hmove (Nat.zero_le _)

theorem Op.run_scrolled (h : Scrolled c log) (o : Op) : Scrolled (o.run c) (log ++ o.scrolledOut c) := by
  cases o with
  | putc ch =>
    have hshape := c.consolePutc_shape ch
    simp only [shape, Prod.mk.injEq] at hshape
    have hkept := (consolePutc_advanced h.toValid h.toKept ch).kept
    exact { consolePutc_valid h.toValid ch, hkept with
      cols_eq := hshape.1.trans h.cols_eq
      rows_eq := hshape.2.1.trans h.rows_eq }
  | clear =>
    have hclear := vgaClear_scrolled h.cols_eq h.rows_eq c.vgaClear.active log
    exact (List.append_nil log).symm ▸ hclear
  | setColor fg bg => exact (List.append_nil log).symm ▸ { h with }
  | page p =>
    rw [show (page p).scrolledOut c = [] from rfl, List.append_nil, run]
    split
    · exact Page.run_scrolled h p
    · exact h
  | activate =>
    obtain ⟨vram, cursor, he⟩ := ({ c with active := true } : Console).vgaFlush_eq
    rw [show activate.scrolledOut c = [] from rfl, List.append_nil, run, he]
    exact { h with }
  | leave => exact (List.append_nil log).symm ▸ { h with }

theorem Logged.scrolled (h : Logged c log) : Scrolled c log := by
  induction h with
  | init c hc =>
    rw [consoleInit, if_pos hc]
    exact vgaClear_scrolled rfl rfl true []
  | text c fb pitch => exact vgaClear_scrolled rfl rfl true []
  | create c =>
    have hclear := vgaClear_scrolled (c := c.createFrame 80 25) rfl rfl (c.consoleCreateVgaText 80 25).active []
    exact hclear
  | step o _ ih => exact Op.run_scrolled ih o

def Op.IsOutput : Op → Prop
  | putc _ => True
  | setColor _ _ => True
  | _ => False

theorem Op.run_advanced (h : Scrolled c log) {o : Op} (ho : o.IsOutput) :
    Advanced c log (o.run c) (log ++ o.scrolledOut c) := by
  cases o with
  | putc ch => exact consolePutc_advanced h.toValid h.toKept ch
  | setColor fg bg =>
    rw [show (setColor fg bg).scrolledOut c = [] from rfl, List.append_nil]
    exact h.stays h.toValid rfl rfl rfl
  | _ => exact ho.elim

def logRun (s : Console × List (List UInt16)) (o : Op) : Console × List (List UInt16) :=
  (o.run s.1, s.2 ++ o.scrolledOut s.1)

theorem logRun_scrolled (h : Scrolled c log) (outs : List Op) :
    Scrolled (outs.foldl logRun (c, log)).1 (outs.foldl logRun (c, log)).2 := by
  induction outs generalizing c log with
  | nil => exact h
  | cons o outs ih => exact ih (Op.run_scrolled h o)

theorem logRun_pinned (h : Scrolled c log) (hview : 0 < c.viewOffsetRows) {outs : List Op}
    (houts : ∀ o ∈ outs, o.IsOutput) :
    Pinned c log (outs.foldl logRun (c, log)).1 (outs.foldl logRun (c, log)).2 := by
  induction outs generalizing c log with
  | nil => exact (h.stays h.toValid rfl rfl rfl).pinned hview
  | cons o outs ih =>
    have hstep := (Op.run_advanced h (houts o List.mem_cons_self)).pinned hview
    exact hstep.trans (ih (Op.run_scrolled h o) hstep.viewing fun o' ho' => houts o' (List.mem_cons_of_mem o ho'))

theorem Logged.run (h : Logged c log) (ops : List Op) :
    Logged (ops.foldl logRun (c, log)).1 (ops.foldl logRun (c, log)).2 := by
  induction ops generalizing c log with
  | nil => exact h
  | cons o ops ih => exact ih (h.step o)

def InRing (c : Console) (log : List (List UInt16)) (i : ℕ) : Prop := log.length ≤ i + c.sbufCount ∧ i < log.length

theorem Kept.row_of_inRing (h : Kept c log) {i : ℕ} (hi : InRing c log i) :
    c.history[i - (log.length - c.sbufCount)]? = log[i]? := by
  obtain ⟨hold, hlt⟩ := hi
  rw [h.kept, List.rtake, List.getElem?_drop]
  congr 1
  omega

/-- The cursor, the ring and the viewport keep their bounds. While the history is viewed, the row at the top of the
viewport is the same after any output if and only if the ring still holds it, and it is still the same text. -/
theorem viewport_pinned (h : Logged c log) :
    (c.row < 25 ∧ c.col < 80 ∧ c.sbufHead < 512 ∧ c.sbufCount ≤ 512 ∧ c.viewOffsetRows ≤ c.sbufCount) ∧
    (0 < c.viewOffsetRows → ∀ outs : List Op, (∀ o ∈ outs, o.IsOutput) → ∀ c' log',
      outs.foldl logRun (c, log) = (c', log') →
      (c'.topRow log' = c.topRow log ↔ InRing c' log' (c.topRow log)) ∧
      (InRing c' log' (c.topRow log) →
        c'.history[c'.sbufCount - c'.viewOffsetRows]? = log[c.topRow log]?)) := by
  have hs := h.scrolled
  have hcount := hs.count_le
  have hlen := hs.count_le_length
  have hoff := hs.offset_le
  refine ⟨⟨hs.rows_eq ▸ hs.row_lt, hs.cols_eq ▸ hs.col_lt, hs.head_lt, hcount, hoff⟩, ?_⟩
  intro hview outs houts c' log' hrun
  have hs' := logRun_scrolled hs outs
  have hpin := logRun_pinned hs hview houts
  rw [hrun] at hs' hpin
  dsimp only at hs' hpin
  have hcount' := hpin.count
  have htop := hpin.top
  have hgrow := hpin.grows.length_le
  have hlen' := hs'.count_le_length
  have hoff' := hs'.offset_le
  have hiff : c'.topRow log' = c.topRow log ↔ InRing c' log' (c.topRow log) := by
    unfold InRing
    unfold topRow at *
    omega
  refine ⟨hiff, fun hin => ?_⟩
  have hsame := hiff.mpr hin
  have hrow := hs'.row_of_inRing hin
  have hat : log'[c.topRow log]? = log[c.topRow log]? := by
    obtain ⟨more, hmore⟩ := hpin.grows
    rw [← hmore]
    apply List.getElem?_append_left
    unfold topRow
    omega
  rw [← hat, ← hrow]
  congr 1
  unfold topRow at *
  omega

def pagedUp : List Op := List.replicate 30 (.putc 10) ++ [.page .up]

theorem viewport_pinned_newline :
    ∃ c log, Logged c log ∧ c.viewOffsetRows = 6 ∧ c.topRow log = 0 ∧ ∀ c' log',
      [Op.putc 10].foldl logRun (c, log) = (c', log') → (c'.topRow log' = 0 ↔ InRing c' log' 0) := by
  have hstart := (Logged.init coldConsole rfl).run pagedUp
  refine ⟨_, _, hstart, by decide +kernel, by decide +kernel, ?_⟩
  intro c' log' hrun
  have hpin := (viewport_pinned hstart).2 (by decide +kernel) [.putc 10] (fun o ho => by
    rw [List.mem_singleton.mp ho]
    trivial) c' log' hrun
  have htop : topRow (pagedUp.foldl logRun (coldConsole.consoleInit, [])).1
      (pagedUp.foldl logRun (coldConsole.consoleInit, [])).2 = 0 := by
    decide +kernel
  rw [htop] at hpin
  exact hpin.1

end Console

end DexOs
