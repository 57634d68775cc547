import DexOs.Lib.Rows

/-! The text console of `console.c`: the offscreen window, the scrollback ring and the screen. -/

namespace DexOs

open DexOs.Lib

/-- `struct Console`. The text memory that the pointer `vram` leads to, the position of the hardware
cursor and the characters sent to the serial line are kept with it; `active` tells whether `s_active`
is this console. -/
structure Console where
  cols : ℕ
  rows : ℕ
  row : ℕ
  col : ℕ
  color : UInt8
  vram : ℕ → UInt16
  vramPitchChars : ℕ
  cells : ℕ → UInt16
  sbuf : ℕ → UInt16
  sbufRows : ℕ
  sbufHead : ℕ
  sbufCount : ℕ
  viewOffsetRows : ℕ
  active : Bool
  hwCursor : ℕ
  serial : List Int8

namespace Console

/-- A `char` is signed on x86_64, so the conversion to 16 bits extends its sign. -/
def vgaEntry (c : Int8) (color : UInt8) : UInt16 := c.toInt16.toUInt16 ||| (color.toUInt16 <<< 8)

def blank (c : Console) : UInt16 := vgaEntry 32 c.color

def vgaMoveHwCursor (c : Console) (row col cols : ℕ) : Console :=
  { c with hwCursor := (row * cols + col) % 2 ^ 16 }

def lastRow (c : Console) : ℕ := if c.rows = 0 then 2 ^ 16 - 1 else c.rows - 1

theorem lastRow_of_pos {c : Console} (h : 0 < c.rows) : c.lastRow = c.rows - 1 := if_neg h.ne'

def normalize (sbufRows : ℕ) : ℕ → ℤ → ℤ
  | 0, idx => idx
  | fuel + 1, idx => if idx < 0 then normalize sbufRows fuel (idx + sbufRows) else idx

def histToShow (c : Console) : ℕ :=
  let off := if c.sbufCount < c.viewOffsetRows then c.sbufCount else c.viewOffsetRows
  if c.rows < off then c.rows else off

def firstShown (c : Console) : ℤ :=
  let idx : ℤ := (c.sbufHead : ℤ) - 1 - ((c.histToShow : ℤ) - 1)
  normalize c.sbufRows idx.natAbs idx

def drawHistory (c : Console) (r : ℕ) (s : (ℕ → UInt16) × ℤ) : (ℕ → UInt16) × ℤ :=
  (copyCells c.sbuf (s.2.toNat % c.sbufRows * c.cols) (r * c.vramPitchChars) c.cols s.1,
    (s.2 + 1).tmod c.sbufRows)

def drawLive (c : Console) (k : ℕ) (vram : ℕ → UInt16) : ℕ → UInt16 :=
  let r := c.histToShow + k
  copyCells c.cells ((r - c.histToShow) * c.cols) (r * c.vramPitchChars) c.cols vram

def drawnView (c : Console) : ℕ → UInt16 :=
  forRange c.drawLive (c.rows - c.histToShow) (forRange c.drawHistory c.histToShow (c.vram, c.firstShown)).1

def renderView (c : Console) : Console :=
  if c.active = false then c
  else if c.viewOffsetRows ≠ 0 then { c with vram := c.drawnView }.vgaMoveHwCursor c.lastRow 0 c.cols
  else { c with vram := c.drawnView }.vgaMoveHwCursor c.row c.col c.cols

def flushRow (c : Console) (r : ℕ) (vram : ℕ → UInt16) : ℕ → UInt16 :=
  copyCells c.cells (r * c.cols) (r * c.vramPitchChars) c.cols vram

def vgaFlush (c : Console) : Console :=
  if c.active = false then c
  else if c.viewOffsetRows ≠ 0 then c.renderView
  else
    let c := { c with vram := forRange c.flushRow c.rows c.vram }
    c.vgaMoveHwCursor c.row c.col c.cols

def cleared (c : Console) : Console :=
  { c with
    cells := forRange (fun r => fillCells c.blank (r * c.cols) c.cols) c.rows c.cells
    row := 0
    col := 0
    sbufRows := 512
    sbufHead := 0
    sbufCount := 0
    viewOffsetRows := 0 }

def vgaClear (c : Console) : Console := if c.cleared.active then c.cleared.vgaFlush else c.cleared

def pinnedOffset (offset count : ℕ) : ℕ :=
  if 0 < offset ∧ offset < count then
    if count < offset + 1 then count else offset + 1
  else offset

def vgaScrollUp (c : Console) : Console :=
  let count := if c.sbufCount < c.sbufRows then c.sbufCount + 1 else c.sbufCount
  let cells := forRange (fun k => moveCells ((k + 1) * c.cols) (k * c.cols) c.cols) (c.rows - 1) c.cells
  { c with
    sbuf := copyCells c.cells (0 * c.cols) (c.sbufHead % c.sbufRows * c.cols) c.cols c.sbuf
    sbufHead := (c.sbufHead + 1) % c.sbufRows
    sbufCount := count
    viewOffsetRows := pinnedOffset c.viewOffsetRows count
    cells := fillCells c.blank ((c.rows - 1) * c.cols) c.cols cells }

def nextRow (c : Console) : Console × Bool :=
  let c := { c with row := c.row + 1 }
  if c.rows ≤ c.row then ({ c.vgaScrollUp with row := c.lastRow }, true) else (c, false)

def writeCell (c : Console) (ch : Int8) : Console :=
  { c with
    cells := Function.update c.cells (c.row * c.cols + c.col) (vgaEntry ch c.color)
    col := c.col + 1 }

def wrap (c : Console) : Console × Bool :=
  if c.cols ≤ c.col then { c with col := 0 }.nextRow else (c, false)

def drawCell (c : Console) (row col : ℕ) : Console :=
  { c with vram := Function.update c.vram (row * c.vramPitchChars + col) (c.cells (row * c.cols + col)) }

def putGlyph (c : Console) (ch : Int8) : Console :=
  let r := (c.writeCell ch).wrap
  if r.1.active = false then r.1
  else if r.2 ∨ r.1.viewOffsetRows ≠ 0 then r.1.vgaFlush
  else r.1.drawCell c.row c.col

/-- The four branches of `vga_putc`; a newline drops the scroll flag. -/
def putChar (c : Console) (ch : Int8) : Console :=
  if ch = 10 then { c with col := 0 }.nextRow.1
  else if ch = 13 then { c with col := 0 }
  else if ch = 8 then (if 0 < c.col then { c with col := c.col - 1 } else c)
  else c.putGlyph ch

def vgaPutc (c : Console) (ch : Int8) : Console :=
  let c := c.putChar ch
  if c.active then c.vgaMoveHwCursor c.row c.col c.cols else c

def serialPutc (c : Console) (ch : Int8) : Console := { c with serial := c.serial ++ [ch] }

def consolePutc (c : Console) (ch : Int8) : Console := (c.vgaPutc ch).serialPutc ch

def consoleWrite (c : Console) : List Int8 → Console
  | [] => c
  | ch :: s => if ch = 0 then c else (c.consolePutc ch).consoleWrite s

def consoleSetColor (c : Console) (fg bg : UInt8) : Console := { c with color := (bg <<< 4) ||| (fg &&& 0x0F) }

def consoleClear (c : Console) : Console := c.vgaClear

def page (c : Console) : ℕ := if 1 < c.rows then c.rows - 1 else 1

def consolePageUp (c : Console) : Console :=
  { c with viewOffsetRows := if c.sbufCount < c.viewOffsetRows + c.page then c.sbufCount
                             else c.viewOffsetRows + c.page }.renderView

def consolePageDown (c : Console) : Console :=
  { c with viewOffsetRows := if c.viewOffsetRows ≤ c.page then 0 else c.viewOffsetRows - c.page }.renderView

def consolePageHome (c : Console) : Console := { c with viewOffsetRows := c.sbufCount }.renderView

def consolePageEnd (c : Console) : Console := { c with viewOffsetRows := 0 }.renderView

def consoleInit (c : Console) : Console :=
  let c := if c.cols = 0 then
      { c with cols := 80, rows := 25, color := 0x0F, row := 0, col := 0, vramPitchChars := 80 }.vgaClear
    else c.vgaFlush
  { c with active := true }

def consoleInitText (c : Console) (fb : ℕ → UInt16) (width height pitch : ℕ) : Console :=
  let cols := width % 2 ^ 16
  let pitchChars := pitch / 2 % 2 ^ 16
  { { c with cols := cols, rows := height % 2 ^ 16, vram := fb,
             vramPitchChars := if pitchChars = 0 then cols else pitchChars }.vgaClear with active := true }

inductive Output
  | putc (ch : Int8)
  | write (s : List Int8)
  | setColor (fg bg : UInt8)
  | clear

def Output.run (c : Console) : Output → Console
  | putc ch => c.consolePutc ch
  | write s => c.consoleWrite s
  | setColor fg bg => c.consoleSetColor fg bg
  | clear => c.consoleClear

inductive Page
  | up
  | down
  | home
  | last

def Page.run (c : Console) : Page → Console
  | up => c.consolePageUp
  | down => c.consolePageDown
  | home => c.consolePageHome
  | last => c.consolePageEnd

end Console

end DexOs
