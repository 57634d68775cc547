import DexOs.Console

/-! The screen and the offscreen window at live view. -/

namespace DexOs.Console

open DexOs.Lib

variable {c : Console}

/-- A window that fits the offscreen buffer, on a screen whose lines are at least as long. -/
structure Sized (c : Console) : Prop where
  cols_pos : 0 < c.cols
  rows_pos : 0 < c.rows
  cells_fit : c.rows * c.cols ≤ 80 * 25
  pitch_ge : c.cols ≤ c.vramPitchChars

def Coherent (c : Console) : Prop :=
  ∀ r < c.rows, ∀ co < c.cols, c.vram (r * c.vramPitchChars + co) = c.cells (r * c.cols + co)

def Empty (c : Console) : Prop := ∀ r < c.rows, ∀ co < c.cols, c.cells (r * c.cols + co) = c.blank

def line (c : Console) (r : ℕ) : List UInt16 := slice c.cells (r * c.cols) c.cols

def blankLine (c : Console) : List UInt16 := List.replicate c.cols c.blank

theorem coherent_iff_line : Coherent c ↔ ∀ r < c.rows, slice c.vram (r * c.vramPitchChars) c.cols = c.line r := by
  simp only [Coherent, line, slice_inj]

theorem empty_iff_line : Empty c ↔ ∀ r < c.rows, c.line r = c.blankLine := by
  simp only [Empty, line, blankLine, slice_eq_replicate]

theorem flush_rows (hp : c.cols ≤ c.vramPitchChars) (n r : ℕ) :
    slice (forRange c.flushRow n c.vram) (r * c.vramPitchChars) c.cols =
      if r < n then c.line r else slice c.vram (r * c.vramPitchChars) c.cols := by
  have hbody (k : ℕ) (a : ℕ → UInt16) (r : ℕ) : slice (c.flushRow k a) (r * c.vramPitchChars) c.cols =
      if r = 0 + k then c.line k else slice a (r * c.vramPitchChars) c.cols := by
    rw [flushRow, slice_copyCells hp, Nat.zero_add]
    rfl
  have hrows := forRange_rows (fun a r => slice a (r * c.vramPitchChars) c.cols) 0 c.line hbody n c.vram r
  simpa only [Nat.zero_le, true_and, Nat.zero_add, Nat.sub_zero] using hrows

theorem clear_rows (x : UInt16) (w n r : ℕ) (a : ℕ → UInt16) :
    slice (forRange (fun r => fillCells x (r * w) w) n a) (r * w) w =
      if r < n then List.replicate w x else slice a (r * w) w := by
  have hbody (k : ℕ) (a : ℕ → UInt16) (r : ℕ) : slice (fillCells x (k * w) w a) (r * w) w =
      if r = 0 + k then List.replicate w x else slice a (r * w) w := by
    rw [slice_fillCells (le_refl w), Nat.zero_add]
  have hrows := forRange_rows (fun a r => slice a (r * w) w) 0 (fun _ => List.replicate w x) hbody n a r
  simpa only [Nat.zero_le, true_and, Nat.zero_add, Nat.sub_zero] using hrows

theorem shift_rows (w n r : ℕ) (a : ℕ → UInt16) :
    slice (forRange (fun k => moveCells ((k + 1) * w) (k * w) w) n a) (r * w) w =
      if r < n then slice a ((r + 1) * w) w else slice a (r * w) w := by
  induction n generalizing r with
  | zero => rfl
  | succ n ih =>
    rw [forRange, slice_moveCells, ih, ih]
    by_cases hr : r = n
    · subst hr
      rw [if_pos rfl, if_pos (Nat.lt_succ_self r), if_neg (by omega)]
    · rw [if_neg hr]
      congr 1
      simp only [eq_iff_iff]
      omega

theorem vgaScrollUp_line {r : ℕ} (hr : r < c.rows) :
    c.vgaScrollUp.line r = if r + 1 < c.rows then c.line (r + 1) else c.blankLine := by
  simp only [line, vgaScrollUp]
  rw [slice_fillCells (le_refl c.cols), shift_rows]
  by_cases hlast : r + 1 < c.rows
  · rw [if_neg (by omega), if_pos (by omega), if_pos hlast]
  · rw [if_pos (by omega), if_neg hlast]
    rfl

structure Live (c : Console) : Prop extends Sized c where
  shown : c.active = true
  live : c.viewOffsetRows = 0
  row_lt : c.row < c.rows
  col_lt : c.col < c.cols

theorem vgaFlush_live (h : c.active = true) (hv : c.viewOffsetRows = 0) :
    c.vgaFlush = { c with vram := forRange c.flushRow c.rows c.vram,
                          hwCursor := (c.row * c.cols + c.col) % 2 ^ 16 } := by
  rw [vgaFlush, if_neg (by simp [h]), if_neg (by simp [hv])]
  rfl

theorem vgaFlush_coherent (hs : Sized c) (h : c.active = true) (hv : c.viewOffsetRows = 0) :
    Coherent c.vgaFlush := by
  rw [vgaFlush_live h hv, coherent_iff_line]
  intro r hr
  change slice (forRange c.flushRow c.rows c.vram) _ _ = c.line r
  rw [flush_rows hs.pitch_ge, if_pos hr]

theorem vgaClear_live (hs : Sized c) (ha : c.active = true) : Live c.vgaClear ∧ Coherent c.vgaClear := by
  have hcleared : Live c.cleared :=
    { hs with shown := ha, live := rfl, row_lt := hs.rows_pos, col_lt := hs.cols_pos }
  rw [vgaClear, if_pos hcleared.shown]
  constructor
  · rw [vgaFlush_live hcleared.shown rfl]
    exact { hcleared with }
  · exact vgaFlush_coherent hcleared.toSized hcleared.shown rfl

theorem nextRow_live (h : Live c) : Live c.nextRow.1 := by
  have hpos := h.rows_pos
  rw [nextRow]
  split
  case isTrue hbot =>
    have hv : pinnedOffset c.viewOffsetRows
        (if c.sbufCount < c.sbufRows then c.sbufCount + 1 else c.sbufCount) = 0 := by
      rw [h.live, pinnedOffset, if_neg (by omega)]
    exact { h with live := hv, row_lt := show c.lastRow < c.rows by rw [lastRow_of_pos hpos]; omega }
  case isFalse hbot =>
    exact { h with row_lt := Nat.lt_of_not_le hbot }

theorem nextRow_coherent (h : Live c) (hc : Coherent c) :
    Coherent c.nextRow.1 ↔ (c.row + 1 = c.rows → Empty c) := by
  have hlt := h.row_lt
  rw [nextRow]
  split
  case isFalse hbot =>
    constructor
    · intro _ he
      exact absurd he.symm.le hbot
    · intro _
      exact hc
  case isTrue hbot =>
    have hlast : c.row + 1 = c.rows := le_antisymm hlt hbot
    have hmoved (r : ℕ) (hr : r < c.rows) :
        ({ c with row := c.row + 1 } : Console).vgaScrollUp.line r =
          if r + 1 < c.rows then c.line (r + 1) else c.blankLine :=
      vgaScrollUp_line (c := { c with row := c.row + 1 }) hr
    have hshift : Coherent ({ ({ c with row := c.row + 1 } : Console).vgaScrollUp with
        row := ({ c with row := c.row + 1 } : Console).lastRow }) ↔
        ∀ r < c.rows, c.line r = if r + 1 < c.rows then c.line (r + 1) else c.blankLine := by
      rw [coherent_iff_line]
      refine forall₂_congr fun r hr => ?_
      rw [← hmoved r hr, ← coherent_iff_line.mp hc r hr]
      rfl
    rw [hshift, empty_iff_line]
    constructor
    · intro hall _ r hr
      -- a line is blank when the one below it is
      induction hn : c.rows - r generalizing r with
      | zero => omega
      | succ n ih =>
        rw [hall r hr]
        split
        case isTrue hr' => exact ih (r + 1) hr' (by omega)
        case isFalse => rfl
    · intro hempty r hr
      rw [hempty hlast r hr]
      split
      case isTrue hr' => rw [hempty hlast (r + 1) hr']
      case isFalse => rfl

theorem wrap_live (h : Live c) (ch : Int8) :
    Live (c.writeCell ch).wrap.1 ∧
      ((c.writeCell ch).wrap.2 = false → ∃ row col, (c.writeCell ch).wrap.1 =
        { c with cells := Function.update c.cells (c.row * c.cols + c.col) (vgaEntry ch c.color),
                 row := row, col := col }) := by
  have hput : Live ({ c.writeCell ch with col := 0 } : Console) := { h with col_lt := h.cols_pos }
  rw [wrap]
  split
  case isTrue hend =>
    constructor
    · exact nextRow_live hput
    · rw [nextRow]
      split
      case isTrue => simp
      case isFalse =>
        intro _
        exact ⟨_, _, rfl⟩
  case isFalse hend =>
    constructor
    · exact { h with col_lt := Nat.lt_of_not_le hend }
    · intro _
      exact ⟨_, _, rfl⟩

theorem drawCell_coherent (h : Live c) (hc : Coherent c) (ch : Int8) (row col : ℕ) :
    Coherent (({ c with cells := Function.update c.cells (c.row * c.cols + c.col) (vgaEntry ch c.color),
                        row := row, col := col } : Console).drawCell c.row c.col) := by
  have hp := h.pitch_ge
  intro r hr co hco
  change co < c.cols at hco
  have hpos : r * c.vramPitchChars + co = c.row * c.vramPitchChars + c.col ↔
      r * c.cols + co = c.row * c.cols + c.col := by
    rw [cell_inj (by omega) (hp.trans_lt' h.col_lt), cell_inj hco h.col_lt]
  simp only [drawCell, Function.update_self]
  rw [Function.update_apply, Function.update_apply, hc r hr co hco]
  by_cases he : r * c.cols + co = c.row * c.cols + c.col
  · rw [if_pos (hpos.mpr he), if_pos he]
  · rw [if_neg (mt hpos.mp he), if_neg he]

theorem putGlyph_live (h : Live c) (hc : Coherent c) (ch : Int8) :
    Live (c.putGlyph ch) ∧ Coherent (c.putGlyph ch) := by
  obtain ⟨hlive, hsame⟩ := wrap_live h ch
  have hshown : ¬ (c.writeCell ch).wrap.1.active = false := by simp [hlive.shown]
  rw [putGlyph, if_neg hshown]
  cases hscroll : (c.writeCell ch).wrap.2 with
  | true =>
    rw [if_pos (.inl rfl)]
    constructor
    · rw [vgaFlush_live hlive.shown hlive.live]
      exact { hlive with }
    · exact vgaFlush_coherent hlive.toSized hlive.shown hlive.live
  | false =>
    rw [if_neg (by simp [hlive.live])]
    constructor
    · exact { hlive with }
    · obtain ⟨row, col, he⟩ := hsame hscroll
      rw [he]
      exact drawCell_coherent h hc ch row col

theorem putChar_live (h : Live c) (hc : Coherent c) (ch : Int8) :
    Live (c.putChar ch) ∧ (Coherent (c.putChar ch) ↔ (ch = 10 → c.row + 1 = c.rows → Empty c)) := by
  have hcol : Live ({ c with col := 0 } : Console) := { h with col_lt := h.cols_pos }
  rw [putChar]
  split_ifs with hn hr hb hpos
  · constructor
    · exact nextRow_live hcol
    · rw [nextRow_coherent hcol hc]
      exact ⟨fun he _ => he, fun he => he hn⟩
  · exact ⟨hcol, iff_of_true hc fun he => absurd he hn⟩
  · refine ⟨{ h with col_lt := ?_ }, iff_of_true hc fun he => absurd he hn⟩
    have hlt := h.col_lt
    change c.col - 1 < c.cols
    omega
  · exact ⟨h, iff_of_true hc fun he => absurd he hn⟩
  · obtain ⟨hlive, hcoh⟩ := putGlyph_live h hc ch
    exact ⟨hlive, iff_of_true hcoh fun he => absurd he hn⟩

theorem consolePutc_eq (c : Console) (ch : Int8) :
    ∃ cursor serial, c.consolePutc ch = { c.putChar ch with hwCursor := cursor, serial := serial } := by
  rw [consolePutc, vgaPutc]
  cases (c.putChar ch).active
  · exact ⟨_, _, rfl⟩
  · exact ⟨_, _, rfl⟩

section Runs

inductive Step
  | putc (ch : Int8)
  | setColor (fg bg : UInt8)
  | clear

def Step.run (c : Console) : Step → Console
  | putc ch => c.consolePutc ch
  | setColor fg bg => c.consoleSetColor fg bg
  | clear => c.consoleClear

def Output.steps : Output → List Step
  | putc ch => [.putc ch]
  | write s => (s.takeWhile (· ≠ 0)).map .putc
  | setColor fg bg => [.setColor fg bg]
  | clear => [.clear]

theorem consoleWrite_eq (c : Console) (s : List Int8) :
    c.consoleWrite s = ((s.takeWhile (· ≠ 0)).map Step.putc).foldl Step.run c := by
  induction s generalizing c with
  | nil => rfl
  | cons ch s ih =>
    rw [consoleWrite]
    by_cases h0 : ch = 0
    · simp [h0]
    · rw [if_neg h0, ih, List.takeWhile_cons_of_pos (by simpa using h0)]
      rfl

theorem Output.run_eq (c : Console) (o : Output) : o.run c = o.steps.foldl Step.run c := by
  cases o with
  | write s => exact consoleWrite_eq c s
  | putc ch => rfl
  | setColor fg bg => rfl
  | clear => rfl

theorem Step.run_live (h : Live c) (hc : Coherent c) (s : Step) :
    Live (s.run c) ∧ (Coherent (s.run c) ↔ (s = .putc 10 → c.row + 1 = c.rows → Empty c)) := by
  cases s with
  | putc ch =>
    obtain ⟨cursor, serial, he⟩ := c.consolePutc_eq ch
    obtain ⟨hlive, hiff⟩ := putChar_live h hc ch
    rw [Step.run, he, Step.putc.injEq, ← hiff]
    exact ⟨{ hlive with }, Iff.rfl⟩
  | setColor fg bg => exact ⟨{ h with }, iff_of_true hc fun he => by cases he⟩
  | clear =>
    obtain ⟨hlive, hcoh⟩ := vgaClear_live h.toSized h.shown
    exact ⟨hlive, iff_of_true hcoh fun he => by cases he⟩

/-- Every newline in the last row meets an empty window. -/
def NewlinesHarmless (c : Console) (steps : List Step) : Prop :=
  ∀ pre post, steps = pre ++ .putc 10 :: post →
    (pre.foldl Step.run c).row + 1 = (pre.foldl Step.run c).rows → Empty (pre.foldl Step.run c)

def CoherentAlong (c : Console) (steps : List Step) : Prop :=
  ∀ pre post, steps = pre ++ post → Coherent (pre.foldl Step.run c)

theorem coherentAlong_cons {s : Step} {steps : List Step} (hc : Coherent c) :
    CoherentAlong c (s :: steps) ↔ CoherentAlong (s.run c) steps := by
  constructor
  · intro h pre post he
    exact h (s :: pre) post (by rw [he, List.cons_append])
  · intro h pre post he
    cases pre with
    | nil => exact hc
    | cons t pre =>
      rw [List.cons_append, List.cons.injEq] at he
      obtain ⟨rfl, he⟩ := he
      exact h pre post he

theorem newlinesHarmless_nil (c : Console) : NewlinesHarmless c [] := by
  intro pre post he
  simp at he

theorem newlinesHarmless_cons {s : Step} {steps : List Step} :
    NewlinesHarmless c (s :: steps) ↔
      (s = .putc 10 → c.row + 1 = c.rows → Empty c) ∧ NewlinesHarmless (s.run c) steps := by
  constructor
  · intro h
    constructor
    · rintro rfl
      exact h [] steps rfl
    · intro pre post he
      exact h (s :: pre) post (by rw [he, List.cons_append])
  · rintro ⟨hs, h⟩ pre post he
    cases pre with
    | nil =>
      rw [List.nil_append, List.cons.injEq] at he
      exact hs he.1
    | cons t pre =>
      rw [List.cons_append, List.cons.injEq] at he
      obtain ⟨rfl, he⟩ := he
      exact h pre post he

theorem coherentAlong_iff (h : Live c) (hc : Coherent c) (steps : List Step) :
    CoherentAlong c steps ↔ NewlinesHarmless c steps := by
  induction steps generalizing c with
  | nil =>
    refine iff_of_true (fun pre post he => ?_) (newlinesHarmless_nil c)
    rw [(List.nil_eq_append_iff.mp he).1]
    exact hc
  | cons s steps ih =>
    obtain ⟨hlive, hiff⟩ := Step.run_live h hc s
    rw [coherentAlong_cons hc, newlinesHarmless_cons, ← hiff]
    constructor
    · intro hall
      have hcoh : Coherent (s.run c) := hall [] steps rfl
      exact ⟨hcoh, (ih hlive hcoh).mp hall⟩
    · rintro ⟨hcoh, hall⟩
      exact (ih hlive hcoh).mpr hall

/-- After a clear the screen follows the output, character by character, exactly when no newline
scrolls a window with something in it. -/
theorem screen_coherent_iff (hs : Sized c) (ha : c.active = true) (calls : List Output) :
    CoherentAlong c.consoleClear (calls.flatMap Output.steps) ↔
      NewlinesHarmless c.consoleClear (calls.flatMap Output.steps) := by
  obtain ⟨hlive, hcoh⟩ := vgaClear_live hs ha
  exact coherentAlong_iff hlive hcoh _

end Runs

section Vga

def vgaConsole : Console :=
  ⟨80, 25, 0, 0, 0x0F, fun _ => 0, 80, fun _ => 0, fun _ => 0, 512, 0, 0, 0, true, 0, []⟩

theorem vgaConsole_sized : Sized vgaConsole := ⟨by decide, by decide, by decide, by decide⟩

theorem Coherent.first (h : Coherent c) (hr : 0 < c.rows) (hc : 0 < c.cols) : c.vram 0 = c.cells 0 := by
  have hcell := h 0 hr 0 hc
  rwa [Nat.zero_mul, Nat.zero_mul] at hcell

theorem newline_leaves_screen :
    ¬ Coherent (Output.run vgaConsole.consoleClear (.write (65 :: List.replicate 25 10))) := by
  intro h
  have hfirst := h.first (by decide +kernel) (by decide +kernel)
  revert hfirst
  decide +kernel

theorem screen_coherent_iff_line :
    CoherentAlong vgaConsole.consoleClear ([.write [72, 105, 10], .putc 33].flatMap Output.steps) := by
  apply (screen_coherent_iff vgaConsole_sized rfl _).mpr
  have hsteps : [Output.write [72, 105, 10], .putc 33].flatMap Output.steps =
      [.putc 72, .putc 105, .putc 10, .putc 33] := rfl
  rw [hsteps, newlinesHarmless_cons, newlinesHarmless_cons, newlinesHarmless_cons, newlinesHarmless_cons]
  have hrow : ¬ ((Step.putc 105).run ((Step.putc 72).run vgaConsole.consoleClear)).row + 1 =
      ((Step.putc 105).run ((Step.putc 72).run vgaConsole.consoleClear)).rows := by decide +kernel
  exact ⟨by simp, by simp, fun _ h => absurd h hrow, by simp, newlinesHarmless_nil _⟩

end Vga

end DexOs.Console
