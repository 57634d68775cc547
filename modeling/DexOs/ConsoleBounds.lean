import DexOs.ConsoleHistory
import Mathlib.Tactic.Ring
import Mathlib.Tactic.Linarith

/-! The indices into `cells` and `sbuf` that the console operations use, and the geometries that keep them inside
the two arrays. -/

namespace DexOs.Console

open DexOs.Lib

inductive Access
  | cell (i : ℤ)
  | saved (i : ℤ)

/-- `cells` has 80 * 25 elements and `sbuf` has 80 * 512. -/
def Access.InRange : Access → Prop
  | cell i => 0 ≤ i ∧ i < 80 * 25
  | saved i => 0 ≤ i ∧ i < 80 * 512

def span (f : ℤ → Access) (base : ℤ) (n : ℕ) : List Access := (List.range n).map fun k : ℕ => f (base + k)

section Accesses

/-! One list for each function of the source; indices are of type `int` there, and may be negative. -/

def windowAccesses (c : Console) (rows : ℕ) : List Access :=
  (List.range rows).flatMap fun r : ℕ => span .cell (r * c.cols) c.cols

def historyAccesses (c : Console) : List Access :=
  (List.range c.histToShow).flatMap fun k : ℕ =>
    span .saved ((forRange c.drawHistory k (c.vram, c.firstShown)).2.toNat % c.sbufRows * c.cols : ℕ) c.cols

def renderAccesses (c : Console) : List Access :=
  if c.active = false then [] else c.historyAccesses ++ c.windowAccesses (c.rows - c.histToShow)

def flushAccesses (c : Console) : List Access :=
  if c.active = false then []
  else if c.viewOffsetRows ≠ 0 then c.renderAccesses
  else c.windowAccesses c.rows

def clearAccesses (c : Console) : List Access :=
  c.windowAccesses c.rows ++ if c.cleared.active then c.cleared.flushAccesses else []

def scrollAccesses (c : Console) : List Access :=
  span .saved (c.sbufHead % c.sbufRows * c.cols : ℕ) c.cols ++ span .cell 0 c.cols ++
    ((List.range (c.rows - 1)).flatMap fun k : ℕ =>
      span .cell (k * c.cols) c.cols ++ span .cell ((k + 1) * c.cols) c.cols) ++
    span .cell ((c.rows - 1) * c.cols) c.cols

def nextRowAccesses (c : Console) : List Access := if c.rows ≤ c.row + 1 then c.scrollAccesses else []

def wrapAccesses (c : Console) : List Access :=
  if c.cols ≤ c.col then { c with col := 0 }.nextRowAccesses else []

def glyphAccesses (c : Console) (ch : Int8) : List Access :=
  let r := (c.writeCell ch).wrap
  [.cell (c.row * c.cols + c.col)] ++ (c.writeCell ch).wrapAccesses ++
    if r.1.active = false then []
    else if r.2 ∨ r.1.viewOffsetRows ≠ 0 then r.1.flushAccesses
    else [.cell (c.row * c.cols + c.col)]

def putAccesses (c : Console) (ch : Int8) : List Access :=
  if ch = 10 then { c with col := 0 }.nextRowAccesses
  else if ch = 13 ∨ ch = 8 then []
  else c.glyphAccesses ch

inductive Op
  | putc (ch : Int8)
  | clear
  | setColor (fg bg : UInt8)
  | page (p : Page)
  | activate
  | leave

def Op.run (c : Console) : Op → Console
  | putc ch => c.consolePutc ch
  | clear => c.consoleClear
  | setColor fg bg => c.consoleSetColor fg bg
  | page p => if c.active then p.run c else c
  | activate => { c with active := true }.vgaFlush
  | leave => { c with active := false }

def Page.offset (c : Console) : Page → ℕ
  | up => if c.sbufCount < c.viewOffsetRows + c.page then c.sbufCount else c.viewOffsetRows + c.page
  | down => if c.viewOffsetRows ≤ c.page then 0 else c.viewOffsetRows - c.page
  | home => c.sbufCount
  | last => 0

def Op.accesses (c : Console) : Op → List Access
  | putc ch => c.putAccesses ch
  | clear => c.clearAccesses
  | setColor _ _ => []
  | page p => if c.active then { c with viewOffsetRows := p.offset c }.renderAccesses else []
  | activate => { c with active := true }.flushAccesses
  | leave => []

end Accesses

section Spans

def AllIn (l : List Access) : Prop := ∀ a ∈ l, a.InRange

variable {c : Console} {l l' : List Access}

theorem allIn_nil : AllIn [] := by
  intro a ha
  cases ha

theorem AllIn.append (h : AllIn l) (h' : AllIn l') : AllIn (l ++ l') := by
  intro a ha
  rcases List.mem_append.mp ha with ha | ha
  · exact h a ha
  · exact h' a ha

theorem allIn_flatMap {n : ℕ} {f : ℕ → List Access} (h : ∀ k < n, AllIn (f k)) : AllIn ((List.range n).flatMap f) := by
  intro a ha
  obtain ⟨k, hk, ha⟩ := List.mem_flatMap.mp ha
  exact h k (List.mem_range.mp hk) a ha

theorem mem_span {f : ℤ → Access} {base : ℤ} {n k : ℕ} (h : k < n) : f (base + k) ∈ span f base n :=
  List.mem_map.mpr ⟨k, List.mem_range.mpr h, rfl⟩

theorem span_cells {base : ℤ} {n : ℕ} (h : n = 0 ∨ 0 ≤ base ∧ base + n ≤ 80 * 25) : AllIn (span .cell base n) := by
  intro a ha
  obtain ⟨k, hk, rfl⟩ := List.mem_map.mp ha
  have hk := List.mem_range.mp hk
  constructor <;> omega

theorem span_saved {base : ℤ} {n : ℕ} (h : n = 0 ∨ 0 ≤ base ∧ base + n ≤ 80 * 512) : AllIn (span .saved base n) := by
  intro a ha
  obtain ⟨k, hk, rfl⟩ := List.mem_map.mp ha
  have hk := List.mem_range.mp hk
  constructor <;> omega

end Spans

section Untouched

/-! An operation changes no element that is not on its list. -/

structure Untouched (l : List Access) (c c' : Console) : Prop where
  cells : ∀ i : ℕ, .cell i ∉ l → c'.cells i = c.cells i
  sbuf : ∀ i : ℕ, .saved i ∉ l → c'.sbuf i = c.sbuf i

variable {c : Console}

theorem span_covers (f : ℤ → Access) {base n i : ℕ} (h : base ≤ i ∧ i < base + n) : f i ∈ span f base n := by
  have hmem : f ((base : ℤ) + (i - base : ℕ)) ∈ span f base n := mem_span (by omega)
  rwa [← Nat.cast_add, Nat.add_sub_cancel' h.1] at hmem

theorem fillCells_off {x : UInt16} {base n i : ℕ} (a : ℕ → UInt16) (h : .cell i ∉ span .cell base n) :
    fillCells x base n a i = a i := by
  rw [fillCells_apply, if_neg (fun hi => h (span_covers _ hi))]

theorem windowAccesses_row (c : Console) {r rows i : ℕ} (hr : r < rows) (h : .cell i ∉ c.windowAccesses rows) :
    .cell i ∉ span .cell (r * c.cols : ℕ) c.cols := by
  intro hi
  rw [Nat.cast_mul] at hi
  exact h (List.mem_flatMap.mpr ⟨r, List.mem_range.mpr hr, hi⟩)

theorem cleared_untouched (c : Console) : Untouched (c.windowAccesses c.rows) c c.cleared := by
  refine ⟨?_, fun _ _ => rfl⟩
  intro i hi
  apply forRange_off
  intro r hr a
  exact fillCells_off a (c.windowAccesses_row hr hi)

theorem vgaScrollUp_untouched (c : Console) : Untouched c.scrollAccesses c c.vgaScrollUp := by
  constructor
  case cells =>
    intro i hi
    have hfirst : .cell i ∉ span .cell (0 : ℕ) c.cols := fun h =>
      hi (List.mem_append_left _ (List.mem_append_left _ (List.mem_append_right _ h)))
    have hmoved : ∀ k < c.rows - 1, .cell i ∉ span .cell (k * c.cols : ℕ) c.cols := by
      intro k hk h
      rw [Nat.cast_mul] at h
      exact hi (List.mem_append_left _ (List.mem_append_right _
        (List.mem_flatMap.mpr ⟨k, List.mem_range.mpr hk, List.mem_append_left _ h⟩)))
    have hlast : .cell i ∉ span .cell ((c.rows - 1) * c.cols : ℕ) c.cols := by
      rcases Nat.eq_zero_or_pos c.rows with h0 | hpos
      · rwa [h0, Nat.zero_sub, Nat.zero_mul]
      · intro h
        rw [Nat.cast_mul, Nat.cast_sub hpos, Nat.cast_one] at h
        exact hi (List.mem_append_right _ h)
    change fillCells c.blank ((c.rows - 1) * c.cols) c.cols _ i = c.cells i
    rw [fillCells_off _ hlast]
    apply forRange_off
    intro k hk a
    rw [moveCells_apply (.inl (Nat.mul_le_mul_right _ (Nat.le_succ k))), if_neg (fun h => hmoved k hk (span_covers _ h))]
  case sbuf =>
    intro i hi
    change copyCells _ _ _ _ c.sbuf i = c.sbuf i
    rw [copyCells_apply, if_neg]
    intro h
    exact hi (List.mem_append_left _ (List.mem_append_left _ (List.mem_append_left _ (span_covers _ h))))

theorem nextRow_untouched (c : Console) : Untouched c.nextRowAccesses c c.nextRow.1 := by
  unfold nextRowAccesses nextRow
  by_cases hbot : c.rows ≤ c.row + 1
  · rw [if_pos hbot, if_pos hbot]
    obtain ⟨hcells, hsbuf⟩ := c.vgaScrollUp_untouched
    exact ⟨hcells, hsbuf⟩
  · rw [if_neg hbot, if_neg hbot]
    exact ⟨fun _ _ => rfl, fun _ _ => rfl⟩

theorem wrap_untouched (c : Console) : Untouched c.wrapAccesses c c.wrap.1 := by
  unfold wrapAccesses wrap
  split
  · obtain ⟨hcells, hsbuf⟩ := ({ c with col := 0 } : Console).nextRow_untouched
    exact ⟨hcells, hsbuf⟩
  · exact ⟨fun _ _ => rfl, fun _ _ => rfl⟩

theorem putGlyph_untouched (c : Console) (ch : Int8) : Untouched (c.glyphAccesses ch) c (c.putGlyph ch) := by
  obtain ⟨vram, cursor, he⟩ := c.putGlyph_eq ch
  obtain ⟨hcells, hsbuf⟩ := (c.writeCell ch).wrap_untouched
  rw [he]
  constructor
  case cells =>
    intro i hi
    have hput : i ≠ c.row * c.cols + c.col := by
      rintro rfl
      apply hi
      rw [Nat.cast_add, Nat.cast_mul]
      exact List.mem_append_left _ (List.mem_append_left _ (List.mem_singleton_self _))
    change (c.writeCell ch).wrap.1.cells i = c.cells i
    rw [hcells i fun h => hi (List.mem_append_left _ (List.mem_append_right _ h))]
    exact Function.update_of_ne hput _ _
  case sbuf =>
    intro i hi
    exact hsbuf i fun h => hi (List.mem_append_left _ (List.mem_append_right _ h))

theorem putChar_untouched (c : Console) (ch : Int8) : Untouched (c.putAccesses ch) c (c.putChar ch) := by
  unfold putAccesses putChar
  by_cases hn : ch = 10
  · rw [if_pos hn, if_pos hn]
    obtain ⟨hcells, hsbuf⟩ := ({ c with col := 0 } : Console).nextRow_untouched
    exact ⟨hcells, hsbuf⟩
  · rw [if_neg hn, if_neg hn]
    by_cases hr : ch = 13
    · rw [if_pos (.inl hr), if_pos hr]
      exact ⟨fun _ _ => rfl, fun _ _ => rfl⟩
    · rw [if_neg hr]
      by_cases hb : ch = 8
      · rw [if_pos (.inr hb), if_pos hb]
        split <;> exact ⟨fun _ _ => rfl, fun _ _ => rfl⟩
      · rw [if_neg (not_or.mpr ⟨hr, hb⟩), if_neg hb]
        exact c.putGlyph_untouched ch

theorem Op.run_untouched (c : Console) (o : Op) : Untouched (o.accesses c) c (o.run c) := by
  cases o with
  | putc ch =>
    obtain ⟨cursor, serial, he⟩ := c.consolePutc_eq ch
    obtain ⟨hcells, hsbuf⟩ := c.putChar_untouched ch
    rw [Op.run, he]
    exact ⟨hcells, hsbuf⟩
  | clear =>
    obtain ⟨vram, cursor, he⟩ := c.vgaClear_eq
    obtain ⟨hcells, -⟩ := c.cleared_untouched
    rw [Op.run, consoleClear, he]
    exact ⟨fun i hi => hcells i fun h => hi (List.mem_append_left _ h), fun _ _ => rfl⟩
  | setColor fg bg => exact ⟨fun _ _ => rfl, fun _ _ => rfl⟩
  | page p =>
    have hview (n : ℕ) : Untouched (Op.accesses c (.page p)) c ({ c with viewOffsetRows := n } : Console).renderView := by
      obtain ⟨vram, cursor, he⟩ := ({ c with viewOffsetRows := n } : Console).renderView_eq
      rw [he]
      exact ⟨fun _ _ => rfl, fun _ _ => rfl⟩
    rw [Op.run]
    split
    · cases p with
      | up => exact hview _
      | down => exact hview _
      | home => exact hview _
      | last => exact hview _
    · exact ⟨fun _ _ => rfl, fun _ _ => rfl⟩
  | activate =>
    obtain ⟨vram, cursor, he⟩ := ({ c with active := true } : Console).vgaFlush_eq
    rw [Op.run, he]
    exact ⟨fun _ _ => rfl, fun _ _ => rfl⟩
  | leave => exact ⟨fun _ _ => rfl, fun _ _ => rfl⟩

end Untouched

section Safe

/-! A console whose geometry fits stays inside its arrays. -/

def Fits (cols rows : ℕ) : Prop := cols = 0 ∨ 0 < rows ∧ cols ≤ 80 ∧ rows * cols ≤ 80 * 25

structure Narrow (c : Console) : Prop where
  cols_eq : c.cols = 0
  col_eq : c.col = 0

structure Fitting (c : Console) : Prop extends Valid c where
  cols_le : c.cols ≤ 80
  area_le : c.rows * c.cols ≤ 80 * 25

def Bounded (c : Console) : Prop := Narrow c ∨ Fitting c

variable {c : Console}

theorem cleared_bounded (h : Fits c.cols c.rows) : Bounded c.cleared := by
  rcases h with h0 | ⟨hrows, hcols, harea⟩
  · exact .inl ⟨h0, rfl⟩
  · by_cases h0 : c.cols = 0
    · exact .inl ⟨h0, rfl⟩
    · exact .inr ⟨cleared_valid (Nat.pos_of_ne_zero h0) hrows, hcols, harea⟩

theorem Bounded.fits (h : Bounded c) : Fits c.cols c.rows := by
  rcases h with h | h
  · exact .inl h.cols_eq
  · exact .inr ⟨h.rows_pos, h.cols_le, h.area_le⟩

theorem Fitting.row_area (h : Fitting c) {r : ℕ} (hr : r < c.rows) : (r + 1) * c.cols ≤ 80 * 25 :=
  (Nat.mul_le_mul_right c.cols hr).trans h.area_le

theorem Narrow.of_shape {c' : Console} (h : Narrow c) (hs : c'.shape = c.shape) (hcol : c'.col = 0) : Narrow c' := by
  refine ⟨?_, hcol⟩
  have := congrArg Prod.fst hs
  exact this.trans h.cols_eq

theorem Fitting.of_shape {c' : Console} (h : Fitting c) (hv : Valid c') (hs : c'.shape = c.shape) : Fitting c' := by
  have hcols : c'.cols = c.cols := congrArg Prod.fst hs
  have hrows : c'.rows = c.rows := congrArg (fun s => s.2.1) hs
  refine ⟨hv, ?_, ?_⟩
  · rw [hcols]
    exact h.cols_le
  · rw [hcols, hrows]
    exact h.area_le

theorem nextRow_col (c : Console) : c.nextRow.1.col = c.col := by
  rw [nextRow]
  split <;> rfl

theorem wrap_narrow (h : c.cols = 0) : c.wrap.1.col = 0 := by
  rw [wrap, if_pos (by omega), nextRow_col]

theorem putChar_narrow (h : Narrow c) (ch : Int8) : (c.putChar ch).col = 0 := by
  rw [putChar]
  split_ifs with hn hr hb hpos
  · rw [nextRow_col]
  · rfl
  · rw [h.col_eq] at hpos
    omega
  · exact h.col_eq
  · obtain ⟨vram, cursor, he⟩ := c.putGlyph_eq ch
    rw [he]
    exact wrap_narrow (c := c.writeCell ch) h.cols_eq

theorem consolePutc_bounded (h : Bounded c) (ch : Int8) : Bounded (c.consolePutc ch) := by
  rcases h with h | h
  · left
    apply h.of_shape (consolePutc_shape c ch)
    obtain ⟨cursor, serial, he⟩ := c.consolePutc_eq ch
    rw [he]
    exact putChar_narrow h ch
  · exact .inr (h.of_shape (consolePutc_valid h.toValid ch) (consolePutc_shape c ch))

theorem Bounded.redrawn (h : Bounded c) (vram : ℕ → UInt16) (cursor offset : ℕ) (color : UInt8) (active : Bool) :
    Bounded { c with vram := vram, hwCursor := cursor, viewOffsetRows := offset, color := color, active := active } := by
  rcases h with h | h
  · exact .inl ⟨h.cols_eq, h.col_eq⟩
  · exact .inr { h with }

theorem vgaClear_bounded (h : Fits c.cols c.rows) : Bounded c.vgaClear := by
  obtain ⟨vram, cursor, he⟩ := c.vgaClear_eq
  rw [he]
  exact (cleared_bounded h).redrawn _ _ _ _ _

theorem Op.run_bounded (h : Bounded c) (o : Op) : Bounded (o.run c) := by
  cases o with
  | putc ch => exact consolePutc_bounded h ch
  | clear => exact vgaClear_bounded h.fits
  | setColor fg bg => exact h.redrawn c.vram c.hwCursor c.viewOffsetRows _ c.active
  | page p =>
    rw [Op.run]
    split
    · have hview (n : ℕ) : Bounded ({ c with viewOffsetRows := n } : Console).renderView := by
        obtain ⟨vram, cursor, he⟩ := ({ c with viewOffsetRows := n } : Console).renderView_eq
        rw [he]
        exact h.redrawn _ _ _ _ _
      cases p with
      | up => exact hview _
      | down => exact hview _
      | home => exact hview _
      | last => exact hview _
    · exact h
  | activate =>
    obtain ⟨vram, cursor, he⟩ := ({ c with active := true } : Console).vgaFlush_eq
    rw [Op.run, he]
    exact h.redrawn _ _ _ _ _
  | leave => exact h.redrawn c.vram c.hwCursor c.viewOffsetRows c.color false

theorem Bounded.line_in (h : Bounded c) {r : ℕ} (hr : r < c.rows) : AllIn (span .cell (r * c.cols) c.cols) := by
  apply span_cells
  rcases h with h | h
  · exact .inl h.cols_eq
  · have := h.row_area hr
    rw [Nat.add_mul, Nat.one_mul] at this
    exact .inr ⟨by positivity, by exact_mod_cast this⟩

theorem Bounded.saved_in (h : Bounded c) (hring : 0 < c.cols → c.sbufRows = 512) (i : ℕ) :
    AllIn (span .saved (i % c.sbufRows * c.cols : ℕ) c.cols) := by
  apply span_saved
  by_cases h0 : c.cols = 0
  · exact .inl h0
  · have hcols : c.cols ≤ 80 := by
      rcases h.fits with hz | hf
      · exact absurd hz h0
      · exact hf.2.1
    rw [hring (Nat.pos_of_ne_zero h0)]
    have hmod : i % 512 ≤ 511 := by omega
    have : i % 512 * c.cols ≤ 511 * 80 := Nat.mul_le_mul hmod hcols
    exact .inr ⟨by positivity, by omega⟩

theorem Bounded.ring (h : Bounded c) (hpos : 0 < c.cols) : c.sbufRows = 512 := by
  rcases h with h | h
  · have := h.cols_eq
    omega
  · exact h.ring_rows

theorem Bounded.window_in (h : Bounded c) {n : ℕ} (hn : n ≤ c.rows) : AllIn (c.windowAccesses n) :=
  allIn_flatMap fun _ hk => h.line_in (hk.trans_le hn)

theorem Bounded.render_in (h : Bounded c) : AllIn c.renderAccesses := by
  unfold renderAccesses
  split
  · exact allIn_nil
  · apply AllIn.append
    · exact allIn_flatMap fun k _ => h.saved_in h.ring _
    · exact h.window_in (Nat.sub_le _ _)

theorem Bounded.flush_in (h : Bounded c) : AllIn c.flushAccesses := by
  unfold flushAccesses
  split_ifs
  · exact allIn_nil
  · exact h.render_in
  · exact h.window_in le_rfl

theorem clear_in (h : Fits c.cols c.rows) : AllIn c.clearAccesses := by
  have hc := cleared_bounded h
  apply AllIn.append
  · exact hc.window_in (c := c.cleared) le_rfl
  · split
    · exact hc.flush_in
    · exact allIn_nil

theorem Bounded.scroll_in (h : Bounded c) : AllIn c.scrollAccesses := by
  by_cases h0 : c.cols = 0
  · unfold scrollAccesses span
    rw [h0]
    intro a ha
    simp at ha
  have hrows : 0 < c.rows := by
    rcases h.fits with hz | hf
    · exact absurd hz h0
    · exact hf.1
  refine AllIn.append (AllIn.append (AllIn.append (h.saved_in h.ring _) ?_) ?_) ?_
  · have := h.line_in hrows
    rwa [Nat.cast_zero, zero_mul] at this
  · apply allIn_flatMap
    intro k hk
    apply AllIn.append (h.line_in (by omega))
    have := h.line_in (r := k + 1) (by omega)
    rwa [Nat.cast_add, Nat.cast_one] at this
  · have := h.line_in (r := c.rows - 1) (by omega)
    rwa [Nat.cast_sub hrows, Nat.cast_one] at this

theorem Bounded.nextRow_in (h : Bounded c) : AllIn c.nextRowAccesses := by
  unfold nextRowAccesses
  split
  · exact h.scroll_in
  · exact allIn_nil

theorem Bounded.cursor_in (h : Bounded c) : (Access.cell (c.row * c.cols + c.col)).InRange := by
  rcases h with h | h
  · rw [h.cols_eq, h.col_eq]
    constructor <;> simp
  · have hrow := h.row_area h.row_lt
    rw [Nat.add_mul, Nat.one_mul] at hrow
    have hcol := h.col_lt
    constructor
    · positivity
    · have : c.row * c.cols + c.col < 80 * 25 := by omega
      exact_mod_cast this

theorem Bounded.put_in (h : Bounded c) (ch : Int8) : AllIn (c.putAccesses ch) := by
  have hcell : AllIn [.cell (c.row * c.cols + c.col)] := by
    intro a ha
    rw [List.mem_singleton.mp ha]
    exact h.cursor_in
  have hcol (cells : ℕ → UInt16) : Bounded ({ c with cells := cells, col := 0 } : Console) := by
    rcases h with h | h
    · exact .inl ⟨h.cols_eq, rfl⟩
    · exact .inr { h with col_lt := h.cols_pos }
  have hwrap : Bounded (c.writeCell ch).wrap.1 := by
    rcases h with h | h
    · exact .inl (h.of_shape ((wrap_shape _).trans rfl) (wrap_narrow h.cols_eq))
    · exact .inr (h.of_shape (wrap_valid h.toValid ch) ((wrap_shape _).trans rfl))
  unfold putAccesses
  split_ifs
  · exact (hcol c.cells).nextRow_in
  · exact allIn_nil
  · unfold glyphAccesses
    refine AllIn.append (AllIn.append hcell ?_) ?_
    · unfold wrapAccesses
      split
      · exact (hcol _).nextRow_in
      · exact allIn_nil
    · split_ifs
      · exact allIn_nil
      · exact hwrap.flush_in
      · exact hcell

theorem Bounded.accesses_in (h : Bounded c) (o : Op) : AllIn (o.accesses c) := by
  cases o with
  | putc ch => exact h.put_in ch
  | clear => exact clear_in h.fits
  | setColor fg bg => exact allIn_nil
  | page p =>
    rw [Op.accesses]
    split
    · exact (h.redrawn c.vram c.hwCursor _ c.color c.active).render_in
    · exact allIn_nil
  | activate => exact (h.redrawn c.vram c.hwCursor c.viewOffsetRows c.color true).flush_in
  | leave => exact allIn_nil

/-- Every index that a run of operations uses is inside its array. -/
def StaysInside (c : Console) : Prop := ∀ (ops : List Op) (o : Op), AllIn (o.accesses (ops.foldl Op.run c))

theorem Bounded.run (h : Bounded c) (ops : List Op) : Bounded (ops.foldl Op.run c) := by
  induction ops generalizing c with
  | nil => exact h
  | cons o ops ih => exact ih (Op.run_bounded h o)

theorem Bounded.staysInside (h : Bounded c) : StaysInside c := fun ops o => (h.run ops).accesses_in o

end Safe

section Unsafe

/-! Any other geometry leaves one of the arrays. -/

structure Fed (cols rows n : ℕ) (c : Console) : Prop where
  cols_eq : c.cols = cols
  rows_eq : c.rows = rows
  ring_rows : c.sbufRows = 512
  row_eq : c.row = min n (rows - 1)
  head_eq : c.sbufHead = (n - (rows - 1)) % 512

variable {c : Console} {cols rows n : ℕ}

theorem Fed.newline (h : Fed cols rows n c) (hrows : 0 < rows) : Fed cols rows (n + 1) (c.consolePutc 10) := by
  have hrow := h.row_eq
  have hhead := h.head_eq
  have hr := h.rows_eq
  obtain ⟨cursor, serial, he⟩ := c.consolePutc_eq 10
  rw [he]
  change Fed cols rows (n + 1) { ({ c with col := 0 } : Console).nextRow.1 with hwCursor := cursor, serial := serial }
  rw [nextRow]
  split
  case isTrue hbot =>
    change c.rows ≤ c.row + 1 at hbot
    refine ⟨h.cols_eq, h.rows_eq, h.ring_rows, ?_, ?_⟩
    · change ({ c with col := 0, row := c.row + 1 } : Console).lastRow = _
      rw [lastRow_of_pos (by rw [← hr] at hrows; exact hrows)]
      change c.rows - 1 = _
      omega
    · change (c.sbufHead + 1) % c.sbufRows = _
      rw [h.ring_rows, hhead]
      omega
  case isFalse hbot =>
    change ¬ c.rows ≤ c.row + 1 at hbot
    refine ⟨h.cols_eq, h.rows_eq, h.ring_rows, ?_, ?_⟩
    · change c.row + 1 = _
      omega
    · change c.sbufHead = _
      omega

theorem Fed.newlines (h : Fed cols rows 0 c) (hrows : 0 < rows) (n : ℕ) :
    Fed cols rows n ((List.replicate n (Op.putc 10)).foldl Op.run c) := by
  induction n with
  | zero => exact h
  | succ n ih =>
    rw [List.replicate_succ', List.foldl_append]
    exact ih.newline hrows

theorem leaves_without_rows (hcols : c.cols ≠ 0) (hrows : c.rows = 0) : ¬ StaysInside c := by
  intro h
  have hin := h [] (.putc 10)
  change AllIn ({ c with col := 0 } : Console).nextRowAccesses at hin
  rw [nextRowAccesses, if_pos (show c.rows ≤ c.row + 1 by omega)] at hin
  have hfirst := hin (.cell ((c.rows - 1 : ℤ) * c.cols + (0 : ℕ)))
    (List.mem_append_right _ (mem_span (Nat.pos_of_ne_zero hcols)))
  have h0 : 0 ≤ (c.rows - 1 : ℤ) * c.cols + (0 : ℕ) := hfirst.1
  rw [hrows] at h0
  omega

theorem leaves_when_large (hcols : c.cols ≠ 0) (hrows : 0 < c.rows) (harea : 80 * 25 < c.rows * c.cols) :
    ¬ AllIn (c.windowAccesses c.rows) := by
  intro h
  have hlast := h (.cell ((c.rows - 1 : ℕ) * c.cols + (c.cols - 1 : ℕ)))
    (List.mem_flatMap.mpr ⟨c.rows - 1, List.mem_range.mpr (by omega), mem_span (by omega)⟩)
  obtain ⟨r, hr⟩ : ∃ r, c.rows = r + 1 := ⟨c.rows - 1, by omega⟩
  have hlt : (((c.rows - 1 : ℕ) : ℤ) * c.cols + (c.cols - 1 : ℕ)) < 80 * 25 := hlast.2
  rw [hr, Nat.add_mul, Nat.one_mul] at harea
  rw [hr, Nat.add_sub_cancel] at hlt
  have : r * c.cols + (c.cols - 1) < 80 * 25 := by exact_mod_cast hlt
  omega

theorem leaves_when_wide (h : Fed c.cols c.rows 0 c) (hrows : 0 < c.rows) (hwide : 80 < c.cols) : ¬ StaysInside c := by
  intro hin
  have hfed := h.newlines hrows (c.rows - 1 + 511)
  have hall := hin (List.replicate (c.rows - 1 + 511) (.putc 10)) (.putc 10)
  generalize (List.replicate (c.rows - 1 + 511) (Op.putc 10)).foldl Op.run c = c' at hfed hall
  have hrow := hfed.row_eq
  have hhead := hfed.head_eq
  have hr := hfed.rows_eq
  change AllIn ({ c' with col := 0 } : Console).nextRowAccesses at hall
  rw [nextRowAccesses, if_pos (show c'.rows ≤ c'.row + 1 by omega)] at hall
  have hlast := hall (.saved ((c'.sbufHead % c'.sbufRows * c'.cols : ℕ) + (c'.cols - 1 : ℕ)))
    (List.mem_append_left _ (List.mem_append_left _ (List.mem_append_left _
      (mem_span (by rw [hfed.cols_eq]; omega)))))
  have hlt : ((c'.sbufHead % c'.sbufRows * c'.cols : ℕ) : ℤ) + (c'.cols - 1 : ℕ) < 80 * 512 := hlast.2
  have h511 : c'.sbufHead % c'.sbufRows = 511 := by
    rw [hfed.ring_rows, hhead]
    omega
  rw [h511, hfed.cols_eq] at hlt
  omega

theorem leaves_unless_fits (h : Fed c.cols c.rows 0 c) (hfit : ¬ Fits c.cols c.rows) :
    ¬ (AllIn (c.windowAccesses c.rows) ∧ StaysInside c) := by
  rintro ⟨hwindow, hruns⟩
  apply hfit
  by_cases hcols : c.cols = 0
  · exact .inl hcols
  rcases Nat.eq_zero_or_pos c.rows with hrows | hrows
  · exact absurd hruns (leaves_without_rows hcols hrows)
  · refine .inr ⟨hrows, ?_, ?_⟩
    · by_contra hwide
      exact leaves_when_wide h hrows (by omega) hruns
    · by_contra harea
      exact leaves_when_large hcols hrows (by omega) hwindow

end Unsafe

section Setup

structure Framebuffer where
  text : ℕ → UInt16
  pitch : UInt32
  width : UInt32
  height : UInt32
  bpp : UInt8
  type : UInt8

def Framebuffer.IsText (fb : Framebuffer) : Prop := fb.type = 2 ∧ fb.bpp = 16

instance (fb : Framebuffer) : Decidable fb.IsText := inferInstanceAs (Decidable (_ ∧ _))

/-- `console_init_from_mb2` with the first framebuffer tag, or without one. -/
def consoleInitFromMb2 (c : Console) : Option Framebuffer → Console
  | none => c.consoleInit
  | some fb =>
    if fb.IsText then
      c.consoleInit.consoleInitText fb.text fb.width.toNat fb.height.toNat fb.pitch.toNat
    else c.consoleInit

def vgaFrame (c : Console) : Console :=
  { c with cols := 80, rows := 25, color := 0x0F, row := 0, col := 0, vramPitchChars := 80 }

def textFrame (c : Console) (fb : Framebuffer) : Console :=
  let cols := fb.width.toNat % 2 ^ 16
  let pitchChars := fb.pitch.toNat / 2 % 2 ^ 16
  { c with
    cols := cols
    rows := fb.height.toNat % 2 ^ 16
    vram := fb.text
    vramPitchChars := if pitchChars = 0 then cols else pitchChars }

theorem consoleInitText_eq (c : Console) (fb : Framebuffer) :
    c.consoleInitText fb.text fb.width.toNat fb.height.toNat fb.pitch.toNat =
      { (c.textFrame fb).vgaClear with active := true } := rfl

def initAccesses (c : Console) : List Access := if c.cols = 0 then c.vgaFrame.clearAccesses else c.flushAccesses

def initFromMb2Accesses (c : Console) : Option Framebuffer → List Access
  | none => c.initAccesses
  | some fb => c.initAccesses ++ if fb.IsText then (c.consoleInit.textFrame fb).clearAccesses else []

def createFrame (c : Console) (cols rows : UInt16) : Console :=
  let cols := if cols = 0 then 80 else cols.toNat
  { c with
    cols := cols
    rows := if rows = 0 then 25 else rows.toNat
    color := 0x0F
    row := 0
    col := 0
    vramPitchChars := cols }

def consoleCreateVgaText (c : Console) (cols rows : UInt16) : Console := (c.createFrame cols rows).vgaClear

variable {c : Console}

theorem vgaClear_fed (c : Console) (active : Bool) : Fed c.cols c.rows 0 { c.vgaClear with active := active } := by
  obtain ⟨vram, cursor, he⟩ := c.vgaClear_eq
  rw [he]
  refine ⟨rfl, rfl, rfl, (Nat.zero_min _).symm, ?_⟩
  rw [Nat.zero_sub]
  rfl

theorem cleared_inside_iff (c : Console) (active : Bool) :
    AllIn c.clearAccesses ∧ StaysInside { c.vgaClear with active := active } ↔ Fits c.cols c.rows := by
  constructor
  · rintro ⟨hclear, hruns⟩
    have hfed := vgaClear_fed c active
    by_contra hfit
    apply leaves_unless_fits (c := { c.vgaClear with active := active })
    · rw [hfed.cols_eq, hfed.rows_eq]
      exact hfed
    · rw [hfed.cols_eq, hfed.rows_eq]
      exact hfit
    · refine ⟨?_, hruns⟩
      unfold windowAccesses
      rw [hfed.cols_eq, hfed.rows_eq]
      exact fun a ha => hclear a (List.mem_append_left _ ha)
  · intro hfit
    have hb := (vgaClear_bounded hfit).redrawn c.vgaClear.vram c.vgaClear.hwCursor c.vgaClear.viewOffsetRows
      c.vgaClear.color active
    exact ⟨clear_in hfit, hb.staysInside⟩

theorem fits_default : Fits 80 25 := .inr ⟨by decide, by decide, by decide⟩

theorem init_inside (hc : c.cols = 0) : AllIn c.initAccesses ∧ StaysInside c.consoleInit := by
  unfold initAccesses consoleInit
  rw [if_pos hc, if_pos hc]
  exact (cleared_inside_iff c.vgaFrame true).mpr fits_default

/-- A new console stays inside `cells` and `sbuf` if and only if it has no columns, or has a row, at most 80 columns
and at most 80 * 25 cells. The first part is about the boot console with the framebuffer tag, the second about
`console_create_vga_text`. -/
theorem console_geometry_iff (hc : c.cols = 0) (tag : Option Framebuffer) (cols rows : UInt16) :
    (AllIn (c.initFromMb2Accesses tag) ∧ StaysInside (c.consoleInitFromMb2 tag) ↔
      ∀ fb, tag = some fb → fb.IsText → Fits (fb.width.toNat % 2 ^ 16) (fb.height.toNat % 2 ^ 16)) ∧
    (AllIn (c.createFrame cols rows).clearAccesses ∧ StaysInside (c.consoleCreateVgaText cols rows) ↔
      Fits (if cols = 0 then 80 else cols.toNat) (if rows = 0 then 25 else rows.toNat)) := by
  have hinit := init_inside hc
  constructor
  · cases tag with
    | none => exact iff_of_true hinit (fun fb h => by cases h)
    | some fb =>
      rw [initFromMb2Accesses, consoleInitFromMb2]
      by_cases htext : fb.IsText
      · have hframe := cleared_inside_iff (c.consoleInit.textFrame fb) true
        rw [if_pos htext, if_pos htext, consoleInitText_eq]
        constructor
        · rintro ⟨hall, hruns⟩ fb' hfb -
          obtain rfl := Option.some.inj hfb
          exact hframe.mp ⟨fun a ha => hall a (List.mem_append_right _ ha), hruns⟩
        · intro hfit
          obtain ⟨hclear, hruns⟩ := hframe.mpr (hfit fb rfl htext)
          exact ⟨hinit.1.append hclear, hruns⟩
      · rw [if_neg htext, if_neg htext, List.append_nil]
        refine iff_of_true hinit ?_
        intro fb' hfb htext'
        obtain rfl := Option.some.inj hfb
        exact absurd htext' htext
  · have hcreate := cleared_inside_iff (c.createFrame cols rows) (c.createFrame cols rows).vgaClear.active
    exact hcreate

def fiftyLines : Framebuffer := ⟨fun _ => 0, 160, 80, 50, 16, 2⟩

theorem fifty_lines_overflow : ¬ AllIn (coldConsole.initFromMb2Accesses (some fiftyLines)) := by
  intro h
  have hlast := h (.cell ((25 : ℕ) * (80 : ℕ) + (0 : ℕ)))
    (List.mem_append_right _ (List.mem_append_left _
      (List.mem_flatMap.mpr ⟨25, List.mem_range.mpr (by decide), mem_span (by decide)⟩)))
  have hlt : ((25 : ℕ) : ℤ) * (80 : ℕ) + (0 : ℕ) < 80 * 25 := hlast.2
  omega

theorem console_geometry_iff_cold :
    AllIn (coldConsole.initFromMb2Accesses none) ∧ StaysInside (coldConsole.consoleInitFromMb2 none) ∧
      AllIn (coldConsole.createFrame 40 0).clearAccesses ∧ StaysInside (coldConsole.consoleCreateVgaText 40 0) := by
  obtain ⟨hboot, hcreate⟩ := console_geometry_iff (c := coldConsole) rfl none 40 0
  obtain ⟨h1, h2⟩ := hboot.mpr (fun fb h => by cases h)
  obtain ⟨h3, h4⟩ := hcreate.mpr (.inr ⟨by decide, by decide, by decide⟩)
  exact ⟨h1, h2, h3, h4⟩

end Setup

end DexOs.Console
