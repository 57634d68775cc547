import DexOs.InputLine

/-! `input_readline` on the console: the line on the screen and the line in the buffer. -/

namespace DexOs

open DexOs.Lib DexOs.Console

namespace Console

def terminal (c : Console) : Terminal := ⟨c.text, c.sbufCount + c.row, c.col, c.color⟩

variable {c : Console} {t : Terminal}

theorem length_text (c : Console) : c.text.length = c.sbufCount + c.rows := by
  rw [text, List.length_append, length_history, length_window]

theorem terminal_refines (h : Valid c) : Refines c.terminal c := by
  have hcount := h.count_le
  have hlen : c.terminal.lines.length = c.sbufCount + c.rows := length_text c
  constructor
  case text =>
    rw [List.rtake, Nat.sub_eq_zero_of_le (by omega), List.drop_zero]
    rfl
  case row =>
    rw [hlen]
    change c.sbufCount + c.row + c.rows = _
    omega
  case col => rfl
  case color => rfl
  case rows_le => omega

theorem text_width (c : Console) : ∀ l ∈ c.text, l.length = c.cols := by
  intro l hl
  rcases List.mem_append.mp hl with hl | hl
  · obtain ⟨i, -, rfl⟩ := List.mem_map.mp hl
    exact length_slice ..
  · obtain ⟨r, -, rfl⟩ := List.mem_map.mp hl
    exact length_slice ..

theorem terminal_even (h : Valid c) (hcols : c.cols = 80) : c.terminal.Even := by
  constructor
  case width =>
    intro l hl
    rw [← hcols]
    exact text_width c l hl
  case row_lt =>
    change c.sbufCount + c.row < c.text.length
    rw [length_text]
    exact Nat.add_lt_add_left h.row_lt _
  case col_lt =>
    rw [← hcols]
    exact h.col_lt

theorem nextRow_scrolls (hr : Refines t c) (w : ℕ) :
    (t.nextRow w).lines.length = t.lines.length + c.nextRow.2.toNat := by
  have hrow := hr.row
  rw [Terminal.nextRow, nextRow]
  by_cases hbot : c.rows ≤ c.row + 1
  · rw [if_pos (by omega), if_pos hbot]
    exact List.length_append
  · rw [if_neg (by omega), if_neg hbot]
    rfl

theorem wrap_scrolls (hr : Refines t c) : (t.wrap c.cols).lines.length = t.lines.length + c.wrap.2.toNat := by
  have hrcol : Refines { t with col := 0 } { c with col := 0 } := { hr with col := rfl }
  rw [Terminal.wrap, wrap, hr.col]
  by_cases hend : c.cols ≤ c.col
  · rw [if_pos hend, if_pos hend]
    exact nextRow_scrolls hrcol _
  · rw [if_neg hend, if_neg hend]
    rfl

theorem put_scrolls (h : Valid c) (hr : Refines t c) (ch : Int8) :
    (t.put c.cols ch).lines.length = t.lines.length + (c.scrolls ch).toNat := by
  have hrcol : Refines { t with col := 0 } { c with col := 0 } := { hr with col := rfl }
  have hwrite := write_refines h hr ch
  have hlen : (t.write ch).lines.length = t.lines.length := List.length_set ..
  rw [Terminal.put, scrolls]
  by_cases hn : ch = 10
  · rw [if_pos hn, if_pos hn]
    exact nextRow_scrolls hrcol _
  by_cases hret : ch = 13
  · rw [if_neg hn, if_neg hn, if_pos hret, if_pos (.inl hret)]
    rfl
  by_cases hb : ch = 8
  · rw [if_neg hn, if_neg hn, if_neg hret, if_pos hb, if_pos (.inr hb)]
    rfl
  rw [if_neg hn, if_neg hn, if_neg hret, if_neg hb, if_neg (not_or.mpr ⟨hret, hb⟩), ← hlen]
  exact wrap_scrolls hwrite

theorem Page.run_refines (hr : Refines t c) (p : Page) : Refines t (p.run c) := by
  have hview (n : ℕ) : Refines t ({ c with viewOffsetRows := n }.renderView) := by
    obtain ⟨vram, cursor, he⟩ := ({ c with viewOffsetRows := n } : Console).renderView_eq
    rw [he]
    exact { hr with }
  cases p with
  | up => exact hview _
  | down => exact hview _
  | home => exact hview _
  | last => exact hview _

end Console

namespace Session

variable {r : ℕ} {t : Terminal} {s : Session}

/-- The terminal follows the console; the input started in its row `r`. -/
structure Tracks (r : ℕ) (t : Terminal) (s : Session) : Prop where
  valid : Valid s.console
  cols : s.console.cols = 80
  refines : Refines t s.console
  row : s.row + t.lines.length = r + s.console.rows

theorem putc_tracks (h : Tracks r t s) (ch : Int8) : Tracks r (t.put 80 ch) (s.putc ch) := by
  have hput := put_scrolls h.valid h.refines ch
  have hrefines := consolePutc_refines h.valid h.refines ch
  have hrow := h.row
  rw [h.cols] at hput hrefines
  constructor
  case valid => exact consolePutc_valid h.valid ch
  case cols => exact (consolePutc_cols _ ch).trans h.cols
  case refines => exact hrefines
  case row =>
    have hrows : (s.console.consolePutc ch).rows = s.console.rows :=
      congrArg (fun s => s.2.1) (consolePutc_shape s.console ch)
    change (if s.console.scrolls ch then s.row - 1 else s.row) + _ = (r + (s.console.consolePutc ch).rows : ℤ)
    rw [hput, hrows]
    cases s.console.scrolls ch with
    | true =>
      simp
      omega
    | false =>
      simp
      omega

theorem puts_track (h : Tracks r t s) (chs : List Int8) : Tracks r (chs.foldl (.put 80) t) (chs.foldl putc s) := by
  induction chs generalizing t s with
  | nil => exact h
  | cons ch chs ih => exact ih (putc_tracks h ch)

theorem puts_col (s : Session) (chs : List Int8) : (chs.foldl putc s).col = s.col := by
  induction chs generalizing s with
  | nil => rfl
  | cons ch chs ih => exact ih (s.putc ch)

theorem puts_shape (s : Session) (chs : List Int8) : (chs.foldl putc s).console.shape = s.console.shape := by
  induction chs generalizing s with
  | nil => rfl
  | cons ch chs ih =>
    rw [List.foldl_cons, ih]
    exact consolePutc_shape s.console ch

theorem key_line (maxLen : ℕ) (s : Session) (k : Key) : (s.key maxLen k).line = (s.line.edit maxLen k).1 := by
  cases k <;> rfl

theorem key_col (maxLen : ℕ) (s : Session) (k : Key) : (s.key maxLen k).col = s.col := by
  cases k <;> exact puts_col s _

theorem key_rows (maxLen : ℕ) (s : Session) (k : Key) : (s.key maxLen k).console.rows = s.console.rows := by
  have hputs : ((s.line.edit maxLen k).2.foldl putc s).console.rows = s.console.rows :=
    congrArg (fun s => s.2.1) (puts_shape s (s.line.edit maxLen k).2)
  cases k with
  | page p => exact congrArg (fun s => s.2.1) (p.run_shape s.console)
  | _ => exact hputs

def echo (maxLen : ℕ) (s : Session) (t : Terminal) (k : Key) : Terminal := (s.line.edit maxLen k).2.foldl (.put 80) t

theorem key_tracks (maxLen : ℕ) (h : Tracks r t s) (k : Key) : Tracks r (s.echo maxLen t k) (s.key maxLen k) := by
  have hputs := puts_track h (s.line.edit maxLen k).2
  cases k with
  | page p =>
    have hrows := key_rows maxLen s (.page p)
    constructor
    case valid => exact p.run_valid h.valid
    case cols => exact (congrArg Prod.fst (p.run_shape s.console)).trans h.cols
    case refines => exact p.run_refines h.refines
    case row =>
      rw [hrows]
      exact h.row
  | _ => exact { hputs with }

theorem cell_eq (h : Tracks r t s) (hkept : t.lines.length ≤ r + 512 + s.console.rows) (i : ℕ) :
    s.cell i = (t.lines[r + (s.col + i) / 80]?).bind fun l => l[(s.col + i) % 80]? := by
  have hcount := h.refines.count
  have hrow := h.row
  have hle := h.refines.rows_le
  have hstart : (s.console.sbufCount + s.row : ℤ) = r - (t.lines.length - (512 + s.console.rows) : ℕ) := by omega
  have hnat : (r - (t.lines.length - (512 + s.console.rows) : ℕ) : ℤ).toNat + (t.lines.length - (512 + s.console.rows)) = r := by
    omega
  unfold cell
  dsimp only
  rw [hstart, if_neg (by omega), h.refines.text, List.rtake, List.getElem?_drop]
  congr 2
  omega

theorem cell_some (h : Tracks r t s) (hkept : t.lines.length ≤ r + 512 + s.console.rows) (heven : t.Even) {i : ℕ}
    (hi : (r * 80 + s.col + i) / 80 < t.lines.length) : s.cell i = some (t.cellAt (r * 80 + s.col + i)) := by
  rw [cell_eq h hkept, Terminal.cellAt]
  rw [show (r * 80 + s.col + i) / 80 = r + (s.col + i) / 80 by omega] at hi ⊢
  rw [show (r * 80 + s.col + i) % 80 = (s.col + i) % 80 by omega, List.getElem?_eq_getElem hi, Option.bind_some,
    List.getElem?_eq_getElem (by rw [heven.width _ (List.getElem_mem hi)]; omega)]
  rfl

/-- The cursor of the console is at the cell of index `cur`. -/
def CursorAt (s : Session) : Prop :=
  (s.console.row : ℤ) = s.row + ((s.col + s.line.cur) / 80 : ℕ) ∧ s.console.col = (s.col + s.line.cur) % 80

theorem cursorAt_iff (h : Tracks r t s) (heven : t.Even) :
    s.CursorAt ↔ t.tape.pos = r * 80 + s.col + s.line.cur := by
  have hrow := h.row
  have hsame := h.refines.row
  have hcol := h.refines.col
  have hlt := heven.col_lt
  change _ ↔ t.row * 80 + t.col = _
  unfold CursorAt
  omega

theorem echo_reach {p maxLen : ℕ} (heven : t.Even) (hl : s.line.Sound maxLen) (hpos : t.tape.pos = p + s.line.cur)
    (hreach : (p + s.line.buf.length) / 80 < t.lines.length) (k : Key) :
    (p + (s.line.edit maxLen k).1.buf.length) / 80 < (s.echo maxLen t k).lines.length := by
  have hsent := (Line.edit_modest hl k).sent
  have hgrow : (s.line.edit maxLen k).1.buf.length ≤ s.line.buf.length →
      (p + (s.line.edit maxLen k).1.buf.length) / 80 < (s.echo maxLen t k).lines.length := by
    intro hle
    have hlines : t.lines.length ≤ (s.echo maxLen t k).lines.length := (Terminal.puts_echo heven hsent).length_ge
    have hdiv : (p + (s.line.edit maxLen k).1.buf.length) / 80 ≤ (p + s.line.buf.length) / 80 :=
      Nat.div_le_div_right (by omega)
    omega
  by_cases hle : (s.line.edit maxLen k).1.buf.length ≤ s.line.buf.length
  · exact hgrow hle
  · obtain ⟨ch, hroom, rfl⟩ := Line.char_of_longer hle
    have hcur := hl.cur_le
    have hins : (s.line.buf.insertIdx s.line.cur ch.1).length = s.line.buf.length + 1 :=
      List.length_insertIdx_of_le_length hcur _
    have hglyphs : ∀ c ∈ ch.1 :: (s.line.buf.insertIdx s.line.cur ch.1).drop (s.line.cur + 1), Terminal.Glyph c := by
      intro c hc
      rcases List.mem_cons.mp hc with rfl | hc
      · exact Line.glyph_of_printable ch
      · exact Line.inserted_glyph hl ch c (List.mem_of_mem_drop hc)
    have hall := Terminal.puts_reach heven hglyphs (s.line.buf.length + 1 - (s.line.cur + 1))
    rw [hpos, List.length_cons, List.length_drop, hins] at hall
    rw [echo, Line.edit, if_pos hroom]
    dsimp only
    rw [hins]
    have hend : p + s.line.cur + (s.line.buf.length + 1 - (s.line.cur + 1) + 1) = p + (s.line.buf.length + 1) := by omega
    rw [hend] at hall
    exact hall

variable {c : Console}

/-- The line on the screen is the line in the buffer. `c` is the console before the input. -/
structure Shows (c : Console) (s : Session) : Prop where
  text : ∀ i ch, s.line.buf[i]? = some ch → s.cell i = some (vgaEntry ch s.console.color)
  rest : ∃ x, s.cell s.line.buf.length = some x ∧ (x = s.console.blank ∨ (start c).cell s.line.buf.length = some x)
  cursor : s.CursorAt

structure Kept (c : Console) (t : Terminal) (s : Session) : Prop where
  tracks : Tracks c.terminal.row t s
  even : t.Even
  color : t.color = c.color
  col : s.col = c.col
  rows : s.console.rows = c.rows
  sound : s.line.Sound 128
  pos : t.tape.pos = c.terminal.row * 80 + c.col + s.line.cur
  written : Line.Written c.terminal.cellAt (c.terminal.row * 80 + c.col) c.color s.line.buf t.cellAt
  reach : (c.terminal.row * 80 + c.col + s.line.buf.length) / 80 < t.lines.length
  length_le : t.lines.length ≤ max c.terminal.lines.length (c.terminal.row + 6)

theorem start_tracks (hv : Valid c) (hcols : c.cols = 80) : Tracks c.terminal.row c.terminal (start c) := by
  have hlen : c.terminal.lines.length = c.sbufCount + c.rows := length_text c
  constructor
  case valid => exact hv
  case cols => exact hcols
  case refines => exact terminal_refines hv
  case row =>
    change (c.row + c.terminal.lines.length : ℤ) = (c.sbufCount + c.row : ℕ) + c.rows
    omega

theorem start_kept (hv : Valid c) (hcols : c.cols = 80) : Kept c c.terminal (start c) := by
  have heven := terminal_even hv hcols
  have hrow := heven.row_lt
  have hcol : c.col < 80 := heven.col_lt
  constructor
  case tracks => exact start_tracks hv hcols
  case even => exact heven
  case color => rfl
  case col => rfl
  case rows => rfl
  case sound => exact ⟨le_rfl, Nat.zero_lt_succ 127, fun ch hch => absurd hch List.not_mem_nil⟩
  case pos => rfl
  case written => exact ⟨fun i ch hch => by simp [start] at hch, fun i _ => .inr rfl⟩
  case reach =>
    change (c.terminal.row * 80 + c.col + 0) / 80 < _
    omega
  case length_le => exact Nat.le_max_left _ _

theorem Kept.in_sight (h : Kept c t s) : t.lines.length ≤ c.terminal.row + 512 + s.console.rows := by
  have hlen : c.terminal.lines.length = c.sbufCount + c.rows := length_text c
  have hrow : c.terminal.row = c.sbufCount + c.row := rfl
  have hle := h.length_le
  rw [h.rows]
  omega

theorem Kept.shows (hv : Valid c) (hcols : c.cols = 80) (h : Kept c t s) : Shows c s := by
  have hcolor : s.console.color = c.color := h.tracks.refines.color.symm.trans h.color
  have hcell {i : ℕ} (hi : i ≤ s.line.buf.length) : s.cell i = some (t.cellAt (c.terminal.row * 80 + c.col + i)) := by
    have hdiv : (c.terminal.row * 80 + c.col + i) / 80 ≤ (c.terminal.row * 80 + c.col + s.line.buf.length) / 80 :=
      Nat.div_le_div_right (by omega)
    have hreach := h.reach
    rw [← h.col] at hdiv hreach ⊢
    exact cell_some h.tracks h.in_sight h.even (by omega)
  constructor
  case text =>
    intro i ch hch
    have hi : i < s.line.buf.length := (List.getElem?_eq_some_iff.mp hch).1
    rw [hcell hi.le, h.written.text i ch hch, hcolor]
  case rest =>
    refine ⟨_, hcell le_rfl, ?_⟩
    rcases h.written.rest _ le_rfl with hblank | hold
    · left
      rw [hblank, blank, hcolor]
    · by_cases hrow : (c.terminal.row * 80 + c.col + s.line.buf.length) / 80 < c.terminal.lines.length
      · right
        have hk := start_kept hv hcols
        rw [hold]
        exact cell_some hk.tracks hk.in_sight hk.even hrow
      · left
        rw [hold, Terminal.cellAt, List.getElem?_eq_none (by omega), blank, hcolor]
        rfl
  case cursor =>
    rw [cursorAt_iff h.tracks h.even, h.col]
    exact h.pos

theorem key_kept (hcol₀ : c.col < 80) (h : Kept c t s) (k : Key) :
    ((s.key 128 k).CursorAt ↔ s.line.StaysInRow 128 c.col k) ∧
      (s.line.StaysInRow 128 c.col k → Kept c (s.echo 128 t k) (s.key 128 k)) := by
  have hedit := Line.edit_edited (τ := t.tape) h.sound h.written h.pos k
  have hmodest := Line.edit_modest h.sound k
  have hecho : Terminal.Echoes t (s.echo 128 t k) (s.line.edit 128 k).2 :=
    Terminal.puts_echo h.even hmodest.sent
  have htracks := key_tracks 128 h.tracks k
  have hline := key_line 128 s k
  have hcol : (s.key 128 k).col = c.col := (key_col 128 s k).trans h.col
  rw [← h.color, ← hecho.tape] at hedit
  constructor
  · rw [cursorAt_iff htracks hecho.even, hcol, hline]
    exact hedit.pos_iff
  · intro hstays
    constructor
    case tracks => exact htracks
    case even => exact hecho.even
    case color => exact hecho.color.trans h.color
    case col => exact hcol
    case rows => exact (key_rows 128 s k).trans h.rows
    case sound =>
      rw [hline]
      exact hmodest.sound
    case pos =>
      rw [hline]
      exact hedit.pos_iff.mpr hstays
    case written =>
      rw [hline, ← h.color]
      exact hedit.written hstays
    case reach =>
      rw [hline]
      exact echo_reach h.even h.sound h.pos h.reach k
    case length_le =>
      have hold := h.length_le
      have hnew : (t.tape.pos + (s.line.edit 128 k).2.length) / 80 < c.terminal.row + 6 := by
        have hlen := hmodest.length_le
        have hcur := h.sound.cur_le
        have hlt := h.sound.length_lt
        rw [h.pos]
        omega
      have hle := hecho.length_le
      omega

theorem typed_concat (maxLen : ℕ) (c : Console) (keys : List Key) (k : Key) :
    typed maxLen c (keys ++ [k]) = (typed maxLen c keys).key maxLen k := by
  rw [typed, List.foldl_append]
  rfl

theorem typed_kept (hv : Valid c) (hcols : c.cols = 80) {keys : List Key}
    (h : ∀ done k, done ++ [k] <+: keys → (typed 128 c done).line.StaysInRow 128 c.col k) :
    ∃ t, Kept c t (typed 128 c keys) := by
  induction keys using List.reverseRecOn with
  | nil => exact ⟨_, start_kept hv hcols⟩
  | append_singleton keys k ih =>
    obtain ⟨t, hkept⟩ := ih fun done k' hp => h done k' (hp.trans (List.prefix_append _ _))
    have hcol : c.col < 80 := hcols ▸ hv.col_lt
    rw [typed_concat]
    exact ⟨_, (key_kept hcol hkept k).2 (h keys k List.prefix_rfl)⟩

/-- The screen follows the line buffer as long as the editor has to move back inside a row only: a `\b` in the first
column does not lead to the row above. -/
theorem line_shown_iff (hv : Valid c) (hcols : c.cols = 80) (keys : List Key) :
    (∀ done, done <+: keys → Shows c (typed 128 c done)) ↔
      ∀ done k, done ++ [k] <+: keys → (typed 128 c done).line.StaysInRow 128 c.col k := by
  constructor
  · intro hshows
    induction keys using List.reverseRecOn with
    | nil =>
      intro done k hp
      exact absurd (List.prefix_nil.mp hp) (by simp)
    | append_singleton keys k ih =>
      have hbefore := ih fun done hp => hshows done (hp.trans (List.prefix_append _ _))
      intro done k' hp
      rcases List.prefix_concat_iff.mp hp with heq | hp
      · obtain ⟨rfl, rfl⟩ := List.append_singleton_inj.mp heq
        obtain ⟨t, hkept⟩ := typed_kept hv hcols hbefore
        have hcol : c.col < 80 := hcols ▸ hv.col_lt
        have hcursor := (hshows _ List.prefix_rfl).cursor
        rw [typed_concat] at hcursor
        exact (key_kept hcol hkept _).1.mp hcursor
      · exact hbefore done k' hp
  · intro hstays done hp
    obtain ⟨t, hkept⟩ := typed_kept hv hcols fun d k hd => hstays d k (hd.trans hp)
    exact hkept.shows hv hcols

theorem line_shown_iff_vga : Shows vgaConsole.consoleClear (typed 128 vgaConsole.consoleClear [.char ⟨97, by decide⟩, .left]) := by
  have hvalid : Valid vgaConsole.consoleClear := consoleClear_valid (by decide) (by decide)
  have hstays : ∀ done k, done ++ [k] <+: [.char ⟨97, by decide⟩, .left] →
      (typed 128 vgaConsole.consoleClear done).line.StaysInRow 128 vgaConsole.consoleClear.col k := by
    intro done k hp
    rcases done with _ | ⟨k₁, _ | ⟨k₂, done⟩⟩
    · obtain rfl : k = .char ⟨97, by decide⟩ := by simpa using hp
      decide +kernel
    · obtain ⟨rfl, rfl⟩ : k₁ = .char ⟨97, by decide⟩ ∧ k = .left := by simpa using hp
      decide +kernel
    · simp at hp
  exact (line_shown_iff hvalid rfl _).mpr hstays _ List.prefix_rfl

theorem left_stays_below : ¬ ∀ c : Console, Valid c → c.cols = 80 → ∀ keys, Shows c (typed 128 c keys) := by
  intro h
  have hvalid : Valid vgaConsole.consoleClear := consoleClear_valid (by decide) (by decide)
  have hshows := h { vgaConsole.consoleClear with col := 79 } { hvalid with col_lt := by decide } rfl
    [.char ⟨97, by decide⟩, .left]
  exact absurd hshows.cursor.2 (by decide +kernel)

end Session

end DexOs
