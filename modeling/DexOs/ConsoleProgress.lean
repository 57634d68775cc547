import DexOs.ConsoleDecimal
import DexOs.ConsoleHistory
import DexOs.Lib.Words

/-! The progress bar of `console.h`: `console_progress` redraws the line that the cursor is on. -/

namespace DexOs.Console

open DexOs.Lib

def consoleCols : ℕ := 80

def progressPct (done total : ℕ) : ℕ :=
  let total := if total = 0 then 1 else total
  let pct := done * 100 % 2 ^ 64 / total
  if 100 < pct then 100 else pct

def pctLen (pct : ℕ) : ℕ := if 100 ≤ pct then 3 else if 10 ≤ pct then 2 else 1

def reserved (pct : ℕ) : ℕ := 1 + 1 + 1 + 1 + pctLen pct + 1

def labelLen (label : List Int8) (pct : ℕ) : ℕ :=
  let maxLbl := if reserved pct + 10 + 1 < consoleCols then sub64 (sub64 (consoleCols - 1) (reserved pct)) 10 else 0
  if maxLbl < label.length then maxLbl else label.length

def barWidth (label : List Int8) (pct : ℕ) : ℕ :=
  let width := sub64 (sub64 (consoleCols - 1) (reserved pct)) (labelLen label pct)
  let width := if 50 < width then 50 else width
  if width < 10 then 10 else width

def bar (width bars : ℕ) : List Int8 := (List.range width).map fun i => if i < bars then 35 else 46

def lineSends (label : List Int8) (pct : ℕ) : List Sent :=
  let width := barWidth label pct
  (label.take (labelLen label pct)).flatMap putcSends ++ putcSends 32 ++ putcSends 91 ++
    (bar width (pct * width / 100)).flatMap putcSends ++ putcSends 93 ++ putcSends 32 ++ decSends pct ++ putcSends 37

def progressSends (label : List Int8) (done total : ℕ) : List Sent :=
  putcSends 13 ++ (List.replicate (consoleCols - 1) 32).flatMap putcSends ++
    (putcSends 13 ++ lineSends label (progressPct done total))

def consoleProgress (c : Console) (label : List Int8) (done total : ℕ) : Console :=
  (progressSends label done total).foldl Sent.run c

def IsControl (ch : Int8) : Prop := 0 ≤ ch ∧ ch < 32 ∨ ch = 127

instance : DecidablePred IsControl := fun _ => inferInstanceAs (Decidable (_ ∨ _))

/-- The console has not scrolled, and only cells of the cursor's row have changed. -/
structure OnLine (c c' : Console) : Prop where
  cols : c'.cols = c.cols
  row : c'.row = c.row
  sbuf : c'.sbuf = c.sbuf
  sbufHead : c'.sbufHead = c.sbufHead
  sbufCount : c'.sbufCount = c.sbufCount
  viewOffsetRows : c'.viewOffsetRows = c.viewOffsetRows
  cells : ∀ i, i < c.row * c.cols ∨ c.row * c.cols + c.cols ≤ i → c'.cells i = c.cells i

/-- Nothing scrolls, at no point of the output. -/
def Quiet (c : Console) (sends : List Sent) : Prop := ∀ sent, sent <+: sends → OnLine c (sent.foldl Sent.run c)

variable {c c' c'' : Console} {ch : Int8} {a b sends : List Sent}

theorem OnLine.refl (c : Console) : OnLine c c := ⟨rfl, rfl, rfl, rfl, rfl, rfl, fun _ _ => rfl⟩

theorem OnLine.trans (h : OnLine c c') (h' : OnLine c' c'') : OnLine c c'' where
  cols := h'.cols.trans h.cols
  row := h'.row.trans h.row
  sbuf := h'.sbuf.trans h.sbuf
  sbufHead := h'.sbufHead.trans h.sbufHead
  sbufCount := h'.sbufCount.trans h.sbufCount
  viewOffsetRows := h'.viewOffsetRows.trans h.viewOffsetRows
  cells i hi := by
    rw [h'.cells i (by rwa [h.row, h.cols]), h.cells i hi]

section Steps

theorem vgaPutc_eq (c : Console) (ch : Int8) : ∃ cursor, c.vgaPutc ch = { c.putChar ch with hwCursor := cursor } := by
  rw [vgaPutc]
  cases (c.putChar ch).active
  · exact ⟨_, rfl⟩
  · exact ⟨_, rfl⟩

theorem return_onLine (c : Console) : OnLine c (c.vgaPutc 13) ∧ (c.vgaPutc 13).col = 0 := by
  obtain ⟨cursor, he⟩ := c.vgaPutc_eq 13
  rw [he, putChar, if_neg (by decide), if_pos rfl]
  exact ⟨⟨rfl, rfl, rfl, rfl, rfl, rfl, fun _ _ => rfl⟩, rfl⟩

theorem glyph_onLine (hch : ¬ IsControl ch) (hcol : c.col + 1 < c.cols) :
    OnLine c (c.vgaPutc ch) ∧ (c.vgaPutc ch).col = c.col + 1 := by
  have h10 : ch ≠ 10 := by
    rintro rfl
    exact hch (by decide)
  have h13 : ch ≠ 13 := by
    rintro rfl
    exact hch (by decide)
  have h8 : ch ≠ 8 := by
    rintro rfl
    exact hch (by decide)
  obtain ⟨cursor, he⟩ := c.vgaPutc_eq ch
  obtain ⟨vram, cursor', hglyph⟩ := c.putGlyph_eq ch
  have hwrap : (c.writeCell ch).wrap = (c.writeCell ch, false) := if_neg (Nat.not_le.mpr hcol)
  rw [he, putChar, if_neg h10, if_neg h13, if_neg h8, hglyph, hwrap]
  refine ⟨⟨rfl, rfl, rfl, rfl, rfl, rfl, ?_⟩, rfl⟩
  intro i hi
  exact Function.update_of_ne (by omega) _ _

theorem serial_onLine (c : Console) (ch : Int8) : OnLine c (c.serialPutc ch) :=
  ⟨rfl, rfl, rfl, rfl, rfl, rfl, fun _ _ => rfl⟩

end Steps

section Runs

theorem quiet_nil (c : Console) : Quiet c [] := by
  intro sent h
  rw [List.prefix_nil.mp h]
  exact .refl c

theorem quiet_cons {s : Sent} (h : OnLine c (s.run c)) (hq : Quiet (s.run c) sends) : Quiet c (s :: sends) := by
  intro sent hsent
  rcases List.prefix_cons_iff.mp hsent with rfl | ⟨rest, rfl, hrest⟩
  · exact .refl c
  · exact h.trans (hq rest hrest)

theorem Quiet.append (ha : Quiet c a) (hb : Quiet (a.foldl Sent.run c) b) : Quiet c (a ++ b) := by
  rintro sent ⟨rest, hrest⟩
  rcases List.append_eq_append_iff.mp hrest with ⟨more, rfl, -⟩ | ⟨more, rfl, rfl⟩
  · exact ha sent (List.prefix_append sent more)
  · rw [List.foldl_append]
    exact (ha a (List.prefix_refl a)).trans (hb more (List.prefix_append more rest))

theorem quiet_plain (hplain : ∀ ch ∈ toConsole sends, ¬ IsControl ch)
    (hcol : c.col + (toConsole sends).length < c.cols) : Quiet c sends := by
  induction sends generalizing c with
  | nil => exact quiet_nil c
  | cons s sends ih =>
    cases s with
    | vga ch =>
      change ∀ x ∈ ch :: toConsole sends, ¬ IsControl x at hplain
      change c.col + (ch :: toConsole sends).length < c.cols at hcol
      rw [List.length_cons] at hcol
      obtain ⟨hline, hnext⟩ := glyph_onLine (hplain ch List.mem_cons_self) (show c.col + 1 < c.cols by omega)
      apply quiet_cons hline
      apply ih (fun x hx => hplain x (List.mem_cons_of_mem _ hx))
      change (c.vgaPutc ch).col + _ < (c.vgaPutc ch).cols
      rw [hnext, hline.cols]
      omega
    | serial ch => exact quiet_cons (serial_onLine c ch) (ih hplain hcol)

theorem quiet_line (hplain : ∀ ch ∈ toConsole sends, ¬ IsControl ch) (hlen : (toConsole sends).length < c.cols) :
    Quiet c (putcSends 13 ++ sends) := by
  obtain ⟨hline, hcol⟩ := return_onLine c
  apply quiet_cons hline
  apply quiet_cons (serial_onLine _ 13)
  apply quiet_plain hplain
  change (c.vgaPutc 13).col + _ < (c.vgaPutc 13).cols
  rw [hcol, hline.cols]
  omega

end Runs

section Layout

variable {label : List Int8} {pct : ℕ}

def progressLine (label : List Int8) (pct : ℕ) : List Int8 :=
  label.take (labelLen label pct) ++ 32 :: 91 :: bar (barWidth label pct) (pct * barWidth label pct / 100) ++
    93 :: 32 :: decimal pct ++ [37]

theorem progressPct_le (done total : ℕ) : progressPct done total ≤ 100 := by
  unfold progressPct
  dsimp only
  split_ifs <;> omega

theorem reserved_cases (pct : ℕ) : 6 ≤ reserved pct ∧ reserved pct ≤ 8 := by
  unfold reserved pctLen
  split_ifs <;> omega

theorem labelLen_le (label : List Int8) (pct : ℕ) :
    labelLen label pct ≤ label.length ∧ labelLen label pct + reserved pct + 10 ≤ 79 := by
  obtain ⟨-, hle⟩ := reserved_cases pct
  have hcols : consoleCols = 80 := rfl
  have hmax : (if reserved pct + 10 + 1 < consoleCols then sub64 (sub64 (consoleCols - 1) (reserved pct)) 10 else 0) =
      69 - reserved pct := by
    rw [if_pos (by omega), sub64_of_le (show reserved pct ≤ consoleCols - 1 by omega),
      sub64_of_le (show 10 ≤ consoleCols - 1 - reserved pct by omega)]
    omega
  unfold labelLen
  dsimp only
  rw [hmax]
  split_ifs <;> omega

theorem barWidth_bounds (label : List Int8) (pct : ℕ) :
    10 ≤ barWidth label pct ∧ barWidth label pct ≤ 50 ∧ labelLen label pct + reserved pct + barWidth label pct ≤ 79 := by
  obtain ⟨-, hroom⟩ := labelLen_le label pct
  have hcols : consoleCols = 80 := rfl
  unfold barWidth
  rw [sub64_of_le (show reserved pct ≤ consoleCols - 1 by omega), sub64_of_le (by omega)]
  dsimp only
  split_ifs <;> omega

theorem length_decimal_pct (h : pct ≤ 100) : (decimal pct).length ≤ pctLen pct := by
  unfold pctLen
  split_ifs
  · exact length_decimal_le (by decide) (by omega)
  · exact length_decimal_le (by decide) (by omega)
  · exact length_decimal_le (by decide) (by omega)

theorem length_progressLine (h : pct ≤ 100) : (progressLine label pct).length ≤ 79 := by
  obtain ⟨hlabel, -⟩ := labelLen_le label pct
  obtain ⟨-, -, hwidth⟩ := barWidth_bounds label pct
  have hdec := length_decimal_pct h
  have hreserved : reserved pct = pctLen pct + 5 := by
    unfold reserved
    omega
  simp only [progressLine, bar, List.length_append, List.length_cons, List.length_nil, List.length_take, List.length_map,
    List.length_range]
  omega

theorem bar_eq {width bars : ℕ} (h : bars ≤ width) :
    bar width bars = List.replicate bars 35 ++ List.replicate (width - bars) 46 := by
  obtain ⟨rest, rfl⟩ := Nat.exists_eq_add_of_le h
  rw [bar, List.range_add, List.map_append, Nat.add_sub_cancel_left]
  congr 1
  · rw [List.eq_replicate_iff]
    simp +contextual
  · rw [List.eq_replicate_iff]
    simp +contextual

theorem digit_printable {d : ℕ} (h : d < 10) : ¬ IsControl (Int8.ofNat (48 + d)) := by
  have hall : ∀ d : Fin 10, ¬ IsControl (Int8.ofNat (48 + d.val)) := by decide
  exact hall ⟨d, h⟩

theorem decimal_printable (v : ℕ) : ∀ ch ∈ decimal v, ¬ IsControl ch := by
  induction v using Nat.strongRecOn with
  | ind v ih =>
    rcases Nat.lt_or_ge v 10 with hlt | hge
    · rw [decimal_digit hlt, List.forall_mem_singleton]
      exact digit_printable hlt
    · rw [decimal_step hge, List.forall_mem_append, List.forall_mem_singleton]
      exact ⟨ih (v / 10) (by omega), digit_printable (Nat.mod_lt v (by decide))⟩

theorem progressLine_printable (hlabel : ∀ ch ∈ label, ¬ IsControl ch) (pct : ℕ) :
    ∀ ch ∈ progressLine label pct, ¬ IsControl ch := by
  have hspace : ¬ IsControl 32 ∧ ¬ IsControl 91 ∧ ¬ IsControl 93 ∧ ¬ IsControl 37 ∧ ¬ IsControl 35 ∧ ¬ IsControl 46 := by
    decide
  intro ch hch
  simp only [progressLine, bar, List.mem_append, List.mem_cons, List.mem_map, List.not_mem_nil, or_false] at hch
  rcases hch with ((hch | hch | hch | ⟨i, -, hch⟩) | hch | hch | hch) | hch
  · exact hlabel ch (List.mem_of_mem_take hch)
  · rw [hch]
    exact hspace.1
  · rw [hch]
    exact hspace.2.1
  · rw [← hch]
    split_ifs
    · exact hspace.2.2.2.2.1
    · exact hspace.2.2.2.2.2
  · rw [hch]
    exact hspace.2.2.1
  · rw [hch]
    exact hspace.1
  · exact decimal_printable pct ch hch
  · rw [hch]
    exact hspace.2.2.2.1

theorem toConsole_line (label : List Int8) (h : pct ≤ 100) : toConsole (lineSends label pct) = progressLine label pct := by
  have hone (ch : Int8) : toConsole (putcSends ch) = [ch] := rfl
  simp only [lineSends, progressLine, toConsole_append, toConsole_putc, hone, toConsole_dec (h.trans_lt (by decide))]
  simp

theorem progressSends_quiet (hcols : c.cols = 80) (hlabel : ∀ ch ∈ label, ¬ IsControl ch) (done total : ℕ) :
    Quiet c (progressSends label done total) := by
  have hpct := progressPct_le done total
  have hblank : ∀ ch ∈ List.replicate 79 32, ¬ IsControl ch := by
    intro ch hch
    rw [List.eq_of_mem_replicate hch]
    decide
  have hclear : Quiet c (putcSends 13 ++ (List.replicate (consoleCols - 1) 32).flatMap putcSends) := by
    apply quiet_line
    · rwa [toConsole_putc]
    · rw [toConsole_putc, List.length_replicate, hcols]
      decide
  apply hclear.append
  apply quiet_line
  · rw [toConsole_line label hpct]
    exact progressLine_printable hlabel _
  · rw [toConsole_line label hpct, (hclear _ (List.prefix_refl _)).cols, hcols]
    exact Nat.lt_succ_of_le (length_progressLine hpct)

theorem toConsole_progress (label : List Int8) (done total : ℕ) : toConsole (progressSends label done total) =
    13 :: List.replicate 79 32 ++ 13 :: progressLine label (progressPct done total) := by
  rw [progressSends, toConsole_append, toConsole_append, toConsole_append, toConsole_putc,
    toConsole_line label (progressPct_le done total)]
  rfl

end Layout

/-- The console does not scroll and the cursor keeps its row. The last line has at most 79 characters, with a bar of
between 10 and 50 cells. -/
theorem progress_one_line (hcols : c.cols = 80) {label : List Int8} (hlabel : ∀ ch ∈ label, ¬ IsControl ch)
    (done total : ℕ) :
    (∀ sent, sent <+: progressSends label done total → OnLine c (sent.foldl Sent.run c)) ∧
    ∃ line n width bars, toConsole (progressSends label done total) = 13 :: List.replicate 79 32 ++ 13 :: line ∧
      13 ∉ line ∧ line.length ≤ 79 ∧ bars ≤ width ∧ 10 ≤ width ∧ width ≤ 50 ∧
      line = label.take n ++ 32 :: 91 :: (List.replicate bars 35 ++ List.replicate (width - bars) 46) ++
        93 :: 32 :: decimal (progressPct done total) ++ [37] := by
  have hpct := progressPct_le done total
  refine ⟨progressSends_quiet hcols hlabel done total, ?_⟩
  obtain ⟨hmin, hmax, -⟩ := barWidth_bounds label (progressPct done total)
  have hbars : progressPct done total * barWidth label (progressPct done total) / 100 ≤
      barWidth label (progressPct done total) := by
    apply Nat.div_le_of_le_mul
    exact Nat.mul_le_mul_right _ hpct
  refine ⟨_, labelLen label (progressPct done total), _, _, toConsole_progress label done total, ?_,
    length_progressLine hpct, hbars, hmin, hmax, ?_⟩
  · intro hmem
    exact progressLine_printable hlabel _ 13 hmem (by decide)
  · rw [progressLine, bar_eq hbars]

def lastCellConsole : Console := { coldConsole.consoleInit with row := 24, col := 79 }

theorem progress_one_line_lastCell : OnLine lastCellConsole (lastCellConsole.consoleProgress [87, 114] 1 2) := by
  have hlabel : ∀ ch ∈ [87, 114], ¬ IsControl ch := by
    rw [List.forall_mem_cons, List.forall_mem_singleton]
    decide
  exact (progress_one_line (c := lastCellConsole) rfl hlabel 1 2).1 _ (List.prefix_refl _)

end DexOs.Console
