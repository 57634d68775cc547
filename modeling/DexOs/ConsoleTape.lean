import DexOs.ConsoleTerminal
import DexOs.Lib.Tape

/-! A terminal of 80 columns on which no newline is printed is a tape. -/

namespace DexOs

open DexOs.Lib DexOs.Console

namespace Terminal

structure Even (t : Terminal) : Prop where
  width : ∀ l ∈ t.lines, l.length = 80
  row_lt : t.row < t.lines.length
  col_lt : t.col < 80

def cellAt (t : Terminal) (p : ℕ) : UInt16 := ((t.lines[p / 80]?).bind fun l => l[p % 80]?).getD (vgaEntry 32 t.color)

def tape (t : Terminal) : Tape UInt16 := ⟨t.cellAt, t.row * 80 + t.col⟩

variable {t : Terminal} {ch : Int8}

theorem Even.line (h : Even t) : ∃ l, t.lines[t.row]? = some l ∧ l.length = 80 :=
  ⟨_, List.getElem?_eq_getElem h.row_lt, h.width _ (List.getElem_mem h.row_lt)⟩

theorem write_cellAt (h : Even t) (ch : Int8) (p : ℕ) :
    (t.write ch).cellAt p = Function.update t.cellAt (t.row * 80 + t.col) (vgaEntry ch t.color) p := by
  obtain ⟨l, hl, hlen⟩ := h.line
  have hcol := h.col_lt
  have hset : (t.write ch).lines = t.lines.set t.row (l.set t.col (vgaEntry ch t.color)) := by
    rw [write, List.getD_eq_getElem?_getD, hl]
    rfl
  unfold cellAt
  rw [hset, Function.update_apply]
  by_cases hrow : p / 80 = t.row
  · rw [hrow, List.getElem?_set_self h.row_lt, hl, Option.bind_some, Option.bind_some]
    by_cases hp : p % 80 = t.col
    · rw [hp, List.getElem?_set_self (by omega), if_pos (by omega)]
      rfl
    · rw [List.getElem?_set_ne (Ne.symm hp), if_neg (by omega)]
      rfl
  · rw [List.getElem?_set_ne (Ne.symm hrow), if_neg (by omega)]
    rfl

theorem write_width (h : Even t) (ch : Int8) : ∀ l ∈ (t.write ch).lines, l.length = 80 := by
  obtain ⟨l, hl, hlen⟩ := h.line
  intro m hm
  rw [write, List.getD_eq_getElem?_getD, hl] at hm
  rcases List.mem_or_eq_of_mem_set hm with hm | rfl
  · exact h.width m hm
  · rw [List.length_set]
    exact hlen

theorem append_blank_cellAt (t : Terminal) (p : ℕ) :
    ({ t with lines := t.lines ++ [List.replicate 80 (vgaEntry 32 t.color)] } : Terminal).cellAt p = t.cellAt p := by
  unfold cellAt
  dsimp only
  rcases Nat.lt_trichotomy (p / 80) t.lines.length with hlt | heq | hgt
  · rw [List.getElem?_append_left hlt]
  · rw [heq, List.getElem?_concat_length, List.getElem?_eq_none le_rfl, Option.bind_some,
      List.getElem?_replicate, if_pos (Nat.mod_lt _ (by decide))]
    rfl
  · rw [List.getElem?_eq_none (by simp; omega), List.getElem?_eq_none (by omega)]

theorem nextRow_row (w : ℕ) (t : Terminal) : (t.nextRow w).row = t.row + 1 := by
  unfold nextRow
  split <;> rfl

theorem nextRow_col (w : ℕ) (t : Terminal) : (t.nextRow w).col = t.col := by
  unfold nextRow
  split <;> rfl

theorem nextRow_color (w : ℕ) (t : Terminal) : (t.nextRow w).color = t.color := by
  unfold nextRow
  split <;> rfl

theorem nextRow_cellAt (t : Terminal) : (t.nextRow 80).cellAt = t.cellAt := by
  unfold nextRow
  split
  · funext p
    exact append_blank_cellAt t p
  · rfl

theorem nextRow_length (w : ℕ) (h : t.row < t.lines.length) :
    (t.nextRow w).lines.length = max t.lines.length (t.row + 2) := by
  unfold nextRow
  split
  · rw [List.length_append]
    simp only [List.length_cons, List.length_nil]
    omega
  · change t.lines.length = _
    omega

theorem nextRow_even (h : Even t) : Even (t.nextRow 80) := by
  refine ⟨?_, ?_, ?_⟩
  · unfold nextRow
    split
    · intro l hl
      rcases List.mem_append.mp hl with hl | hl
      · exact h.width l hl
      · rw [List.mem_singleton.mp hl, List.length_replicate]
    · exact h.width
  · rw [nextRow_row, nextRow_length 80 h.row_lt]
    omega
  · rw [nextRow_col]
    exact h.col_lt

def Glyph (ch : Int8) : Prop := ch ≠ 10 ∧ ch ≠ 13 ∧ ch ≠ 8

structure Prints (t t' : Terminal) (ch : Int8) : Prop where
  even : Even t'
  color : t'.color = t.color
  tape : t'.tape = t.tape.print (vgaEntry ch t.color)
  length : t'.lines.length = max t.lines.length (t'.row + 1)

theorem put_prints (h : Even t) (hch : Glyph ch) : Prints t (t.put 80 ch) ch := by
  have hput : t.put 80 ch = (t.write ch).wrap 80 := by
    rw [put, if_neg hch.1, if_neg hch.2.1, if_neg hch.2.2]
  have hcell : (t.write ch).cellAt = Function.update t.cellAt (t.row * 80 + t.col) (vgaEntry ch t.color) :=
    funext fun p => write_cellAt h ch p
  have hlen : (t.write ch).lines.length = t.lines.length := List.length_set ..
  have hrow := h.row_lt
  have hcol := h.col_lt
  rw [hput, wrap]
  split
  case isTrue hend =>
    change 80 ≤ t.col + 1 at hend
    have heven : Even { t.write ch with col := 0 } :=
      ⟨write_width h ch, show t.row < _ by rw [hlen]; exact hrow, Nat.zero_lt_succ 79⟩
    constructor
    case even => exact nextRow_even heven
    case color => exact nextRow_color 80 _
    case tape =>
      unfold tape
      rw [nextRow_cellAt, nextRow_row, nextRow_col]
      change Tape.mk (t.write ch).cellAt ((t.row + 1) * 80 + 0) = ⟨_, t.row * 80 + t.col + 1⟩
      rw [hcell]
      congr 1
      omega
    case length =>
      rw [nextRow_length 80 heven.row_lt, nextRow_row]
      change max (t.write ch).lines.length (t.row + 2) = max _ (t.row + 1 + 1)
      rw [hlen]
  case isFalse hend =>
    change ¬ 80 ≤ t.col + 1 at hend
    constructor
    case even => exact ⟨write_width h ch, show t.row < _ by rw [hlen]; exact hrow, show t.col + 1 < 80 by omega⟩
    case color => rfl
    case tape =>
      change Tape.mk (t.write ch).cellAt (t.row * 80 + (t.col + 1)) = ⟨_, t.row * 80 + t.col + 1⟩
      rw [hcell]
      rfl
    case length =>
      rw [hlen]
      change _ = max _ (t.row + 1)
      omega

theorem put_back_even (h : Even t) : Even (t.put 80 8) := by
  have hcol := h.col_lt
  exact ⟨h.width, h.row_lt, show t.col - 1 < 80 by omega⟩

theorem put_back_tape (h : Even t) : (t.put 80 8).tape = t.tape.back 80 := by
  have hcol := h.col_lt
  change Tape.mk t.cellAt (t.row * 80 + (t.col - 1)) = ⟨t.cellAt, if (t.row * 80 + t.col) % 80 = 0 then _ else _⟩
  congr 1
  change _ = if (t.row * 80 + t.col) % 80 = 0 then t.row * 80 + t.col else t.row * 80 + t.col - 1
  split <;> omega

def feed (color : UInt8) (τ : Tape UInt16) (ch : Int8) : Tape UInt16 :=
  if ch = 8 then τ.back 80 else τ.print (vgaEntry ch color)

def Sent (ch : Int8) : Prop := ch = 8 ∨ Glyph ch

structure Echoes (t t' : Terminal) (chs : List Int8) : Prop where
  even : Even t'
  color : t'.color = t.color
  tape : t'.tape = chs.foldl (feed t.color) t.tape
  length_ge : t.lines.length ≤ t'.lines.length
  length_le : t'.lines.length ≤ max t.lines.length ((t.tape.pos + chs.length) / 80 + 1)

theorem put_echoes (h : Even t) (hch : Sent ch) : Echoes t (t.put 80 ch) [ch] := by
  rcases hch with rfl | hch
  · exact ⟨put_back_even h, rfl, put_back_tape h, le_rfl, Nat.le_max_left _ _⟩
  · have hp := put_prints h hch
    have hlen := hp.length
    have hrow : (t.put 80 ch).row = (t.tape.pos + 1) / 80 := by
      have hpos : (t.put 80 ch).row * 80 + (t.put 80 ch).col = t.tape.pos + 1 := congrArg Tape.pos hp.tape
      have hcol := hp.even.col_lt
      omega
    refine ⟨hp.even, hp.color, ?_, ?_, ?_⟩
    · rw [hp.tape, List.foldl_cons, feed, if_neg hch.2.2]
      rfl
    · rw [hlen]
      exact Nat.le_max_left _ _
    · rw [hlen, hrow]
      rfl

theorem feed_pos_le (color : UInt8) (τ : Tape UInt16) (ch : Int8) : (feed color τ ch).pos ≤ τ.pos + 1 := by
  unfold feed
  split
  · change (if τ.pos % 80 = 0 then τ.pos else τ.pos - 1) ≤ τ.pos + 1
    split <;> omega
  · exact le_rfl

theorem puts_echo (h : Even t) {chs : List Int8} (hchs : ∀ ch ∈ chs, Sent ch) : Echoes t (chs.foldl (put 80) t) chs := by
  induction chs generalizing t with
  | nil => exact ⟨h, rfl, rfl, le_rfl, Nat.le_max_left _ _⟩
  | cons ch chs ih =>
    have hfirst := put_echoes h (hchs ch List.mem_cons_self)
    have hrest := ih hfirst.even fun ch hch => hchs ch (List.mem_cons_of_mem _ hch)
    have hpos : (t.put 80 ch).tape.pos ≤ t.tape.pos + 1 := by
      rw [hfirst.tape]
      exact feed_pos_le _ _ _
    have hlen1 := hfirst.length_le
    have hlen2 := hrest.length_le
    rw [List.length_singleton] at hlen1
    refine ⟨hrest.even, hrest.color.trans hfirst.color, ?_, hfirst.length_ge.trans hrest.length_ge, ?_⟩
    · rw [List.foldl_cons, hrest.tape, hfirst.color, hfirst.tape]
      rfl
    · rw [List.foldl_cons, List.length_cons]
      have hdiv1 : (t.tape.pos + 1) / 80 ≤ (t.tape.pos + (chs.length + 1)) / 80 := Nat.div_le_div_right (by omega)
      have hdiv2 : ((t.put 80 ch).tape.pos + chs.length) / 80 ≤ (t.tape.pos + (chs.length + 1)) / 80 :=
        Nat.div_le_div_right (by omega)
      omega

theorem feed_text (color : UInt8) (τ : Tape UInt16) {chs : List Int8} (h : ∀ ch ∈ chs, ch ≠ 8) :
    chs.foldl (feed color) τ = τ.printAll (chs.map fun ch => vgaEntry ch color) := by
  induction chs generalizing τ with
  | nil => rfl
  | cons ch chs ih =>
    rw [List.foldl_cons, feed, if_neg (h ch List.mem_cons_self), ih _ fun ch hch => h ch (List.mem_cons_of_mem _ hch)]
    rfl

theorem puts_reach (h : Even t) {chs : List Int8} (hchs : ∀ ch ∈ chs, Glyph ch) (n : ℕ) :
    (t.tape.pos + chs.length) / 80 < ((chs ++ List.replicate n 8).foldl (put 80) t).lines.length := by
  have htext := puts_echo h fun ch hch => .inr (hchs ch hch)
  have hpos : (chs.foldl (put 80) t).tape.pos = t.tape.pos + chs.length := by
    rw [htext.tape, feed_text _ _ fun ch hch => (hchs ch hch).2.2, Tape.printAll_pos, List.length_map]
  have hrow : (chs.foldl (put 80) t).row * 80 + (chs.foldl (put 80) t).col = t.tape.pos + chs.length := hpos
  have hlt := htext.even.row_lt
  have hcol := htext.even.col_lt
  have hge := (puts_echo htext.even fun ch hch => .inl (List.eq_of_mem_replicate (n := n) hch)).length_ge
  rw [List.foldl_append]
  omega

theorem feed_backs (color : UInt8) (τ : Tape UInt16) (n : ℕ) :
    (List.replicate n 8).foldl (feed color) τ = τ.backs 80 n := by
  induction n generalizing τ with
  | zero => rfl
  | succ n ih =>
    rw [List.replicate_succ, List.foldl_cons, feed, if_pos rfl, ih]
    rfl

end Terminal

end DexOs
