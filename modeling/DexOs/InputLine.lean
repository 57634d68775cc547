import DexOs.ConsoleTape
import Mathlib.Data.List.InsertIdx

/-! The line editor of `input.c` and the place on the console where its line stands. -/

namespace DexOs

open DexOs.Lib DexOs.Console

def Printable := { ch : Int8 // 32 ≤ ch ∧ ch < 127 }

/-- The events of `input_readline` other than the enter key that ends it. Without the control key `home` and `last`
move the cursor, with it they are `page .home` and `page .last`; `other` stands for the keys it ignores. -/
inductive Key
  | char (ch : Printable)
  | left
  | right
  | home
  | last
  | backspace
  | delete
  | page (p : Page)
  | other

structure Line where
  buf : List Int8
  cur : ℕ

namespace Line

def edit (maxLen : ℕ) (l : Line) : Key → Line × List Int8
  | .char ch =>
    if l.buf.length + 1 < maxLen then
      let buf := l.buf.insertIdx l.cur ch.1
      let cur := l.cur + 1
      (⟨buf, cur⟩, ch.1 :: (buf.drop cur ++ List.replicate (buf.length - cur) 8))
    else (l, [])
  | .left => if 0 < l.cur then ({ l with cur := l.cur - 1 }, [8]) else (l, [])
  | .right =>
    match l.buf[l.cur]? with
    | some ch => ({ l with cur := l.cur + 1 }, [ch])
    | none => (l, [])
  | .home => ({ l with cur := 0 }, List.replicate l.cur 8)
  | .last => ({ l with cur := l.buf.length }, l.buf.drop l.cur)
  | .backspace =>
    if 0 < l.cur then
      let buf := l.buf.eraseIdx (l.cur - 1)
      let cur := l.cur - 1
      (⟨buf, cur⟩, 8 :: (buf.drop cur ++ 32 :: List.replicate (buf.length + 1 - cur) 8))
    else (l, [])
  | .delete =>
    if l.cur < l.buf.length then
      let buf := l.buf.eraseIdx l.cur
      ({ l with buf := buf }, buf.drop l.cur ++ 32 :: List.replicate (buf.length + 1 - l.cur) 8)
    else (l, [])
  | .page _ => (l, [])
  | .other => (l, [])

end Line

namespace Console

def scrolls (c : Console) (ch : Int8) : Bool :=
  if ch = 10 then ({ c with col := 0 } : Console).nextRow.2
  else if ch = 13 ∨ ch = 8 then false
  else (c.writeCell ch).wrap.2

end Console

/-- A call of `input_readline` in progress. The input started in column `col`, in the row `row` of the window as it
is now; the row is followed when the window scrolls, and may become negative. -/
structure Session where
  console : Console
  line : Line
  row : ℤ
  col : ℕ

namespace Session

def start (c : Console) : Session := ⟨c, ⟨[], 0⟩, c.row, c.col⟩

def putc (s : Session) (ch : Int8) : Session :=
  { s with
    console := s.console.consolePutc ch
    row := if s.console.scrolls ch then s.row - 1 else s.row }

def key (maxLen : ℕ) (s : Session) (k : Key) : Session :=
  let r := s.line.edit maxLen k
  let s := r.2.foldl putc s
  let s := { s with line := r.1 }
  match k with
  | .page p => { s with console := p.run s.console }
  | _ => s

def typed (maxLen : ℕ) (c : Console) (keys : List Key) : Session := keys.foldl (key maxLen) (start c)

def inputReadline (maxLen : ℕ) (c : Console) (keys : List Key) : Console × List Int8 :=
  if maxLen = 0 then (c, [])
  else
    let s := typed maxLen c keys
    (s.console.consolePutc 10, s.line.buf)

def cell (s : Session) (i : ℕ) : Option UInt16 :=
  let r := s.console.sbufCount + s.row
  if r < 0 then none
  else (s.console.text[r.toNat + (s.col + i) / 80]?).bind fun l => l[(s.col + i) % 80]?

end Session

namespace Line

/-! The editor on the tape. The input starts at the cell `r * 80 + col`. -/

open Terminal

structure Written (T₀ : ℕ → UInt16) (p : ℕ) (color : UInt8) (buf : List Int8) (T : ℕ → UInt16) : Prop where
  text : ∀ i ch, buf[i]? = some ch → T (p + i) = vgaEntry ch color
  rest : ∀ i, buf.length ≤ i → T (p + i) = vgaEntry 32 color ∨ T (p + i) = T₀ (p + i)

variable {T₀ : ℕ → UInt16} {p : ℕ} {color : UInt8} {buf buf' : List Int8} {τ : Tape UInt16}

theorem Written.reprint (h : Written T₀ p color buf τ.cells) {j pad : ℕ} (hpos : τ.pos = p + j) (hj : j ≤ buf'.length)
    (hsame : ∀ i < j, buf'[i]? = buf[i]?) (hpad : buf.length ≤ buf'.length + pad) :
    Written T₀ p color buf' (τ.printAll ((buf'.drop j ++ List.replicate pad 32).map fun ch => vgaEntry ch color)).cells := by
  have hprinted {i : ℕ} {ch : Int8} (hi : j ≤ i) (hch : (buf'.drop j ++ List.replicate pad 32)[i - j]? = some ch) :
      (τ.printAll ((buf'.drop j ++ List.replicate pad 32).map fun ch => vgaEntry ch color)).cells (p + i) =
        vgaEntry ch color := by
    rw [show p + i = τ.pos + (i - j) by omega]
    apply Tape.printAll_cells
    rw [List.getElem?_map, hch]
    rfl
  constructor
  case text =>
    intro i ch hch
    by_cases hi : i < j
    · rw [Tape.printAll_cells_before _ _ (by omega)]
      exact h.text i ch (by rw [← hsame i hi]; exact hch)
    · apply hprinted (by omega)
      have hlt : i < buf'.length := (List.getElem?_eq_some_iff.mp hch).1
      rw [List.getElem?_append_left (by rw [List.length_drop]; omega), List.getElem?_drop,
        Nat.add_sub_cancel' (by omega), hch]
  case rest =>
    intro i hi
    by_cases hlast : i < buf'.length + pad
    · left
      apply hprinted (by omega)
      rw [List.getElem?_append_right (by rw [List.length_drop]; omega), List.getElem?_replicate,
        if_pos (by rw [List.length_drop]; omega)]
    · rw [Tape.printAll_cells_after _ _ (by
        rw [List.length_map, List.length_append, List.length_drop, List.length_replicate]; omega)]
      exact h.rest i (by omega)

def SameRow (col i j : ℕ) : Prop := (col + i) / 80 = (col + j) / 80

def StaysInRow (maxLen col : ℕ) (l : Line) : Key → Prop
  | .char _ => l.buf.length + 1 < maxLen → SameRow col (l.cur + 1) (l.buf.length + 1)
  | .left => 0 < l.cur → SameRow col (l.cur - 1) l.cur
  | .home => SameRow col 0 l.cur
  | .backspace => 0 < l.cur → SameRow col (l.cur - 1) l.buf.length
  | .delete => l.cur < l.buf.length → SameRow col l.cur l.buf.length
  | _ => True

instance (col i j : ℕ) : Decidable (SameRow col i j) := inferInstanceAs (Decidable (_ = _))

instance (maxLen col : ℕ) (l : Line) : (k : Key) → Decidable (StaysInRow maxLen col l k)
  | .char _ | .left | .backspace | .delete => inferInstanceAs (Decidable (_ → _))
  | .home => inferInstanceAs (Decidable (SameRow _ _ _))
  | .right | .last | .page _ | .other => inferInstanceAs (Decidable True)

theorem backs_to_iff {r col i j : ℕ} (hij : i ≤ j) (hpos : τ.pos = r * 80 + col + j) :
    (τ.backs 80 (j - i)).pos = r * 80 + col + i ↔ SameRow col i j := by
  rw [Tape.backs_pos (by decide), hpos]
  unfold SameRow
  omega

structure Edited (T₀ : ℕ → UInt16) (r col : ℕ) (color : UInt8) (l' : Line) (stays : Prop) (τ' : Tape UInt16) : Prop where
  pos_iff : τ'.pos = r * 80 + col + l'.cur ↔ stays
  written : stays → Written T₀ (r * 80 + col) color l'.buf τ'.cells

variable {r col : ℕ} {l : Line}

theorem edited_of_reprint (h : Written T₀ (r * 80 + col) color buf τ.cells) {j i : ℕ} (pad : ℕ)
    (hpos : τ.pos = r * 80 + col + j) (hj : j ≤ buf'.length) (hsame : ∀ i < j, buf'[i]? = buf[i]?)
    (hpad : buf.length ≤ buf'.length + pad) (hi : i ≤ buf'.length + pad) (h8 : ∀ ch ∈ buf', ch ≠ 8) :
    Edited T₀ r col color ⟨buf', i⟩ (SameRow col i (buf'.length + pad))
      (((buf'.drop j ++ List.replicate pad 32) ++ List.replicate (buf'.length + pad - i) 8).foldl (feed color) τ) := by
  have htext : ∀ ch ∈ buf'.drop j ++ List.replicate pad 32, ch ≠ 8 := by
    intro ch hch
    rcases List.mem_append.mp hch with hch | hch
    · exact h8 ch (List.mem_of_mem_drop hch)
    · rw [List.eq_of_mem_replicate hch]
      decide
  rw [List.foldl_append, feed_text color τ htext, feed_backs]
  constructor
  · apply backs_to_iff hi
    rw [Tape.printAll_pos, hpos, List.length_map, List.length_append, List.length_drop, List.length_replicate]
    omega
  · intro _
    rw [Tape.backs_cells]
    exact h.reprint hpos hj hsame hpad

theorem pos_le_reprint (color : UInt8) (τ : Tape UInt16) {chs : List Int8} (h8 : ∀ ch ∈ chs, ch ≠ 8) {n : ℕ}
    (hn : n ≤ chs.length) : τ.pos ≤ ((chs ++ List.replicate n 8).foldl (feed color) τ).pos := by
  rw [List.foldl_append, feed_text color τ h8, feed_backs, Tape.backs_pos (by decide), Tape.printAll_pos, List.length_map]
  omega

theorem Edited.congr {stays stays' : Prop} {l' : Line} {τ' : Tape UInt16} (h : Edited T₀ r col color l' stays τ')
    (hiff : stays' ↔ stays) : Edited T₀ r col color l' stays' τ' :=
  ⟨h.pos_iff.trans hiff.symm, fun hs => h.written (hiff.mp hs)⟩

structure Sound (maxLen : ℕ) (l : Line) : Prop where
  cur_le : l.cur ≤ l.buf.length
  length_lt : l.buf.length < maxLen
  glyphs : ∀ ch ∈ l.buf, Glyph ch

theorem glyph_of_printable (ch : Printable) : Glyph ch.1 := by
  have hge := ch.2.1
  refine ⟨?_, ?_, ?_⟩
  · intro he
    rw [he] at hge
    exact absurd hge (by decide)
  · intro he
    rw [he] at hge
    exact absurd hge (by decide)
  · intro he
    rw [he] at hge
    exact absurd hge (by decide)

theorem inserted_glyph {maxLen : ℕ} (hl : Sound maxLen l) (ch : Printable) :
    ∀ c ∈ l.buf.insertIdx l.cur ch.1, Glyph c := by
  intro c hc
  rcases List.eq_or_mem_of_mem_insertIdx hc with rfl | hc
  · exact glyph_of_printable ch
  · exact hl.glyphs c hc

section Events

variable {maxLen : ℕ} (hl : Sound maxLen l) (h : Written T₀ (r * 80 + col) color l.buf τ.cells)
  (hpos : τ.pos = r * 80 + col + l.cur)

include hl h hpos

omit hl in
theorem edited_of_silence {stays : Prop} (hstays : stays) : Edited T₀ r col color l stays ([].foldl (feed color) τ) :=
  ⟨iff_of_true hpos hstays, fun _ => h⟩

theorem char_edited (ch : Printable) : Edited T₀ r col color (l.edit maxLen (.char ch)).1
    (StaysInRow maxLen col l (.char ch)) ((l.edit maxLen (.char ch)).2.foldl (feed color) τ) := by
  unfold edit StaysInRow
  dsimp only
  split
  case isFalse hfull => exact edited_of_silence h hpos fun hc => absurd hc hfull
  case isTrue hroom =>
    have hcur := hl.cur_le
    have hlen : (l.buf.insertIdx l.cur ch.1).length = l.buf.length + 1 := List.length_insertIdx_of_le_length hcur _
    have hdrop : (l.buf.insertIdx l.cur ch.1).drop l.cur = ch.1 :: (l.buf.insertIdx l.cur ch.1).drop (l.cur + 1) := by
      rw [List.drop_eq_getElem_cons (by omega), List.getElem_insertIdx_self]
    have hsame : ∀ i < l.cur, (l.buf.insertIdx l.cur ch.1)[i]? = l.buf[i]? :=
      fun i hi => List.getElem?_insertIdx_of_lt hi
    have he := edited_of_reprint h (i := l.cur + 1) 0 hpos (by omega) hsame (by omega) (by omega)
      fun c hc => (inserted_glyph hl ch c hc).2.2
    rw [List.replicate_zero, List.append_nil, hdrop, Nat.add_zero, List.cons_append] at he
    refine he.congr ?_
    rw [hlen]
    exact ⟨fun hs => hs hroom, fun hs _ => hs⟩

theorem delete_edited : Edited T₀ r col color (l.edit maxLen .delete).1 (StaysInRow maxLen col l .delete)
    ((l.edit maxLen .delete).2.foldl (feed color) τ) := by
  unfold edit StaysInRow
  dsimp only
  split
  case isFalse hend => exact edited_of_silence h hpos fun hc => absurd hc hend
  case isTrue hlt =>
    have hlen : (l.buf.eraseIdx l.cur).length + 1 = l.buf.length := List.length_eraseIdx_add_one hlt
    have hsame : ∀ i < l.cur, (l.buf.eraseIdx l.cur)[i]? = l.buf[i]? := fun i hi => List.getElem?_eraseIdx_of_lt hi
    have h8 : ∀ c ∈ l.buf.eraseIdx l.cur, c ≠ 8 := fun c hc => (hl.glyphs c (List.mem_of_mem_eraseIdx hc)).2.2
    have he := edited_of_reprint h (i := l.cur) 1 hpos (by omega) hsame (by omega) (by omega) h8
    rw [List.append_assoc] at he
    refine he.congr ?_
    rw [hlen]
    exact ⟨fun hs => hs hlt, fun hs _ => hs⟩

omit hl in
theorem edited_of_backs {i : ℕ} (hi : i ≤ l.cur) :
    Edited T₀ r col color ⟨l.buf, i⟩ (SameRow col i l.cur) ((List.replicate (l.cur - i) 8).foldl (feed color) τ) := by
  rw [feed_backs]
  constructor
  · exact backs_to_iff hi hpos
  · intro _
    rw [Tape.backs_cells]
    exact h

omit hl in
theorem left_edited : Edited T₀ r col color (l.edit maxLen .left).1 (StaysInRow maxLen col l .left)
    ((l.edit maxLen .left).2.foldl (feed color) τ) := by
  unfold edit StaysInRow
  dsimp only
  split
  case isFalse hstart => exact edited_of_silence h hpos fun hc => absurd hc hstart
  case isTrue hlt =>
    have he := edited_of_backs h hpos (Nat.sub_le l.cur 1)
    rw [show l.cur - (l.cur - 1) = 1 by omega] at he
    exact he.congr ⟨fun hs => hs hlt, fun hs _ => hs⟩

omit hl in
theorem home_edited : Edited T₀ r col color (l.edit maxLen .home).1 (StaysInRow maxLen col l .home)
    ((l.edit maxLen .home).2.foldl (feed color) τ) := edited_of_backs h hpos (Nat.zero_le l.cur)

theorem right_edited : Edited T₀ r col color (l.edit maxLen .right).1 (StaysInRow maxLen col l .right)
    ((l.edit maxLen .right).2.foldl (feed color) τ) := by
  unfold edit
  dsimp only
  split
  case h_2 => exact edited_of_silence h hpos trivial
  case h_1 ch hch =>
    have h8 : ch ≠ 8 := (hl.glyphs ch (List.mem_of_getElem? hch)).2.2
    have hcells : (τ.print (vgaEntry ch color)).cells = τ.cells := by
      apply Function.update_eq_self_iff.mpr
      rw [hpos]
      exact (h.text l.cur ch hch).symm
    rw [List.foldl_cons, List.foldl_nil, feed, if_neg h8]
    constructor
    · apply iff_of_true _ trivial
      change τ.pos + 1 = r * 80 + col + (l.cur + 1)
      omega
    · intro _
      rw [hcells]
      exact h

theorem last_edited : Edited T₀ r col color (l.edit maxLen .last).1 (StaysInRow maxLen col l .last)
    ((l.edit maxLen .last).2.foldl (feed color) τ) := by
  have h8 : ∀ c ∈ l.buf, c ≠ 8 := fun c hc => (hl.glyphs c hc).2.2
  have he := edited_of_reprint h (i := l.buf.length) 0 hpos hl.cur_le (fun i _ => rfl) le_rfl le_rfl h8
  rw [List.replicate_zero, List.append_nil, Nat.add_zero, Nat.sub_self, List.replicate_zero, List.append_nil] at he
  exact he.congr (iff_of_true trivial rfl)

theorem backspace_edited : Edited T₀ r col color (l.edit maxLen .backspace).1 (StaysInRow maxLen col l .backspace)
    ((l.edit maxLen .backspace).2.foldl (feed color) τ) := by
  unfold edit StaysInRow
  dsimp only
  split
  case isFalse hstart => exact edited_of_silence h hpos fun hc => absurd hc hstart
  case isTrue hlt =>
    have hcur := hl.cur_le
    have hlen : (l.buf.eraseIdx (l.cur - 1)).length + 1 = l.buf.length := List.length_eraseIdx_add_one (by omega)
    have hsame : ∀ i < l.cur - 1, (l.buf.eraseIdx (l.cur - 1))[i]? = l.buf[i]? :=
      fun i hi => List.getElem?_eraseIdx_of_lt hi
    have h8 : ∀ c ∈ l.buf.eraseIdx (l.cur - 1), c ≠ 8 := fun c hc => (hl.glyphs c (List.mem_of_mem_eraseIdx hc)).2.2
    have hback : (τ.back 80).cells = τ.cells := rfl
    rw [List.foldl_cons, feed, if_pos rfl]
    by_cases hfirst : τ.pos % 80 = 0
    · have hstay : (τ.back 80).pos = τ.pos := if_pos hfirst
      have hrow : ¬ SameRow col (l.cur - 1) l.buf.length := by
        unfold SameRow
        omega
      have htext : ∀ ch ∈ (l.buf.eraseIdx (l.cur - 1)).drop (l.cur - 1) ++ [32], ch ≠ 8 := by
        intro ch hch
        rcases List.mem_append.mp hch with hch | hch
        · exact h8 ch (List.mem_of_mem_drop hch)
        · rw [List.mem_singleton.mp hch]
          decide
      have hge := pos_le_reprint color (τ.back 80) htext (n := (l.buf.eraseIdx (l.cur - 1)).length + 1 - (l.cur - 1))
        (by rw [List.length_append, List.length_drop, List.length_singleton]; omega)
      rw [List.append_assoc, List.singleton_append, hstay] at hge
      refine ⟨iff_of_false ?_ fun hs => hrow (hs hlt), fun hs => absurd (hs hlt) hrow⟩
      dsimp only
      omega
    · have hleft : (τ.back 80).pos = r * 80 + col + (l.cur - 1) := by
        change (if τ.pos % 80 = 0 then τ.pos else τ.pos - 1) = _
        rw [if_neg hfirst]
        omega
      have he := edited_of_reprint (τ := τ.back 80) h (i := l.cur - 1) 1 hleft (by omega) hsame (by omega) (by omega) h8
      rw [List.append_assoc] at he
      refine he.congr ?_
      rw [hlen]
      exact ⟨fun hs => hs hlt, fun hs _ => hs⟩

theorem edit_edited (k : Key) : Edited T₀ r col color (l.edit maxLen k).1 (StaysInRow maxLen col l k)
    ((l.edit maxLen k).2.foldl (feed color) τ) := by
  cases k with
  | char ch => exact char_edited hl h hpos ch
  | left => exact left_edited h hpos
  | right => exact right_edited hl h hpos
  | home => exact home_edited h hpos
  | last => exact last_edited hl h hpos
  | backspace => exact backspace_edited hl h hpos
  | delete => exact delete_edited hl h hpos
  | page p => exact edited_of_silence h hpos trivial
  | other => exact edited_of_silence h hpos trivial

end Events

section Bounds

variable {maxLen : ℕ}

theorem char_of_longer {k : Key} (h : ¬ (l.edit maxLen k).1.buf.length ≤ l.buf.length) :
    ∃ ch, l.buf.length + 1 < maxLen ∧ k = .char ch := by
  have herase (i : ℕ) : (l.buf.eraseIdx i).length ≤ l.buf.length := List.length_eraseIdx_le ..
  cases k with
  | char ch =>
    refine ⟨ch, ?_, rfl⟩
    by_contra hfull
    rw [edit, if_neg hfull] at h
    exact h le_rfl
  | left =>
    simp only [edit] at h
    split at h <;> exact absurd le_rfl h
  | right =>
    simp only [edit] at h
    split at h <;> exact absurd le_rfl h
  | backspace =>
    simp only [edit] at h
    split at h
    · exact absurd (herase _) h
    · exact absurd le_rfl h
  | delete =>
    simp only [edit] at h
    split at h
    · exact absurd (herase _) h
    · exact absurd le_rfl h
  | _ => exact absurd le_rfl h

structure Modest (maxLen n : ℕ) (l : Line) (chs : List Int8) : Prop where
  sound : Sound maxLen l
  sent : ∀ ch ∈ chs, Sent ch
  length_le : chs.length ≤ n

theorem modest_of_silence (hl : Sound maxLen l) (n : ℕ) : Modest maxLen n l [] :=
  ⟨hl, fun _ hch => absurd hch List.not_mem_nil, Nat.zero_le n⟩

theorem modest_of_reprint (hl : Sound maxLen l) (j : ℕ) {pad n : ℕ} (hn : pad + n ≤ maxLen) :
    Modest maxLen (2 * maxLen) l (l.buf.drop j ++ List.replicate pad 32 ++ List.replicate n 8) := by
  have hlen := hl.length_lt
  constructor
  case sound => exact hl
  case sent =>
    intro ch hch
    rcases List.mem_append.mp hch with hch | hch
    · rcases List.mem_append.mp hch with hch | hch
      · exact .inr (hl.glyphs ch (List.mem_of_mem_drop hch))
      · rw [List.eq_of_mem_replicate hch]
        exact .inr ⟨by decide, by decide, by decide⟩
    · exact .inl (List.eq_of_mem_replicate hch)
  case length_le =>
    simp only [List.length_append, List.length_drop, List.length_replicate]
    omega

theorem Modest.cons {n : ℕ} {chs : List Int8} (h : Modest maxLen n l chs) {ch : Int8} (hch : Sent ch) :
    Modest maxLen (n + 1) l (ch :: chs) := by
  refine ⟨h.sound, ?_, Nat.succ_le_succ h.length_le⟩
  intro c hc
  rcases List.mem_cons.mp hc with rfl | hc
  · exact hch
  · exact h.sent c hc

theorem Modest.weaken {n m : ℕ} {chs : List Int8} (h : Modest maxLen n l chs) (hle : n ≤ m) : Modest maxLen m l chs :=
  { h with length_le := h.length_le.trans hle }

theorem Sound.move (hl : Sound maxLen l) {i : ℕ} (hi : i ≤ l.buf.length) : Sound maxLen { l with cur := i } :=
  { hl with cur_le := hi }

theorem insert_sound (hl : Sound maxLen l) (ch : Printable) (hroom : l.buf.length + 1 < maxLen) :
    Sound maxLen ⟨l.buf.insertIdx l.cur ch.1, l.cur + 1⟩ := by
  have hins : (l.buf.insertIdx l.cur ch.1).length = l.buf.length + 1 := List.length_insertIdx_of_le_length hl.cur_le _
  constructor
  case cur_le =>
    rw [hins]
    exact Nat.succ_le_succ hl.cur_le
  case length_lt =>
    rw [hins]
    exact hroom
  case glyphs => exact inserted_glyph hl ch

theorem erase_sound (hl : Sound maxLen l) {i : ℕ} (hi : i < l.buf.length) : Sound maxLen ⟨l.buf.eraseIdx i, i⟩ := by
  have herased : (l.buf.eraseIdx i).length + 1 = l.buf.length := List.length_eraseIdx_add_one hi
  have hlen := hl.length_lt
  constructor
  case cur_le =>
    dsimp only
    omega
  case length_lt =>
    dsimp only
    omega
  case glyphs => exact fun ch hch => hl.glyphs ch (List.mem_of_mem_eraseIdx hch)

theorem erase_modest (hl : Sound maxLen l) {i : ℕ} (hi : i < l.buf.length) :
    Modest maxLen (2 * maxLen) ⟨l.buf.eraseIdx i, i⟩
      ((l.buf.eraseIdx i).drop i ++ 32 :: List.replicate ((l.buf.eraseIdx i).length + 1 - i) 8) := by
  have hlen := hl.length_lt
  have herased : (l.buf.eraseIdx i).length + 1 = l.buf.length := List.length_eraseIdx_add_one hi
  rw [herased]
  have hn : 1 + (l.buf.length - i) ≤ maxLen := by omega
  have hs := modest_of_reprint (erase_sound hl hi) i hn
  rw [List.append_assoc] at hs
  exact hs

theorem edit_modest (hl : Sound maxLen l) (k : Key) :
    Modest maxLen (2 * maxLen + 1) (l.edit maxLen k).1 (l.edit maxLen k).2 := by
  have hcur := hl.cur_le
  have hlen := hl.length_lt
  have hskip := modest_of_silence hl (2 * maxLen + 1)
  cases k with
  | char ch =>
    simp only [edit]
    split
    case isFalse => exact hskip
    case isTrue hroom =>
      have hs := insert_sound hl ch hroom
      have hn : 0 + ((l.buf.insertIdx l.cur ch.1).length - (l.cur + 1)) ≤ maxLen := by
        have hle := hs.length_lt
        dsimp only at hle
        omega
      have hm := (modest_of_reprint hs (l.cur + 1) hn).cons (.inr (glyph_of_printable ch))
      rw [List.replicate_zero, List.append_nil] at hm
      exact hm
  | left =>
    simp only [edit]
    split
    case isTrue =>
      have hm := modest_of_silence (hl.move ((Nat.sub_le l.cur 1).trans hcur)) (2 * maxLen)
      exact hm.cons (.inl rfl)
    case isFalse => exact hskip
  | right =>
    simp only [edit]
    split
    case h_1 ch hch =>
      have hm := modest_of_silence (hl.move (List.getElem?_eq_some_iff.mp hch).1) (2 * maxLen)
      exact hm.cons (.inr (hl.glyphs ch (List.mem_of_getElem? hch)))
    case h_2 => exact hskip
  | home =>
    have hn : 0 + l.cur ≤ maxLen := by omega
    have hm := modest_of_reprint (hl.move (Nat.zero_le _)) l.buf.length hn
    rw [List.replicate_zero, List.append_nil, List.drop_length, List.nil_append] at hm
    exact hm.weaken (Nat.le_succ _)
  | last =>
    have hm := modest_of_reprint (hl.move le_rfl) l.cur (show 0 + 0 ≤ maxLen by omega)
    rw [List.replicate_zero, List.append_nil, List.replicate_zero, List.append_nil] at hm
    exact hm.weaken (Nat.le_succ _)
  | backspace =>
    simp only [edit]
    split
    case isTrue hlt => exact (erase_modest hl (by omega)).cons (.inl rfl)
    case isFalse => exact hskip
  | delete =>
    simp only [edit]
    split
    case isTrue hlt => exact (erase_modest hl hlt).weaken (Nat.le_succ _)
    case isFalse => exact hskip
  | page p => exact hskip
  | other => exact hskip

end Bounds

end Line

end DexOs
