import DexOs.InputLine
import DexOs.Lib.Cursor

/-! `input_readline` on its buffer: a fixed array, the length of the line and the cursor as indices into it. -/

namespace DexOs

open DexOs.Lib DexOs.Console

inductive KeyType
  | none
  | char
  | enter
  | backspace
  | tab
  | esc
  | left
  | right
  | up
  | down
  | home
  | last
  | delete
  | pgup
  | pgdn
  deriving DecidableEq

structure KeyEvent where
  type : KeyType
  ch : UInt16
  mods : UInt32

namespace KeyEvent

def ctrl (ev : KeyEvent) : Prop := ev.mods &&& 2 ≠ 0

instance (ev : KeyEvent) : Decidable ev.ctrl := inferInstanceAs (Decidable (¬ _))

def glyph (ev : KeyEvent) : Int8 := ev.ch.toUInt8.toInt8

end KeyEvent

inductive ConsoleCall
  | putc (ch : Int8)
  | page (p : Page)

def ConsoleCall.run (c : Console) : ConsoleCall → Console
  | putc ch => c.consolePutc ch
  | page p => p.run c

structure LineBuffer where
  buf : List Int8
  len : ℕ
  cur : ℕ

namespace LineBuffer

open ConsoleCall

/-- One turn of the loop of `input_readline`: the state after it and the calls of the console. It is `none` when an
access leaves the buffer. -/
def handle (maxLen : ℕ) (s : LineBuffer) (ev : KeyEvent) : Option (LineBuffer × List ConsoleCall) :=
  match ev.type with
  | .pgup => some (s, [page .up])
  | .pgdn => some (s, [page .down])
  | .left => if 0 < s.cur then some ({ s with cur := s.cur - 1 }, [putc 8]) else some (s, [])
  | .right =>
    if s.cur < s.len then do
      let ch ← s.buf[s.cur]?
      return ({ s with cur := s.cur + 1 }, [putc ch])
    else some (s, [])
  | .home =>
    if ev.ctrl then some (s, [page .home])
    else some ({ s with cur := 0 }, List.replicate s.cur (putc 8))
  | .last =>
    if ev.ctrl then some (s, [page .last])
    else do
      let chs ← readFrom s.buf s.cur (s.len - s.cur)
      return ({ s with cur := s.cur + (s.len - s.cur) }, chs.map putc)
  | .backspace =>
    if 0 < s.cur then do
      let buf ← shiftDown s.buf (s.cur - 1) (s.len - s.cur)
      let cur := s.cur - 1
      let len := s.len - 1
      let chs ← readFrom buf cur (len - cur)
      return (⟨buf, len, cur⟩, putc 8 :: (chs.map putc ++ putc 32 :: List.replicate (len + 1 - cur) (putc 8)))
    else some (s, [])
  | .delete =>
    if s.cur < s.len then do
      let buf ← shiftDown s.buf s.cur (s.len - (s.cur + 1))
      let len := s.len - 1
      let chs ← readFrom buf s.cur (len - s.cur)
      return (⟨buf, len, s.cur⟩, chs.map putc ++ putc 32 :: List.replicate (len + 1 - s.cur) (putc 8))
    else some (s, [])
  | .char =>
    if s.len + 1 < maxLen then do
      let buf ← shiftUp s.buf s.len (s.len - s.cur)
      let buf ← store buf s.cur ev.glyph
      let len := s.len + 1
      let cur := s.cur + 1
      let chs ← readFrom buf cur (len - cur)
      return (⟨buf, len, cur⟩, putc ev.glyph :: (chs.map putc ++ List.replicate (len - cur) (putc 8)))
    else some (s, [])
  | _ => some (s, [])

/-- The loop of `input_readline`. The last component is what is left of the events, or `none` when the loop still waits
for the next one. -/
def readLoop (maxLen : ℕ) (s : LineBuffer) :
    List KeyEvent → Option (LineBuffer × List ConsoleCall × Option (List KeyEvent))
  | [] => some (s, [], none)
  | ev :: evs =>
    if ev.type = .enter then some (s, [putc 10], some evs)
    else do
      let (s, out) ← handle maxLen s ev
      let (s, out', rest) ← readLoop maxLen s evs
      return (s, out ++ out', rest)

def inputReadline (maxLen : ℕ) (buf : List Int8) (evs : List KeyEvent) :
    Option (LineBuffer × List ConsoleCall × Option (List KeyEvent)) :=
  if maxLen = 0 then some (⟨buf, 0, 0⟩, [], some evs) else readLoop maxLen ⟨buf, 0, 0⟩ evs

structure Holds (maxLen : ℕ) (s : LineBuffer) (z : Cursor Int8) : Prop where
  size : s.buf.length = maxLen
  cells : ∃ rest, s.buf = z.before.reverse ++ (z.after ++ rest)
  len : s.len = z.before.length + z.after.length
  cur : s.cur = z.before.length
  lt : s.len < maxLen

/-- The reference editor: the line after the event. -/
def edit (maxLen : ℕ) (z : Cursor Int8) (ev : KeyEvent) : Cursor Int8 :=
  match ev.type with
  | .char => if z.text.length = maxLen - 1 then z else z.insert ev.glyph
  | .backspace => z.deleteBefore
  | .delete => z.deleteAt
  | .left => z.left
  | .right => z.right
  | .home => if ev.ctrl then z else z.home
  | .last => if ev.ctrl then z else z.last
  | _ => z

def calls (maxLen : ℕ) (z : Cursor Int8) (ev : KeyEvent) : List ConsoleCall :=
  match ev.type with
  | .pgup => [page .up]
  | .pgdn => [page .down]
  | .left => (z.before.take 1).map fun _ => putc 8
  | .right => (z.after.take 1).map putc
  | .home => if ev.ctrl then [page .home] else z.before.map fun _ => putc 8
  | .last => if ev.ctrl then [page .last] else z.after.map putc
  | .backspace =>
    if z.before = [] then []
    else putc 8 :: (z.after.map putc ++ putc 32 :: List.replicate (z.after.length + 1) (putc 8))
  | .delete =>
    if z.after = [] then []
    else z.after.tail.map putc ++ putc 32 :: List.replicate z.after.length (putc 8)
  | .char =>
    if z.text.length = maxLen - 1 then []
    else putc ev.glyph :: (z.after.map putc ++ List.replicate z.after.length (putc 8))
  | _ => []

section Steps

variable {maxLen : ℕ} {s : LineBuffer} {z : Cursor Int8}

theorem Holds.cur_le (h : Holds maxLen s z) : s.cur ≤ s.len := by
  rw [h.cur, h.len]
  exact Nat.le_add_right ..

theorem Holds.take (h : Holds maxLen s z) : s.buf.take s.len = z.text := by
  obtain ⟨rest, hrest⟩ := h.cells
  have hlen : s.len = z.text.length := h.len.trans z.length_text.symm
  rw [hrest, hlen, ← List.append_assoc]
  exact List.take_left ..

theorem Holds.terminated (h : Holds maxLen s z) (ch : Int8) : store s.buf s.len ch = some (s.buf.set s.len ch) :=
  if_pos (by rw [h.size]; exact h.lt)

theorem Holds.move (h : Holds maxLen s z) {z' : Cursor Int8} (htext : z'.text = z.text) {cur : ℕ}
    (hcur : cur = z'.before.length) : Holds maxLen { s with cur := cur } z' := by
  have hlen : z'.text.length = z.text.length := congrArg _ htext
  rw [Cursor.length_text, Cursor.length_text] at hlen
  obtain ⟨rest, hrest⟩ := h.cells
  constructor
  case size => exact h.size
  case cells =>
    refine ⟨rest, ?_⟩
    have happ : z'.text ++ rest = z.text ++ rest := by rw [htext]
    rw [Cursor.text, Cursor.text, List.append_assoc, List.append_assoc] at happ
    exact hrest.trans happ.symm
  case len => exact h.len.trans hlen.symm
  case cur => exact hcur
  case lt => exact h.lt

theorem left_handled (h : Holds maxLen s z) (ev : KeyEvent) (ht : ev.type = .left) :
    ∃ s', handle maxLen s ev = some (s', calls maxLen z ev) ∧ Holds maxLen s' (edit maxLen z ev) := by
  have hcur := h.cur
  simp only [handle, calls, edit, ht]
  obtain ⟨before, after⟩ := z
  cases before with
  | nil =>
    refine ⟨s, ?_, h⟩
    rw [if_neg (by rw [hcur]; exact Nat.lt_irrefl 0)]
    rfl
  | cons a before =>
    refine ⟨_, if_pos (by rw [hcur]; exact Nat.succ_pos _), ?_⟩
    apply h.move (Cursor.text_left a before after).symm
    rw [hcur]
    rfl

theorem right_handled (h : Holds maxLen s z) (ev : KeyEvent) (ht : ev.type = .right) :
    ∃ s', handle maxLen s ev = some (s', calls maxLen z ev) ∧ Holds maxLen s' (edit maxLen z ev) := by
  have hcur := h.cur
  have hlen := h.len
  obtain ⟨rest, hrest⟩ := h.cells
  simp only [handle, calls, edit, ht]
  obtain ⟨before, after⟩ := z
  cases after with
  | nil =>
    refine ⟨s, ?_, h⟩
    rw [if_neg (by rw [hcur, hlen]; exact Nat.lt_irrefl _)]
    rfl
  | cons a after =>
    have hget : s.buf[s.cur]? = some a := by
      have hat := getElem?_append_cons before.reverse a (after ++ rest)
      rw [List.length_reverse] at hat
      rw [hrest, hcur]
      exact hat
    refine ⟨{ s with cur := s.cur + 1 }, ?_, ?_⟩
    · rw [if_pos (by rw [hcur, hlen, List.length_cons]; omega), hget]
      rfl
    · apply h.move (Cursor.text_left a before after)
      rw [hcur]
      rfl

theorem home_handled (h : Holds maxLen s z) (ev : KeyEvent) (ht : ev.type = .home) :
    ∃ s', handle maxLen s ev = some (s', calls maxLen z ev) ∧ Holds maxLen s' (edit maxLen z ev) := by
  simp only [handle, calls, edit, ht]
  by_cases hctrl : ev.ctrl
  · rw [if_pos hctrl, if_pos hctrl, if_pos hctrl]
    exact ⟨s, rfl, h⟩
  · rw [if_neg hctrl, if_neg hctrl, if_neg hctrl]
    refine ⟨{ s with cur := 0 }, ?_, h.move z.text_home rfl⟩
    rw [h.cur, List.map_const']

theorem last_handled (h : Holds maxLen s z) (ev : KeyEvent) (ht : ev.type = .last) :
    ∃ s', handle maxLen s ev = some (s', calls maxLen z ev) ∧ Holds maxLen s' (edit maxLen z ev) := by
  obtain ⟨rest, hrest⟩ := h.cells
  have htail : s.len - s.cur = z.after.length := by
    rw [h.len, h.cur]
    exact Nat.add_sub_cancel_left ..
  have hread : readFrom s.buf s.cur (s.len - s.cur) = some z.after := by
    have hread := readFrom_append z.before.reverse z.after rest
    rw [List.length_reverse] at hread
    rw [hrest, htail, h.cur]
    exact hread
  simp only [handle, calls, edit, ht]
  by_cases hctrl : ev.ctrl
  · rw [if_pos hctrl, if_pos hctrl, if_pos hctrl]
    exact ⟨s, rfl, h⟩
  · rw [if_neg hctrl, if_neg hctrl, if_neg hctrl, hread]
    refine ⟨{ s with cur := s.cur + (s.len - s.cur) }, rfl, h.move z.text_last ?_⟩
    rw [Cursor.last, List.length_reverse, Cursor.length_text, htail, h.cur]

theorem erased {before : List Int8} {a : Int8} {after : List Int8} (h : Holds maxLen s ⟨before, a :: after⟩) :
    ∃ buf, shiftDown s.buf before.length after.length = some buf ∧
      readFrom buf before.length after.length = some after ∧
      Holds maxLen ⟨buf, s.len - 1, before.length⟩ ⟨before, after⟩ := by
  obtain ⟨rest, hrest⟩ := h.cells
  have hsize := h.size
  have hlen := h.len
  have hlt := h.lt
  obtain ⟨y, hshift⟩ := shiftDown_append before.reverse a after rest
  have hread := readFrom_append before.reverse after (y :: rest)
  rw [List.length_reverse] at hshift hread
  rw [List.length_cons] at hlen
  refine ⟨_, hrest ▸ hshift, hread, ?_, ⟨y :: rest, rfl⟩, ?_, rfl, ?_⟩
  · rw [hrest] at hsize
    simp only [List.length_append, List.length_cons] at hsize ⊢
    omega
  · dsimp only at hlen ⊢
    omega
  · dsimp only at hlen ⊢
    omega

theorem backspace_handled (h : Holds maxLen s z) (ev : KeyEvent) (ht : ev.type = .backspace) :
    ∃ s', handle maxLen s ev = some (s', calls maxLen z ev) ∧ Holds maxLen s' (edit maxLen z ev) := by
  have hcur := h.cur
  have hlen := h.len
  simp only [handle, calls, edit, ht]
  obtain ⟨before, after⟩ := z
  cases before with
  | nil =>
    refine ⟨s, ?_, h⟩
    rw [if_neg (by rw [hcur]; exact Nat.lt_irrefl 0)]
    rfl
  | cons a before =>
    have hleft : Holds maxLen { s with cur := before.length } ⟨before, a :: after⟩ :=
      h.move (Cursor.text_left a before after).symm rfl
    obtain ⟨buf, hshift, hread, hs⟩ := erased hleft
    rw [List.length_cons] at hcur hlen
    dsimp only at hcur hlen hshift hs
    have hprev : s.cur - 1 = before.length := by omega
    have htail : s.len - s.cur = after.length := by omega
    have hrest : s.len - 1 - before.length = after.length := by omega
    have hback : s.len - 1 + 1 - before.length = after.length + 1 := by omega
    refine ⟨_, ?_, hs⟩
    rw [if_pos (by omega), if_neg (List.cons_ne_nil a before), hprev, htail, hshift, Option.bind_eq_bind,
      Option.bind_some, hrest, hread, hback]
    rfl

theorem delete_handled (h : Holds maxLen s z) (ev : KeyEvent) (ht : ev.type = .delete) :
    ∃ s', handle maxLen s ev = some (s', calls maxLen z ev) ∧ Holds maxLen s' (edit maxLen z ev) := by
  have hcur := h.cur
  have hlen := h.len
  simp only [handle, calls, edit, ht]
  obtain ⟨before, after⟩ := z
  cases after with
  | nil =>
    refine ⟨s, ?_, h⟩
    rw [if_neg (by rw [hcur, hlen]; exact Nat.lt_irrefl _)]
    rfl
  | cons a after =>
    obtain ⟨buf, hshift, hread, hs⟩ := erased h
    rw [List.length_cons] at hlen
    dsimp only at hcur hlen
    have htail : s.len - (before.length + 1) = after.length := by omega
    have hrest : s.len - 1 - before.length = after.length := by omega
    have hback : s.len - 1 + 1 - before.length = after.length + 1 := by omega
    refine ⟨_, ?_, hs⟩
    rw [if_pos (by omega), if_neg (List.cons_ne_nil a after), hcur, htail, hshift, Option.bind_eq_bind,
      Option.bind_some, hrest, hread, hback]
    rfl

theorem char_handled (h : Holds maxLen s z) (ev : KeyEvent) (ht : ev.type = .char) :
    ∃ s', handle maxLen s ev = some (s', calls maxLen z ev) ∧ Holds maxLen s' (edit maxLen z ev) := by
  have hcur := h.cur
  have hlen := h.len
  have hlt := h.lt
  have hsize := h.size
  have htext := z.length_text
  simp only [handle, calls, edit, ht]
  by_cases hfull : z.text.length = maxLen - 1
  · rw [if_neg (by omega), if_pos hfull, if_pos hfull]
    exact ⟨s, rfl, h⟩
  · rw [if_pos (by omega), if_neg hfull, if_neg hfull]
    obtain ⟨rest, hrest⟩ := h.cells
    cases rest with
    | nil =>
      -- the array would be full
      rw [hrest, List.append_nil, List.length_append, List.length_reverse] at hsize
      omega
    | cons y rest =>
      obtain ⟨x, hshift⟩ := shiftUp_append z.before.reverse z.after y rest
      have hstore := store_append z.before.reverse x (z.after ++ rest) ev.glyph
      have hread := readFrom_append (z.before.reverse ++ [ev.glyph]) z.after rest
      rw [List.length_reverse] at hshift hstore
      rw [List.length_append, List.length_reverse, List.append_assoc] at hread
      have htail : s.len - s.cur = z.after.length := by omega
      have hnext : s.len + 1 - (s.cur + 1) = z.after.length := by omega
      refine ⟨⟨z.before.reverse ++ ev.glyph :: (z.after ++ rest), s.len + 1, s.cur + 1⟩, ?_, ?_⟩
      · rw [htail, hrest, hlen, hshift, Option.bind_eq_bind, Option.bind_some, hcur, hstore, Option.bind_some,
          ← hlen, ← hcur, hnext, hcur]
        change (readFrom (z.before.reverse ++ ([ev.glyph] ++ (z.after ++ rest))) (z.before.length + [ev.glyph].length)
          z.after.length >>= _) = _
        rw [hread]
        rfl
      · constructor
        case size =>
          rw [hrest] at hsize
          simp only [List.length_append, List.length_cons] at hsize ⊢
          omega
        case cells =>
          refine ⟨rest, ?_⟩
          rw [Cursor.insert, List.reverse_cons, List.append_assoc]
          rfl
        case len =>
          rw [Cursor.insert, List.length_cons]
          dsimp only
          omega
        case cur =>
          rw [Cursor.insert, List.length_cons]
          exact congrArg (· + 1) hcur
        case lt =>
          dsimp only
          omega

theorem handled (h : Holds maxLen s z) (ev : KeyEvent) :
    ∃ s', handle maxLen s ev = some (s', calls maxLen z ev) ∧ Holds maxLen s' (edit maxLen z ev) := by
  cases ht : ev.type with
  | left => exact left_handled h ev ht
  | right => exact right_handled h ev ht
  | home => exact home_handled h ev ht
  | last => exact last_handled h ev ht
  | backspace => exact backspace_handled h ev ht
  | delete => exact delete_handled h ev ht
  | char => exact char_handled h ev ht
  | _ =>
    simp only [handle, calls, edit, ht]
    exact ⟨s, rfl, h⟩

end Steps

section Runs

variable {maxLen : ℕ} {s : LineBuffer} {z : Cursor Int8}

theorem readLoop_cons {ev : KeyEvent} (hev : ev.type ≠ .enter) {s₁ s₂ : LineBuffer} {out₁ out₂ : List ConsoleCall}
    (hs : handle maxLen s ev = some (s₁, out₁)) {evs : List KeyEvent} {rest : Option (List KeyEvent)}
    (hrun : readLoop maxLen s₁ evs = some (s₂, out₂, rest)) :
    readLoop maxLen s (ev :: evs) = some (s₂, out₁ ++ out₂, rest) := by
  simp only [readLoop, if_neg hev, hs, hrun, Option.bind_eq_bind, Option.bind_some, Option.pure_def]

theorem readLoop_waits (h : Holds maxLen s z) {evs : List KeyEvent} (hevs : ∀ ev ∈ evs, ev.type ≠ .enter) :
    ∃ s' out, readLoop maxLen s evs = some (s', out, none) ∧ Holds maxLen s' (evs.foldl (edit maxLen) z) := by
  induction evs generalizing s z with
  | nil => exact ⟨s, [], rfl, h⟩
  | cons ev evs ih =>
    obtain ⟨s₁, hs₁, h₁⟩ := handled h ev
    obtain ⟨s₂, out, hs₂, h₂⟩ := ih h₁ fun e he => hevs e (List.mem_cons_of_mem _ he)
    exact ⟨s₂, calls maxLen z ev ++ out, readLoop_cons (hevs ev List.mem_cons_self) hs₁ hs₂, h₂⟩

theorem readLoop_enter {evs : List KeyEvent} (hevs : ∀ ev ∈ evs, ev.type ≠ .enter) {s' : LineBuffer}
    {out : List ConsoleCall} (hrun : readLoop maxLen s evs = some (s', out, none)) {enter : KeyEvent}
    (henter : enter.type = .enter) (rest : List KeyEvent) :
    readLoop maxLen s (evs ++ enter :: rest) = some (s', out ++ [putc 10], some rest) := by
  induction evs generalizing s out with
  | nil =>
    simp only [readLoop, Option.some.injEq, Prod.mk.injEq] at hrun
    rw [List.nil_append, readLoop, if_pos henter, ← hrun.1, ← hrun.2.1]
    rfl
  | cons ev evs ih =>
    have hev : ¬ ev.type = .enter := hevs ev List.mem_cons_self
    simp only [readLoop, if_neg hev, Option.bind_eq_bind, Option.bind_eq_some_iff] at hrun
    obtain ⟨⟨s₁, out₁⟩, hs₁, ⟨s₂, out₂, rest₂⟩, hs₂, hfin⟩ := hrun
    simp only [Option.pure_def, Option.some.injEq, Prod.mk.injEq] at hfin
    obtain ⟨rfl, rfl, rfl⟩ := hfin
    rw [List.cons_append, List.append_assoc]
    exact readLoop_cons hev hs₁ (ih (fun e he => hevs e (List.mem_cons_of_mem _ he)) hs₂)

theorem holds_start (hmax : 1 ≤ maxLen) {buf : List Int8} (hbuf : buf.length = maxLen) :
    Holds maxLen ⟨buf, 0, 0⟩ ⟨[], []⟩ := ⟨hbuf, ⟨buf, rfl⟩, rfl, rfl, hmax⟩

def InBounds (maxLen : ℕ) (s : LineBuffer) : Prop := s.cur ≤ s.len ∧ s.len < maxLen ∧ maxLen = s.buf.length

theorem Holds.inBounds (h : Holds maxLen s z) : s.InBounds maxLen := ⟨h.cur_le, h.lt, h.size.symm⟩

/-- `input_readline` is the reference editor, and no access leaves the buffer before the enter key or at it. -/
theorem inputReadline_refines (hmax : 1 ≤ maxLen) {buf : List Int8} (hbuf : buf.length = maxLen)
    {evs : List KeyEvent} (hevs : ∀ ev ∈ evs, ev.type ≠ .enter) {enter : KeyEvent} (henter : enter.type = .enter)
    (rest : List KeyEvent) :
    (∃ s out, inputReadline maxLen buf (evs ++ enter :: rest) = some (s, out, some rest) ∧
      s.buf.take s.len = (evs.foldl (edit maxLen) ⟨[], []⟩).text ∧
      s.len = (evs.foldl (edit maxLen) ⟨[], []⟩).text.length ∧ s.InBounds maxLen) ∧
    ∀ pre, pre <+: evs → ∃ s out, inputReadline maxLen buf pre = some (s, out, none) ∧ s.InBounds maxLen := by
  have hstart := holds_start hmax hbuf
  constructor
  · obtain ⟨s, out, hrun, h⟩ := readLoop_waits hstart hevs
    refine ⟨s, out ++ [putc 10], ?_, h.take, h.len.trans (Cursor.length_text _).symm, h.inBounds⟩
    rw [inputReadline, if_neg (by omega)]
    exact readLoop_enter hevs hrun henter rest
  · intro pre hpre
    obtain ⟨s, out, hrun, h⟩ := readLoop_waits hstart fun ev hev => hevs ev (hpre.subset hev)
    refine ⟨s, out, ?_, h.inBounds⟩
    rw [inputReadline, if_neg (by omega)]
    exact hrun

theorem inputReadline_refines_insert :
    ∃ s out, inputReadline 128 (List.replicate 128 0) ([⟨.char, 97, 0⟩, ⟨.left, 0, 0⟩, ⟨.char, 98, 0⟩] ++ ⟨.enter, 0, 0⟩ :: []) =
      some (s, out, some []) ∧ s.buf.take s.len = [98, 97] := by
  have hrun := @inputReadline_refines 128 (by decide) (List.replicate 128 0) List.length_replicate
    [⟨.char, 97, 0⟩, ⟨.left, 0, 0⟩, ⟨.char, 98, 0⟩] (by decide) ⟨.enter, 0, 0⟩ rfl []
  obtain ⟨s, out, hs, htake, -⟩ := hrun.1
  exact ⟨s, out, hs, htake⟩

end Runs

/-! The line of `InputLine` is the text of the reference editor. -/

section Lines

def Delivers (ev : KeyEvent) : Key → Prop
  | .char ch => ev.type = .char ∧ ev.glyph = ch.1
  | .left => ev.type = .left
  | .right => ev.type = .right
  | .home => ev.type = .home ∧ ¬ ev.ctrl
  | .last => ev.type = .last ∧ ¬ ev.ctrl
  | .backspace => ev.type = .backspace
  | .delete => ev.type = .delete
  | .page .up => ev.type = .pgup
  | .page .down => ev.type = .pgdn
  | .page .home => ev.type = .home ∧ ev.ctrl
  | .page .last => ev.type = .last ∧ ev.ctrl
  | .other => ev.type ∈ [.none, .tab, .esc, .up, .down]

def line (z : Cursor Int8) : Line := ⟨z.text, z.before.length⟩

def paged : Key → List ConsoleCall
  | .page p => [page p]
  | _ => []

structure SameEdit (maxLen : ℕ) (z : Cursor Int8) (ev : KeyEvent) (k : Key) : Prop where
  edited : ((line z).edit maxLen k).1 = line (edit maxLen z ev)
  called : calls maxLen z ev = ((line z).edit maxLen k).2.map putc ++ paged k

variable {maxLen : ℕ} {z : Cursor Int8} {ev : KeyEvent}

theorem eraseIdx_text (before : List Int8) (a : Int8) (after : List Int8) :
    (⟨before, a :: after⟩ : Cursor Int8).text.eraseIdx before.length = (⟨before, after⟩ : Cursor Int8).text := by
  rw [Cursor.text, List.eraseIdx_append_of_length_le (by rw [List.length_reverse]), List.length_reverse, Nat.sub_self]
  rfl

theorem insertIdx_append (l r : List Int8) (a : Int8) : (l ++ r).insertIdx l.length a = l ++ a :: r := by
  induction l with
  | nil => rfl
  | cons b l ih => rw [List.cons_append, List.length_cons, List.insertIdx_succ_cons, ih, List.cons_append]

theorem insertIdx_text (z : Cursor Int8) (a : Int8) : z.text.insertIdx z.before.length a = (z.insert a).text := by
  have happ := insertIdx_append z.before.reverse z.after a
  rw [List.length_reverse] at happ
  rw [Cursor.text_insert, Cursor.text, happ]

theorem drop_text (z : Cursor Int8) : z.text.drop z.before.length = z.after := by
  have happ : (z.before.reverse ++ z.after).drop z.before.reverse.length = z.after := List.drop_left
  rw [List.length_reverse] at happ
  exact happ

theorem left_same (ht : ev.type = .left) : SameEdit maxLen z ev .left := by
  obtain ⟨before, after⟩ := z
  constructor
  all_goals simp only [edit, calls, ht]
  all_goals cases before with
  | nil => rfl
  | cons a before =>
    simp only [line, Line.edit, List.length_cons, Nat.succ_pos, if_true, Cursor.left, Cursor.text_left]
    rfl

theorem right_same (ht : ev.type = .right) : SameEdit maxLen z ev .right := by
  obtain ⟨before, after⟩ := z
  have hget : (⟨before, after⟩ : Cursor Int8).text[before.length]? = after.head? := by
    rw [← List.head?_drop]
    exact congrArg _ (drop_text ⟨before, after⟩)
  constructor
  all_goals simp only [edit, calls, ht, line, Line.edit, hget]
  all_goals cases after with
  | nil => rfl
  | cons a after =>
    simp only [List.head?_cons, Cursor.right, Cursor.text_left]
    rfl

theorem home_same (ht : ev.type = .home) (hctrl : ¬ ev.ctrl) : SameEdit maxLen z ev .home := by
  constructor
  · simp only [edit, ht, if_neg hctrl, line, Line.edit, Cursor.text_home]
    rfl
  · simp only [calls, ht, if_neg hctrl, line, Line.edit, List.map_const', List.map_replicate]
    exact (List.append_nil _).symm

theorem last_same (ht : ev.type = .last) (hctrl : ¬ ev.ctrl) : SameEdit maxLen z ev .last := by
  constructor
  · simp only [edit, ht, if_neg hctrl, line, Line.edit, Cursor.text_last]
    rw [Cursor.last, List.length_reverse]
  · simp only [calls, ht, if_neg hctrl, line, Line.edit, drop_text]
    exact (List.append_nil _).symm

theorem backspace_same (ht : ev.type = .backspace) : SameEdit maxLen z ev .backspace := by
  obtain ⟨before, after⟩ := z
  cases before with
  | nil =>
    constructor
    all_goals simp only [edit, calls, ht]
    all_goals rfl
  | cons a before =>
    have herase := eraseIdx_text before a after
    have hdrop := drop_text ⟨before, after⟩
    have hlen := (⟨before, after⟩ : Cursor Int8).length_text
    have hback : (⟨before, after⟩ : Cursor Int8).text.length + 1 - before.length = after.length + 1 := by
      rw [hlen]
      dsimp only
      omega
    constructor
    all_goals simp only [edit, calls, ht, line, Line.edit, List.length_cons, Nat.succ_pos, if_true, Nat.add_sub_cancel,
      Cursor.text_left, herase, hdrop, hback, if_neg (List.cons_ne_nil a before)]
    all_goals try rfl
    simp only [List.map_cons, List.map_append, List.map_replicate, paged, List.append_nil]

theorem delete_same (ht : ev.type = .delete) : SameEdit maxLen z ev .delete := by
  obtain ⟨before, after⟩ := z
  have hlen := (⟨before, after⟩ : Cursor Int8).length_text
  cases after with
  | nil =>
    have hend : ¬ before.length < (⟨before, []⟩ : Cursor Int8).text.length := by
      rw [hlen]
      exact Nat.lt_irrefl _
    have hskip : (line ⟨before, []⟩).edit maxLen .delete = (line ⟨before, []⟩, []) := if_neg hend
    constructor
    all_goals simp only [edit, calls, ht, hskip]
    all_goals rfl
  | cons a after =>
    have hlt : before.length < (⟨before, a :: after⟩ : Cursor Int8).text.length := by
      rw [hlen, List.length_cons]
      dsimp only
      omega
    have herase := eraseIdx_text before a after
    have hdrop := drop_text ⟨before, after⟩
    have hback : (⟨before, after⟩ : Cursor Int8).text.length + 1 - before.length = after.length + 1 := by
      rw [Cursor.length_text]
      dsimp only
      omega
    constructor
    all_goals simp only [edit, calls, ht, line, Line.edit, if_pos hlt, herase, hdrop, hback,
      if_neg (List.cons_ne_nil a after)]
    all_goals try rfl
    simp only [List.map_cons, List.map_append, List.map_replicate, paged, List.append_nil, List.tail_cons,
      List.length_cons]

theorem char_same {ch : Printable} (hz : z.text.length < maxLen) (ht : ev.type = .char) (hch : ev.glyph = ch.1) :
    SameEdit maxLen z ev (.char ch) := by
  by_cases hfull : z.text.length = maxLen - 1
  · have hskip : (line z).edit maxLen (.char ch) = (line z, []) := by
      apply if_neg
      change ¬ z.text.length + 1 < maxLen
      omega
    constructor
    all_goals simp only [edit, calls, ht, if_pos hfull, hskip]
    all_goals rfl
  · have hroom : z.text.length + 1 < maxLen := by omega
    have hdrop := drop_text (z.insert ch.1)
    have hlen := (z.insert ch.1).length_text
    have hnext : (z.insert ch.1).before.length = z.before.length + 1 := rfl
    have hafter : (z.insert ch.1).after = z.after := rfl
    rw [hnext, hafter] at hdrop hlen
    have hback : (z.insert ch.1).text.length - (z.before.length + 1) = z.after.length := by omega
    constructor
    all_goals simp only [edit, calls, ht, if_neg hfull, line, Line.edit, if_pos hroom, insertIdx_text, hch, hdrop,
      hback]
    all_goals try rfl
    simp only [List.map_cons, List.map_append, List.map_replicate, paged, List.append_nil]

theorem same_edit (hz : z.text.length < maxLen) {k : Key} (h : Delivers ev k) : SameEdit maxLen z ev k := by
  cases k with
  | char ch => exact char_same hz h.1 h.2
  | left => exact left_same h
  | right => exact right_same h
  | home => exact home_same h.1 h.2
  | last => exact last_same h.1 h.2
  | backspace => exact backspace_same h
  | delete => exact delete_same h
  | page p =>
    cases p with
    | up | down =>
      have ht : ev.type = _ := h
      constructor
      all_goals simp only [edit, calls, ht]
      all_goals rfl
    | home | last =>
      obtain ⟨ht, hctrl⟩ := h
      constructor
      all_goals simp only [edit, calls, ht, if_pos hctrl]
      all_goals rfl
  | other =>
    simp only [Delivers, List.mem_cons, List.not_mem_nil, or_false] at h
    rcases h with ht | ht | ht | ht | ht
    all_goals
      constructor
      all_goals simp only [edit, calls, ht]
      all_goals rfl

theorem console_printed (t : Session) (chs : List Int8) :
    (chs.foldl Session.putc t).console = (chs.map putc).foldl ConsoleCall.run t.console := by
  induction chs generalizing t with
  | nil => rfl
  | cons ch chs ih => exact ih (t.putc ch)

theorem key_line (t : Session) (k : Key) : (t.key maxLen k).line = (t.line.edit maxLen k).1 := by
  cases k <;> rfl

theorem key_console {t : Session} (ht : t.line = line z) {k : Key} (h : SameEdit maxLen z ev k) :
    (t.key maxLen k).console = (calls maxLen z ev).foldl ConsoleCall.run t.console := by
  rw [h.called, List.foldl_append, ← console_printed, ← ht]
  cases k <;> rfl

theorem readLoop_session {s : LineBuffer} (h : Holds maxLen s z) {evs : List KeyEvent} {keys : List Key}
    (hkeys : List.Forall₂ Delivers evs keys) (hevs : ∀ ev ∈ evs, ev.type ≠ .enter) {t : Session} (ht : t.line = line z) :
    ∃ s' out, readLoop maxLen s evs = some (s', out, none) ∧
      (keys.foldl (Session.key maxLen) t).line.buf = s'.buf.take s'.len ∧
      (keys.foldl (Session.key maxLen) t).console = out.foldl ConsoleCall.run t.console := by
  induction hkeys generalizing s z t with
  | nil =>
    refine ⟨s, [], rfl, ?_, rfl⟩
    rw [h.take]
    exact congrArg Line.buf ht
  | @cons ev k evs keys hev hkeys ih =>
    have hz : z.text.length < maxLen := by
      rw [z.length_text, ← h.len]
      exact h.lt
    have hsame := same_edit hz hev
    obtain ⟨s₁, hs₁, h₁⟩ := handled h ev
    have hline : (t.key maxLen k).line = line (edit maxLen z ev) := by
      rw [key_line, ht]
      exact hsame.edited
    obtain ⟨s₂, out, hs₂, hbuf, hconsole⟩ := ih h₁ (fun e he => hevs e (List.mem_cons_of_mem _ he)) hline
    refine ⟨s₂, calls maxLen z ev ++ out, readLoop_cons (hevs ev List.mem_cons_self) hs₁ hs₂, hbuf, ?_⟩
    rw [List.foldl_append, ← key_console ht hsame]
    exact hconsole

theorem inputReadline_session (hmax : 1 ≤ maxLen) {buf : List Int8} (hbuf : buf.length = maxLen) {evs : List KeyEvent}
    {keys : List Key} (hkeys : List.Forall₂ Delivers evs keys) (hevs : ∀ ev ∈ evs, ev.type ≠ .enter) {enter : KeyEvent}
    (henter : enter.type = .enter) (rest : List KeyEvent) (c : Console) :
    ∃ s out, inputReadline maxLen buf (evs ++ enter :: rest) = some (s, out, some rest) ∧
      Session.inputReadline maxLen c keys = (out.foldl ConsoleCall.run c, s.buf.take s.len) := by
  have hmax' : ¬ maxLen = 0 := by omega
  obtain ⟨s, out, hrun, hline, hconsole⟩ :=
    readLoop_session (holds_start hmax hbuf) hkeys hevs (t := Session.start c) rfl
  refine ⟨s, out ++ [putc 10], ?_, ?_⟩
  · rw [inputReadline, if_neg hmax']
    exact readLoop_enter hevs hrun henter rest
  · rw [Session.inputReadline, if_neg hmax', Session.typed]
    dsimp only
    rw [hline, hconsole, List.foldl_append]
    rfl

end Lines

end LineBuffer

end DexOs
