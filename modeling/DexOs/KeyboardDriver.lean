import DexOs.Lib.Monitors
import DexOs.LineEditor
import Mathlib.Algebra.Group.Nat.Even

/-! The keyboard driver of `input.c`: scancodes of set 1, the modifier flags and the events. -/

namespace DexOs.Keyboard

open DexOs.Lib

def modShift : UInt32 := (1 : UInt32) <<< 0

def modCtrl : UInt32 := (1 : UInt32) <<< 1

def modAlt : UInt32 := (1 : UInt32) <<< 2

def modCaps : UInt32 := (1 : UInt32) <<< 3

structure Ps2 where
  mods : UInt32
  e0 : Bool

def baseMap : List Char := [
  '\x00', '\x1b', '1', '2', '3', '4', '5', '6', '7', '8', '9', '0', '-', '=', '\x08',
  '\t', 'q', 'w', 'e', 'r', 't', 'y', 'u', 'i', 'o', 'p', '[', ']', '\n', '\x00',
  'a', 's', 'd', 'f', 'g', 'h', 'j', 'k', 'l', ';', '\'', '`', '\x00', '\\', 'z',
  'x', 'c', 'v', 'b', 'n', 'm', ',', '.', '/', '\x00', '*', '\x00', ' ', '\x00', '\x00', '\x00']

def shiftMap : List Char := [
  '\x00', '\x1b', '!', '@', '#', '$', '%', '^', '&', '*', '(', ')', '_', '+', '\x08',
  '\t', 'Q', 'W', 'E', 'R', 'T', 'Y', 'U', 'I', 'O', 'P', '{', '}', '\n', '\x00',
  'A', 'S', 'D', 'F', 'G', 'H', 'J', 'K', 'L', ':', '"', '~', '\x00', '|', 'Z',
  'X', 'C', 'V', 'B', 'N', 'M', '<', '>', '?', '\x00', '*', '\x00', ' ', '\x00', '\x00', '\x00']

def entry (map : List Char) (code : UInt8) : UInt8 := (map.getD code.toNat '\x00').toUInt8

def isLetterScancode (sc : UInt8) : Bool :=
  (0x10 ≤ sc && sc ≤ 0x19) || (0x1E ≤ sc && sc ≤ 0x26) || (0x2C ≤ sc && sc ≤ 0x32)

def charOf (shift caps : Bool) (code : UInt8) : UInt8 :=
  if isLetterScancode code then
    let ch := entry baseMap code
    let upper := shift != caps
    let ch := if upper && 97 ≤ ch && ch ≤ 122 then ch - 97 + 65 else ch
    if !upper && 65 ≤ ch && ch ≤ 90 then ch - 65 + 97 else ch
  else if shift then entry shiftMap code
  else entry baseMap code

def extendedKey : UInt8 → Option KeyType
  | 0x4B => some .left
  | 0x4D => some .right
  | 0x48 => some .up
  | 0x50 => some .down
  | 0x47 => some .home
  | 0x4F => some .last
  | 0x53 => some .delete
  | 0x49 => some .pgup
  | 0x51 => some .pgdn
  | _ => none

def regularKey (mods : UInt32) (code : UInt8) (ev : KeyEvent) : Option KeyEvent :=
  if code = 0x01 then some { ev with type := .esc, mods := mods }
  else if code = 0x0E then some { ev with type := .backspace, mods := mods }
  else if code = 0x0F then some { ev with type := .tab, mods := mods }
  else if code = 0x1C then some { ev with type := .enter, mods := mods }
  else
    let ch := charOf (mods &&& modShift ≠ 0) (mods &&& modCaps ≠ 0) code
    if ch ≠ 0 then some { type := .char, ch := ch.toUInt16, mods := mods } else none

namespace Ps2

def setFlag (s : Ps2) (flag : UInt32) (breakCode : Bool) : Ps2 × Option KeyEvent :=
  (⟨if breakCode then s.mods &&& ~~~ flag else s.mods ||| flag, false⟩, none)

/-- `ps2_try_read_event_internal`, with the byte that the controller has. The result is `some` when it returns 1. -/
def tryReadEventInternal (s : Ps2) (data : Option UInt8) (ev : KeyEvent) : Ps2 × Option KeyEvent :=
  match data with
  | none => (s, none)
  | some sc =>
    if sc = 0xE0 then ({ s with e0 := true }, none)
    else if sc = 0xE1 then (s, none)
    else
      let breakCode : Bool := sc &&& 0x80 ≠ 0
      let code := sc &&& 0x7F
      if ¬ s.e0 ∧ (code = 0x2A ∨ code = 0x36) then s.setFlag modShift breakCode
      else if (¬ s.e0 ∧ code = 0x1D) ∨ (s.e0 ∧ code = 0x1D) then s.setFlag modCtrl breakCode
      else if (¬ s.e0 ∧ code = 0x38) ∨ (s.e0 ∧ code = 0x38) then s.setFlag modAlt breakCode
      else if ¬ s.e0 ∧ code = 0x3A ∧ ¬ breakCode then (⟨s.mods ^^^ modCaps, false⟩, none)
      else if breakCode then (⟨s.mods, false⟩, none)
      else if s.e0 then
        (⟨s.mods, false⟩, (extendedKey code).map fun type => { ev with type := type, mods := s.mods })
      else (s, regularKey s.mods code ev)

def next (s : Ps2) (sc : UInt8) : Ps2 := (s.tryReadEventInternal (some sc) ⟨.none, 0, 0⟩).1

end Ps2

def inputTryReadEvent (s : Ps2) (data serial : Option UInt8) (ev : KeyEvent) : Ps2 × KeyEvent × Bool :=
  match s.tryReadEventInternal data ev with
  | (s, some ev) => (s, ev, true)
  | (s, none) =>
    match serial with
    | none => (s, ev, false)
    | some c =>
      let ev := { ev with ch := 0, mods := 0 }
      if c = 13 ∨ c = 10 then (s, { ev with type := .enter }, true)
      else if c = 8 ∨ c = 127 then (s, { ev with type := .backspace }, true)
      else if c = 27 then (s, { ev with type := .esc }, true)
      else if c = 9 then (s, { ev with type := .tab }, true)
      else if 32 ≤ c ∧ c < 127 then (s, { ev with type := .char, ch := c.toUInt16 }, true)
      else (s, ev, false)

@[ext]
structure Key where
  extended : Bool
  code : UInt8
  isCode : code < 0x80 ∧ code ≠ 0x60 ∧ code ≠ 0x61

instance : DecidableEq Key := fun a b =>
  decidable_of_iff (a.extended = b.extended ∧ a.code = b.code) Key.ext_iff.symm

inductive Modifier
  | shift
  | ctrl
  | alt
  deriving DecidableEq

namespace Modifier

def left : Modifier → Key
  | shift => ⟨false, 0x2A, by decide⟩
  | ctrl => ⟨false, 0x1D, by decide⟩
  | alt => ⟨false, 0x38, by decide⟩

def right : Modifier → Key
  | shift => ⟨false, 0x36, by decide⟩
  | ctrl => ⟨true, 0x1D, by decide⟩
  | alt => ⟨true, 0x38, by decide⟩

def flag : Modifier → UInt32
  | shift => modShift
  | ctrl => modCtrl
  | alt => modAlt

def Has (m : Modifier) (k : Key) : Prop := k = m.left ∨ k = m.right

instance (m : Modifier) (k : Key) : Decidable (m.Has k) := inferInstanceAs (Decidable (_ ∨ _))

end Modifier

def capsLock : Key := ⟨false, 0x3A, by decide⟩

def numLock : Key := ⟨false, 0x45, by decide⟩

/-- What the keyboard sends at once: the make or the break code of a key, or the code of the pause key, which has no
break code. -/
inductive Code
  | press (k : Key)
  | release (k : Key)
  | pause

namespace Code

def bytes : Code → List UInt8
  | press k => (if k.extended then [0xE0] else []) ++ [k.code]
  | release k => (if k.extended then [0xE0] else []) ++ [k.code ||| 0x80]
  | pause => [0xE1, 0x1D, 0x45, 0xE1, 0x9D, 0xC5]

end Code

def driver (codes : List Code) : Ps2 := (codes.flatMap Code.bytes).foldl Ps2.next ⟨0, false⟩

/-- The keys that are down, how often Caps Lock has gone down, and how many make codes it has sent: a key that is held
sends its make code again. -/
structure Keys where
  down : Key → Bool
  capsPresses : ℕ
  capsMakes : ℕ

def Keys.after (keys : Keys) : Code → Keys
  | .press k =>
    { down := Function.update keys.down k true
      capsPresses := if k = capsLock ∧ ¬ keys.down k then keys.capsPresses + 1 else keys.capsPresses
      capsMakes := if k = capsLock then keys.capsMakes + 1 else keys.capsMakes }
  | .release k => { keys with down := Function.update keys.down k false }
  | .pause => keys

def keysAfter (codes : List Code) : Keys := codes.foldl Keys.after ⟨fun _ => false, 0, 0⟩

/-- Each flag is set if and only if one of its two keys is down. -/
def Follows (mods : UInt32) (keys : Keys) : Prop :=
  ∀ m : Modifier, mods &&& m.flag ≠ 0 ↔ keys.down m.left ∨ keys.down m.right

structure Tracks (s : Ps2) (keys : Keys) (presses : ℕ) : Prop where
  modifiers : Follows s.mods keys
  caps : s.mods &&& modCaps ≠ 0 ↔ Odd presses
  e0 : s.e0 = false

/-- The code clears the flag of a modifier with a key that stays down. -/
def Keys.Hides (keys : Keys) : Code → Prop
  | .press _ => False
  | .release k => ∃ m : Modifier, k = m.left ∧ keys.down m.right ∨ k = m.right ∧ keys.down m.left
  | .pause => keys.down Modifier.ctrl.left ∨ keys.down Modifier.ctrl.right

/-- Caps Lock is held, and sends its make code again. -/
def Keys.RepeatsCaps (keys : Keys) (c : Code) : Prop := c = .press capsLock ∧ keys.down capsLock

section Bits

variable (m f g : UInt32)

theorem or_test : (m ||| f) &&& g = (m &&& g) ||| (f &&& g) := by
  apply UInt32.toBitVec_inj.mp
  ext i hi
  simp [Bool.and_or_distrib_right]

theorem xor_test : (m ^^^ f) &&& g = (m &&& g) ^^^ (f &&& g) := by
  apply UInt32.toBitVec_inj.mp
  ext i hi
  simp [Bool.and_xor_distrib_right]

theorem caps_eq_or (m : UInt32) : m &&& modCaps = 0 ∨ m &&& modCaps = modCaps := by
  have hbit : m.toBitVec &&& BitVec.twoPow 32 3 = 0#32 ∨ m.toBitVec &&& BitVec.twoPow 32 3 = BitVec.twoPow 32 3 := by
    rw [BitVec.and_twoPow]
    split_ifs
    · exact .inr rfl
    · exact .inl rfl
  rcases hbit with h | h
  · exact .inl (UInt32.toBitVec_inj.mp h)
  · exact .inr (UInt32.toBitVec_inj.mp h)

end Bits

section Flags

variable (mods : UInt32) (m n : Modifier)

theorem flag_ne_zero : m.flag ≠ 0 := by
  cases m <;> decide

theorem press_test : (mods ||| m.flag) &&& n.flag ≠ 0 ↔ m = n ∨ mods &&& n.flag ≠ 0 := by
  rw [or_test]
  by_cases h : m = n
  · subst h
    simp [flag_ne_zero]
  · have hdis : m.flag &&& n.flag = 0 := by
      revert h
      cases m <;> cases n <;> decide
    simp [hdis, h]

theorem release_test : (mods &&& ~~~ m.flag) &&& n.flag ≠ 0 ↔ m ≠ n ∧ mods &&& n.flag ≠ 0 := by
  rw [UInt32.and_assoc]
  by_cases h : m = n
  · subst h
    simp
  · have hkeep : ~~~ m.flag &&& n.flag = n.flag := by
      revert h
      cases m <;> cases n <;> decide
    simp [hkeep, h]

theorem press_caps : (mods ||| m.flag) &&& modCaps = mods &&& modCaps := by
  have hdis : m.flag &&& modCaps = 0 := by cases m <;> decide
  rw [or_test, hdis, UInt32.or_zero]

theorem release_caps : (mods &&& ~~~ m.flag) &&& modCaps = mods &&& modCaps := by
  have hkeep : ~~~ m.flag &&& modCaps = modCaps := by cases m <;> decide
  rw [UInt32.and_assoc, hkeep]

theorem toggle_test : (mods ^^^ modCaps) &&& m.flag = mods &&& m.flag := by
  have hdis : modCaps &&& m.flag = 0 := by cases m <;> decide
  rw [xor_test, hdis, UInt32.xor_zero]

theorem toggle_caps : (mods ^^^ modCaps) &&& modCaps ≠ 0 ↔ ¬ mods &&& modCaps ≠ 0 := by
  rw [xor_test, UInt32.and_self]
  rcases caps_eq_or mods with h | h
  · rw [h]
    decide
  · rw [h]
    decide

end Flags

section Codes

variable {s : Ps2} {k : Key}

theorem make_byte : ∀ c : UInt8, c < 0x80 → c ≠ 0xE0 ∧ c ≠ 0xE1 ∧ c &&& 0x80 = 0 ∧ c &&& 0x7F = c := by
  have hall : ∀ n < 256, UInt8.ofNat n < 0x80 → UInt8.ofNat n ≠ 0xE0 ∧ UInt8.ofNat n ≠ 0xE1 ∧
      UInt8.ofNat n &&& 0x80 = 0 ∧ UInt8.ofNat n &&& 0x7F = UInt8.ofNat n := by decide +kernel
  intro c
  have hc := hall c.toNat c.toNat_lt
  rwa [UInt8.ofNat_toNat] at hc

theorem break_byte : ∀ c : UInt8, c < 0x80 ∧ c ≠ 0x60 ∧ c ≠ 0x61 →
    c ||| 0x80 ≠ 0xE0 ∧ c ||| 0x80 ≠ 0xE1 ∧ (c ||| 0x80) &&& 0x80 ≠ 0 ∧ (c ||| 0x80) &&& 0x7F = c := by
  have hall : ∀ n < 256, UInt8.ofNat n < 0x80 ∧ UInt8.ofNat n ≠ 0x60 ∧ UInt8.ofNat n ≠ 0x61 →
      UInt8.ofNat n ||| 0x80 ≠ 0xE0 ∧ UInt8.ofNat n ||| 0x80 ≠ 0xE1 ∧ (UInt8.ofNat n ||| 0x80) &&& 0x80 ≠ 0 ∧
      (UInt8.ofNat n ||| 0x80) &&& 0x7F = UInt8.ofNat n := by decide +kernel
  intro c
  have hc := hall c.toNat c.toNat_lt
  rwa [UInt8.ofNat_toNat] at hc

def pressed (mods : UInt32) (k : Key) : UInt32 :=
  if Modifier.shift.Has k then mods ||| modShift
  else if Modifier.ctrl.Has k then mods ||| modCtrl
  else if Modifier.alt.Has k then mods ||| modAlt
  else if k = capsLock then mods ^^^ modCaps
  else mods

def released (mods : UInt32) (k : Key) : UInt32 :=
  if Modifier.shift.Has k then mods &&& ~~~ modShift
  else if Modifier.ctrl.Has k then mods &&& ~~~ modCtrl
  else if Modifier.alt.Has k then mods &&& ~~~ modAlt
  else mods

theorem shift_has (k : Key) : Modifier.shift.Has k ↔ ¬ k.extended ∧ (k.code = 0x2A ∨ k.code = 0x36) := by
  rw [Modifier.Has, Key.ext_iff, Key.ext_iff, Bool.not_eq_true]
  exact and_or_left.symm

theorem ctrl_has (k : Key) :
    Modifier.ctrl.Has k ↔ (¬ k.extended ∧ k.code = 0x1D) ∨ (k.extended ∧ k.code = 0x1D) := by
  rw [Modifier.Has, Key.ext_iff, Key.ext_iff, Bool.not_eq_true]
  rfl

theorem alt_has (k : Key) :
    Modifier.alt.Has k ↔ (¬ k.extended ∧ k.code = 0x38) ∨ (k.extended ∧ k.code = 0x38) := by
  rw [Modifier.Has, Key.ext_iff, Key.ext_iff, Bool.not_eq_true]
  rfl

theorem eq_capsLock (k : Key) : k = capsLock ↔ ¬ k.extended ∧ k.code = 0x3A := by
  rw [Key.ext_iff, Bool.not_eq_true]
  rfl

theorem dispatch_eq {β : Type} (k : Key) (shift ctrl alt other : β) :
    (if ¬ k.extended ∧ (k.code = 0x2A ∨ k.code = 0x36) then shift
      else if (¬ k.extended ∧ k.code = 0x1D) ∨ (k.extended ∧ k.code = 0x1D) then ctrl
      else if (¬ k.extended ∧ k.code = 0x38) ∨ (k.extended ∧ k.code = 0x38) then alt
      else other) =
    if Modifier.shift.Has k then shift
    else if Modifier.ctrl.Has k then ctrl
    else if Modifier.alt.Has k then alt
    else other := by
  simp only [shift_has, ctrl_has, alt_has]

theorem next_make (h : s.e0 = k.extended) : s.next k.code = ⟨pressed s.mods k, false⟩ := by
  obtain ⟨hE0, hE1, hbit, hlow⟩ := make_byte k.code k.isCode.1
  have hno : ¬ (0 : UInt8) ≠ 0 := fun h => h rfl
  have hcaps : (¬ k.extended ∧ k.code = 0x3A ∧ ¬ false = true) ↔ k = capsLock :=
    (and_congr_right fun _ => and_iff_left Bool.false_ne_true).trans (eq_capsLock k).symm
  unfold Ps2.next Ps2.tryReadEventInternal
  dsimp only
  rw [if_neg hE0, if_neg hE1, hbit, hlow, h, decide_eq_false hno, dispatch_eq, pressed]
  simp only [hcaps, if_neg Bool.false_ne_true]
  split_ifs with hshift hctrl halt hcaps hext
  · rfl
  · rfl
  · rfl
  · rfl
  · rfl
  · have hs : s = ⟨s.mods, false⟩ := by rw [← Bool.eq_false_of_not_eq_true hext, ← h]
    exact hs

theorem next_break (h : s.e0 = k.extended) : s.next (k.code ||| 0x80) = ⟨released s.mods k, false⟩ := by
  obtain ⟨hE0, hE1, hbit, hlow⟩ := break_byte k.code k.isCode
  have hcaps : ¬ (¬ k.extended ∧ k.code = 0x3A ∧ ¬ true = true) := fun hc => hc.2.2 rfl
  unfold Ps2.next Ps2.tryReadEventInternal
  dsimp only
  rw [if_neg hE0, if_neg hE1, hlow, h, decide_eq_true hbit, dispatch_eq, if_neg hcaps, if_pos (rfl : true = true), released]
  split_ifs with hshift hctrl halt
  · rfl
  · rfl
  · rfl
  · rfl

theorem next_prefix (s : Ps2) : s.next 0xE0 = { s with e0 := true } := rfl

theorem foldl_press (h : s.e0 = false) : (Code.press k).bytes.foldl Ps2.next s = ⟨pressed s.mods k, false⟩ := by
  dsimp only [Code.bytes]
  by_cases hext : k.extended
  · rw [if_pos hext, List.cons_append, List.nil_append, List.foldl_cons, List.foldl_cons, List.foldl_nil, next_prefix,
      next_make hext.symm]
  · rw [if_neg hext, List.nil_append, List.foldl_cons, List.foldl_nil,
      next_make (h.trans (Bool.eq_false_of_not_eq_true hext).symm)]

theorem foldl_release (h : s.e0 = false) : (Code.release k).bytes.foldl Ps2.next s = ⟨released s.mods k, false⟩ := by
  dsimp only [Code.bytes]
  by_cases hext : k.extended
  · rw [if_pos hext, List.cons_append, List.nil_append, List.foldl_cons, List.foldl_cons, List.foldl_nil, next_prefix,
      next_break hext.symm]
  · rw [if_neg hext, List.nil_append, List.foldl_cons, List.foldl_nil,
      next_break (h.trans (Bool.eq_false_of_not_eq_true hext).symm)]

theorem foldl_pause (h : s.e0 = false) : Code.pause.bytes.foldl Ps2.next s = ⟨s.mods &&& ~~~ modCtrl, false⟩ := by
  have hskip (t : Ps2) : t.next 0xE1 = t := rfl
  have hctrl : s.next 0x1D = ⟨s.mods ||| modCtrl, false⟩ := next_make (k := Modifier.ctrl.left) h
  have hnum (mods : UInt32) : (⟨mods, false⟩ : Ps2).next 0x45 = ⟨mods, false⟩ := next_make (k := numLock) rfl
  have hctrl' (mods : UInt32) : (⟨mods, false⟩ : Ps2).next 0x9D = ⟨mods &&& ~~~ modCtrl, false⟩ :=
    next_break (s := ⟨mods, false⟩) (k := Modifier.ctrl.left) rfl
  have hnum' (mods : UInt32) : (⟨mods, false⟩ : Ps2).next 0xC5 = ⟨mods, false⟩ :=
    next_break (s := ⟨mods, false⟩) (k := numLock) rfl
  have hclear : (s.mods ||| modCtrl) &&& ~~~ modCtrl = s.mods &&& ~~~ modCtrl := by
    rw [or_test, UInt32.and_not_self, UInt32.or_zero]
  simp only [Code.bytes, List.foldl_cons, List.foldl_nil, hskip, hctrl, hnum, hctrl', hnum', hclear]

end Codes

section Steps

variable {k : Key} {m : Modifier} {keys : Keys}

theorem Modifier.Has.unique {n : Modifier} (hm : m.Has k) (hn : n.Has k) : m = n := by
  rcases hm with rfl | rfl <;> revert hn <;> cases m <;> cases n <;> decide

theorem not_has_capsLock (m : Modifier) : ¬ m.Has capsLock := by
  cases m <;> decide

theorem pressed_of_has (h : m.Has k) (mods : UInt32) : pressed mods k = mods ||| m.flag := by
  unfold pressed
  split_ifs with hshift hctrl halt hcaps
  · rw [h.unique hshift, Modifier.flag]
  · rw [h.unique hctrl, Modifier.flag]
  · rw [h.unique halt, Modifier.flag]
  · exact absurd (hcaps ▸ h) (not_has_capsLock m)
  · cases m <;> contradiction

theorem released_of_has (h : m.Has k) (mods : UInt32) : released mods k = mods &&& ~~~ m.flag := by
  unfold released
  split_ifs with hshift hctrl halt
  · rw [h.unique hshift, Modifier.flag]
  · rw [h.unique hctrl, Modifier.flag]
  · rw [h.unique halt, Modifier.flag]
  · cases m <;> contradiction

theorem pressed_of_not_has (h : ∀ m : Modifier, ¬ m.Has k) (mods : UInt32) :
    pressed mods k = if k = capsLock then mods ^^^ modCaps else mods := by
  rw [pressed, if_neg (h .shift), if_neg (h .ctrl), if_neg (h .alt)]

theorem released_of_not_has (h : ∀ m : Modifier, ¬ m.Has k) (mods : UInt32) : released mods k = mods := by
  rw [released, if_neg (h .shift), if_neg (h .ctrl), if_neg (h .alt)]

theorem test_pressed (mods : UInt32) (k : Key) (m : Modifier) :
    pressed mods k &&& m.flag ≠ 0 ↔ m.Has k ∨ mods &&& m.flag ≠ 0 := by
  by_cases hk : ∃ n : Modifier, n.Has k
  · obtain ⟨n, hn⟩ := hk
    have hone : n = m ↔ m.Has k := ⟨fun h => h ▸ hn, hn.unique⟩
    rw [pressed_of_has hn, press_test, hone]
  · have hnone : ∀ n : Modifier, ¬ n.Has k := fun n hn => hk ⟨n, hn⟩
    rw [pressed_of_not_has hnone, or_iff_right (hnone m)]
    split_ifs
    · rw [toggle_test]
    · rfl

theorem test_released (mods : UInt32) (k : Key) (m : Modifier) :
    released mods k &&& m.flag ≠ 0 ↔ ¬ m.Has k ∧ mods &&& m.flag ≠ 0 := by
  by_cases hk : ∃ n : Modifier, n.Has k
  · obtain ⟨n, hn⟩ := hk
    have hone : n = m ↔ m.Has k := ⟨fun h => h ▸ hn, hn.unique⟩
    rw [released_of_has hn, release_test, Ne, hone]
  · have hnone : ∀ n : Modifier, ¬ n.Has k := fun n hn => hk ⟨n, hn⟩
    rw [released_of_not_has hnone, and_iff_right (hnone m)]

theorem caps_pressed (mods : UInt32) (k : Key) :
    pressed mods k &&& modCaps ≠ 0 ↔ if k = capsLock then ¬ mods &&& modCaps ≠ 0 else mods &&& modCaps ≠ 0 := by
  by_cases hk : ∃ n : Modifier, n.Has k
  · obtain ⟨n, hn⟩ := hk
    rw [pressed_of_has hn, press_caps, if_neg fun hc : k = capsLock => not_has_capsLock n (hc ▸ hn)]
  · rw [pressed_of_not_has fun n hn => hk ⟨n, hn⟩]
    split_ifs
    · exact toggle_caps mods
    · rfl

theorem caps_released (mods : UInt32) (k : Key) : released mods k &&& modCaps = mods &&& modCaps := by
  by_cases hk : ∃ n : Modifier, n.Has k
  · obtain ⟨n, hn⟩ := hk
    rw [released_of_has hn, release_caps]
  · rw [released_of_not_has fun n hn => hk ⟨n, hn⟩]

theorem down_press (keys : Keys) (k : Key) (m : Modifier) :
    (keys.after (.press k)).down m.left ∨ (keys.after (.press k)).down m.right ↔
      m.Has k ∨ keys.down m.left ∨ keys.down m.right := by
  simp only [Keys.after, Function.update_apply, Modifier.Has, eq_comm (a := k)]
  split_ifs <;> simp_all

theorem down_release (keys : Keys) (k : Key) (m : Modifier) :
    (keys.after (.release k)).down m.left ∨ (keys.after (.release k)).down m.right ↔
      (k ≠ m.left ∧ keys.down m.left) ∨ (k ≠ m.right ∧ keys.down m.right) := by
  simp only [Keys.after, Function.update_apply, ne_eq, eq_comm (a := k)]
  split_ifs <;> simp_all

theorem follows_press {mods : UInt32} (h : Follows mods keys) (k : Key) :
    Follows (pressed mods k) (keys.after (.press k)) := by
  intro m
  rw [test_pressed, h m, down_press]

theorem left_ne_right (m : Modifier) : m.left ≠ m.right := by
  cases m <;> decide

theorem follows_release_iff {mods : UInt32} (h : Follows mods keys) (k : Key) :
    Follows (released mods k) (keys.after (.release k)) ↔ ¬ keys.Hides (.release k) := by
  constructor
  · rintro hafter ⟨m, ⟨rfl, hdown⟩ | ⟨rfl, hdown⟩⟩
    · have hflag := (hafter m).mpr ((down_release keys m.left m).mpr (.inr ⟨left_ne_right m, hdown⟩))
      exact ((test_released mods m.left m).mp hflag).1 (.inl rfl)
    · have hflag := (hafter m).mpr ((down_release keys m.right m).mpr (.inl ⟨(left_ne_right m).symm, hdown⟩))
      exact ((test_released mods m.right m).mp hflag).1 (.inr rfl)
  · intro hshown m
    rw [test_released, h m, down_release]
    constructor
    · rintro ⟨hno, hdown | hdown⟩
      · exact .inl ⟨fun hk => hno (.inl hk), hdown⟩
      · exact .inr ⟨fun hk => hno (.inr hk), hdown⟩
    · rintro (⟨hk, hdown⟩ | ⟨hk, hdown⟩)
      · refine ⟨?_, .inl hdown⟩
        rintro (hl | hr)
        · exact hk hl
        · exact hshown ⟨m, .inr ⟨hr, hdown⟩⟩
      · refine ⟨?_, .inr hdown⟩
        rintro (hl | hr)
        · exact hshown ⟨m, .inl ⟨hl, hdown⟩⟩
        · exact hk hr

theorem follows_pause_iff {mods : UInt32} (h : Follows mods keys) :
    Follows (mods &&& ~~~ modCtrl) keys ↔ ¬ keys.Hides .pause := by
  constructor
  · intro hafter hdown
    exact ((release_test mods .ctrl .ctrl).mp ((hafter .ctrl).mpr hdown)).1 rfl
  · intro hup m
    refine (release_test mods .ctrl m).trans ?_
    rw [h m]
    refine and_iff_right_of_imp ?_
    rintro hdown rfl
    exact hup hdown

def modsAfter (mods : UInt32) : Code → UInt32
  | .press k => pressed mods k
  | .release k => released mods k
  | .pause => mods &&& ~~~ modCtrl

theorem follows_after_iff {mods : UInt32} (h : Follows mods keys) (c : Code) :
    Follows (modsAfter mods c) (keys.after c) ↔ ¬ keys.Hides c := by
  cases c with
  | press k => exact iff_of_true (follows_press h k) id
  | release k => exact follows_release_iff h k
  | pause => exact follows_pause_iff h

theorem capsMakes_after {mods : UInt32} (h : mods &&& modCaps ≠ 0 ↔ Odd keys.capsMakes) (c : Code) :
    modsAfter mods c &&& modCaps ≠ 0 ↔ Odd (keys.after c).capsMakes := by
  cases c with
  | press k =>
    refine (caps_pressed mods k).trans ?_
    dsimp only [Keys.after]
    split_ifs
    · rw [h, Nat.odd_add_one]
    · exact h
  | release k =>
    dsimp only [modsAfter]
    rw [caps_released]
    exact h
  | pause =>
    refine Iff.trans (not_congr ?_) h
    exact Eq.congr_left (release_caps mods .ctrl)

theorem capsPresses_after_iff {mods : UInt32} (h : mods &&& modCaps ≠ 0 ↔ Odd keys.capsPresses) (c : Code) :
    (modsAfter mods c &&& modCaps ≠ 0 ↔ Odd (keys.after c).capsPresses) ↔ ¬ keys.RepeatsCaps c := by
  cases c with
  | press k =>
    rw [modsAfter, caps_pressed, h]
    dsimp only [Keys.after, Keys.RepeatsCaps]
    by_cases hk : k = capsLock
    · subst hk
      by_cases hdown : keys.down capsLock
      · simp [hdown, -Nat.not_odd_iff_even]
      · simp [hdown, Nat.odd_add_one]
    · simp [hk]
  | release k =>
    refine iff_of_true ?_ fun hc => Code.noConfusion hc.1
    dsimp only [modsAfter]
    rw [caps_released]
    exact h
  | pause =>
    refine iff_of_true ?_ fun hc => Code.noConfusion hc.1
    refine Iff.trans (not_congr ?_) h
    exact Eq.congr_left (release_caps mods .ctrl)

end Steps

section Runs

theorem foldl_code {s : Ps2} (h : s.e0 = false) (c : Code) : c.bytes.foldl Ps2.next s = ⟨modsAfter s.mods c, false⟩ := by
  cases c with
  | press k => exact foldl_press h
  | release k => exact foldl_release h
  | pause => exact foldl_pause h

theorem driver_eq (codes : List Code) : driver codes = ⟨codes.foldl modsAfter 0, false⟩ := by
  unfold driver
  induction codes using List.reverseRecOn with
  | nil => rfl
  | append_singleton codes c ih =>
    rw [List.flatMap_append, List.flatMap_singleton, List.foldl_append, ih, foldl_code rfl, List.foldl_append]
    rfl

def watch (t : UInt32 × Keys) (c : Code) : UInt32 × Keys := (modsAfter t.1 c, t.2.after c)

def start : UInt32 × Keys := (0, ⟨fun _ => false, 0, 0⟩)

theorem watch_eq (codes : List Code) : codes.foldl watch start = ((driver codes).mods, keysAfter codes) := by
  rw [driver_eq]
  unfold keysAfter
  induction codes using List.reverseRecOn with
  | nil => rfl
  | append_singleton codes c ih =>
    rw [List.foldl_append, List.foldl_append, List.foldl_append, ih]
    rfl

theorem tracks_iff (codes : List Code) (presses : ℕ) :
    Tracks (driver codes) (keysAfter codes) presses ↔
      Follows (driver codes).mods (keysAfter codes) ∧ ((driver codes).mods &&& modCaps ≠ 0 ↔ Odd presses) :=
  ⟨fun h => ⟨h.modifiers, h.caps⟩, fun h => ⟨h.1, h.2, by rw [driver_eq]⟩⟩

/-- The flags are right after every code if and only if no code clears a flag with one of its keys still down. Where a
press of Caps Lock is the key going down, and not each of its make codes, Caps Lock may not repeat either. -/
theorem modifiers_tracked_iff (codes : List Code) :
    ((∀ p, p <+: codes → Tracks (driver p) (keysAfter p) (keysAfter p).capsMakes) ↔
      ∀ p c, p ++ [c] <+: codes → ¬ (keysAfter p).Hides c) ∧
    ((∀ p, p <+: codes → Tracks (driver p) (keysAfter p) (keysAfter p).capsPresses) ↔
      ∀ p c, p ++ [c] <+: codes → ¬ (keysAfter p).Hides c ∧ ¬ (keysAfter p).RepeatsCaps c) := by
  have hstart : Follows start.1 start.2 := by
    intro m
    simp [start]
  have hcaps : start.1 &&& modCaps ≠ 0 ↔ Odd 0 := by simp [start]
  have hmakes := forall_state_iff_forall_step watch
    (fun t => Follows t.1 t.2 ∧ (t.1 &&& modCaps ≠ 0 ↔ Odd t.2.capsMakes)) (fun t c => ¬ t.2.Hides c)
    (show _ ∧ _ from ⟨hstart, hcaps⟩)
    (fun t c ht => (and_iff_left (capsMakes_after ht.2 c)).trans (follows_after_iff ht.1 c)) codes
  have hpresses := forall_state_iff_forall_step watch
    (fun t => Follows t.1 t.2 ∧ (t.1 &&& modCaps ≠ 0 ↔ Odd t.2.capsPresses))
    (fun t c => ¬ t.2.Hides c ∧ ¬ t.2.RepeatsCaps c) (show _ ∧ _ from ⟨hstart, hcaps⟩)
    (fun t c ht => and_congr (follows_after_iff ht.1 c) (capsPresses_after_iff ht.2 c)) codes
  simp only [watch_eq, ← tracks_iff] at hmakes hpresses
  exact ⟨hmakes, hpresses⟩

def twoShifts : List Code := [.press Modifier.shift.left, .press Modifier.shift.right, .release Modifier.shift.left]

theorem twoShifts_lost :
    (keysAfter twoShifts).down Modifier.shift.right = true ∧ (driver twoShifts).mods &&& modShift = 0 ∧
      ∀ presses, ¬ Tracks (driver twoShifts) (keysAfter twoShifts) presses := by
  have hdown : (keysAfter twoShifts).down Modifier.shift.right = true := by decide
  have hclear : (driver twoShifts).mods &&& modShift = 0 := by decide
  refine ⟨hdown, hclear, ?_⟩
  intro presses h
  exact (h.modifiers .shift).mpr (.inr hdown) hclear

end Runs

section Events

theorem tryReadEventInternal_fst (s : Ps2) (sc : UInt8) (ev : KeyEvent) :
    (s.tryReadEventInternal (some sc) ev).1 = s.next sc := by
  unfold Ps2.next Ps2.tryReadEventInternal
  simp only [apply_ite Prod.fst]

variable {s s' : Ps2} {data serial : Option UInt8} {ev ev' : KeyEvent}

theorem charOf_printable (shift caps : Bool) {code : UInt8} (hcode : code < 0x80)
    (hkey : code ≠ 0x01 ∧ code ≠ 0x0E ∧ code ≠ 0x0F ∧ code ≠ 0x1C) :
    charOf shift caps code = 0 ∨ 32 ≤ charOf shift caps code ∧ charOf shift caps code < 127 := by
  have hall : ∀ n < 256, UInt8.ofNat n < 0x80 ∧ UInt8.ofNat n ≠ 0x01 ∧ UInt8.ofNat n ≠ 0x0E ∧ UInt8.ofNat n ≠ 0x0F ∧
      UInt8.ofNat n ≠ 0x1C → ∀ shift caps : Bool, charOf shift caps (UInt8.ofNat n) = 0 ∨
        32 ≤ charOf shift caps (UInt8.ofNat n) ∧ charOf shift caps (UInt8.ofNat n) < 127 := by decide +kernel
  have hc := hall code.toNat code.toNat_lt
  rw [UInt8.ofNat_toNat] at hc
  exact hc ⟨hcode, hkey⟩ shift caps

theorem glyph_printable : ∀ c : UInt8, 32 ≤ c ∧ c < 127 →
    32 ≤ c.toUInt16.toUInt8.toInt8 ∧ c.toUInt16.toUInt8.toInt8 < 127 := by
  have hall : ∀ n < 256, 32 ≤ UInt8.ofNat n ∧ UInt8.ofNat n < 127 →
      32 ≤ (UInt8.ofNat n).toUInt16.toUInt8.toInt8 ∧ (UInt8.ofNat n).toUInt16.toUInt8.toInt8 < 127 := by decide +kernel
  intro c
  have hc := hall c.toNat c.toNat_lt
  rwa [UInt8.ofNat_toNat] at hc

theorem extendedKey_ne_char (code : UInt8) : extendedKey code ≠ some .char := by
  unfold extendedKey
  split <;> decide

theorem regularKey_event {mods : UInt32} {code : UInt8} (hcode : code < 0x80) (h : regularKey mods code ev = some ev') :
    ev'.mods = mods ∧ (ev'.type = .char → 32 ≤ ev'.glyph ∧ ev'.glyph < 127) := by
  unfold regularKey at h
  dsimp only at h
  split_ifs at h with hesc hback htab henter hch
  iterate 4
    · cases h
      exact ⟨rfl, nofun⟩
  · cases h
    refine ⟨rfl, fun _ => ?_⟩
    exact glyph_printable _ ((charOf_printable _ _ hcode ⟨hesc, hback, htab, henter⟩).resolve_left hch)

theorem keyboard_event (h : s.tryReadEventInternal data ev = (s', some ev')) :
    ev'.mods = s'.mods ∧ (ev'.type = .char → 32 ≤ ev'.glyph ∧ ev'.glyph < 127) := by
  cases data with
  | none => cases h
  | some sc =>
    have hcode : sc &&& 0x7F < 0x80 := lt_of_le_of_lt (b := 0x7F) UInt8.and_le_right (by decide)
    unfold Ps2.tryReadEventInternal at h
    dsimp only [Ps2.setFlag] at h
    -- the two prefixes, the four modifiers and the break codes give no event
    iterate 7
      split at h
      · cases h
    split at h
    · obtain ⟨type, htype, rfl⟩ := Option.map_eq_some_iff.mp (Prod.mk.inj h).2
      rw [← (Prod.mk.inj h).1]
      refine ⟨rfl, ?_⟩
      rintro rfl
      exact absurd htype (extendedKey_ne_char _)
    · rw [← (Prod.mk.inj h).1]
      exact regularKey_event hcode (Prod.mk.inj h).2

theorem inputTryReadEvent_printable (h : inputTryReadEvent s data serial ev = (s', ev', true)) (ht : ev'.type = .char) :
    32 ≤ ev'.glyph ∧ ev'.glyph < 127 := by
  unfold inputTryReadEvent at h
  split at h
  case h_1 hev =>
    cases h
    exact (keyboard_event hev).2 ht
  case h_2 hev =>
    cases serial with
    | none => cases h
    | some c =>
      dsimp only at h
      split_ifs at h with _ _ _ _ hc
      iterate 4
        · cases h
          cases ht
      · cases h
        exact glyph_printable c hc
      · cases h

end Events

end DexOs.Keyboard
