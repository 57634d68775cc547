import DexOs.Console

/-! `console_write_dec`: what it sends to the console and to the serial line. -/

namespace DexOs.Console

/-- A character on its way out: a call of `vga_putc` for the active console, or of `serial_putc`. -/
inductive Sent
  | vga (ch : Int8)
  | serial (ch : Int8)
  deriving DecidableEq

def Sent.run (c : Console) : Sent → Console
  | vga ch => c.vgaPutc ch
  | serial ch => c.serialPutc ch

def putcSends (ch : Int8) : List Sent := [.vga ch, .serial ch]

theorem putcSends_run (c : Console) (ch : Int8) : (putcSends ch).foldl Sent.run c = c.consolePutc ch := rfl

/-- `while (v > 0 && i < sizeof(buf)) { buf[i++] = '0' + (v % 10); v /= 10; }`, with what is left of `buf`. -/
def decLoop : ℕ → ℕ → List Int8 → List Int8
  | 0, _, buf => buf
  | room + 1, v, buf => if 0 < v then decLoop room (v / 10) (buf ++ [Int8.ofNat (48 + v % 10)]) else buf

def decSends (v : ℕ) : List Sent :=
  if v = 0 then putcSends 48 ++ [.serial 48] else (decLoop 32 v []).reverse.flatMap putcSends

def consoleWriteDec (c : Console) (v : ℕ) : Console := (decSends v).foldl Sent.run c

def toConsole (sends : List Sent) : List Int8 := sends.filterMap fun
  | .vga ch => some ch
  | .serial _ => none

def toSerial (sends : List Sent) : List Int8 := sends.filterMap fun
  | .vga _ => none
  | .serial ch => some ch

def decimal (v : ℕ) : List Int8 := (Nat.toDigits 10 v).map fun d => Int8.ofNat d.toNat

theorem toConsole_append (a b : List Sent) : toConsole (a ++ b) = toConsole a ++ toConsole b := List.filterMap_append

theorem toSerial_append (a b : List Sent) : toSerial (a ++ b) = toSerial a ++ toSerial b := List.filterMap_append

theorem toConsole_putc (s : List Int8) : toConsole (s.flatMap putcSends) = s := by
  induction s with
  | nil => rfl
  | cons ch s ih =>
    rw [List.flatMap_cons, toConsole_append, ih]
    rfl

theorem toSerial_putc (s : List Int8) : toSerial (s.flatMap putcSends) = s := by
  induction s with
  | nil => rfl
  | cons ch s ih =>
    rw [List.flatMap_cons, toSerial_append, ih]
    rfl

section Digits

theorem digit_char {d : ℕ} (h : d < 10) : Int8.ofNat d.digitChar.toNat = Int8.ofNat (48 + d) := by
  have hall : ∀ d : Fin 10, Int8.ofNat d.val.digitChar.toNat = Int8.ofNat (48 + d.val) := by decide
  exact hall ⟨d, h⟩

theorem decimal_digit {v : ℕ} (h : v < 10) : decimal v = [Int8.ofNat (48 + v)] := by
  rw [decimal, Nat.toDigits_of_lt_base h, List.map_singleton, digit_char h]

theorem decimal_step {v : ℕ} (h : 10 ≤ v) : decimal v = decimal (v / 10) ++ [Int8.ofNat (48 + v % 10)] := by
  rw [decimal, Nat.toDigits_of_base_le (by decide) h, List.map_append, List.map_singleton,
    digit_char (Nat.mod_lt v (by decide)), decimal]

theorem decLoop_zero (room : ℕ) (buf : List Int8) : decLoop room 0 buf = buf := by
  cases room with
  | zero => rfl
  | succ room => rw [decLoop, if_neg (Nat.lt_irrefl 0)]

theorem decLoop_eq {room v : ℕ} (hpos : 0 < v) (hlt : v < 10 ^ room) (buf : List Int8) :
    decLoop room v buf = buf ++ (decimal v).reverse := by
  induction room generalizing v buf with
  | zero =>
    rw [pow_zero] at hlt
    omega
  | succ room ih =>
    rw [decLoop, if_pos hpos]
    by_cases hsmall : v < 10
    · rw [Nat.div_eq_of_lt hsmall, Nat.mod_eq_of_lt hsmall, decLoop_zero, decimal_digit hsmall]
      rfl
    · have hrest : v / 10 < 10 ^ room := by
        rw [pow_succ] at hlt
        omega
      rw [ih (by omega) hrest, decimal_step (show 10 ≤ v by omega), List.reverse_append, List.append_assoc]
      rfl

theorem length_decimal_le {k v : ℕ} (hk : 0 < k) (h : v < 10 ^ k) : (decimal v).length ≤ k := by
  rw [decimal, List.length_map]
  exact (Nat.length_toDigits_le_iff (by decide) hk).mpr h

end Digits

theorem decSends_of_pos {v : ℕ} (hpos : 0 < v) (hlt : v < 2 ^ 64) : decSends v = (decimal v).flatMap putcSends := by
  have hroom : v < 10 ^ 32 := hlt.trans (by decide)
  rw [decSends, if_neg hpos.ne', decLoop_eq hpos hroom, List.nil_append, List.reverse_reverse]

theorem toConsole_dec {v : ℕ} (hlt : v < 2 ^ 64) : toConsole (decSends v) = decimal v := by
  rcases Nat.eq_zero_or_pos v with rfl | hpos
  · rfl
  · rw [decSends_of_pos hpos hlt, toConsole_putc]

/-- The console and the serial line get the decimal representation, except that 0 is sent to the serial line twice. -/
theorem writeDec_mirrored_iff {v : ℕ} (hlt : v < 2 ^ 64) :
    (toConsole (decSends v) = decimal v ∧ toSerial (decSends v) = toConsole (decSends v)) ↔ v ≠ 0 := by
  rw [toConsole_dec hlt]
  constructor
  · rintro ⟨-, hserial⟩ rfl
    exact absurd hserial (by decide)
  · intro hne
    rw [decSends_of_pos (Nat.pos_of_ne_zero hne) hlt, toSerial_putc]
    exact ⟨rfl, rfl⟩

theorem writeDec_mirrored_iff_twelve : toSerial (decSends 12) = toConsole (decSends 12) :=
  ((writeDec_mirrored_iff (by decide : 12 < 2 ^ 64)).mpr (by decide)).2

theorem zero_doubled_on_serial : toConsole (decSends 0) = [48] ∧ toSerial (decSends 0) = [48, 48] ∧ decimal 0 = [48] :=
  ⟨rfl, rfl, by decide⟩

end DexOs.Console
