import Mathlib.Order.Nat
import Mathlib.Tactic.Common
import Mathlib.Algebra.Order.Ring.Nat

/-! Byte buffers, byte memories and little-endian numbers in them. -/

namespace DexOs.Lib

def leNat (f : ℕ → UInt8) : ℕ → ℕ → ℕ
  | 0, _ => 0
  | k + 1, off => (f off).toNat + 256 * leNat f k (off + 1)

def leBytes : ℕ → ℕ → List UInt8
  | 0, _ => []
  | k + 1, v => UInt8.ofNat v :: leBytes k (v / 256)

def byteAt (b : List UInt8) (i : ℕ) : UInt8 := b.getD i 0

def overlay (b : List UInt8) (off : ℕ) (bs : List UInt8) : List UInt8 :=
  (List.range b.length).map fun i =>
    if off ≤ i ∧ i < off + bs.length then byteAt bs (i - off) else byteAt b i

def peek (f : ℕ → UInt8) (base len : ℕ) : List UInt8 := (List.range len).map fun i => f (base + i)

def poke (f : ℕ → UInt8) (base : ℕ) (bs : List UInt8) : ℕ → UInt8 :=
  fun a => if base ≤ a ∧ a < base + bs.length then byteAt bs (a - base) else f a

theorem byteAt_of_lt {b : List UInt8} {i : ℕ} (h : i < b.length) : byteAt b i = b[i] := by
  simp [byteAt, h]

@[simp] theorem length_overlay (b : List UInt8) (off : ℕ) (bs : List UInt8) :
    (overlay b off bs).length = b.length := by simp [overlay]

@[simp] theorem length_peek (f : ℕ → UInt8) (base len : ℕ) : (peek f base len).length = len := by
  simp [peek]

theorem byteAt_overlay {b : List UInt8} {i : ℕ} (h : i < b.length) (off : ℕ) (bs : List UInt8) :
    byteAt (overlay b off bs) i =
      if off ≤ i ∧ i < off + bs.length then byteAt bs (i - off) else byteAt b i := by
  rw [byteAt_of_lt (by simpa using h)]
  simp [overlay]

theorem byteAt_peek (f : ℕ → UInt8) (base : ℕ) {len i : ℕ} (h : i < len) :
    byteAt (peek f base len) i = f (base + i) := by
  rw [byteAt_of_lt (by simpa using h)]
  simp [peek]

@[simp] theorem length_leBytes (k v : ℕ) : (leBytes k v).length = k := by
  induction k generalizing v with
  | zero => rfl
  | succ k ih => simp [leBytes, ih]

theorem leNat_congr {f g : ℕ → UInt8} {k a b : ℕ} (h : ∀ i < k, f (a + i) = g (b + i)) :
    leNat f k a = leNat g k b := by
  induction k generalizing a b with
  | zero => rfl
  | succ k ih =>
    have h0 : f a = g b := by simpa using h 0 (by omega)
    have ht : leNat f k (a + 1) = leNat g k (b + 1) :=
      ih (fun i hi => by simpa only [Nat.add_assoc, Nat.add_comm 1] using h (i + 1) (by omega))
    simp only [leNat, h0, ht]

theorem leNat_lt (f : ℕ → UInt8) (k off : ℕ) : leNat f k off < 256 ^ k := by
  induction k generalizing off with
  | zero => simp [leNat]
  | succ k ih =>
    have h0 := (f off).toNat_lt
    have ht := ih (off + 1)
    simp only [leNat, pow_succ]
    omega

theorem leNat_leBytes {f : ℕ → UInt8} {k off v : ℕ} (hv : v < 256 ^ k)
    (h : ∀ i < k, f (off + i) = byteAt (leBytes k v) i) : leNat f k off = v := by
  induction k generalizing off v with
  | zero => simp only [pow_zero] at hv; simp only [leNat]; omega
  | succ k ih =>
    have h0 : f off = UInt8.ofNat v := by simpa [leBytes, byteAt] using h 0 (by omega)
    have ht : leNat f k (off + 1) = v / 256 := by
      refine ih (by rw [pow_succ] at hv; omega) (fun i hi => ?_)
      have := h (i + 1) (by omega)
      rw [show off + 1 + i = off + (i + 1) by omega, this]
      simp [leBytes, byteAt]
    simp only [leNat, h0, ht, UInt8.toNat_ofNat']
    omega

theorem leNat_zeros {f : ℕ → UInt8} {k off : ℕ} (h : ∀ i < k, f (off + i) = 0) : leNat f k off = 0 := by
  induction k generalizing off with
  | zero => rfl
  | succ k ih =>
    have h0 : f off = 0 := h 0 (Nat.succ_pos k)
    have ht : leNat f k (off + 1) = 0 := by
      apply ih
      intro i hi
      rw [Nat.add_assoc, Nat.add_comm 1]
      exact h (i + 1) (Nat.succ_lt_succ hi)
    rw [leNat, h0, ht]
    rfl

theorem leNat_add (f : ℕ → UInt8) (j k off : ℕ) :
    leNat f (j + k) off = leNat f j off + 256 ^ j * leNat f k (off + j) := by
  induction j generalizing off with
  | zero => rw [Nat.zero_add, Nat.pow_zero, Nat.one_mul, leNat, Nat.zero_add, Nat.add_zero]
  | succ j ih =>
    have hoff : off + 1 + j = off + (j + 1) := by omega
    rw [Nat.succ_add, leNat, ih, leNat, hoff, pow_succ, Nat.mul_add, Nat.add_assoc, ← Nat.mul_assoc,
      Nat.mul_comm 256 (256 ^ j)]

theorem leNat_extract (f : ℕ → UInt8) {j k n : ℕ} (h : j + k ≤ n) (off : ℕ) :
    leNat f n off / 256 ^ j % 256 ^ k = leNat f k (off + j) := by
  obtain ⟨r, rfl⟩ := Nat.exists_eq_add_of_le h
  have hpos : 0 < 256 ^ j := Nat.pow_pos (by decide)
  rw [Nat.add_assoc, leNat_add, Nat.add_mul_div_left _ _ hpos, Nat.div_eq_of_lt (leNat_lt f j off), Nat.zero_add,
    leNat_add, Nat.add_mul_mod_self_left, Nat.mod_eq_of_lt (leNat_lt f k (off + j))]

theorem byteAt_leBytes_leNat (f : ℕ → UInt8) {k i : ℕ} (off : ℕ) (hi : i < k) :
    byteAt (leBytes k (leNat f k off)) i = f (off + i) := by
  induction k generalizing off i with
  | zero => omega
  | succ k ih =>
    have hlt := UInt8.toNat_lt (f off)
    rw [leNat, leBytes]
    cases i with
    | zero =>
      apply UInt8.toNat_inj.mp
      simp [byteAt]
    | succ i =>
      have hdiv : ((f off).toNat + 256 * leNat f k (off + 1)) / 256 = leNat f k (off + 1) := by omega
      have hrest := ih (off + 1) (Nat.lt_of_succ_lt_succ hi)
      rw [hdiv, show off + (i + 1) = off + 1 + i by omega]
      exact hrest

theorem byteAt_of_length_le {b : List UInt8} {i : ℕ} (h : b.length ≤ i) : byteAt b i = 0 := by
  simp [byteAt, h]

@[simp] theorem byteAt_replicate_zero (n i : ℕ) : byteAt (List.replicate n 0) i = 0 := by
  rcases Nat.lt_or_ge i n with h | h
  · rw [byteAt_of_lt (by simpa using h), List.getElem_replicate]
  · exact byteAt_of_length_le (by simpa using h)

theorem byteAt_append_left {b c : List UInt8} {i : ℕ} (h : i < b.length) : byteAt (b ++ c) i = byteAt b i := by
  simp [byteAt, List.getElem?_append_left h]

theorem byteAt_append_right (b c : List UInt8) (i : ℕ) : byteAt (b ++ c) (b.length + i) = byteAt c i := by
  simp [byteAt, List.getElem?_append_right (Nat.le_add_right _ _)]

section Blocks

variable {α : Type} {f : α → List UInt8} {l : List α} {len : ℕ}

theorem length_flatMap_blocks (hf : ∀ a ∈ l, (f a).length = len) : (l.flatMap f).length = len * l.length := by
  induction l with
  | nil => simp
  | cons a l ih =>
    rw [List.flatMap_cons, List.length_append, hf a List.mem_cons_self,
      ih fun x hx => hf x (List.mem_cons_of_mem _ hx), List.length_cons, Nat.mul_succ, Nat.add_comm]

theorem byteAt_flatMap (hf : ∀ a ∈ l, (f a).length = len) {i off : ℕ} {a : α} (hi : l[i]? = some a)
    (hoff : off < len) : byteAt (l.flatMap f) (len * i + off) = byteAt (f a) off := by
  induction l generalizing i with
  | nil => simp at hi
  | cons x l ih =>
    have hx := hf x List.mem_cons_self
    rw [List.flatMap_cons]
    cases i with
    | zero =>
      obtain rfl : x = a := by simpa using hi
      rw [Nat.mul_zero, Nat.zero_add, byteAt_append_left (by omega)]
    | succ i =>
      rw [show len * (i + 1) + off = (f x).length + (len * i + off) by rw [hx, Nat.mul_succ]; omega,
        byteAt_append_right]
      exact ih (fun y hy => hf y (List.mem_cons_of_mem _ hy)) (by simpa using hi)

end Blocks

theorem bytes_ext {b c : List UInt8} (hl : b.length = c.length) (h : ∀ i < b.length, byteAt b i = byteAt c i) :
    b = c := by
  refine List.ext_getElem hl fun i hb hc => ?_
  rw [← byteAt_of_lt hb, ← byteAt_of_lt hc]
  exact h i hb

theorem overlay_nil (b : List UInt8) (off : ℕ) : overlay b off [] = b := by
  refine bytes_ext (by simp) fun i hi => ?_
  rw [length_overlay] at hi
  rw [byteAt_overlay hi, if_neg (by simp only [List.length_nil]; omega)]

theorem overlay_overlay (b : List UInt8) (off : ℕ) (x y : List UInt8) :
    overlay (overlay b off x) (off + x.length) y = overlay b off (x ++ y) := by
  refine bytes_ext (by simp) fun i hi => ?_
  rw [length_overlay, length_overlay] at hi
  rw [byteAt_overlay (by simpa using hi), byteAt_overlay hi, byteAt_overlay hi, List.length_append]
  by_cases h1 : off + x.length ≤ i ∧ i < off + x.length + y.length
  · rw [if_pos h1, if_pos (by omega), show i - off = x.length + (i - (off + x.length)) by omega, byteAt_append_right]
  · rw [if_neg h1]
    by_cases h2 : off ≤ i ∧ i < off + x.length
    · rw [if_pos h2, if_pos (by omega), byteAt_append_left (by omega)]
    · rw [if_neg h2, if_neg (by omega)]

theorem poke_overlay_peek (f : ℕ → UInt8) (base len : ℕ) {off : ℕ} {bs : List UInt8}
    (h : off + bs.length ≤ len) :
    poke f base (overlay (peek f base len) off bs) = poke f (base + off) bs := by
  funext a
  simp only [poke, length_overlay, length_peek]
  by_cases ha : base ≤ a ∧ a < base + len
  · rw [if_pos ha, byteAt_overlay (by rw [length_peek]; omega), byteAt_peek f base (by omega)]
    have hiff : (off ≤ a - base ∧ a - base < off + bs.length) ↔
        (base + off ≤ a ∧ a < base + off + bs.length) := by omega
    simp only [hiff, show base + (a - base) = a by omega, Nat.sub_sub]
  · rw [if_neg ha, if_neg (by omega)]

theorem peek_poke_self (f : ℕ → UInt8) (base : ℕ) (bs : List UInt8) : peek (poke f base bs) base bs.length = bs := by
  refine bytes_ext (length_peek _ _ _) fun i hi => ?_
  rw [length_peek] at hi
  rw [byteAt_peek _ _ hi, poke, if_pos (by omega), Nat.add_sub_cancel_left]

theorem peek_poke_of_disjoint {f : ℕ → UInt8} {a b len : ℕ} {bs : List UInt8}
    (h : a + bs.length ≤ b ∨ b + len ≤ a) : peek (poke f a bs) b len = peek f b len := by
  refine bytes_ext (by simp) fun i hi => ?_
  rw [length_peek] at hi
  rw [byteAt_peek _ _ hi, byteAt_peek _ _ hi, poke, if_neg (by omega)]

theorem leNat_poke_of_disjoint {f : ℕ → UInt8} {a b k : ℕ} {bs : List UInt8}
    (h : a + bs.length ≤ b ∨ b + k ≤ a) : leNat (poke f a bs) k b = leNat f k b :=
  leNat_congr fun i hi => if_neg (by omega)

theorem leNat_poke_self {f : ℕ → UInt8} {a k v : ℕ} (hv : v < 256 ^ k) :
    leNat (poke f a (leBytes k v)) k a = v := by
  refine leNat_leBytes hv fun i hi => ?_
  rw [poke, if_pos (by rw [length_leBytes]; omega), Nat.add_sub_cancel_left]

theorem leNat_peek (f : ℕ → UInt8) (base : ℕ) {len k off : ℕ} (h : off + k ≤ len) :
    leNat (byteAt (peek f base len)) k off = leNat f k (base + off) :=
  leNat_congr fun i hi => by rw [byteAt_peek _ _ (by omega), Nat.add_assoc]

/-! A byte array that grows: bytes are written at an offset, and a gap before them is filled with zeros. -/

theorem byteAt_take (b : List UInt8) (n i : ℕ) : byteAt (b.take n) i = if i < n then byteAt b i else 0 := by
  simp only [byteAt, List.getD_eq_getElem?_getD, List.getElem?_take]
  split_ifs <;> rfl

theorem byteAt_append_zeros (b : List UInt8) (n i : ℕ) : byteAt (b ++ List.replicate n 0) i = byteAt b i := by
  rcases Nat.lt_or_ge i b.length with h | h
  · exact byteAt_append_left h
  · obtain ⟨k, rfl⟩ := Nat.exists_eq_add_of_le h
    rw [byteAt_append_right, byteAt_replicate_zero, byteAt_of_length_le h]

theorem byteAt_overlay_inside {b bs : List UInt8} {off : ℕ} (h : off + bs.length ≤ b.length) (i : ℕ) :
    byteAt (overlay b off bs) i = if off ≤ i ∧ i < off + bs.length then byteAt bs (i - off) else byteAt b i := by
  rcases Nat.lt_or_ge i b.length with hi | hi
  · exact byteAt_overlay hi off bs
  · rw [byteAt_of_length_le (by rw [length_overlay]; exact hi), if_neg (by omega), byteAt_of_length_le hi]

theorem drop_take_overlay {b bs : List UInt8} {off : ℕ} (h : off + bs.length ≤ b.length) :
    ((overlay b off bs).drop off).take bs.length = bs := by
  have hlen : (((overlay b off bs).drop off).take bs.length).length = bs.length := by
    rw [List.length_take, List.length_drop, length_overlay]
    omega
  apply bytes_ext hlen
  intro i hi
  rw [hlen] at hi
  have hdrop : byteAt ((overlay b off bs).drop off) i = byteAt (overlay b off bs) (off + i) := by
    simp only [byteAt, List.getD_eq_getElem?_getD, List.getElem?_drop]
  rw [byteAt_take, if_pos hi, hdrop, byteAt_overlay_inside h, if_pos (by omega), Nat.add_sub_cancel_left]

def writeAt (b : List UInt8) (off : ℕ) (bs : List UInt8) : List UInt8 :=
  if bs = [] then b else overlay (b ++ List.replicate (off + bs.length - b.length) 0) off bs

theorem length_writeAt {bs : List UInt8} (hbs : bs ≠ []) (b : List UInt8) (off : ℕ) :
    (writeAt b off bs).length = max b.length (off + bs.length) := by
  rw [writeAt, if_neg hbs, length_overlay, List.length_append, List.length_replicate]
  omega

theorem byteAt_writeAt {bs : List UInt8} (hbs : bs ≠ []) (b : List UInt8) (off i : ℕ) :
    byteAt (writeAt b off bs) i = if off ≤ i ∧ i < off + bs.length then byteAt bs (i - off) else byteAt b i := by
  have hfit : off + bs.length ≤ (b ++ List.replicate (off + bs.length - b.length) 0).length := by
    rw [List.length_append, List.length_replicate]
    omega
  rw [writeAt, if_neg hbs, byteAt_overlay_inside hfit, byteAt_append_zeros]

theorem take_overlay_eq_writeAt {b bs : List UInt8} {size off : ℕ} (hbs : bs ≠ []) (hsize : size ≤ b.length)
    (hzero : ∀ i, size ≤ i → byteAt b i = 0) (hfit : off + bs.length ≤ b.length) :
    (overlay b off bs).take (max size (off + bs.length)) = writeAt (b.take size) off bs := by
  have hlen : ((overlay b off bs).take (max size (off + bs.length))).length = max size (off + bs.length) := by
    rw [List.length_take, length_overlay]
    omega
  refine bytes_ext ?_ fun i hi => ?_
  · rw [hlen, length_writeAt hbs, List.length_take, Nat.min_eq_left hsize]
  · rw [hlen] at hi
    rw [byteAt_take, if_pos hi, byteAt_overlay_inside hfit, byteAt_writeAt hbs, byteAt_take]
    by_cases h : i < size
    · rw [if_pos h]
    · rw [if_neg h, hzero i (by omega)]

theorem peek_add (f : ℕ → UInt8) (a n k : ℕ) : peek f a (n + k) = peek f a n ++ peek f (a + n) k := by
  unfold peek
  rw [List.range_add, List.map_append, List.map_map]
  simp only [Function.comp_def, Nat.add_assoc]

theorem drop_take_peek (f : ℕ → UInt8) (a : ℕ) {len skip n : ℕ} (h : skip + n ≤ len) :
    ((peek f a len).drop skip).take n = peek f (a + skip) n := by
  obtain ⟨k, rfl⟩ := Nat.exists_eq_add_of_le h
  rw [peek_add, peek_add, List.append_assoc, List.drop_left' (length_peek _ _ _),
    List.take_left' (length_peek _ _ _)]

theorem poke_nil (f : ℕ → UInt8) (a : ℕ) : poke f a [] = f := by
  funext i
  rw [poke, if_neg]
  simp only [List.length_nil]
  omega

theorem poke_poke (f : ℕ → UInt8) (a : ℕ) (x y : List UInt8) :
    poke (poke f a x) (a + x.length) y = poke f a (x ++ y) := by
  funext i
  simp only [poke, List.length_append]
  by_cases hy : a + x.length ≤ i ∧ i < a + x.length + y.length
  · rw [if_pos hy, if_pos (by omega), show i - a = x.length + (i - (a + x.length)) by omega, byteAt_append_right]
  · rw [if_neg hy]
    by_cases hx : a ≤ i ∧ i < a + x.length
    · rw [if_pos hx, if_pos (by omega), byteAt_append_left (by omega)]
    · rw [if_neg hx, if_neg (by omega)]

theorem peek_poke (f : ℕ → UInt8) (a len off : ℕ) (bs : List UInt8) :
    peek (poke f (a + off) bs) a len = overlay (peek f a len) off bs := by
  apply bytes_ext (by simp)
  intro i hi
  rw [length_peek] at hi
  rw [byteAt_peek _ _ hi, byteAt_overlay (by rwa [length_peek]), byteAt_peek _ _ hi, poke]
  simp only [show (a + off ≤ a + i ∧ a + i < a + off + bs.length) ↔ (off ≤ i ∧ i < off + bs.length) by omega,
    show a + i - (a + off) = i - off by omega]

theorem overlay_zero {b bs : List UInt8} (h : bs.length ≤ b.length) : overlay b 0 bs = bs ++ b.drop bs.length := by
  apply bytes_ext
  · rw [length_overlay, List.length_append, List.length_drop]
    omega
  · intro i hi
    rw [length_overlay] at hi
    rw [byteAt_overlay hi, Nat.zero_add, Nat.sub_zero]
    by_cases hlt : i < bs.length
    · rw [if_pos ⟨Nat.zero_le _, hlt⟩, byteAt_append_left hlt]
    · obtain ⟨k, rfl⟩ := Nat.exists_eq_add_of_le (Nat.le_of_not_lt hlt)
      rw [if_neg (by omega), byteAt_append_right]
      simp [byteAt]

end DexOs.Lib
