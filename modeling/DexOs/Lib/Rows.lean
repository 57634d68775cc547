import Mathlib.Algebra.Order.Ring.Nat
import Mathlib.Data.List.DropRight
import Mathlib.Tactic.Common

/-! Counted loops over arrays that hold rows of cells, and rings of rows. -/

namespace DexOs.Lib

variable {α σ : Type}

def forRange (body : ℕ → σ → σ) : ℕ → σ → σ
  | 0, s => s
  | n + 1, s => body n (forRange body n s)

theorem forRange_induct {body : ℕ → σ → σ} {s : σ} {P : ℕ → σ → Prop} {n : ℕ} (h0 : P 0 s)
    (hstep : ∀ i t, i < n → P i t → P (i + 1) (body i t)) : P n (forRange body n s) := by
  induction n with
  | zero => exact h0
  | succ n ih =>
    apply hstep n _ (Nat.lt_succ_self n)
    apply ih
    intro i t hi
    exact hstep i t (by omega)

theorem forRange_off {body : ℕ → (ℕ → α) → ℕ → α} {n i : ℕ} (h : ∀ k < n, ∀ a, body k a i = a i) (a : ℕ → α) :
    forRange body n a i = a i := by
  induction n with
  | zero => rfl
  | succ n ih =>
    rw [forRange, h n (Nat.lt_succ_self n), ih fun k hk => h k (by omega)]

theorem forRange_rows {β : Type} (row : σ → ℕ → β) {body : ℕ → σ → σ} (base : ℕ) (new : ℕ → β)
    (hbody : ∀ k s r, row (body k s) r = if r = base + k then new k else row s r) (n : ℕ) (s : σ) (r : ℕ) :
    row (forRange body n s) r = if base ≤ r ∧ r < base + n then new (r - base) else row s r := by
  induction n with
  | zero => rw [if_neg (by omega), forRange]
  | succ n ih =>
    rw [forRange, hbody, ih]
    by_cases hr : r = base + n
    · rw [if_pos hr, if_pos (by omega), hr, Nat.add_sub_cancel_left]
    · rw [if_neg hr]
      congr 1
      simp only [eq_iff_iff]
      omega

section Cells

def slice (a : ℕ → α) (start n : ℕ) : List α := (List.range n).map fun k => a (start + k)

theorem length_slice (a : ℕ → α) (start n : ℕ) : (slice a start n).length = n := by simp [slice]

theorem slice_inj {a b : ℕ → α} {s t n : ℕ} :
    slice a s n = slice b t n ↔ ∀ k < n, a (s + k) = b (t + k) := by
  simp [slice, List.map_inj_left]

theorem slice_eq_replicate {a : ℕ → α} {s n : ℕ} {x : α} :
    slice a s n = List.replicate n x ↔ ∀ k < n, a (s + k) = x := by
  simp [List.eq_replicate_iff, slice]

theorem forRange_write {a : ℕ → α} {base n : ℕ} (v : ℕ → (ℕ → α) → α) (f : ℕ → α)
    (hv : ∀ k < n, ∀ b : ℕ → α, (∀ i, i < base ∨ base + k ≤ i → b i = a i) → v k b = f k) (i : ℕ) :
    forRange (fun k b => Function.update b (base + k) (v k b)) n a i =
      if base ≤ i ∧ i < base + n then f (i - base) else a i := by
  let P (k : ℕ) (b : ℕ → α) : Prop := ∀ i, b i = if base ≤ i ∧ i < base + k then f (i - base) else a i
  have h0 : P 0 a := fun i => by rw [if_neg (by omega)]
  have hstep : ∀ k b, k < n → P k b → P (k + 1) (Function.update b (base + k) (v k b)) := by
    intro k b hk hb i
    have hval : v k b = f k := hv k hk b fun j hj => by rw [hb j, if_neg (by omega)]
    rw [Function.update_apply, hval]
    by_cases hi : i = base + k
    · rw [if_pos hi, if_pos (by omega), hi, Nat.add_sub_cancel_left]
    · rw [if_neg hi, hb i]
      congr 1
      simp only [eq_iff_iff]
      omega
  exact forRange_induct h0 hstep i

def copyCells (src : ℕ → α) (start base n : ℕ) (a : ℕ → α) : ℕ → α :=
  forRange (fun k b => Function.update b (base + k) (src (start + k))) n a

def moveCells (start base n : ℕ) (a : ℕ → α) : ℕ → α :=
  forRange (fun k b => Function.update b (base + k) (b (start + k))) n a

def fillCells (x : α) (base n : ℕ) (a : ℕ → α) : ℕ → α :=
  forRange (fun k b => Function.update b (base + k) x) n a

theorem copyCells_apply (src : ℕ → α) (start base n : ℕ) (a : ℕ → α) (i : ℕ) :
    copyCells src start base n a i = if base ≤ i ∧ i < base + n then src (start + (i - base)) else a i :=
  forRange_write (fun k _ => src (start + k)) (fun k => src (start + k)) (fun _ _ _ _ => rfl) i

theorem fillCells_apply (x : α) (base n : ℕ) (a : ℕ → α) (i : ℕ) :
    fillCells x base n a i = if base ≤ i ∧ i < base + n then x else a i :=
  forRange_write (fun _ _ => x) (fun _ => x) (fun _ _ _ _ => rfl) i

theorem moveCells_apply {start base n : ℕ} (h : base ≤ start ∨ start + n ≤ base) (a : ℕ → α) (i : ℕ) :
    moveCells start base n a i = if base ≤ i ∧ i < base + n then a (start + (i - base)) else a i := by
  apply forRange_write (fun k b => b (start + k)) (fun k => a (start + k))
  intro k hk b hb
  apply hb
  rcases h with h | h
  · exact .inr (by omega)
  · exact .inl (by omega)

def moveCellsDown (start base : ℕ) : ℕ → (ℕ → α) → ℕ → α
  | 0, a => a
  | i + 1, a => moveCellsDown start base i (Function.update a (base + i) (a (start + i)))

theorem moveCellsDown_apply {start base : ℕ} (h : start ≤ base) (n : ℕ) (a : ℕ → α) (i : ℕ) :
    moveCellsDown start base n a i = if base ≤ i ∧ i < base + n then a (start + (i - base)) else a i := by
  induction n generalizing a with
  | zero => rw [moveCellsDown, if_neg (by omega)]
  | succ n ih =>
    rw [moveCellsDown, ih]
    by_cases hi : base ≤ i ∧ i < base + n
    · have hunread : start + (i - base) ≠ base + n := by omega
      rw [if_pos hi, if_pos (by omega), Function.update_of_ne hunread]
    · rw [if_neg hi, Function.update_apply]
      by_cases hlast : i = base + n
      · rw [if_pos hlast, if_pos (by omega), hlast, Nat.add_sub_cancel_left]
      · rw [if_neg hlast, if_neg (by omega)]

end Cells

section Rows

variable {p w : ℕ}

theorem cell_inj {r r' c c' : ℕ} (hc : c < p) (hc' : c' < p) :
    r * p + c = r' * p + c' ↔ r = r' ∧ c = c' := by
  constructor
  · intro h
    have hr : r = r' := by
      have h1 : (r * p + c) / p = r := by
        rw [Nat.mul_comm, Nat.mul_add_div (by omega), Nat.div_eq_of_lt hc, Nat.add_zero]
      have h2 : (r' * p + c') / p = r' := by
        rw [Nat.mul_comm, Nat.mul_add_div (by omega), Nat.div_eq_of_lt hc', Nat.add_zero]
      rw [← h1, h, h2]
    subst hr
    omega
  · rintro ⟨rfl, rfl⟩
    rfl

theorem row_disjoint {r r' c : ℕ} (hw : w ≤ p) (hc : c < w) (hr : r' ≠ r) :
    ¬ (r * p ≤ r' * p + c ∧ r' * p + c < r * p + w) := by
  rintro ⟨h1, h2⟩
  have he : r' * p + c = r * p + (r' * p + c - r * p) := by omega
  have := (cell_inj (by omega) (by omega)).mp he
  omega

theorem slice_copyCells {r r' : ℕ} (hw : w ≤ p) (src : ℕ → α) (start : ℕ) (a : ℕ → α) :
    slice (copyCells src start (r * p) w a) (r' * p) w =
      if r' = r then slice src start w else slice a (r' * p) w := by
  split
  case isTrue h =>
    subst h
    rw [slice_inj]
    intro k hk
    rw [copyCells_apply, if_pos (by omega), Nat.add_sub_cancel_left]
  case isFalse h =>
    rw [slice_inj]
    intro k hk
    rw [copyCells_apply, if_neg (row_disjoint hw hk h)]

theorem slice_fillCells {r r' : ℕ} (hw : w ≤ p) (x : α) (a : ℕ → α) :
    slice (fillCells x (r * p) w a) (r' * p) w =
      if r' = r then List.replicate w x else slice a (r' * p) w := by
  split
  case isTrue h =>
    subst h
    rw [slice_eq_replicate]
    intro k hk
    rw [fillCells_apply, if_pos (by omega)]
  case isFalse h =>
    rw [slice_inj]
    intro k hk
    rw [fillCells_apply, if_neg (row_disjoint hw hk h)]

theorem slice_moveCells {r r' : ℕ} (a : ℕ → α) :
    slice (moveCells ((r + 1) * w) (r * w) w a) (r' * w) w =
      if r' = r then slice a ((r + 1) * w) w else slice a (r' * w) w := by
  have hnext : r * w ≤ (r + 1) * w := Nat.mul_le_mul_right w (Nat.le_succ r)
  split
  case isTrue h =>
    subst h
    rw [slice_inj]
    intro k hk
    rw [moveCells_apply (.inl hnext), if_pos (by omega), Nat.add_sub_cancel_left]
  case isFalse h =>
    rw [slice_inj]
    intro k hk
    rw [moveCells_apply (.inl hnext), if_neg (row_disjoint (le_refl w) hk h)]

theorem slice_update {r r' c : ℕ} (hc : c < w) (x : α) (a : ℕ → α) :
    slice (Function.update a (r * w + c) x) (r' * w) w =
      if r' = r then (slice a (r' * w) w).set c x else slice a (r' * w) w := by
  split
  case isTrue h =>
    subst h
    apply List.ext_getElem (by simp [length_slice])
    intro k hk _
    rw [length_slice] at hk
    simp only [slice, List.getElem_map, List.getElem_range, List.getElem_set, Function.update_apply]
    by_cases hkc : c = k
    · rw [if_pos (by omega), if_pos hkc]
    · rw [if_neg (by omega), if_neg hkc]
  case isFalse h =>
    rw [slice_inj]
    intro k hk
    rw [Function.update_of_ne]
    intro he
    exact h ((cell_inj hk hc).mp he).1

end Rows

section Last

variable {β : Type}

theorem rtake_append (a b : List β) (k : ℕ) : (a ++ b).rtake (k + b.length) = a.rtake k ++ b := by
  rw [List.rtake, List.rtake, List.length_append, List.drop_append]
  have hb : a.length + b.length - (k + b.length) - a.length = 0 := by omega
  have ha : a.length + b.length - (k + b.length) = a.length - k := by omega
  rw [hb, ha, List.drop_zero]

theorem rtake_push (l : List β) (x : β) (k : ℕ) : (l.rtake k ++ [x]).rtake k = (l ++ [x]).rtake k := by
  cases k with
  | zero => simp
  | succ k =>
    rw [List.rtake_concat_succ, List.rtake_concat_succ]
    simp only [List.rtake, List.drop_drop, List.length_drop]
    congr 2
    omega

theorem rtake_set {l : List β} {i k : ℕ} (x : β) (h : l.length - k ≤ i) :
    (l.set i x).rtake k = (l.rtake k).set (i - (l.length - k)) x := by
  rw [List.rtake, List.length_set, List.drop_set, if_neg (by omega)]
  rfl

end Last

section Ring

variable {β : Type}

/-- The newest `count` entries of a ring of `cap` entries, oldest first; `head` is written next. -/
def ring (a : ℕ → β) (cap head count : ℕ) : List β :=
  (List.range count).map fun k => a ((head + cap - count + k) % cap)

theorem length_ring (a : ℕ → β) (cap head count : ℕ) : (ring a cap head count).length = count := by
  simp [ring]

theorem ring_next (a : ℕ → β) {cap head count : ℕ} (hc : count ≤ cap) :
    ring a cap ((head + 1) % cap) count =
      (List.range count).map fun k => a ((head + (cap + 1 - count + k)) % cap) := by
  apply List.map_congr_left
  intro k _
  have he : (head + 1) % cap + cap - count + k = (head + 1) % cap + (cap - count + k) := by omega
  rw [he, Nat.mod_add_mod]
  congr 2
  omega

theorem ring_index_ne {cap head d : ℕ} (hh : head < cap) (h0 : 0 < d) (hd : d < cap) :
    (head + d) % cap ≠ head := by
  by_cases h : head + d < cap
  · rw [Nat.mod_eq_of_lt h]
    omega
  · rw [Nat.mod_eq_sub_mod (by omega), Nat.mod_eq_of_lt (by omega)]
    omega

theorem ring_push {a b : ℕ → β} {cap head count : ℕ} {x : β} (hh : head < cap) (hc : count ≤ cap)
    (hx : b head = x) (hb : ∀ i, i < cap → i ≠ head → b i = a i) :
    ring b cap ((head + 1) % cap) (if count < cap then count + 1 else count) =
      (ring a cap head count ++ [x]).rtake cap := by
  have hlast : b ((head + cap) % cap) = x := by rw [Nat.add_mod_right, Nat.mod_eq_of_lt hh, hx]
  have hold {d : ℕ} (h0 : 0 < d) (hd : d < cap) : b ((head + d) % cap) = a ((head + d) % cap) :=
    hb _ (Nat.mod_lt _ (by omega)) (ring_index_ne hh h0 hd)
  by_cases hfull : count < cap
  · rw [if_pos hfull, ring_next b hfull, List.rtake, List.length_append, length_ring,
      List.length_singleton, Nat.sub_eq_zero_of_le hfull, List.drop_zero, List.range_succ, List.map_append,
      List.map_singleton, show cap + 1 - (count + 1) + count = cap by omega, hlast, ring]
    congr 1
    apply List.map_congr_left
    intro k hk
    rw [List.mem_range] at hk
    rw [hold (by omega) (by omega)]
    congr 2
    omega
  · obtain rfl : count = cap := by omega
    obtain ⟨n, rfl⟩ : ∃ n, count = n + 1 := ⟨count - 1, by omega⟩
    have hdrop : (ring a (n + 1) head (n + 1) ++ [x]).rtake (n + 1) =
        (List.range n).map (fun k => a ((head + (k + 1)) % (n + 1))) ++ [x] := by
      rw [List.rtake, List.length_append, length_ring, List.length_singleton, Nat.add_sub_cancel_left,
        List.drop_one, ring, List.range_succ_eq_map]
      simp [Function.comp_def]
    rw [if_neg hfull, ring_next b hc, hdrop, List.range_succ, List.map_append, List.map_singleton,
      show n + 1 + 1 - (n + 1) + n = n + 1 by omega, hlast]
    congr 1
    apply List.map_congr_left
    intro k hk
    rw [List.mem_range] at hk
    rw [show n + 1 + 1 - (n + 1) + k = k + 1 by omega, hold (by omega) (by omega)]

end Ring

end DexOs.Lib
