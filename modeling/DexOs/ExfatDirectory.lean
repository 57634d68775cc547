import DexOs.Exfat

/-! The root directory as a list of entries. -/

namespace DexOs.Exfat

open DexOs.Lib

variable {dir dir' : List UInt8} {slots : ℕ}

def slotCount (dir : List UInt8) : ℕ := dir.length / 32

structure IsEnd (dir : List UInt8) (slots e : ℕ) : Prop where
  le : e ≤ slots
  used : ∀ i < e, slotType dir i ≠ 0
  last : e = slots ∨ slotType dir e = 0

theorem IsEnd.unique {e e' : ℕ} (h : IsEnd dir slots e) (h' : IsEnd dir slots e') : e = e' := by
  have key : ∀ {a b : ℕ}, IsEnd dir slots a → IsEnd dir slots b → ¬ a < b := by
    intro a b ha hb hlt
    rcases ha.last with hl | hl
    · have := hb.le
      omega
    · exact hb.used a hlt hl
  have h1 := key h h'
  have h2 := key h' h
  omega

theorem findEnd_isEnd {n k : ℕ} (hn : slots ≤ k + n) (hk : k ≤ slots) (hu : ∀ i < k, slotType dir i ≠ 0) :
    IsEnd dir slots (findEnd dir slots n k) := by
  induction n generalizing k with
  | zero => exact ⟨hk, hu, .inl (by rw [findEnd]; omega)⟩
  | succ n ih =>
    rw [findEnd]
    split_ifs with h
    · exact ⟨hk, hu, h.imp_left fun h => by omega⟩
    · obtain ⟨h1, h2⟩ := not_or.mp h
      refine ih (by omega) (by omega) fun i hi => ?_
      rcases Nat.lt_succ_iff_lt_or_eq.mp hi with hi | rfl
      · exact hu i hi
      · exact h2

def endSlot (dir : List UInt8) : ℕ := findEnd dir (dir.length / 32) (dir.length / 32) 0

theorem endSlot_isEnd (dir : List UInt8) : IsEnd dir (slotCount dir) (endSlot dir) :=
  findEnd_isEnd (by simp [slotCount]) (Nat.zero_le _) (by simp)

theorem not_primary_of_stream {k : ℕ} (h : slotType dir k = 0xC0) : isPrimary dir k = false := by
  rw [isPrimary, h]
  decide

theorem not_primary_of_name {k : ℕ} (h : slotType dir k = 0xC1) : isPrimary dir k = false := by
  rw [isPrimary, h]
  decide

theorem primary_type {k : ℕ} (h : isPrimary dir k = true) : slotType dir k ≠ 0xC0 ∧ slotType dir k ≠ 0xC1 := by
  constructor
  · intro he
    simp [not_primary_of_stream he] at h
  · intro he
    simp [not_primary_of_name he] at h

theorem nameSlots_snd (dir : List UInt8) (take : ℕ → List ℕ → List UInt8 → List UInt8) (n j : ℕ) (name : List UInt8) :
    j ≤ (nameSlots dir take n j name).2 ∧ (nameSlots dir take n j name).2 ≤ j + n ∧
      (∀ i, j ≤ i → i < (nameSlots dir take n j name).2 → slotType dir i = 0xC1) ∧
      ((nameSlots dir take n j name).2 = j + n ∨ slotType dir (nameSlots dir take n j name).2 ≠ 0xC1) := by
  induction n generalizing j name with
  | zero => exact ⟨le_refl _, le_refl _, fun i h1 h2 => by simp only [nameSlots] at h2; omega, .inl rfl⟩
  | succ n ih =>
    rw [nameSlots]
    split_ifs with ht
    · obtain ⟨h1, h2, h3, h4⟩ := ih (j + 1) (take j (List.range 15) name)
      refine ⟨by omega, by omega, fun i hi hi' => ?_, h4.imp_left fun h => by omega⟩
      rcases Nat.eq_or_lt_of_le hi with rfl | hi
      · exact ht
      · exact h3 i hi hi'
    · exact ⟨le_refl _, by dsimp only; omega, fun i h1 h2 => by dsimp only at h2; omega, .inr ht⟩

theorem scanEntry_snd (dir : List UInt8) {k : ℕ} (hk : k < slots) :
    k < (scanEntry dir slots k).2 ∧ (scanEntry dir slots k).2 ≤ slots ∧
      ∀ i, k < i → i < (scanEntry dir slots k).2 → slotType dir i = 0xC0 ∨ slotType dir i = 0xC1 := by
  unfold scanEntry
  dsimp only
  split_ifs with hs
  · simp only [hasStream, Bool.decide_and, Bool.and_eq_true, decide_eq_true_eq] at hs
    obtain ⟨h1, h2, h3, -⟩ := nameSlots_snd dir (scanNameSlot dir) (slots - (k + 2)) (k + 2) []
    refine ⟨by dsimp only; omega, by dsimp only; omega, fun i hi hi' => ?_⟩
    rcases Nat.eq_or_lt_of_le (Nat.succ_le_of_lt hi) with rfl | hi
    · exact .inl hs.2
    · exact .inr (h3 i hi hi')
  · obtain ⟨h1, h2, h3, -⟩ := nameSlots_snd dir (scanNameSlot dir) (slots - (k + 1)) (k + 1) []
    refine ⟨by dsimp only; omega, by dsimp only; omega, fun i hi hi' => .inr (h3 i hi hi')⟩

def primaries (dir : List UInt8) (e : ℕ) : List ℕ := (List.range e).filter (isPrimary dir)

theorem filter_range'_eq_nil {p : ℕ → Bool} {a n : ℕ} (h : ∀ i, a ≤ i → i < a + n → p i = false) :
    (List.range' a n).filter p = [] := by
  rw [List.filter_eq_nil_iff]
  intro i hi
  rw [List.mem_range'_1] at hi
  simp [h i hi.1 hi.2]

theorem range'_of_lt {k e : ℕ} (h : k < e) : List.range' k (e - k) = k :: List.range' (k + 1) (e - (k + 1)) := by
  rw [show e - k = e - (k + 1) + 1 by omega, List.range'_succ]

theorem scanSlots_eq {e : ℕ} (he : IsEnd dir slots e) {n k : ℕ} (hn : slots ≤ k + n) (hk : k ≤ e) :
    scanSlots dir slots n k = ((List.range' k (e - k)).filter (isPrimary dir)).map
      fun k => (scanEntry dir slots k).1 := by
  have hle := he.le
  induction n generalizing k with
  | zero =>
    have h0 : e - k = 0 := by omega
    rw [h0]
    rfl
  | succ n ih =>
    rw [scanSlots]
    by_cases hke : k = e
    · subst hke
      have hstop : slots ≤ k ∨ slotType dir k = 0 := he.last.imp_left fun h => by omega
      rw [if_pos hstop, Nat.sub_self]
      rfl
    · have hlt : k < e := by omega
      have hne := he.used k hlt
      rw [if_neg (by rintro (h | h); omega; exact hne h)]
      have hsplit := range'_of_lt hlt
      split_ifs with hp
      · obtain ⟨h1, h2, h3⟩ := scanEntry_snd dir (show k < slots by omega)
        -- the slots of the entry set are in use, so they lie before the end
        have hje : (scanEntry dir slots k).2 ≤ e := by
          by_contra hgt
          rcases he.last with hl | hl
          · omega
          · rcases h3 e hlt (by omega) with h | h <;> simp [hl] at h
        generalize hj : (scanEntry dir slots k).2 = j at h1 h2 h3 hje
        have hskip : (List.range' (k + 1) (e - (k + 1))).filter (isPrimary dir) =
            (List.range' j (e - j)).filter (isPrimary dir) := by
          have hrange : List.range' (k + 1) (e - (k + 1)) =
              List.range' (k + 1) (j - (k + 1)) ++ List.range' j (e - j) := by
            rw [show e - (k + 1) = (j - (k + 1)) + (e - j) by omega, ← List.range'_append_1,
              show k + 1 + (j - (k + 1)) = j by omega]
          rw [hrange, List.filter_append, filter_range'_eq_nil, List.nil_append]
          intro i hi hi'
          rcases h3 i (by omega) (by omega) with h | h
          · exact not_primary_of_stream h
          · exact not_primary_of_name h
        dsimp only
        rw [hj, ih (by omega) hje, hsplit, List.filter_cons_of_pos hp, List.map_cons, hskip]
      · rw [ih (by omega) (by omega), hsplit, List.filter_cons_of_neg (by simpa using hp)]

theorem dirEntries_eq {e : ℕ} (he : IsEnd dir (slotCount dir) e) :
    dirEntries dir = (primaries dir e).map fun k => (scanEntry dir (slotCount dir) k).1 := by
  rw [dirEntries, primaries, List.range_eq_range']
  exact scanSlots_eq he (by simp [slotCount]) (Nat.zero_le _)

end DexOs.Exfat
