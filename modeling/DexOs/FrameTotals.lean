import DexOs.FrameSupply

/-! The free count and the total after `pmm_init`. -/

namespace DexOs.Frames

open DexOs.Lib DexOs.Mb2

variable {s : Pmm}

section Condition

def frameRange (e : MapEntry) : ℕ × ℕ :=
  (alignUp e.base 4096, min (alignDown ((e.length + e.base) % 2 ^ 64) 4096) (2 ^ 32))

def usableRanges (usable : ℕ) (es : List MapEntry) : List (ℕ × ℕ) :=
  (((es.filter fun e => e.type = usable).map frameRange).filter fun p => p.1 < p.2).take 64

/-- No frame is in two ranges of a detailed map; the memory above 1 MiB of a basic one ends with a frame, or
at 4 GiB. -/
def Countable : MemoryMap → Prop
  | .efi es => (usableRanges 7 es).Pairwise fun p q => p.2 ≤ q.1 ∨ q.2 ≤ p.1
  | .mmap es => (usableRanges 1 es).Pairwise fun p q => p.2 ≤ q.1 ∨ q.2 ≤ p.1
  | .basic upper => 4 ∣ upper ∨ 4193280 ≤ upper
  | .missing => True

instance (map : MemoryMap) : Decidable (Countable map) :=
  match map with
  | .efi _ => inferInstanceAs (Decidable (List.Pairwise _ _))
  | .mmap _ => inferInstanceAs (Decidable (List.Pairwise _ _))
  | .basic _ => inferInstanceAs (Decidable (_ ∨ _))
  | .missing => inferInstanceAs (Decidable True)

def toRegion (p : ℕ × ℕ) : Region := ⟨p.1, p.2 - p.1⟩

theorem addEntry_eq (usable : ℕ) (rs : List Region) (e : MapEntry) :
    addEntry usable rs e =
      if e.type = usable ∧ (frameRange e).1 < (frameRange e).2 ∧ rs.length < 64 then rs ++ [toRegion (frameRange e)]
      else rs := by
  have hdown : alignDown ((e.length + e.base) % 2 ^ 64) 4096 ≤ (e.length + e.base) % 2 ^ 64 := alignDown_le ..
  have hmod : (e.length + e.base) % 2 ^ 64 < 2 ^ 64 := Nat.mod_lt _ (by decide)
  have hcap : cap = 2 ^ 32 := rfl
  rw [addEntry, frameRange, toRegion, frameSize_eq]
  dsimp only
  generalize alignDown ((e.length + e.base) % 2 ^ 64) 4096 = last at hdown ⊢
  generalize alignUp e.base 4096 = first
  by_cases ht : e.type = usable
  case neg => rw [if_neg ht, if_neg (by tauto)]
  rw [if_pos ht, addRegion, maxRegions, hcap]
  by_cases hlt : first < last
  case neg =>
    rw [if_neg hlt, if_pos (.inl rfl), if_neg (by omega)]
  rw [if_pos hlt, show first + (last - first) = last by omega, Nat.mod_eq_of_lt (show last < 2 ^ 64 by omega)]
  by_cases hroom : rs.length < 64
  case neg => rw [if_pos (by omega), if_neg (by omega)]
  rw [if_neg (by omega)]
  by_cases hbelow : first < 2 ^ 32
  case neg => rw [if_pos (by omega), if_neg (by omega)]
  rw [if_neg (by omega)]
  dsimp only
  rw [if_neg (by omega), if_pos ⟨ht, by omega, hroom⟩]

theorem foldl_addEntry (usable : ℕ) (es : List MapEntry) (rs : List Region) (h : rs.length ≤ 64) :
    es.foldl (addEntry usable) rs =
      (rs ++ (((es.filter fun e => e.type = usable).map frameRange).filter fun p => p.1 < p.2).map toRegion).take 64 := by
  induction es generalizing rs with
  | nil => simp [List.take_of_length_le h]
  | cons e es ih =>
    rw [List.foldl_cons, addEntry_eq]
    by_cases ht : e.type = usable
    case neg => rw [if_neg (by tauto), ih rs h, List.filter_cons_of_neg (by simpa using ht)]
    rw [List.filter_cons_of_pos (by simpa using ht), List.map_cons]
    by_cases hlt : (frameRange e).1 < (frameRange e).2
    case neg => rw [if_neg (by tauto), ih rs h, List.filter_cons_of_neg (by simpa using hlt)]
    rw [List.filter_cons_of_pos (by simpa using hlt), List.map_cons]
    by_cases hroom : rs.length < 64
    · rw [if_pos ⟨ht, hlt, hroom⟩, ih _ (by rw [List.length_append, List.length_singleton]; omega),
        List.append_assoc, List.singleton_append]
    · rw [if_neg (by tauto), ih rs h, List.take_append_of_le_length (by omega), List.take_append_of_le_length (by omega)]

theorem foldl_addEntry_nil (usable : ℕ) (es : List MapEntry) :
    es.foldl (addEntry usable) [] = (usableRanges usable es).map toRegion := by
  rw [foldl_addEntry usable es [] (Nat.zero_le _), usableRanges, List.map_take, List.nil_append]

theorem pairwise_toRegion (usable : ℕ) (es : List MapEntry) :
    ((usableRanges usable es).map toRegion).Pairwise Region.Apart ↔
      (usableRanges usable es).Pairwise fun p q => p.2 ≤ q.1 ∨ q.2 ≤ p.1 := by
  have hpos (p : ℕ × ℕ) (hp : p ∈ usableRanges usable es) : p.1 < p.2 := by
    simpa using (List.mem_filter.mp (List.mem_of_mem_take hp)).2
  rw [List.pairwise_map]
  apply List.Pairwise.iff_of_mem
  intro p q hp hq
  have := hpos p hp
  have := hpos q hq
  simp only [Region.Apart, toRegion]
  omega

end Condition

section Totals

def pmmTotalBytes (s : Pmm) : ℕ := s.totalUsable

theorem reserveFrames_clear {n a : ℕ} {i : ℕ} (h : (reserveFrames n a s).bitmap.test i = false) :
    s.bitmap.test i = false := by
  induction n generalizing a s with
  | zero => exact h
  | succ n ih =>
    have hstep := ih h
    split at hstep
    case isTrue => exact hstep
    case isFalse =>
      dsimp only at hstep
      rw [Bitmap.test_set, Bool.or_eq_false_iff] at hstep
      exact hstep.1

theorem reserveFrames_totals (n a : ℕ) (s : Pmm) :
    (reserveFrames n a s).totalUsable = s.totalUsable ∧ (reserveFrames n a s).free % 4096 = s.free % 4096 := by
  induction n generalizing a s with
  | zero => exact ⟨rfl, rfl⟩
  | succ n ih =>
    rw [reserveFrames]
    split
    case isTrue => exact ih _ _
    case isFalse =>
      obtain ⟨h1, h2⟩ := ih (a + frameSize)
        { s with bitmap := s.bitmap.set (s.addrToIndex a), free := sub64 s.free frameSize }
      refine ⟨h1, h2.trans ?_⟩
      dsimp only
      rw [frameSize_eq, sub64]
      split <;> omega

theorem initFromMap_totals (storage : Bitmap) (map : MemoryMap) :
    (initFromMap storage map).totalUsable = (beforeReserve storage map).totalUsable ∧
      (initFromMap storage map).free % 4096 = (beforeReserve storage map).free % 4096 ∧
      (initFromMap storage map).bitmap.clearBits (initFromMap storage map).frames ⊆
        (beforeReserve storage map).bitmap.clearBits (beforeReserve storage map).frames := by
  rw [initFromMap_eq]
  generalize beforeReserve storage map = s
  have hsame := (pmmReserve_same s s.bitmapBase frameSize).trans (pmmReserve_same _ 0 0x100000)
  obtain ⟨h1, h2⟩ := reserveFrames_totals
    (((s.clamp s.bitmapBase frameSize).2 - (s.clamp s.bitmapBase frameSize).1 + (frameSize - 1)) / frameSize)
    (s.clamp s.bitmapBase frameSize).1 s
  change (pmmReserve s s.bitmapBase frameSize).totalUsable = _ at h1
  change (pmmReserve s s.bitmapBase frameSize).free % 4096 = _ at h2
  obtain ⟨h3, h4⟩ := reserveFrames_totals ((((pmmReserve s s.bitmapBase frameSize).clamp 0 0x100000).2 -
    ((pmmReserve s s.bitmapBase frameSize).clamp 0 0x100000).1 + (frameSize - 1)) / frameSize)
    ((pmmReserve s s.bitmapBase frameSize).clamp 0 0x100000).1 (pmmReserve s s.bitmapBase frameSize)
  refine ⟨h3.trans h1, h4.trans h2, fun i hi => ?_⟩
  obtain ⟨hlt, hclear⟩ := Bitmap.mem_clearBits.mp hi
  rw [hsame.frames] at hlt
  exact Bitmap.mem_clearBits.mpr ⟨hlt, reserveFrames_clear (reserveFrames_clear hclear)⟩

theorem freeRegions_totals {rs : List Region} (hc : Covers s) (hrs : ∀ r ∈ rs, r ∈ s.regions) :
    (freeRegions rs s).totalUsable = s.totalUsable ∧
      (freeRegions rs s).free = rs.foldl (fun n r => (n + r.len) % 2 ^ 64) s.free := by
  induction rs generalizing s with
  | nil => exact ⟨rfl, rfl⟩
  | cons r rs ih =>
    have hmem := hrs r List.mem_cons_self
    have hsame := markRange_same s r.base r.len false
    have hsame' : SameFrame s { markRange s r.base r.len false with free := (s.free + r.len) % 2 ^ 64 } :=
      ⟨hsame.regions, hsame.base, hsame.limit⟩
    obtain ⟨h1, h2⟩ := ih (hsame'.covers hc) fun x hx => hsame'.regions ▸ hrs x (List.mem_cons_of_mem _ hx)
    rw [freeRegions_cons hc hmem]
    refine ⟨h1.trans ?_, h2⟩
    rw [markRange]
    dsimp only
    split_ifs <;> rfl

theorem allUsed_total (storage : Bitmap) (map : MemoryMap) :
    (allUsed storage map).totalUsable = totalLen (regionsOf map) := by
  rw [allUsed, markRange, buildBitmapBounds]
  dsimp only
  split_ifs <;> rfl

theorem beforeReserve_totals (storage : Bitmap) {map : MemoryMap} (hb : UpperFits map) :
    (beforeReserve storage map).totalUsable = totalLen (regionsOf map) ∧
      (beforeReserve storage map).free = totalLen (regionsOf map) := by
  obtain ⟨hcov, hregs, hzero, -⟩ := allUsed_spec storage hb
  obtain ⟨h1, h2⟩ := freeRegions_totals hcov fun r hr => hr
  rw [hzero, hregs] at h2
  exact ⟨h1.trans (allUsed_total storage map), hregs ▸ h2⟩

theorem whole_accounted_iff (storage : Bitmap) {map : MemoryMap} (hb : UpperFits map)
    (hw : ∀ r ∈ regionsOf map, 4096 ∣ r.len) :
    ((initFromMap storage map).Accounted ∧ (initFromMap storage map).free ≤ pmmTotalBytes (initFromMap storage map)) ↔
      (regionsOf map).Pairwise Region.Apart := by
  obtain ⟨hpaged, k, hk, hiff⟩ := beforeReserve_surplus storage hb hw
  obtain ⟨-, hk'⟩ := initFromMap_surplus hpaged hk
  obtain ⟨htotal, -, hsub⟩ := initFromMap_totals storage map
  obtain ⟨htotal', hfree⟩ := beforeReserve_totals storage hb
  have hcard := Finset.card_le_card hsub
  rw [Pmm.Surplus] at hk hk'
  rw [← hiff, Pmm.Accounted, pmmTotalBytes, htotal, htotal', ← hfree]
  omega

theorem regionsOf_basic {upper : ℕ} (h : upper * 1024 < 2 ^ 52) (hpos : 0 < upper) :
    regionsOf (.basic upper) = [⟨0x100000, min (upper * 1024) (2 ^ 32 - 0x100000)⟩] := by
  have hcap : cap = 2 ^ 32 := rfl
  have hend : (0x100000 + upper * 1024) % 2 ^ 64 = 0x100000 + upper * 1024 := Nat.mod_eq_of_lt (by omega)
  have hlen : min (0x100000 + upper * 1024) (2 ^ 32) - 0x100000 = min (upper * 1024) (2 ^ 32 - 0x100000) := by omega
  rw [regionsOf, if_pos (by omega), addRegion, if_neg (by simp [maxRegions]; omega), hcap, if_neg (by omega)]
  dsimp only
  rw [hend, if_neg (by omega), List.nil_append, hlen]

theorem partial_not_accounted (storage : Bitmap) {map : MemoryMap} (hb : UpperFits map)
    (hlen : totalLen (regionsOf map) % 4096 ≠ 0) : ¬ (initFromMap storage map).Accounted := by
  intro h
  obtain ⟨-, hmod, -⟩ := initFromMap_totals storage map
  obtain ⟨-, hfree⟩ := beforeReserve_totals storage hb
  rw [hfree] at hmod
  rw [Pmm.Accounted] at h
  omega

theorem initFromMap_accounted_iff (storage : Bitmap) {map : MemoryMap} (hb : UpperFits map) :
    ((initFromMap storage map).Accounted ∧ (initFromMap storage map).free ≤ pmmTotalBytes (initFromMap storage map)) ↔
      Countable map := by
  have detailed (usable : ℕ) (es : List MapEntry) (hregs : regionsOf map = es.foldl (addEntry usable) []) :
      ((initFromMap storage map).Accounted ∧ (initFromMap storage map).free ≤ pmmTotalBytes (initFromMap storage map)) ↔
        (usableRanges usable es).Pairwise fun p q => p.2 ≤ q.1 ∨ q.2 ≤ p.1 := by
    rw [← pairwise_toRegion, ← foldl_addEntry_nil, ← hregs]
    apply whole_accounted_iff storage hb
    intro r hr
    rw [hregs] at hr
    rcases mem_foldl_addEntry hr with hr | ⟨e, _, _, _, hlen, _⟩
    · exact absurd hr List.not_mem_nil
    · exact hlen
  cases map with
  | efi es => exact detailed 7 es rfl
  | mmap es => exact detailed 1 es rfl
  | missing =>
    rw [whole_accounted_iff storage hb (by simp [regionsOf])]
    exact iff_of_true .nil trivial
  | basic upper =>
    rw [Countable]
    by_cases hpos : 0 < upper
    case neg =>
      have hnil : regionsOf (.basic upper) = [] := by rw [regionsOf, if_neg (by omega)]
      rw [whole_accounted_iff storage hb (by simp [hnil]), hnil]
      exact iff_of_true .nil (.inl (by omega))
    have hupper : upper * 1024 < 2 ^ 52 := hb
    have hregs := regionsOf_basic hupper hpos
    by_cases hw : 4 ∣ upper ∨ 4193280 ≤ upper
    · rw [whole_accounted_iff storage hb, hregs]
      · exact iff_of_true (List.pairwise_singleton ..) hw
      · rw [hregs]
        intro r hr
        obtain rfl := List.mem_singleton.mp hr
        dsimp only
        omega
    · refine iff_of_false (fun h => ?_) hw
      apply partial_not_accounted storage hb _ h.1
      rw [hregs, totalLen, List.foldl_cons, List.foldl_nil]
      dsimp only
      omega

/-- After `pmm_init` the free count is the number of bytes in free frames, and at most the total, exactly
for the maps in which no frame is counted twice and none is cut. -/
theorem init_counts_iff {fuel info : ℕ} {storage : Bitmap} {m : Memory} {map : MemoryMap} {s : Pmm}
    (hmap : readMemoryMap fuel m info false = some map) (hs : pmmInit fuel storage m info false = some s) :
    (s.Accounted ∧ s.free ≤ pmmTotalBytes s) ↔ Countable map := by
  rw [pmmInit, hmap, Option.map_some, Option.some_inj] at hs
  subst hs
  exact initFromMap_accounted_iff storage (readMemoryMap_upperFits hmap)

theorem init_counts_iff_small :
    ∃ s, pmmInit 4 (fun _ => 0) smallInfo 8 false = some s ∧ s.Accounted ∧ s.free ≤ pmmTotalBytes s := by
  have hs : pmmInit 4 (fun _ => 0) smallInfo 8 false =
      some (initFromMap (fun _ => 0) (.mmap [⟨0x100000, 0x10000, 1⟩])) := by
    rw [pmmInit, readMemoryMap_smallInfo]
    rfl
  exact ⟨_, hs, (init_counts_iff readMemoryMap_smallInfo hs).mpr (by decide +kernel)⟩

def doubleInfo : Memory := fun a =>
  (leBytes 4 80 ++ leBytes 4 0 ++ leBytes 4 6 ++ leBytes 4 64 ++ leBytes 4 24 ++ leBytes 4 0 ++
    leBytes 8 0x100000 ++ leBytes 8 0x10000 ++ leBytes 4 1 ++ leBytes 4 0 ++
    leBytes 8 0x100000 ++ leBytes 8 0x10000 ++ leBytes 4 1 ++ leBytes 4 0 ++ leBytes 8 0).getD (a - 8) 0

theorem double_entry_counts_twice :
    ∃ s, pmmInit 4 (fun _ => 0) doubleInfo 8 false = some s ∧ s.free = 31 * 4096 ∧
      (s.bitmap.clearBits s.frames).card = 15 ∧ ¬ s.Accounted := by
  have hmap : readMemoryMap 4 doubleInfo 8 false = some (.mmap [⟨0x100000, 0x10000, 1⟩, ⟨0x100000, 0x10000, 1⟩]) := by
    decide +kernel
  refine ⟨initFromMap (fun _ => 0) (.mmap [⟨0x100000, 0x10000, 1⟩, ⟨0x100000, 0x10000, 1⟩]), ?_, ?_, ?_, ?_⟩
  · rw [pmmInit, hmap]
    rfl
  · decide +kernel
  · decide +kernel
  · rw [Pmm.Accounted]
    decide +kernel

end Totals

end DexOs.Frames
