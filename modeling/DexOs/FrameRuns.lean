import DexOs.FrameInit
import Mathlib.Order.Interval.Set.Disjoint
import Mathlib.Order.CompletePartialOrder

/-! Every run of the frame allocator: who owns which frame. -/

namespace DexOs.Frames

open DexOs.Lib DexOs.Mb2

structure Alloc where
  addr : ℕ
  count : ℕ
  deriving DecidableEq

def Alloc.limit (a : Alloc) : ℕ := a.addr + a.count * 4096

def grant (addr count : ℕ) (live : List Alloc) : List Alloc :=
  if addr = 0 then live else ⟨addr, count⟩ :: live

/-- The runs from `s₀` in which a caller frees only what it holds. -/
inductive Reach (s₀ : Pmm) : Pmm → List Alloc → Prop
  | start : Reach s₀ s₀ []
  | alloc {s : Pmm} {live : List Alloc} (count : ℕ) : Reach s₀ s live →
      Reach s₀ (pmmAllocFrames s count).2 (grant (pmmAllocFrames s count).1 count live)
  | allocBelow {s : Pmm} {live : List Alloc} (count limit : ℕ) : Reach s₀ s live →
      Reach s₀ (pmmAllocFramesBelow s count limit).2
        (grant (pmmAllocFramesBelow s count limit).1 count live)
  | free {s : Pmm} {live : List Alloc} {a : Alloc} : Reach s₀ s live → a ∈ live →
      Reach s₀ (pmmFreeFrames s a.addr a.count) (live.erase a)

structure Supplies (P : ℕ → Prop) (s : Pmm) : Prop extends s.Framed where
  nonzero : ∀ a, P a → a ≠ 0
  clear : ∀ i < s.frames, s.bitmap.test i = false → P (s.frameAddr i)

structure Holds (P : ℕ → Prop) (s : Pmm) (a : Alloc) (start : ℕ) : Prop where
  addr : a.addr = s.frameAddr start
  pos : 0 < a.count
  limit : start + a.count ≤ s.frames
  used : ∀ j, start ≤ j → j < start + a.count → s.bitmap.test j = true
  granted : ∀ j, start ≤ j → j < start + a.count → P (s.frameAddr j)

structure Owned (P : ℕ → Prop) (s : Pmm) (live : List Alloc) : Prop extends Supplies P s where
  holds : ∀ a ∈ live, ∃ start, Holds P s a start
  apart : live.Pairwise fun a b => a.limit ≤ b.addr ∨ b.limit ≤ a.addr

variable {P : ℕ → Prop} {s s' : Pmm} {live : List Alloc}

theorem Holds.limit_eq {a : Alloc} {i : ℕ} (h : Holds P s a i) :
    a.limit = s.frameAddr (i + a.count) := by
  simp only [Alloc.limit, h.addr, Pmm.frameAddr, frameSize_eq]
  omega

theorem frameAddr_le {i j : ℕ} (h : i ≤ j) : s.frameAddr i ≤ s.frameAddr j := by
  simp only [Pmm.frameAddr, frameSize_eq]
  omega

theorem frameAddr_inj {i j : ℕ} (h : s.frameAddr i = s.frameAddr j) : i = j := by
  simp only [Pmm.frameAddr, frameSize_eq] at h
  omega

theorem allocBelowIndex_spec (hs : Supplies P s) {limitIdx : ℕ} (hl : limitIdx ≤ s.frames) (count : ℕ) :
    allocBelowIndex s count limitIdx = (0, s) ∨
      ∃ start, 0 < count ∧ start + count ≤ limitIdx ∧
        (∀ j, start ≤ j → j < start + count → s.bitmap.test j = false) ∧
        (allocBelowIndex s count limitIdx).1 = s.frameAddr start ∧ s.frameAddr start ≠ 0 ∧
        SameFrame s (allocBelowIndex s count limitIdx).2 ∧
        ∀ j, (allocBelowIndex s count limitIdx).2.bitmap.test j =
          (s.bitmap.test j || decide (start ≤ j ∧ j < start + count)) := by
  rcases allocBelowIndex_cases s count limitIdx with h | ⟨start, hpos, hle, hclear, -, h⟩
  · exact .inl h
  · have hlt := hs.frame_lt (i := start) (by omega)
    have hlim := hs.limit_le
    have hmod : s.frameAddr start % 2 ^ 64 = s.frameAddr start := Nat.mod_eq_of_lt (by omega)
    have hP := hs.clear start (by omega) (hclear start (by omega) (by omega))
    rw [h]
    refine .inr ⟨start, hpos, hle, hclear, hmod, hs.nonzero _ hP, ⟨rfl, rfl, rfl⟩, fun j => ?_⟩
    simp only [Bitmap.test_fill]
    split_ifs with hj <;> simp [hj]

theorem Owned.alloc (ho : Owned P s live) {limitIdx : ℕ} (hl : limitIdx ≤ s.frames) (count : ℕ) :
    Owned P (allocBelowIndex s count limitIdx).2
      (grant (allocBelowIndex s count limitIdx).1 count live) := by
  rcases allocBelowIndex_spec ho.toSupplies hl count with h | ⟨start, hpos, hle, hclear, haddr, hne, hsame, htest⟩
  · rw [h]
    exact ho
  rw [haddr, grant, if_neg hne]
  generalize (allocBelowIndex s count limitIdx).2 = t at hsame htest ⊢
  -- the bits of a live allocation were set, so the new range is beside it
  have hbeside : ∀ a ∈ live, ∀ i, Holds P s a i → i + a.count ≤ start ∨ start + count ≤ i := by
    intro a _ i ha
    by_contra hmeet
    have hu := ha.used (max i start) (le_max_left _ _) (by have := ha.pos; omega)
    have hc := hclear (max i start) (le_max_right _ _) (by have := ha.pos; omega)
    rw [hu] at hc
    exact Bool.noConfusion hc
  refine ⟨⟨hsame.framed ho.toFramed, ho.nonzero, ?_⟩, ?_, ?_⟩
  · intro j hj hc
    rw [htest, Bool.or_eq_false_iff] at hc
    rw [hsame.frameAddr]
    exact ho.clear j (by rwa [hsame.frames] at hj) hc.1
  · intro a ha
    rcases List.mem_cons.mp ha with rfl | ha
    · refine ⟨start, (hsame.frameAddr _).symm, hpos, by rw [hsame.frames]; exact hle.trans hl, ?_, ?_⟩
      · intro j h1 h2
        simp only [htest, h1, h2, and_self, decide_true, Bool.or_true]
      · intro j h1 h2
        rw [hsame.frameAddr]
        exact ho.clear j (lt_of_lt_of_le h2 (hle.trans hl)) (hclear j h1 h2)
    · obtain ⟨i, hi⟩ := ho.holds a ha
      refine ⟨i, by rw [hsame.frameAddr, hi.addr], hi.pos, by rw [hsame.frames]; exact hi.limit, ?_, ?_⟩
      · intro j h1 h2
        rw [htest, hi.used j h1 h2, Bool.true_or]
      · intro j h1 h2
        rw [hsame.frameAddr]
        exact hi.granted j h1 h2
  · refine List.pairwise_cons.mpr ⟨fun a ha => ?_, ho.apart⟩
    obtain ⟨i, hi⟩ := ho.holds a ha
    have hnew : Alloc.limit ⟨s.frameAddr start, count⟩ = s.frameAddr (start + count) := by
      simp only [Alloc.limit, Pmm.frameAddr, frameSize_eq]
      omega
    rw [hi.limit_eq, hi.addr, hnew]
    exact (hbeside a ha i hi).symm.imp frameAddr_le frameAddr_le

theorem pmmFreeFrames_test (hf : s.Framed) {a : Alloc} {i : ℕ} (ha : Holds P s a i) (j : ℕ) :
    (pmmFreeFrames s a.addr a.count).bitmap.test j =
      (s.bitmap.test j && !decide (i ≤ j ∧ j < i + a.count)) := by
  have hpos := ha.pos
  have hlim := ha.limit
  have hlt := hf.frame_lt (i := i) (by omega)
  have hge : s.bitmapBase ≤ s.frameAddr i := Nat.le_add_right _ _
  rw [pmmFreeFrames, ha.addr, if_neg (by omega), addrToIndex_frameAddr, freeLoop_test hlim]

theorem Owned.free (ho : Owned P s live) {a : Alloc} (ha : a ∈ live) :
    Owned P (pmmFreeFrames s a.addr a.count) (live.erase a) := by
  obtain ⟨i, hi⟩ := ho.holds a ha
  have hsame := pmmFreeFrames_same s a.addr a.count
  have htest := pmmFreeFrames_test ho.toFramed hi
  generalize pmmFreeFrames s a.addr a.count = t at hsame htest ⊢
  have hnodup : live.Nodup := ho.apart.imp_of_mem fun {x y} hx _ hxy hne => by
    obtain ⟨k, hk⟩ := ho.holds x hx
    have hpos := hk.pos
    subst hne
    simp only [Alloc.limit] at hxy
    omega
  have hapart : ∀ b ∈ live.erase a, a.limit ≤ b.addr ∨ b.limit ≤ a.addr := by
    intro b hb
    obtain ⟨hne, hb⟩ := (hnodup.mem_erase_iff).mp hb
    have hsymm : Std.Symm fun a b : Alloc => a.limit ≤ b.addr ∨ b.limit ≤ a.addr :=
      ⟨fun _ _ h => h.symm⟩
    exact ho.apart.forall ha hb hne.symm
  refine ⟨⟨hsame.framed ho.toFramed, ho.nonzero, ?_⟩, ?_, ho.apart.sublist List.erase_sublist⟩
  · intro j hj hc
    rw [hsame.frames] at hj
    rw [hsame.frameAddr]
    rw [htest, Bool.and_eq_false_iff, Bool.not_eq_false', decide_eq_true_iff] at hc
    rcases hc with hc | hc
    · exact ho.clear j hj hc
    · exact hi.granted j hc.1 hc.2
  · intro b hb
    obtain ⟨k, hk⟩ := ho.holds b (List.mem_of_mem_erase hb)
    refine ⟨k, by rw [hsame.frameAddr, hk.addr], hk.pos, by rw [hsame.frames]; exact hk.limit, ?_, ?_⟩
    · intro j h1 h2
      have hdis := hapart b hb
      rw [hi.limit_eq, hk.limit_eq, hi.addr, hk.addr] at hdis
      have hout : ¬ (i ≤ j ∧ j < i + a.count) := by
        simp only [Pmm.frameAddr, frameSize_eq] at hdis
        omega
      rw [htest, hk.used j h1 h2, decide_eq_false hout]
      rfl
    · intro j h1 h2
      rw [hsame.frameAddr]
      exact hk.granted j h1 h2

theorem Reach.same {s₀ : Pmm} (hr : Reach s₀ s live) : SameFrame s₀ s := by
  induction hr with
  | start => exact SameFrame.refl _
  | alloc count _ ih => exact ih.trans (allocBelowIndex_same _ _ _)
  | allocBelow count limit _ ih => exact ih.trans (allocBelowIndex_same _ _ _)
  | free _ _ ih => exact ih.trans (pmmFreeFrames_same _ _ _)

theorem Reach.owned {s₀ : Pmm} (h₀ : Supplies P s₀) (hr : Reach s₀ s live) : Owned P s live := by
  induction hr with
  | start => exact ⟨h₀, by simp, List.Pairwise.nil⟩
  | alloc count _ ih => exact ih.alloc (le_refl _) count
  | allocBelow count limit _ ih => exact ih.alloc (min_le_right _ _) count
  | free _ ha ih => exact ih.free ha

theorem alloc_zero (hs : Supplies P s) {limitIdx count : ℕ} (hl : limitIdx ≤ s.frames)
    (h0 : (allocBelowIndex s count limitIdx).1 = 0) : (allocBelowIndex s count limitIdx).2 = s := by
  rcases allocBelowIndex_spec hs hl count with h | ⟨start, _, _, _, haddr, hne, _⟩
  · rw [h]
  · exact absurd (haddr.symm.trans h0) hne

theorem Holds.frame_of_mem {a : Alloc} {i : ℕ} (hf : s.Framed) (h : Holds P s a i) {y : ℕ} (h1 : a.addr ≤ y)
    (h2 : y < a.limit) : P (y / 4096 * 4096) := by
  have hal := hf.base_aligned
  rw [h.limit_eq] at h2
  rw [h.addr] at h1
  have hfr : y / 4096 * 4096 = s.frameAddr (i + (y - s.frameAddr i) / 4096) := by
    simp only [Pmm.frameAddr, frameSize_eq] at h1 ⊢
    omega
  rw [hfr]
  refine h.granted _ (Nat.le_add_right _ _) ?_
  simp only [Pmm.frameAddr, frameSize_eq] at h1 h2 ⊢
  omega

def reserveAll (s : Pmm) (reserved : List (ℕ × ℕ)) : Pmm :=
  reserved.foldl (fun s r => pmmReserve s r.1 r.2) s

theorem reserveAll_same (s : Pmm) (reserved : List (ℕ × ℕ)) : SameFrame s (reserveAll s reserved) := by
  induction reserved generalizing s with
  | nil => exact SameFrame.refl s
  | cons r rs ih => exact (pmmReserve_same s r.1 r.2).trans (ih _)

def Touches (paddr size a : ℕ) : Prop := ∃ x, paddr ≤ x ∧ x < paddr + size ∧ x / 4096 = a / 4096

theorem pmmReserve_clear_iff (hf : s.Framed) {paddr size : ℕ} (hb : paddr + size < 2 ^ 63 ∨ 2 ^ 32 ≤ paddr)
    (hpos : 0 < size) {i : ℕ} (hi : i < s.frames) :
    (pmmReserve s paddr size).bitmap.test i = false ↔
      s.bitmap.test i = false ∧ ¬ Touches paddr size (s.frameAddr i) := by
  have hlt := hf.frame_lt hi
  have hal := hf.frame_aligned i
  have hlim := hf.limit_le
  have hge : s.bitmapBase ≤ s.frameAddr i := Nat.le_add_right _ _
  rw [pmmReserve_test hf, Bool.or_eq_false_iff, decide_eq_false_iff_not]
  refine and_congr_right fun _ => not_congr ?_
  simp only [Pmm.clamp, alignDown, alignUp, frameSize_eq, Touches]
  rcases hb with hb | hb
  · rw [Nat.mod_eq_of_lt (show paddr + size + (4096 - 1) < 2 ^ 64 by omega)]
    constructor
    · intro h
      exact ⟨max paddr (s.frameAddr i), le_max_left _ _, by omega, by omega⟩
    · rintro ⟨x, h1, h2, h3⟩
      omega
  · constructor
    · intro h
      omega
    · rintro ⟨x, h1, h2, h3⟩
      omega

theorem pmmReserve_clear (hf : s.Framed) {paddr size : ℕ} (hb : paddr + size < 2 ^ 63) {i : ℕ}
    (hi : i < s.frames) (hc : (pmmReserve s paddr size).bitmap.test i = false) :
    s.bitmap.test i = false ∧ ¬ Touches paddr size (s.frameAddr i) := by
  rcases Nat.eq_zero_or_pos size with rfl | hpos
  · rw [pmmReserve_test hf, Bool.or_eq_false_iff] at hc
    exact ⟨hc.1, fun ⟨x, h1, h2, _⟩ => by omega⟩
  · exact (pmmReserve_clear_iff hf (.inl hb) hpos hi).mp hc

theorem reserveAll_supplies (hs : Supplies P s) {reserved : List (ℕ × ℕ)}
    (hb : ∀ r ∈ reserved, r.1 + r.2 < 2 ^ 63) :
    Supplies (fun a => P a ∧ ∀ r ∈ reserved, ¬ Touches r.1 r.2 a) (reserveAll s reserved) := by
  induction reserved generalizing s P with
  | nil => simpa [reserveAll] using hs
  | cons r rs ih =>
    have hsame := pmmReserve_same s r.1 r.2
    have hnext : Supplies (fun a => P a ∧ ¬ Touches r.1 r.2 a) (pmmReserve s r.1 r.2) := by
      refine ⟨hsame.framed hs.toFramed, fun a ha => hs.nonzero a ha.1, fun i hi hc => ?_⟩
      rw [hsame.frames] at hi
      have h := pmmReserve_clear hs.toFramed (hb r List.mem_cons_self) hi hc
      rw [hsame.frameAddr]
      exact ⟨hs.clear i hi h.1, h.2⟩
    have h := ih hnext (fun x hx => hb x (List.mem_cons_of_mem _ hx))
    simpa only [reserveAll, List.foldl_cons, List.forall_mem_cons, and_assoc] using h

/-- The frame at address `a` is whole inside a usable range, above 1 MiB and below 4 GiB. -/
def UsableFrame (map : MemoryMap) (a : ℕ) : Prop :=
  0x100000 ≤ a ∧ a + 4096 ≤ 2 ^ 32 ∧
    ∃ e ∈ usableEntries map, e.base ≤ a ∧ a + 4096 ≤ e.base + e.length

theorem initFromMap_supplies (storage : Bitmap) {map : MemoryMap} (hb : Bounded map) :
    Supplies (UsableFrame map) (initFromMap storage map) := by
  obtain ⟨hcov, -, hfree⟩ := initFromMap_spec storage hb.upperFits
  refine ⟨hcov.toFramed, fun a ha => by have := ha.1; omega, fun i hi hc => ?_⟩
  obtain ⟨⟨r, hr, h1, h2⟩, hmb, -⟩ := (hfree i hi).mp hc
  obtain ⟨e, he, h3, h4⟩ := regionsOf_usable hb hr
  have hlt := hcov.frame_lt hi
  have hlim := hcov.limit_le
  exact ⟨hmb, hlt.trans hlim, e, he, h3.trans h1, h2.trans h4⟩

theorem pmmInit_framed {fuel info : ℕ} {storage : Bitmap} {m : Memory} {fromUefi : Bool} {s₀ : Pmm}
    (hinit : pmmInit fuel storage m info fromUefi = some s₀) : s₀.Framed := by
  obtain ⟨map, hmap, rfl⟩ := Option.map_eq_some_iff.mp hinit
  exact (initFromMap_spec storage (readMemoryMap_upperFits hmap)).1.toFramed

/-- At every point of a run after `pmm_init` and the reservations, live allocations are pairwise
disjoint and lie inside usable ranges, from 1 MiB to 4 GiB, in frames that no reservation touches;
and a call that returns 0 keeps the bitmap. -/
theorem live_safe_of_reach {fuel info : ℕ} {storage : Bitmap} {m : Memory} {fromUefi : Bool}
    {map : MemoryMap} {s₀ : Pmm} (hmap : readMemoryMap fuel m info fromUefi = some map)
    (hinit : pmmInit fuel storage m info fromUefi = some s₀) (hb : Bounded map)
    {reserved : List (ℕ × ℕ)} (hres : ∀ r ∈ reserved, r.1 + r.2 < 2 ^ 63)
    (hr : Reach (reserveAll s₀ reserved) s live) :
    live.Pairwise (fun a b => Disjoint (Set.Ico a.addr a.limit) (Set.Ico b.addr b.limit)) ∧
    (∀ a ∈ live, 0x100000 ≤ a.addr ∧ a.addr < a.limit ∧ a.limit ≤ 2 ^ 32 ∧ ∀ y ∈ Set.Ico a.addr a.limit,
      (∃ e ∈ usableEntries map, e.base ≤ y ∧ y < e.base + e.length) ∧
      ∀ r ∈ reserved, ¬ Touches r.1 r.2 y) ∧
    (∀ count, (pmmAllocFrames s count).1 = 0 → (pmmAllocFrames s count).2.bitmap = s.bitmap) ∧
    (∀ count limit, (pmmAllocFramesBelow s count limit).1 = 0 →
      (pmmAllocFramesBelow s count limit).2.bitmap = s.bitmap) := by
  rw [pmmInit, hmap, Option.map_some, Option.some_inj] at hinit
  subst hinit
  have ho := hr.owned (reserveAll_supplies (initFromMap_supplies storage hb) hres)
  refine ⟨?_, ?_, ?_, ?_⟩
  · refine ho.apart.imp fun {a b} h => ?_
    rw [Set.Ico_disjoint_Ico]
    omega
  · intro a ha
    obtain ⟨i, hi⟩ := ho.holds a ha
    have hpos := hi.pos
    have hle := hi.limit
    have hfirst := hi.granted i (le_refl _) (by omega)
    have hlast := ho.frame_lt (i := i + a.count - 1) (by omega)
    have hend := hi.limit_eq
    have hlim := ho.limit_le
    refine ⟨?_, ?_, ?_, fun y hy => ?_⟩
    · rw [hi.addr]
      exact hfirst.1.1
    · simp only [Alloc.limit]
      omega
    · simp only [Pmm.frameAddr, frameSize_eq] at hend hlast
      omega
    · obtain ⟨⟨-, -, e, he, h1, h2⟩, hunres⟩ := hi.frame_of_mem ho.toFramed hy.1 hy.2
      refine ⟨⟨e, he, by omega, by omega⟩, ?_⟩
      intro r hr' htouch
      obtain ⟨x, hx⟩ := htouch
      exact hunres r hr' ⟨x, by omega⟩
  · intro count h0
    exact congrArg Pmm.bitmap (alloc_zero ho.toSupplies (le_refl _) h0)
  · intro count limit h0
    exact congrArg Pmm.bitmap (alloc_zero ho.toSupplies (min_le_right _ _) h0)

def smallInfo : Memory := fun a =>
  (leBytes 4 56 ++ leBytes 4 0 ++ leBytes 4 6 ++ leBytes 4 40 ++ leBytes 4 24 ++ leBytes 4 0 ++
    leBytes 8 0x100000 ++ leBytes 8 0x10000 ++ leBytes 4 1 ++ leBytes 4 0 ++ leBytes 8 0).getD (a - 8) 0

theorem readMemoryMap_smallInfo :
    readMemoryMap 4 smallInfo 8 false = some (.mmap [⟨0x100000, 0x10000, 1⟩]) := by decide +kernel

theorem live_safe_of_reach_small :
    ∃ s live, Reach (reserveAll (initFromMap (fun _ => 0) (.mmap [⟨0x100000, 0x10000, 1⟩])) [(0x101000, 1)])
      s live ∧ live = [⟨0x102000, 2⟩] ∧
        ∀ a ∈ live, 0x100000 ≤ a.addr ∧ a.limit ≤ 2 ^ 32 := by
  have hstart : Reach (reserveAll (initFromMap (fun _ => 0) (.mmap [⟨0x100000, 0x10000, 1⟩])) [(0x101000, 1)])
      (reserveAll (initFromMap (fun _ => 0) (.mmap [⟨0x100000, 0x10000, 1⟩])) [(0x101000, 1)]) [] := Reach.start
  have hr := Reach.alloc 2 hstart
  have hb : Bounded (.mmap [⟨0x100000, 0x10000, 1⟩]) := by simp [Bounded, usableEntries]
  have hinit : pmmInit 4 (fun _ => 0) smallInfo 8 false =
      some (initFromMap (fun _ => 0) (.mmap [⟨0x100000, 0x10000, 1⟩])) := by
    rw [pmmInit, readMemoryMap_smallInfo]
    rfl
  have hsafe := live_safe_of_reach readMemoryMap_smallInfo hinit hb (by simp) hr
  refine ⟨_, _, hr, by decide +kernel, fun a ha => ?_⟩
  obtain ⟨h1, -, h2, -⟩ := hsafe.2.1 a ha
  exact ⟨h1, h2⟩

end DexOs.Frames
