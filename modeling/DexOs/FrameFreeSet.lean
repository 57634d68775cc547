import DexOs.FrameTotals
import DexOs.MultibootLayout

/-! The frames that can be allocated after `pmm_init`, from the entries of the memory map. -/

namespace DexOs.Frames

open DexOs.Lib DexOs.Mb2

variable {s : Pmm}

def Pmm.Allocatable (s : Pmm) (a : ℕ) : Prop :=
  s.bitmapBase ≤ a ∧ a + 4096 ≤ s.bitmapLimit ∧ s.bitmap.test (s.addrToIndex a) = false

def firstFrame (e : MapEntry) : ℕ := (e.base + 4095) / 4096 * 4096

def HasFrame (e : MapEntry) (a : ℕ) : Prop := e.base ≤ a ∧ a + 4096 ≤ e.base + e.length

/-- The first 64 usable entries that still have a whole frame below 4 GiB. -/
def usedEntries (es : List MapEntry) : List MapEntry :=
  (es.filter fun e => e.type = 1 ∧ firstFrame e + 4096 ≤ min (e.base + e.length) (2 ^ 32)).take 64

/-- The frame lies in one of these entries, at or above 1 MiB, and is not the lowest frame of the lowest. -/
def InUsedEntry (es : List MapEntry) (a : ℕ) : Prop :=
  (∃ e ∈ usedEntries es, HasFrame e a) ∧ 0x100000 ≤ a ∧ ((usedEntries es).map firstFrame).min? ≠ some a

theorem frameRange_eq {e : MapEntry} (hb : e.base < 2 ^ 52 ∧ e.length < 2 ^ 52) :
    frameRange e = (firstFrame e, min ((e.base + e.length) / 4096 * 4096) (2 ^ 32)) := by
  rw [frameRange, firstFrame, alignUp, alignDown, Nat.mod_eq_of_lt (by omega), Nat.mod_eq_of_lt (by omega),
    Nat.add_comm e.length]

theorem usableRanges_eq {es : List MapEntry} (hb : ∀ e ∈ es, e.base < 2 ^ 52 ∧ e.length < 2 ^ 52) :
    usableRanges 1 es = (usedEntries es).map frameRange := by
  rw [usableRanges, usedEntries, List.filter_map, List.map_take, List.filter_filter]
  congr 2
  apply List.filter_congr
  intro e he
  simp only [Function.comp_apply, frameRange_eq (hb e he), firstFrame]
  rw [Bool.and_comm, ← Bool.decide_and]
  apply decide_eq_decide.mpr
  apply and_congr_right
  intro _
  omega

theorem mem_regionsOf {es : List MapEntry} (hb : ∀ e ∈ es, e.base < 2 ^ 52 ∧ e.length < 2 ^ 52) {r : Region} :
    r ∈ regionsOf (.mmap es) ↔ ∃ e ∈ usedEntries es, r = toRegion (frameRange e) := by
  rw [regionsOf, foldl_addEntry_nil, usableRanges_eq hb]
  simp only [List.mem_map]
  constructor
  · rintro ⟨p, ⟨e, he, rfl⟩, rfl⟩
    exact ⟨e, he, rfl⟩
  · rintro ⟨e, he, rfl⟩
    exact ⟨_, ⟨e, he, rfl⟩, rfl⟩

theorem mem_usedEntries {es : List MapEntry} {e : MapEntry} (he : e ∈ usedEntries es) :
    e ∈ es ∧ firstFrame e + 4096 ≤ min (e.base + e.length) (2 ^ 32) := by
  obtain ⟨hmem, hp⟩ := List.mem_filter.mp (List.mem_of_mem_take he)
  rw [decide_eq_true_eq] at hp
  exact ⟨hmem, hp.2⟩

theorem toRegion_frame_iff {e : MapEntry} (hb : e.base < 2 ^ 52 ∧ e.length < 2 ^ 52) {a : ℕ} (ha : 4096 ∣ a) :
    ((toRegion (frameRange e)).base ≤ a ∧
      a + 4096 ≤ (toRegion (frameRange e)).base + (toRegion (frameRange e)).len) ↔ HasFrame e a ∧ a + 4096 ≤ 2 ^ 32 := by
  rw [toRegion, frameRange_eq hb, HasFrame, firstFrame]
  dsimp only
  omega

theorem bitmapBase_eq_min (storage : Bitmap) {es : List MapEntry}
    (hb : ∀ e ∈ es, e.base < 2 ^ 52 ∧ e.length < 2 ^ 52) (hne : usedEntries es ≠ []) :
    ((usedEntries es).map firstFrame).min? = some (initFromMap storage (.mmap es)).bitmapBase := by
  have hfits : UpperFits (.mmap es) := trivial
  obtain ⟨hcov, hregs, -⟩ := initFromMap_spec storage hfits
  have hbase {e : MapEntry} (he : e ∈ usedEntries es) : (toRegion (frameRange e)).base = firstFrame e := by
    rw [toRegion, frameRange_eq (hb e (mem_usedEntries he).1)]
  rw [List.min?_eq_some_iff]
  constructor
  · rcases hcov.base_start with hnil | ⟨r, hr, hstart⟩
    · obtain ⟨e, he⟩ := List.exists_mem_of_ne_nil _ hne
      have hmem : toRegion (frameRange e) ∈ regionsOf (.mmap es) := (mem_regionsOf hb).mpr ⟨e, he, rfl⟩
      rw [← hregs, hnil] at hmem
      exact absurd hmem List.not_mem_nil
    · rw [hregs, mem_regionsOf hb] at hr
      obtain ⟨e, he, rfl⟩ := hr
      rw [hstart, hbase he]
      exact List.mem_map_of_mem he
  · intro f hf
    obtain ⟨e, he, rfl⟩ := List.mem_map.mp hf
    have hin := hcov.inside (toRegion (frameRange e)) (by rw [hregs]; exact (mem_regionsOf hb).mpr ⟨e, he, rfl⟩)
    rw [hbase he] at hin
    exact hin.1

theorem allocatable_iff (storage : Bitmap) {es : List MapEntry}
    (hb : ∀ e ∈ es, e.base < 2 ^ 52 ∧ e.length < 2 ^ 52) {a : ℕ} (ha : 4096 ∣ a) :
    (initFromMap storage (.mmap es)).Allocatable a ↔ InUsedEntry es a ∧ a + 4096 ≤ 2 ^ 32 := by
  have hfits : UpperFits (.mmap es) := trivial
  obtain ⟨hcov, hregs, hfree⟩ := initFromMap_spec storage hfits
  have hlow := bitmapBase_eq_min storage hb
  generalize initFromMap storage (.mmap es) = s at *
  have hal := hcov.base_aligned
  have hfr := hcov.frames_eq
  -- a frame inside the range, by its index
  have key (h1 : s.bitmapBase ≤ a) (h2 : a + 4096 ≤ s.bitmapLimit) : s.bitmap.test (s.addrToIndex a) = false ↔
      (∃ e ∈ usedEntries es, HasFrame e a ∧ a + 4096 ≤ 2 ^ 32) ∧ 0x100000 ≤ a ∧ a ≠ s.bitmapBase := by
    have haddr : s.frameAddr (s.addrToIndex a) = a := by
      rw [addrToIndex_of_ge h1, Pmm.frameAddr, frameSize_eq]
      omega
    rw [hfree _ (by rw [addrToIndex_of_ge h1, hfr]; omega), haddr]
    have hzero : s.addrToIndex a ≠ 0 ↔ a ≠ s.bitmapBase := by
      rw [addrToIndex_of_ge h1]
      omega
    have hin : (∃ r ∈ regionsOf (.mmap es), s.FrameIn r (s.addrToIndex a)) ↔
        ∃ e ∈ usedEntries es, HasFrame e a ∧ a + 4096 ≤ 2 ^ 32 := by
      simp only [mem_regionsOf hb, Pmm.FrameIn, haddr]
      constructor
      · rintro ⟨r, ⟨e, he, rfl⟩, hr⟩
        exact ⟨e, he, (toRegion_frame_iff (hb e (mem_usedEntries he).1) ha).mp hr⟩
      · rintro ⟨e, he, hr⟩
        exact ⟨_, ⟨e, he, rfl⟩, (toRegion_frame_iff (hb e (mem_usedEntries he).1) ha).mpr hr⟩
    rw [hin, hzero]
  constructor
  · rintro ⟨h1, h2, htest⟩
    obtain ⟨⟨e, he, hframe, hcap⟩, hmib, hne⟩ := (key h1 h2).mp htest
    refine ⟨⟨⟨e, he, hframe⟩, hmib, ?_⟩, hcap⟩
    rw [hlow (List.ne_nil_of_mem he)]
    exact fun h => hne (Option.some.inj h).symm
  · rintro ⟨⟨⟨e, he, hframe⟩, hmib, hne⟩, hcap⟩
    have hregion := (toRegion_frame_iff (hb e (mem_usedEntries he).1) ha).mpr ⟨hframe, hcap⟩
    obtain ⟨h1, h2⟩ := hcov.inside (toRegion (frameRange e)) (by rw [hregs]; exact (mem_regionsOf hb).mpr ⟨e, he, rfl⟩)
    refine ⟨by omega, by omega, (key (by omega) (by omega)).mpr ⟨⟨e, he, hframe, hcap⟩, hmib, ?_⟩⟩
    rw [hlow (List.ne_nil_of_mem he)] at hne
    exact fun h => hne (by rw [h])

/-- After `pmm_init` of a block with a memory map, exactly the frames below 4 GiB of its first 64 usable
entries can be allocated, without those below 1 MiB and without the lowest one. -/
theorem init_free_set {m : Memory} {info : ℕ} {tags : List ℕ} (hw : Mb2.WellFormed m info tags)
    (hmap : ∃ t ∈ tags, tagType m t = tagMmap)
    (hb : ∀ e ∈ mapEntries m tags, e.base < 2 ^ 52 ∧ e.length < 2 ^ 52) (storage : Bitmap) :
    ∃ n, ∀ fuel ≥ n, ∃ s, pmmInit fuel storage m info false = some s ∧
      ∀ a, 4096 ∣ a → (s.Allocatable a ↔ InUsedEntry (mapEntries m tags) a ∧ a + 4096 ≤ 2 ^ 32) := by
  obtain ⟨n, hread⟩ := hw.readMemoryMap_eq hmap
  refine ⟨n, fun fuel hfuel => ⟨initFromMap storage (.mmap (mapEntries m tags)), ?_, ?_⟩⟩
  · rw [pmmInit, hread fuel hfuel, Option.map_some]
  · intro a ha
    exact allocatable_iff storage hb ha

theorem smallInfo_wellFormed : Mb2.WellFormed smallInfo 8 [16] := by
  refine ⟨by decide, ?_, ?_⟩
  · apply TagList.single
    · decide +kernel
    · decide +kernel
    · decide +kernel
    · decide +kernel
  · decide +kernel

theorem init_free_set_small : ∃ s fuel, pmmInit fuel (fun _ => 0) smallInfo 8 false = some s ∧
    s.Allocatable 0x101000 ∧ ¬ s.Allocatable 0x100000 := by
  have hentries : mapEntries smallInfo [16] = [⟨0x100000, 0x10000, 1⟩] := by decide +kernel
  have hused : usedEntries [⟨0x100000, 0x10000, 1⟩] = [⟨0x100000, 0x10000, 1⟩] := by decide +kernel
  obtain ⟨n, h⟩ := init_free_set smallInfo_wellFormed ⟨16, by decide, by decide +kernel⟩
    (by rw [hentries]; decide) fun _ => 0
  obtain ⟨s, hs, hiff⟩ := h n (le_refl n)
  refine ⟨s, n, hs, (hiff _ (by decide)).mpr ?_, fun hlow => ?_⟩
  · rw [hentries, InUsedEntry, hused]
    refine ⟨⟨⟨_, List.mem_singleton_self _, by decide, by decide⟩, by decide, by decide⟩, by decide⟩
  · have hin := ((hiff _ (by decide)).mp hlow).1.2.2
    rw [hentries, hused] at hin
    exact hin rfl

def wideInfo : Memory := fun a =>
  (leBytes 4 56 ++ leBytes 4 0 ++ leBytes 4 6 ++ leBytes 4 40 ++ leBytes 4 24 ++ leBytes 4 0 ++
    leBytes 8 0x100000 ++ leBytes 8 0x100000000 ++ leBytes 4 1 ++ leBytes 4 0 ++ leBytes 8 0).getD (a - 8) 0

theorem frame_above_cap_not_allocatable : Mb2.WellFormed wideInfo 8 [16] ∧
    mapEntries wideInfo [16] = [⟨0x100000, 0x100000000, 1⟩] ∧ InUsedEntry (mapEntries wideInfo [16]) 0x100000000 ∧
    ∃ s, pmmInit 4 (fun _ => 0) wideInfo 8 false = some s ∧ ¬ s.Allocatable 0x100000000 := by
  have hentries : mapEntries wideInfo [16] = [⟨0x100000, 0x100000000, 1⟩] := by decide +kernel
  have hused : usedEntries [⟨0x100000, 0x100000000, 1⟩] = [⟨0x100000, 0x100000000, 1⟩] := by decide +kernel
  have hread : readMemoryMap 4 wideInfo 8 false = some (.mmap [⟨0x100000, 0x100000000, 1⟩]) := by decide +kernel
  refine ⟨⟨by decide, ?_, by decide +kernel⟩, hentries, ?_,
    initFromMap (fun _ => 0) (.mmap [⟨0x100000, 0x100000000, 1⟩]), ?_, ?_⟩
  · apply TagList.single
    · decide +kernel
    · decide +kernel
    · decide +kernel
    · decide +kernel
  · rw [hentries, InUsedEntry, hused]
    exact ⟨⟨_, List.mem_singleton_self _, by decide, by decide⟩, by decide, by decide⟩
  · rw [pmmInit, hread, Option.map_some]
  · intro h
    have hcap := ((allocatable_iff (fun _ => 0) (by decide) (by decide)).mp h).2
    omega

end DexOs.Frames
