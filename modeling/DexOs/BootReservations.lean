import DexOs.FrameSupply

/-! The reservations of `kmain64` between `pmm_init` and the first allocation, and the module that it
later registers as a memory disk. -/

namespace DexOs.Boot

open DexOs.Lib DexOs.Mb2 DexOs.Frames

/-- What `kmain64` starts from: memory, the information block, the kernel image and `cr3`. -/
structure Machine where
  mem : Memory
  info : ℕ
  kernelStart : ℕ
  kernelEnd : ℕ
  cr3 : ℕ

namespace Machine

variable (b : Machine)

def mbTotal : ℕ := totalSize b.mem b.info
def loaderPml4 : ℕ := b.cr3
def loaderPdpt : ℕ := alignDown (leNat b.mem 8 b.loaderPml4) 4096
def loaderPd (i : ℕ) : ℕ := alignDown (leNat b.mem 8 (b.loaderPdpt + 8 * i)) 4096

def loaderTables : List ℕ :=
  [b.loaderPml4, b.loaderPdpt] ++ ((List.range 4).map b.loaderPd).filter (· ≠ 0)

def reservations : List (ℕ × ℕ) :=
  (if b.info ≠ 0 ∧ 0 < b.mbTotal ∧ b.mbTotal < 16 * 2 ^ 20 then [(b.info, b.mbTotal)] else []) ++
  (if b.kernelStart < b.kernelEnd then [(b.kernelStart, b.kernelEnd - b.kernelStart)] else []) ++
  b.loaderTables.map fun t => (t, 4096)

def bootPmm (fuel : ℕ) (storage : Bitmap) : Option Pmm :=
  (pmmInit fuel storage b.mem b.info false).map fun s => reserveAll s b.reservations

end Machine

def matchesRoot (m : Memory) : ℕ → ℕ → Option Bool
  | 0, _ => none
  | fuel + 1, p =>
    if m p = 0 then some false
    else if m p = 0x72 ∧ m (p + 1) = 0x6f ∧ m (p + 2) = 0x6f ∧ m (p + 3) = 0x74 then some true
    else matchesRoot m fuel (p + 1)

def memdiskRange (start last : ℕ) : Option (ℕ × ℕ) :=
  if start < last ∧ start ≠ 0 ∧ (last - start) % 512 = 0 then some (start, last) else none

def findRootModule (m : Memory) : ℕ → ℕ → Option (Option (ℕ × ℕ))
  | 0, _ => none
  | fuel + 1, t =>
    if t = 0 ∨ tagType m t = tagEnd then some none
    else if tagType m t = tagModule then
      match matchesRoot m fuel (t + 16) with
      | none => none
      | some true => some (memdiskRange (leNat m 4 (t + 8)) (leNat m 4 (t + 12)))
      | some false => findRootModule m fuel (mb2NextTag m t)
    else findRootModule m fuel (mb2NextTag m t)

def Machine.rootModule (b : Machine) (fuel : ℕ) : Option (Option (ℕ × ℕ)) :=
  findRootModule b.mem fuel (mb2FirstTag b.info)

/-- The ranges that later code still reads: information block, kernel image, loader tables and the
module. -/
def Machine.inUse (b : Machine) (module : Option (ℕ × ℕ)) : List (Set ℕ) :=
  [Set.Ico b.info (b.info + b.mbTotal), Set.Ico b.kernelStart b.kernelEnd] ++
    (b.loaderTables.map fun t => Set.Ico t (t + 4096)) ++ (module.toList.map fun r => Set.Ico r.1 r.2)

/-- No allocation of any later run meets a range that is in use. -/
def Spares (s₀ : Pmm) (ranges : List (Set ℕ)) : Prop :=
  ∀ s live, Reach s₀ s live → ∀ a ∈ live, ∀ r ∈ ranges, Disjoint (Set.Ico a.addr a.limit) r

/-- The frame at address `a` is free when the reservations are done: it lies whole inside a region, at
or above 1 MiB, above the lowest region start, and no reservation touches it. -/
def FreeAtBoot (map : MemoryMap) (reserved : List (ℕ × ℕ)) (a : ℕ) : Prop :=
  (∃ r ∈ regionsOf map, r.base ≤ a ∧ a + 4096 ≤ r.base + r.len) ∧ 0x100000 ≤ a ∧
    (∃ r ∈ regionsOf map, r.base < a) ∧ ∀ r ∈ reserved, ¬ Touches r.1 r.2 a

variable {b : Machine} {map : MemoryMap} {storage : Bitmap}

theorem reservations_ok (hk : b.kernelEnd < 2 ^ 63) :
    ∀ r ∈ b.reservations, 0 < r.2 ∧ (r.1 + r.2 < 2 ^ 63 ∨ 2 ^ 32 ≤ r.1) := by
  intro r hr
  simp only [Machine.reservations, List.mem_append] at hr
  rcases hr with (hr | hr) | hr
  · split_ifs at hr with h
    · obtain rfl := List.mem_singleton.mp hr
      exact ⟨h.2.1, by dsimp only; omega⟩
    · simp at hr
  · split_ifs at hr with h
    · obtain rfl := List.mem_singleton.mp hr
      exact ⟨by dsimp only; omega, .inl (by dsimp only; omega)⟩
    · simp at hr
  · obtain ⟨t, -, rfl⟩ := List.mem_map.mp hr
    exact ⟨by dsimp only; omega, by dsimp only; omega⟩

theorem reserveAll_clear_iff {s : Pmm} (hf : s.Framed) {reserved : List (ℕ × ℕ)}
    (hb : ∀ r ∈ reserved, 0 < r.2 ∧ (r.1 + r.2 < 2 ^ 63 ∨ 2 ^ 32 ≤ r.1)) {i : ℕ} (hi : i < s.frames) :
    (reserveAll s reserved).bitmap.test i = false ↔
      s.bitmap.test i = false ∧ ∀ r ∈ reserved, ¬ Touches r.1 r.2 (s.frameAddr i) := by
  induction reserved generalizing s with
  | nil => simp [reserveAll]
  | cons r rs ih =>
    have hsame := pmmReserve_same s r.1 r.2
    obtain ⟨hpos, hr⟩ := hb r List.mem_cons_self
    have h := ih (hsame.framed hf) (fun x hx => hb x (List.mem_cons_of_mem _ hx))
      (hsame.frames.symm ▸ hi)
    rw [pmmReserve_clear_iff hf hr hpos hi, hsame.frameAddr, and_assoc] at h
    rw [List.forall_mem_cons]
    exact h

theorem initFromMap_clear_iff (hb : UpperFits map) {i : ℕ} (hi : i < (initFromMap storage map).frames) :
    (initFromMap storage map).bitmap.test i = false ↔
      FreeAtBoot map [] ((initFromMap storage map).frameAddr i) := by
  obtain ⟨hcov, hregs, hfree⟩ := initFromMap_spec storage hb
  rw [hfree i hi]
  generalize initFromMap storage map = s at *
  have hlow : (∃ r ∈ regionsOf map, s.FrameIn r i) → (i ≠ 0 ↔ ∃ r ∈ regionsOf map, r.base < s.frameAddr i) := by
    rintro ⟨r, hr, -⟩
    rw [← hregs] at hr ⊢
    have hzero : s.frameAddr 0 = s.bitmapBase := by simp [Pmm.frameAddr]
    constructor
    · intro hne
      rcases hcov.base_start with hnil | ⟨x, hx, hbase⟩
      · simp [hnil] at hr
      · refine ⟨x, hx, ?_⟩
        rw [← hbase]
        simp only [Pmm.frameAddr, frameSize_eq]
        omega
    · rintro ⟨x, hx, hlt⟩ rfl
      have := (hcov.inside x hx).1
      omega
  unfold FreeAtBoot
  constructor
  · rintro ⟨h1, h2, h3⟩
    exact ⟨h1, h2, (hlow h1).mp h3, by simp⟩
  · rintro ⟨h1, h2, h3, -⟩
    exact ⟨h1, h2, (hlow h1).mpr h3⟩

structure Booted (b : Machine) (map : MemoryMap) (s₀ : Pmm) : Prop where
  framed : s₀.Framed
  clear_iff : ∀ i < s₀.frames, s₀.bitmap.test i = false ↔ FreeAtBoot map b.reservations (s₀.frameAddr i)
  index : ∀ a, 4096 ∣ a → FreeAtBoot map b.reservations a → ∃ i < s₀.frames, s₀.frameAddr i = a
  funded : (∀ upper, map ≠ .basic upper) → s₀.Funded

theorem bootPmm_booted {fuel : ℕ} {s₀ : Pmm} (hk : b.kernelEnd < 2 ^ 63)
    (hmap : readMemoryMap fuel b.mem b.info false = some map) (hboot : b.bootPmm fuel storage = some s₀) :
    Booted b map s₀ := by
  have hb := readMemoryMap_upperFits hmap
  obtain ⟨hcov, hregs, -⟩ := initFromMap_spec storage hb
  rw [Machine.bootPmm, pmmInit, hmap, Option.map_some, Option.map_some, Option.some_inj] at hboot
  subst hboot
  have hsame := reserveAll_same (initFromMap storage map) b.reservations
  refine ⟨hsame.framed hcov.toFramed, fun i hi => ?_, fun a hal ha => ?_, fun hbasic => ?_⟩
  · rw [hsame.frames] at hi
    rw [reserveAll_clear_iff hcov.toFramed (reservations_ok hk) hi, initFromMap_clear_iff hb hi,
      hsame.frameAddr]
    simp only [FreeAtBoot, List.not_mem_nil, false_implies, implies_true, and_true, and_assoc]
  · obtain ⟨⟨r, hr, h1, h2⟩, -⟩ := ha
    obtain ⟨h3, h4⟩ := hcov.inside r (hregs.symm ▸ hr)
    have hbase := hcov.base_aligned
    refine ⟨(a - (initFromMap storage map).bitmapBase) / 4096, ?_, ?_⟩
    · rw [hsame.frames, hcov.frames_eq]
      omega
    · rw [hsame.frameAddr]
      simp only [Pmm.frameAddr, frameSize_eq]
      omega
  · have hwhole : ∀ r ∈ regionsOf map, 4096 ∣ r.len := by
      cases map with
      | basic upper => exact absurd rfl (hbasic upper)
      | missing => simp [regionsOf]
      | efi es =>
        intro r hr
        rcases mem_foldl_addEntry hr with hr | ⟨_, _, _, _, hlen, _⟩
        · simp at hr
        · exact hlen
      | mmap es =>
        intro r hr
        rcases mem_foldl_addEntry hr with hr | ⟨_, _, _, _, hlen, _⟩
        · simp at hr
        · exact hlen
    obtain ⟨hfund, hlim⟩ := initFromMap_funded storage hb hwhole
    exact reserveAll_funded hcov.toFramed hlim hfund _

theorem Booted.free_of_mem {s₀ s : Pmm} {live : List Alloc} (h : Booted b map s₀) (hr : Reach s₀ s live)
    {a : Alloc} (ha : a ∈ live) {y : ℕ} (hy : y ∈ Set.Ico a.addr a.limit) :
    FreeAtBoot map b.reservations (y / 4096 * 4096) := by
  have hs : Supplies (FreeAtBoot map b.reservations) s₀ :=
    ⟨h.framed, fun a ha => by have := ha.2.1; omega, fun i hi hc => (h.clear_iff i hi).mp hc⟩
  have ho := hr.owned hs
  obtain ⟨i, hi⟩ := ho.holds a ha
  exact hi.frame_of_mem ho.toFramed hy.1 hy.2

theorem not_mem_of_free {reserved : List (ℕ × ℕ)} {y : ℕ} (hy : FreeAtBoot map reserved (y / 4096 * 4096))
    {p n : ℕ} (hr : (p, n) ∈ reserved) : y ∉ Set.Ico p (p + n) := fun hin =>
  hy.2.2.2 _ hr ⟨y, hin.1, hin.2, by omega⟩

theorem Booted.spares_reserved {s₀ : Pmm} (h : Booted b map s₀) (hinfo : b.info ≠ 0)
    (htotal : b.mbTotal < 16 * 2 ^ 20) : Spares s₀ (b.inUse none) := by
  intro s live hr a ha r hin
  refine Set.disjoint_left.mpr fun y hy hyr => ?_
  have hfree := h.free_of_mem hr ha hy
  simp only [Machine.inUse, Option.toList_none, List.map_nil, List.append_nil, List.cons_append,
    List.nil_append, List.mem_cons, List.mem_map] at hin
  rcases hin with rfl | rfl | ⟨t, ht, rfl⟩
  · refine not_mem_of_free hfree (p := b.info) (n := b.mbTotal) ?_ hyr
    have hpos : 0 < b.mbTotal := by
      have := hyr.1
      have := hyr.2
      omega
    rw [Machine.reservations, if_pos ⟨hinfo, hpos, htotal⟩]
    simp
  · have hlt : b.kernelStart < b.kernelEnd := lt_of_le_of_lt hyr.1 hyr.2
    refine not_mem_of_free hfree (p := b.kernelStart) (n := b.kernelEnd - b.kernelStart) ?_ ?_
    · simp [Machine.reservations, hlt]
    · rwa [Nat.add_sub_cancel' hlt.le]
  · refine not_mem_of_free hfree (p := t) (n := 4096) ?_ hyr
    exact List.mem_append_right _ (List.mem_map_of_mem ht)

/-- The boot spares what is in use when no frame of the module that becomes `iso0` was free; and, with a
memory map of whole frames, only then. -/
theorem boot_spares_iff {fuel : ℕ} {s₀ : Pmm} (hinfo : b.info ≠ 0) (htotal : b.mbTotal < 16 * 2 ^ 20)
    (hk : b.kernelEnd < 2 ^ 63) (hmap : readMemoryMap fuel b.mem b.info false = some map)
    (hboot : b.bootPmm fuel storage = some s₀) :
    ∀ module ∈ b.rootModule fuel,
      ((∀ r ∈ module, ∀ y ∈ Set.Ico r.1 r.2, ¬ FreeAtBoot map b.reservations (y / 4096 * 4096)) →
        Spares s₀ (b.inUse module)) ∧
      ((∀ upper, map ≠ .basic upper) → Spares s₀ (b.inUse module) →
        ∀ r ∈ module, ∀ y ∈ Set.Ico r.1 r.2, ¬ FreeAtBoot map b.reservations (y / 4096 * 4096)) := by
  intro module _
  have hbooted := bootPmm_booted hk hmap hboot
  constructor
  · intro hcond s live hr a ha range hin
    have hsplit : range ∈ b.inUse none ∨ ∃ r ∈ module, range = Set.Ico r.1 r.2 := by
      rw [Machine.inUse, List.mem_append] at hin
      refine hin.imp (fun h => ?_) (fun h => ?_)
      · simpa [Machine.inUse] using h
      · obtain ⟨r, hr, rfl⟩ := List.mem_map.mp h
        exact ⟨r, Option.mem_toList.mp hr, rfl⟩
    rcases hsplit with hin | ⟨r, hmem, rfl⟩
    · exact hbooted.spares_reserved hinfo htotal s live hr a ha range hin
    · exact Set.disjoint_left.mpr fun y hy hyr => hcond r hmem y hyr (hbooted.free_of_mem hr ha hy)
  · intro hbasic hspares r hmem y hy hfree
    obtain ⟨i, hi, haddr⟩ := hbooted.index _ ⟨_, Nat.mul_comm _ _⟩ hfree
    have hclear := (hbooted.clear_iff i hi).mpr (haddr.symm ▸ hfree)
    obtain ⟨s, live, hr, ha⟩ := Reach.start.hand_out hbooted.framed (hbooted.funded hbasic) hi hclear
      (fun k hk hc => by have := ((hbooted.clear_iff k hk).mp hc).2.1; omega)
    have hin : Set.Ico r.1 r.2 ∈ b.inUse module := List.mem_append_right _
      (List.mem_map_of_mem (f := fun r : ℕ × ℕ => Set.Ico r.1 r.2) (Option.mem_toList.mpr hmem))
    refine Set.disjoint_left.mp (hspares s live hr _ ha _ hin) ?_ hy
    simp only [Alloc.limit, haddr, Set.mem_Ico]
    omega

def smallMachine (start : ℕ) : Machine where
  mem := fun a =>
    if a < 0x102000 then
      (leBytes 4 80 ++ leBytes 4 0 ++ leBytes 4 6 ++ leBytes 4 40 ++ leBytes 4 24 ++ leBytes 4 0 ++
        leBytes 8 0x100000 ++ leBytes 8 0x10000 ++ leBytes 4 1 ++ leBytes 4 0 ++ leBytes 4 3 ++
        leBytes 4 21 ++ leBytes 4 start ++ leBytes 4 (start + 512) ++ [0x72, 0x6f, 0x6f, 0x74, 0, 0, 0, 0] ++
        leBytes 8 0).getD (a - 0x9000) 0
    else if a < 0x103000 then (leBytes 8 0x103003).getD (a - 0x102000) 0
    else (leBytes 8 0x104003 ++ leBytes 8 0x105003 ++ leBytes 8 0x106003 ++ leBytes 8 0x107003).getD
      (a - 0x103000) 0
  info := 0x9000
  kernelStart := 0x100000
  kernelEnd := 0x102000
  cr3 := 0x102000

theorem smallMachine_map (start : ℕ) (h : start = 0x80000 ∨ start = 0x108000) :
    readMemoryMap 8 (smallMachine start).mem 0x9000 false = some (.mmap [⟨0x100000, 0x10000, 1⟩]) := by
  rcases h with rfl | rfl <;> decide +kernel

/-- The first frame after the loader tables is the module: the first allocation after the boot
returns it. -/
theorem boot_hands_out_module :
    ∃ s₀, (smallMachine 0x108000).bootPmm 8 (fun _ => 0) = some s₀ ∧
      (smallMachine 0x108000).mbTotal < 16 * 2 ^ 20 ∧
      (smallMachine 0x108000).rootModule 8 = some (some (0x108000, 0x108200)) ∧
      (pmmAllocFrames s₀ 1).1 = 0x108000 ∧
      ¬ Spares s₀ ((smallMachine 0x108000).inUse (some (0x108000, 0x108200))) := by
  have hmap := smallMachine_map 0x108000 (.inr rfl)
  obtain ⟨s₀, hboot, haddr⟩ : ∃ s₀, (smallMachine 0x108000).bootPmm 8 (fun _ => 0) = some s₀ ∧
      (pmmAllocFrames s₀ 1).1 = 0x108000 := by
    refine ⟨reserveAll (initFromMap (fun _ => 0) (.mmap [⟨0x100000, 0x10000, 1⟩]))
      (smallMachine 0x108000).reservations, ?_, by decide +kernel⟩
    rw [Machine.bootPmm, pmmInit]
    change ((readMemoryMap 8 (smallMachine 0x108000).mem 0x9000 false).map _).map _ = _
    rw [hmap]
    rfl
  refine ⟨s₀, hboot, by decide +kernel, by decide +kernel, haddr, fun hspares => ?_⟩
  have hstart : Reach s₀ s₀ [] := Reach.start
  have hr := Reach.alloc 1 hstart
  rw [haddr, grant, if_neg (by decide)] at hr
  have hdis := hspares _ _ hr _ List.mem_cons_self (Set.Ico 0x108000 0x108200)
    (List.mem_append_right _ (by simp))
  exact Set.disjoint_left.mp hdis (show 0x108000 ∈ _ by simp [Alloc.limit]) (by simp)

theorem boot_spares_iff_small :
    ∃ s₀, (smallMachine 0x80000).bootPmm 8 (fun _ => 0) = some s₀ ∧
      Spares s₀ ((smallMachine 0x80000).inUse (some (0x80000, 0x80200))) := by
  have hmap := smallMachine_map 0x80000 (.inl rfl)
  have hboot : (smallMachine 0x80000).bootPmm 8 (fun _ => 0) =
      some (reserveAll (initFromMap (fun _ => 0) (.mmap [⟨0x100000, 0x10000, 1⟩]))
        (smallMachine 0x80000).reservations) := by
    rw [Machine.bootPmm, pmmInit]
    change ((readMemoryMap 8 (smallMachine 0x80000).mem 0x9000 false).map _).map _ = _
    rw [hmap]
    rfl
  have hmod : some (0x80000, 0x80200) ∈ (smallMachine 0x80000).rootModule 8 := by decide +kernel
  refine ⟨_, hboot, (boot_spares_iff (by decide) (by decide +kernel) (by decide) hmap hboot _ hmod).1 ?_⟩
  intro r hr y hy hfree
  obtain rfl := Option.mem_some_iff.mp hr
  have hlow := hfree.2.1
  have hlt : y < 0x80200 := hy.2
  omega

end DexOs.Boot
