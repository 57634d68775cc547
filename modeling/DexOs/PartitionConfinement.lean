import DexOs.BlockDevice
import Mathlib.Order.Interval.Set.Basic
import Mathlib.Tactic.IntervalCases

/-! Which requests a partition confines to its own sectors. -/

namespace DexOs

open DexOs.Lib

variable {σ H : Type}

def Partition.Inside (p : Partition σ) (lba count : ℕ) : Prop := lba + count ≤ p.lbaCount

def Partition.asked (p : Partition σ) (lba count : ℕ) : Set ℕ :=
  {x | ∃ start, p.request lba count = some start ∧ start ≤ x ∧ x < start + count}

/-- Only sectors of the partition are asked for, and a request that is not wholly inside returns
-1 without a change. -/
structure Partition.Confines (p : Partition σ) (lba count : ℕ) : Prop where
  asked : p.asked lba count ⊆ Set.Ico p.lbaBase (p.lbaBase + p.lbaCount)
  read : ¬ p.Inside lba count → ∀ s, (partRead p s lba count).1.1 = -1 ∧ (partRead p s lba count).2 = s
  write : ¬ p.Inside lba count → ∀ s buf, partWrite p s lba buf count = (-1, s)

section Scan

variable [KernelAlloc H]

structure Partition.Registered (p : Partition σ) : Prop where
  base_lt : p.lbaBase < 2 ^ 32
  count_lt : p.lbaCount < 2 ^ 32
  count_pos : 0 < p.lbaCount
  reads : p.parent.read.isSome

theorem scanEntry_registered {d : BlockDevice σ} (hd : d.read.isSome) {mbr : List UInt8} {h : H}
    {i : ℕ} {p : Partition σ} (hp : (scanEntry d mbr h i).1 = some p) : p.Registered := by
  unfold scanEntry at hp
  dsimp only at hp
  split_ifs at hp with he
  split at hp
  · cases hp
  split at hp
  · cases hp
  obtain rfl := Option.some.inj hp
  exact ⟨leNat_lt _ 4 _, leNat_lt _ 4 _, Nat.pos_of_ne_zero (fun h0 => he (.inr h0)), hd⟩

theorem scanEntries_registered {d : BlockDevice σ} (hd : d.read.isSome) {mbr : List UInt8} {h : H}
    {is : List ℕ} {p : Partition σ} (hp : p ∈ (scanEntries d mbr h is).1) : p.Registered := by
  induction is generalizing h with
  | nil => simp [scanEntries] at hp
  | cons i is ih =>
    simp only [scanEntries, List.mem_append, Option.mem_toList] at hp
    rcases hp with hp | hp
    · exact scanEntry_registered hd hp
    · exact ih hp

theorem scanDevice_registered {d : BlockDevice σ} {s : σ} {h : H} {p : Partition σ}
    (hp : p ∈ (scanDevice d s h).1) : p.Registered := by
  unfold scanDevice at hp
  split at hp
  · simp at hp
  · rename_i read hread
    dsimp only at hp
    split_ifs at hp
    all_goals first
      | simp at hp; done
      | exact scanEntries_registered (by simp [hread]) hp

theorem scan_registered {devs : List (BlockDevice σ)} {s : σ} {h : H} {p : Partition σ}
    (hp : p ∈ (blockScanPartitions devs s h).1) : p.Registered := by
  induction devs generalizing s h with
  | nil => simp [blockScanPartitions] at hp
  | cons d ds ih =>
    simp only [blockScanPartitions, List.mem_append] at hp
    rcases hp with hp | hp
    · exact scanDevice_registered hp
    · exact ih hp

end Scan

theorem request_of_inside {p : Partition σ} (hp : p.Registered) {lba count : ℕ}
    (hi : p.Inside lba count) : p.request lba count = some (p.lbaBase + lba) := by
  have hb := hp.base_lt
  have hc := hp.count_lt
  unfold Partition.Inside at hi
  have hmod : (lba + count) % 2 ^ 64 = lba + count := Nat.mod_eq_of_lt (by omega)
  rw [Partition.request, hmod, if_neg (by omega), Nat.mod_eq_of_lt (by omega)]

theorem confines_of_request_none {p : Partition σ} {lba count : ℕ}
    (hr : p.request lba count = none) : p.Confines lba count where
  asked := by
    rintro x ⟨start, hs, -⟩
    simp [hr] at hs
  read _ s := by
    unfold partRead
    rw [hr]
    cases p.parent.read <;> exact ⟨rfl, rfl⟩
  write _ s buf := by
    unfold partWrite
    rw [hr]
    cases p.parent.write <;> rfl

theorem confines_of_inside {p : Partition σ} (hp : p.Registered) {lba count : ℕ}
    (hi : p.Inside lba count) : p.Confines lba count where
  asked := by
    rintro x ⟨start, hs, h1, h2⟩
    rw [request_of_inside hp hi] at hs
    obtain rfl := Option.some.inj hs
    unfold Partition.Inside at hi
    exact ⟨by omega, by omega⟩
  read hn := absurd hi hn
  write hn := absurd hi hn

theorem not_confines_of_wrap {p : Partition σ} (hp : p.Registered) {lba count : ℕ}
    (hl : lba < 2 ^ 64) (hc : count < 2 ^ 32) (hw : 2 ^ 64 ≤ lba + count)
    (hpass : lba + count - 2 ^ 64 ≤ p.lbaCount) : ¬ p.Confines lba count := by
  intro h
  have hb := hp.base_lt
  have hn := hp.count_lt
  have hmod : (lba + count) % 2 ^ 64 = lba + count - 2 ^ 64 := by omega
  have hreq : p.request lba count = some ((p.lbaBase + lba) % 2 ^ 64) := by
    rw [Partition.request, hmod, if_neg (by omega)]
  have hin := h.asked ⟨_, hreq, le_refl _, by omega⟩
  simp only [Set.mem_Ico] at hin
  omega

/-- A registered partition confines exactly the requests whose end does not wrap around 2^64 to a
number of sectors that the guard lets through. -/
theorem confines_iff [KernelAlloc H] {devs : List (BlockDevice σ)} {s : σ} {h : H} {p : Partition σ}
    (hp : p ∈ (blockScanPartitions devs s h).1) {lba count : ℕ} (hl : lba < 2 ^ 64)
    (hc : count < 2 ^ 32) :
    p.Confines lba count ↔ lba + count < 2 ^ 64 ∨ p.lbaCount < lba + count - 2 ^ 64 := by
  have hr := scan_registered hp
  constructor
  · intro h
    by_contra hn
    exact not_confines_of_wrap hr hl hc (by omega) (by omega) h
  · intro hcond
    by_cases hi : p.Inside lba count
    · exact confines_of_inside hr hi
    · unfold Partition.Inside at hi
      refine confines_of_request_none ?_
      rw [Partition.request, if_pos (by omega)]

def smallDisk : BlockDevice Memory := ramdiskDevice [114, 97, 109, 48] ⟨0x200000, 4096⟩

def smallDiskMemory : Memory := fun a =>
  if a = 0x200000 + 450 then 7 else if a = 0x200000 + 454 then 1 else if a = 0x200000 + 458 then 4
  else if a = 0x200000 + 510 then 0x55 else if a = 0x200000 + 511 then 0xAA else 0

def smallPartition : Partition Memory := ⟨[114, 97, 109, 48, 112, 49], smallDisk, 1, 4⟩

theorem smallDisk_byte {i : ℕ} (hi : i < 512) :
    byteAt (peek smallDiskMemory 0x200000 512) i = smallDiskMemory (0x200000 + i) :=
  byteAt_peek _ _ hi

theorem smallPartition_scanned :
    (blockScanPartitions [smallDisk] smallDiskMemory ()).1 = [smallPartition] := by
  have hread : rdRead ⟨0x200000, 4096⟩ 512 smallDiskMemory 0 1 =
      ((1, peek smallDiskMemory 0x200000 512), smallDiskMemory) := by simp [rdRead, rdRange]
  have hentry (i : ℕ) (hi : i < 4) : mbrEntry (peek smallDiskMemory 0x200000 512) i =
      if i = 0 then ⟨7, 1, 4⟩ else ⟨0, 0, 0⟩ := by
    interval_cases i <;>
      simp [mbrEntry, leNat, smallDisk_byte, smallDiskMemory]
  simp [blockScanPartitions, scanDevice, smallDisk, ramdiskDevice, hread, smallDisk_byte,
    smallDiskMemory, scanEntries, scanEntry, hentry, KernelAlloc.kmalloc, smallPartition, partitionName]

theorem confines_iff_small : smallPartition.Confines 2 2 ↔
    2 + 2 < 2 ^ 64 ∨ smallPartition.lbaCount < 2 + 2 - 2 ^ 64 := by
  have hmem : smallPartition ∈ (blockScanPartitions [smallDisk] smallDiskMemory ()).1 := by
    rw [smallPartition_scanned]
    exact List.mem_singleton_self _
  exact confines_iff hmem (by decide) (by decide)

theorem smallPartition_wrapped (m : Memory) (buf : List UInt8) :
    partWrite smallPartition m (2 ^ 64 - 1) buf 1 = (1, poke m 0x200000 (buf.take 512)) := by
  simp [partWrite, Partition.request, smallPartition, smallDisk, ramdiskDevice, rdWrite, rdRange]

theorem partWrite_overwrites_mbr :
    smallPartition ∈ (blockScanPartitions [smallDisk] smallDiskMemory ()).1 ∧
      ¬ smallPartition.Confines (2 ^ 64 - 1) 1 ∧ smallDiskMemory (0x200000 + 510) = 0x55 ∧
      (partWrite smallPartition smallDiskMemory (2 ^ 64 - 1) (List.replicate 512 0) 1).1 = 1 ∧
      (partWrite smallPartition smallDiskMemory (2 ^ 64 - 1) (List.replicate 512 0) 1).2
        (0x200000 + 510) = 0 := by
  have hmem : smallPartition ∈ (blockScanPartitions [smallDisk] smallDiskMemory ()).1 := by
    rw [smallPartition_scanned]
    exact List.mem_singleton_self _
  rw [smallPartition_wrapped]
  refine ⟨hmem, ?_, by decide, rfl, ?_⟩
  · exact not_confines_of_wrap (scan_registered hmem) (by decide) (by decide) (by decide) (by decide)
  · decide +kernel

end DexOs
