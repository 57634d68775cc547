import DexOs.FrameFirstFit
import DexOs.PartitionDiscovery

/-! `ramdisk_create`: the rounding of the size and the frames behind the disk. -/

namespace DexOs

open DexOs.Lib DexOs.Frames

structure Kernel (H : Type) where
  mem : Memory
  pmm : Pmm
  heap : H
  devices : Registry Memory

def blockDefaultSector : ℕ := 512

def roundedBytes (bytes : ℕ) : ℕ := (bytes + blockDefaultSector - 1) % 2 ^ 64 / blockDefaultSector * blockDefaultSector

def backingPages (rounded : ℕ) : ℕ := (rounded + 4095) % 2 ^ 64 / 4096

section Create

variable {H : Type} [KernelAlloc H]

def ramdiskCreate (name : Option (List UInt8)) (bytes : ℕ) (k : Kernel H) : ℤ × Kernel H :=
  match name with
  | none => (-1, k)
  | some name =>
    if bytes = 0 then (-1, k)
    else
      let rounded := roundedBytes bytes
      match KernelAlloc.kmalloc k.heap 16 with -- sizeof(ramdisk_t)
      | (none, h) => (-1, { k with heap := h })
      | (some _, h) =>
        let frames := pmmAllocFramesBelow k.pmm (backingPages rounded) (2 ^ 30)
        let paddr := frames.1
        let k := { k with heap := h, pmm := frames.2 }
        if paddr = 0 then (-1, k)
        else
          let k := { k with mem := fun i => if paddr ≤ i ∧ i < paddr + rounded then 0 else k.mem i }
          match KernelAlloc.kmalloc k.heap 56 with -- sizeof(block_device_t)
          | (none, h) => (-1, { k with heap := h })
          | (some bd, h) =>
            (0, { k with heap := h, devices := blockRegister k.devices bd ⟨ramdiskDevice name ⟨paddr, rounded⟩, none⟩ })

variable {name : Option (List UInt8)} {bytes : ℕ} {k : Kernel H}

theorem ramdiskCreate_ok (h : (ramdiskCreate name bytes k).1 = 0) :
    ∃ n bd, name = some n ∧ 0 < bytes ∧
      (pmmAllocFramesBelow k.pmm (backingPages (roundedBytes bytes)) (2 ^ 30)).1 ≠ 0 ∧
      (ramdiskCreate name bytes k).2.pmm =
        (pmmAllocFramesBelow k.pmm (backingPages (roundedBytes bytes)) (2 ^ 30)).2 ∧
      (ramdiskCreate name bytes k).2.devices = blockRegister k.devices bd
        ⟨ramdiskDevice n ⟨(pmmAllocFramesBelow k.pmm (backingPages (roundedBytes bytes)) (2 ^ 30)).1,
          roundedBytes bytes⟩, none⟩ := by
  have hfail : ¬ (-1 : ℤ) = 0 := by decide
  unfold ramdiskCreate at h ⊢
  cases name with
  | none => exact absurd h hfail
  | some n =>
    dsimp only at h ⊢
    by_cases h0 : bytes = 0
    · rw [if_pos h0] at h
      exact absurd h hfail
    rw [if_neg h0] at h ⊢
    obtain ⟨p, heap, hp⟩ : ∃ p heap, KernelAlloc.kmalloc k.heap 16 = (p, heap) := ⟨_, _, rfl⟩
    rw [hp] at h ⊢
    cases p with
    | none => exact absurd h hfail
    | some p =>
      dsimp only at h ⊢
      by_cases hz : (pmmAllocFramesBelow k.pmm (backingPages (roundedBytes bytes)) (2 ^ 30)).1 = 0
      · rw [if_pos hz] at h
        exact absurd h hfail
      rw [if_neg hz] at h ⊢
      obtain ⟨bd, heap', hbd⟩ : ∃ bd heap', KernelAlloc.kmalloc heap 56 = (bd, heap') := ⟨_, _, rfl⟩
      rw [hbd] at h ⊢
      cases bd with
      | none => exact absurd h hfail
      | some bd => exact ⟨n, bd, rfl, Nat.pos_of_ne_zero h0, hz, rfl, rfl⟩

theorem allocBelow_run {s : Pmm} {count max : ℕ} (hmax : max ≤ 2 ^ 64) (h : (pmmAllocFramesBelow s count max).1 ≠ 0) :
    0 < count ∧ s.FreeRun count max (pmmAllocFramesBelow s count max).1 := by
  rw [pmmAllocFramesBelow_eq] at h ⊢
  rcases allocBelowIndex_cases s count (s.limitIndex max) with he | ⟨start, hc, hle, hclear, -, he⟩
  · rw [he] at h
    exact absurd rfl h
  · have hrun : s.FreeRun count max (s.frameAddr start) := (freeRun_iff hc).mpr ⟨start, rfl, hle, hclear⟩
    obtain ⟨i, hi, hfree, hend⟩ := hrun
    have hmod : s.frameAddr start % 2 ^ 64 = s.frameAddr start := Nat.mod_eq_of_lt (by omega)
    rw [he, hmod]
    exact ⟨hc, i, hi, hfree, hend⟩

theorem roundedBytes_cases (hb : bytes < 2 ^ 64) :
    roundedBytes bytes = 0 ∨ bytes ≤ roundedBytes bytes ∧ roundedBytes bytes < bytes + 512 := by
  unfold roundedBytes blockDefaultSector
  omega

theorem backingPages_cases {rounded : ℕ} (hr : rounded < 2 ^ 64) :
    backingPages rounded = 0 ∨ rounded ≤ backingPages rounded * 4096 := by
  unfold backingPages
  omega

theorem roundedBytes_lt (bytes : ℕ) : roundedBytes bytes < 2 ^ 64 := by
  unfold roundedBytes blockDefaultSector
  omega

/-- The device of a successful `ramdisk_create` is as large as was asked for, up to the next sector, and lies in the
frames that were allocated for it. -/
theorem ramdiskCreate_backed (hb : bytes < 2 ^ 64) (h : (ramdiskCreate name bytes k).1 = 0) :
    ∃ n rd pages, name = some n ∧
      ((ramdiskCreate name bytes k).2.devices.record (ramdiskCreate name bytes k).2.devices.head).dev = ramdiskDevice n rd ∧
      bytes ≤ (ramdiskDevice n rd).sectorCount * 512 ∧ (ramdiskDevice n rd).sectorCount * 512 < bytes + 512 ∧
      (ramdiskDevice n rd).sectorCount * 512 = rd.bytes ∧
      pmmAllocFramesBelow k.pmm pages (2 ^ 30) = (rd.data, (ramdiskCreate name bytes k).2.pmm) ∧
      k.pmm.FreeRun pages (2 ^ 30) rd.data ∧
      rd.data + (ramdiskDevice n rd).sectorCount * 512 ≤ rd.data + pages * 4096 ∧ rd.data + pages * 4096 ≤ 2 ^ 30 := by
  obtain ⟨n, bd, hname, hpos, hpaddr, hpmm, hdev⟩ := ramdiskCreate_ok h
  obtain ⟨hpages, hrun⟩ := allocBelow_run (by decide) hpaddr
  have hround := roundedBytes_cases hb
  have hback := backingPages_cases (roundedBytes_lt bytes)
  have hzero : backingPages 0 = 0 := by decide
  have hne : roundedBytes bytes ≠ 0 := by
    intro he
    rw [he, hzero] at hpages
    exact absurd hpages (Nat.lt_irrefl 0)
  have hcount : roundedBytes bytes / 512 * 512 = roundedBytes bytes := by
    unfold roundedBytes blockDefaultSector
    omega
  refine ⟨n, ⟨_, roundedBytes bytes⟩, backingPages (roundedBytes bytes), hname, ?_, ?_, ?_, hcount, ?_, hrun, ?_, ?_⟩
  · rw [hdev, blockRegister]
    dsimp only
    rw [Function.update_self]
  · change bytes ≤ roundedBytes bytes / 512 * 512
    omega
  · change roundedBytes bytes / 512 * 512 < bytes + 512
    omega
  · rw [hpmm]
  · change _ + roundedBytes bytes / 512 * 512 ≤ _
    omega
  · obtain ⟨i, -, -, hend⟩ := hrun
    exact hend

end Create

def smallKernel : Kernel Unit := ⟨fun _ => 0, fourFrames, (), ⟨0, fun _ => 0, fun _ => ⟨ramdiskDevice [] ⟨0, 0⟩, none⟩⟩⟩

theorem ramdiskCreate_backed_small :
    ∃ n rd pages, some [114] = some n ∧
      pmmAllocFramesBelow fourFrames pages (2 ^ 30) = (rd.data, (ramdiskCreate (some [114]) 513 smallKernel).2.pmm) ∧
      513 ≤ (ramdiskDevice n rd).sectorCount * 512 ∧ rd.data + pages * 4096 ≤ 2 ^ 30 := by
  obtain ⟨n, rd, pages, hname, -, hle, -, -, halloc, -, -, hend⟩ :=
    @ramdiskCreate_backed Unit _ (some [114]) 513 smallKernel (by decide) (by decide +kernel)
  exact ⟨n, rd, pages, hname, halloc, hle, hend⟩

section Mkram

def hexDigit (c : UInt8) : Option ℕ :=
  if 48 ≤ c ∧ c ≤ 57 then some (c.toNat - 48)
  else if 97 ≤ c ∧ c ≤ 102 then some (c.toNat - 97 + 10)
  else if 65 ≤ c ∧ c ≤ 70 then some (c.toNat - 65 + 10)
  else none

def mkramSize (sz : ℕ) : List UInt8 → ℕ
  | [] => sz
  | c :: cs =>
    match hexDigit c with
    | some v => mkramSize ((sz * 16 % 2 ^ 64) ||| v) cs
    | none => sz

theorem hexDigit_lt {c : UInt8} {v : ℕ} (h : hexDigit c = some v) : v < 16 := by
  have hrange {lo hi : UInt8} (hc : lo ≤ c ∧ c ≤ hi) : c.toNat - lo.toNat ≤ hi.toNat - lo.toNat :=
    Nat.sub_le_sub_right (UInt8.le_iff_toNat_le.mp hc.2) _
  unfold hexDigit at h
  split at h
  case isTrue hc =>
    have hle : c.toNat - 48 ≤ 9 := hrange hc
    obtain rfl := Option.some.inj h
    omega
  split at h
  case isTrue hc =>
    have hle : c.toNat - 97 ≤ 5 := hrange hc
    obtain rfl := Option.some.inj h
    omega
  split at h
  case isTrue hc =>
    have hle : c.toNat - 65 ≤ 5 := hrange hc
    obtain rfl := Option.some.inj h
    omega
  case isFalse => exact absurd h (Option.some_ne_none v).symm

theorem mkramSize_lt {sz : ℕ} (h : sz < 2 ^ 64) (cs : List UInt8) : mkramSize sz cs < 2 ^ 64 := by
  induction cs generalizing sz with
  | nil => exact h
  | cons c cs ih =>
    rw [mkramSize]
    split
    case h_1 v hv =>
      apply ih
      apply Nat.or_lt_two_pow
      · exact Nat.mod_lt _ (Nat.two_pow_pos 64)
      · exact (hexDigit_lt hv).trans (by decide)
    case h_2 => exact h

variable {H : Type} [KernelAlloc H]

def mkram (name size : List UInt8) (k : Kernel H) : Option ℤ × Kernel H :=
  let sz := mkramSize 0 size
  if name = [] ∨ sz = 0 then (none, k)
  else
    let r := ramdiskCreate (some name) sz k
    (some r.1, r.2)

theorem mkram_backed {name size : List UInt8} {k : Kernel H} (h : (mkram name size k).1 = some 0) :
    ∃ rd pages,
      ((mkram name size k).2.devices.record (mkram name size k).2.devices.head).dev = ramdiskDevice name rd ∧
      k.pmm.FreeRun pages (2 ^ 30) rd.data ∧ (ramdiskDevice name rd).sectorCount * 512 ≤ pages * 4096 := by
  unfold mkram at h ⊢
  dsimp only at h ⊢
  by_cases husage : name = [] ∨ mkramSize 0 size = 0
  · rw [if_pos husage] at h
    exact absurd h (Option.some_ne_none _).symm
  · rw [if_neg husage] at h ⊢
    obtain ⟨n, rd, pages, hname, hdev, -, -, -, -, hrun, hfit, -⟩ :=
      ramdiskCreate_backed (mkramSize_lt (by decide) size) (Option.some.inj h)
    obtain rfl := Option.some.inj hname
    exact ⟨rd, pages, hdev, hrun, by omega⟩

end Mkram

end DexOs
