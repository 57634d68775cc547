import DexOs.Lib.Bytes

/-! Block devices: the operation table, RAM disks and MBR partitions. -/

namespace DexOs

open DexOs.Lib

class KernelAlloc (H : Type) where
  kmalloc : H → ℕ → Option ℕ × H
  kfree : H → ℕ → H
  kmalloc_zero : ∀ h, (kmalloc h 0).1 = none

instance : KernelAlloc Unit where
  kmalloc _ n := (if n = 0 then none else some 16, ())
  kfree _ _ := ()
  kmalloc_zero _ := rfl

/-- `block_device_t` with its `block_ops_t`, closed over the device. An operation maps the state
behind the device, the sector and the sector count to its return value; a read also fills a
buffer. `none` is a null function pointer. -/
structure BlockDevice (σ : Type) where
  name : List UInt8
  sectorSize : ℕ
  sectorCount : ℕ
  read : Option (σ → ℕ → ℕ → (ℤ × List UInt8) × σ)
  write : Option (σ → ℕ → List UInt8 → ℕ → ℤ × σ)

abbrev Memory := ℕ → UInt8

structure Ramdisk where
  data : ℕ
  bytes : ℕ

def rdRange (rd : Ramdisk) (sectorSize lba count : ℕ) : Option (ℕ × ℕ) :=
  let off := lba * sectorSize % 2 ^ 64
  let len := count * sectorSize % 2 ^ 64
  if rd.bytes < (off + len) % 2 ^ 64 then none else some (off, len)

def rdRead (rd : Ramdisk) (sectorSize : ℕ) (m : Memory) (lba count : ℕ) : (ℤ × List UInt8) × Memory :=
  if count = 0 then ((0, []), m)
  else match rdRange rd sectorSize lba count with
    | none => ((-1, []), m)
    | some (off, len) => ((count, peek m ((rd.data + off) % 2 ^ 64) len), m)

def rdWrite (rd : Ramdisk) (sectorSize : ℕ) (m : Memory) (lba : ℕ) (buf : List UInt8) (count : ℕ) :
    ℤ × Memory :=
  match rdRange rd sectorSize lba count with
  | none => (-1, m)
  | some (off, len) => (count, poke m ((rd.data + off) % 2 ^ 64) (buf.take len))

def ramdiskDevice (name : List UInt8) (rd : Ramdisk) : BlockDevice Memory where
  name := name.take 15
  sectorSize := 512
  sectorCount := rd.bytes / 512
  read := some (rdRead rd 512)
  write := some (rdWrite rd 512)

structure Memdisk where
  base : ℕ
  bytes : ℕ
  writable : Bool

def memRead (p : Memdisk) (sectorSize : ℕ) (m : Memory) (lba count : ℕ) : (ℤ × List UInt8) × Memory :=
  match rdRange ⟨p.base, p.bytes⟩ sectorSize lba count with
  | none => ((-1, []), m)
  | some (off, need) => ((count, peek m ((p.base + off) % 2 ^ 64) need), m)

def memWrite (p : Memdisk) (sectorSize : ℕ) (m : Memory) (lba : ℕ) (buf : List UInt8) (count : ℕ) :
    ℤ × Memory :=
  if p.writable = false then (-1, m)
  else match rdRange ⟨p.base, p.bytes⟩ sectorSize lba count with
    | none => (-1, m)
    | some (off, need) => (count, poke m ((p.base + off) % 2 ^ 64) (buf.take need))

def memdiskDevice (name : List UInt8) (p : Memdisk) (sectorSize : ℕ) : BlockDevice Memory where
  name := name.take 15
  sectorSize := sectorSize
  sectorCount := p.bytes / sectorSize
  read := some (memRead p sectorSize)
  write := some (memWrite p sectorSize)

def memdiskRegister {H : Type} [KernelAlloc H] (name : List UInt8) (p : Memdisk) (sectorSize : ℕ) (h : H) :
    Option (BlockDevice Memory) × H :=
  if p.base = 0 ∨ p.bytes = 0 ∨ sectorSize = 0 then (none, h)
  else if p.bytes % sectorSize ≠ 0 then (none, h)
  else match KernelAlloc.kmalloc h 56 with -- sizeof(block_device_t)
    | (none, h) => (none, h)
    | (some _, h) => match KernelAlloc.kmalloc h 24 with -- sizeof(memdisk_priv_t)
      | (none, h) => (none, h)
      | (some _, h) => (some (memdiskDevice name p sectorSize), h)

structure Partition (σ : Type) where
  name : List UInt8
  parent : BlockDevice σ
  lbaBase : ℕ
  lbaCount : ℕ

variable {σ H : Type}

def Partition.request (p : Partition σ) (lba count : ℕ) : Option ℕ :=
  if p.lbaCount < (lba + count) % 2 ^ 64 then none else some ((p.lbaBase + lba) % 2 ^ 64)

def partRead (p : Partition σ) (s : σ) (lba count : ℕ) : (ℤ × List UInt8) × σ :=
  match p.parent.read, p.request lba count with
  | some read, some start => read s start count
  | _, _ => ((-1, []), s)

def partWrite (p : Partition σ) (s : σ) (lba : ℕ) (buf : List UInt8) (count : ℕ) : ℤ × σ :=
  match p.parent.write, p.request lba count with
  | some write, some start => write s start buf count
  | _, _ => (-1, s)

def Partition.toDevice (p : Partition σ) : BlockDevice σ where
  name := p.name
  sectorSize := p.parent.sectorSize
  sectorCount := p.lbaCount
  read := some (partRead p)
  write := some (partWrite p)

def partitionName (parent : List UInt8) (i : ℕ) : List UInt8 :=
  (parent.take 15).take 12 ++ [112, UInt8.ofNat (49 + i)]

structure MbrEntry where
  type : ℕ
  start : ℕ
  count : ℕ

def mbrEntry (mbr : List UInt8) (i : ℕ) : MbrEntry where
  type := leNat (byteAt mbr) 1 (446 + i * 16 + 4)
  start := leNat (byteAt mbr) 4 (446 + i * 16 + 8)
  count := leNat (byteAt mbr) 4 (446 + i * 16 + 12)

section Scan

variable [KernelAlloc H]

def scanEntry (d : BlockDevice σ) (mbr : List UInt8) (h : H) (i : ℕ) : Option (Partition σ) × H :=
  let e := mbrEntry mbr i
  if e.type = 0 ∨ e.count = 0 then (none, h)
  else match KernelAlloc.kmalloc h 56 with -- sizeof(block_device_t)
    | (none, h) => (none, h)
    | (some _, h) => match KernelAlloc.kmalloc h 24 with -- sizeof(part_priv_t)
      | (none, h) => (none, h)
      | (some _, h) => (some ⟨partitionName d.name i, d, e.start, e.count⟩, h)

def scanEntries (d : BlockDevice σ) (mbr : List UInt8) : H → List ℕ → List (Partition σ) × H
  | h, [] => ([], h)
  | h, i :: is =>
    let r := scanEntry d mbr h i
    let rest := scanEntries d mbr r.2 is
    (r.1.toList ++ rest.1, rest.2)

def scanDevice (d : BlockDevice σ) (s : σ) (h : H) : List (Partition σ) × σ × H :=
  match d.read with
  | none => ([], s, h)
  | some read =>
    if d.sectorSize ≠ 512 then ([], s, h)
    else
      let r := read s 0 1
      if r.1.1 ≠ 1 then ([], r.2, h)
      else if byteAt r.1.2 510 ≠ 0x55 ∨ byteAt r.1.2 511 ≠ 0xAA then ([], r.2, h)
      else
        let e := scanEntries d r.1.2 h [0, 1, 2, 3]
        (e.1, r.2, e.2)

/-- `block_scan_partitions` over the registered devices. New devices are put in front of the list,
so the scan does not meet them. The result is the partitions in the order of their registration. -/
def blockScanPartitions : List (BlockDevice σ) → σ → H → List (Partition σ) × σ × H
  | [], s, h => ([], s, h)
  | d :: ds, s, h =>
    let r := scanDevice d s h
    let rest := blockScanPartitions ds r.2.1 r.2.2
    (r.1 ++ rest.1, rest.2)

end Scan

end DexOs
