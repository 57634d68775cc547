import DexOs.Multiboot
import DexOs.Lib.Bitmap

/-! The physical memory manager of `pmm.c`: one bitmap over the usable frames below 4 GiB. -/

namespace DexOs.Frames

open DexOs.Lib DexOs.Mb2

@[irreducible] def frameSize : ℕ := 4096

theorem frameSize_eq : frameSize = 4096 := by unfold frameSize; rfl

structure Region where
  base : ℕ
  len : ℕ

def maxRegions : ℕ := 64
def maxFrames : ℕ := 1024 * 1024

def cap : ℕ := 4 * 1024 * 1024 * 1024

structure Pmm where
  regions : List Region
  bitmapBase : ℕ
  bitmapLimit : ℕ
  totalPhys : ℕ
  totalUsable : ℕ
  free : ℕ
  bitmap : Bitmap

def addRegion (rs : List Region) (base len : ℕ) : List Region :=
  if len = 0 ∨ maxRegions ≤ rs.length then rs
  else if cap ≤ base then rs
  else
    let last := min ((base + len) % 2 ^ 64) cap
    if last ≤ base then rs else rs ++ [⟨base, last - base⟩]

def addEntry (usable : ℕ) (rs : List Region) (e : MapEntry) : List Region :=
  if e.type = usable then
    let first := alignUp e.base frameSize
    let last := alignDown ((e.length + e.base) % 2 ^ 64) frameSize
    addRegion rs first (if first < last then last - first else 0)
  else rs

def regionsOf : MemoryMap → List Region
  | .efi es => es.foldl (addEntry 7) []
  | .mmap es => es.foldl (addEntry 1) []
  | .basic upper => if 0 < upper * 1024 then addRegion [] 0x100000 (upper * 1024) else []
  | .missing => []

def widen (b : ℕ × ℕ) (r : Region) : ℕ × ℕ :=
  let last := (r.base + r.len) % 2 ^ 64
  if cap ≤ r.base then b else (min b.1 r.base, max b.2 (min last cap))

def bounds (rs : List Region) : ℕ × ℕ := rs.foldl widen (2 ^ 64 - 1, 0)

def buildBitmapBounds (s : Pmm) : Pmm :=
  let b := bounds s.regions
  if s.regions = [] ∨ b.2 ≤ b.1 then { s with bitmapBase := 0, bitmapLimit := 0 }
  else
    let limit := if maxFrames * frameSize < b.2 - b.1 then b.1 + maxFrames * frameSize else b.2
    let frames := (limit - b.1) / frameSize
    { s with
      bitmapBase := b.1
      bitmapLimit := limit
      bitmap := fun k => if k < (frames + 7) / 8 then 0 else s.bitmap k }

def Pmm.frames (s : Pmm) : ℕ := sub64 s.bitmapLimit s.bitmapBase / frameSize

def Pmm.addrToIndex (s : Pmm) (paddr : ℕ) : ℕ := sub64 paddr s.bitmapBase / frameSize

def Pmm.clamp (s : Pmm) (paddr size : ℕ) : ℕ × ℕ :=
  (max (alignDown paddr frameSize) s.bitmapBase, min (alignUp (paddr + size) frameSize) s.bitmapLimit)

def markRange (s : Pmm) (paddr size : ℕ) (used : Bool) : Pmm :=
  if size = 0 then s
  else
    let c := s.clamp paddr size
    if c.2 ≤ c.1 then s
    else
      let i0 := s.addrToIndex c.1
      { s with bitmap := s.bitmap.fill used (s.addrToIndex c.2 - i0) i0 }

def reserveFrames : ℕ → ℕ → Pmm → Pmm
  | 0, _, s => s
  | n + 1, a, s =>
    let idx := s.addrToIndex a
    reserveFrames n (a + frameSize)
      (if s.bitmap.test idx then s
        else { s with bitmap := s.bitmap.set idx, free := sub64 s.free frameSize })

def pmmReserve (s : Pmm) (paddr size : ℕ) : Pmm :=
  let c := s.clamp paddr size
  reserveFrames ((c.2 - c.1 + (frameSize - 1)) / frameSize) c.1 s

def freeRegions : List Region → Pmm → Pmm
  | [], s => s
  | r :: rs, s =>
    let first := max r.base s.bitmapBase
    let last := min ((r.base + r.len) % 2 ^ 64) s.bitmapLimit
    freeRegions rs
      (if first < last then
        { markRange s first (last - first) false with free := (s.free + (last - first)) % 2 ^ 64 }
      else s)

def totalLen (rs : List Region) : ℕ := rs.foldl (fun n r => (n + r.len) % 2 ^ 64) 0

def initFromMap (storage : Bitmap) (map : MemoryMap) : Pmm :=
  let rs := regionsOf map
  let s := buildBitmapBounds ⟨rs, 0, 0, totalLen rs, totalLen rs, 0, storage⟩
  let s := markRange s s.bitmapBase (sub64 s.bitmapLimit s.bitmapBase) true
  let s := freeRegions s.regions s
  let s := pmmReserve s s.bitmapBase frameSize
  pmmReserve s 0 0x100000

def pmmInit (fuel : ℕ) (storage : Bitmap) (m : Memory) (info : ℕ) (fromUefi : Bool) : Option Pmm :=
  (readMemoryMap fuel m info fromUefi).map (initFromMap storage)

/-- The run scan over `n` more frames from index `i` on; the result is the start of a run. -/
def scanRun (b : Bitmap) (count : ℕ) : ℕ → ℕ → ℕ → ℕ → Option ℕ
  | 0, _, _, _ => none
  | n + 1, i, run, runStart =>
    if b.test i = false then
      let runStart := if run = 0 then i else runStart
      if count ≤ run + 1 then some runStart else scanRun b count n (i + 1) (run + 1) runStart
    else scanRun b count n (i + 1) 0 runStart

def allocBelowIndex (s : Pmm) (count limitIdx : ℕ) : ℕ × Pmm :=
  if count = 0 then (0, s)
  else
    let need := count * frameSize % 2 ^ 64
    if s.free < need then (0, s)
    else match scanRun s.bitmap count limitIdx 0 0 0 with
      | none => (0, s)
      | some start =>
        ((s.bitmapBase + start * frameSize) % 2 ^ 64,
          { s with bitmap := s.bitmap.fill true count start, free := sub64 s.free need })

def pmmAllocFrames (s : Pmm) (count : ℕ) : ℕ × Pmm := allocBelowIndex s count s.frames

def pmmAllocFramesBelow (s : Pmm) (count maxPhysExclusive : ℕ) : ℕ × Pmm :=
  let limitIdx := if s.bitmapBase < maxPhysExclusive
    then (maxPhysExclusive - s.bitmapBase) / frameSize else 0
  allocBelowIndex s count (min limitIdx s.frames)

def freeLoop : ℕ → ℕ → Pmm → Pmm
  | 0, _, s => s
  | n + 1, i, s =>
    if s.frames ≤ i then s
    else freeLoop n (i + 1)
      (if s.bitmap.test i
        then { s with bitmap := s.bitmap.clear i, free := (s.free + frameSize) % 2 ^ 64 } else s)

def pmmFreeFrames (s : Pmm) (paddr count : ℕ) : Pmm :=
  if count = 0 ∨ paddr < s.bitmapBase ∨ s.bitmapLimit ≤ paddr then s
  else freeLoop count (s.addrToIndex paddr) s

end DexOs.Frames
