import DexOs.Exfat
import DexOs.Vfs

/-! The device files of `devfs.c`: a registered block device is a file of its bytes. -/

namespace DexOs.Devfs

open DexOs.Lib DexOs.Exfat

variable {σ H : Type}

structure Node (σ : Type) where
  isDir : Bool
  name : List UInt8
  size : ℕ
  bdev : Option (BlockDevice σ)

def rootNode : Node σ := ⟨true, [], 0, none⟩

structure Cursor where
  lba : ℕ
  pos : ℕ
  remaining : ℕ

def Cursor.advance (c : Cursor) (n count : ℕ) : Cursor := ⟨(c.lba + count) % 2 ^ 64, c.pos + n, c.remaining - n⟩

def Cursor.turn (c : Cursor) (sec : ℕ) : ℕ := min (c.remaining / sec % 2 ^ 32) 128

/-- The start of a transfer of `len` bytes, cut to the size of the file; `none` when no byte is left. -/
def cursor (node : Node σ) (sec off len : ℕ) : Option Cursor :=
  let last := min ((off + len) % 2 ^ 64) node.size
  if last ≤ off then none else some ⟨off / sec, 0, last - off⟩

variable [KernelAlloc H]

def devfsOpen (devices : List (BlockDevice σ)) (path : CString) : Io σ H (Option (Node σ)) := do
  match ← kmalloc 40 with -- sizeof(devfs_node_t)
  | none => pure none
  | some dn =>
    match ← kmalloc 24 with -- sizeof(vfs_node_t)
    | none => do
      kfree dn
      pure none
    | some vn =>
      if pathIsRoot path then pure (some rootNode)
      else if fileName path = [] then pure (some rootNode)
      else
        match blockFind devices (fileName path) with
        | none => do
          kfree dn
          kfree vn
          pure none
        | some b => pure (some ⟨false, b.name.take 15, b.sectorCount * b.sectorSize % 2 ^ 64, some b⟩)

def loadSector (b : BlockDevice σ) (lba : ℕ) : Io σ H (Option (ℕ × List UInt8)) := do
  match ← kmalloc b.sectorSize with
  | none => pure none
  | some tmp => do
    let r ← bdevRead b lba 1
    if r.1 = 1 then
      if b.sectorSize < r.2.length then stop .memory
      else pure (some (tmp, r.2 ++ List.replicate (b.sectorSize - r.2.length) 0))
    else do
      kfree tmp
      pure none

def readPart (b : BlockDevice σ) (headOff : ℕ) (c : Cursor) (buf : List UInt8) :
    Io σ H (Option Cursor × List UInt8) := do
  match ← loadSector b c.lba with
  | none => pure (none, buf)
  | some (tmp, data) => do
    let take := min (b.sectorSize - headOff) c.remaining
    kfree tmp
    pure (some (c.advance take 1), overlay buf c.pos ((data.drop headOff).take take))

def readMiddle (b : BlockDevice σ) : ℕ → Cursor → List UInt8 → Io σ H (Option Cursor × List UInt8)
  | 0, _, _ => stop .fuel
  | fuel + 1, c, buf => do
    if c.remaining < b.sectorSize then pure (some c, buf)
    else do
      let cnt := c.turn b.sectorSize
      let r ← bdevRead b c.lba cnt
      if b.sectorSize * cnt < r.2.length then stop .memory
      else if r.1 ≠ cnt then pure (none, overlay buf c.pos r.2)
      else readMiddle b fuel (c.advance (cnt * b.sectorSize) cnt) (overlay buf c.pos r.2)

def devfsRead (fuel : ℕ) (node : Node σ) (off : ℕ) (buf : List UInt8) : Io σ H (ℤ × List UInt8) := do
  if node.isDir then pure (-1, buf)
  else
    match node.bdev with
    | none => pure (-1, buf)
    | some b =>
      if b.read.isNone then pure (-1, buf)
      else
        match cursor node b.sectorSize off buf.length with
        | none => pure (0, buf)
        | some c =>
          if b.sectorSize = 0 then stop .memory
          else do
            let head ← (if off % b.sectorSize ≠ 0 then readPart b (off % b.sectorSize) c buf else pure (some c, buf))
            match head with
            | (none, buf) => pure (-1, buf)
            | (some c, buf) => do
              let middle ← readMiddle b fuel c buf
              match middle with
              | (none, buf) => pure (-1, buf)
              | (some c, buf) => do
                let tail ← (if 0 < c.remaining then readPart b 0 c buf else pure (some c, buf))
                match tail with
                | (none, buf) => pure (-1, buf)
                | (some c, buf) => pure (toInt c.pos, buf)

def writePart (b : BlockDevice σ) (headOff : ℕ) (buf : List UInt8) (c : Cursor) : Io σ H (Option Cursor) := do
  match ← loadSector b c.lba with
  | none => pure none
  | some (tmp, data) => do
    let put := min (b.sectorSize - headOff) c.remaining
    let rc ← bdevWrite b c.lba (overlay data headOff ((buf.drop c.pos).take put)) 1
    kfree tmp
    pure (if rc = 1 then some (c.advance put 1) else none)

def writeMiddle (b : BlockDevice σ) (buf : List UInt8) : ℕ → Cursor → Io σ H (Option Cursor)
  | 0, _ => stop .fuel
  | fuel + 1, c => do
    if c.remaining < b.sectorSize then pure (some c)
    else do
      let cnt := c.turn b.sectorSize
      let rc ← bdevWrite b c.lba ((buf.drop c.pos).take (cnt * b.sectorSize)) cnt
      if rc ≠ cnt then pure none
      else writeMiddle b buf fuel (c.advance (cnt * b.sectorSize) cnt)

/-- `devfs_write`. It does not check the device pointer, which is null for the directory only. -/
def devfsWrite (fuel : ℕ) (node : Node σ) (off : ℕ) (buf : List UInt8) : Io σ H ℤ := do
  if node.isDir then pure (-1)
  else
    match node.bdev with
    | none => stop .memory
    | some b =>
      if b.write.isNone then pure (-1)
      else
        match cursor node b.sectorSize off buf.length with
        | none => pure 0
        | some c =>
          if b.sectorSize = 0 then stop .memory
          else do
            let head ← (if off % b.sectorSize ≠ 0 then writePart b (off % b.sectorSize) buf c else pure (some c))
            match head with
            | none => pure (-1)
            | some c => do
              let middle ← writeMiddle b buf fuel c
              match middle with
              | none => pure (-1)
              | some c => do
                let tail ← (if 0 < c.remaining then writePart b 0 buf c else pure (some c))
                match tail with
                | none => pure (-1)
                | some c => pure (toInt c.pos)

end DexOs.Devfs
