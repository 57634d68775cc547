import DexOs.BlockDevice
import DexOs.Lib.Wp

/-! The exFAT driver of `exfat.c`: FAT entries, the root directory, and the file operations. -/

namespace DexOs.Exfat

open DexOs.Lib

/-- Why a call does not return: a loop that has not ended within the fuel, or undefined behaviour of the C
code: an access outside a buffer or through a null pointer, a division by zero, a shift by 32 or more. -/
inductive Fault
  | fuel
  | memory

structure World (σ H : Type) where
  dev : σ
  heap : H

abbrev Io (σ H : Type) := Prog (World σ H) Fault

structure Fs (σ : Type) where
  bdev : BlockDevice σ
  fatOffset : ℕ
  fatLength : ℕ
  clusterHeapOff : ℕ
  bytesPerSector : ℕ
  sectorsPerCluster : ℕ
  clusterSize : ℕ
  rootDirCluster : ℕ

structure Node where
  firstCluster : ℕ
  isDir : Bool
  size : ℕ
deriving DecidableEq

def CString := { s : List UInt8 // 0 ∉ s }

def eoc : ℕ := 0xFFFFFFFF

variable {σ H : Type}

def stop {α : Type} (e : Fault) : Io σ H α := fun _ => .error e

section Device

def bdevRead (d : BlockDevice σ) (lba count : ℕ) : Io σ H (ℤ × List UInt8) := fun w =>
  match d.read with
  | none => .error .memory
  | some read =>
    let r := read w.dev lba count
    .ok (r.1, { w with dev := r.2 })

def bdevWrite (d : BlockDevice σ) (lba : ℕ) (buf : List UInt8) (count : ℕ) : Io σ H ℤ := fun w =>
  match d.write with
  | none => .error .memory
  | some write =>
    let r := write w.dev lba buf count
    .ok (r.1, { w with dev := r.2 })

def clToLba (fs : Fs σ) (cl : ℕ) : ℕ :=
  (fs.clusterHeapOff + (cl + 2 ^ 32 - 2) % 2 ^ 32 * fs.sectorsPerCluster) % 2 ^ 32

def readCluster (fs : Fs σ) (cl : ℕ) : Io σ H (Option (List UInt8)) := do
  let r ← bdevRead fs.bdev (clToLba fs cl) fs.sectorsPerCluster
  if r.1 = fs.sectorsPerCluster then
    if fs.clusterSize < r.2.length then stop .memory
    else pure (some (r.2 ++ List.replicate (fs.clusterSize - r.2.length) 0))
  else pure none

def writeCluster (fs : Fs σ) (cl : ℕ) (buf : List UInt8) : Io σ H ℤ := do
  let bytes := fs.bdev.sectorSize * fs.sectorsPerCluster
  if buf.length < bytes then stop .memory
  else
    let r ← bdevWrite fs.bdev (clToLba fs cl) (buf.take bytes) fs.sectorsPerCluster
    pure (if r = fs.sectorsPerCluster then 0 else -1)

def fatSlot (fs : Fs σ) (cl : ℕ) : Option (ℕ × ℕ) :=
  let offBytes := cl * 4 % 2 ^ 32
  if fs.bytesPerSector = 0 then none
  else
    let sectOff := offBytes % fs.bytesPerSector
    if 512 < sectOff + 4 then none
    else some ((fs.fatOffset + offBytes / fs.bytesPerSector) % 2 ^ 32, sectOff)

def fatGet (fs : Fs σ) (cl : ℕ) : Io σ H ℕ :=
  match fatSlot fs cl with
  | none => stop .memory
  | some (sector, sectOff) => do
    let r ← bdevRead fs.bdev sector 1
    pure (if r.1 < 1 then 0 else leNat (byteAt r.2) 4 sectOff)

def fatSet (fs : Fs σ) (cl val : ℕ) : Io σ H ℤ :=
  match fatSlot fs cl with
  | none => stop .memory
  | some (sector, sectOff) => do
    let r ← bdevRead fs.bdev sector 1
    if r.1 < 1 then pure (-1)
    else
      let rc ← bdevWrite fs.bdev sector (overlay r.2 sectOff (leBytes 4 val)) 1
      pure (if rc = 1 then 0 else -1)

end Device

section Directory

/-! The root directory is one cluster of 32-byte slots; `slots` of them fit into it. -/

def slotByte (dir : List UInt8) (k off : ℕ) : UInt8 := byteAt dir (32 * k + off)

def slotType (dir : List UInt8) (k : ℕ) : UInt8 := slotByte dir k 0

def isPrimary (dir : List UInt8) (k : ℕ) : Bool := slotType dir k &&& 0x7F = 0x05

def hasStream (dir : List UInt8) (slots k : ℕ) : Bool := k + 1 < slots ∧ slotType dir (k + 1) = 0xC0

structure Dirent where
  firstCluster : ℕ
  size : ℕ
  isDir : Bool
  name : List UInt8
deriving DecidableEq

def nameChar (dir : List UInt8) (k c : ℕ) : ℕ := leNat (slotByte dir k) 2 (2 + c * 2)

def toAscii (ch : ℕ) : UInt8 := if ch < 128 then UInt8.ofNat ch else 63

def scanNameSlot (dir : List UInt8) (k : ℕ) : List ℕ → List UInt8 → List UInt8
  | [], name => name
  | c :: cs, name =>
    if name.length < 63 then
      scanNameSlot dir k cs (if nameChar dir k c = 0 then name else name ++ [toAscii (nameChar dir k c)])
    else name

/-- The characters of a name slot as `exfat_unlink` takes them: it stops at the first zero. -/
def unlinkNameSlot (dir : List UInt8) (k : ℕ) : List ℕ → List UInt8 → List UInt8
  | [], name => name
  | c :: cs, name =>
    if name.length < 63 then
      if nameChar dir k c = 0 then name
      else unlinkNameSlot dir k cs (name ++ [toAscii (nameChar dir k c)])
    else name

def nameSlots (dir : List UInt8) (take : ℕ → List ℕ → List UInt8 → List UInt8) :
    ℕ → ℕ → List UInt8 → List UInt8 × ℕ
  | 0, j, name => (name, j)
  | n + 1, j, name =>
    if slotType dir j = 0xC1 then nameSlots dir take n (j + 1) (take j (List.range 15) name)
    else (name, j)

def streamFirst (dir : List UInt8) (k : ℕ) : ℕ := leNat (slotByte dir (k + 1)) 4 20
def streamSize (dir : List UInt8) (k : ℕ) : ℕ := leNat (slotByte dir (k + 1)) 8 24

/-- The entry set that starts at the primary slot `k`, and the slot after it. -/
def scanEntry (dir : List UInt8) (slots k : ℕ) : Dirent × ℕ :=
  let isDir := leNat (slotByte dir k) 2 4 &&& 0x10 ≠ 0
  if hasStream dir slots k then
    let r := nameSlots dir (scanNameSlot dir) (slots - (k + 2)) (k + 2) []
    (⟨streamFirst dir k, streamSize dir k, isDir, r.1⟩, r.2)
  else
    let r := nameSlots dir (scanNameSlot dir) (slots - (k + 1)) (k + 1) []
    (⟨0, 0, isDir, r.1⟩, r.2)

def scanSlots (dir : List UInt8) (slots : ℕ) : ℕ → ℕ → List Dirent
  | 0, _ => []
  | n + 1, k =>
    if slots ≤ k ∨ slotType dir k = 0 then []
    else if isPrimary dir k then
      let r := scanEntry dir slots k
      r.1 :: scanSlots dir slots n r.2
    else scanSlots dir slots n (k + 1)

def dirEntries (dir : List UInt8) : List Dirent := scanSlots dir (dir.length / 32) (dir.length / 32) 0

def findEnd (dir : List UInt8) (slots : ℕ) : ℕ → ℕ → ℕ
  | 0, k => k
  | n + 1, k => if slots ≤ k ∨ slotType dir k = 0 then k else findEnd dir slots n (k + 1)

def findByFirst (dir : List UInt8) (slots first : ℕ) : ℕ → ℕ → Option ℕ
  | 0, _ => none
  | n + 1, k =>
    if slots < k + 2 ∨ slotType dir k = 0 then none
    else if isPrimary dir k ∧ slotType dir (k + 1) = 0xC0 ∧ streamFirst dir k = first then some k
    else findByFirst dir slots first n (k + 1)

def findByName (dir : List UInt8) (slots : ℕ) (name : List UInt8) : ℕ → ℕ → Option (ℕ × ℕ)
  | 0, _ => none
  | n + 1, k =>
    if slots ≤ k ∨ slotType dir k = 0 then none
    else if isPrimary dir k ∧ hasStream dir slots k then
      let r := nameSlots dir (unlinkNameSlot dir) (slots - (k + 2)) (k + 2) []
      if r.1 = name then some (k, r.2) else findByName dir slots name n (k + 1)
    else findByName dir slots name n (k + 1)

def primarySlot (totalSecs : ℕ) : List UInt8 :=
  [0x85, UInt8.ofNat totalSecs, 0, 0] ++ leBytes 2 0x20 ++ List.replicate 26 0

def streamSlot (nameLen cl : ℕ) : List UInt8 :=
  [0xC0, 0, 0, UInt8.ofNat nameLen] ++ List.replicate 16 0 ++ leBytes 4 cl ++ leBytes 8 0

def nameSlot (name : List UInt8) (consumed : ℕ) : List UInt8 :=
  [0xC1, 0] ++ (List.range 15).flatMap fun k => leBytes 2 (byteAt name (consumed + k)).toNat

def nameEntries (name : List UInt8) : ℕ := (name.length + 14) / 15

def entrySet (name : List UInt8) (cl : ℕ) : List UInt8 :=
  primarySlot (1 + nameEntries name) ++ streamSlot name.length cl ++
    (List.range (nameEntries name)).flatMap fun e => nameSlot name (15 * e)

end Directory

section Files

variable [KernelAlloc H]

def kmalloc (n : ℕ) : Io σ H (Option ℕ) := fun w =>
  let r := KernelAlloc.kmalloc w.heap n
  .ok (r.1, { w with heap := r.2 })

def kfree (p : ℕ) : Io σ H Unit := fun w => .ok ((), { w with heap := KernelAlloc.kfree w.heap p })

def loadRoot (fs : Fs σ) : Io σ H (Option (ℕ × List UInt8)) := do
  match ← kmalloc fs.clusterSize with
  | none => pure none
  | some p =>
    match ← readCluster fs fs.rootDirCluster with
    | none => do
      kfree p
      pure none
    | some dir => pure (some (p, dir))

def dirScanRoot (fs : Fs σ) (maxEnts : ℕ) : Io σ H (List Dirent) := do
  match ← loadRoot fs with
  | none => pure []
  | some (p, dir) => do
    kfree p
    pure ((dirEntries dir).take maxEnts)

def pathIsRoot (path : CString) : Bool := path.1 = [] ∨ path.1 = [0x2F]

def fileName (path : CString) : List UInt8 := if path.1.head? = some 0x2F then path.1.tail else path.1

def exfatOpen (fs : Fs σ) (path : CString) : Io σ H (Option Node) := do
  match ← kmalloc 24 with -- sizeof(exfat_node_t)
  | none => pure none
  | some n =>
    match ← kmalloc 24 with -- sizeof(vfs_node_t)
    | none => do
      kfree n
      pure none
    | some vn =>
      if pathIsRoot path then pure (some ⟨fs.rootDirCluster, true, 0⟩)
      else do
        let ents ← dirScanRoot fs 32
        match ents.find? (·.name = fileName path) with
        | some e => pure (some ⟨e.firstCluster, e.isDir, e.size⟩)
        | none => do
          kfree n
          kfree vn
          pure none

def exfatStat (fs : Fs σ) (path : CString) : Io σ H (Option (ℕ × Bool)) := do
  if pathIsRoot path then pure (some (0, true))
  else do
    let ents ← dirScanRoot fs 32
    pure ((ents.find? (·.name = fileName path)).map fun e => (e.size, e.isDir))

def readSkip (fs : Fs σ) : ℕ → ℕ → Io σ H ℕ
  | 0, cl => pure cl
  | k + 1, cl => do
    let next ← fatGet fs cl
    if next = eoc ∨ next = 0 then pure cl else readSkip fs k next

/-- The copy loop of `exfat_read`: `len` bytes are still wanted, from byte `skip` of cluster `cl` on.
Every turn takes at least one byte, so `n` turns with `len ≤ n` are enough. -/
def readLoop (fs : Fs σ) : ℕ → ℕ → ℕ → ℕ → Io σ H (List UInt8)
  | 0, _, _, len => if len = 0 then pure [] else stop .fuel
  | n + 1, cl, skip, len => do
    if len = 0 ∨ cl < 2 then pure []
    else
      match ← kmalloc fs.clusterSize with
      | none => pure []
      | some p =>
        match ← readCluster fs cl with
        | none => do
          kfree p
          pure []
        | some tmp => do
          let take := min len (fs.clusterSize - skip)
          let out := (tmp.drop skip).take take
          kfree p
          if len ≤ take then pure out
          else do
            let next ← fatGet fs cl
            if next = 0 ∨ next = eoc then pure out
            else do
              let rest ← readLoop fs n next 0 (len - take)
              pure (out ++ rest)

def toInt (n : ℕ) : ℤ := if n % 2 ^ 32 < 2 ^ 31 then n % 2 ^ 32 else (n % 2 ^ 32 : ℤ) - 2 ^ 32

def exfatRead (fs : Fs σ) (node : Node) (off len : ℕ) : Io σ H (ℤ × List UInt8) := do
  if node.isDir then pure (-1, [])
  else if node.size ≤ off then pure (0, [])
  else if fs.clusterSize = 0 then stop .memory
  else do
    let len := min len (node.size - off)
    let cl ← readSkip fs (off / fs.clusterSize) node.firstCluster
    let out ← readLoop fs len cl (off % fs.clusterSize) len
    pure (toInt out.length, out)

def Fs.entries (fs : Fs σ) : ℕ := fs.fatLength * fs.bytesPerSector % 2 ^ 32 / 4

def fatAllocFrom (fs : Fs σ) : ℕ → ℕ → Io σ H ℕ
  | 0, _ => pure 0
  | n + 1, cl => do
    let v ← fatGet fs cl
    if v = 0 then do
      let rc ← fatSet fs cl eoc
      if rc ≠ 0 then pure 0
      else
        match ← kmalloc fs.clusterSize with
        | none => pure 0
        | some p => do
          let _ ← writeCluster fs cl (List.replicate fs.clusterSize 0)
          kfree p
          pure cl
    else fatAllocFrom fs n (cl + 1)

def fatAlloc (fs : Fs σ) : Io σ H ℕ := fatAllocFrom fs (fs.entries - 2) 2

def setStream (dir : List UInt8) (k newFirst newSize : ℕ) : List UInt8 :=
  let dir := if 2 ≤ newFirst ∧ newFirst ≠ streamFirst dir k
    then overlay dir (32 * (k + 1) + 20) (leBytes 4 newFirst) else dir
  overlay dir (32 * (k + 1) + 24) (leBytes 8 newSize)

theorem length_setStream (dir : List UInt8) (k newFirst newSize : ℕ) :
    (setStream dir k newFirst newSize).length = dir.length := by
  unfold setStream
  dsimp only
  split
  · rw [length_overlay, length_overlay]
  · rw [length_overlay]

def dirUpdateStreamByFirstCluster (fs : Fs σ) (oldFirst newFirst newSize : ℕ) : Io σ H ℤ := do
  match ← loadRoot fs with
  | none => pure (-1)
  | some (p, dir) =>
    match findByFirst dir (dir.length / 32) oldFirst (dir.length / 32) 0 with
    | none => do
      kfree p
      pure (-1)
    | some k => do
      let rc ← writeCluster fs fs.rootDirCluster (setStream dir k newFirst newSize)
      kfree p
      pure rc

def chainEnd (fs : Fs σ) : ℕ → ℕ → ℕ → Io σ H (ℕ × ℕ)
  | 0, _, _ => stop .fuel
  | fuel + 1, cur, count => do
    let next ← fatGet fs cur
    if next = eoc ∨ next = 0 then pure (cur, count) else chainEnd fs fuel next (count + 1)

def appendCluster (fs : Fs σ) (cur : ℕ) : Io σ H ℕ := do
  let ncl ← fatAlloc fs
  if ncl = 0 then pure 0
  else do
    let _ ← fatSet fs cur ncl
    let _ ← fatSet fs ncl eoc
    pure ncl

def extendChain (fs : Fs σ) : ℕ → ℕ → Io σ H ℕ
  | 0, cur => pure cur
  | n + 1, cur => do
    let ncl ← appendCluster fs cur
    if ncl = 0 then pure 0 else extendChain fs n ncl

def ensureChainLength (fuel : ℕ) (fs : Fs σ) (first needed : ℕ) : Io σ H (ℕ × ℕ) := do
  let first' ← (if first < 2 then fatAlloc fs else pure first)
  if first' = 0 then pure (0, first)
  else do
    let r ← chainEnd fs fuel first' 1
    let last ← extendChain fs (needed - r.2) r.1
    pure (last, first')

def nextOrAppend (fs : Fs σ) (cl : ℕ) : Io σ H ℕ := do
  let nxt ← fatGet fs cl
  if nxt = eoc ∨ nxt = 0 then appendCluster fs cl else pure nxt

def writeSkip (fs : Fs σ) : ℕ → ℕ → Io σ H ℕ
  | 0, cl => pure cl
  | k + 1, cl => do
    let nxt ← nextOrAppend fs cl
    if nxt = 0 then pure 0 else writeSkip fs k nxt

def writeLoop (fs : Fs σ) : ℕ → ℕ → ℕ → List UInt8 → Io σ H Bool
  | 0, _, _, rest => if rest = [] then pure true else stop .fuel
  | n + 1, cl, skip, rest => do
    if rest = [] then pure true
    else
      match ← kmalloc fs.clusterSize with
      | none => pure false
      | some p =>
        match ← readCluster fs cl with
        | none => do
          kfree p
          pure false
        | some tmp => do
          let take := min rest.length (fs.clusterSize - skip)
          let rc ← writeCluster fs cl (overlay tmp skip (rest.take take))
          kfree p
          if rc ≠ 0 then pure false
          else if rest.length ≤ take then pure true
          else do
            let nxt ← nextOrAppend fs cl
            if nxt = 0 then pure false else writeLoop fs n nxt 0 (rest.drop take)

/-- `exfat_write` of a whole buffer: the return value and the handle after it. -/
def exfatWrite (fuel : ℕ) (fs : Fs σ) (node : Node) (off : ℕ) (buf : List UInt8) : Io σ H (ℤ × Node) := do
  if node.isDir then pure (-1, node)
  else if buf = [] then pure (0, node)
  else if fs.clusterSize = 0 then stop .memory
  else do
    let endPos := (off + buf.length) % 2 ^ 64
    let needed := (endPos + fs.clusterSize + (2 ^ 64 - 1)) % 2 ^ 64 / fs.clusterSize
    let r ← ensureChainLength fuel fs node.firstCluster needed
    let node' := { node with firstCluster := r.2 }
    if r.1 = 0 then pure (-1, node')
    else do
      let cl ← writeSkip fs (off / fs.clusterSize) node'.firstCluster
      if cl = 0 then pure (-1, node')
      else do
        let ok ← writeLoop fs buf.length cl (off % fs.clusterSize) buf
        if ok = false then pure (-1, node')
        else do
          let node'' := { node' with size := max node'.size endPos }
          let _ ← dirUpdateStreamByFirstCluster fs
            (if node.firstCluster ≠ 0 then node.firstCluster else node''.firstCluster)
            node''.firstCluster node''.size
          pure (toInt buf.length, node'')

def exfatCreate (fs : Fs σ) (path : CString) : Io σ H ℤ := do
  let name := fileName path
  if name = [] then pure (-1)
  else
    match ← loadRoot fs with
    | none => pure (-1)
    | some (p, dir) => do
      let di := findEnd dir (dir.length / 32) (dir.length / 32) 0
      let last := 32 * (di + (2 + nameEntries name))
      if fs.clusterSize < last then do
        kfree p
        pure (-1)
      else do
        let cl ← fatAlloc fs
        if cl = 0 then do
          kfree p
          pure (-1)
        else do
          let dir := overlay dir (32 * di) (entrySet name cl)
          let dir := if last < fs.clusterSize then overlay dir last [0] else dir
          let rc ← writeCluster fs fs.rootDirCluster dir
          kfree p
          pure rc

def freeChain (fs : Fs σ) : ℕ → ℕ → Io σ H Unit
  | 0, _ => stop .fuel
  | fuel + 1, cl => do
    if cl < 2 then pure ()
    else do
      let next ← fatGet fs cl
      let _ ← fatSet fs cl 0
      if next = 0 ∨ next = eoc then pure () else freeChain fs fuel next

def exfatUnlink (fuel : ℕ) (fs : Fs σ) (path : CString) : Io σ H ℤ := do
  let name := fileName path
  if name = [] then pure (-1)
  else
    match ← loadRoot fs with
    | none => pure (-1)
    | some (p, dir) =>
      match findByName dir (dir.length / 32) name (dir.length / 32) 0 with
      | none => do
        kfree p
        pure (-1)
      | some (k, j) => do
        freeChain fs fuel (streamFirst dir k)
        let dir := overlay dir (32 * k) (List.replicate (32 * (j - k)) 0)
        let rc ← writeCluster fs fs.rootDirCluster dir
        kfree p
        pure rc

def exfatMount (bdev : BlockDevice σ) : Io σ H (Option (Fs σ)) := do
  if bdev.sectorSize ≠ 512 then pure none
  else
    match ← kmalloc 40 with -- sizeof(exfat_fs_t)
    | none => pure none
    | some _ => do
      let r ← bdevRead bdev 0 1
      if r.1 = 1 ∧ (r.2.drop 3).take 8 = [0x45, 0x58, 0x46, 0x41, 0x54, 0x20, 0x20, 0x20] then
        let bpsShift := (byteAt r.2 0x6C).toNat
        -- `1u << bps_shift` is undefined from 32 on
        if 32 ≤ bpsShift then stop .memory
        else
          let bps := 2 ^ bpsShift
          let spc := (byteAt r.2 0x6D).toNat
          pure (some ⟨bdev, leNat (byteAt r.2) 4 0x80, leNat (byteAt r.2) 4 0x84, leNat (byteAt r.2) 4 0x88,
            bps, spc, bps * spc % 2 ^ 32, leNat (byteAt r.2) 4 0xA0⟩)
      else pure (some ⟨bdev, 128, 1024, 1152, 512, 1, 512, 2⟩)

end Files

end DexOs.Exfat
