import DexOs.ExfatStore
import DexOs.ShellFill
import DexOs.ShellPaths
import DexOs.ShellTokens

/-! The file commands of `shell.c` on the mounted file systems. A command is what it prints, besides what it does to
the devices. -/

namespace DexOs.Shell

open DexOs.Lib DexOs.Exfat

variable {σ H : Type}

inductive MountedFs (σ : Type)
  | exfat (fs : Fs σ)
  | devfs

structure MountPoint (σ : Type) where
  mname : List UInt8
  fs : MountedFs σ

structure Mounts (σ : Type) where
  points : List (MountPoint σ)
  devices : List (BlockDevice σ)

def noOps : Vfs.FsOps Unit Unit := ⟨none, none, none, none, none, none⟩

def Mounts.names (t : Mounts σ) : Vfs.Table Unit Unit := ⟨[], t.points.map fun m => ⟨m.mname, noOps, 0⟩, [], ()⟩

def cstr (s : List UInt8) : CString := ⟨s.takeWhile (· ≠ 0), fun h => by simpa using List.mem_takeWhile_imp h⟩

def Mounts.parse (t : Mounts σ) (path : List UInt8) : Option (MountedFs σ × CString) :=
  (Vfs.splitPath path).bind fun p => (t.points.find? fun m => strEq m.mname p.1).map fun m => (m.fs, cstr p.2)

def text (s : String) : List UInt8 := s.toList.map fun c => UInt8.ofNat c.toNat

def hexLut : List UInt8 := text "0123456789ABCDEF"

def hex64 (v : ℕ) : List UInt8 :=
  text "0x" ++ (List.range 16).map fun i => hexLut.getD (v / 16 ^ (15 - i) % 16) 0

def devfsStat (devices : List (BlockDevice σ)) (path : CString) : Option (ℕ × Bool) :=
  if pathIsRoot path then some (0, true)
  else if fileName path = [] then some (0, true)
  else (blockFind devices (fileName path)).map fun b => (b.sectorCount * b.sectorSize % 2 ^ 64, false)

section Commands

variable [KernelAlloc H]

def vfsOpen (t : Mounts σ) (path : List UInt8) : Io σ H (Option (File σ)) :=
  match t.parse path with
  | none => pure none
  | some (.exfat fs, sub) => do
    let n ← exfatOpen fs sub
    pure (n.map (.exfat fs))
  | some (.devfs, sub) => do
    let n ← Devfs.devfsOpen t.devices sub
    pure (n.map .device)

/-- Into a buffer of `len` bytes. What the buffer holds before the call is not printed; here it is zero. -/
def vfsRead (fuel : ℕ) (file : File σ) (off len : ℕ) : Io σ H (ℤ × List UInt8) :=
  match file with
  | .exfat fs node => exfatRead fs node off len
  | .device node => Devfs.devfsRead fuel node off (List.replicate len 0)

def vfsStat (t : Mounts σ) (path : List UInt8) : Io σ H (Option (ℕ × Bool)) :=
  match t.parse path with
  | none => pure none
  | some (.exfat fs, sub) => exfatStat fs sub
  | some (.devfs, sub) => pure (devfsStat t.devices sub)

def vfsCreate (t : Mounts σ) (path : List UInt8) : Io σ H ℤ :=
  match t.parse path with
  | none => pure (-1)
  | some (.exfat fs, sub) => exfatCreate fs sub
  | some (.devfs, _) => pure (-1)

def vfsUnlink (fuel : ℕ) (t : Mounts σ) (path : List UInt8) : Io σ H ℤ :=
  match t.parse path with
  | none => pure (-1)
  | some (.exfat fs, sub) => exfatUnlink fuel fs sub
  | some (.devfs, _) => pure (-1)

def fullPath (t : Mounts σ) (cwd : Cwd) (path : List UInt8) : Except Failure (List UInt8) :=
  match translateUnixPath t.names cwd path 192 with
  | .ok full => .ok full
  | .error .unresolved => resolvePath cwd path 192
  | .error .overflow => .error .overflow

def withPath (t : Mounts σ) (cwd : Cwd) (usage : List UInt8) (path : List UInt8)
    (run : List UInt8 → Io σ H (List UInt8)) : Io σ H (List UInt8) :=
  if path = [] then pure usage
  else
    match fullPath t cwd path with
    | .error _ => stop .memory
    | .ok full => run full

def touch (t : Mounts σ) (cwd : Cwd) (args : List UInt8) : Io σ H (List UInt8) :=
  withPath t cwd (text "usage: touch <path>\n") args fun full => do
    let rc ← vfsCreate t full
    pure (if rc ≠ 0 then text "touch failed\n" else [])

def rm (fuel : ℕ) (t : Mounts σ) (cwd : Cwd) (args : List UInt8) : Io σ H (List UInt8) :=
  withPath t cwd (text "usage: rm <path>\n") args fun full => do
    let rc ← vfsUnlink fuel t full
    pure (if rc ≠ 0 then text "rm failed\n" else [])

def stat (t : Mounts σ) (cwd : Cwd) (args : List UInt8) : Io σ H (List UInt8) :=
  withPath t cwd (text "usage: stat <path>\n") args fun full => do
    match ← vfsStat t full with
    | none => pure (text "stat: not found\n")
    | some (sz, isdir) => pure ((if isdir then text "dir" else text "file") ++ text " size=0x" ++ hex64 sz ++ text "\n")

def catLoop (fuel : ℕ) (file : File σ) : ℕ → ℕ → Io σ H (List UInt8)
  | 0, _ => stop .fuel
  | n + 1, off => do
    let r ← vfsRead fuel file off 256
    if r.1 ≤ 0 then pure []
    else do
      let rest ← catLoop fuel file n ((off + r.1.toNat) % 2 ^ 64)
      pure (r.2.take r.1.toNat ++ rest)

def cat (fuel : ℕ) (t : Mounts σ) (cwd : Cwd) (args : List UInt8) : Io σ H (List UInt8) :=
  withPath t cwd (text "usage: cat <path>\n") args fun full => do
    match ← vfsOpen t full with
    | none => pure (text "cat: open failed\n")
    | some file => do
      let out ← catLoop fuel file fuel 0
      pure (out ++ text "\n")

def openOrCreate (t : Mounts σ) (full : List UInt8) : Io σ H (List UInt8 × Option (File σ)) := do
  match ← vfsOpen t full with
  | some file => pure ([], some file)
  | none => do
    let rc ← vfsCreate t full
    let file ← vfsOpen t full
    pure (if rc ≠ 0 then text "write: create failed\n" else [], file)

def write (fuel : ℕ) (t : Mounts σ) (cwd : Cwd) (args : List UInt8) : Io σ H (List UInt8) :=
  let path := (args.takeWhile fun c => !isWs c).take 191
  let a := (args.drop path.length).dropWhile isWs
  withPath t cwd (text "usage: write <path> <text>\n") path fun full => do
    match ← openOrCreate t full with
    | (out, none) => pure (out ++ text "write: open failed\n")
    | (out, some file) => do
      let r ← vfsWrite fuel file 0 a
      pure (out ++ if r.1 < 0 then text "write failed\n" else text "ok\n")

def command (line : List UInt8) : List UInt8 × List UInt8 :=
  let s := line.dropWhile isWs
  (s.takeWhile fun c => !isWs c, ((s.dropWhile fun c => !isWs c).drop 1).dropWhile isWs)

def handleLine (fuel : ℕ) (t : Mounts σ) (cwd : Cwd) (line : List UInt8) : Option (Io σ H (List UInt8)) :=
  let (cmd, args) := command (cstr line).1
  if cmd = text "cat" then some (cat fuel t cwd args)
  else if cmd = text "stat" then some (stat t cwd args)
  else if cmd = text "touch" then some (touch t cwd args)
  else if cmd = text "write" then some (write fuel t cwd args)
  else if cmd = text "rm" then some (rm fuel t cwd args)
  else none

end Commands

end DexOs.Shell
