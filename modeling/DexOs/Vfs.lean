import DexOs.BlockDevice

/-! The mount table of `vfs.c`. A C string is the list of its bytes before the terminator. -/

namespace DexOs

def strEq : List UInt8 → List UInt8 → Bool
  | a :: as, b :: bs => a == b && strEq as bs
  | [], [] => true
  | _, _ => false

def strCpy (n : ℕ) (s : List UInt8) : List UInt8 := s.take (n - 1)

variable {σ ν α : Type}

def blockFind (devices : List (BlockDevice σ)) (name : List UInt8) : Option (BlockDevice σ) :=
  devices.find? fun d => strEq name d.name

namespace Vfs

/-- `vfs_fs_ops_t`: every operation acts on the state `σ` behind the file systems and takes the private
data of the mount, a pointer; `none` is a null function pointer. `stat` leaves its two results as they
are, or fills them. -/
structure FsOps (σ ν : Type) where
  mount : Option (σ → Option (BlockDevice σ) → List UInt8 → (ℤ × ℕ) × σ)
  umount : Option (σ → ℕ → σ)
  openPath : Option (σ → ℕ → List UInt8 → Option ν × σ)
  stat : Option (σ → ℕ → List UInt8 → (ℤ × Option (ℕ × ℤ)) × σ)
  create : Option (σ → ℕ → List UInt8 → ℕ → ℤ × σ)
  unlink : Option (σ → ℕ → List UInt8 → ℤ × σ)

structure Mount (σ ν : Type) where
  mname : List UInt8
  ops : FsOps σ ν
  fsPriv : ℕ

structure Table (σ ν : Type) where
  fs : List (List UInt8 × FsOps σ ν)
  mounts : List (Mount σ ν)
  devices : List (BlockDevice σ)
  world : σ

def vfsRegisterFs (v : Table σ ν) (name : List UInt8) (ops : FsOps σ ν) : ℤ × Table σ ν :=
  if 4 ≤ v.fs.length then (-1, v) else (0, { v with fs := v.fs ++ [(strCpy 8 name, ops)] })

def mountDevice (v : Table σ ν) (bdevName : List UInt8) : Option (Option (BlockDevice σ)) :=
  if bdevName = [] then some none else (blockFind v.devices bdevName).map some

def mountFs (v : Table σ ν) (fsName mountName bdevName : List UInt8) : Except ℤ (FsOps σ ν × ℕ) × σ :=
  if 4 ≤ v.mounts.length then (.error (-1), v.world)
  else match v.fs.find? fun f => strEq f.1 fsName with
    | none => (.error (-1), v.world)
    | some f =>
      match mountDevice v bdevName with
      | none => (.error (-1), v.world)
      | some bdev =>
        match f.2.mount with
        | none => (.ok (f.2, 1), v.world)
        | some mount =>
          let r := mount v.world bdev mountName
          (if r.1.1 ≠ 0 then .error r.1.1 else .ok (f.2, r.1.2), r.2)

def vfsMount (v : Table σ ν) (fsName mountName bdevName : List UInt8) : ℤ × Table σ ν :=
  match mountFs v fsName mountName bdevName with
  | (.error rc, w) => (rc, { v with world := w })
  | (.ok (ops, priv), w) => (0, { v with world := w, mounts := v.mounts ++ [⟨strCpy 8 mountName, ops, priv⟩] })

def findMount (mounts : List (Mount σ ν)) (name : List UInt8) : Option (Mount σ ν) :=
  mounts.find? fun mt => strEq mt.mname name

def vfsUmount (v : Table σ ν) (name : List UInt8) : ℤ × Table σ ν :=
  match findMount v.mounts name with
  | none => (-1, v)
  | some mt =>
    let w := match mt.ops.umount with
      | none => v.world
      | some umount => umount v.world mt.fsPriv
    (0, { v with world := w, mounts := v.mounts.eraseP fun mt => strEq mt.mname name })

def splitPath (path : List UInt8) : Option (List UInt8 × List UInt8) :=
  match path.dropWhile (· ≠ 58) with
  | [] => none
  | _ :: sub => some ((path.takeWhile (· ≠ 58)).take 7, sub)

/-- `parse_mount_and_sub`; `vfs_open` and `vfs_stat` have a copy of it. -/
def parseMountAndSub (v : Table σ ν) (path : List UInt8) : Option (Mount σ ν × List UInt8) :=
  (splitPath path).bind fun p => (findMount v.mounts p.1).map (·, p.2)

def onPath (v : Table σ ν) (bad : α) (op : FsOps σ ν → Option (σ → ℕ → List UInt8 → α × σ)) (path : List UInt8) :
    α × σ :=
  match parseMountAndSub v path with
  | none => (bad, v.world)
  | some (mt, sub) =>
    match op mt.ops with
    | none => (bad, v.world)
    | some f => f v.world mt.fsPriv sub

def vfsOpen (v : Table σ ν) (path : List UInt8) : Option ν × σ := onPath v none FsOps.openPath path

def vfsStat (v : Table σ ν) (path : List UInt8) : (ℤ × Option (ℕ × ℤ)) × σ := onPath v (-1, none) FsOps.stat path

def vfsCreate (v : Table σ ν) (path : List UInt8) (sizeHint : ℕ) : ℤ × σ :=
  onPath v (-1) (fun ops => ops.create.map fun f w priv sub => f w priv sub sizeHint) path

def vfsUnlink (v : Table σ ν) (path : List UInt8) : ℤ × σ := onPath v (-1) FsOps.unlink path

def vfsHasMount (v : Table σ ν) (name : List UInt8) : ℤ :=
  if name = [] then 0 else if v.mounts.any fun mt => strEq mt.mname name then 1 else 0

inductive Call (σ ν : Type)
  | register (name : List UInt8) (ops : FsOps σ ν)
  | mount (fsName mountName bdevName : List UInt8)
  | umount (name : List UInt8)
  | use (devices : List (BlockDevice σ)) (world : σ)

def step (v : Table σ ν) : Call σ ν → Table σ ν
  | .register name ops => (vfsRegisterFs v name ops).2
  | .mount fsName mountName bdevName => (vfsMount v fsName mountName bdevName).2
  | .umount name => (vfsUmount v name).2
  | .use devices world => { v with devices := devices, world := world }

end Vfs

end DexOs
