import DexOs.FrameSpec

/-! The four-level page tables of `vmm.c`, whose frames come from the frame allocator. -/

namespace DexOs.Paging

open DexOs.Lib DexOs.Frames

def vmmPresent : ℕ := 1
def vmmRw : ℕ := 2
def vmmPs : ℕ := 128

structure Vmm where
  pmm : Pmm
  mem : ℕ → ℕ
  cr3 : ℕ

def idxPml4 (va : ℕ) : ℕ := (va >>> 39) &&& 0x1FF
def idxPdp (va : ℕ) : ℕ := (va >>> 30) &&& 0x1FF
def idxPd (va : ℕ) : ℕ := (va >>> 21) &&& 0x1FF
def idxPt (va : ℕ) : ℕ := (va >>> 12) &&& 0x1FF

def slot (t i : ℕ) : ℕ := t + 8 * i

def isPresent (e : ℕ) : Bool := e &&& vmmPresent ≠ 0

def frameOf (e : ℕ) : ℕ := alignDown e 4096

def zeroTable (mem : ℕ → ℕ) (t : ℕ) : ℕ → ℕ := fun a => if t ≤ a ∧ a < t + 8 * 512 then 0 else mem a

/-- One level of `get_pte`: the table that entry `i` of table `t` names, made when it is absent. -/
def nextTable (v : Vmm) (t i : ℕ) (create : Bool) : Option ℕ × Vmm :=
  let e := v.mem (slot t i)
  if isPresent e then (some (frameOf e), v)
  else if create = false then (none, v)
  else
    let newp := pmmAllocFrames v.pmm 1
    if newp.1 = 0 then (none, { v with pmm := newp.2 })
    else
      let e := newp.1 ||| vmmPresent ||| vmmRw
      (some (frameOf e),
        { v with pmm := newp.2, mem := Function.update (zeroTable v.mem newp.1) (slot t i) e })

theorem nextTable_present (v : Vmm) {t i u : ℕ} (create : Bool) (hp : isPresent (v.mem (slot t i)) = true)
    (hu : u = frameOf (v.mem (slot t i))) : nextTable v t i create = (some u, v) := by
  unfold nextTable
  rw [if_pos hp, hu]

theorem nextTable_full {v : Vmm} {t i : ℕ} (hp : isPresent (v.mem (slot t i)) = false)
    (h0 : (pmmAllocFrames v.pmm 1).1 = 0) : (nextTable v t i true).1 = none := by
  unfold nextTable
  dsimp only
  rw [if_neg (by rw [hp]; decide), if_neg (by decide), if_pos h0]

theorem nextTable_create {v : Vmm} {t i a : ℕ} (hp : isPresent (v.mem (slot t i)) = false)
    (ha : (pmmAllocFrames v.pmm 1).1 = a) (h0 : a ≠ 0) :
    nextTable v t i true = (some (frameOf (a ||| vmmPresent ||| vmmRw)), { v with
      pmm := (pmmAllocFrames v.pmm 1).2
      mem := Function.update (zeroTable v.mem a) (slot t i) (a ||| vmmPresent ||| vmmRw) }) := by
  unfold nextTable
  dsimp only
  rw [if_neg (by rw [hp]; decide), if_neg (by decide), ha, if_neg h0]

def getPte (v : Vmm) (pml4 va : ℕ) (create : Bool) : Option ℕ × Vmm :=
  match nextTable v pml4 (idxPml4 va) create with
  | (none, v) => (none, v)
  | (some pdpt, v) =>
    match nextTable v pdpt (idxPdp va) create with
    | (none, v) => (none, v)
    | (some pd, v) =>
      match nextTable v pd (idxPd va) create with
      | (none, v) => (none, v)
      | (some pt, v) => (some (slot pt (idxPt va)), v)

def Vmm.store (v : Vmm) (a e : ℕ) : Vmm := { v with mem := Function.update v.mem a e }

def identityLoop (pml4 : ℕ) : ℕ → ℕ → Vmm → Vmm
  | 0, _, v => v
  | n + 1, a, v =>
    match getPte v pml4 a true with
    | (none, v) => v
    | (some pte, v) => identityLoop pml4 n (a + 4096) (v.store pte (frameOf a ||| (vmmPresent ||| vmmRw)))

def vmmLoadCr3 (v : Vmm) (pml4 : ℕ) : Vmm := { v with cr3 := pml4 }

def vmmInitIdentity (v : Vmm) : Vmm :=
  let pml4 := pmmAllocFrames v.pmm 1
  if pml4.1 = 0 then { v with pmm := pml4.2 }
  else
    let v := { v with pmm := pml4.2, mem := zeroTable v.mem pml4.1 }
    vmmLoadCr3 (identityLoop pml4.1 (2 ^ 32 / 4096) 0 v) pml4.1

def vmmMapPage (v : Vmm) (virt phys flags : ℕ) : ℤ × Vmm :=
  if v.cr3 = 0 then (-1, v)
  else match getPte v v.cr3 virt true with
    | (none, v) => (-2, v)
    | (some pte, v) => (0, v.store pte (frameOf phys ||| (flags &&& (2 ^ 64 - 1 - vmmPs))))

def vmmUnmapPage (v : Vmm) (virt : ℕ) : ℤ × Vmm :=
  if v.cr3 = 0 then (-1, v)
  else match getPte v v.cr3 virt false with
    | (none, v) => (-2, v)
    | (some pte, v) => (0, v.store pte 0)

def vmmVirtToPhys (v : Vmm) (virt : ℕ) : Option ℕ :=
  if v.cr3 = 0 then none
  else match getPte v v.cr3 virt false with
    | (none, _) => none
    | (some pte, v) =>
      let e := v.mem pte
      if isPresent e then some (frameOf e ||| (virt &&& 0xFFF)) else none

end DexOs.Paging
