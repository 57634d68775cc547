import DexOs.Lib.Linked
import DexOs.Lib.Words

/-! The early kernel heap of `kmalloc.c`: first fit over headers stored inside the heap. -/

namespace DexOs.KernelHeap

open DexOs.Lib

structure Header where
  size : ℕ
  free : Bool
  next : ℕ

structure Heap where
  heapBase : ℕ
  heapSize : ℕ
  head : ℕ
  header : ℕ → Header

@[irreducible] def headerSize : ℕ := alignUp 24 16

def Heap.store (h : Heap) (a : ℕ) (v : Header) : Heap :=
  { h with header := Function.update h.header a v }

def kmallocInit (header : ℕ → Header) (heapStart heapSize : ℕ) : Heap :=
  { heapBase := heapStart, heapSize := heapSize, head := heapStart,
    header := Function.update header heapStart ⟨sub64 heapSize headerSize, true, 0⟩ }

def splitBlock (h : Heap) (blk asize : ℕ) : Heap :=
  let total := (h.header blk).size
  if (asize + headerSize + 16) % 2 ^ 64 ≤ total then
    let newHdr := (blk + headerSize + asize) % 2 ^ 64
    let h := h.store newHdr ⟨sub64 (sub64 total asize) headerSize, true, (h.header blk).next⟩
    h.store blk { h.header blk with size := asize, next := newHdr }
  else h

/-- The scan of `kmalloc`. Without a fitting block it ends at the null pointer; `none` means that
the scan has not ended within `fuel` steps. -/
def findBlock (h : Heap) (asize : ℕ) : ℕ → ℕ → Option ℕ
  | 0, _ => none
  | fuel + 1, cur =>
    if cur = 0 then some 0
    else if (h.header cur).free ∧ asize ≤ (h.header cur).size then some cur
    else findBlock h asize fuel (h.header cur).next

def kmalloc (fuel : ℕ) (h : Heap) (size : ℕ) : Option (ℕ × Heap) :=
  if size = 0 ∨ h.head = 0 then some (0, h)
  else
    let asize := alignUp size 16
    (findBlock h asize fuel h.head).map fun cur =>
      if cur = 0 then (0, h)
      else
        let h := splitBlock h cur asize
        ((cur + headerSize) % 2 ^ 64, h.store cur { h.header cur with free := false })

def ptrToHdr (p : ℕ) : ℕ := sub64 p headerSize

def coalesce : ℕ → Heap → ℕ → Option Heap
  | 0, _, _ => none
  | fuel + 1, h, cur =>
    if cur = 0 ∨ (h.header cur).next = 0 then some h
    else
      let next := (h.header cur).next
      let curEnd := (cur + headerSize + (h.header cur).size) % 2 ^ 64
      if (h.header cur).free ∧ (h.header next).free ∧ curEnd = next then
        coalesce fuel (h.store cur { h.header cur with
          size := ((h.header cur).size + (headerSize + (h.header next).size)) % 2 ^ 64
          next := (h.header next).next }) cur
      else coalesce fuel h next

def kfree (fuel : ℕ) (h : Heap) (ptr : ℕ) : Option Heap :=
  if ptr = 0 then some h
  else
    let hdr := ptrToHdr ptr
    coalesce fuel (h.store hdr { h.header hdr with free := true }) h.head

def kmallocUsableSize (h : Heap) (ptr : ℕ) : ℕ :=
  if ptr = 0 then 0 else (h.header (ptrToHdr ptr)).size

/-- The memory handed to `kmalloc_init`: a 16-aligned object whose end is still an address. -/
structure Region where
  start : ℕ
  size : ℕ
  start_pos : 0 < start
  start_aligned : 16 ∣ start
  size_aligned : 16 ∣ size
  size_ge : 32 ≤ size
  limit : start + size < 2 ^ 64

/-- The heaps and the live pointers that calls of `kmalloc` and `kfree` lead to after
`kmalloc_init`, when `kfree` is called on live pointers only. -/
inductive Reach (R : Region) : Heap → List ℕ → Prop
  | init (header : ℕ → Header) : Reach R (kmallocInit header R.start R.size) []
  | malloc {h h' : Heap} {live : List ℕ} {fuel n p : ℕ} (hn : n < 2 ^ 64) :
    Reach R h live → kmalloc fuel h n = some (p, h') →
      Reach R h' (if p = 0 then live else p :: live)
  | free {h h' : Heap} {live : List ℕ} {fuel p : ℕ} :
    Reach R h live → p ∈ live → kfree fuel h p = some h' → Reach R h' (live.erase p)

end DexOs.KernelHeap
