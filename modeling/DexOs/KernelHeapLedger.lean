import DexOs.KernelHeapCoalescing
import DexOs.Lib.Ledger
import DexOs.BlockDevice
import Mathlib.Algebra.Order.Group.Multiset

/-! The kernel heap under its callers. The pointers that a caller holds are kept as a ledger: the heap is the
one before the call, and one more used block for each of them. -/

namespace DexOs

/-- What callers rely on: `kmalloc` enters the pointer that it returns, and `kfree` takes it out again. -/
structure HeapLedger {H : Type} [KernelAlloc H] (owes : Multiset ℕ → H → Prop) : Prop where
  malloc_none : ∀ {ps h n}, owes ps h → (KernelAlloc.kmalloc h n).1 = none → owes ps (KernelAlloc.kmalloc h n).2
  malloc_some : ∀ {ps h n p}, owes ps h → (KernelAlloc.kmalloc h n).1 = some p →
    owes ({p} + ps) (KernelAlloc.kmalloc h n).2
  free : ∀ {ps h p}, owes ({p} + ps) h → owes ps (KernelAlloc.kfree h p)

namespace KernelHeap

open DexOs.Lib

/-- A heap whose allocations may also fail when there is room: call number `i` of `kmalloc` does when
`fails i`. -/
structure FailingHeap where
  heap : Heap
  fails : ℕ → Bool
  calls : ℕ

def Heap.maxBlocks (h : Heap) : ℕ := h.heapSize / 32

def FailingHeap.kmalloc (h : FailingHeap) (n : ℕ) : Option ℕ × FailingHeap :=
  let after := { h with calls := h.calls + 1 }
  if h.fails h.calls then (none, after)
  else match KernelHeap.kmalloc (h.heap.maxBlocks + 1) h.heap n with
    | none => (none, after)
    | some (p, heap) => (if p = 0 then none else some p, { after with heap := heap })

def FailingHeap.kfree (h : FailingHeap) (p : ℕ) : FailingHeap :=
  match KernelHeap.kfree (h.heap.maxBlocks + 1) h.heap p with
  | none => h
  | some heap => { h with heap := heap }

theorem FailingHeap.kmalloc_zero (h : FailingHeap) : (h.kmalloc 0).1 = none := by
  unfold FailingHeap.kmalloc
  dsimp only
  split
  · rfl
  · rw [KernelHeap.kmalloc, if_pos (.inl rfl)]
    rfl

instance : KernelAlloc FailingHeap where
  kmalloc := FailingHeap.kmalloc
  kfree := FailingHeap.kfree
  kmalloc_zero := FailingHeap.kmalloc_zero

instance : KernelAlloc Heap where
  kmalloc h n :=
    match KernelHeap.kmalloc (h.maxBlocks + 1) h n with
    | none => (none, h)
    | some (p, h') => (if p = 0 then none else some p, h')
  kfree h p := (KernelHeap.kfree (h.maxBlocks + 1) h p).getD h
  kmalloc_zero h := by rw [KernelHeap.kmalloc, if_pos (.inl rfl)]; rfl

theorem kmalloc_of_some {h h' : Heap} {n p : ℕ} (hk : KernelHeap.kmalloc (h.maxBlocks + 1) h n = some (p, h')) :
    KernelAlloc.kmalloc h n = (if p = 0 then none else some p, h') := by
  simp only [KernelAlloc.kmalloc, hk]

def bootHeap : Heap := kmallocInit (fun _ => ⟨0, false, 0⟩) 0x10000 0x40000

/-- The two heaps have the same list of blocks, and every block has the same header. -/
def SameBlocks (h h' : Heap) : Prop :=
  h'.head = h.head ∧ ∃ blocks, Linked (fun b => (h.header b).next) 0 h.head blocks ∧
    ∀ b ∈ blocks, h'.header b = h.header b

structure Owes (u : ℕ) (S : Space) (before : List (ℕ × ℕ)) (ps : Multiset ℕ) (h : Heap) (blocks : List ℕ) : Prop
    extends Tidy u S h blocks where
  size_eq : h.heapSize = S.size
  nodup : ps.Nodup
  kept : ∀ q ∈ before, q ∈ used S h blocks ∧ q.1 + headerSize ∉ ps
  new : ∀ q ∈ used S h blocks, q ∈ before ∨ q.1 + headerSize ∈ ps
  held : ∀ p ∈ ps, ∃ q ∈ used S h blocks, p = q.1 + headerSize

variable {u : ℕ} {S : Space} {before : List (ℕ × ℕ)} {ps : Multiset ℕ} {h h' : Heap} {blocks : List ℕ}

theorem Owes.malloc {fuel n p : ℕ} (o : Owes u S before ps h blocks) (hk : kmalloc fuel h n = some (p, h')) :
    (p = 0 ∧ h' = h) ∨ p ≠ 0 ∧ ∃ blocks', Owes u S before ({p} + ps) h' blocks' := by
  rcases kmalloc_used o.toTidy hk with hnone | ⟨b, m, blocks', rfl, t, hsize, habsent, hused⟩
  · exact .inl hnone
  · right
    have hne (q : ℕ × ℕ) (hq : q ∈ used S h blocks) : q.1 + headerSize ≠ b + headerSize := by
      intro he
      obtain rfl : q.1 = b := Nat.add_right_cancel he
      exact habsent q.2 hq
    refine ⟨by rw [headerSize_eq]; omega, blocks', t, hsize.trans o.size_eq, ?_, ?_, ?_, ?_⟩
    · rw [Multiset.singleton_add, Multiset.nodup_cons]
      refine ⟨fun hp => ?_, o.nodup⟩
      obtain ⟨q, hq, he⟩ := o.held _ hp
      exact hne q hq he.symm
    · intro q hq
      obtain ⟨hin, hout⟩ := o.kept q hq
      refine ⟨(hused q).mpr (.inr hin), ?_⟩
      rw [Multiset.singleton_add, Multiset.mem_cons, not_or]
      exact ⟨hne q hin, hout⟩
    · intro q hq
      rw [Multiset.singleton_add, Multiset.mem_cons]
      rcases (hused q).mp hq with rfl | hq
      · exact .inr (.inl rfl)
      · rcases o.new q hq with hq | hq
        · exact .inl hq
        · exact .inr (.inr hq)
    · intro p hp
      rw [Multiset.singleton_add, Multiset.mem_cons] at hp
      rcases hp with rfl | hp
      · exact ⟨(b, m), (hused _).mpr (.inl rfl), rfl⟩
      · obtain ⟨q, hq, he⟩ := o.held p hp
        exact ⟨q, (hused q).mpr (.inr hq), he⟩

theorem Owes.free {fuel p : ℕ} (o : Owes u S before ({p} + ps) h blocks) (hf : S.size / 32 < fuel) :
    ∃ h' blocks', kfree fuel h p = some h' ∧ Owes u S before ps h' blocks' := by
  have hnd := o.nodup
  rw [Multiset.singleton_add, Multiset.nodup_cons] at hnd
  obtain ⟨⟨b, m⟩, hq, rfl⟩ := o.held p (by simp)
  obtain ⟨hb, hfree, -⟩ := o.toTiled.mem_used.mp hq
  obtain ⟨h', hk⟩ := Option.isSome_iff_exists.mp (kfree_isSome o.toTiled hf hb)
  obtain ⟨blocks', t, hsize, hused⟩ := kfree_used o.toTidy hb hfree hk
  refine ⟨h', blocks', hk, t, hsize.trans o.size_eq, hnd.2, ?_, ?_, ?_⟩
  · intro q hq
    obtain ⟨hin, hout⟩ := o.kept q hq
    rw [Multiset.singleton_add, Multiset.mem_cons, not_or] at hout
    refine ⟨(hused q).mpr ⟨hin, fun he => hout.1 ?_⟩, hout.2⟩
    rw [he]
  · intro q hq
    obtain ⟨hin, hne⟩ := (hused q).mp hq
    rcases o.new q hin with hq | hq
    · exact .inl hq
    · rw [Multiset.singleton_add, Multiset.mem_cons] at hq
      exact .inr (hq.resolve_left fun he => hne (Nat.add_right_cancel he))
  · intro p hp
    obtain ⟨q, hq, rfl⟩ := o.held p (by simp [hp])
    refine ⟨q, (hused q).mpr ⟨hq, ?_⟩, rfl⟩
    rintro rfl
    exact hnd.1 hp

theorem Tidy.owes (t : Tidy u S h blocks) (hs : h.heapSize = S.size) : Owes u S (used S h blocks) 0 h blocks where
  toTidy := t
  size_eq := hs
  nodup := Multiset.nodup_zero
  kept _ hq := ⟨hq, Multiset.notMem_zero _⟩
  new _ hq := .inl hq
  held p hp := absurd hp (Multiset.notMem_zero p)

theorem Owes.sameBlocks {blocks' : List ℕ} (t : Tidy u S h blocks) (o : Owes u S (used S h blocks) 0 h' blocks') :
    SameBlocks h h' := by
  have hused (q : ℕ × ℕ) : q ∈ usedFrom S.start (pieces h' blocks') ↔ q ∈ usedFrom S.start (pieces h blocks) := by
    constructor
    · intro hq
      exact (o.new q hq).resolve_right (Multiset.notMem_zero _)
    · intro hq
      exact (o.kept q hq).1
  have hpieces : pieces h' blocks' = pieces h blocks := by
    apply settled_unique (fun x hx => piece_pos hx) (fun x hx => piece_pos hx) o.settled t.settled _ hused
    rw [o.toTiled.endOf_eq, t.toTiled.endOf_eq]
  obtain rfl := blocks_of_pieces t.tiles o.tiles hpieces
  have hhead : h'.head = h.head := by
    cases blocks' with
    | nil => exact o.linked.1.trans t.linked.1.symm
    | cons b bs => exact o.linked.1.1.trans t.linked.1.1.symm
  refine ⟨hhead, blocks', t.linked, fun b hb => ?_⟩
  have hpiece : piece h' b = piece h b := List.map_inj_left.mp hpieces b hb
  obtain ⟨hsize, hfree⟩ := Prod.mk.inj hpiece
  have hnext := o.linked.1.next_unique t.linked.1 b hb
  cases hh : h.header b with
  | mk size free next =>
    cases hh' : h'.header b with
    | mk size' free' next' =>
      rw [hh, hh'] at hsize hfree hnext
      dsimp only at hsize hfree hnext
      rw [Nat.add_left_cancel hsize, hfree, hnext]

def FailingHeap.Owing (u : ℕ) (S : Space) (before : List (ℕ × ℕ)) (ps : Multiset ℕ) (h : FailingHeap) : Prop :=
  ∃ blocks, Owes u S before ps h.heap blocks

theorem FailingHeap.kmalloc_owing {n : ℕ} {h : FailingHeap} (ho : FailingHeap.Owing u S before ps h) :
    ((h.kmalloc n).1 = none ∧ FailingHeap.Owing u S before ps (h.kmalloc n).2) ∨
      ∃ p, (h.kmalloc n).1 = some p ∧ FailingHeap.Owing u S before ({p} + ps) (h.kmalloc n).2 := by
  obtain ⟨blocks, o⟩ := ho
  have hfuel : S.size / 32 < h.heap.maxBlocks + 1 := by
    rw [Heap.maxBlocks, o.size_eq]
    exact Nat.lt_succ_self _
  obtain ⟨⟨p, heap⟩, hk⟩ := Option.isSome_iff_exists.mp (kmalloc_isSome o.toTiled hfuel n)
  unfold FailingHeap.kmalloc
  dsimp only
  split
  · exact .inl ⟨rfl, blocks, o⟩
  · rw [hk]
    dsimp only
    rcases o.malloc hk with ⟨rfl, rfl⟩ | ⟨hp, hblocks⟩
    · exact .inl ⟨if_pos rfl, blocks, o⟩
    · exact .inr ⟨p, if_neg hp, hblocks⟩

theorem FailingHeap.ledger (u : ℕ) (S : Space) (before : List (ℕ × ℕ)) : HeapLedger (FailingHeap.Owing u S before) where
  malloc_none ho hn := by
    rcases FailingHeap.kmalloc_owing ho with ⟨-, h⟩ | ⟨p, hp, -⟩
    · exact h
    · cases hn.symm.trans hp
  malloc_some ho hs := by
    rcases FailingHeap.kmalloc_owing ho with ⟨hn, -⟩ | ⟨p, hp, h⟩
    · cases hn.symm.trans hs
    · cases hp.symm.trans hs
      exact h
  free {ps h p} ho := by
    obtain ⟨blocks, o⟩ := ho
    have hfuel : S.size / 32 < h.heap.maxBlocks + 1 := by
      rw [Heap.maxBlocks, o.size_eq]
      exact Nat.lt_succ_self _
    obtain ⟨h', blocks', hk, o'⟩ := o.free hfuel
    refine ⟨blocks', ?_⟩
    change Owes u S before ps (h.kfree p).heap blocks'
    unfold FailingHeap.kfree
    rw [hk]
    exact o'

end KernelHeap

end DexOs
