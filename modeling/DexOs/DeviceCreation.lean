import DexOs.KernelHeapLedger
import DexOs.KernelHeapRequests
import DexOs.RamdiskCreate

/-! `ramdisk_create` and `memdisk_register` on the kernel heap: what is left behind when they fail. -/

namespace DexOs

open DexOs.Lib DexOs.Frames DexOs.KernelHeap

def Kernel.memdiskRegister {H : Type} [KernelAlloc H] (k : Kernel H) (name : Option (List UInt8)) (p : Memdisk)
    (sectorSize : ℕ) : ℤ × Kernel H :=
  match name with
  | none => (-1, k)
  | some name =>
    if p.base = 0 ∨ p.bytes = 0 ∨ sectorSize = 0 then (-1, k)
    else if p.bytes % sectorSize ≠ 0 then (-1, k)
    else
      match KernelAlloc.kmalloc k.heap 56 with -- sizeof(block_device_t)
      | (none, h) => (-1, { k with heap := h })
      | (some d, h) =>
        match KernelAlloc.kmalloc h 24 with -- sizeof(memdisk_priv_t)
        | (none, h) => (-1, { k with heap := h })
        | (some _, h) =>
          (0, { k with heap := h, devices := blockRegister k.devices d ⟨memdiskDevice name p sectorSize, none⟩ })

/-- The heap has the same blocks, the frames are the same and counted the same, and no device has been registered. -/
structure NoTrace (k k' : Kernel Heap) : Prop where
  heap : SameBlocks k.heap k'.heap
  pmm : k'.pmm = k.pmm
  devices : k'.devices = k.devices

namespace Frames

variable {s : Pmm} {count max : ℕ}

/-- The free count covers `count` frames, and the lowest run of them that ends at or below `max` is not at address 0. -/
def Pmm.Grants (s : Pmm) (count max : ℕ) : Prop :=
  0 < count ∧ count * 4096 ≤ s.free ∧ ∃ r, r ≠ 0 ∧ IsLeast {r | s.FreeRun count max r} r

theorem isLeast_freeRun (hc : 0 < count) {i : ℕ} (hi : IsLeast {i | ClearRun s.bitmap count (s.limitIndex max) i} i) :
    IsLeast {r | s.FreeRun count max r} (s.frameAddr i) := by
  refine ⟨(freeRun_iff hc).mpr ⟨i, rfl, hi.1⟩, ?_⟩
  intro r hr
  obtain ⟨j, rfl, hj⟩ := (freeRun_iff hc).mp hr
  have hle : i ≤ j := hi.2 hj
  simp only [Pmm.frameAddr, frameSize_eq]
  omega

theorem allocBelow_ne_zero_iff (hmax : max < 2 ^ 64) : (pmmAllocFramesBelow s count max).1 ≠ 0 ↔ s.Grants count max := by
  have hlow {r : ℕ} (hr : s.FreeRun count max r) : r + count * 4096 < 2 ^ 64 := by
    obtain ⟨_, -, -, hend⟩ := hr
    omega
  constructor
  · intro h
    obtain ⟨hc, hrun⟩ := allocBelow_run hmax.le h
    have hlt := hlow hrun
    obtain ⟨i₀, -, hi₀⟩ := (freeRun_iff hc).mp hrun
    classical
    have hleast : IsLeast {i | ClearRun s.bitmap count (s.limitIndex max) i} (Nat.find ⟨i₀, hi₀⟩) :=
      ⟨Nat.find_spec (p := ClearRun s.bitmap count (s.limitIndex max)) ⟨i₀, hi₀⟩, fun i hi => Nat.find_min' _ hi⟩
    rw [pmmAllocFramesBelow_eq, allocBelowIndex, if_neg hc.ne', frameSize_eq, Nat.mod_eq_of_lt (by omega)] at h
    dsimp only at h
    by_cases hfree : s.free < count * 4096
    · rw [if_pos hfree] at h
      exact absurd rfl h
    · rw [if_neg hfree, scanRun_eq_some hc hleast] at h
      refine ⟨hc, Nat.le_of_not_lt hfree, _, ?_, isLeast_freeRun hc hleast⟩
      intro hzero
      rw [Pmm.frameAddr, frameSize_eq] at hzero
      dsimp only at h
      rw [hzero] at h
      exact absurd rfl h
  · rintro ⟨hc, hfree, r, hr0, hr⟩
    have hlt := hlow hr.1
    obtain ⟨i, rfl, hi⟩ := freeRun_isLeast hc hr
    rw [pmmAllocFramesBelow_eq, allocBelowIndex, if_neg hc.ne', frameSize_eq, Nat.mod_eq_of_lt (by omega)]
    dsimp only
    rw [if_neg (by omega), scanRun_eq_some hc hi]
    rw [Pmm.frameAddr, frameSize_eq] at hr0 hlt
    dsimp only
    rwa [Nat.mod_eq_of_lt (by omega)]

end Frames

namespace KernelHeap

def Room (h : Heap) (size : ℕ) : Prop :=
  ∃ blocks, Linked (fun b => (h.header b).next) 0 h.head blocks ∧ ∃ b ∈ blocks, Fits h size b

/-- Besides the first block that holds `first` bytes there is another that holds `second` bytes, or its rest does. -/
def RoomForBoth (h : Heap) (first second : ℕ) : Prop :=
  ∃ blocks b, Linked (fun b => (h.header b).next) 0 h.head blocks ∧ IsLeast {c | c ∈ blocks ∧ Fits h first c} b ∧
    ((∃ c ∈ blocks, c ≠ b ∧ Fits h second c) ∨ first + headerSize + second ≤ (h.header b).size)

def taken (h : Heap) (b asize : ℕ) : Heap :=
  (splitBlock h b asize).store b { (splitBlock h b asize).header b with free := false }

variable {u : ℕ} {S : Space} {R : Region} {h h' : Heap} {blocks live : List ℕ} {n p : ℕ}

theorem Reach.heapSize_eq (hr : Reach R h live) : h.heapSize = R.size := by
  induction hr with
  | init header => rfl
  | malloc _ hr hk ih =>
    obtain ⟨blocks, t, -⟩ := hr.invariant
    rcases kmalloc_pieces t hk with ⟨-, rfl⟩ | ⟨_, _, _, _, _, _, -, -, -, -, hsize, -⟩
    · exact ih
    · exact hsize.trans ih
  | free hr hp hk ih =>
    obtain ⟨blocks, t, o⟩ := hr.invariant
    obtain ⟨b, hb, rfl, -⟩ := o.owner _ hp
    obtain ⟨pre, post, rfl⟩ := List.append_of_mem hb
    obtain ⟨_, _, _, -, hsize, -⟩ := kfree_pieces t hk
    exact hsize.trans ih

theorem alloc_cases (t : Tiled u S h blocks) (hs : h.heapSize = S.size) (h0 : n ≠ 0) :
    ((∀ b ∈ blocks, ¬ Fits h (alignUp n 16) b) ∧ KernelAlloc.kmalloc h n = (none, h)) ∨
    ∃ pre b post, blocks = pre ++ b :: post ∧ Fits h (alignUp n 16) b ∧ (∀ c ∈ pre, ¬ Fits h (alignUp n 16) c) ∧
      KernelAlloc.kmalloc h n = (some (b + headerSize), taken h b (alignUp n 16)) := by
  have hfuel : S.size / 32 < h.maxBlocks + 1 := by
    rw [Heap.maxBlocks, hs]
    exact Nat.lt_succ_self _
  rcases kmalloc_first t hfuel h0 with ⟨hall, hk⟩ | ⟨pre, b, post, rfl, hfits, hpre, hk⟩
  · left
    refine ⟨hall, ?_⟩
    rw [kmalloc_of_some hk]
    rfl
  · right
    refine ⟨pre, b, post, rfl, hfits, hpre, ?_⟩
    have hpos : b + headerSize ≠ 0 := by
      have hb := t.block_pos (show b ∈ pre ++ b :: post by simp)
      omega
    rw [kmalloc_of_some hk, if_neg hpos]
    rfl

theorem not_sameBlocks_taken {pre post : List ℕ} {b asize : ℕ} (t : Tiled u S h (pre ++ b :: post)) (hf : Fits h asize b) :
    ¬ SameBlocks h (taken h b asize) := by
  rintro ⟨-, blocks, hl, hsame⟩
  obtain rfl := hl.unique t.linked
  have hb := congrArg Header.free (hsame b (by simp))
  rw [hf.1] at hb
  simp [taken] at hb

theorem sameBlocks_refl (t : Tiled u S h blocks) : SameBlocks h h := ⟨rfl, blocks, t.linked, fun _ _ => rfl⟩

theorem size_lt_of_splitBlock_eq {b asize : ℕ} (hlt : (h.header b).size < 2 ^ 64) (heq : splitBlock h b asize = h) :
    (h.header b).size < asize + headerSize + 16 := by
  by_contra hbig
  have hfit : (asize + headerSize + 16) % 2 ^ 64 ≤ (h.header b).size := by omega
  have hsize := congrArg (fun h => (h.header b).size) heq
  unfold splitBlock at hsize
  dsimp only at hsize
  rw [if_pos hfit] at hsize
  simp only [store_header, Function.update_self] at hsize
  have hheader := headerSize_eq
  omega

theorem splitBlock_heapSize (h : Heap) (b asize : ℕ) : (splitBlock h b asize).heapSize = h.heapSize := by
  unfold splitBlock
  dsimp only
  split_ifs <;> rfl

theorem taken_header_self (h : Heap) (b asize : ℕ) :
    (taken h b asize).header b = { (splitBlock h b asize).header b with free := false } := Function.update_self ..

theorem taken_header_ne {b asize c : ℕ} (hc : c ≠ b) : (taken h b asize).header c = (splitBlock h b asize).header c :=
  Function.update_of_ne hc ..

theorem not_fits_taken (h : Heap) (b asize second : ℕ) : ¬ Fits (taken h b asize) second b := by
  rintro ⟨hfree, -⟩
  rw [taken_header_self] at hfree
  exact Bool.false_ne_true hfree

theorem fits_taken_whole {b asize : ℕ} (he : splitBlock h b asize = h) (second : ℕ) :
    (∃ c ∈ blocks, Fits (taken h b asize) second c) ↔ ∃ c ∈ blocks, c ≠ b ∧ Fits h second c := by
  refine exists_congr fun c => and_congr_right fun _ => ?_
  by_cases hc : c = b
  · rw [hc]
    exact iff_of_false (not_fits_taken h b asize second) fun h => h.1 rfl
  · rw [Fits, taken_header_ne hc, he, and_iff_right hc, Fits]

theorem fits_taken_split {pre post : List ℕ} {b asize n rest next : ℕ} (hfresh : n ∉ pre ++ b :: post)
    (hn : (splitBlock h b asize).header n = ⟨rest, true, next⟩)
    (hframe : ∀ c, c ≠ b → c ≠ n → (splitBlock h b asize).header c = h.header c) (second : ℕ) :
    (∃ c ∈ pre ++ b :: n :: post, Fits (taken h b asize) second c) ↔
      (∃ c ∈ pre ++ b :: post, c ≠ b ∧ Fits h second c) ∨ second ≤ rest := by
  have hmem {c : ℕ} : c ∈ pre ++ b :: n :: post ↔ c = n ∨ c ∈ pre ++ b :: post := by
    simp only [List.mem_append, List.mem_cons]
    tauto
  have hnb : n ≠ b := fun hnb => hfresh (by simp [hnb])
  have hrest : Fits (taken h b asize) second n ↔ second ≤ rest := by
    rw [Fits, taken_header_ne hnb, hn]
    exact and_iff_right rfl
  have hother {c : ℕ} (hc : c ≠ b) (hcn : c ≠ n) : Fits (taken h b asize) second c ↔ Fits h second c := by
    rw [Fits, taken_header_ne hc, hframe c hc hcn, Fits]
  constructor
  · rintro ⟨c, hc, hfits⟩
    have hcb : c ≠ b := fun hcb => not_fits_taken h b asize second (hcb ▸ hfits)
    by_cases hcn : c = n
    · exact .inr (hrest.mp (hcn ▸ hfits))
    · exact .inl ⟨c, (hmem.mp hc).resolve_left hcn, hcb, (hother hcb hcn).mp hfits⟩
  · rintro (⟨c, hc, hcb, hfits⟩ | hroom)
    · have hcn : c ≠ n := fun hcn => hfresh (hcn ▸ hc)
      exact ⟨c, hmem.mpr (.inr hc), (hother hcb hcn).mpr hfits⟩
    · exact ⟨n, hmem.mpr (.inl rfl), hrest.mpr hroom⟩

theorem taken_spec {pre post : List ℕ} {b asize : ℕ} (t : Tiled u S h (pre ++ b :: post)) (hf : Fits h asize b)
    (ha : 16 ∣ asize) :
    ∃ blocks', Tiled u S (taken h b asize) blocks' ∧ (taken h b asize).heapSize = h.heapSize ∧
      ∀ second, 16 ≤ second → ((∃ c ∈ blocks', Fits (taken h b asize) second c) ↔
        (∃ c ∈ pre ++ b :: post, c ≠ b ∧ Fits h second c) ∨ asize + headerSize + second ≤ (h.header b).size) := by
  have hend := t.end_lt (show b ∈ pre ++ b :: post by simp)
  rcases splitBlock_cases t hf.2 ha with he | ⟨n, rest, -, hsum, t', hfresh, -, hn, hframe⟩
  · -- a block that is left whole has no room for a header and 16 bytes behind the first request
    have hsmall := size_lt_of_splitBlock_eq (by omega) he
    rw [← he] at t
    refine ⟨_, t.setFree b false, splitBlock_heapSize h b asize, ?_⟩
    intro second hsecond
    rw [or_iff_left (by omega)]
    exact fits_taken_whole he second
  · refine ⟨_, t'.setFree b false, splitBlock_heapSize h b asize, ?_⟩
    intro second _
    rw [hsum, Nat.add_le_add_iff_left]
    exact fits_taken_split hfresh hn hframe second

theorem room_iff (t : Tiled u S h blocks) (size : ℕ) : Room h size ↔ ∃ b ∈ blocks, Fits h size b := by
  constructor
  · rintro ⟨blocks', hl, hb⟩
    obtain rfl := hl.unique t.linked
    exact hb
  · exact fun hb => ⟨blocks, t.linked, hb⟩

theorem roomForBoth_iff {pre post : List ℕ} {b first second : ℕ} (t : Tiled u S h (pre ++ b :: post)) (hf : Fits h first b)
    (hpre : ∀ c ∈ pre, ¬ Fits h first c) :
    RoomForBoth h first second ↔
      (∃ c ∈ pre ++ b :: post, c ≠ b ∧ Fits h second c) ∨ first + headerSize + second ≤ (h.header b).size := by
  have hleast := t.isLeast_first hf hpre
  constructor
  · rintro ⟨blocks, c, hl, hc, hrest⟩
    obtain rfl := hl.unique t.linked
    rwa [hc.unique hleast] at hrest
  · exact fun hrest => ⟨_, b, t.linked, hleast, hrest⟩

theorem alloc_twice (t : Tiled u S h blocks) (hs : h.heapSize = S.size) {first second : ℕ} (h1 : first ≠ 0)
    (h2 : second ≠ 0) (hlt : second + 15 < 2 ^ 64) :
    (¬ Room h (alignUp first 16) ∧ KernelAlloc.kmalloc h first = (none, h)) ∨
    Room h (alignUp first 16) ∧ ∃ p h', KernelAlloc.kmalloc h first = (some p, h') ∧ ¬ SameBlocks h h' ∧
      ((¬ RoomForBoth h (alignUp first 16) (alignUp second 16) ∧ KernelAlloc.kmalloc h' second = (none, h')) ∨
        RoomForBoth h (alignUp first 16) (alignUp second 16) ∧ ∃ p' h'', KernelAlloc.kmalloc h' second = (some p', h'')) := by
  rcases alloc_cases t hs h1 with ⟨hall, hk⟩ | ⟨pre, b, post, rfl, hfits, hpre, hk⟩
  · left
    refine ⟨?_, hk⟩
    rw [room_iff t]
    rintro ⟨b, hb, hfits⟩
    exact hall b hb hfits
  · right
    refine ⟨(room_iff t _).mpr ⟨b, by simp, hfits⟩, _, _, hk, not_sameBlocks_taken t hfits, ?_⟩
    obtain ⟨blocks', t', hs', hroom⟩ := taken_spec t hfits (alignUp_dvd first 16)
    have hsecond : 16 ≤ alignUp second 16 := by
      rw [alignUp_eq_rounded hlt, rounded]
      omega
    have hboth := (roomForBoth_iff t hfits hpre).trans (hroom _ hsecond).symm
    rcases alloc_cases t' (hs'.trans hs) h2 with ⟨hall, hk'⟩ | ⟨pre', b', post', rfl, hfits', -, hk'⟩
    · left
      refine ⟨?_, hk'⟩
      rw [hboth]
      rintro ⟨c, hc, hfits⟩
      exact hall c hc hfits
    · right
      exact ⟨hboth.mpr ⟨b', by simp, hfits'⟩, _, _, hk'⟩

theorem alignUp_ramdisk : alignUp 16 16 = 16 := by
  rw [alignUp_eq_rounded (by decide), rounded]

theorem alignUp_blockDevice : alignUp 56 16 = 64 := by
  rw [alignUp_eq_rounded (by decide), rounded]

theorem alignUp_memdiskPriv : alignUp 24 16 = 32 := by
  rw [alignUp_eq_rounded (by decide), rounded]

end KernelHeap

section Creation

variable {u : ℕ} {S : Space} {k k' : Kernel Heap} {blocks : List ℕ}

theorem not_noTrace (hdiff : ¬ SameBlocks k.heap k'.heap) : ¬ ((-1 : ℤ) = -1 → NoTrace k k') :=
  fun h => hdiff (h rfl).heap

theorem noTrace_refl (t : Tiled u S k.heap blocks) : NoTrace k k := ⟨sameBlocks_refl t, rfl, rfl⟩

theorem noTrace_of_zero : (0 : ℤ) = -1 → NoTrace k k' := fun h => absurd h (by decide)

theorem ramdiskCreate_noTrace_iff (t : Tiled u S k.heap blocks) (hs : k.heap.heapSize = S.size) (name : Option (List UInt8))
    (bytes : ℕ) :
    ((ramdiskCreate name bytes k).1 = -1 → NoTrace k (ramdiskCreate name bytes k).2) ↔
      name = none ∨ bytes = 0 ∨ ¬ Room k.heap 16 ∨
        k.pmm.Grants (backingPages (roundedBytes bytes)) (2 ^ 30) ∧ RoomForBoth k.heap 16 64 := by
  cases name with
  | none => exact iff_of_true (fun _ => noTrace_refl t) (.inl rfl)
  | some name =>
    rw [or_iff_right (Option.some_ne_none name)]
    unfold ramdiskCreate
    dsimp only
    by_cases h0 : bytes = 0
    · rw [if_pos h0]
      exact iff_of_true (fun _ => noTrace_refl t) (.inl h0)
    rw [or_iff_right h0, if_neg h0, ← allocBelow_ne_zero_iff (by decide)]
    have halloc := alloc_twice t hs (show 16 ≠ 0 by decide) (show 56 ≠ 0 by decide) (by decide)
    rw [alignUp_ramdisk, alignUp_blockDevice] at halloc
    rcases halloc with ⟨hfull, hk⟩ | ⟨hroom, p, h, hk, hdiff, hsecond⟩
    · rw [hk]
      exact iff_of_true (fun _ => noTrace_refl t) (.inl hfull)
    rw [or_iff_right (not_not_intro hroom), hk]
    dsimp only
    by_cases hz : (pmmAllocFramesBelow k.pmm (backingPages (roundedBytes bytes)) (2 ^ 30)).1 = 0
    · -- `rd` is lost when no frames are found
      rw [if_pos hz]
      exact iff_of_false (not_noTrace hdiff) fun h => h.1 hz
    rw [if_neg hz, and_iff_right hz]
    rcases hsecond with ⟨hnot, hk'⟩ | ⟨hboth, p', h', hk'⟩
    · -- `rd` and the frames are lost when there is no room for the device
      rw [hk']
      exact iff_of_false (not_noTrace hdiff) hnot
    · rw [hk']
      exact iff_of_true noTrace_of_zero hboth

theorem memdiskRegister_noTrace_iff (t : Tiled u S k.heap blocks) (hs : k.heap.heapSize = S.size)
    (name : Option (List UInt8)) (p : Memdisk) (sectorSize : ℕ) :
    ((k.memdiskRegister name p sectorSize).1 = -1 → NoTrace k (k.memdiskRegister name p sectorSize).2) ↔
      name = none ∨ (p.base = 0 ∨ p.bytes = 0 ∨ sectorSize = 0) ∨ p.bytes % sectorSize ≠ 0 ∨ ¬ Room k.heap 64 ∨
        RoomForBoth k.heap 64 32 := by
  cases name with
  | none => exact iff_of_true (fun _ => noTrace_refl t) (.inl rfl)
  | some name =>
    rw [or_iff_right (Option.some_ne_none name)]
    unfold Kernel.memdiskRegister
    dsimp only
    by_cases h0 : p.base = 0 ∨ p.bytes = 0 ∨ sectorSize = 0
    · rw [if_pos h0]
      exact iff_of_true (fun _ => noTrace_refl t) (.inl h0)
    rw [or_iff_right h0, if_neg h0]
    by_cases hmod : p.bytes % sectorSize ≠ 0
    · rw [if_pos hmod]
      exact iff_of_true (fun _ => noTrace_refl t) (.inl hmod)
    rw [or_iff_right hmod, if_neg hmod]
    have halloc := alloc_twice t hs (show 56 ≠ 0 by decide) (show 24 ≠ 0 by decide) (by decide)
    rw [alignUp_blockDevice, alignUp_memdiskPriv] at halloc
    rcases halloc with ⟨hfull, hk⟩ | ⟨hroom, d, h, hk, hdiff, hsecond⟩
    · rw [hk]
      exact iff_of_true (fun _ => noTrace_refl t) (.inl hfull)
    rw [or_iff_right (not_not_intro hroom), hk]
    dsimp only
    rcases hsecond with ⟨hnot, hk'⟩ | ⟨hboth, q, h', hk'⟩
    · -- `d` is lost when there is no room for its private data
      rw [hk']
      exact iff_of_false (not_noTrace hdiff) hnot
    · rw [hk']
      exact iff_of_true noTrace_of_zero hboth

theorem Kernel.memdiskRegister_eq {H : Type} [KernelAlloc H] (k : Kernel H) (name : List UInt8) (p : Memdisk)
    (sectorSize : ℕ) :
    ((k.memdiskRegister (some name) p sectorSize).1 = 0 ↔ (DexOs.memdiskRegister name p sectorSize k.heap).1.isSome) ∧
    (k.memdiskRegister (some name) p sectorSize).2.heap = (DexOs.memdiskRegister name p sectorSize k.heap).2 := by
  unfold Kernel.memdiskRegister DexOs.memdiskRegister
  dsimp only
  split_ifs
  · simp
  · simp
  obtain ⟨d, h, hd⟩ : ∃ d h, KernelAlloc.kmalloc k.heap 56 = (d, h) := ⟨_, _, rfl⟩
  rw [hd]
  cases d with
  | none => simp
  | some d =>
    dsimp only
    obtain ⟨q, h', hq⟩ : ∃ q h', KernelAlloc.kmalloc h 24 = (q, h') := ⟨_, _, rfl⟩
    rw [hq]
    cases q <;> simp

/-- A failed `ramdisk_create` leaves no trace if and only if the arguments are refused, the heap has no room for the first
block, or nothing fails: the frames are found and the heap has room for both blocks. Likewise `memdisk_register`. -/
theorem creation_traceless_iff {R : KernelHeap.Region} {live : List ℕ} (hr : Reach R k.heap live) :
    (∀ name bytes, ((ramdiskCreate name bytes k).1 = -1 → NoTrace k (ramdiskCreate name bytes k).2) ↔
      name = none ∨ bytes = 0 ∨ ¬ Room k.heap 16 ∨
        k.pmm.Grants (backingPages (roundedBytes bytes)) (2 ^ 30) ∧ RoomForBoth k.heap 16 64) ∧
    (∀ name p sectorSize,
      ((k.memdiskRegister name p sectorSize).1 = -1 → NoTrace k (k.memdiskRegister name p sectorSize).2) ↔
        name = none ∨ (p.base = 0 ∨ p.bytes = 0 ∨ sectorSize = 0) ∨ p.bytes % sectorSize ≠ 0 ∨ ¬ Room k.heap 64 ∨
          RoomForBoth k.heap 64 32) := by
  obtain ⟨blocks, t, -⟩ := hr.invariant
  exact ⟨ramdiskCreate_noTrace_iff t hr.heapSize_eq, memdiskRegister_noTrace_iff t hr.heapSize_eq⟩

end Creation

def fullKernel : Kernel Heap where
  mem := fun _ => 0
  pmm := { fourFrames with free := 0, bitmap := fun _ => 255 }
  heap := kmallocInit (fun _ => ⟨0, false, 0⟩) smallRegion.start smallRegion.size
  devices := ⟨0, fun _ => 0, fun _ => ⟨ramdiskDevice [] ⟨0, 0⟩, none⟩⟩

theorem creation_traceless_iff_full : NoTrace fullKernel (ramdiskCreate (some [114]) 0 fullKernel).2 ∧
    (Room fullKernel.heap 64 → RoomForBoth fullKernel.heap 64 32) := by
  have hr : Reach smallRegion fullKernel.heap [] := Reach.init _
  constructor
  · exact ((creation_traceless_iff hr).1 (some [114]) 0).mpr (.inr (.inl rfl)) (by decide +kernel)
  · intro hroom
    -- this disk is registered, so the heap had room for both blocks
    have hdisk := ((creation_traceless_iff hr).2 (some [109]) ⟨4096, 512, true⟩ 512).mp fun h => absurd h (by decide +kernel)
    rwa [or_iff_right (by decide), or_iff_right (by decide), or_iff_right (by decide), or_iff_right (not_not_intro hroom)]
      at hdisk

theorem ramdisk_block_lost : Reach smallRegion fullKernel.heap [] ∧ (ramdiskCreate (some [114]) 512 fullKernel).1 = -1 ∧
    ¬ NoTrace fullKernel (ramdiskCreate (some [114]) 512 fullKernel).2 := by
  refine ⟨Reach.init _, by decide +kernel, ?_⟩
  intro h
  obtain ⟨-, blocks, hl, hsame⟩ := h.heap
  obtain rfl := hl.unique (init_tiled smallRegion fun _ => ⟨0, false, 0⟩).linked
  have hfree := congrArg Header.free (hsame smallRegion.start List.mem_cons_self)
  have hused : ((ramdiskCreate (some [114]) 512 fullKernel).2.heap.header smallRegion.start).free = false := by
    decide +kernel
  have hbefore : (fullKernel.heap.header smallRegion.start).free = true := by decide +kernel
  rw [hused, hbefore] at hfree
  exact Bool.false_ne_true hfree

end DexOs
