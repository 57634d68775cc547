import DexOs.Exfat
import DexOs.SectorStore

/-! A mounted volume as a FAT and an array of clusters, and what each device access of the driver
does to it. -/

namespace DexOs.Exfat

open DexOs.Lib

variable {σ H : Type}

/-- A mounted volume: FAT and root directory lie on the device, the cluster heap lies beside the FAT
and has 32-bit sector numbers. -/
structure Disk (σ : Type) extends SectorStore σ where
  fs : Fs σ
  bdev_eq : fs.bdev = dev
  bytes_eq : fs.bytesPerSector = 512
  spc_lt : fs.sectorsPerCluster < 256
  size_eq : fs.clusterSize = 512 * fs.sectorsPerCluster
  fat_on : fs.fatOffset + fs.fatLength ≤ sectors
  heap_fits : fs.clusterHeapOff + (fs.entries - 2) * fs.sectorsPerCluster ≤ 2 ^ 32
  apart : fs.fatOffset + fs.fatLength ≤ fs.clusterHeapOff ∨
    fs.clusterHeapOff + (fs.entries - 2) * fs.sectorsPerCluster ≤ fs.fatOffset
  root_ge : 2 ≤ fs.rootDirCluster
  root_lt : fs.rootDirCluster < fs.entries
  root_on : fs.clusterHeapOff + (fs.rootDirCluster - 2) * fs.sectorsPerCluster + fs.sectorsPerCluster ≤ sectors

structure Vol where
  fat : ℕ → ℕ
  data : ℕ → List UInt8

def Vol.setFat (v : Vol) (cl val : ℕ) : Vol := { v with fat := Function.update v.fat cl val }
def Vol.setData (v : Vol) (cl : ℕ) (buf : List UInt8) : Vol := { v with data := Function.update v.data cl buf }

namespace Disk

variable (D : Disk σ)

def start (cl : ℕ) : ℕ := D.fs.clusterHeapOff + (cl - 2) * D.fs.sectorsPerCluster

def Valid (cl : ℕ) : Prop := 2 ≤ cl ∧ cl < D.fs.entries

def On (cl : ℕ) : Prop := D.start cl + D.fs.sectorsPerCluster ≤ D.sectors

instance (cl : ℕ) : Decidable (D.Valid cl) := inferInstanceAs (Decidable (_ ∧ _))

instance (cl : ℕ) : Decidable (D.On cl) := inferInstanceAs (Decidable (_ ≤ _))

def volOf (c : ℕ → UInt8) : Vol where
  fat cl := if cl < D.fs.entries then leNat c 4 (512 * D.fs.fatOffset + 4 * cl) else 0
  data cl := if D.Valid cl then peek c (512 * D.start cl) D.fs.clusterSize else []

def vol (w : World σ H) : Vol := D.volOf (D.view w.dev)

variable {D}

theorem root_valid : D.Valid D.fs.rootDirCluster := ⟨D.root_ge, D.root_lt⟩

theorem root_on_device : D.On D.fs.rootDirCluster := D.root_on

theorem entries_eq : D.fs.entries = D.fs.fatLength * 512 % 2 ^ 32 / 4 := by rw [Fs.entries, D.bytes_eq]

theorem entries_lt : D.fs.entries < 2 ^ 30 := by
  rw [entries_eq]
  omega

theorem volOf_fat (c : ℕ → UInt8) {cl : ℕ} (h : cl < D.fs.entries) :
    (D.volOf c).fat cl = leNat c 4 (512 * D.fs.fatOffset + 4 * cl) := if_pos h

theorem volOf_data (c : ℕ → UInt8) {cl : ℕ} (h : D.Valid cl) :
    (D.volOf c).data cl = peek c (512 * D.start cl) D.fs.clusterSize := if_pos h

theorem data_length (w : World σ H) {cl : ℕ} (h : D.Valid cl) :
    ((D.vol w).data cl).length = D.fs.clusterSize := by rw [vol, volOf_data _ h, length_peek]

theorem Valid.end_le {cl : ℕ} (h : D.Valid cl) : D.start cl + D.fs.sectorsPerCluster ≤
    D.fs.clusterHeapOff + (D.fs.entries - 2) * D.fs.sectorsPerCluster := by
  obtain ⟨h1, h2⟩ := h
  have hmul : (cl - 2 + 1) * D.fs.sectorsPerCluster ≤ (D.fs.entries - 2) * D.fs.sectorsPerCluster :=
    Nat.mul_le_mul_right _ (by omega)
  rw [Nat.add_mul, Nat.one_mul] at hmul
  simp only [start]
  omega

theorem start_apart {a b : ℕ} (ha : 2 ≤ a) (hab : a < b) : D.start a + D.fs.sectorsPerCluster ≤ D.start b := by
  have hmul : (a - 2 + 1) * D.fs.sectorsPerCluster ≤ (b - 2) * D.fs.sectorsPerCluster :=
    Nat.mul_le_mul_right _ (by omega)
  rw [Nat.add_mul, Nat.one_mul] at hmul
  simp only [start]
  omega

theorem Valid.clToLba_eq {cl : ℕ} (h : D.Valid cl) : clToLba D.fs cl = D.start cl % 2 ^ 32 := by
  have hcl : (cl + 2 ^ 32 - 2) % 2 ^ 32 = cl - 2 := by
    have := entries_lt (D := D)
    obtain ⟨h1, h2⟩ := h
    omega
  rw [clToLba, hcl, start]

theorem Valid.clToLba_pos {cl : ℕ} (h : D.Valid cl) (hs : 0 < D.fs.sectorsPerCluster) :
    clToLba D.fs cl = D.start cl := by
  have hend := h.end_le
  have hfits := D.heap_fits
  rw [h.clToLba_eq, Nat.mod_eq_of_lt (by omega)]

theorem fatSlot_eq {cl : ℕ} (h : cl < D.fs.entries) :
    fatSlot D.fs cl = some (D.fs.fatOffset + 4 * cl / 512, 4 * cl % 512) ∧
      D.fs.fatOffset + 4 * cl / 512 + 1 ≤ D.sectors := by
  have hon := D.fat_on
  have hle := D.sectors_le
  rw [entries_eq] at h
  unfold fatSlot
  rw [D.bytes_eq, if_neg (by decide)]
  dsimp only
  rw [if_neg (by omega), Nat.mod_eq_of_lt (a := cl * 4) (by omega), Nat.mul_comm cl,
    Nat.mod_eq_of_lt (a := D.fs.fatOffset + 4 * cl / 512) (by omega)]
  exact ⟨rfl, by omega⟩

variable {w : World σ H}

theorem bdevRead_in {lba count : ℕ} (h : lba + count ≤ D.sectors) :
    Wp (bdevRead D.fs.bdev lba count) w fun r w' =>
      r = ((count : ℤ), peek (D.view w.dev) (512 * lba) (512 * count)) ∧ w' = w := by
  have hr := D.read_in w.dev lba count h
  refine ⟨_, _, ?_, rfl, rfl⟩
  rw [bdevRead, D.bdev_eq, D.read_eq]
  dsimp only
  rw [hr]

theorem bdevWrite_in {lba count : ℕ} {buf : List UInt8} (h : lba + count ≤ D.sectors)
    (hlen : buf.length = 512 * count) : Wp (bdevWrite D.fs.bdev lba buf count) w fun r w' =>
      r = count ∧ D.view w'.dev = poke (D.view w.dev) (512 * lba) buf := by
  obtain ⟨hr, hv⟩ := D.write_in w.dev h hlen
  refine ⟨(D.write w.dev lba buf count).1, { w with dev := (D.write w.dev lba buf count).2 }, ?_, hr, hv⟩
  rw [bdevWrite, D.bdev_eq, D.write_eq]

theorem bdevRead_out {lba count : ℕ} (hl : lba < 2 ^ 32) (hc : 0 < count) (hc' : count < 2 ^ 16)
    (h : D.sectors < lba + count) : Wp (bdevRead D.fs.bdev lba count) w fun r w' => r.1 = -1 ∧ w' = w := by
  obtain ⟨hr, hw⟩ := D.read_out w.dev lba count hl hc hc' h
  refine ⟨(D.read w.dev lba count).1, w, ?_, hr, rfl⟩
  rw [bdevRead, D.bdev_eq, D.read_eq]
  dsimp only
  rw [hw]

theorem bdevWrite_out {lba count : ℕ} {buf : List UInt8} (hl : lba < 2 ^ 32) (hc : 0 < count)
    (hc' : count < 2 ^ 16) (h : D.sectors < lba + count) :
    Wp (bdevWrite D.fs.bdev lba buf count) w fun r w' => r = -1 ∧ w' = w := by
  refine ⟨-1, w, ?_, rfl, rfl⟩
  rw [bdevWrite, D.bdev_eq, D.write_eq]
  dsimp only
  rw [D.write_out w.dev buf hl hc hc' h]

theorem fatGet_spec {cl : ℕ} (h : cl < D.fs.entries) :
    Wp (fatGet D.fs cl) w fun r w' => r = (D.vol w).fat cl ∧ w' = w := by
  obtain ⟨hslot, hon⟩ := fatSlot_eq h
  rw [fatGet, hslot]
  refine wp_bind (bdevRead_in hon) ?_
  rintro _ _ ⟨rfl, rfl⟩
  refine wp_pure ⟨?_, rfl⟩
  have hbyte : 512 * (D.fs.fatOffset + 4 * cl / 512) + 4 * cl % 512 = 512 * D.fs.fatOffset + 4 * cl := by omega
  rw [if_neg (by simp), leNat_peek _ _ (by omega), hbyte, vol, volOf_fat _ h]

theorem volOf_poke_fat (c : ℕ → UInt8) {cl val : ℕ} (h : cl < D.fs.entries) (hv : val < 2 ^ 32) :
    D.volOf (poke c (512 * D.fs.fatOffset + 4 * cl) (leBytes 4 val)) = (D.volOf c).setFat cl val := by
  have hlen := length_leBytes 4 val
  rw [volOf, Vol.setFat, Vol.mk.injEq]
  constructor
  · funext x
    by_cases hx : x < D.fs.entries
    · rw [if_pos hx]
      by_cases hxc : x = cl
      · subst hxc
        rw [Function.update_self, leNat_poke_self hv]
      · rw [Function.update_of_ne hxc, leNat_poke_of_disjoint (by omega), volOf_fat c hx]
    · have hxc : x ≠ cl := fun e => hx (e ▸ h)
      rw [if_neg hx, Function.update_of_ne hxc]
      exact (if_neg hx).symm
  · funext x
    by_cases hx : D.Valid x
    · have hend := hx.end_le
      have hapart := D.apart
      have hsize := D.size_eq
      have hstart : D.fs.clusterHeapOff ≤ D.start x := Nat.le_add_right _ _
      rw [entries_eq] at h
      rw [if_pos hx, peek_poke_of_disjoint (by omega), volOf_data c hx]
    · rw [if_neg hx]
      exact (if_neg hx).symm

theorem fatSet_spec {cl val : ℕ} (h : cl < D.fs.entries) (hv : val < 2 ^ 32) :
    Wp (fatSet D.fs cl val) w fun r w' => r = 0 ∧ D.vol w' = (D.vol w).setFat cl val := by
  obtain ⟨hslot, hon⟩ := fatSlot_eq h
  rw [fatSet, hslot]
  refine wp_bind (bdevRead_in hon) ?_
  rintro _ w ⟨rfl, rfl⟩
  rw [if_neg (by simp)]
  refine wp_bind (bdevWrite_in hon (by simp)) ?_
  rintro _ w' ⟨rfl, hv'⟩
  refine wp_pure ⟨if_pos rfl, ?_⟩
  have hbyte : 512 * (D.fs.fatOffset + 4 * cl / 512) + 4 * cl % 512 = 512 * D.fs.fatOffset + 4 * cl := by omega
  rw [vol, hv', poke_overlay_peek _ _ _ (by rw [length_leBytes]; omega), hbyte, volOf_poke_fat _ h hv]
  rfl

theorem readCluster_spec {cl : ℕ} (h : D.Valid cl) (hs : 0 < D.fs.sectorsPerCluster) :
    Wp (readCluster D.fs cl) w fun r w' =>
      r = (if D.On cl then some ((D.vol w).data cl) else none) ∧ w' = w := by
  have hlba := h.clToLba_pos hs
  have hspc := D.spc_lt
  unfold readCluster
  by_cases hon : D.On cl
  · refine wp_bind (bdevRead_in (by rw [hlba]; exact hon)) ?_
    rintro _ _ ⟨rfl, rfl⟩
    rw [if_pos rfl, if_neg (by rw [length_peek, D.size_eq]; omega)]
    refine wp_pure ⟨?_, rfl⟩
    rw [if_pos hon, length_peek, D.size_eq, Nat.sub_self, List.replicate_zero, List.append_nil, hlba, vol,
      volOf_data _ h, D.size_eq]
  · have hout : D.sectors < clToLba D.fs cl + D.fs.sectorsPerCluster := by
      rw [hlba]
      exact Nat.lt_of_not_le hon
    have hlt : clToLba D.fs cl < 2 ^ 32 := by rw [h.clToLba_eq]; exact Nat.mod_lt _ (by decide)
    refine wp_bind (bdevRead_out hlt hs (by omega) hout) ?_
    rintro r _ ⟨hr, rfl⟩
    rw [hr, if_neg (by omega)]
    exact wp_pure ⟨(if_neg hon).symm, rfl⟩

theorem volOf_poke_cluster (c : ℕ → UInt8) {cl : ℕ} (h : D.Valid cl) {buf : List UInt8}
    (hlen : buf.length = D.fs.clusterSize) :
    D.volOf (poke c (512 * D.start cl) buf) = (D.volOf c).setData cl buf := by
  have hsize := D.size_eq
  rw [volOf, Vol.setData, Vol.mk.injEq]
  constructor
  · funext x
    by_cases hx : x < D.fs.entries
    · have hend := h.end_le
      have hapart := D.apart
      have hstart : D.fs.clusterHeapOff ≤ D.start cl := Nat.le_add_right _ _
      have hx' := hx
      rw [entries_eq] at hx'
      rw [if_pos hx, leNat_poke_of_disjoint (by omega), volOf_fat c hx]
    · rw [if_neg hx]
      exact (if_neg hx).symm
  · funext x
    by_cases hx : D.Valid x
    · rw [if_pos hx]
      by_cases hxc : x = cl
      · subst hxc
        rw [Function.update_self, ← hlen, peek_poke_self]
      · rw [Function.update_of_ne hxc, volOf_data c hx]
        refine peek_poke_of_disjoint ?_
        rcases Nat.lt_or_gt_of_ne hxc with hlt | hlt
        · have := start_apart (D := D) hx.1 hlt
          omega
        · have := start_apart (D := D) h.1 hlt
          omega
    · have hxc : x ≠ cl := fun e => hx (e ▸ h)
      rw [if_neg hx, Function.update_of_ne hxc]
      exact (if_neg hx).symm

theorem writeCluster_spec {cl : ℕ} (h : D.Valid cl) (hs : 0 < D.fs.sectorsPerCluster) {buf : List UInt8}
    (hlen : buf.length = D.fs.clusterSize) : Wp (writeCluster D.fs cl buf) w fun r w' =>
      if D.On cl then r = 0 ∧ D.vol w' = (D.vol w).setData cl buf else r = -1 ∧ w' = w := by
  have hlba := h.clToLba_pos hs
  have hspc := D.spc_lt
  have hsize := D.size_eq
  unfold writeCluster
  dsimp only
  rw [D.bdev_eq, D.sector_size, if_neg (by omega), List.take_of_length_le (by omega), ← D.bdev_eq]
  by_cases hon : D.On cl
  · refine wp_bind (bdevWrite_in (by rw [hlba]; exact hon) (by omega)) ?_
    rintro _ w' ⟨rfl, hv⟩
    refine wp_pure ?_
    rw [if_pos hon, if_pos rfl]
    refine ⟨rfl, ?_⟩
    rw [vol, hv, hlba, volOf_poke_cluster _ h hlen]
    rfl
  · have hout : D.sectors < clToLba D.fs cl + D.fs.sectorsPerCluster := by
      rw [hlba]
      exact Nat.lt_of_not_le hon
    have hlt : clToLba D.fs cl < 2 ^ 32 := by rw [h.clToLba_eq]; exact Nat.mod_lt _ (by decide)
    refine wp_bind (bdevWrite_out hlt hs (by omega) hout) ?_
    rintro r _ ⟨rfl, rfl⟩
    refine wp_pure ?_
    rw [if_neg hon, if_neg (by omega)]
    exact ⟨rfl, rfl⟩

end Disk

section Heap

variable [KernelAlloc H] {w : World σ H} {D : Disk σ}

def AllocOk (H : Type) [KernelAlloc H] : Prop := ∀ (h : H) (n : ℕ), 0 < n → (KernelAlloc.kmalloc h n).1 ≠ none

theorem kmalloc_spec (D : Disk σ) (n : ℕ) : Wp (kmalloc n) w fun r w' =>
    D.vol w' = D.vol w ∧ (r ≠ none → 0 < n) ∧ (AllocOk H → 0 < n → r ≠ none) := by
  refine ⟨_, _, rfl, rfl, fun hr => ?_, fun ha hn => ha w.heap n hn⟩
  rcases Nat.eq_zero_or_pos n with rfl | hpos
  · exact absurd (KernelAlloc.kmalloc_zero w.heap) hr
  · exact hpos

theorem kfree_spec (D : Disk σ) (p : ℕ) : Wp (kfree p) w fun _ w' => D.vol w' = D.vol w :=
  ⟨_, _, rfl, rfl⟩

theorem clusterSize_pos (D : Disk σ) (h : 0 < D.fs.clusterSize) : 0 < D.fs.sectorsPerCluster := by
  have := D.size_eq
  omega

theorem kmalloc_run (n : ℕ) : Wp (kmalloc n) w fun r w' =>
    r = (KernelAlloc.kmalloc w.heap n).1 ∧ w' = { w with heap := (KernelAlloc.kmalloc w.heap n).2 } :=
  ⟨_, _, rfl, rfl, rfl⟩

theorem kfree_run (p : ℕ) : Wp (kfree p) w fun _ w' => w' = { w with heap := KernelAlloc.kfree w.heap p } :=
  ⟨_, _, rfl, rfl⟩

theorem pos_of_kmalloc {h : H} {n p : ℕ} (hp : (KernelAlloc.kmalloc h n).1 = some p) : 0 < n := by
  apply Nat.pos_of_ne_zero
  rintro rfl
  rw [KernelAlloc.kmalloc_zero] at hp
  cases hp

theorem loadRoot_exact (D : Disk σ) : Wp (loadRoot D.fs) w fun r w' => D.vol w' = D.vol w ∧
    r = (KernelAlloc.kmalloc w.heap D.fs.clusterSize).1.map fun p => (p, (D.vol w).data D.fs.rootDirCluster) := by
  unfold loadRoot
  apply wp_bind (kmalloc_run _)
  rintro r w1 ⟨hr, rfl⟩
  rw [← hr]
  cases r with
  | none => exact wp_pure ⟨rfl, rfl⟩
  | some p =>
    apply wp_bind (Disk.readCluster_spec Disk.root_valid (clusterSize_pos D (pos_of_kmalloc hr.symm)))
    rintro _ _ ⟨rfl, rfl⟩
    rw [if_pos Disk.root_on_device]
    exact wp_pure ⟨rfl, rfl⟩

theorem loadRoot_spec (D : Disk σ) : Wp (loadRoot D.fs) w fun r w' =>
    D.vol w' = D.vol w ∧ (∀ p dir, r = some (p, dir) → dir = (D.vol w).data D.fs.rootDirCluster ∧
      0 < D.fs.sectorsPerCluster) ∧ (AllocOk H → 0 < D.fs.clusterSize → r ≠ none) := by
  apply (loadRoot_exact D).mono
  rintro _ w' ⟨hv, rfl⟩
  cases hp : (KernelAlloc.kmalloc w.heap D.fs.clusterSize).1 with
  | none => exact ⟨hv, by simp, fun ha hpos => absurd hp (ha w.heap _ hpos)⟩
  | some p =>
    refine ⟨hv, ?_, by simp⟩
    rintro q dir ⟨⟩
    exact ⟨rfl, clusterSize_pos D (pos_of_kmalloc hp)⟩

end Heap

end DexOs.Exfat
