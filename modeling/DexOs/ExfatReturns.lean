import DexOs.ExfatGeometry
import DexOs.ExfatTraces

/-! When a write returns, for any geometry with sectors of 512 bytes: the FAT and the heap may overlap and lie outside
of the device. -/

namespace DexOs.Exfat

open DexOs.Lib

variable {σ H α : Type}

structure OnSectors (D : SectorDevice σ) (fs : Fs σ) : Prop where
  bdev_eq : fs.bdev = D.dev
  proper : Proper fs.bdev
  bytes_eq : fs.bytesPerSector = 512
  size_eq : fs.clusterSize = 512 * fs.sectorsPerCluster
  spc_pos : 0 < fs.sectorsPerCluster
  spc_lt : fs.sectorsPerCluster < 256

/-- The walk of `ensure_chain_length` along the chain from `first` comes to an end. -/
def ChainStops (fs : Fs σ) (first : ℕ) (w : World σ H) : Prop := ∃ fuel, Wp (chainEnd fs fuel first 1) w fun _ _ => True

variable {D : SectorDevice σ} {fs : Fs σ} {w : World σ H}

theorem OnSectors.fs512 (hv : OnSectors D fs) : Fs512 fs := by
  refine ⟨?_, hv.bytes_eq, hv.size_eq⟩
  rw [hv.bdev_eq, D.sector_size]

theorem OnSectors.size_pos (hv : OnSectors D fs) : 0 < fs.clusterSize := by
  have hpos := hv.spc_pos
  rw [hv.size_eq]
  omega

theorem wp_of_neutral {x : Io σ H α} {Q : α → Prop} (h : Neutral (Owed fun _ _ => True) (fun _ => False) x Q) :
    Wp x w fun a _ => Q a := ((h.ends (w := w) trivial).wp).mono fun _ _ h => h.1

section Store

variable (hv : OnSectors D fs)

include hv

theorem fatSlot_store (cl : ℕ) : ∃ sector off, fatSlot fs cl = some (sector, off) ∧ sector < 2 ^ 32 ∧ off + 4 ≤ 512 := by
  unfold fatSlot
  dsimp only
  rw [hv.bytes_eq, if_neg (by decide), if_neg (by omega)]
  exact ⟨_, _, rfl, Nat.mod_lt _ (by decide), by omega⟩

theorem fatGet_store {cl sector off : ℕ} (hslot : fatSlot fs cl = some (sector, off)) (hsector : sector < D.sectors)
    (hoff : off + 4 ≤ 512) : Wp (fatGet fs cl) w fun r _ => r = leNat (D.view w.dev) 4 (512 * sector + off) := by
  have hlt := D.sectors_le
  unfold fatGet
  rw [hslot, hv.bdev_eq]
  apply wp_bind (read_sector (by omega))
  rintro r w' ⟨-, hin, -⟩
  apply wp_pure
  rw [hin hsector, if_neg (lt_irrefl 1), leNat_peek _ _ hoff]

theorem fatSet_store {cl sector off : ℕ} (hslot : fatSlot fs cl = some (sector, off)) (hsector : sector < 2 ^ 32)
    (hoff : off + 4 ≤ 512) (val : ℕ) : Wp (fatSet fs cl val) w fun r w' => r = 0 →
      sector < D.sectors ∧ D.view w'.dev = poke (D.view w.dev) (512 * sector + off) (leBytes 4 val) := by
  unfold fatSet
  rw [hslot, hv.bdev_eq]
  apply wp_bind (read_sector hsector)
  rintro r w' ⟨rfl, hin, hout⟩
  rcases Nat.lt_or_ge sector D.sectors with hon | hoff'
  · rw [hin hon, if_neg (lt_irrefl 1)]
    apply wp_bind (write_sector hsector (by rw [length_overlay, length_peek]))
    rintro rc w2 ⟨rfl, hrc⟩
    refine wp_pure fun h0 => ⟨hon, ?_⟩
    have hw : D.writable = true := by
      by_contra hro
      rw [if_neg fun h => hro h.1] at hrc
      rw [hrc] at h0
      exact absurd h0 (by decide)
    dsimp only [put]
    rw [(D.write_within hw _ _ _ 1 hon (by rw [length_overlay, length_peek])).2,
      poke_overlay_peek _ _ _ (by rw [length_leBytes]; omega)]
  · rw [if_pos (by rw [hout hoff']; decide)]
    refine wp_pure fun h => ?_
    exact absurd h (by decide)

theorem writeCluster_store (cl : ℕ) {buf : List UInt8} (hlen : buf.length = fs.clusterSize) :
    Wp (writeCluster fs cl buf) w fun _ w' => D.view w'.dev = D.view w.dev ∨
      D.view w'.dev = poke (D.view w.dev) (512 * clToLba fs cl) buf := by
  have hlba : clToLba fs cl < 2 ^ 32 := Nat.mod_lt _ (by decide)
  have hspc := hv.spc_lt
  have hbytes : D.dev.sectorSize * fs.sectorsPerCluster = buf.length := by rw [D.sector_size, hlen, hv.size_eq]
  unfold writeCluster
  rw [hv.bdev_eq, hbytes]
  dsimp only
  rw [if_neg (lt_irrefl _), List.take_length]
  have hwrite : Wp (bdevWrite D.dev (clToLba fs cl) buf fs.sectorsPerCluster) w fun _ w' =>
      w'.dev = (D.write w.dev (clToLba fs cl) buf fs.sectorsPerCluster).2 := by
    refine ⟨(D.write w.dev (clToLba fs cl) buf fs.sectorsPerCluster).1,
      ⟨(D.write w.dev (clToLba fs cl) buf fs.sectorsPerCluster).2, w.heap⟩, ?_, rfl⟩
    simp only [bdevWrite, D.write_eq]
  apply wp_bind hwrite
  rintro r w' hw
  apply wp_pure
  rw [hw]
  by_cases hon : D.writable = true ∧ clToLba fs cl + fs.sectorsPerCluster ≤ D.sectors
  · right
    exact (D.write_within hon.1 _ _ _ _ hon.2 (by rw [hlen, hv.size_eq])).2
  · left
    rw [D.write_fails _ _ _ _ hlba hv.spc_pos (by omega)]
    intro hw
    have : ¬ clToLba fs cl + fs.sectorsPerCluster ≤ D.sectors := fun h => hon ⟨hw, h⟩
    omega

variable [KernelAlloc H]

theorem fatAllocFrom_store (n cl : ℕ) : Wp (fatAllocFrom fs n cl) w fun r w' => r ≠ 0 →
    Wp (fatGet fs r) w' fun v _ => v = eoc ∨ v = 0 := by
  induction n generalizing cl w with
  | zero => exact wp_pure fun h => absurd rfl h
  | succ n ih =>
    obtain ⟨sector, off, hslot, hsector, hoff⟩ := fatSlot_store hv cl
    rw [fatAllocFrom]
    apply wp_bind (wp_of_neutral (fatGet_neutral hv.fs512 (fun h => absurd hv.proper h) cl))
    rintro v w1 -
    split_ifs with hv0
    · apply wp_bind (fatSet_store hv hslot hsector hoff eoc)
      rintro rc w2 hset
      split_ifs with hrc
      · exact wp_pure fun h => absurd rfl h
      obtain ⟨hon, hview⟩ := hset (not_not.mp hrc)
      apply wp_bind (kmalloc_dev _)
      rintro (_ | p) w3 hw3
      · exact wp_pure fun h => absurd rfl h
      apply wp_bind (writeCluster_store hv cl List.length_replicate)
      rintro _ w4 hzero
      apply wp_bind (kfree_dev p)
      rintro _ w5 hw5
      refine wp_pure fun _ => (fatGet_store hv hslot hon hoff).mono ?_
      rintro v _ rfl
      rw [hw5]
      rw [hw3, hview] at hzero
      have hmark : leNat (poke (D.view w1.dev) (512 * sector + off) (leBytes 4 eoc)) 4 (512 * sector + off) = eoc :=
        leNat_poke_self (by decide)
      rcases hzero with hzero | hzero
      · left
        rw [hzero, hmark]
      · have hlen : (List.replicate fs.clusterSize (0 : UInt8)).length = 512 * fs.sectorsPerCluster := by
          rw [List.length_replicate, hv.size_eq]
        rw [hzero]
        by_cases hover : clToLba fs cl ≤ sector ∧ sector < clToLba fs cl + fs.sectorsPerCluster
        · right
          apply leNat_zeros
          intro i hi
          rw [poke, if_pos (by omega), byteAt_replicate_zero]
        · left
          rw [leNat_poke_of_disjoint (by omega), hmark]
    · exact ih (cl + 1)

theorem ensureChainLength_returns (first needed : ℕ) :
    (∃ fuel, Wp (ensureChainLength fuel fs first needed) w fun _ _ => True) ↔ first < 2 ∨ ChainStops fs first w := by
  have hextend (n cur : ℕ) (w : World σ H) : Wp (extendChain fs n cur) w fun _ _ => True :=
    wp_of_neutral (extendChain_neutral noLedger hv.fs512 (fun h => absurd hv.proper h) n cur)
  by_cases h2 : first < 2
  · refine iff_of_true ⟨1, ?_⟩ (.inl h2)
    unfold ensureChainLength
    rw [if_pos h2, fatAlloc]
    apply wp_bind (fatAllocFrom_store hv _ _)
    rintro ncl w1 hncl
    split_ifs with h0
    · exact wp_pure trivial
    have hend : Wp (chainEnd fs 1 ncl 1) w1 fun _ _ => True := by
      apply wp_bind (hncl h0)
      rintro v w2 hv
      rw [if_pos hv]
      exact wp_pure trivial
    apply wp_bind hend
    rintro r w2 -
    apply wp_bind (hextend _ _ _)
    rintro last w3 -
    exact wp_pure trivial
  · have hne : first ≠ 0 := by omega
    rw [or_iff_right h2]
    constructor
    · rintro ⟨fuel, r, w', hrun, -⟩
      unfold ensureChainLength at hrun
      rw [if_neg h2, pure_bind, if_neg hne] at hrun
      obtain ⟨a, w1, hwalk, -⟩ := bind_ok hrun
      exact ⟨fuel, a, w1, hwalk, trivial⟩
    · rintro ⟨fuel, hwalk⟩
      refine ⟨fuel, ?_⟩
      unfold ensureChainLength
      rw [if_neg h2, pure_bind, if_neg hne]
      apply wp_bind hwalk
      rintro r w1 -
      apply wp_bind (hextend _ _ _)
      rintro last w2 -
      exact wp_pure trivial

theorem exfatWrite_answers_iff (node : Node) (off : ℕ) (buf : List UInt8) :
    (∃ fuel, Wp (exfatWrite fuel fs node off buf) w fun _ _ => True) ↔
      node.isDir = true ∨ buf = [] ∨ node.firstCluster < 2 ∨ ChainStops fs node.firstCluster w := by
  have hE : ¬ Proper fs.bdev → False := fun h => h hv.proper
  by_cases hdir : node.isDir = true
  · refine iff_of_true ⟨0, ?_⟩ (.inl hdir)
    rw [exfatWrite, if_pos hdir]
    exact wp_pure trivial
  by_cases hnil : buf = []
  · refine iff_of_true ⟨0, ?_⟩ (.inr (.inl hnil))
    rw [exfatWrite, if_neg hdir, if_pos hnil]
    exact wp_pure trivial
  have hsize : ¬ fs.clusterSize = 0 := hv.size_pos.ne'
  rw [or_iff_right hdir, or_iff_right hnil, ← ensureChainLength_returns hv _
    (((off + buf.length) % 2 ^ 64 + fs.clusterSize + (2 ^ 64 - 1)) % 2 ^ 64 / fs.clusterSize)]
  apply exists_congr
  intro fuel
  unfold exfatWrite
  rw [if_neg hdir, if_neg hnil, if_neg hsize]
  dsimp only
  constructor
  · rintro ⟨r, w', hrun, -⟩
    obtain ⟨a, w1, hensure, -⟩ := bind_ok hrun
    exact ⟨a, w1, hensure, trivial⟩
  · intro hensure
    apply wp_bind hensure
    rintro r w1 -
    split
    · exact wp_pure trivial
    apply wp_bind (wp_of_neutral (writeSkip_neutral noLedger hv.fs512 hE _ _))
    rintro cl w2 -
    split
    · exact wp_pure trivial
    apply wp_bind (wp_of_neutral
      (writeLoop_neutral noLedger hv.fs512 hE (le_refl buf.length) (Nat.mod_lt off hv.size_pos)))
    rintro ok w3 -
    split
    · exact wp_pure trivial
    apply wp_bind (wp_of_neutral (dirUpdateStream_neutral noLedger hv.fs512 hE _ _ _))
    rintro _ w4 -
    exact wp_pure trivial

end Store

end DexOs.Exfat
