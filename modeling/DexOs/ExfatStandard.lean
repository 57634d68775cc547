import DexOs.ExfatGeometry
import DexOs.ExfatTermination

/-! What `exfat_mount` makes of a boot sector of the exFAT specification, and where the driver then reads. -/

namespace DexOs.Exfat

open DexOs.Lib

variable {σ H : Type}

/-- A device with a record of its read requests, as pairs of first sector and count. -/
def recorded (d : BlockDevice σ) : BlockDevice (σ × List (ℕ × ℕ)) where
  name := d.name
  sectorSize := d.sectorSize
  sectorCount := d.sectorCount
  read := d.read.map fun read s lba count =>
    let r := read s.1 lba count
    (r.1, (r.2, s.2 ++ [(lba, count)]))
  write := d.write.map fun write s lba buf count =>
    let r := write s.1 lba buf count
    (r.1, (r.2, s.2))

def fatOffset (vbr : ℕ → UInt8) : ℕ := leNat vbr 4 80

def clusterHeapOffset (vbr : ℕ → UInt8) : ℕ := leNat vbr 4 88

def firstClusterOfRootDirectory (vbr : ℕ → UInt8) : ℕ := leNat vbr 4 96

def clusterSectors (vbr : ℕ → UInt8) : ℕ := 2 ^ (vbr 109).toNat

/-- The signature, and `BytesPerSectorShift` for sectors of 512 bytes. The other fields are free. -/
structure StandardBoot (vbr : ℕ → UInt8) : Prop where
  signed : Signed vbr
  sectors : (vbr 108).toNat = 9

def clusterRequest (vbr : ℕ → UInt8) (c : ℕ) : ℕ × ℕ :=
  (clusterHeapOffset vbr + (c - 2) * clusterSectors vbr, clusterSectors vbr)

def ReadsCluster (vbr : ℕ → UInt8) (fs : Fs (σ × List (ℕ × ℕ))) (c : ℕ) : Prop :=
  ∀ w : World (σ × List (ℕ × ℕ)) H, Wp (readCluster fs c) w fun _ w' => w'.dev.2 = w.dev.2 ++ [clusterRequest vbr c]

/-- The word at byte `FatOffset * 512 + 4 * c`, where the device has it. -/
def ReadsEntry (R : SectorReader σ) (vbr : ℕ → UInt8) (fs : Fs (σ × List (ℕ × ℕ))) (c : ℕ) : Prop :=
  ∀ w : World (σ × List (ℕ × ℕ)) H, fatOffset vbr * 512 + 4 * c + 4 ≤ 512 * R.sectors →
    Wp (fatGet fs c) w fun r _ => r = leNat (R.view w.dev.1) 4 (fatOffset vbr * 512 + 4 * c)

/-- Mounting a volume as the specification lays it out. -/
def MountsStandard [KernelAlloc H] (R : SectorReader σ) (w : World (σ × List (ℕ × ℕ)) H) : Prop :=
  let vbr := R.view w.dev.1
  Wp (exfatMount (recorded R.dev)) w fun r _ => ∃ fs, r = some fs ∧
    (∀ c, 2 ≤ c → ReadsCluster (H := H) vbr fs c ∧ ReadsEntry (H := H) R vbr fs c) ∧
    fs.rootDirCluster = firstClusterOfRootDirectory vbr

section Requests

variable {d : BlockDevice σ} {R : SectorReader σ} {w : World (σ × List (ℕ × ℕ)) H}

theorem bdevRead_recorded (lba count : ℕ) : Ends (bdevRead (recorded d) lba count) w (fun _ => True) fun _ w' =>
    w'.dev.2 = w.dev.2 ++ [(lba, count)] := by
  unfold Ends bdevRead recorded
  cases d.read with
  | none => trivial
  | some read => rfl

theorem readCluster_recorded {fs : Fs (σ × List (ℕ × ℕ))} (hfs : fs.bdev = recorded d) (c : ℕ) :
    Ends (readCluster fs c) w (fun _ => True) fun _ w' =>
      w'.dev.2 = w.dev.2 ++ [(clToLba fs c, fs.sectorsPerCluster)] := by
  unfold readCluster
  rw [hfs]
  apply ends_bind (bdevRead_recorded _ _)
  intro r w' hlog
  split
  · split
    · trivial
    · exact hlog
  · exact hlog

theorem readBoot_recorded {w' : World (σ × List (ℕ × ℕ)) H} (h : 1 ≤ R.sectors) (hdev : w'.dev = w.dev) :
    Ends (bdevRead (recorded R.dev) 0 1) w' (fun _ => True) fun r _ => r = (1, peek (R.view w.dev.1) 0 512) := by
  unfold Ends bdevRead recorded
  simp only [R.read_eq, Option.map_some, hdev]
  rw [R.read_in w.dev.1 0 1 h]
  rfl

theorem exfatMount_recorded [KernelAlloc H] (h : 1 ≤ R.sectors) (hboot : StandardBoot (R.view w.dev.1)) :
    Ends (exfatMount (recorded R.dev)) w (fun _ => True) fun r _ => ∀ fs, r = some fs →
      fs = signedFs (recorded R.dev) (R.view w.dev.1) := by
  have hsize : ¬ (recorded R.dev).sectorSize ≠ 512 := not_not.mpr R.sector_size
  have hheap : Ends (kmalloc 40 : Io (σ × List (ℕ × ℕ)) H _) w (fun _ => True) fun _ w' => w'.dev = w.dev := rfl
  unfold exfatMount
  rw [if_neg hsize]
  apply ends_bind hheap
  intro r w1 hdev
  cases r with
  | none =>
    intro fs hfs
    cases hfs
  | some p =>
    apply ends_bind (R := fun r _ => r = (1, peek (R.view w.dev.1) 0 512))
    · exact readBoot_recorded h hdev
    intro r w2 hr
    have hsigned : r.1 = 1 ∧ (r.2.drop 3).take 8 = [0x45, 0x58, 0x46, 0x41, 0x54, 0x20, 0x20, 0x20] := by
      rw [hr, drop_take_peek _ _ (by decide)]
      exact ⟨rfl, hboot.signed⟩
    rw [if_pos hsigned, hr]
    dsimp only
    rw [byteAt_peek _ _ (by decide), byteAt_peek _ _ (by decide)]
    split
    · trivial
    · intro fs hfs
      obtain rfl := Option.some.inj hfs
      rw [leNat_peek _ _ (by decide),
        leNat_peek _ _ (by decide), leNat_peek _ _ (by decide), leNat_peek _ _ (by decide)]
      rfl

theorem signedFs_misreads (vbr : ℕ → UInt8) (w : World (σ × List (ℕ × ℕ)) H) (c : ℕ) :
    ¬ ReadsCluster (H := H) vbr (signedFs (recorded d) vbr) c := by
  intro hreads
  obtain ⟨r, w', hread, hlog⟩ := hreads w
  rw [(readCluster_recorded rfl c).post hread] at hlog
  have hpair := List.append_cancel_left hlog
  have hcount : (vbr 109).toNat = 2 ^ (vbr 109).toNat := (Prod.mk.inj (List.cons.inj hpair).1).2
  exact absurd hcount Nat.lt_two_pow_self.ne

theorem not_mountsStandard [KernelAlloc H] (h : 1 ≤ R.sectors) (hboot : StandardBoot (R.view w.dev.1)) :
    ¬ MountsStandard R w := by
  rintro ⟨r, w', hrun, fs, rfl, hall, -⟩
  obtain rfl := (exfatMount_recorded h hboot).post hrun fs rfl
  exact signedFs_misreads _ w 2 (hall 2 le_rfl).1

/-- `exfat_mount` takes the exponent of the cluster size for the size, so that no volume is mounted as the
specification lays it out, and none of its clusters is read. -/
theorem standard_volume_misread [KernelAlloc H] (h : 1 ≤ R.sectors) (hboot : StandardBoot (R.view w.dev.1)) :
    ¬ MountsStandard R w ∧ ∀ fs w', exfatMount (recorded R.dev) w = .ok (some fs, w') →
      ∀ c, ¬ ReadsCluster (H := H) (R.view w.dev.1) fs c := by
  refine ⟨not_mountsStandard h hboot, ?_⟩
  intro fs w' hrun c
  obtain rfl := (exfatMount_recorded h hboot).post hrun fs rfl
  exact signedFs_misreads _ w c

end Requests

def bootBytes : List (ℕ × UInt8) :=
  [(3, 0x45), (4, 0x58), (5, 0x46), (6, 0x41), (7, 0x54), (8, 0x20), (9, 0x20), (10, 0x20), (80, 128), (84, 64), (89, 1),
    (96, 4), (108, 9), (109, 3)]

def bootDisk : Memory := fun a => (bootBytes.lookup (a - 4096)).getD 0

def bootWorld : World (Memory × List (ℕ × ℕ)) Unit := ⟨(bootDisk, []), ()⟩

theorem bootDisk_standard : StandardBoot (smallDisk.view bootWorld.dev.1) := by
  constructor
  case signed =>
    unfold Signed
    decide +kernel
  case sectors => decide +kernel

theorem smallDisk_sectors : 1 ≤ smallDisk.sectors := by decide +kernel

theorem standard_volume_misread_bootDisk : ¬ MountsStandard smallDisk bootWorld :=
  (standard_volume_misread smallDisk_sectors bootDisk_standard).1

theorem bootDisk_misread :
    let vbr := smallDisk.view bootWorld.dev.1
    let fs := signedFs (recorded smallDisk.dev) vbr
    clusterRequest vbr 2 = (256, 8) ∧ clToLba fs 2 = 0 ∧ fs.sectorsPerCluster = 3 ∧
      clusterRequest vbr (firstClusterOfRootDirectory vbr) = (272, 8) ∧
      fs.rootDirCluster = 0 ∧ clToLba fs fs.rootDirCluster = 4294967290 ∧ ¬ MountsStandard smallDisk bootWorld := by
  refine ⟨?_, ?_, ?_, ?_, ?_, ?_, not_mountsStandard smallDisk_sectors bootDisk_standard⟩ <;> decide +kernel

end DexOs.Exfat
