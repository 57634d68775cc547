import DexOs.ExfatFiles

/-! The layout that `exfat_mount` assumes for a volume without a boot record. -/

namespace DexOs.Exfat

open DexOs.Lib

variable {σ H : Type}

def fallbackFs (bdev : BlockDevice σ) : Fs σ := ⟨bdev, 128, 1024, 1152, 512, 1, 512, 2⟩

theorem fallbackFs_entries (bdev : BlockDevice σ) : (fallbackFs bdev).entries = 131072 := by
  rw [Fs.entries, show (fallbackFs bdev).fatLength = 1024 from rfl,
    show (fallbackFs bdev).bytesPerSector = 512 from rfl]
  omega

theorem fallbackFs_spc_lt (bdev : BlockDevice σ) : (fallbackFs bdev).sectorsPerCluster < 256 := by
  simp [fallbackFs]

theorem fallbackFs_heap_fits (bdev : BlockDevice σ) : (fallbackFs bdev).clusterHeapOff +
    ((fallbackFs bdev).entries - 2) * (fallbackFs bdev).sectorsPerCluster ≤ 2 ^ 32 := by
  rw [fallbackFs_entries]
  simp [fallbackFs]

theorem fallbackFs_root_lt (bdev : BlockDevice σ) :
    (fallbackFs bdev).rootDirCluster < (fallbackFs bdev).entries := by
  rw [fallbackFs_entries]
  simp [fallbackFs]

theorem fallbackFs_layout {bdev : BlockDevice σ} {n : ℕ} (h : 1153 ≤ n) :
    (fallbackFs bdev).fatOffset + (fallbackFs bdev).fatLength ≤ n ∧
      (fallbackFs bdev).clusterHeapOff + ((fallbackFs bdev).rootDirCluster - 2) *
        (fallbackFs bdev).sectorsPerCluster + (fallbackFs bdev).sectorsPerCluster ≤ n := by
  simp only [fallbackFs]
  omega

def fallbackDisk (S : SectorStore σ) (h : 1153 ≤ S.sectors) : Disk σ where
  toSectorStore := S
  fs := fallbackFs S.dev
  bdev_eq := rfl
  bytes_eq := rfl
  spc_lt := fallbackFs_spc_lt S.dev
  size_eq := rfl
  fat_on := (fallbackFs_layout h).1
  heap_fits := fallbackFs_heap_fits S.dev
  apart := .inl (le_refl 1152)
  root_ge := le_refl 2
  root_lt := fallbackFs_root_lt S.dev
  root_on := (fallbackFs_layout h).2

/-- The first sector is no boot record of exFAT. -/
def Unsigned (S : SectorStore σ) (s : σ) : Prop :=
  peek (S.view s) 3 8 ≠ [0x45, 0x58, 0x46, 0x41, 0x54, 0x20, 0x20, 0x20]

instance (S : SectorStore σ) (s : σ) : Decidable (Unsigned S s) := inferInstanceAs (Decidable (_ ≠ _))

theorem exfatMount_spec [KernelAlloc H] {S : SectorStore σ} {w : World σ H} (h : 1 ≤ S.sectors)
    (hsig : Unsigned S w.dev) : Wp (exfatMount S.dev) w fun r w' => w'.dev = w.dev ∧
      (r = none ∨ r = some (fallbackFs S.dev)) ∧ (AllocOk H → r = some (fallbackFs S.dev)) := by
  unfold exfatMount
  rw [if_neg (by rw [S.sector_size]; simp)]
  refine wp_bind (R := fun r w1 => w1.dev = w.dev ∧ (AllocOk H → r ≠ none))
    ⟨_, _, rfl, rfl, fun ha => ha w.heap 40 (by decide)⟩ ?_
  rintro (_ | p) w1 ⟨hdev, hok⟩
  · exact wp_pure ⟨hdev, .inl rfl, fun ha => absurd rfl (hok ha)⟩
  have hread : Wp (bdevRead S.dev 0 1) w1 fun r w' => r.2 = peek (S.view w.dev) 0 512 ∧ w' = w1 := by
    have hr := S.read_in w1.dev 0 1 (by omega)
    refine ⟨((1 : ℕ), peek (S.view w1.dev) 0 512), w1, ?_, by rw [hdev], rfl⟩
    rw [bdevRead, S.read_eq]
    dsimp only
    rw [hr]
  refine wp_bind hread ?_
  rintro r _ ⟨hr, rfl⟩
  have hno : ¬ (r.1 = 1 ∧ (r.2.drop 3).take 8 = [0x45, 0x58, 0x46, 0x41, 0x54, 0x20, 0x20, 0x20]) := by
    rw [hr, drop_take_peek _ _ (by decide)]
    exact fun hc => hsig hc.2
  rw [if_neg hno]
  exact wp_pure ⟨hdev, .inr rfl, fun _ => rfl⟩

theorem dirEntries_of_free {dir : List UInt8} (h : slotType dir 0 = 0) : dirEntries dir = [] := by
  unfold dirEntries
  cases dir.length / 32 with
  | zero => rfl
  | succ n => rw [scanSlots, if_pos (.inr h)]

theorem allocOk_unit : AllocOk Unit := by
  intro h n hn
  simp [KernelAlloc.kmalloc, Nat.ne_of_gt hn]

end DexOs.Exfat
