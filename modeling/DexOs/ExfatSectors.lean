import DexOs.ExfatMount

/-! The sectors that the driver reads and writes under the layout that `exfat_mount` assumes, for any
cluster number: nothing is known here of what the FAT and the root directory hold. -/

namespace DexOs.Exfat

open DexOs.Lib

variable {σ H : Type} {R : SectorReader σ} {D : SectorDevice σ} {S : SectorStore σ} {w : World σ H} {s : σ} {cl val : ℕ}

def entryOf (cl : ℕ) : ℕ := cl % 2 ^ 30

def fatSector (cl : ℕ) : ℕ := 128 + entryOf cl / 128

def dataSector (cl : ℕ) : ℕ := (1152 + (cl + 2 ^ 32 - 2) % 2 ^ 32) % 2 ^ 32

/-- What `fat_get` makes of an entry: 0 where the device ends before it. -/
def fatOf (R : SectorReader σ) (s : σ) (cl : ℕ) : ℕ :=
  if fatSector cl < R.sectors then leNat (R.view s) 4 (65536 + 4 * entryOf cl) else 0

def put (D : SectorDevice σ) (s : σ) (lba : ℕ) (buf : List UInt8) : σ := (D.write s lba buf 1).2

def fatPut (D : SectorDevice σ) (s : σ) (cl val : ℕ) : σ :=
  put D s (fatSector cl)
    (overlay (peek (D.view s) (512 * fatSector cl) 512) (4 * entryOf cl % 512) (leBytes 4 val))

theorem fatSlot_fallback (d : BlockDevice σ) (cl : ℕ) :
    fatSlot (fallbackFs d) cl = some (fatSector cl, 4 * entryOf cl % 512) := by
  have hoff : cl * 4 % 2 ^ 32 = 4 * entryOf cl := by
    unfold entryOf
    omega
  have hlt : entryOf cl < 2 ^ 30 := Nat.mod_lt _ (by decide)
  unfold fatSlot
  simp only [fallbackFs, hoff]
  rw [if_neg (by decide), if_neg (by omega), Nat.mod_eq_of_lt (by omega), fatSector,
    show 4 * entryOf cl / 512 = entryOf cl / 128 by omega]

theorem fatSector_lt (cl : ℕ) : fatSector cl < 2 ^ 32 := by
  unfold fatSector entryOf
  omega

theorem entry_place (cl : ℕ) : 512 * fatSector cl + 4 * entryOf cl % 512 = 65536 + 4 * entryOf cl := by
  unfold fatSector
  omega

theorem clToLba_fallback (d : BlockDevice σ) (cl : ℕ) : clToLba (fallbackFs d) cl = dataSector cl := by
  simp only [clToLba, fallbackFs, dataSector, Nat.mul_one]

theorem dataSector_lt (cl : ℕ) : dataSector cl < 2 ^ 32 := Nat.mod_lt _ (by decide)

theorem view_put {lba : ℕ} {buf : List UInt8} (h : lba < S.sectors) (hlen : buf.length = 512) :
    S.view (put S s lba buf) = poke (S.view s) (512 * lba) buf :=
  (S.write_in s h hlen).2

theorem put_out {lba : ℕ} (buf : List UInt8) (h : S.sectors ≤ lba) (hlba : lba < 2 ^ 32) : put S s lba buf = s := by
  unfold put
  rw [S.write_out s buf hlba Nat.one_pos (by decide) (by omega)]

theorem read_sector {lba : ℕ} (hlba : lba < 2 ^ 32) :
    Wp (bdevRead R.dev lba 1) w fun r w' => w' = w ∧
      (lba < R.sectors → r = (1, peek (R.view w.dev) (512 * lba) 512)) ∧ (R.sectors ≤ lba → r.1 = -1) := by
  refine ⟨(R.read w.dev lba 1).1, { w with dev := (R.read w.dev lba 1).2 }, ?_, ?_, ?_, ?_⟩
  · simp only [bdevRead, R.read_eq]
  · rcases Nat.lt_or_ge lba R.sectors with hin | hout
    · rw [R.read_in w.dev lba 1 hin]
    · rw [(R.read_out w.dev lba 1 hlba Nat.one_pos (by decide) (by omega)).2]
  · intro hin
    rw [R.read_in w.dev lba 1 hin]
    rfl
  · intro hout
    exact (R.read_out w.dev lba 1 hlba Nat.one_pos (by decide) (by omega)).1

theorem write_sector {lba : ℕ} {buf : List UInt8} (hlba : lba < 2 ^ 32) (hlen : buf.length = 512) :
    Wp (bdevWrite D.dev lba buf 1) w fun r w' => w' = { w with dev := put D w.dev lba buf } ∧
      r = if D.writable = true ∧ lba < D.sectors then 1 else -1 := by
  refine ⟨(D.write w.dev lba buf 1).1, _, ?_, rfl, ?_⟩
  · simp only [bdevWrite, D.write_eq, put]
  · split_ifs with hin
    · exact (D.write_within hin.1 w.dev lba buf 1 hin.2 hlen).1
    · have hout : D.writable = true → D.sectors < lba + 1 := by
        intro hw
        have : ¬ lba < D.sectors := fun h => hin ⟨hw, h⟩
        omega
      rw [D.write_fails w.dev lba buf 1 hlba Nat.one_pos (by decide) hout]

theorem fatGet_sector : Wp (fatGet (fallbackFs R.dev) cl) w fun r w' => r = fatOf R w.dev cl ∧ w' = w := by
  rw [fatGet, fatSlot_fallback]
  apply wp_bind (read_sector (fatSector_lt cl))
  rintro r w' ⟨rfl, hin, hout⟩
  refine wp_pure ⟨?_, rfl⟩
  unfold fatOf
  split_ifs with hneg hon hon
  · rw [hin hon] at hneg
    simp at hneg
  · rfl
  · rw [hin hon, leNat_peek _ _ (by omega), entry_place]
  · exact absurd (hout (Nat.le_of_not_lt hon)) (by omega)

theorem fatSet_sector : Wp (fatSet (fallbackFs S.dev) cl val) w fun r w' =>
    (fatSector cl < S.sectors ∧ r = 0 ∧ w' = { w with dev := fatPut S w.dev cl val }) ∨
      (S.sectors ≤ fatSector cl ∧ r = -1 ∧ w' = w) := by
  rw [fatSet, fatSlot_fallback]
  apply wp_bind (read_sector (fatSector_lt cl))
  rintro r w' ⟨rfl, hin, hout⟩
  rcases Nat.lt_or_ge (fatSector cl) S.sectors with hon | hoff
  · rw [hin hon, if_neg (lt_irrefl 1)]
    apply wp_bind (write_sector (fatSector_lt cl) (by rw [length_overlay, length_peek]))
    rintro rc w2 ⟨rfl, hrc⟩
    rw [if_pos ⟨S.writable_eq, hon⟩] at hrc
    rw [hrc]
    refine wp_pure (.inl ⟨hon, if_pos rfl, ?_⟩)
    rw [fatPut]
  · rw [if_pos (by rw [hout hoff]; decide)]
    exact wp_pure (.inr ⟨hoff, rfl, rfl⟩)

theorem view_fatPut (h : fatSector cl < S.sectors) :
    S.view (fatPut S s cl val) = poke (S.view s) (65536 + 4 * entryOf cl) (leBytes 4 val) := by
  unfold fatPut
  rw [view_put h (by rw [length_overlay, length_peek]), poke_overlay_peek _ _ _ (by rw [length_leBytes]; omega),
    entry_place]

theorem fatOf_fatPut (h : fatSector cl < S.sectors) (hval : val < 2 ^ 32) (x : ℕ) :
    fatOf S (fatPut S s cl val) x = if entryOf x = entryOf cl then val else fatOf S s x := by
  unfold fatOf
  rw [view_fatPut h]
  by_cases hx : entryOf x = entryOf cl
  · have hsec : fatSector x = fatSector cl := by rw [fatSector, hx, fatSector]
    rw [if_pos hx, hsec, if_pos h, hx, leNat_poke_self hval]
  · rw [if_neg hx, leNat_poke_of_disjoint (by rw [length_leBytes]; omega)]

theorem readCluster_sector : Wp (readCluster (fallbackFs R.dev) cl) w fun r w' => w' = w ∧
    r = if dataSector cl < R.sectors then some (peek (R.view w.dev) (512 * dataSector cl) 512) else none := by
  unfold readCluster
  rw [clToLba_fallback]
  apply wp_bind (read_sector (dataSector_lt cl))
  rintro r w' ⟨rfl, hin, hout⟩
  rcases Nat.lt_or_ge (dataSector cl) R.sectors with hon | hoff
  · rw [hin hon, if_pos hon]
    simp only [fallbackFs, ↓reduceIte, length_peek, lt_irrefl, Nat.sub_self,
      List.replicate_zero, List.append_nil]
    exact wp_pure ⟨rfl, rfl⟩
  · rw [if_neg (by rw [hout hoff]; simp [fallbackFs]), if_neg (Nat.not_lt.mpr hoff)]
    exact wp_pure ⟨rfl, rfl⟩

theorem writeCluster_sector {buf : List UInt8} (hlen : buf.length = 512) :
    Wp (writeCluster (fallbackFs S.dev) cl buf) w fun r w' =>
      w' = { w with dev := put S w.dev (dataSector cl) buf } ∧ r = if dataSector cl < S.sectors then 0 else -1 := by
  have hbytes : (fallbackFs S.dev).bdev.sectorSize * (fallbackFs S.dev).sectorsPerCluster = 512 := by
    simp [fallbackFs, S.sector_size]
  unfold writeCluster
  rw [clToLba_fallback, hbytes]
  dsimp only
  rw [if_neg (by omega), List.take_of_length_le (by omega)]
  apply wp_bind (write_sector (dataSector_lt cl) hlen)
  rintro r w' ⟨rfl, rfl⟩
  refine wp_pure ⟨rfl, ?_⟩
  rw [S.writable_eq]
  split_ifs <;> simp_all [fallbackFs]

end DexOs.Exfat
