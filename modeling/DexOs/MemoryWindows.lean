import DexOs.PartitionConfinement

/-! Block devices that serve a run of sectors of memory. -/

namespace DexOs

open DexOs.Lib

/-- Below the sector number `limit` the device serves the `n` sectors of memory from `lo` on and nothing else. -/
structure Window (limit : ℕ) (b : BlockDevice Memory) (lo n : ℕ) : Prop where
  sector : b.sectorSize = 512
  read : ∃ r, b.read = some r ∧ ∀ m lba count, lba < limit → 0 < count → count < 2 ^ 32 → r m lba count =
    if lba + count ≤ n then (((count : ℤ), peek m (lo + lba * 512) (count * 512)), m) else ((-1, []), m)
  write : ∃ r, b.write = some r ∧ ∀ m lba buf count, lba < limit → 0 < count → count < 2 ^ 32 → r m lba buf count =
    if lba + count ≤ n then ((count : ℤ), poke m (lo + lba * 512) (buf.take (count * 512))) else (-1, m)

variable {limit lo n : ℕ} {b : BlockDevice Memory}

section Drivers

theorem rdRange_window (base bytes : ℕ) {lba count : ℕ} (hbytes : bytes < 2 ^ 64) (hl : lba < 2 ^ 54) (hc : count < 2 ^ 32) :
    rdRange ⟨base, bytes⟩ 512 lba count =
      if lba + count ≤ bytes / 512 then some (lba * 512, count * 512) else none := by
  unfold rdRange
  dsimp only
  rw [Nat.mod_eq_of_lt (show lba * 512 < 2 ^ 64 by omega), Nat.mod_eq_of_lt (show count * 512 < 2 ^ 64 by omega)]
  split_ifs <;> first | rfl | omega

theorem ramdisk_window (name : List UInt8) {rd : Ramdisk} (hend : rd.data + rd.bytes ≤ 2 ^ 64) (hbytes : rd.bytes < 2 ^ 64) :
    Window (2 ^ 54) (ramdiskDevice name rd) rd.data (rd.bytes / 512) where
  sector := rfl
  read := by
    refine ⟨_, rfl, fun m lba count hl hpos hc => ?_⟩
    rw [rdRead, if_neg hpos.ne', rdRange_window rd.data rd.bytes hbytes hl hc]
    split_ifs
    · dsimp only
      rw [Nat.mod_eq_of_lt (by omega)]
    · rfl
  write := by
    refine ⟨_, rfl, fun m lba buf count hl hpos hc => ?_⟩
    rw [rdWrite, rdRange_window rd.data rd.bytes hbytes hl hc]
    split_ifs
    · dsimp only
      rw [Nat.mod_eq_of_lt (by omega)]
    · rfl

theorem memdisk_window (name : List UInt8) {p : Memdisk} (hend : p.base + p.bytes ≤ 2 ^ 64) (hbytes : p.bytes < 2 ^ 64)
    (hw : p.writable = true) : Window (2 ^ 54) (memdiskDevice name p 512) p.base (p.bytes / 512) where
  sector := rfl
  read := by
    refine ⟨_, rfl, fun m lba count hl hpos hc => ?_⟩
    rw [memRead, rdRange_window p.base p.bytes hbytes hl hc]
    split_ifs
    · dsimp only
      rw [Nat.mod_eq_of_lt (by omega)]
    · rfl
  write := by
    refine ⟨_, rfl, fun m lba buf count hl hpos hc => ?_⟩
    rw [memWrite, if_neg (by simp [hw]), rdRange_window p.base p.bytes hbytes hl hc]
    split_ifs
    · dsimp only
      rw [Nat.mod_eq_of_lt (by omega)]
    · rfl

/-- A partition serves the part of its entry that lies on its parent. The sum in the guard of `part_read` wraps
around `2 ^ 64` for sector numbers only that are behind the limit. -/
theorem partition_window {p : Partition Memory} (hp : p.Registered) (hw : Window (limit + 2 ^ 32) p.parent lo n)
    (hlimit : limit ≤ 2 ^ 54) :
    Window limit p.toDevice (lo + p.lbaBase * 512) (min p.lbaCount (n - p.lbaBase)) where
  sector := hw.sector
  read := by
    obtain ⟨r, hr, hanswer⟩ := hw.read
    refine ⟨_, rfl, fun m lba count hl hpos hc => ?_⟩
    have hb := hp.base_lt
    rw [partRead, hr, Partition.request, Nat.mod_eq_of_lt (show lba + count < 2 ^ 64 by omega)]
    split_ifs with hguard hin hin
    · omega
    · rfl
    all_goals
      dsimp only
      rw [Nat.mod_eq_of_lt (show p.lbaBase + lba < 2 ^ 64 by omega), hanswer m _ count (by omega) hpos hc]
    · rw [if_pos (by omega), Nat.add_mul, ← Nat.add_assoc]
    · rw [if_neg (by omega)]
  write := by
    obtain ⟨r, hr, hanswer⟩ := hw.write
    refine ⟨_, rfl, fun m lba buf count hl hpos hc => ?_⟩
    have hb := hp.base_lt
    rw [partWrite, hr, Partition.request, Nat.mod_eq_of_lt (show lba + count < 2 ^ 64 by omega)]
    split_ifs with hguard hin hin
    · omega
    · rfl
    all_goals
      dsimp only
      rw [Nat.mod_eq_of_lt (show p.lbaBase + lba < 2 ^ 64 by omega), hanswer m _ buf count (by omega) hpos hc]
    · rw [if_pos (by omega), Nat.add_mul, ← Nat.add_assoc]
    · rw [if_neg (by omega)]

theorem Window.mono {limit' : ℕ} (hw : Window limit b lo n) (h : limit' ≤ limit) : Window limit' b lo n where
  sector := hw.sector
  read := by
    obtain ⟨r, hr, hanswer⟩ := hw.read
    exact ⟨r, hr, fun m lba count hl => hanswer m lba count (hl.trans_le h)⟩
  write := by
    obtain ⟨r, hr, hanswer⟩ := hw.write
    exact ⟨r, hr, fun m lba buf count hl => hanswer m lba buf count (hl.trans_le h)⟩

end Drivers

def InSectors (lo n a : ℕ) : Prop := lo ≤ a ∧ a < lo + n * 512

def Shows (lo n : ℕ) (m s : Memory) : Prop := ∀ k, k < n * 512 → m (lo + k) = s k

def ownDisk (n : ℕ) : BlockDevice Memory where
  name := []
  sectorSize := 512
  sectorCount := n
  read := some fun s lba count =>
    if lba + count ≤ n then (((count : ℤ), peek s (lba * 512) (count * 512)), s) else ((-1, []), s)
  write := some fun s lba buf count =>
    if lba + count ≤ n then ((count : ℤ), poke s (lba * 512) (buf.take (count * 512))) else (-1, s)

theorem peek_of_shows {m s : Memory} (h : Shows lo n m s) {lba count : ℕ} (hin : lba + count ≤ n) :
    peek m (lo + lba * 512) (count * 512) = peek s (lba * 512) (count * 512) := by
  unfold peek
  apply List.map_congr_left
  intro i hi
  have hlt := List.mem_range.mp hi
  rw [Nat.add_assoc]
  exact h _ (by omega)

theorem shows_poke {m s : Memory} (h : Shows lo n m s) (lba : ℕ) (bs : List UInt8) :
    Shows lo n (poke m (lo + lba * 512) bs) (poke s (lba * 512) bs) := by
  intro k hk
  unfold poke
  rw [show lo + k - (lo + lba * 512) = k - lba * 512 by omega]
  split_ifs
  · rfl
  · omega
  · omega
  · exact h k hk

theorem poke_outside {a base len : ℕ} (m : Memory) (bs : List UInt8) (hout : ¬ (base ≤ a ∧ a < base + len))
    (hlen : bs.length ≤ len) : poke m base bs a = m a := by
  unfold poke
  rw [if_neg (by omega)]

end DexOs
