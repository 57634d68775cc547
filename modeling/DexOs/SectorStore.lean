import DexOs.BlockDevice

/-! Devices that store 512-byte sectors: what a file system may rely on. -/

namespace DexOs

open DexOs.Lib

variable {σ : Type}

/-- A device of `sectors` sectors whose bytes in state `s` are `view s`. A read that leaves the
device fails and changes nothing. -/
structure SectorReader (σ : Type) where
  dev : BlockDevice σ
  sectors : ℕ
  view : σ → ℕ → UInt8
  read : σ → ℕ → ℕ → (ℤ × List UInt8) × σ
  read_eq : dev.read = some read
  sector_size : dev.sectorSize = 512
  sectors_le : sectors ≤ 2 ^ 32
  read_in : ∀ s lba count, lba + count ≤ sectors →
    read s lba count = (((count : ℤ), peek (view s) (512 * lba) (512 * count)), s)
  read_out : ∀ s lba count, lba < 2 ^ 32 → 0 < count → count < 2 ^ 16 → sectors < lba + count →
    (read s lba count).1.1 = -1 ∧ (read s lba count).2 = s

/-- With the writes: one that leaves the device, and each one to a read-only device, fails and changes nothing. -/
structure SectorDevice (σ : Type) extends SectorReader σ where
  writable : Bool
  write : σ → ℕ → List UInt8 → ℕ → ℤ × σ
  write_eq : dev.write = some write
  write_within : writable = true → ∀ s lba buf count, lba + count ≤ sectors → buf.length = 512 * count →
    (write s lba buf count).1 = count ∧ view (write s lba buf count).2 = poke (view s) (512 * lba) buf
  write_fails : ∀ s lba buf count, lba < 2 ^ 32 → 0 < count → count < 2 ^ 16 →
    (writable = true → sectors < lba + count) → write s lba buf count = (-1, s)

structure SectorStore (σ : Type) extends SectorDevice σ where
  writable_eq : writable = true

instance : Coe (SectorDevice σ) (SectorReader σ) := ⟨SectorDevice.toSectorReader⟩

instance : Coe (SectorStore σ) (SectorDevice σ) := ⟨SectorStore.toSectorDevice⟩

theorem SectorStore.write_in (S : SectorStore σ) (s : σ) {lba count : ℕ} {buf : List UInt8}
    (h : lba + count ≤ S.sectors) (hlen : buf.length = 512 * count) :
    (S.write s lba buf count).1 = count ∧ S.view (S.write s lba buf count).2 = poke (S.view s) (512 * lba) buf :=
  S.toSectorDevice.write_within S.writable_eq s lba buf count h hlen

theorem SectorStore.write_out (S : SectorStore σ) (s : σ) {lba count : ℕ} (buf : List UInt8) (hlba : lba < 2 ^ 32)
    (hpos : 0 < count) (hcount : count < 2 ^ 16) (h : S.sectors < lba + count) : S.write s lba buf count = (-1, s) :=
  S.toSectorDevice.write_fails s lba buf count hlba hpos hcount fun _ => h

def ramdiskView (rd : Ramdisk) (m : Memory) (i : ℕ) : UInt8 :=
  if i < 512 * (rd.bytes / 512) then m (rd.data + i) else 0

theorem rdRange_eq (rd : Ramdisk) {lba count : ℕ} (h : lba + count < 2 ^ 50) :
    rdRange rd 512 lba count =
      if rd.bytes < 512 * (lba + count) then none else some (512 * lba, 512 * count) := by
  unfold rdRange
  simp only [Nat.mul_comm _ 512, Nat.mul_add, Nat.mod_eq_of_lt (show 512 * lba < 2 ^ 64 by omega),
    Nat.mod_eq_of_lt (show 512 * count < 2 ^ 64 by omega),
    Nat.mod_eq_of_lt (show 512 * lba + 512 * count < 2 ^ 64 by omega)]

theorem rdRead_out (rd : Ramdisk) (m : Memory) {lba count : ℕ} (hl : lba < 2 ^ 32) (hpos : 0 < count)
    (hc : count < 2 ^ 16) (h : rd.bytes / 512 < lba + count) :
    (rdRead rd 512 m lba count).1.1 = -1 ∧ (rdRead rd 512 m lba count).2 = m := by
  rw [rdRead, if_neg (by omega), rdRange_eq rd (by omega), if_pos (by omega)]
  exact ⟨rfl, rfl⟩

theorem rdWrite_out (rd : Ramdisk) (m : Memory) {lba count : ℕ} (buf : List UInt8) (hl : lba < 2 ^ 32)
    (hc : count < 2 ^ 16) (h : rd.bytes / 512 < lba + count) :
    rdWrite rd 512 m lba buf count = (-1, m) := by
  rw [rdWrite, rdRange_eq rd (by omega), if_pos (by omega)]

section Ramdisk

variable {rd : Ramdisk} (hend : rd.data + rd.bytes < 2 ^ 64) (hsize : rd.bytes < 2 ^ 41)

include hend hsize

theorem rdRead_in (m : Memory) {lba count : ℕ} (h : lba + count ≤ rd.bytes / 512) :
    rdRead rd 512 m lba count =
      (((count : ℤ), peek (ramdiskView rd m) (512 * lba) (512 * count)), m) := by
  by_cases h0 : count = 0
  · simp [rdRead, peek, h0]
  · rw [rdRead, if_neg h0, rdRange_eq rd (by omega), if_neg (by omega)]
    simp only [Nat.mod_eq_of_lt (show rd.data + 512 * lba < 2 ^ 64 by omega)]
    have hbytes : peek m (rd.data + 512 * lba) (512 * count) =
        peek (ramdiskView rd m) (512 * lba) (512 * count) := by
      apply bytes_ext (by simp)
      intro i hi
      rw [length_peek] at hi
      rw [byteAt_peek _ _ hi, byteAt_peek _ _ hi, ramdiskView, if_pos (by omega), Nat.add_assoc]
    rw [hbytes]

theorem rdWrite_in (m : Memory) {lba count : ℕ} {buf : List UInt8} (h : lba + count ≤ rd.bytes / 512)
    (hlen : buf.length = 512 * count) :
    (rdWrite rd 512 m lba buf count).1 = count ∧
      ramdiskView rd (rdWrite rd 512 m lba buf count).2 = poke (ramdiskView rd m) (512 * lba) buf := by
  rw [rdWrite, rdRange_eq rd (by omega), if_neg (by omega)]
  simp only [Nat.mod_eq_of_lt (show rd.data + 512 * lba < 2 ^ 64 by omega),
    List.take_of_length_le (show buf.length ≤ 512 * count by omega)]
  constructor
  · trivial
  · funext i
    simp only [ramdiskView, poke]
    have hiff : (rd.data + 512 * lba ≤ rd.data + i ∧ rd.data + i < rd.data + 512 * lba + buf.length) ↔
        (512 * lba ≤ i ∧ i < 512 * lba + buf.length) := by omega
    have hidx : rd.data + i - (rd.data + 512 * lba) = i - 512 * lba := by omega
    simp only [hiff, hidx]
    by_cases hi : i < 512 * (rd.bytes / 512)
    · rw [if_pos hi, if_pos hi]
    · rw [if_neg hi, if_neg hi, if_neg (by omega)]

omit hend in
theorem ramdisk_sectors_le : rd.bytes / 512 ≤ 2 ^ 32 := by omega

end Ramdisk

def ramdiskStore (name : List UInt8) (rd : Ramdisk) (hend : rd.data + rd.bytes < 2 ^ 64)
    (hsize : rd.bytes < 2 ^ 41) : SectorStore Memory where
  dev := ramdiskDevice name rd
  sectors := rd.bytes / 512
  view := ramdiskView rd
  read := rdRead rd 512
  write := rdWrite rd 512
  read_eq := rfl
  write_eq := rfl
  sector_size := rfl
  sectors_le := ramdisk_sectors_le hsize
  writable := true
  writable_eq := rfl
  read_in m _ _ := rdRead_in hend hsize m
  read_out m _ _ := rdRead_out rd m
  write_within _ m _ _ _ := rdWrite_in hend hsize m
  write_fails m _ buf _ hl _ hc h := rdWrite_out rd m buf hl hc (h rfl)

theorem memRead_eq (p : Memdisk) (m : Memory) {lba count : ℕ} (h : 0 < count) :
    memRead p 512 m lba count = rdRead ⟨p.base, p.bytes⟩ 512 m lba count := by
  rw [rdRead, if_neg (by omega)]
  rfl

theorem memWrite_eq (p : Memdisk) (m : Memory) (lba : ℕ) (buf : List UInt8) (count : ℕ) :
    memWrite p 512 m lba buf count =
      if p.writable = false then (-1, m) else rdWrite ⟨p.base, p.bytes⟩ 512 m lba buf count := rfl

def memdiskSectors (name : List UInt8) (p : Memdisk) (hend : p.base + p.bytes < 2 ^ 64)
    (hsize : p.bytes < 2 ^ 41) : SectorDevice Memory where
  dev := memdiskDevice name p 512
  sectors := p.bytes / 512
  view := ramdiskView ⟨p.base, p.bytes⟩
  read := memRead p 512
  write := memWrite p 512
  read_eq := rfl
  write_eq := rfl
  sector_size := rfl
  sectors_le := (ramdisk_sectors_le hsize : (Ramdisk.mk p.base p.bytes).bytes / 512 ≤ 2 ^ 32)
  writable := p.writable
  read_in m lba count h := by
    rcases Nat.eq_zero_or_pos count with rfl | hpos
    · have hrange : rdRange ⟨p.base, p.bytes⟩ 512 lba 0 = some (512 * lba, 512 * 0) := by
        rw [rdRange_eq _ (by omega), if_neg (by dsimp only; omega)]
      rw [memRead, hrange]
      rfl
    · rw [memRead_eq p m hpos]
      exact rdRead_in hend hsize m h
  read_out m lba count hl hpos hc h := by
    rw [memRead_eq p m hpos]
    exact rdRead_out _ m hl hpos hc h
  write_within hw m lba buf count h hlen := by
    rw [memWrite_eq, if_neg (by rw [hw]; decide)]
    exact rdWrite_in hend hsize m h hlen
  write_fails m lba buf count hl _ hc h := by
    rw [memWrite_eq]
    split_ifs with hw
    · rfl
    · exact rdWrite_out _ m buf hl hc (h (Bool.eq_true_of_not_eq_false hw))

end DexOs
