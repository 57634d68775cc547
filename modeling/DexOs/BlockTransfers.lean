import DexOs.BlockDevice

/-! Which transfers the two drivers of disks in memory accept. -/

namespace DexOs

open DexOs.Lib

inductive MemoryDisk
  | ram (rd : Ramdisk)
  | mem (p : Memdisk) (sectorSize : ℕ)

namespace MemoryDisk

def device (name : List UInt8) : MemoryDisk → BlockDevice Memory
  | ram rd => ramdiskDevice name rd
  | mem p sectorSize => memdiskDevice name p sectorSize

def read : MemoryDisk → Memory → ℕ → ℕ → (ℤ × List UInt8) × Memory
  | ram rd => rdRead rd 512
  | mem p sectorSize => memRead p sectorSize

def write : MemoryDisk → Memory → ℕ → List UInt8 → ℕ → ℤ × Memory
  | ram rd => rdWrite rd 512
  | mem p sectorSize => memWrite p sectorSize

def sectorSize : MemoryDisk → ℕ
  | ram _ => 512
  | mem _ sectorSize => sectorSize

def base : MemoryDisk → ℕ
  | ram rd => rd.data
  | mem p _ => p.base

def bytes : MemoryDisk → ℕ
  | ram rd => rd.bytes
  | mem p _ => p.bytes

def writable : MemoryDisk → Bool
  | ram _ => true
  | mem p _ => p.writable

def sectorCount (d : MemoryDisk) : ℕ := d.bytes / d.sectorSize

def skipsCheck (count : ℕ) : MemoryDisk → Prop
  | ram _ => count = 0
  | mem _ _ => False

instance (count : ℕ) : (d : MemoryDisk) → Decidable (d.skipsCheck count)
  | ram _ => inferInstanceAs (Decidable (count = 0))
  | mem _ _ => inferInstanceAs (Decidable False)

structure WellFormed (d : MemoryDisk) : Prop where
  sector_pos : 0 < d.sectorSize
  bytes_lt : d.bytes < 2 ^ 64
  end_le : d.base + d.bytes ≤ 2 ^ 64

variable {d : MemoryDisk} {m : Memory} {lba count : ℕ} {buf : List UInt8}

theorem device_eq (name : List UInt8) (d : MemoryDisk) :
    (d.device name).read = some d.read ∧ (d.device name).write = some d.write ∧
      (d.device name).sectorSize = d.sectorSize ∧ (d.device name).sectorCount = d.sectorCount := by
  cases d with
  | ram rd => exact ⟨rfl, rfl, rfl, rfl⟩
  | mem p sectorSize => exact ⟨rfl, rfl, rfl, rfl⟩

def wrappedEnd (d : MemoryDisk) (lba count : ℕ) : ℕ := (lba + count) * d.sectorSize % 2 ^ 64

theorem rdRange_of_end (rd : Ramdisk) (sec lba count : ℕ) :
    rdRange rd sec lba count = if rd.bytes < (lba + count) * sec % 2 ^ 64 then none
      else some (lba * sec % 2 ^ 64, count * sec % 2 ^ 64) := by
  unfold rdRange
  rw [Nat.add_mul, Nat.add_mod (lba * sec)]

theorem read_eq (d : MemoryDisk) (m : Memory) (lba count : ℕ) : d.read m lba count =
    if d.skipsCheck count then (((0 : ℤ), []), m)
    else if d.bytes < d.wrappedEnd lba count then (((-1 : ℤ), []), m)
    else (((count : ℤ), peek m ((d.base + lba * d.sectorSize % 2 ^ 64) % 2 ^ 64) (count * d.sectorSize % 2 ^ 64)), m) := by
  cases d with
  | ram rd =>
    change rdRead rd 512 m lba count = if count = 0 then _ else if rd.bytes < (lba + count) * 512 % 2 ^ 64 then _ else _
    rw [rdRead, rdRange_of_end]
    by_cases h0 : count = 0
    · rw [if_pos h0, if_pos h0]
    · rw [if_neg h0, if_neg h0]
      by_cases hend : rd.bytes < (lba + count) * 512 % 2 ^ 64
      · rw [if_pos hend, if_pos hend]
      · rw [if_neg hend, if_neg hend]
        rfl
  | mem p sec =>
    change memRead p sec m lba count = if False then _ else if p.bytes < (lba + count) * sec % 2 ^ 64 then _ else _
    rw [memRead, rdRange_of_end, if_neg not_false]
    by_cases hend : p.bytes < (lba + count) * sec % 2 ^ 64
    · rw [if_pos hend, if_pos hend]
    · rw [if_neg hend, if_neg hend]
      rfl

theorem write_eq (d : MemoryDisk) (m : Memory) (lba : ℕ) (buf : List UInt8) (count : ℕ) : d.write m lba buf count =
    if d.writable = false then ((-1 : ℤ), m)
    else if d.bytes < d.wrappedEnd lba count then ((-1 : ℤ), m)
    else ((count : ℤ),
      poke m ((d.base + lba * d.sectorSize % 2 ^ 64) % 2 ^ 64) (buf.take (count * d.sectorSize % 2 ^ 64))) := by
  cases d with
  | ram rd =>
    change rdWrite rd 512 m lba buf count = if true = false then _
      else if rd.bytes < (lba + count) * 512 % 2 ^ 64 then _ else _
    rw [rdWrite, rdRange_of_end, if_neg (show ¬ true = false from Bool.noConfusion)]
    by_cases hend : rd.bytes < (lba + count) * 512 % 2 ^ 64
    · rw [if_pos hend, if_pos hend]
    · rw [if_neg hend, if_neg hend]
      rfl
  | mem p sec =>
    change memWrite p sec m lba buf count = if p.writable = false then _
      else if p.bytes < (lba + count) * sec % 2 ^ 64 then _ else _
    rw [memWrite, rdRange_of_end]
    by_cases hw : p.writable = false
    · rw [if_pos hw, if_pos hw]
    · rw [if_neg hw, if_neg hw]
      by_cases hend : p.bytes < (lba + count) * sec % 2 ^ 64
      · rw [if_pos hend, if_pos hend]
      · rw [if_neg hend, if_neg hend]
        rfl

/-- The end of the transfer does not wrap around, or wraps to a place behind the disk. -/
def Straight (d : MemoryDisk) (lba count : ℕ) : Prop :=
  (lba + count) * d.sectorSize < 2 ^ 64 ∨ d.bytes < d.wrappedEnd lba count

theorem WellFormed.fits_iff (h : WellFormed d) (lba count : ℕ) :
    lba + count ≤ d.sectorCount ↔ (lba + count) * d.sectorSize ≤ d.bytes := Nat.le_div_iff_mul_le h.sector_pos

theorem WellFormed.check_iff (h : WellFormed d) (lba count : ℕ) :
    (d.wrappedEnd lba count ≤ d.bytes ↔ lba + count ≤ d.sectorCount) ↔ d.Straight lba count := by
  have h64 := h.bytes_lt
  rw [h.fits_iff]
  unfold Straight wrappedEnd
  generalize (lba + count) * d.sectorSize = x
  by_cases hx : x < 2 ^ 64
  · rw [Nat.mod_eq_of_lt hx]
    exact iff_of_true Iff.rfl (.inl hx)
  · have hbig : ¬ x ≤ d.bytes := by omega
    constructor
    · intro hiff
      right
      by_contra hle
      exact hbig (hiff.mp (Nat.le_of_not_lt hle))
    · intro hor
      have hlt := hor.resolve_left hx
      exact iff_of_false (Nat.not_le_of_lt hlt) hbig

theorem read_succeeds_iff (d : MemoryDisk) (m : Memory) (lba count : ℕ) :
    (d.read m lba count).1.1 = count ↔ d.skipsCheck count ∨ d.wrappedEnd lba count ≤ d.bytes := by
  rw [read_eq]
  by_cases hskip : d.skipsCheck count
  · rw [if_pos hskip]
    have h0 : count = 0 := by
      cases d with
      | ram rd => exact hskip
      | mem p sec => exact hskip.elim
    rw [h0]
    exact iff_of_true rfl (.inl (h0 ▸ hskip))
  · rw [if_neg hskip]
    by_cases hend : d.bytes < d.wrappedEnd lba count
    · rw [if_pos hend]
      refine iff_of_false ?_ ?_
      · dsimp only
        omega
      · rintro (h | h)
        · exact hskip h
        · omega
    · rw [if_neg hend]
      exact iff_of_true rfl (.inr (Nat.le_of_not_lt hend))

theorem write_succeeds_iff (d : MemoryDisk) (m : Memory) (lba : ℕ) (buf : List UInt8) (count : ℕ) :
    (d.write m lba buf count).1 = count ↔ d.writable = true ∧ d.wrappedEnd lba count ≤ d.bytes := by
  rw [write_eq]
  by_cases hw : d.writable = false
  · rw [if_pos hw]
    refine iff_of_false ?_ fun h => absurd h.1 (by rw [hw]; exact Bool.noConfusion)
    dsimp only
    omega
  · rw [if_neg hw]
    by_cases hend : d.bytes < d.wrappedEnd lba count
    · rw [if_pos hend]
      refine iff_of_false ?_ fun h => Nat.not_le_of_lt hend h.2
      dsimp only
      omega
    · rw [if_neg hend]
      exact iff_of_true rfl ⟨Bool.eq_true_of_not_eq_false hw, Nat.le_of_not_lt hend⟩

def ReadStraight (d : MemoryDisk) (lba count : ℕ) : Prop :=
  if d.skipsCheck count then lba ≤ d.sectorCount else d.Straight lba count

theorem WellFormed.read_exact_iff (h : WellFormed d) (m : Memory) (lba count : ℕ) :
    ((d.read m lba count).1.1 = count ↔ lba + count ≤ d.sectorCount) ↔ d.ReadStraight lba count := by
  rw [read_succeeds_iff, ReadStraight]
  by_cases hskip : d.skipsCheck count
  · have h0 : count = 0 := by
      cases d with
      | ram rd => exact hskip
      | mem p sec => exact hskip.elim
    rw [if_pos hskip, iff_true_left (Or.inl hskip), h0, Nat.add_zero]
  · rw [if_neg hskip, or_iff_right hskip]
    exact h.check_iff lba count

theorem WellFormed.write_exact_iff (h : WellFormed d) (m : Memory) (lba : ℕ) (buf : List UInt8) (count : ℕ) :
    ((d.write m lba buf count).1 = count ↔ lba + count ≤ d.sectorCount ∧ d.writable = true) ↔
      (d.writable = true → d.Straight lba count) := by
  rw [write_succeeds_iff]
  by_cases hw : d.writable = true
  · rw [and_iff_right hw, and_iff_left hw, h.check_iff]
    exact ⟨fun h' _ => h', fun h' => h' hw⟩
  · exact iff_of_true (iff_of_false (fun h' => hw h'.1) fun h' => hw h'.2) fun h' => absurd h' hw

theorem read_keeps (d : MemoryDisk) (m : Memory) (lba count : ℕ) :
    (d.read m lba count).2 = m ∧ ((d.read m lba count).1.1 ≠ count → (d.read m lba count).1.2 = []) := by
  rw [read_eq]
  by_cases hskip : d.skipsCheck count
  · rw [if_pos hskip]
    exact ⟨rfl, fun _ => rfl⟩
  · rw [if_neg hskip]
    by_cases hend : d.bytes < d.wrappedEnd lba count
    · rw [if_pos hend]
      exact ⟨rfl, fun _ => rfl⟩
    · rw [if_neg hend]
      exact ⟨rfl, fun h => absurd rfl h⟩

theorem refused_write_keeps (d : MemoryDisk) (m : Memory) (lba : ℕ) (buf : List UInt8) (count : ℕ)
    (h : (d.write m lba buf count).1 ≠ count) : (d.write m lba buf count).2 = m := by
  rw [write_eq] at h ⊢
  by_cases hw : d.writable = false
  · rw [if_pos hw]
  · rw [if_neg hw] at h ⊢
    by_cases hend : d.bytes < d.wrappedEnd lba count
    · rw [if_pos hend]
    · rw [if_neg hend] at h
      exact absurd rfl h

section Stored

theorem WellFormed.on_disk (h : WellFormed d) (hs : d.Straight lba count)
    (hend : d.wrappedEnd lba count ≤ d.bytes) : lba * d.sectorSize + count * d.sectorSize ≤ d.bytes := by
  rw [← Nat.add_mul]
  exact (h.fits_iff lba count).mp (((h.check_iff lba count).mpr hs).mp hend)

theorem WellFormed.write_bytes (h : WellFormed d) (hs : d.Straight lba count)
    (hlen : buf.length = count * d.sectorSize) (hok : (d.write m lba buf count).1 = count) :
    (d.write m lba buf count).2 = poke m (d.base + lba * d.sectorSize) buf := by
  obtain ⟨hw, hend⟩ := (write_succeeds_iff d m lba buf count).mp hok
  have hdisk := h.on_disk hs hend
  have h64 := h.bytes_lt
  have hbase := h.end_le
  rw [write_eq, if_neg (by rw [hw]; exact Bool.noConfusion), if_neg (Nat.not_lt_of_le hend)]
  dsimp only
  rw [Nat.mod_eq_of_lt (show lba * d.sectorSize < 2 ^ 64 by omega),
    Nat.mod_eq_of_lt (show count * d.sectorSize < 2 ^ 64 by omega), List.take_of_length_le hlen.le]
  by_cases h0 : buf = []
  · rw [h0, poke_nil, poke_nil]
  · have hpos := List.length_pos_iff.mpr h0
    rw [Nat.mod_eq_of_lt (by omega)]

theorem WellFormed.read_bytes (h : WellFormed d) (hs : d.Straight lba count)
    (hend : d.wrappedEnd lba count ≤ d.bytes) :
    (d.read m lba count).1 = ((count : ℤ), peek m (d.base + lba * d.sectorSize) (count * d.sectorSize)) := by
  have hdisk := h.on_disk hs hend
  have h64 := h.bytes_lt
  have hbase := h.end_le
  rw [read_eq]
  by_cases h0 : count = 0
  · subst h0
    by_cases hskip : d.skipsCheck 0
    · rw [if_pos hskip, Nat.zero_mul]
      rfl
    · rw [if_neg hskip, if_neg (Nat.not_lt_of_le hend), Nat.zero_mul]
      rfl
  · have hskip : ¬ d.skipsCheck count := by
      cases d with
      | ram rd => exact h0
      | mem p sec => exact not_false
    have hpos := Nat.mul_pos (Nat.pos_of_ne_zero h0) h.sector_pos
    rw [if_neg hskip, if_neg (Nat.not_lt_of_le hend), Nat.mod_eq_of_lt (show lba * d.sectorSize < 2 ^ 64 by omega),
      Nat.mod_eq_of_lt (show count * d.sectorSize < 2 ^ 64 by omega), Nat.mod_eq_of_lt (by omega)]

structure WriteRequest where
  lba : ℕ
  count : ℕ
  buf : List UInt8

def writeAll (d : MemoryDisk) (m : Memory) : List WriteRequest → Option Memory
  | [] => some m
  | r :: rs =>
    let w := d.write m r.lba r.buf r.count
    if w.1 = r.count then writeAll d w.2 rs else none

/-- The buffer holds as many sectors as are written, and the end of the transfer does not wrap onto the disk. -/
def WriteRequest.Plain (d : MemoryDisk) (r : WriteRequest) : Prop :=
  r.buf.length = r.count * d.sectorSize ∧ d.Straight r.lba r.count

def WriteRequest.Apart (r r' : WriteRequest) : Prop := r.lba + r.count ≤ r'.lba ∨ r'.lba + r'.count ≤ r.lba

theorem WellFormed.write_elsewhere (h : WellFormed d) {r r' : WriteRequest} (hp' : r'.Plain d)
    (hok : (d.write m r'.lba r'.buf r'.count).1 = r'.count) (hapart : r.Apart r') :
    peek (d.write m r'.lba r'.buf r'.count).2 (d.base + r.lba * d.sectorSize) (r.count * d.sectorSize) =
      peek m (d.base + r.lba * d.sectorSize) (r.count * d.sectorSize) := by
  have hmul {a b c : ℕ} (hle : a + b ≤ c) : a * d.sectorSize + b * d.sectorSize ≤ c * d.sectorSize := by
    rw [← Nat.add_mul]
    exact Nat.mul_le_mul_right _ hle
  have hlen' := hp'.1
  rw [h.write_bytes hp'.2 hp'.1 hok]
  apply peek_poke_of_disjoint
  rcases hapart with hle | hle
  · have hbefore := hmul hle
    right
    omega
  · have hbehind := hmul hle
    left
    omega

theorem WellFormed.writeAll_elsewhere (h : WellFormed d) {r : WriteRequest} {others : List WriteRequest}
    (hplain : ∀ r' ∈ others, r'.Plain d) (hapart : ∀ r' ∈ others, r.Apart r') {m' : Memory}
    (hrun : d.writeAll m others = some m') :
    peek m' (d.base + r.lba * d.sectorSize) (r.count * d.sectorSize) =
      peek m (d.base + r.lba * d.sectorSize) (r.count * d.sectorSize) := by
  induction others generalizing m with
  | nil =>
    obtain rfl := Option.some.inj hrun
    rfl
  | cons r' others ih =>
    rw [writeAll] at hrun
    split at hrun
    case isTrue hok =>
      have hrest := ih (fun x hx => hplain x (List.mem_cons_of_mem _ hx))
        (fun x hx => hapart x (List.mem_cons_of_mem _ hx)) hrun
      rw [hrest]
      exact h.write_elsewhere (hplain r' List.mem_cons_self) hok (hapart r' List.mem_cons_self)
    case isFalse => exact absurd hrun (Option.some_ne_none _).symm

theorem WellFormed.read_back (h : WellFormed d) {r : WriteRequest} {others : List WriteRequest}
    (hplain : ∀ r' ∈ r :: others, r'.Plain d) (hapart : ∀ r' ∈ others, r.Apart r') {m' : Memory}
    (hrun : d.writeAll m (r :: others) = some m') : (d.read m' r.lba r.count).1 = ((r.count : ℤ), r.buf) := by
  obtain ⟨hlen, hs⟩ := hplain r List.mem_cons_self
  rw [writeAll] at hrun
  split at hrun
  case isTrue hok =>
    have hend := ((write_succeeds_iff d m r.lba r.buf r.count).mp hok).2
    have hkept := h.writeAll_elsewhere (fun x hx => hplain x (List.mem_cons_of_mem _ hx)) hapart hrun
    have hself := peek_poke_self m (d.base + r.lba * d.sectorSize) r.buf
    rw [hlen] at hself
    rw [h.read_bytes hs hend, hkept, h.write_bytes hs hlen hok, hself]
  case isFalse => exact absurd hrun (Option.some_ne_none _).symm

end Stored

/-- The transfers are exactly bounded where the byte offsets do not wrap back onto the disk. A refused transfer changes
nothing in any case. -/
theorem transfers_exact_iff (h : WellFormed d) (m : Memory) :
    (∀ lba count, ((d.read m lba count).1.1 = count ↔ lba + count ≤ d.sectorCount) ↔ d.ReadStraight lba count) ∧
    (∀ lba buf count, ((d.write m lba buf count).1 = count ↔ lba + count ≤ d.sectorCount ∧ d.writable = true) ↔
      (d.writable = true → d.Straight lba count)) ∧
    (∀ r others m', (∀ r' ∈ r :: others, r'.Plain d) → (∀ r' ∈ others, r.Apart r') →
      d.writeAll m (r :: others) = some m' → (d.read m' r.lba r.count).1 = ((r.count : ℤ), r.buf)) ∧
    (∀ lba count, (d.read m lba count).2 = m ∧ ((d.read m lba count).1.1 ≠ count → (d.read m lba count).1.2 = [])) ∧
    (∀ lba buf count, (d.write m lba buf count).1 ≠ count → (d.write m lba buf count).2 = m) := by
  refine ⟨?_, ?_, ?_, ?_, ?_⟩
  · exact h.read_exact_iff m
  · exact h.write_exact_iff m
  · intro r others m' hplain hapart hrun
    exact h.read_back hplain hapart hrun
  · exact d.read_keeps m
  · exact d.refused_write_keeps m

def oneSectorDisk : MemoryDisk := .ram ⟨0x200000, 512⟩

theorem oneSectorDisk_wellFormed : WellFormed oneSectorDisk := by
  constructor
  all_goals decide

theorem transfers_exact_iff_one :
    (oneSectorDisk.read (fun _ => 0) 1 1).1.1 = 1 ↔ 1 + 1 ≤ oneSectorDisk.sectorCount :=
  ((transfers_exact_iff oneSectorDisk_wellFormed fun _ => 0).1 1 1).mpr (.inl (by decide))

theorem far_write_lands_on_first_sector :
    ¬ (2 ^ 55 + 1 ≤ oneSectorDisk.sectorCount) ∧
      (oneSectorDisk.write (fun _ => 0) (2 ^ 55) (List.replicate 512 1) 1).1 = 1 ∧
      (oneSectorDisk.write (fun _ => 0) (2 ^ 55) (List.replicate 512 1) 1).2 0x200000 = 1 := by
  refine ⟨by decide, by decide +kernel, by decide +kernel⟩

end MemoryDisk

end DexOs
