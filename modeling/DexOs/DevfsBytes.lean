import DexOs.FileHeap
import DexOs.ExfatFiles

/-! A device file over memory is the flat array of the device's bytes. -/

namespace DexOs.Devfs

open DexOs.Lib DexOs.Exfat

/-- Transfers inside the device copy the bytes of memory from `base` on. -/
structure Backed (b : BlockDevice Memory) (base : ℕ) : Prop where
  sector_pos : 0 < b.sectorSize
  read : ∃ read, b.read = some read ∧ ∀ m lba count, 0 < count → lba + count ≤ b.sectorCount →
    read m lba count = (((count : ℤ), peek m (base + lba * b.sectorSize) (count * b.sectorSize)), m)
  write : ∃ write, b.write = some write ∧ ∀ m lba buf count, lba + count ≤ b.sectorCount →
    buf.length = count * b.sectorSize →
      write m lba buf count = ((count : ℤ), poke m (base + lba * b.sectorSize) buf)

theorem rdRange_in {rd : Ramdisk} (h64 : rd.bytes < 2 ^ 64) {sec lba count : ℕ} (hsec : 0 < sec)
    (h : lba + count ≤ rd.bytes / sec) :
    rdRange rd sec lba count = some (lba * sec, count * sec) ∧ lba * sec + count * sec ≤ rd.bytes := by
  have hle : lba * sec + count * sec ≤ rd.bytes := by
    rw [← Nat.add_mul]
    exact (Nat.le_div_iff_mul_le hsec).mp h
  refine ⟨?_, hle⟩
  unfold rdRange
  simp only [Nat.mod_eq_of_lt (show lba * sec < 2 ^ 64 by omega),
    Nat.mod_eq_of_lt (show count * sec < 2 ^ 64 by omega),
    Nat.mod_eq_of_lt (show lba * sec + count * sec < 2 ^ 64 by omega)]
  rw [if_neg (by omega)]

theorem ramdisk_backed (name : List UInt8) {rd : Ramdisk} (h64 : rd.bytes < 2 ^ 64)
    (hend : rd.data + rd.bytes ≤ 2 ^ 64) : Backed (ramdiskDevice name rd) rd.data where
  sector_pos := Nat.succ_pos 511
  read := by
    refine ⟨_, rfl, fun m lba count hpos h => ?_⟩
    obtain ⟨hr, hle⟩ := rdRange_in h64 (show 0 < 512 by decide) h
    rw [rdRead, if_neg hpos.ne', hr]
    dsimp only [ramdiskDevice]
    rw [Nat.mod_eq_of_lt (by omega)]
  write := by
    refine ⟨_, rfl, fun m lba buf count h hlen => ?_⟩
    obtain ⟨hr, hle⟩ := rdRange_in h64 (show 0 < 512 by decide) h
    rw [rdWrite, hr]
    dsimp only [ramdiskDevice] at hlen ⊢
    rw [List.take_of_length_le (by omega)]
    by_cases h0 : count = 0
    · obtain rfl := List.length_eq_zero_iff.mp (hlen.trans (by simp [h0]))
      rw [poke_nil, poke_nil]
    · rw [Nat.mod_eq_of_lt (by omega)]

theorem memdisk_backed (name : List UInt8) {p : Memdisk} {sec : ℕ} (hsec : 0 < sec) (h64 : p.bytes < 2 ^ 64)
    (hend : p.base + p.bytes ≤ 2 ^ 64) (hw : p.writable = true) : Backed (memdiskDevice name p sec) p.base where
  sector_pos := hsec
  read := by
    refine ⟨_, rfl, fun m lba count hpos h => ?_⟩
    obtain ⟨hr, hle⟩ := rdRange_in (show (⟨p.base, p.bytes⟩ : Ramdisk).bytes < 2 ^ 64 from h64) hsec h
    have hone := Nat.mul_pos hpos hsec
    rw [memRead, hr]
    dsimp only [memdiskDevice] at hle ⊢
    rw [Nat.mod_eq_of_lt (by omega)]
  write := by
    refine ⟨_, rfl, fun m lba buf count h hlen => ?_⟩
    obtain ⟨hr, hle⟩ := rdRange_in (show (⟨p.base, p.bytes⟩ : Ramdisk).bytes < 2 ^ 64 from h64) hsec h
    rw [memWrite, if_neg (by simp [hw]), hr]
    dsimp only [memdiskDevice] at hlen hle ⊢
    rw [List.take_of_length_le (by omega)]
    by_cases h0 : count = 0
    · obtain rfl := List.length_eq_zero_iff.mp (hlen.trans (by simp [h0]))
      rw [poke_nil, poke_nil]
    · have hone := Nat.mul_pos (Nat.pos_of_ne_zero h0) hsec
      rw [Nat.mod_eq_of_lt (by omega)]

section Transfer

variable {b : BlockDevice Memory} {base off n headOff : ℕ} {c : Cursor}

structure Stands (b : BlockDevice Memory) (off n headOff : ℕ) (c : Cursor) : Prop where
  total : c.pos + c.remaining = n
  place : c.remaining = 0 ∨ c.lba * b.sectorSize + headOff = off + c.pos

theorem Stands.sectors_le (h : Stands b off n headOff c) (hfit : off + n ≤ b.sectorCount * b.sectorSize)
    {count : ℕ} (hpos : 0 < c.remaining) (hcount : count * b.sectorSize < headOff + c.remaining + b.sectorSize) :
    c.lba + count ≤ b.sectorCount := by
  have hplace := h.place.resolve_left hpos.ne'
  have htotal := h.total
  have hlt : (c.lba + count) * b.sectorSize < (b.sectorCount + 1) * b.sectorSize := by
    rw [Nat.add_mul, Nat.add_mul, Nat.one_mul]
    omega
  exact Nat.lt_succ_iff.mp (Nat.lt_of_mul_lt_mul_right hlt)

theorem Stands.part (h : Stands b off n headOff c) (hsmall : b.sectorCount < 2 ^ 63)
    (hlba : c.lba < b.sectorCount) (hhead : headOff < b.sectorSize) (hpos : 0 < c.remaining) :
    Stands b off n 0 (c.advance (min (b.sectorSize - headOff) c.remaining) 1) := by
  have hplace := h.place.resolve_left hpos.ne'
  have htotal := h.total
  constructor
  · simp only [Cursor.advance]
    omega
  · simp only [Cursor.advance, Nat.mod_eq_of_lt (show c.lba + 1 < 2 ^ 64 by omega), Nat.add_mul, Nat.one_mul]
    omega

theorem Stands.turn (h : Stands b off n 0 c) (hsmall : b.sectorCount < 2 ^ 63)
    (hlba : c.lba + c.turn b.sectorSize ≤ b.sectorCount) (hpos : 0 < c.remaining)
    (hfit : c.turn b.sectorSize * b.sectorSize ≤ c.remaining) :
    Stands b off n 0 (c.advance (c.turn b.sectorSize * b.sectorSize) (c.turn b.sectorSize)) := by
  have hplace := h.place.resolve_left hpos.ne'
  have htotal := h.total
  constructor
  · simp only [Cursor.advance]
    omega
  · simp only [Cursor.advance, Nat.mod_eq_of_lt (show c.lba + c.turn b.sectorSize < 2 ^ 64 by omega), Nat.add_mul]
    omega

variable {H : Type} {room : H → Prop} {w : World Memory H}

/-- A block of `size` bytes can be taken from the heap, and again once it is given back. -/
def HasRoom [KernelAlloc H] (room : H → Prop) (size : ℕ) : Prop :=
  ∀ h, room h → ∃ p h', KernelAlloc.kmalloc h size = (some p, h') ∧ room (KernelAlloc.kfree h' p)

variable (hb : Backed b base)

include hb

theorem bdevRead_backed {lba count : ℕ} (hpos : 0 < count) (h : lba + count ≤ b.sectorCount) :
    Wp (bdevRead b lba count) w fun r w' =>
      r = ((count : ℤ), peek w.dev (base + lba * b.sectorSize) (count * b.sectorSize)) ∧ w' = w := by
  obtain ⟨read, hread, heq⟩ := hb.read
  refine ⟨_, w, ?_, rfl, rfl⟩
  simp only [bdevRead, hread, heq w.dev lba count hpos h]

theorem bdevWrite_backed {lba count : ℕ} {buf : List UInt8} (h : lba + count ≤ b.sectorCount)
    (hlen : buf.length = count * b.sectorSize) :
    Wp (bdevWrite b lba buf count) w fun r w' =>
      r = count ∧ w' = { w with dev := poke w.dev (base + lba * b.sectorSize) buf } := by
  obtain ⟨write, hwrite, heq⟩ := hb.write
  refine ⟨_, _, ?_, rfl, rfl⟩
  simp only [bdevWrite, hwrite, heq w.dev lba buf count h hlen]

variable [KernelAlloc H] (hroom : HasRoom room b.sectorSize)

include hroom

theorem loadSector_backed {lba : ℕ} (hw : room w.heap) (h : lba < b.sectorCount) :
    Wp (loadSector b lba) w fun r w' => ∃ tmp,
      r = some (tmp, peek w.dev (base + lba * b.sectorSize) b.sectorSize) ∧ w'.dev = w.dev ∧
        room (KernelAlloc.kfree w'.heap tmp) := by
  obtain ⟨tmp, h', hmalloc, hfree⟩ := hroom w.heap hw
  have halloc : Wp (kmalloc b.sectorSize) w fun r w' => r = some tmp ∧ w' = ⟨w.dev, h'⟩ := by
    refine ⟨_, _, rfl, ?_, ?_⟩
    · rw [hmalloc]
    · rw [hmalloc]
  unfold loadSector
  apply wp_bind halloc
  rintro r w1 ⟨rfl, rfl⟩
  apply wp_bind (bdevRead_backed hb Nat.one_pos h)
  rintro r w2 ⟨rfl, rfl⟩
  dsimp only
  simp only [↓reduceIte, Nat.one_mul, length_peek, lt_irrefl, Nat.sub_self,
    List.replicate_zero, List.append_nil]
  exact wp_pure ⟨tmp, rfl, rfl, hfree⟩

variable (hsmall : b.sectorCount < 2 ^ 63) (hfit : off + n ≤ b.sectorCount * b.sectorSize)

include hsmall hfit

theorem readPart_backed {buf : List UInt8} (hc : Stands b off n headOff c) (hhead : headOff < b.sectorSize)
    (hpos : 0 < c.remaining) (hw : room w.heap) :
    Wp (readPart b headOff c (overlay buf 0 (peek w.dev (base + off) c.pos))) w fun r w' => ∃ c',
      c' = c.advance (min (b.sectorSize - headOff) c.remaining) 1 ∧ Stands b off n 0 c' ∧
        r = (some c', overlay buf 0 (peek w.dev (base + off) c'.pos)) ∧ w'.dev = w.dev ∧ room w'.heap := by
  have hlba : c.lba < b.sectorCount := hc.sectors_le hfit hpos (show 1 * b.sectorSize < _ by omega)
  unfold readPart
  apply wp_bind (loadSector_backed hb hroom hw hlba)
  rintro r w1 ⟨tmp, rfl, hdev, hfree⟩
  refine ⟨_, ⟨w1.dev, KernelAlloc.kfree w1.heap tmp⟩, rfl, _, rfl, hc.part hsmall hlba hhead hpos, ?_, hdev, hfree⟩
  have hplace := hc.place.resolve_left hpos.ne'
  have hlen := length_peek w.dev (base + off) c.pos
  have hmore := overlay_overlay buf 0 (peek w.dev (base + off) c.pos)
  rw [hlen, Nat.zero_add] at hmore
  rw [drop_take_peek _ _ (by omega), hmore,
    show base + c.lba * b.sectorSize + headOff = base + off + c.pos by omega, ← peek_add]
  rfl

omit [KernelAlloc H] hroom in
theorem readMiddle_backed {buf : List UInt8} {fuel : ℕ} (hc : Stands b off n 0 c) (hn : c.remaining < 2 ^ 32)
    (hfuel : c.remaining < fuel) (hw : room w.heap) :
    Wp (readMiddle b fuel c (overlay buf 0 (peek w.dev (base + off) c.pos))) w fun r w' => ∃ c',
      c'.remaining < b.sectorSize ∧ Stands b off n 0 c' ∧
        r = (some c', overlay buf 0 (peek w.dev (base + off) c'.pos)) ∧ w' = w := by
  induction fuel generalizing c with
  | zero => omega
  | succ fuel ih =>
    unfold readMiddle
    split_ifs with hlt
    · exact wp_pure ⟨c, hlt, hc, rfl, rfl⟩
    · have hle := Nat.le_of_not_lt hlt
      have hsec := hb.sector_pos
      obtain ⟨hpos, htake⟩ := turn_pos hsec hle hn
      have hone := Nat.mul_pos hpos hsec
      have hlba := hc.sectors_le hfit (by omega) (show c.turn b.sectorSize * b.sectorSize < _ by omega)
      apply wp_bind (bdevRead_backed hb hpos hlba)
      rintro r w1 ⟨rfl, rfl⟩
      dsimp only
      rw [length_peek, if_neg (by rw [Nat.mul_comm]; exact lt_irrefl _), if_neg (not_not.mpr rfl)]
      have hplace := hc.place.resolve_left (by omega)
      have hmore := overlay_overlay buf 0 (peek w1.dev (base + off) c.pos)
      rw [length_peek, Nat.zero_add] at hmore
      rw [hmore, show base + c.lba * b.sectorSize = base + off + c.pos by omega, ← peek_add]
      exact ih (hc.turn hsmall hlba (by omega) htake) (by simp only [Cursor.advance]; omega)
        (by simp only [Cursor.advance]; omega)

theorem writePart_backed {m : Memory} {buf : List UInt8} (hbuf : n ≤ buf.length)
    (hc : Stands b off n headOff c) (hhead : headOff < b.sectorSize) (hpos : 0 < c.remaining)
    (hm : w.dev = poke m (base + off) (buf.take c.pos)) (hw : room w.heap) :
    Wp (writePart b headOff buf c) w fun r w' => ∃ c',
      c' = c.advance (min (b.sectorSize - headOff) c.remaining) 1 ∧ Stands b off n 0 c' ∧ r = some c' ∧
        w'.dev = poke m (base + off) (buf.take c'.pos) ∧ room w'.heap := by
  have hlba : c.lba < b.sectorCount := hc.sectors_le hfit hpos (show 1 * b.sectorSize < _ by omega)
  have hplace := hc.place.resolve_left hpos.ne'
  have htotal := hc.total
  unfold writePart
  apply wp_bind (loadSector_backed hb hroom hw hlba)
  rintro r w1 ⟨tmp, rfl, hdev, hfree⟩
  dsimp only
  apply wp_bind (bdevWrite_backed hb hlba (by rw [length_overlay, length_peek, Nat.one_mul]))
  rintro rc w2 ⟨rfl, rfl⟩
  refine ⟨_, ⟨_, KernelAlloc.kfree w1.heap tmp⟩, rfl, _, rfl, hc.part hsmall hlba hhead hpos, if_pos rfl, ?_, hfree⟩
  have hput : ((buf.drop c.pos).take (min (b.sectorSize - headOff) c.remaining)).length =
      min (b.sectorSize - headOff) c.remaining := by
    rw [List.length_take, List.length_drop]
    omega
  have hpos' : (buf.take c.pos).length = c.pos := by
    rw [List.length_take]
    omega
  have hmore := poke_poke m (base + off) (buf.take c.pos)
  rw [hpos'] at hmore
  dsimp only
  rw [hdev, poke_overlay_peek _ _ _ (by omega), hm,
    show base + c.lba * b.sectorSize + headOff = base + off + c.pos by omega, hmore, ← List.take_add]
  rfl

omit [KernelAlloc H] hroom in
theorem writeMiddle_backed {m : Memory} {buf : List UInt8} {fuel : ℕ} (hbuf : n ≤ buf.length)
    (hc : Stands b off n 0 c) (hn : c.remaining < 2 ^ 32) (hfuel : c.remaining < fuel)
    (hm : w.dev = poke m (base + off) (buf.take c.pos)) :
    Wp (writeMiddle b buf fuel c) w fun r w' => ∃ c',
      c'.remaining < b.sectorSize ∧ Stands b off n 0 c' ∧ r = some c' ∧
        w'.dev = poke m (base + off) (buf.take c'.pos) ∧ w'.heap = w.heap := by
  induction fuel generalizing c w with
  | zero => omega
  | succ fuel ih =>
    unfold writeMiddle
    split_ifs with hlt
    · exact wp_pure ⟨c, hlt, hc, rfl, hm, rfl⟩
    · have hle := Nat.le_of_not_lt hlt
      have hsec := hb.sector_pos
      have htotal := hc.total
      obtain ⟨hpos, htake⟩ := turn_pos hsec hle hn
      have hone := Nat.mul_pos hpos hsec
      have hlba := hc.sectors_le hfit (by omega) (show c.turn b.sectorSize * b.sectorSize < _ by omega)
      have hlen : ((buf.drop c.pos).take (c.turn b.sectorSize * b.sectorSize)).length =
          c.turn b.sectorSize * b.sectorSize := by
        rw [List.length_take, List.length_drop]
        omega
      apply wp_bind (bdevWrite_backed hb hlba hlen)
      rintro rc w1 ⟨rfl, rfl⟩
      rw [if_neg (not_not.mpr rfl)]
      have hplace := hc.place.resolve_left (by omega)
      have hmore := poke_poke m (base + off) (buf.take c.pos)
      rw [List.length_take, Nat.min_eq_left (by omega)] at hmore
      apply ih (hc.turn hsmall hlba (by omega) htake) (by simp only [Cursor.advance]; omega)
        (by simp only [Cursor.advance]; omega)
      dsimp only
      rw [hm, show base + c.lba * b.sectorSize = base + off + c.pos by omega, hmore, ← List.take_add]
      rfl

end Transfer

def deviceFile {σ : Type} (b : BlockDevice σ) : Node σ :=
  ⟨false, b.name.take 15, b.sectorCount * b.sectorSize % 2 ^ 64, some b⟩

section File

variable {b : BlockDevice Memory} {base off : ℕ} {buf : List UInt8}

theorem cursor_deviceFile (hsize : b.sectorCount * b.sectorSize < 2 ^ 31)
    (hend : off + buf.length < 2 ^ 64) :
    cursor (deviceFile b) b.sectorSize off buf.length = none ∧ min buf.length (b.sectorCount * b.sectorSize - off) = 0 ∨
    ∃ c, cursor (deviceFile b) b.sectorSize off buf.length = some c ∧ c.pos = 0 ∧ 0 < c.remaining ∧
      off + c.remaining ≤ b.sectorCount * b.sectorSize ∧
      c.remaining = min buf.length (b.sectorCount * b.sectorSize - off) ∧
      Stands b off c.remaining (off % b.sectorSize) c := by
  unfold cursor deviceFile
  dsimp only
  rw [Nat.mod_eq_of_lt hend, Nat.mod_eq_of_lt (by omega)]
  split_ifs with hlast
  · exact .inl ⟨rfl, by omega⟩
  · refine .inr ⟨_, rfl, rfl, by dsimp only; omega, by dsimp only; omega, by dsimp only; omega, ?_⟩
    refine ⟨Nat.zero_add _, .inr ?_⟩
    exact Nat.div_add_mod' off b.sectorSize

variable {H : Type} [KernelAlloc H] {room : H → Prop} {w : World Memory H} {fuel : ℕ} (hb : Backed b base)
  (hroom : HasRoom room b.sectorSize) (hsize : b.sectorCount * b.sectorSize < 2 ^ 31)
  (hend : off + buf.length < 2 ^ 64) (hfuel : b.sectorCount * b.sectorSize < fuel) (hw : room w.heap)

include hb hroom hsize hend hfuel hw

theorem devfsRead_backed : Wp (devfsRead fuel (deviceFile b) off buf) w fun r w' => ∃ n,
    n = min buf.length (b.sectorCount * b.sectorSize - off) ∧
      r = ((n : ℤ), overlay buf 0 (peek w.dev (base + off) n)) ∧ w'.dev = w.dev ∧ room w'.heap := by
  have hsec := hb.sector_pos
  have hsmall : b.sectorCount < 2 ^ 63 := by
    have := Nat.le_mul_of_pos_right b.sectorCount hsec
    omega
  obtain ⟨read, hread, -⟩ := hb.read
  have hstart : ∀ m, overlay buf 0 (peek m (base + off) 0) = buf := fun m => overlay_nil buf 0
  rcases cursor_deviceFile hsize hend with ⟨hnone, hn⟩ | ⟨c, hsome, hpos, hrem, hfit, hn, hc⟩
  · refine ⟨_, w, ?_, 0, hn.symm, rfl, rfl, hw⟩
    simp only [devfsRead, deviceFile] at hnone ⊢
    simp only [hread, hnone, hstart]
    rfl
  simp only [devfsRead, deviceFile] at hsome ⊢
  simp only [hread, hsome, Option.isNone_some, Bool.false_eq_true, ↓reduceIte, if_neg hsec.ne']
  have hhead : Wp (if off % b.sectorSize ≠ 0 then readPart b (off % b.sectorSize) c buf else pure (some c, buf)) w
      fun r w' => ∃ c', c'.remaining ≤ c.remaining ∧ Stands b off c.remaining 0 c' ∧
        r = (some c', overlay buf 0 (peek w.dev (base + off) c'.pos)) ∧ w'.dev = w.dev ∧ room w'.heap := by
    split_ifs with h0
    · have hpart : Wp (readPart b _ c (overlay buf 0 _)) w _ :=
        readPart_backed hb hroom hsmall hfit hc (Nat.mod_lt off hsec) hrem hw
      rw [hpos, hstart] at hpart
      apply hpart.mono
      rintro r w' ⟨c', rfl, hc', hr, hdev, hw'⟩
      exact ⟨_, Nat.sub_le _ _, hc', hr, hdev, hw'⟩
    · rw [not_not.mp h0] at hc
      refine wp_pure ⟨c, le_refl _, hc, ?_, rfl, hw⟩
      rw [hpos, hstart]
  apply wp_bind hhead
  rintro r w1 ⟨c1, hle1, hc1, rfl, hdev1, hw1⟩
  dsimp only
  rw [← hdev1]
  apply wp_bind (readMiddle_backed hb hsmall hfit hc1 (by omega) (by omega) hw1)
  rintro r w2 ⟨c2, hlt2, hc2, rfl, rfl⟩
  dsimp only
  have htail : Wp (if 0 < c2.remaining then
      readPart b 0 c2 (overlay buf 0 (peek w2.dev (base + off) c2.pos))
      else pure (some c2, overlay buf 0 (peek w2.dev (base + off) c2.pos))) w2
      fun r w' => ∃ c', c'.remaining = 0 ∧ Stands b off c.remaining 0 c' ∧
        r = (some c', overlay buf 0 (peek w2.dev (base + off) c'.pos)) ∧ w'.dev = w2.dev ∧ room w'.heap := by
    split_ifs with h0
    · apply (readPart_backed hb hroom hsmall hfit hc2 hsec h0 hw1).mono
      rintro r w' ⟨c', rfl, hc', hr, hdev, hw'⟩
      exact ⟨_, by simp only [Cursor.advance]; omega, hc', hr, hdev, hw'⟩
    · exact wp_pure ⟨c2, by omega, hc2, rfl, rfl, hw1⟩
  apply wp_bind htail
  rintro r w3 ⟨c3, hzero, hc3, rfl, hdev3, hw3⟩
  have hall : c3.pos = c.remaining := by
    have := hc3.total
    omega
  refine wp_pure ⟨c.remaining, hn, ?_, hdev3, hw3⟩
  rw [hall, toInt_eq_iff.mpr (by omega)]

theorem devfsWrite_backed : Wp (devfsWrite fuel (deviceFile b) off buf) w fun r w' => ∃ n,
    n = min buf.length (b.sectorCount * b.sectorSize - off) ∧ r = n ∧
      w'.dev = poke w.dev (base + off) (buf.take n) ∧ room w'.heap := by
  have hsec := hb.sector_pos
  have hsmall : b.sectorCount < 2 ^ 63 := by
    have := Nat.le_mul_of_pos_right b.sectorCount hsec
    omega
  obtain ⟨write, hwrite, -⟩ := hb.write
  have hstart : w.dev = poke w.dev (base + off) (buf.take 0) := (poke_nil w.dev (base + off)).symm
  rcases cursor_deviceFile hsize hend with ⟨hnone, hn⟩ | ⟨c, hsome, hpos, hrem, hfit, hn, hc⟩
  · refine ⟨_, w, ?_, 0, hn.symm, rfl, hstart, hw⟩
    simp only [devfsWrite, deviceFile] at hnone ⊢
    simp only [hwrite, hnone]
    rfl
  have hbuf : c.remaining ≤ buf.length := by omega
  simp only [devfsWrite, deviceFile] at hsome ⊢
  simp only [hwrite, hsome, Option.isNone_some, Bool.false_eq_true, ↓reduceIte, if_neg hsec.ne']
  have hhead : Wp (if off % b.sectorSize ≠ 0 then writePart b (off % b.sectorSize) buf c else pure (some c)) w
      fun r w' => ∃ c', c'.remaining ≤ c.remaining ∧ Stands b off c.remaining 0 c' ∧ r = some c' ∧
        w'.dev = poke w.dev (base + off) (buf.take c'.pos) ∧ room w'.heap := by
    split_ifs with h0
    · apply (writePart_backed hb hroom hsmall hfit hbuf hc (Nat.mod_lt off hsec) hrem (hpos ▸ hstart) hw).mono
      rintro r w' ⟨c', rfl, hc', hr, hdev, hw'⟩
      exact ⟨_, Nat.sub_le _ _, hc', hr, hdev, hw'⟩
    · rw [not_not.mp h0] at hc
      exact wp_pure ⟨c, le_refl _, hc, rfl, hpos ▸ hstart, hw⟩
  apply wp_bind hhead
  rintro r w1 ⟨c1, hle1, hc1, rfl, hdev1, hw1⟩
  apply wp_bind (writeMiddle_backed hb hsmall hfit hbuf hc1 (by omega) (by omega) hdev1)
  rintro r w2 ⟨c2, hlt2, hc2, rfl, hdev2, hheap⟩
  have htail : Wp (if 0 < c2.remaining then writePart b 0 buf c2 else pure (some c2)) w2
      fun r w' => ∃ c', c'.remaining = 0 ∧ Stands b off c.remaining 0 c' ∧ r = some c' ∧
        w'.dev = poke w.dev (base + off) (buf.take c'.pos) ∧ room w'.heap := by
    split_ifs with h0
    · apply (writePart_backed hb hroom hsmall hfit hbuf hc2 hsec h0 hdev2 (hheap ▸ hw1)).mono
      rintro r w' ⟨c', rfl, hc', hr, hdev, hw'⟩
      exact ⟨_, by simp only [Cursor.advance]; omega, hc', hr, hdev, hw'⟩
    · exact wp_pure ⟨c2, by omega, hc2, rfl, hdev2, hheap ▸ hw1⟩
  apply wp_bind htail
  rintro r w3 ⟨c3, hzero, hc3, rfl, hdev3, hw3⟩
  have hall : c3.pos = c.remaining := by
    have := hc3.total
    omega
  rw [hall] at hdev3
  refine wp_pure ⟨c.remaining, hn, ?_, hdev3, hw3⟩
  rw [hall, toInt_eq_iff.mpr (by omega)]

end File

theorem devfsOpen_file {σ H : Type} [KernelAlloc H] {devices : List (BlockDevice σ)} {path : CString}
    {w w' : World σ H} {node : Node σ} {b : BlockDevice σ}
    (hopen : devfsOpen devices path w = .ok (some node, w')) (hnode : node.bdev = some b) :
    node = deviceFile b := by
  have hends : Ends (devfsOpen devices path) w (fun _ => True)
      fun r _ => ∀ node, r = some node → node.bdev = some b → node = deviceFile b := by
    unfold devfsOpen
    apply ends_bind (R := fun _ _ => True) (ends_true _ _)
    rintro (_ | dn) w1 -
    · exact fun node hr => by cases hr
    · apply ends_bind (R := fun _ _ => True) (ends_true _ _)
      rintro (_ | vn) w2 -
      · exact fun node hr => by cases hr
      · dsimp only
        split_ifs
        · rintro node hr hb
          cases hr
          cases hb
        · rintro node hr hb
          cases hr
          cases hb
        · split
          · exact fun node hr => by cases hr
          · rintro node hr hb
            cases hr
            cases hb
            rfl
  exact hends.post hopen node rfl hnode

inductive MemoryDevice : BlockDevice Memory → ℕ → Prop
  | ramdisk (name : List UInt8) (rd : Ramdisk) (h64 : rd.bytes < 2 ^ 64) (hend : rd.data + rd.bytes ≤ 2 ^ 64) :
    MemoryDevice (ramdiskDevice name rd) rd.data
  | memdisk {H : Type} [KernelAlloc H] (name : List UInt8) (p : Memdisk) (sectorSize : ℕ) {h h' : H}
    {b : BlockDevice Memory} (hreg : memdiskRegister name p sectorSize h = (some b, h'))
    (hw : p.writable = true) (h64 : p.bytes < 2 ^ 64) (hend : p.base + p.bytes ≤ 2 ^ 64) : MemoryDevice b p.base

theorem MemoryDevice.backed {b : BlockDevice Memory} {base : ℕ} (h : MemoryDevice b base) : Backed b base := by
  cases h with
  | ramdisk name rd h64 hend => exact ramdisk_backed name h64 hend
  | memdisk name p sectorSize hreg hw h64 hend =>
    unfold memdiskRegister at hreg
    split_ifs at hreg with h0 hdvd
    · cases hreg
    · cases hreg
    · split at hreg
      · cases hreg
      · split at hreg
        · cases hreg
        · cases hreg
          exact memdisk_backed name (by omega) h64 hend hw

def deviceBytes (b : BlockDevice Memory) (base : ℕ) (m : Memory) : List UInt8 :=
  peek m base (b.sectorCount * b.sectorSize)

def onDevice (b : BlockDevice Memory) (off len : ℕ) : ℕ := min len (b.sectorCount * b.sectorSize - off)

/-- A device file is the flat array of the device's bytes: a read copies the part of it that was asked for
into the buffer, a write replaces that part and nothing else in memory. -/
theorem devfs_refines_flat_array {H : Type} [KernelAlloc H] {room : H → Prop} {devices : List (BlockDevice Memory)}
    {path : CString} {node : Node Memory} {w₀ w₁ w : World Memory H} {b : BlockDevice Memory} {base : ℕ}
    (hopen : devfsOpen devices path w₀ = .ok (some node, w₁)) (hnode : node.bdev = some b)
    (hdev : MemoryDevice b base) (hsize : b.sectorCount * b.sectorSize < 2 ^ 31)
    (hroom : HasRoom room b.sectorSize) (hw : room w.heap) {fuel off : ℕ} {buf : List UInt8}
    (hfuel : b.sectorCount * b.sectorSize < fuel) (hend : off + buf.length < 2 ^ 64) :
    Wp (devfsRead fuel node off buf) w (fun r w' =>
      r = ((onDevice b off buf.length : ℤ), ((deviceBytes b base w.dev).drop off).take (onDevice b off buf.length) ++
        buf.drop (onDevice b off buf.length)) ∧ w'.dev = w.dev) ∧
    Wp (devfsWrite fuel node off buf) w (fun r w' => r = onDevice b off buf.length ∧
      deviceBytes b base w'.dev = overlay (deviceBytes b base w.dev) off (buf.take (onDevice b off buf.length)) ∧
      ∀ a, a < base + off ∨ base + off + onDevice b off buf.length ≤ a → w'.dev a = w.dev a) := by
  obtain rfl := devfsOpen_file hopen hnode
  constructor
  · apply (devfsRead_backed hdev.backed hroom hsize hend hfuel hw).mono
    rintro r w' ⟨n, hn, rfl, hw', -⟩
    change n = onDevice b off buf.length at hn
    rw [← hn]
    refine ⟨?_, hw'⟩
    rw [overlay_zero (by rw [length_peek, hn]; exact min_le_left _ _), length_peek]
    by_cases hoff : off ≤ b.sectorCount * b.sectorSize
    · rw [deviceBytes, drop_take_peek]
      rw [onDevice] at hn
      omega
    · obtain rfl : n = 0 := by
        rw [onDevice] at hn
        omega
      rfl
  · apply (devfsWrite_backed hdev.backed hroom hsize hend hfuel hw).mono
    rintro r w' ⟨n, hn, rfl, hw', -⟩
    change n = onDevice b off buf.length at hn
    rw [← hn, hw']
    refine ⟨rfl, peek_poke _ _ _ _ _, fun a ha => ?_⟩
    have hlen : (buf.take n).length ≤ n := by
      rw [List.length_take]
      exact min_le_left _ _
    exact if_neg (by omega)

theorem ram0_chars : (0 : UInt8) ∉ [0x72, 0x61, 0x6d, 0x30] := by decide

theorem devfs_refines_flat_array_ram0 : ∃ node : Node Memory,
    Wp (devfsWrite 1025 node 511 [1, 2, 3]) (⟨fun _ => 0, ()⟩ : World Memory Unit) fun r w' =>
      r = 3 ∧ deviceBytes (ramdiskDevice [0x72, 0x61, 0x6d, 0x30] ⟨4096, 1024⟩) 4096 w'.dev =
        overlay (List.replicate 1024 0) 511 [1, 2, 3] := by
  have hdev : MemoryDevice (ramdiskDevice [0x72, 0x61, 0x6d, 0x30] ⟨4096, 1024⟩) 4096 :=
    .ramdisk _ ⟨4096, 1024⟩ (by decide) (by decide)
  have hroom : HasRoom (fun _ : Unit => True) 512 := fun h _ => ⟨16, (), rfl, trivial⟩
  have hopen : devfsOpen [ramdiskDevice [0x72, 0x61, 0x6d, 0x30] ⟨4096, 1024⟩]
      ⟨[0x72, 0x61, 0x6d, 0x30], ram0_chars⟩ (⟨fun _ => 0, ()⟩ : World Memory Unit) =
      .ok (some (deviceFile (ramdiskDevice [0x72, 0x61, 0x6d, 0x30] ⟨4096, 1024⟩)), ⟨fun _ => 0, ()⟩) := rfl
  refine ⟨deviceFile (ramdiskDevice [0x72, 0x61, 0x6d, 0x30] ⟨4096, 1024⟩), ?_⟩
  apply (devfs_refines_flat_array hopen rfl hdev (by decide) hroom trivial (by decide) (by decide)).2.mono
  rintro r w' ⟨hr, hbytes, -⟩
  rw [hbytes, hr, deviceBytes, peek]
  constructor
  · decide
  · rw [List.map_const', List.length_range]
    rfl

end DexOs.Devfs
