import DexOs.ExfatHeap
import DexOs.Devfs

/-! The file operations leave the kernel heap as they found it. -/

namespace DexOs.Devfs

open DexOs.Lib DexOs.Exfat

def Less (c : Cursor) (r : Option Cursor) : Prop := ∀ c', r = some c' → c'.remaining ≤ c.remaining

theorem less_refl (c : Cursor) : Less c (some c) := by
  intro c' h
  cases h
  exact le_refl _

theorem turn_pos {c : Cursor} {sec : ℕ} (hsec : 0 < sec) (hle : sec ≤ c.remaining) (hlt : c.remaining < 2 ^ 32) :
    0 < c.turn sec ∧ c.turn sec * sec ≤ c.remaining := by
  have h1 : 0 < c.remaining / sec := Nat.div_pos hle hsec
  have h2 : c.remaining / sec ≤ c.remaining := Nat.div_le_self _ _
  have h3 : c.turn sec ≤ c.remaining / sec := by
    rw [Cursor.turn, Nat.mod_eq_of_lt (by omega)]
    exact min_le_left _ _
  refine ⟨?_, (Nat.mul_le_mul_right sec h3).trans (Nat.div_mul_le_self _ _)⟩
  rw [Cursor.turn, Nat.mod_eq_of_lt (by omega)]
  omega

variable {σ H : Type} {owes : Multiset ℕ → H → Prop} {E : Fault → Prop}

section Middle

variable {b : BlockDevice σ} {fuel : ℕ} {c : Cursor}

theorem turn_fuel (hsec : b.sectorSize ≠ 0) (hle : ¬ c.remaining < b.sectorSize)
    (hfuel : fuel + 1 ≤ c.remaining ∨ 2 ^ 32 ≤ c.remaining → E .fuel) :
    (fuel ≤ (c.advance (c.turn b.sectorSize * b.sectorSize) (c.turn b.sectorSize)).remaining ∨
      2 ^ 32 ≤ (c.advance (c.turn b.sectorSize * b.sectorSize) (c.turn b.sectorSize)).remaining) → E .fuel := by
  intro h
  apply hfuel
  rw [Cursor.advance] at h
  dsimp only at h
  -- below 2^32 bytes the 32-bit sector count of a turn is not 0, so every turn makes progress
  by_cases hlt : c.remaining < 2 ^ 32
  · obtain ⟨hpos, hfit⟩ := turn_pos (Nat.pos_of_ne_zero hsec) (Nat.le_of_not_lt hle) hlt
    have hone : 0 < c.turn b.sectorSize * b.sectorSize := Nat.mul_pos hpos (Nat.pos_of_ne_zero hsec)
    omega
  · exact .inr (Nat.le_of_not_lt hlt)

variable (hE : ¬ Proper b → E .memory) (hsec : b.sectorSize ≠ 0)

include hE hsec

theorem readMiddle_neutral (buf : List UInt8) (hfuel : fuel ≤ c.remaining ∨ 2 ^ 32 ≤ c.remaining → E .fuel) :
    Neutral (Owed owes) E (readMiddle b fuel c buf : Io σ H _) fun _ => True := by
  induction fuel generalizing c buf with
  | zero => exact stop_triple (hfuel (.inl (Nat.zero_le _)))
  | succ fuel ih =>
    unfold readMiddle
    split
    · exact neutral_pure trivial
    case isFalse hle =>
      apply (bdevRead_neutral hE _ _).bind
      intro r hr
      split
      case isTrue hlong =>
        apply stop_triple
        apply hE
        intro hp
        have := hr hp
        omega
      case isFalse =>
        split
        · exact neutral_pure trivial
        · exact ih _ (turn_fuel hsec hle hfuel)

theorem writeMiddle_neutral (buf : List UInt8) (hfuel : fuel ≤ c.remaining ∨ 2 ^ 32 ≤ c.remaining → E .fuel) :
    Neutral (Owed owes) E (writeMiddle b buf fuel c : Io σ H _) fun _ => True := by
  induction fuel generalizing c with
  | zero => exact stop_triple (hfuel (.inl (Nat.zero_le _)))
  | succ fuel ih =>
    unfold writeMiddle
    split
    · exact neutral_pure trivial
    case isFalse hle =>
      apply (bdevWrite_neutral hE _ _ _).bind
      intro rc _
      split
      · exact neutral_pure trivial
      · exact ih (turn_fuel hsec hle hfuel)

end Middle

variable [KernelAlloc H] (L : HeapLedger owes)

include L

theorem devfsOpen_ends (devices : List (BlockDevice σ)) (path : CString) {w : World σ H} (hw : owes 0 w.heap) :
    Ends (devfsOpen devices path) w E fun r w' => r = none → owes 0 w'.heap := by
  unfold devfsOpen
  apply open_ends L
  case hnone => rfl
  case hsome => exact fun dn => rfl
  case hfree => exact fun dn => rfl
  case hw => exact hw
  case hg =>
    intro dn vn
    dsimp only
    split
    · exact triple_pure rfl trivial
    · split
      · exact triple_pure rfl trivial
      · split
        · apply triple_bind (kfree_triple L dn {vn})
          intro _ _
          exact kfree_pure L vn rfl trivial
        · exact triple_pure rfl trivial

section Transfers

variable {b : BlockDevice σ} (hE : ¬ Proper b → E .memory)

include hE

theorem loadSector_triple (lba : ℕ) :
    Triple (Owed owes) E 0 (loadSector b lba : Io σ H _) (fun r => held (r.map Prod.fst)) fun _ => True := by
  unfold loadSector
  apply kmalloc_bind L
  case hnone => exact triple_pure rfl trivial
  case hsome =>
    intro p
    apply (bdevRead_neutral hE _ _).bind
    intro r hr
    split
    · split
      case isTrue hlong =>
        apply stop_triple
        apply hE
        intro hp
        have := hr hp
        omega
      case isFalse => exact triple_pure rfl trivial
    · exact kfree_pure L p rfl trivial

theorem readPart_neutral (headOff : ℕ) (c : Cursor) (buf : List UInt8) :
    Neutral (Owed owes) E (readPart b headOff c buf : Io σ H _) fun r => Less c r.1 := by
  unfold readPart
  apply triple_bind (loadSector_triple L hE _)
  intro r _
  cases r with
  | none =>
    apply neutral_pure
    intro c' h
    cases h
  | some r =>
    refine kfree_pure L r.1 rfl ?_
    intro c' h
    obtain rfl := Option.some.inj h
    exact Nat.sub_le _ _

theorem writePart_neutral (headOff : ℕ) (buf : List UInt8) (c : Cursor) :
    Neutral (Owed owes) E (writePart b headOff buf c : Io σ H _) (Less c) := by
  unfold writePart
  apply triple_bind (loadSector_triple L hE _)
  intro r _
  cases r with
  | none =>
    apply neutral_pure
    intro c' h
    cases h
  | some r =>
    apply (bdevWrite_neutral hE _ _ _).bind
    intro rc _
    refine kfree_pure L r.1 rfl ?_
    intro c' h
    split at h
    · obtain rfl := Option.some.inj h
      exact Nat.sub_le _ _
    · cases h

end Transfers

def Usable (node : Node σ) : Prop := ∃ b, node.bdev = some b ∧ Proper b ∧ b.sectorSize ≠ 0

omit L in
theorem cursor_le {node : Node σ} {sec off len : ℕ} {c : Cursor} (hc : cursor node sec off len = some c) :
    c.remaining ≤ len := by
  unfold cursor at hc
  dsimp only at hc
  split at hc
  · cases hc
  · obtain rfl := Option.some.inj hc
    have h1 := min_le_left ((off + len) % 2 ^ 64) node.size
    have h2 := Nat.mod_le (off + len) (2 ^ 64)
    dsimp only
    omega

section Files

variable {node : Node σ} {fuel : ℕ} {buf : List UInt8} (hE : ¬ Usable node → E .memory)
  (hfuel : fuel ≤ buf.length ∨ 2 ^ 32 ≤ buf.length → E .fuel)

include hE hfuel

omit [KernelAlloc H] L hfuel in
theorem device_fault {b : BlockDevice σ} (hb : node.bdev = some b) :
    (b.sectorSize = 0 → E .memory) ∧ (¬ Proper b → E .memory) := by
  constructor
  · intro h0
    apply hE
    rintro ⟨b', hb', -, hsec⟩
    cases hb.symm.trans hb'
    exact hsec h0
  · intro hnot
    apply hE
    rintro ⟨b', hb', hp, -⟩
    cases hb.symm.trans hb'
    exact hnot hp

omit [KernelAlloc H] L hE in
theorem fuel_of_less {c c' : Cursor} (hlen : c.remaining ≤ buf.length) (hless : Less c (some c')) :
    fuel ≤ c'.remaining ∨ 2 ^ 32 ≤ c'.remaining → E .fuel := by
  intro h
  apply hfuel
  have := hless c' rfl
  omega

theorem devfsRead_neutral (off : ℕ) :
    Neutral (Owed owes) E (devfsRead fuel node off buf : Io σ H _) fun _ => True := by
  unfold devfsRead
  split
  · exact neutral_pure trivial
  · split
    · exact neutral_pure trivial
    case h_2 b hb =>
      split
      · exact neutral_pure trivial
      · split
        · exact neutral_pure trivial
        case h_2 c hc =>
          split
          case isTrue h0 => exact stop_triple ((device_fault hE hb).1 h0)
          case isFalse hsec =>
            have hp := (device_fault hE hb).2
            have hhead : Neutral (Owed owes) E (if off % b.sectorSize ≠ 0 then readPart b (off % b.sectorSize) c buf
                else pure (some c, buf) : Io σ H _) fun r => Less c r.1 := by
              split
              · exact readPart_neutral L hp _ c buf
              · exact neutral_pure (less_refl c)
            apply hhead.bind
            rintro ⟨oc, buf₁⟩ hless
            cases oc with
            | none => exact neutral_pure trivial
            | some c₁ =>
              apply Neutral.bind (readMiddle_neutral hp hsec buf₁ (fuel_of_less hfuel (cursor_le hc) hless))
              rintro ⟨oc, buf₂⟩ _
              cases oc with
              | none => exact neutral_pure trivial
              | some c₂ =>
                have htail : Neutral (Owed owes) E (if 0 < c₂.remaining then readPart b 0 c₂ buf₂
                    else pure (some c₂, buf₂) : Io σ H _) fun r => Less c₂ r.1 := by
                  split
                  · exact readPart_neutral L hp 0 c₂ buf₂
                  · exact neutral_pure (less_refl c₂)
                apply htail.bind
                rintro ⟨oc, buf₃⟩ _
                cases oc with
                | none => exact neutral_pure trivial
                | some c₃ => exact neutral_pure trivial

theorem devfsWrite_neutral (off : ℕ) :
    Neutral (Owed owes) E (devfsWrite fuel node off buf : Io σ H _) fun _ => True := by
  unfold devfsWrite
  split
  · exact neutral_pure trivial
  · split
    case h_1 hnone =>
      apply stop_triple
      apply hE
      rintro ⟨b, hb, -⟩
      cases hnone.symm.trans hb
    case h_2 b hb =>
      split
      · exact neutral_pure trivial
      · split
        · exact neutral_pure trivial
        case h_2 c hc =>
          split
          case isTrue h0 => exact stop_triple ((device_fault hE hb).1 h0)
          case isFalse hsec =>
            have hp := (device_fault hE hb).2
            have hhead : Neutral (Owed owes) E (if off % b.sectorSize ≠ 0 then writePart b (off % b.sectorSize) buf c
                else pure (some c) : Io σ H _) (Less c) := by
              split
              · exact writePart_neutral L hp _ buf c
              · exact neutral_pure (less_refl c)
            apply hhead.bind
            intro oc hless
            cases oc with
            | none => exact neutral_pure trivial
            | some c₁ =>
              apply Neutral.bind (writeMiddle_neutral hp hsec buf (fuel_of_less hfuel (cursor_le hc) hless))
              intro oc _
              cases oc with
              | none => exact neutral_pure trivial
              | some c₂ =>
                have htail : Neutral (Owed owes) E (if 0 < c₂.remaining then writePart b 0 buf c₂
                    else pure (some c₂) : Io σ H _) (Less c₂) := by
                  split
                  · exact writePart_neutral L hp 0 buf c₂
                  · exact neutral_pure (less_refl c₂)
                apply htail.bind
                intro oc _
                cases oc with
                | none => exact neutral_pure trivial
                | some c₃ => exact neutral_pure trivial

end Files

end DexOs.Devfs

namespace DexOs

open DexOs.Lib DexOs.Exfat DexOs.Devfs DexOs.KernelHeap

variable {σ α : Type} {u : ℕ} {S : Space} {blocks : List ℕ} {w : World σ FailingHeap} {E : Fault → Prop}

abbrev Ledgered (S : Space) (u : ℕ) (w : World σ FailingHeap) (blocks : List ℕ) : Multiset ℕ → FailingHeap → Prop :=
  FailingHeap.Owing u S (used S w.heap.heap blocks)

theorem neutral_sameBlocks {x : Io σ FailingHeap α} {Q : α → Prop} (t : Tidy u S w.heap.heap blocks)
    (hs : w.heap.heap.heapSize = S.size) (hx : Neutral (Owed (Ledgered S u w blocks)) E x Q) :
    Ends x w E fun _ w' => SameBlocks w.heap.heap w'.heap.heap := by
  apply (hx.ends ⟨blocks, t.owes hs⟩).mono (fun _ he => he)
  rintro a w' ⟨-, blocks', o⟩
  exact o.sameBlocks t

theorem open_sameBlocks {x : Io σ FailingHeap (Option α)} (t : Tidy u S w.heap.heap blocks)
    (hx : Ends x w E fun r w' => r = none → Ledgered S u w blocks 0 w'.heap) :
    Ends x w E fun r w' => r = none → SameBlocks w.heap.heap w'.heap.heap := by
  apply hx.mono (fun _ he => he)
  intro r w' h hr
  obtain ⟨blocks', o⟩ := h hr
  exact o.sameBlocks t

/-- Whatever the device and `kmalloc` answer, the file operations leave every block of the heap as it was; so
do the two open functions when they return null. An operation does not return only where the C code divides by
zero, calls a null pointer or lets the device overrun a buffer, or where a loop does not end. -/
theorem file_operations_heap_neutral {bdev : BlockDevice σ} {fs : Fs σ} {w₀ w₁ : World σ FailingHeap}
    (hmount : exfatMount bdev w₀ = .ok (some fs, w₁)) (hbytes : fs.bytesPerSector = 512)
    (t : Tidy u S w.heap.heap blocks) (hs : w.heap.heap.heapSize = S.size) :
    (∀ node off len, Ends (exfatRead fs node off len) w
      (fun e => e = .memory ∧ (¬ Proper fs.bdev ∨ fs.clusterSize = 0))
      fun _ w' => SameBlocks w.heap.heap w'.heap.heap) ∧
    (∀ fuel node off buf, Ends (exfatWrite fuel fs node off buf) w
      (fun e => e = .fuel ∨ e = .memory ∧ (¬ Proper fs.bdev ∨ fs.clusterSize = 0))
      fun _ w' => SameBlocks w.heap.heap w'.heap.heap) ∧
    (∀ path, Ends (exfatCreate fs path) w (fun e => e = .memory ∧ ¬ Proper fs.bdev)
      fun _ w' => SameBlocks w.heap.heap w'.heap.heap) ∧
    (∀ fuel path, Ends (exfatUnlink fuel fs path) w (fun e => e = .fuel ∨ e = .memory ∧ ¬ Proper fs.bdev)
      fun _ w' => SameBlocks w.heap.heap w'.heap.heap) ∧
    (∀ path, Ends (exfatStat fs path) w (fun e => e = .memory ∧ ¬ Proper fs.bdev)
      fun _ w' => SameBlocks w.heap.heap w'.heap.heap) ∧
    (∀ path, Ends (exfatOpen fs path) w (fun e => e = .memory ∧ ¬ Proper fs.bdev)
      fun r w' => r = none → SameBlocks w.heap.heap w'.heap.heap) ∧
    (∀ fuel node off buf, Ends (devfsRead fuel node off buf) w
      (fun e => e = .memory ∧ ¬ Usable node ∨ e = .fuel ∧ (fuel ≤ buf.length ∨ 2 ^ 32 ≤ buf.length))
      fun _ w' => SameBlocks w.heap.heap w'.heap.heap) ∧
    (∀ fuel node off buf, Ends (devfsWrite fuel node off buf) w
      (fun e => e = .memory ∧ ¬ Usable node ∨ e = .fuel ∧ (fuel ≤ buf.length ∨ 2 ^ 32 ≤ buf.length))
      fun _ w' => SameBlocks w.heap.heap w'.heap.heap) ∧
    ∀ devices path, Ends (devfsOpen devices path) w (fun _ => False)
      fun r w' => r = none → SameBlocks w.heap.heap w'.heap.heap := by
  have hfs := exfatMount_fs512 hmount hbytes
  have L := FailingHeap.ledger u S (used S w.heap.heap blocks)
  have hw : Ledgered S u w blocks 0 w.heap := ⟨blocks, t.owes hs⟩
  refine ⟨?_, ?_, ?_, ?_, ?_, ?_, ?_, ?_, ?_⟩
  · intro node off len
    apply neutral_sameBlocks t hs
    exact exfatRead_neutral L hfs (fun h => ⟨rfl, .inl h⟩) (fun h => ⟨rfl, .inr h⟩) node off len
  · intro fuel node off buf
    apply neutral_sameBlocks t hs
    exact exfatWrite_neutral L hfs (fun h => .inr ⟨rfl, .inl h⟩) (.inl rfl) (fun h => .inr ⟨rfl, .inr h⟩) fuel node off buf
  · intro path
    apply neutral_sameBlocks t hs
    exact exfatCreate_neutral L hfs (fun h => ⟨rfl, h⟩) path
  · intro fuel path
    apply neutral_sameBlocks t hs
    exact exfatUnlink_neutral L hfs (fun h => .inr ⟨rfl, h⟩) (.inl rfl) fuel path
  · intro path
    apply neutral_sameBlocks t hs
    exact exfatStat_neutral L hfs (fun h => ⟨rfl, h⟩) path
  · intro path
    apply open_sameBlocks t
    exact exfatOpen_ends L hfs (fun h => ⟨rfl, h⟩) path hw
  · intro fuel node off buf
    apply neutral_sameBlocks t hs
    exact devfsRead_neutral L (fun h => .inl ⟨rfl, h⟩) (fun h => .inr ⟨rfl, h⟩) off
  · intro fuel node off buf
    apply neutral_sameBlocks t hs
    exact devfsWrite_neutral L (fun h => .inl ⟨rfl, h⟩) (fun h => .inr ⟨rfl, h⟩) off
  · intro devices path
    apply open_sameBlocks t
    exact devfsOpen_ends L devices path hw

def brokenDevice : BlockDevice Unit where
  name := []
  sectorSize := 512
  sectorCount := 8192
  read := some fun _ _ _ => ((-1, []), ())
  write := some fun _ _ _ _ => (-1, ())

def smallHeap : FailingHeap :=
  ⟨kmallocInit (fun _ => ⟨0, false, 0⟩) smallRegion.start smallRegion.size, fun i => i % 2 = 1, 0⟩

theorem fileA_chars : (0 : UInt8) ∉ [0x61] := by decide

def fileA : CString := ⟨[0x61], fileA_chars⟩

theorem file_operations_heap_neutral_small :
    ∃ fs w₁ w', exfatMount brokenDevice ⟨(), smallHeap⟩ = .ok (some fs, w₁) ∧ fs.bytesPerSector = 512 ∧
      exfatOpen fs fileA ⟨(), smallHeap⟩ = .ok (none, w') ∧ SameBlocks smallHeap.heap w'.heap.heap := by
  obtain ⟨r, w₁, hrun, hr⟩ := wp_of_test (show test (exfatMount brokenDevice) (⟨(), smallHeap⟩ : World Unit FailingHeap)
    (fun r _ => r.any fun fs => fs.bytesPerSector = 512 &&
      test (exfatOpen fs fileA) (⟨(), smallHeap⟩ : World Unit FailingHeap) fun r _ => r.isNone) = true by decide +kernel)
  obtain ⟨fs, rfl, hfs⟩ := (Option.any_eq_true _ _).mp hr
  obtain ⟨hb, hopen⟩ := Bool.and_eq_true_iff.mp hfs
  have hbytes : fs.bytesPerSector = 512 := of_decide_eq_true hb
  obtain ⟨r, w', hrun', hnone⟩ := wp_of_test hopen
  obtain rfl := Option.isNone_iff_eq_none.mp hnone
  have t : Tidy 16 smallRegion.toSpace smallHeap.heap [smallRegion.start] := init_tidy smallRegion _
  have h := file_operations_heap_neutral (w := ⟨(), smallHeap⟩) hrun hbytes t rfl
  exact ⟨fs, w₁, w', hrun, hbytes, hrun', (h.2.2.2.2.2.1 fileA).post hrun' rfl⟩

end DexOs
