import DexOs.ExfatLookup

/-! The directory loops of `exfat.c` with every access to the cluster buffer checked. A checked loop stops with
`none` at the first access outside the buffer; none of them does, whatever the buffer holds. -/

namespace DexOs.Exfat

open DexOs.Lib

section Checked

variable (buf : List UInt8)

def numIn : ℕ → ℕ → Option ℕ
  | 0, _ => some 0
  | n + 1, i => do
    let b ← buf[i]?
    let rest ← numIn n (i + 1)
    pure (b.toNat + 256 * rest)

def scanNameSlotIn (k : ℕ) : List ℕ → List UInt8 → Option (List UInt8)
  | [], name => pure name
  | c :: cs, name =>
    if name.length < 63 then do
      let ch ← numIn buf 2 (32 * k + (2 + c * 2))
      scanNameSlotIn k cs (if ch = 0 then name else name ++ [toAscii ch])
    else pure name

def unlinkNameSlotIn (k : ℕ) : List ℕ → List UInt8 → Option (List UInt8)
  | [], name => pure name
  | c :: cs, name =>
    if name.length < 63 then do
      let ch ← numIn buf 2 (32 * k + (2 + c * 2))
      if ch = 0 then pure name else unlinkNameSlotIn k cs (name ++ [toAscii ch])
    else pure name

def nameSlotsIn (take : ℕ → List ℕ → List UInt8 → Option (List UInt8)) :
    ℕ → ℕ → List UInt8 → Option (List UInt8 × ℕ)
  | 0, j, name => pure (name, j)
  | n + 1, j, name => do
    let et ← buf[32 * j]?
    if et = 0xC1 then do
      let name ← take j (List.range 15) name
      nameSlotsIn take n (j + 1) name
    else pure (name, j)

variable (slots : ℕ)

def hasStreamIn (k : ℕ) : Option Bool :=
  if k + 1 < slots then (buf[32 * (k + 1)]?).map (· = 0xC0) else pure false

def scanEntryIn (k : ℕ) : Option (Dirent × ℕ) := do
  let attr ← numIn buf 2 (32 * k + 4)
  let isDir := attr &&& 0x10 ≠ 0
  if ← hasStreamIn buf slots k then do
    let first ← numIn buf 4 (32 * (k + 1) + 20)
    let size ← numIn buf 8 (32 * (k + 1) + 24)
    let r ← nameSlotsIn buf (scanNameSlotIn buf) (slots - (k + 2)) (k + 2) []
    pure (⟨first, size, isDir, r.1⟩, r.2)
  else do
    let r ← nameSlotsIn buf (scanNameSlotIn buf) (slots - (k + 1)) (k + 1) []
    pure (⟨0, 0, isDir, r.1⟩, r.2)

def scanSlotsIn : ℕ → ℕ → Option (List Dirent)
  | 0, _ => pure []
  | n + 1, k =>
    if slots ≤ k then pure []
    else do
      let et ← buf[32 * k]?
      if et = 0 then pure []
      else if et &&& 0x7F = 0x05 then do
        let r ← scanEntryIn buf slots k
        let rest ← scanSlotsIn n r.2
        pure (r.1 :: rest)
      else scanSlotsIn n (k + 1)

def findEndIn : ℕ → ℕ → Option ℕ
  | 0, k => pure k
  | n + 1, k =>
    if slots ≤ k then pure k
    else do
      let et ← buf[32 * k]?
      if et = 0 then pure k else findEndIn n (k + 1)

def findByFirstIn (first : ℕ) : ℕ → ℕ → Option (Option ℕ)
  | 0, _ => pure none
  | n + 1, k =>
    if slots < k + 2 then pure none
    else do
      let et ← buf[32 * k]?
      if et = 0 then pure none
      else do
        let next ← buf[32 * (k + 1)]?
        let cl ← numIn buf 4 (32 * (k + 1) + 20)
        if et &&& 0x7F = 0x05 ∧ next = 0xC0 ∧ cl = first then pure (some k) else findByFirstIn first n (k + 1)

def findByNameIn (name : List UInt8) : ℕ → ℕ → Option (Option (ℕ × ℕ))
  | 0, _ => pure none
  | n + 1, k =>
    if slots ≤ k then pure none
    else do
      let et ← buf[32 * k]?
      if et = 0 then pure none
      else do
        let stream ← hasStreamIn buf slots k
        if et &&& 0x7F = 0x05 ∧ stream then do
          let r ← nameSlotsIn buf (unlinkNameSlotIn buf) (slots - (k + 2)) (k + 2) []
          if r.1 = name then pure (some (k, r.2)) else findByNameIn name n (k + 1)
        else findByNameIn name n (k + 1)

end Checked

section Bounds

variable {buf : List UInt8} {slots : ℕ}

theorem byteIn {i : ℕ} (h : i < buf.length) : buf[i]? = some (byteAt buf i) := by
  rw [byteAt_of_lt h, List.getElem?_eq_getElem h]

theorem numIn_eq {n i : ℕ} (h : i + n ≤ buf.length) : numIn buf n i = some (leNat (byteAt buf) n i) := by
  induction n generalizing i with
  | zero => rfl
  | succ n ih =>
    unfold numIn
    rw [byteIn (by omega), ih (by omega)]
    rfl

variable (hs : 32 * slots ≤ buf.length)

include hs

theorem slotNumIn {k off n : ℕ} (hk : k < slots) (hoff : off + n ≤ 32) :
    numIn buf n (32 * k + off) = some (leNat (slotByte buf k) n off) := by
  rw [numIn_eq (by omega), leNat_congr (g := slotByte buf k) (b := off)]
  intro i _
  rw [slotByte, Nat.add_assoc]

theorem slotTypeIn {k : ℕ} (hk : k < slots) : buf[32 * k]? = some (slotType buf k) := byteIn (by omega)

theorem scanNameSlotIn_eq {k : ℕ} (hk : k < slots) {cs : List ℕ} (hcs : ∀ c ∈ cs, c < 15) (name : List UInt8) :
    scanNameSlotIn buf k cs name = some (scanNameSlot buf k cs name) := by
  induction cs generalizing name with
  | nil => rfl
  | cons c cs ih =>
    have hc := hcs c List.mem_cons_self
    unfold scanNameSlotIn scanNameSlot
    split
    · rw [slotNumIn hs hk (by omega)]
      exact ih (fun c h => hcs c (List.mem_cons_of_mem _ h)) _
    · rfl

theorem unlinkNameSlotIn_eq {k : ℕ} (hk : k < slots) {cs : List ℕ} (hcs : ∀ c ∈ cs, c < 15) (name : List UInt8) :
    unlinkNameSlotIn buf k cs name = some (unlinkNameSlot buf k cs name) := by
  induction cs generalizing name with
  | nil => rfl
  | cons c cs ih =>
    have hc := hcs c List.mem_cons_self
    unfold unlinkNameSlotIn unlinkNameSlot
    split
    · rw [slotNumIn hs hk (by omega)]
      change (if nameChar buf k c = 0 then _ else _) = _
      split
      · rfl
      · exact ih (fun c h => hcs c (List.mem_cons_of_mem _ h)) _
    · rfl

theorem nameSlotsIn_eq {takeIn : ℕ → List ℕ → List UInt8 → Option (List UInt8)}
    {take : ℕ → List ℕ → List UInt8 → List UInt8}
    (ht : ∀ j < slots, ∀ name, takeIn j (List.range 15) name = some (take j (List.range 15) name))
    {n j : ℕ} (hn : j + n ≤ slots) (name : List UInt8) :
    nameSlotsIn buf takeIn n j name = some (nameSlots buf take n j name) := by
  induction n generalizing j name with
  | zero => rfl
  | succ n ih =>
    unfold nameSlotsIn nameSlots
    rw [slotTypeIn hs (by omega)]
    change (if slotType buf j = 0xC1 then _ else _) = _
    split
    · rw [ht j (by omega)]
      exact ih (by omega) _
    · rfl

theorem scanNamesIn {n j : ℕ} (hn : j + n ≤ slots) :
    nameSlotsIn buf (scanNameSlotIn buf) n j [] = some (nameSlots buf (scanNameSlot buf) n j []) := by
  apply nameSlotsIn_eq hs _ hn
  intro j hj name
  exact scanNameSlotIn_eq hs hj (fun c h => List.mem_range.mp h) name

theorem unlinkNamesIn {n j : ℕ} (hn : j + n ≤ slots) :
    nameSlotsIn buf (unlinkNameSlotIn buf) n j [] = some (nameSlots buf (unlinkNameSlot buf) n j []) := by
  apply nameSlotsIn_eq hs _ hn
  intro j hj name
  exact unlinkNameSlotIn_eq hs hj (fun c h => List.mem_range.mp h) name

theorem hasStreamIn_eq (k : ℕ) : hasStreamIn buf slots k = some (hasStream buf slots k) := by
  unfold hasStreamIn hasStream
  by_cases hk : k + 1 < slots
  · rw [if_pos hk, slotTypeIn hs hk]
    simp [hk]
  · simp [hk]

theorem scanEntryIn_eq {k : ℕ} (hk : k < slots) : scanEntryIn buf slots k = some (scanEntry buf slots k) := by
  unfold scanEntryIn scanEntry
  rw [slotNumIn hs hk (by decide), hasStreamIn_eq hs]
  dsimp only [Option.bind_eq_bind, Option.bind_some]
  split
  case isTrue hst =>
    have hk1 := (hasStream_iff.mp hst).1
    rw [slotNumIn hs hk1 (by decide), slotNumIn hs hk1 (by decide), scanNamesIn hs (by omega)]
    rfl
  case isFalse =>
    rw [scanNamesIn hs (by omega)]
    rfl

theorem scanSlotsIn_eq (n k : ℕ) : scanSlotsIn buf slots n k = some (scanSlots buf slots n k) := by
  induction n generalizing k with
  | zero => rfl
  | succ n ih =>
    unfold scanSlotsIn scanSlots
    by_cases hk : slots ≤ k
    · rw [if_pos hk, if_pos (.inl hk)]
      rfl
    · rw [if_neg hk, slotTypeIn hs (by omega)]
      dsimp only [Option.bind_eq_bind, Option.bind_some]
      by_cases h0 : slotType buf k = 0
      · rw [if_pos h0, if_pos (.inr h0)]
        rfl
      · rw [if_neg h0, if_neg (not_or.mpr ⟨hk, h0⟩), scanEntryIn_eq hs (by omega), ih]
        dsimp only [Option.bind_some]
        rw [ih, isPrimary]
        simp only [decide_eq_true_eq]
        split <;> rfl

theorem findEndIn_eq (n k : ℕ) : findEndIn buf slots n k = some (findEnd buf slots n k) := by
  induction n generalizing k with
  | zero => rfl
  | succ n ih =>
    unfold findEndIn findEnd
    by_cases hk : slots ≤ k
    · rw [if_pos hk, if_pos (.inl hk)]
      rfl
    · rw [if_neg hk, slotTypeIn hs (by omega)]
      dsimp only [Option.bind_eq_bind, Option.bind_some]
      by_cases h0 : slotType buf k = 0
      · rw [if_pos h0, if_pos (.inr h0)]
        rfl
      · rw [if_neg h0, if_neg (not_or.mpr ⟨hk, h0⟩), ih]

theorem findByFirstIn_eq (first n k : ℕ) :
    findByFirstIn buf slots first n k = some (findByFirst buf slots first n k) := by
  induction n generalizing k with
  | zero => rfl
  | succ n ih =>
    unfold findByFirstIn findByFirst
    by_cases hk : slots < k + 2
    · rw [if_pos hk, if_pos (.inl hk)]
      rfl
    · rw [if_neg hk, slotTypeIn hs (by omega), slotTypeIn hs (by omega), slotNumIn hs (by omega) (by decide)]
      dsimp only [Option.bind_eq_bind, Option.bind_some]
      by_cases h0 : slotType buf k = 0
      · rw [if_pos h0, if_pos (.inr h0)]
        rfl
      · rw [if_neg h0, if_neg (not_or.mpr ⟨hk, h0⟩), ih, isPrimary]
        simp only [decide_eq_true_eq]
        exact (apply_ite some _ _ _).symm

theorem findByNameIn_eq (name : List UInt8) (n k : ℕ) :
    findByNameIn buf slots name n k = some (findByName buf slots name n k) := by
  induction n generalizing k with
  | zero => rfl
  | succ n ih =>
    unfold findByNameIn findByName
    by_cases hk : slots ≤ k
    · rw [if_pos hk, if_pos (.inl hk)]
      rfl
    · rw [if_neg hk, slotTypeIn hs (by omega), hasStreamIn_eq hs]
      dsimp only [Option.bind_eq_bind, Option.bind_some]
      by_cases h0 : slotType buf k = 0
      · rw [if_pos h0, if_pos (.inr h0)]
        rfl
      · rw [if_neg h0, if_neg (not_or.mpr ⟨hk, h0⟩), isPrimary]
        simp only [decide_eq_true_eq]
        split
        case isTrue hst =>
          have hk1 := (hasStream_iff.mp hst.2).1
          rw [unlinkNamesIn hs (by omega), ih]
          dsimp only [Option.bind_some]
          split <;> rfl
        case isFalse => exact ih _

omit hs

theorem findByFirst_lt {first n k i : ℕ} (h : findByFirst buf slots first n k = some i) : i + 2 ≤ slots := by
  induction n generalizing k with
  | zero => cases h
  | succ n ih =>
    unfold findByFirst at h
    split_ifs at h with hend hhit
    · obtain rfl := Option.some.inj h
      have := (not_or.mp hend).1
      omega
    · exact ih h

theorem findByName_le {name : List UInt8} {n k i j : ℕ} (h : findByName buf slots name n k = some (i, j)) :
    i < j ∧ j ≤ slots := by
  induction n generalizing k with
  | zero => cases h
  | succ n ih =>
    unfold findByName at h
    dsimp only at h
    split_ifs at h with hend hhit hname
    · have hk := (hasStream_iff.mp hhit.2).1
      obtain ⟨hlo, hhi, -⟩ := nameSlots_snd buf (unlinkNameSlot buf) (slots - (k + 2)) (k + 2) []
      rw [Option.some.injEq, Prod.mk.injEq] at h
      omega
    · exact ih h
    · exact ih h

end Bounds

/-- The checked loops run through and agree with the unchecked ones, and what is written into the buffer at the
slot that they find lies inside it. -/
structure InBounds (dir : List UInt8) : Prop where
  scan : scanSlotsIn dir (slotCount dir) (slotCount dir) 0 = some (dirEntries dir)
  endSlot : findEndIn dir (slotCount dir) (slotCount dir) 0 = some (endSlot dir)
  byFirst : ∀ first, findByFirstIn dir (slotCount dir) first (slotCount dir) 0 =
    some (findByFirst dir (slotCount dir) first (slotCount dir) 0)
  byName : ∀ name, findByNameIn dir (slotCount dir) name (slotCount dir) 0 =
    some (findByName dir (slotCount dir) name (slotCount dir) 0)
  stream : ∀ first k, findByFirst dir (slotCount dir) first (slotCount dir) 0 = some k → 32 * (k + 1) + 32 ≤ dir.length
  erased : ∀ name k j, findByName dir (slotCount dir) name (slotCount dir) 0 = some (k, j) →
    32 * k + 32 * (j - k) ≤ dir.length

theorem inBounds (dir : List UInt8) : InBounds dir := by
  have hs : 32 * slotCount dir ≤ dir.length := by
    unfold slotCount
    omega
  refine ⟨scanSlotsIn_eq hs _ _, findEndIn_eq hs _ _, fun first => findByFirstIn_eq hs first _ _,
    fun name => findByNameIn_eq hs name _ _, ?_, ?_⟩
  · intro first k hk
    have := findByFirst_lt hk
    omega
  · intro name k j hj
    have := findByName_le hj
    omega

end DexOs.Exfat
