import DexOs.ExfatDirectory

/-! What the driver's edits do to the list of entries: an entry set appended, an entry set removed, a
stream extension rewritten. -/

namespace DexOs.Exfat

open DexOs.Lib

variable {dir dir' : List UInt8} {slots : ℕ}

def SameSlot (dir dir' : List UInt8) (k : ℕ) : Prop := ∀ off < 32, slotByte dir' k off = slotByte dir k off

theorem SameSlot.type {k : ℕ} (h : SameSlot dir dir' k) : slotType dir' k = slotType dir k := h 0 (by decide)

theorem SameSlot.leNat {k n off : ℕ} (h : SameSlot dir dir' k) (hn : off + n ≤ 32) :
    leNat (slotByte dir' k) n off = leNat (slotByte dir k) n off :=
  leNat_congr fun i hi => h _ (by omega)

theorem SameSlot.nameChar {k c : ℕ} (h : SameSlot dir dir' k) (hc : c < 15) :
    nameChar dir' k c = nameChar dir k c := h.leNat (by omega)

theorem SameSlot.isPrimary {k : ℕ} (h : SameSlot dir dir' k) : isPrimary dir' k = isPrimary dir k := by
  rw [Exfat.isPrimary, Exfat.isPrimary, h.type]

theorem scanNameSlot_congr {k : ℕ} (h : SameSlot dir dir' k) {cs : List ℕ} (hcs : ∀ c ∈ cs, c < 15)
    (name : List UInt8) : scanNameSlot dir' k cs name = scanNameSlot dir k cs name := by
  induction cs generalizing name with
  | nil => rfl
  | cons c cs ih =>
    simp only [scanNameSlot, h.nameChar (hcs c List.mem_cons_self), ih fun x hx => hcs x (List.mem_cons_of_mem _ hx)]

theorem unlinkNameSlot_congr {k : ℕ} (h : SameSlot dir dir' k) {cs : List ℕ} (hcs : ∀ c ∈ cs, c < 15)
    (name : List UInt8) : unlinkNameSlot dir' k cs name = unlinkNameSlot dir k cs name := by
  induction cs generalizing name with
  | nil => rfl
  | cons c cs ih =>
    simp only [unlinkNameSlot, h.nameChar (hcs c List.mem_cons_self),
      ih fun x hx => hcs x (List.mem_cons_of_mem _ hx)]

theorem nameSlots_congr {take take' : ℕ → List ℕ → List UInt8 → List UInt8} {n j d : ℕ} (hd : j ≤ d)
    (hag : ∀ i, j ≤ i → i < d → slotType dir' i = slotType dir i ∧
      ∀ name, take' i (List.range 15) name = take i (List.range 15) name)
    (hstop : j + n ≤ d ∨ slotType dir d ≠ 0xC1 ∧ slotType dir' d ≠ 0xC1) (name : List UInt8) :
    nameSlots dir' take' n j name = nameSlots dir take n j name := by
  induction n generalizing j name with
  | zero => rfl
  | succ n ih =>
    rw [nameSlots, nameSlots]
    rcases Nat.eq_or_lt_of_le hd with rfl | hlt
    · obtain ⟨h1, h2⟩ := hstop.resolve_left (by omega)
      rw [if_neg h1, if_neg h2]
    · obtain ⟨ht, htake⟩ := hag j (le_refl _) hlt
      rw [ht, htake]
      split_ifs
      · exact ih hlt (fun i h1 h2 => hag i (by omega) h2) (hstop.imp_left fun h => by omega) _
      · rfl

/-- A slot that is neither a stream nor a name slot bounds the entry sets before it. -/
structure Bounds (dir dir' : List UInt8) (slots d : ℕ) : Prop where
  le : d ≤ slots
  same : ∀ i < d, SameSlot dir dir' i
  stop : d = slots ∨ ((slotType dir d ≠ 0xC0 ∧ slotType dir d ≠ 0xC1) ∧
    (slotType dir' d ≠ 0xC0 ∧ slotType dir' d ≠ 0xC1))

theorem Bounds.hasStream {d k : ℕ} (h : Bounds dir dir' slots d) (hk : k < d) :
    hasStream dir' slots k = hasStream dir slots k := by
  have hiff : (k + 1 < slots ∧ slotType dir' (k + 1) = 0xC0) ↔ (k + 1 < slots ∧ slotType dir (k + 1) = 0xC0) := by
    rcases Nat.eq_or_lt_of_le (Nat.succ_le_of_lt hk) with rfl | hlt
    · rcases h.stop with hs | hs
      · constructor <;> intro hx <;> omega
      · exact ⟨fun hx => absurd hx.2 hs.2.1, fun hx => absurd hx.2 hs.1.1⟩
    · rw [(h.same _ hlt).type]
  simp only [Exfat.hasStream, hiff]

theorem Bounds.nameSlots_scan {d j n : ℕ} (h : Bounds dir dir' slots d) (hj : j ≤ d) (hn : j + n ≤ slots)
    (name : List UInt8) :
    nameSlots dir' (scanNameSlot dir') n j name = nameSlots dir (scanNameSlot dir) n j name := by
  refine nameSlots_congr hj (fun i _ hi => ⟨(h.same i hi).type, fun name => ?_⟩) ?_ name
  · exact scanNameSlot_congr (h.same i hi) (fun c hc => List.mem_range.mp hc) name
  · exact h.stop.imp (fun hd => by omega) fun hd => ⟨hd.1.2, hd.2.2⟩

theorem Bounds.nameSlots_unlink {d j n : ℕ} (h : Bounds dir dir' slots d) (hj : j ≤ d) (hn : j + n ≤ slots)
    (name : List UInt8) :
    nameSlots dir' (unlinkNameSlot dir') n j name = nameSlots dir (unlinkNameSlot dir) n j name := by
  refine nameSlots_congr hj (fun i _ hi => ⟨(h.same i hi).type, fun name => ?_⟩) ?_ name
  · exact unlinkNameSlot_congr (h.same i hi) (fun c hc => List.mem_range.mp hc) name
  · exact h.stop.imp (fun hd => by omega) fun hd => ⟨hd.1.2, hd.2.2⟩

theorem Bounds.stream_lt {d k : ℕ} (h : Bounds dir dir' slots d) (hk : k < d)
    (hs : Exfat.hasStream dir slots k = true) : k + 1 < d := by
  simp only [Exfat.hasStream, Bool.decide_and, Bool.and_eq_true, decide_eq_true_eq] at hs
  rcases Nat.eq_or_lt_of_le (Nat.succ_le_of_lt hk) with rfl | hlt
  · rcases h.stop with hd | hd
    · omega
    · exact absurd hs.2 hd.1.1
  · exact hlt

theorem Bounds.scanEntry {d k : ℕ} (h : Bounds dir dir' slots d) (hk : k < d) :
    scanEntry dir' slots k = scanEntry dir slots k := by
  have hle := h.le
  unfold Exfat.scanEntry
  rw [h.hasStream hk, (h.same k hk).leNat (by decide)]
  by_cases hs : Exfat.hasStream dir slots k = true
  · have hlt := h.stream_lt hk hs
    have hfirst : streamFirst dir' k = streamFirst dir k := (h.same _ hlt).leNat (by decide)
    have hsize : streamSize dir' k = streamSize dir k := (h.same _ hlt).leNat (by decide)
    rw [if_pos hs, if_pos hs, h.nameSlots_scan (by omega) (by omega), hfirst, hsize]
  · rw [if_neg hs, if_neg hs, h.nameSlots_scan (by omega) (by omega)]

theorem Bounds.primaries {d : ℕ} (h : Bounds dir dir' slots d) : primaries dir' d = primaries dir d := by
  unfold Exfat.primaries
  refine List.filter_congr fun i hi => ?_
  exact (h.same i (List.mem_range.mp hi)).isPrimary

theorem Bounds.entries {d : ℕ} (h : Bounds dir dir' slots d) :
    ((Exfat.primaries dir' d).map fun k => (Exfat.scanEntry dir' slots k).1) =
      (Exfat.primaries dir d).map fun k => (Exfat.scanEntry dir slots k).1 := by
  rw [h.primaries]
  refine List.map_congr_left fun k hk => ?_
  rw [h.scanEntry (List.mem_range.mp (List.mem_filter.mp hk).1)]

theorem slotByte_overlay {a i off : ℕ} {bs : List UInt8} (h : 32 * i + off < dir.length) :
    slotByte (overlay dir a bs) i off =
      if a ≤ 32 * i + off ∧ 32 * i + off < a + bs.length then byteAt bs (32 * i + off - a) else slotByte dir i off :=
  byteAt_overlay h a bs

theorem slot_lt_length {i off : ℕ} (hi : i < slotCount dir) (hoff : off < 32) : 32 * i + off < dir.length := by
  rw [slotCount] at hi
  omega

theorem sameSlot_overlay {a i : ℕ} {bs : List UInt8} (hi : i < slotCount dir)
    (h : 32 * i + 32 ≤ a ∨ a + bs.length ≤ 32 * i) : SameSlot dir (overlay dir a bs) i := fun off hoff => by
  rw [slotByte_overlay (slot_lt_length hi hoff), if_neg (by omega)]

@[simp] theorem slotCount_overlay (dir : List UInt8) (a : ℕ) (bs : List UInt8) :
    slotCount (overlay dir a bs) = slotCount dir := by rw [slotCount, slotCount, length_overlay]

section Unlink

def eraseSet (dir : List UInt8) (k j : ℕ) : List UInt8 :=
  overlay dir (32 * k) (List.replicate (32 * (j - k)) 0)

variable {k j : ℕ}

theorem eraseSet_bounds (hk : k < slotCount dir) (hkj : k < j) (hp : isPrimary dir k = true) :
    Bounds dir (eraseSet dir k j) (slotCount dir) k ∧ slotType (eraseSet dir k j) k = 0 := by
  have hzero : slotType (eraseSet dir k j) k = 0 := by
    rw [slotType, eraseSet, slotByte_overlay (slot_lt_length hk (by decide)), List.length_replicate,
      if_pos (by omega), byteAt_replicate_zero]
  refine ⟨⟨hk.le, fun i hi => sameSlot_overlay (by omega) (by omega), .inr ⟨primary_type hp, ?_⟩⟩, hzero⟩
  rw [hzero]
  decide

theorem dirEntries_eraseSet {e : ℕ} (he : IsEnd dir (slotCount dir) e) (hk : k < e) (hkj : k < j)
    (hp : isPrimary dir k = true) :
    dirEntries (eraseSet dir k j) = (primaries dir k).map fun i => (scanEntry dir (slotCount dir) i).1 := by
  have hle := he.le
  obtain ⟨hb, hzero⟩ := eraseSet_bounds (show k < slotCount dir by omega) hkj hp
  have hcount : slotCount (eraseSet dir k j) = slotCount dir := slotCount_overlay _ _ _
  have hend : IsEnd (eraseSet dir k j) (slotCount (eraseSet dir k j)) k := by
    rw [hcount]
    refine ⟨by omega, fun i hi => ?_, .inr hzero⟩
    rw [(hb.same i hi).type]
    exact he.used i (by omega)
  rw [dirEntries_eq hend, hcount, hb.entries]

theorem primaries_split {e : ℕ} (hk : k < e) (hp : isPrimary dir k = true) :
    ∃ post, primaries dir e = primaries dir k ++ k :: post := by
  refine ⟨(List.range' (k + 1) (e - (k + 1))).filter (isPrimary dir), ?_⟩
  have hrange : List.range e = List.range k ++ k :: List.range' (k + 1) (e - (k + 1)) := by
    have happ : List.range' 0 k ++ List.range' (0 + k) (e - k) = List.range' 0 (k + (e - k)) := List.range'_append_1
    rw [Nat.zero_add, Nat.add_sub_cancel' hk.le] at happ
    rw [← range'_of_lt hk, List.range_eq_range', List.range_eq_range', happ]
  rw [primaries, hrange, List.filter_append, List.filter_cons_of_pos hp, primaries]

end Unlink

section Stream

def setSize (dir : List UInt8) (k size : ℕ) : List UInt8 := overlay dir (32 * (k + 1) + 24) (leBytes 8 size)

theorem slotCount_setSize (dir : List UInt8) (k size : ℕ) : slotCount (setSize dir k size) = slotCount dir :=
  slotCount_overlay _ _ _

theorem setStream_eq (dir : List UInt8) (k size : ℕ) : setStream dir k (streamFirst dir k) size = setSize dir k size := by
  unfold setStream
  dsimp only
  rw [if_neg (by simp)]
  rfl

variable {k size : ℕ}

theorem setSize_slotByte {i off : ℕ} (hi : i < slotCount dir) (hoff : off < 32) (h : i ≠ k + 1 ∨ off < 24) :
    slotByte (setSize dir k size) i off = slotByte dir i off := by
  rw [setSize, slotByte_overlay (slot_lt_length hi hoff), length_leBytes, if_neg (by omega)]

theorem setSize_type {i : ℕ} (hi : i < slotCount dir) : slotType (setSize dir k size) i = slotType dir i :=
  setSize_slotByte hi (by decide) (.inr (by decide))

theorem setSize_streamSize (hk : k + 1 < slotCount dir) (hs : size < 2 ^ 64) :
    streamSize (setSize dir k size) k = size := by
  refine leNat_leBytes hs fun i hi => ?_
  rw [setSize, slotByte_overlay (slot_lt_length hk (by omega)), length_leBytes, if_pos (by omega)]
  congr 1
  omega

theorem setSize_self (dir : List UInt8) (k : ℕ) : setSize dir k (streamSize dir k) = dir := by
  have hlen : (setSize dir k (streamSize dir k)).length = dir.length := length_overlay ..
  apply bytes_ext hlen
  intro i hi
  rw [hlen] at hi
  rw [setSize, byteAt_overlay hi]
  split_ifs with hin
  · rw [length_leBytes] at hin
    rw [streamSize, byteAt_leBytes_leNat _ _ (by omega), slotByte]
    congr 1
    omega
  · rfl

theorem setSize_nameSlots {take take' : ℕ → List ℕ → List UInt8 → List UInt8}
    (htake : ∀ j, SameSlot dir (setSize dir k size) j → ∀ name, take' j (List.range 15) name = take j (List.range 15) name)
    (hc : slotType dir (k + 1) = 0xC0) {j n : ℕ} (hn : j + n ≤ slotCount dir) (name : List UInt8) :
    nameSlots (setSize dir k size) take' n j name = nameSlots dir take n j name := by
  induction n generalizing j name with
  | zero => rfl
  | succ n ih =>
    rw [nameSlots, nameSlots, setSize_type (by omega)]
    split_ifs with ht
    · have hne : j ≠ k + 1 := by
        rintro rfl
        rw [hc] at ht
        exact absurd ht (by decide)
      have hsame : SameSlot dir (setSize dir k size) j := fun off hoff =>
        setSize_slotByte (by omega) hoff (.inl hne)
      rw [ih (by omega), htake j hsame]
    · rfl

theorem setSize_scanNames (hc : slotType dir (k + 1) = 0xC0) {j n : ℕ} (hn : j + n ≤ slotCount dir)
    (name : List UInt8) : nameSlots (setSize dir k size) (scanNameSlot (setSize dir k size)) n j name =
      nameSlots dir (scanNameSlot dir) n j name :=
  setSize_nameSlots (fun _ h => scanNameSlot_congr h fun _ hx => List.mem_range.mp hx) hc hn name

theorem setSize_unlinkNames (hc : slotType dir (k + 1) = 0xC0) {j n : ℕ} (hn : j + n ≤ slotCount dir)
    (name : List UInt8) : nameSlots (setSize dir k size) (unlinkNameSlot (setSize dir k size)) n j name =
      nameSlots dir (unlinkNameSlot dir) n j name :=
  setSize_nameSlots (fun _ h => unlinkNameSlot_congr h fun _ hx => List.mem_range.mp hx) hc hn name

theorem setSize_hasStream (i : ℕ) :
    hasStream (setSize dir k size) (slotCount dir) i = hasStream dir (slotCount dir) i := by
  have hiff : (i + 1 < slotCount dir ∧ slotType (setSize dir k size) (i + 1) = 0xC0) ↔
      (i + 1 < slotCount dir ∧ slotType dir (i + 1) = 0xC0) :=
    and_congr_right fun h => by rw [setSize_type h]
  simp only [hasStream, hiff]

theorem setSize_isEnd {e : ℕ} (he : IsEnd dir (slotCount dir) e) : IsEnd (setSize dir k size) (slotCount dir) e := by
  have hle := he.le
  refine ⟨hle, fun i hi => ?_, ?_⟩
  · rw [setSize_type (by omega)]
    exact he.used i hi
  · rcases Nat.eq_or_lt_of_le hle with h | h
    · exact .inl h
    · rw [setSize_type h]
      exact he.last

theorem setSize_primaries {e : ℕ} (he : e ≤ slotCount dir) : primaries (setSize dir k size) e = primaries dir e := by
  refine List.filter_congr fun i hi => ?_
  rw [isPrimary, isPrimary, setSize_type (by have := List.mem_range.mp hi; omega)]

theorem setSize_scanEntry (hk : hasStream dir (slotCount dir) k = true) (hs : size < 2 ^ 64) {i : ℕ}
    (hi : i < slotCount dir) :
    (scanEntry (setSize dir k size) (slotCount dir) i).1 =
      if i = k then { (scanEntry dir (slotCount dir) i).1 with size := size }
      else (scanEntry dir (slotCount dir) i).1 := by
  have hk' := hk
  simp only [hasStream, Bool.decide_and, Bool.and_eq_true, decide_eq_true_eq] at hk'
  obtain ⟨hlt, hc⟩ := hk'
  have hattr : leNat (slotByte (setSize dir k size) i) 2 4 = leNat (slotByte dir i) 2 4 :=
    leNat_congr fun x hx => setSize_slotByte hi (by omega) (.inr (by omega))
  unfold scanEntry
  rw [setSize_hasStream, hattr]
  by_cases hsi : hasStream dir (slotCount dir) i = true
  · have hsi' := hsi
    simp only [hasStream, Bool.decide_and, Bool.and_eq_true, decide_eq_true_eq] at hsi'
    have hfirst : streamFirst (setSize dir k size) i = streamFirst dir i :=
      leNat_congr fun x hx => setSize_slotByte hsi'.1 (by omega) (.inr (by omega))
    rw [if_pos hsi, if_pos hsi, setSize_scanNames hc (by omega), hfirst]
    by_cases hik : i = k
    · subst hik
      rw [if_pos rfl, setSize_streamSize hlt hs]
    · have hsize : streamSize (setSize dir k size) i = streamSize dir i :=
        leNat_congr fun x hx => setSize_slotByte hsi'.1 (by omega) (.inl (by omega))
      rw [if_neg hik, hsize]
  · have hik : i ≠ k := fun e => hsi (e ▸ hk)
    rw [if_neg hsi, if_neg hsi, if_neg hik, setSize_scanNames hc (by omega)]

theorem dirEntries_setSize {e : ℕ} (he : IsEnd dir (slotCount dir) e) (hk : hasStream dir (slotCount dir) k = true)
    (hs : size < 2 ^ 64) :
    dirEntries (setSize dir k size) = (primaries dir e).map fun i =>
      if i = k then { (scanEntry dir (slotCount dir) i).1 with size := size }
      else (scanEntry dir (slotCount dir) i).1 := by
  have hle := he.le
  have hcount := slotCount_setSize dir k size
  have hend : IsEnd (setSize dir k size) (slotCount (setSize dir k size)) e := hcount.symm ▸ setSize_isEnd he
  rw [dirEntries_eq hend, hcount, setSize_primaries hle]
  refine List.map_congr_left fun i hi => ?_
  have hlt := List.mem_range.mp (List.mem_filter.mp hi).1
  exact setSize_scanEntry hk hs (by omega)

end Stream

end DexOs.Exfat
