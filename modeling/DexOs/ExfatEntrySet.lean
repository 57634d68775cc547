import DexOs.ExfatDirectoryEdits

/-! The entry set that `exfat_create` appends, and how the scans read it back. -/

namespace DexOs.Exfat

open DexOs.Lib

variable {dir : List UInt8}

theorem take_append_take {α : Type} (n : ℕ) (l m : List α) : (l.take n ++ m).take n = (l ++ m).take n := by
  rcases Nat.le_total l.length n with h | h
  · rw [List.take_of_length_le h]
  · rw [List.take_append_of_le_length (by simp [h]), List.take_take, Nat.min_self,
      List.take_append_of_le_length h]

def visible (chars : List ℕ) : List UInt8 := (chars.filter (· ≠ 0)).map toAscii

theorem visible_append (a b : List ℕ) : visible (a ++ b) = visible a ++ visible b := by simp [visible]

theorem scanNameSlot_eq (dir : List UInt8) (k : ℕ) (cs : List ℕ) {name : List UInt8} (h : name.length ≤ 63) :
    scanNameSlot dir k cs name = (name ++ visible (cs.map (nameChar dir k))).take 63 := by
  induction cs generalizing name with
  | nil => simp [scanNameSlot, visible, List.take_of_length_le h]
  | cons c cs ih =>
    rw [scanNameSlot]
    split_ifs with hlt h0
    · rw [ih h]
      simp [visible, h0]
    · rw [ih (by simp; omega)]
      simp [visible, h0]
    · rw [List.take_append_of_le_length (by omega), List.take_of_length_le h]

theorem nameSlots_scan_fst (n j : ℕ) {name : List UInt8} (h : name.length ≤ 63) :
    (nameSlots dir (scanNameSlot dir) n j name).1 = (name ++
      (List.range' j ((nameSlots dir (scanNameSlot dir) n j name).2 - j)).flatMap fun i =>
        visible ((List.range 15).map (nameChar dir i))).take 63 := by
  induction n generalizing j name with
  | zero => simp [nameSlots, List.take_of_length_le h]
  | succ n ih =>
    rw [nameSlots]
    split_ifs with ht
    · have hle := (nameSlots_snd dir (scanNameSlot dir) n (j + 1) (scanNameSlot dir j (List.range 15) name)).1
      have heq := scanNameSlot_eq dir j (List.range 15) h
      rw [ih (j + 1) (by rw [heq, List.length_take]; omega)]
      generalize (nameSlots dir (scanNameSlot dir) n (j + 1) (scanNameSlot dir j (List.range 15) name)).2 = m at hle
      rw [heq, take_append_take, range'_of_lt hle, List.flatMap_cons, List.append_assoc]
    · simp [List.take_of_length_le h]

theorem unlinkNameSlot_eq_scan (k : ℕ) {cs : List ℕ}
    (hz : cs.Pairwise fun a b => nameChar dir k a = 0 → nameChar dir k b = 0) (name : List UInt8) :
    unlinkNameSlot dir k cs name = scanNameSlot dir k cs name := by
  induction cs generalizing name with
  | nil => rfl
  | cons c cs ih =>
    obtain ⟨hc, hcs⟩ := List.pairwise_cons.mp hz
    rw [unlinkNameSlot, scanNameSlot]
    split_ifs with hlt h0
    · have hrest : visible (cs.map (nameChar dir k)) = [] := by
        simp only [visible, List.map_eq_nil_iff, List.filter_eq_nil_iff, List.mem_map]
        rintro _ ⟨x, hx, rfl⟩
        simp [hc x hx h0]
      rw [scanNameSlot_eq dir k cs hlt.le, hrest, List.append_nil, List.take_of_length_le hlt.le]
    · exact ih hcs _
    · rfl

theorem length_primarySlot (n : ℕ) : (primarySlot n).length = 32 := by simp [primarySlot]

theorem length_streamSlot (n cl : ℕ) : (streamSlot n cl).length = 32 := by simp [streamSlot]

theorem length_nameChars (name : List UInt8) (c : ℕ) :
    ((List.range 15).flatMap fun k => leBytes 2 (byteAt name (c + k)).toNat).length = 30 := by
  rw [length_flatMap_blocks fun _ _ => length_leBytes 2 _, List.length_range]

theorem length_nameSlot (name : List UInt8) (c : ℕ) : (nameSlot name c).length = 32 := by
  rw [nameSlot, List.length_append, length_nameChars]
  rfl

theorem length_entrySet (name : List UInt8) (cl : ℕ) : (entrySet name cl).length = 32 * (2 + nameEntries name) := by
  rw [entrySet, List.length_append, List.length_append, length_primarySlot, length_streamSlot,
    length_flatMap_blocks fun _ _ => length_nameSlot _ _, List.length_range]
  omega

variable (name : List UInt8) (cl : ℕ)

theorem entrySet_primary {off : ℕ} (h : off < 32) :
    byteAt (entrySet name cl) off = byteAt (primarySlot (1 + nameEntries name)) off := by
  rw [entrySet, List.append_assoc, byteAt_append_left (by rw [length_primarySlot]; exact h)]

theorem entrySet_stream {off : ℕ} (h : off < 32) :
    byteAt (entrySet name cl) (32 + off) = byteAt (streamSlot name.length cl) off := by
  have hlen := length_primarySlot (1 + nameEntries name)
  rw [entrySet, List.append_assoc]
  conv_lhs => rw [← hlen]
  rw [byteAt_append_right, byteAt_append_left (by rw [length_streamSlot]; exact h)]

theorem entrySet_name {i off : ℕ} (hi : i < nameEntries name) (h : off < 32) :
    byteAt (entrySet name cl) (64 + (32 * i + off)) = byteAt (nameSlot name (15 * i)) off := by
  have hlen : (primarySlot (1 + nameEntries name) ++ streamSlot name.length cl).length = 64 := by
    rw [List.length_append, length_primarySlot, length_streamSlot]
  rw [entrySet]
  conv_lhs => rw [← hlen]
  rw [byteAt_append_right, byteAt_flatMap (fun _ _ => length_nameSlot _ _) (List.getElem?_range hi) h]

theorem nameSlot_char {c k : ℕ} (hk : k < 15) : leNat (byteAt (nameSlot name c)) 2 (2 + k * 2) =
    (byteAt name (c + k)).toNat := by
  have hlt : (byteAt name (c + k)).toNat < 256 ^ 2 := lt_trans (UInt8.toNat_lt _) (by decide)
  refine leNat_leBytes hlt fun i hi => ?_
  have hhead : ([0xC1, 0] : List UInt8).length = 2 := rfl
  rw [nameSlot, show 2 + k * 2 + i = ([0xC1, 0] : List UInt8).length + (2 * k + i) by rw [hhead]; omega,
    byteAt_append_right, byteAt_flatMap (fun _ _ => length_leBytes _ _) (List.getElem?_range hk) hi]

def appendSet (dir : List UInt8) (e : ℕ) (name : List UInt8) (cl : ℕ) : List UInt8 :=
  let last := 32 * (e + (2 + nameEntries name))
  let dir := overlay dir (32 * e) (entrySet name cl)
  if last < dir.length then overlay dir last [0] else dir

theorem appendSet_eq {dir : List UInt8} {size : ℕ} (hlen : dir.length = size) (e : ℕ) (name : List UInt8) (cl : ℕ) :
    appendSet dir e name cl = if 32 * (e + (2 + nameEntries name)) < size then
      overlay (overlay dir (32 * e) (entrySet name cl)) (32 * (e + (2 + nameEntries name))) [0]
      else overlay dir (32 * e) (entrySet name cl) := by
  rw [appendSet, length_overlay, hlen]

@[simp] theorem length_appendSet (dir : List UInt8) (e : ℕ) (name : List UInt8) (cl : ℕ) :
    (appendSet dir e name cl).length = dir.length := by
  unfold appendSet
  dsimp only
  split_ifs <;> simp

@[simp] theorem slotCount_appendSet (dir : List UInt8) (e : ℕ) (name : List UInt8) (cl : ℕ) :
    slotCount (appendSet dir e name cl) = slotCount dir := by rw [slotCount, length_appendSet, slotCount]

section Append

variable {name cl} {e : ℕ} (hfit : 32 * (e + (2 + nameEntries name)) ≤ dir.length)

theorem appendSet_before {i : ℕ} (hi : i < slotCount dir) (h : i < e) :
    SameSlot dir (appendSet dir e name cl) i := by
  intro off hoff
  have hlt := slot_lt_length hi hoff
  have h1 : slotByte (overlay dir (32 * e) (entrySet name cl)) i off = slotByte dir i off := by
    rw [slotByte_overlay hlt, if_neg (by omega)]
  unfold appendSet
  dsimp only
  split_ifs
  · rw [slotByte_overlay (by rw [length_overlay]; exact hlt), if_neg (by omega), h1]
  · exact h1

include hfit in
theorem appendSet_slot {t off : ℕ} (ht : t < 2 + nameEntries name) (hoff : off < 32) :
    slotByte (appendSet dir e name cl) (e + t) off = byteAt (entrySet name cl) (32 * t + off) := by
  have hlt : 32 * (e + t) + off < dir.length := by omega
  have hset := length_entrySet name cl
  have h1 : slotByte (overlay dir (32 * e) (entrySet name cl)) (e + t) off = byteAt (entrySet name cl) (32 * t + off) := by
    rw [slotByte_overlay hlt, if_pos (by omega)]
    congr 1
    omega
  unfold appendSet
  dsimp only
  split_ifs
  · rw [slotByte_overlay (by rw [length_overlay]; exact hlt), if_neg (by omega), h1]
  · exact h1

include hfit in
theorem appendSet_primary : slotType (appendSet dir e name cl) e = 0x85 := by
  have h : slotByte (appendSet dir e name cl) (e + 0) 0 = byteAt (entrySet name cl) (32 * 0 + 0) :=
    appendSet_slot hfit (by omega) (by decide)
  rw [Nat.add_zero] at h
  rw [slotType, h, entrySet_primary name cl (by decide)]
  rfl

include hfit in
theorem appendSet_streamByte {off : ℕ} (hoff : off < 32) :
    slotByte (appendSet dir e name cl) (e + 1) off = byteAt (streamSlot name.length cl) off := by
  rw [appendSet_slot hfit (by omega) hoff, Nat.mul_one, entrySet_stream name cl hoff]

include hfit in
theorem appendSet_nameByte {i off : ℕ} (hi : i < nameEntries name) (hoff : off < 32) :
    slotByte (appendSet dir e name cl) (e + 2 + i) off = byteAt (nameSlot name (15 * i)) off := by
  rw [Nat.add_assoc, appendSet_slot hfit (by omega) hoff, ← entrySet_name name cl hi hoff]
  congr 1
  omega

include hfit in
theorem appendSet_nameType {i : ℕ} (hi : i < nameEntries name) :
    slotType (appendSet dir e name cl) (e + 2 + i) = 0xC1 := by
  rw [slotType, appendSet_nameByte hfit hi (by decide)]
  rfl

include hfit in
theorem appendSet_nameChar {i c : ℕ} (hi : i < nameEntries name) (hc : c < 15) :
    nameChar (appendSet dir e name cl) (e + 2 + i) c = (byteAt name (15 * i + c)).toNat := by
  rw [← nameSlot_char name hc]
  exact leNat_congr fun x hx => appendSet_nameByte hfit hi (by omega)

theorem appendSet_last (h : e + (2 + nameEntries name) < slotCount dir) :
    slotType (appendSet dir e name cl) (e + (2 + nameEntries name)) = 0 := by
  have hlt := slot_lt_length h (show 0 < 32 by decide)
  rw [Nat.add_zero] at hlt
  unfold appendSet
  dsimp only
  rw [if_pos (by rw [length_overlay]; exact hlt), slotType,
    slotByte_overlay (by rw [length_overlay]; exact hlt), if_pos (by simp), Nat.add_zero, Nat.sub_self]
  rfl

include hfit in
theorem appendSet_isEnd (he : IsEnd dir (slotCount dir) e) :
    IsEnd (appendSet dir e name cl) (slotCount dir) (e + (2 + nameEntries name)) := by
  have hle : e + (2 + nameEntries name) ≤ slotCount dir := by
    rw [slotCount]
    omega
  refine ⟨hle, fun i hi => ?_, ?_⟩
  · by_cases hie : i < e
    · rw [(appendSet_before (by omega) hie).type]
      exact he.used i hie
    · obtain ⟨t, rfl⟩ := Nat.exists_eq_add_of_le (Nat.le_of_not_lt hie)
      rcases t with _ | _ | t
      · rw [Nat.add_zero, appendSet_primary hfit]
        decide
      · rw [slotType, appendSet_streamByte hfit (by decide)]
        exact (by decide : (0xC0 : UInt8) ≠ 0)
      · rw [show e + (t + 1 + 1) = e + 2 + t by omega, appendSet_nameType hfit (by omega)]
        decide
  · rcases Nat.eq_or_lt_of_le hle with h | h
    · exact .inl h
    · exact .inr (appendSet_last h)

include hfit in
theorem appendSet_nameSlots_snd (take : ℕ → List ℕ → List UInt8 → List UInt8) :
    (nameSlots (appendSet dir e name cl) take (slotCount dir - (e + 2)) (e + 2) []).2 =
      e + 2 + nameEntries name := by
  have hle : e + (2 + nameEntries name) ≤ slotCount dir := by
    rw [slotCount]
    omega
  obtain ⟨h1, h2, h3, h4⟩ := nameSlots_snd (appendSet dir e name cl) take
    (slotCount dir - (e + 2)) (e + 2) []
  generalize (nameSlots (appendSet dir e name cl) take (slotCount dir - (e + 2)) (e + 2) []).2 = j at *
  rcases Nat.lt_trichotomy j (e + 2 + nameEntries name) with hlt | heq | hgt
  · have hty : slotType (appendSet dir e name cl) (e + 2 + (j - (e + 2))) = 0xC1 :=
      appendSet_nameType hfit (by omega)
    rw [show e + 2 + (j - (e + 2)) = j by omega] at hty
    rcases h4 with h4 | h4
    · omega
    · exact absurd hty h4
  · exact heq
  · have hend : slotType (appendSet dir e name cl) (e + (2 + nameEntries name)) = 0 := appendSet_last (by omega)
    have hty := h3 (e + (2 + nameEntries name)) (by omega) (by omega)
    rw [hend] at hty
    exact absurd hty (by decide)

end Append

def storedName (name : List UInt8) : List UInt8 := (name.map fun b => toAscii b.toNat).take 63

theorem storedName_eq {name : List UInt8} (hlen : name.length ≤ 63) (hascii : ∀ b ∈ name, b < 128) :
    storedName name = name := by
  have hchar : ∀ b ∈ name, toAscii b.toNat = b := by
    intro b hb
    have hlt : b.toNat < 128 := hascii b hb
    rw [toAscii, if_pos hlt, UInt8.ofNat_toNat]
  rw [storedName, List.map_congr_left hchar, List.map_id', List.take_of_length_le hlen]

theorem flatMap_blocks {α : Type} (g : ℕ → α) (n : ℕ) :
    (List.range n).flatMap (fun i => (List.range 15).map fun c => g (15 * i + c)) = (List.range (15 * n)).map g := by
  induction n with
  | zero => rfl
  | succ n ih =>
    have hadd : List.range (15 * n + 15) = List.range (15 * n) ++ (List.range 15).map (15 * n + ·) :=
      List.range_add
    rw [List.range_succ (n := n), List.flatMap_append, ih, List.flatMap_singleton, Nat.mul_succ, hadd,
      List.map_append, List.map_map]
    rfl

theorem visible_flatMap (f : ℕ → List ℕ) (l : List ℕ) : l.flatMap (fun i => visible (f i)) = visible (l.flatMap f) := by
  induction l with
  | nil => rfl
  | cons a l ih => rw [List.flatMap_cons, List.flatMap_cons, visible_append, ih]

theorem map_byteAt_range {name : List UInt8} {n : ℕ} (h : name.length ≤ n) :
    (List.range n).map (fun i => (byteAt name i).toNat) =
      name.map UInt8.toNat ++ List.replicate (n - name.length) 0 := by
  refine List.ext_getElem (by simp; omega) fun i h1 h2 => ?_
  rw [List.getElem_map, List.getElem_range]
  rcases Nat.lt_or_ge i name.length with hi | hi
  · rw [List.getElem_append_left (by simpa using hi), List.getElem_map, byteAt_of_lt hi]
  · rw [List.getElem_append_right (by simpa using hi), List.getElem_replicate, byteAt_of_length_le hi]
    rfl

theorem visible_name {name : List UInt8} (h0 : 0 ∉ name) {n : ℕ} (h : name.length ≤ n) :
    visible ((List.range n).map fun i => (byteAt name i).toNat) = name.map fun b => toAscii b.toNat := by
  rw [map_byteAt_range h, visible_append]
  have hzeros : visible (List.replicate (n - name.length) 0) = [] := by simp [visible]
  have hname : (name.map UInt8.toNat).filter (· ≠ 0) = name.map UInt8.toNat := by
    refine List.filter_eq_self.mpr fun x hx => ?_
    obtain ⟨b, hb, rfl⟩ := List.mem_map.mp hx
    have hne : b ≠ 0 := fun e => h0 (e ▸ hb)
    have : b.toNat ≠ 0 := fun e => hne (UInt8.toNat_inj.mp e)
    simpa using this
  rw [hzeros, List.append_nil, visible, hname, List.map_map]
  rfl

section Append

variable {name : List UInt8} {cl e : ℕ} (hfit : 32 * (e + (2 + nameEntries name)) ≤ dir.length)

theorem length_le_nameEntries (name : List UInt8) : name.length ≤ 15 * nameEntries name := by
  rw [nameEntries]
  omega

include hfit in
theorem appendSet_scanName (h0 : 0 ∉ name) :
    (nameSlots (appendSet dir e name cl) (scanNameSlot (appendSet dir e name cl)) (slotCount dir - (e + 2))
      (e + 2) []).1 = storedName name := by
  have hchars : (List.range' (e + 2) (nameEntries name)).flatMap (fun i =>
      visible ((List.range 15).map (nameChar (appendSet dir e name cl) i))) =
        name.map fun b => toAscii b.toNat := by
    rw [visible_flatMap, ← visible_name h0 (length_le_nameEntries name), ← flatMap_blocks,
      List.range'_eq_map_range, List.flatMap_map]
    rw [List.flatMap_def, List.flatMap_def]
    congr 2
    refine List.map_congr_left fun i hi => List.map_congr_left fun c hc => ?_
    exact appendSet_nameChar hfit (List.mem_range.mp hi) (List.mem_range.mp hc)
  rw [nameSlots_scan_fst _ _ (by simp), appendSet_nameSlots_snd hfit, Nat.add_sub_cancel_left, hchars,
    List.nil_append, storedName]

include hfit in
theorem appendSet_unlinkName (h0 : 0 ∉ name) (nm : List UInt8) :
    nameSlots (appendSet dir e name cl) (unlinkNameSlot (appendSet dir e name cl)) (slotCount dir - (e + 2))
        (e + 2) nm =
      nameSlots (appendSet dir e name cl) (scanNameSlot (appendSet dir e name cl)) (slotCount dir - (e + 2))
        (e + 2) nm := by
  have hle : e + (2 + nameEntries name) ≤ slotCount dir := by
    rw [slotCount]
    omega
  refine nameSlots_congr (d := e + 2 + nameEntries name) (by omega) (fun i h1 h2 => ⟨rfl, fun nm => ?_⟩) ?_ nm
  · obtain ⟨t, rfl⟩ := Nat.exists_eq_add_of_le h1
    refine unlinkNameSlot_eq_scan _ ?_ nm
    refine List.Pairwise.imp_of_mem ?_ (List.pairwise_lt_range (n := 15))
    intro a b ha hb hab hz
    rw [appendSet_nameChar hfit (by omega) (List.mem_range.mp ha)] at hz
    rw [appendSet_nameChar hfit (by omega) (List.mem_range.mp hb)]
    have hout : name.length ≤ 15 * t + a := by
      by_contra hlt
      rw [byteAt_of_lt (by omega)] at hz
      exact h0 (UInt8.toNat_inj.mp (hz.trans UInt8.toNat_zero.symm) ▸ List.getElem_mem _)
    rw [byteAt_of_length_le (by omega)]
    rfl
  · rcases Nat.eq_or_lt_of_le hle with h | h
    · exact .inl (by omega)
    · have hend : slotType (appendSet dir e name cl) (e + 2 + nameEntries name) = 0 := by
        rw [Nat.add_assoc]
        exact appendSet_last h
      rw [hend]
      exact .inr ⟨by decide, by decide⟩

include hfit in
theorem appendSet_hasStream : hasStream (appendSet dir e name cl) (slotCount dir) e = true := by
  have hty : slotType (appendSet dir e name cl) (e + 1) = 0xC0 := by
    rw [slotType, appendSet_streamByte hfit (by decide)]
    rfl
  have hlt : e + 1 < slotCount dir := by
    rw [slotCount]
    omega
  simp [hasStream, hty, hlt]

include hfit in
theorem appendSet_entry (h0 : 0 ∉ name) (hcl : cl < 2 ^ 32) :
    (scanEntry (appendSet dir e name cl) (slotCount dir) e).1 = ⟨cl, 0, false, storedName name⟩ := by
  have hfirst : streamFirst (appendSet dir e name cl) e = cl := by
    refine leNat_leBytes hcl fun i hi => ?_
    rw [appendSet_streamByte hfit (by omega), streamSlot, List.append_assoc]
    have hlen : ([0xC0, 0, 0, UInt8.ofNat name.length] ++ List.replicate 16 (0 : UInt8)).length = 20 := by simp
    conv_lhs => rw [← hlen]
    rw [byteAt_append_right, byteAt_append_left (by rw [length_leBytes]; exact hi)]
  have hsize : streamSize (appendSet dir e name cl) e = 0 := by
    refine leNat_leBytes (by decide) fun i hi => ?_
    rw [appendSet_streamByte hfit (by omega), streamSlot]
    have hlen : ([0xC0, 0, 0, UInt8.ofNat name.length] ++ List.replicate 16 (0 : UInt8) ++
        leBytes 4 cl).length = 24 := by simp
    conv_lhs => rw [← hlen]
    rw [byteAt_append_right]
  have hattr : leNat (slotByte (appendSet dir e name cl) e) 2 4 = 0x20 := by
    refine leNat_leBytes (by decide) fun i hi => ?_
    have h : slotByte (appendSet dir e name cl) (e + 0) (4 + i) = byteAt (entrySet name cl) (32 * 0 + (4 + i)) :=
      appendSet_slot hfit (by omega) (by omega)
    rw [Nat.add_zero, Nat.mul_zero, Nat.zero_add] at h
    rw [h, entrySet_primary name cl (by omega), primarySlot, List.append_assoc]
    have hlen : ([0x85, UInt8.ofNat (1 + nameEntries name), 0, 0] : List UInt8).length = 4 := rfl
    conv_lhs => rw [← hlen]
    rw [byteAt_append_right, byteAt_append_left (by rw [length_leBytes]; exact hi)]
  unfold scanEntry
  rw [appendSet_hasStream hfit, hattr, hfirst, hsize, if_pos rfl]
  dsimp only
  rw [appendSet_scanName hfit h0]
  rfl

theorem appendSet_bounds (he : IsEnd dir (slotCount dir) e)
    (hfit : 32 * (e + (2 + nameEntries name)) ≤ dir.length) :
    Bounds dir (appendSet dir e name cl) (slotCount dir) e := by
  have hle := he.le
  refine ⟨hle, fun i hi => appendSet_before (by omega) hi, he.last.imp_right fun h => ?_⟩
  rw [h, appendSet_primary hfit]
  decide

theorem appendSet_primaries (he : IsEnd dir (slotCount dir) e)
    (hfit : 32 * (e + (2 + nameEntries name)) ≤ dir.length) :
    primaries (appendSet dir e name cl) (e + (2 + nameEntries name)) = primaries dir e ++ [e] := by
  have hp : isPrimary (appendSet dir e name cl) e = true := by
    rw [isPrimary, appendSet_primary hfit]
    decide
  have hrest : ((List.range' (e + 1) (1 + nameEntries name)).filter
      (isPrimary (appendSet dir e name cl))) = [] := by
    refine filter_range'_eq_nil fun i h1 h2 => ?_
    obtain ⟨t, rfl⟩ := Nat.exists_eq_add_of_le h1
    cases t with
    | zero =>
      apply not_primary_of_stream
      rw [slotType, Nat.add_zero, appendSet_streamByte hfit (by decide)]
      rfl
    | succ t =>
      apply not_primary_of_name
      rw [show e + 1 + (t + 1) = e + 2 + t by omega, appendSet_nameType hfit (by omega)]
  have hrange : List.range (e + (2 + nameEntries name)) =
      List.range e ++ e :: List.range' (e + 1) (1 + nameEntries name) := by
    rw [List.range_add, show 2 + nameEntries name = (1 + nameEntries name) + 1 by omega,
      ← List.range'_eq_map_range, List.range'_succ]
  have hbefore : (List.range e).filter (isPrimary (appendSet dir e name cl)) = primaries dir e :=
    (appendSet_bounds he hfit).primaries
  rw [primaries, hrange, List.filter_append, hbefore, List.filter_cons_of_pos hp, hrest]

theorem dirEntries_appendSet (he : IsEnd dir (slotCount dir) e)
    (hfit : 32 * (e + (2 + nameEntries name)) ≤ dir.length) (h0 : 0 ∉ name) (hcl : cl < 2 ^ 32) :
    dirEntries (appendSet dir e name cl) = dirEntries dir ++ [⟨cl, 0, false, storedName name⟩] := by
  have hend : IsEnd (appendSet dir e name cl) (slotCount (appendSet dir e name cl)) (e + (2 + nameEntries name)) := by
    rw [slotCount_appendSet]
    exact appendSet_isEnd hfit he
  have hb : Bounds dir (appendSet dir e name cl) (slotCount dir) e := appendSet_bounds he hfit
  have hold : ((primaries dir e).map fun k => (scanEntry (appendSet dir e name cl) (slotCount dir) k).1) =
      (primaries dir e).map fun k => (scanEntry dir (slotCount dir) k).1 := by
    refine List.map_congr_left fun k hk => ?_
    rw [hb.scanEntry (List.mem_range.mp (List.mem_filter.mp hk).1)]
  rw [dirEntries_eq hend, slotCount_appendSet, appendSet_primaries he hfit, List.map_append, hold,
    dirEntries_eq he, List.map_singleton, appendSet_entry hfit h0 hcl]

end Append

end DexOs.Exfat
