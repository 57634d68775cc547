import DexOs.ExfatReaders
import DexOs.Lib.Corresponding
import Mathlib.Data.List.Find

/-! A directory that only the driver has written: entry sets one behind another from its first slot on. -/

namespace DexOs.Exfat

open DexOs.Lib

variable {dir : List UInt8} {ns : List ℕ} {name : List UInt8} {cl i j k size : ℕ}

/-- The entry sets take these numbers of slots. -/
structure Packed (dir : List UInt8) (ns : List ℕ) : Prop where
  starts : primaries dir (endSlot dir) = (List.range ns.length).map fun i => (ns.take i).sum
  last : endSlot dir = ns.sum

theorem Packed.of_free (h : slotType dir 0 = 0) : Packed dir [] := by
  have hend : endSlot dir = 0 := (endSlot_isEnd dir).unique ⟨Nat.zero_le _, by simp, .inr h⟩
  constructor
  · rw [hend]
    simp [primaries]
  · simpa using hend

theorem Packed.setSize (h : Packed dir ns) (k size : ℕ) : Packed (Exfat.setSize dir k size) ns := by
  constructor
  · rw [endSlot_setSize, setSize_primaries (endSlot_isEnd dir).le]
    exact h.starts
  · rw [endSlot_setSize]
    exact h.last

theorem Packed.appendSet (h : Packed dir ns) (hfit : 32 * (endSlot dir + (2 + nameEntries name)) ≤ dir.length) :
    Packed (Exfat.appendSet dir (endSlot dir) name cl) (ns ++ [2 + nameEntries name]) := by
  constructor
  · rw [endSlot_appendSet hfit, appendSet_primaries (endSlot_isEnd dir) hfit, h.starts, List.length_append,
      List.length_singleton, List.range_succ, List.map_append, List.map_singleton, List.take_left', h.last]
    · apply congrArg (· ++ _)
      apply List.map_congr_left
      intro i hi
      rw [List.take_append_of_le_length (List.mem_range.mp hi).le]
    · rfl
  · rw [endSlot_appendSet hfit, h.last]
    simp

theorem primaries_nodup (dir : List UInt8) (e : ℕ) : (primaries dir e).Nodup := List.Nodup.filter _ List.nodup_range

theorem endSlot_eraseSet (hk : k ∈ primaries dir (endSlot dir)) (hkj : k < j) : endSlot (eraseSet dir k j) = k := by
  obtain ⟨hlt, hp⟩ := mem_primaries.mp hk
  have he := endSlot_isEnd dir
  have hle := he.le
  obtain ⟨hb, hzero⟩ := eraseSet_bounds (show k < slotCount dir by omega) hkj hp
  apply (endSlot_isEnd _).unique
  rw [eraseSet, slotCount_overlay]
  refine ⟨by omega, ?_, .inr hzero⟩
  intro i hi
  rw [← eraseSet, (hb.same i hi).type]
  exact he.used i (by omega)

theorem primaries_before (hk : (primaries dir (endSlot dir))[i]? = some k) :
    primaries dir k = (primaries dir (endSlot dir)).take i := by
  obtain ⟨hlt, hp⟩ := mem_primaries.mp (List.mem_of_getElem? hk)
  obtain ⟨post, hsplit⟩ := primaries_split hlt hp
  have hi : i = (primaries dir k).length := by
    apply (List.getElem?_inj (List.getElem?_eq_some_iff.mp hk).1 (primaries_nodup dir _)).mp
    rw [hk, hsplit]
    simp
  rw [hsplit, hi, List.take_left']
  rfl

theorem primaries_eraseSet (hk : (primaries dir (endSlot dir))[i]? = some k) (hkj : k < j) :
    primaries (eraseSet dir k j) (endSlot (eraseSet dir k j)) = (primaries dir (endSlot dir)).take i := by
  have hmem := List.mem_of_getElem? hk
  obtain ⟨hlt, hp⟩ := mem_primaries.mp hmem
  have hle := (endSlot_isEnd dir).le
  obtain ⟨hb, -⟩ := eraseSet_bounds (show k < slotCount dir by omega) hkj hp
  rw [endSlot_eraseSet hmem hkj, hb.primaries, primaries_before hk]

theorem dirEntries_eraseSet_take (hk : (primaries dir (endSlot dir))[i]? = some k) (hkj : k < j) :
    dirEntries (eraseSet dir k j) = (dirEntries dir).take i := by
  obtain ⟨hlt, hp⟩ := mem_primaries.mp (List.mem_of_getElem? hk)
  rw [dirEntries_eraseSet (endSlot_isEnd dir) hlt hkj hp, primaries_before hk, dirEntries_eq_map, List.map_take]
  rfl

theorem Packed.eraseSet (h : Packed dir ns) (hk : (primaries dir (endSlot dir))[i]? = some k) (hkj : k < j) :
    Packed (Exfat.eraseSet dir k j) (ns.take i) := by
  have hmem := List.mem_of_getElem? hk
  have hi := (List.getElem?_eq_some_iff.mp hk).1
  rw [h.starts, List.length_map, List.length_range] at hi
  constructor
  · rw [primaries_eraseSet hk hkj, h.starts, ← List.map_take, List.take_range, List.length_take]
    apply List.map_congr_left
    intro n hn
    rw [List.take_take, Nat.min_eq_left]
    have := List.mem_range.mp hn
    omega
  · rw [endSlot_eraseSet hmem hkj]
    rw [h.starts, List.getElem?_map, List.getElem?_range hi] at hk
    exact (Option.some.inj hk).symm

theorem Regular.eraseSet (h : Regular dir) (hk : (primaries dir (endSlot dir))[i]? = some k) (hkj : k < j) :
    Regular (Exfat.eraseSet dir k j) := by
  have hmem := List.mem_of_getElem? hk
  obtain ⟨hlt, hp⟩ := mem_primaries.mp hmem
  have hle := (endSlot_isEnd dir).le
  obtain ⟨hb, -⟩ := eraseSet_bounds (show k < slotCount dir by omega) hkj hp
  have hcount : slotCount (Exfat.eraseSet dir k j) = slotCount dir := slotCount_overlay ..
  intro n hn
  rw [primaries_eraseSet hk hkj] at hn
  obtain ⟨hs, hname⟩ := h n (List.mem_of_mem_take hn)
  rw [← primaries_eraseSet hk hkj, endSlot_eraseSet hmem hkj] at hn
  have hnk := (mem_primaries.mp hn).1
  have hstream := hb.stream_lt hnk hs
  rw [hcount, unlinkName, hcount, entryAt, hcount, hb.hasStream hnk, hb.scanEntry hnk,
    hb.nameSlots_unlink (by omega) (by omega)]
  exact ⟨hs, hname⟩

theorem Regular.findByName_eq (h : Regular dir) (name : List UInt8) :
    findByName dir (slotCount dir) name (slotCount dir) 0 =
      ((primaries dir (endSlot dir)).find? fun k => (entryAt dir k).name = name).map fun k =>
        (k, (unlinkName dir k).2) := by
  rw [Exfat.findByName_eq (endSlot_isEnd dir) (by simp) (Nat.zero_le _), Nat.sub_zero, ← List.range_eq_range',
    ← primaries]
  congr 1
  apply List.find?_congr
  intro k hk
  obtain ⟨hs, hname⟩ := h k hk
  rw [hs, hname, Bool.true_and]

theorem Regular.findByName_none (h : Regular dir) (hnone : (dirEntries dir).findIdx? (·.name = name) = none) :
    findByName dir (slotCount dir) name (slotCount dir) 0 = none := by
  rw [dirEntries_eq_map, List.findIdx?_map] at hnone
  rw [h.findByName_eq, Option.map_eq_none_iff, List.find?_eq_none]
  simpa using hnone

theorem Regular.findByName_some (h : Regular dir) (hsome : (dirEntries dir).findIdx? (·.name = name) = some i) :
    ∃ k, (primaries dir (endSlot dir))[i]? = some k ∧
      findByName dir (slotCount dir) name (slotCount dir) 0 = some (k, (unlinkName dir k).2) := by
  rw [dirEntries_eq_map, List.findIdx?_map] at hsome
  have hlt := lt_of_findIdx? hsome
  refine ⟨_, List.getElem?_eq_getElem hlt, ?_⟩
  have hfind : (primaries dir (endSlot dir)).find? (fun k => (entryAt dir k).name = name) = _ := find?_of_findIdx? hsome
  rw [h.findByName_eq, hfind, List.getElem?_eq_getElem hlt]
  rfl

end DexOs.Exfat
