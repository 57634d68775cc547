import DexOs.ExfatEntrySet
import Mathlib.Data.List.Nodup
import Mathlib.Data.List.Pairwise

/-! The searches of the driver in the root directory, in terms of its entries. -/

namespace DexOs.Exfat

open DexOs.Lib

variable {dir : List UInt8} {slots : ℕ}

theorem hasStream_iff {k : ℕ} : hasStream dir slots k = true ↔ k + 1 < slots ∧ slotType dir (k + 1) = 0xC0 := by
  simp [hasStream]

theorem mem_primaries {e k : ℕ} : k ∈ primaries dir e ↔ k < e ∧ isPrimary dir k = true := by
  simp [primaries]

theorem IsEnd.lt_iff {e k : ℕ} (he : IsEnd dir slots e) : k < e ↔ k < slots ∧ ∀ i ≤ k, slotType dir i ≠ 0 := by
  have hle := he.le
  constructor
  · exact fun hk => ⟨by omega, fun i hi => he.used i (by omega)⟩
  · rintro ⟨hk, hused⟩
    by_contra hge
    rcases he.last with hl | hl
    · omega
    · exact hused e (by omega) hl

def IsFile (dir : List UInt8) (k : ℕ) : Prop :=
  k ∈ primaries dir (endSlot dir) ∧ hasStream dir (slotCount dir) k = true

theorem isFile_iff {k : ℕ} : IsFile dir k ↔ (k < slotCount dir ∧ ∀ i ≤ k, slotType dir i ≠ 0) ∧
    isPrimary dir k = true ∧ hasStream dir (slotCount dir) k = true := by
  rw [IsFile, mem_primaries, (endSlot_isEnd dir).lt_iff, and_assoc]

theorem findByFirst_eq_some {first n k i : ℕ} (hu : ∀ j < k, slotType dir j ≠ 0)
    (h : findByFirst dir (slotCount dir) first n k = some i) : IsFile dir i ∧ streamFirst dir i = first := by
  induction n generalizing k with
  | zero => simp [findByFirst] at h
  | succ n ih =>
    rw [findByFirst] at h
    split_ifs at h with h1 h2
    · obtain ⟨hle, hz⟩ := not_or.mp h1
      obtain rfl := Option.some.inj h
      refine ⟨isFile_iff.mpr ⟨⟨by omega, fun i hi => ?_⟩, h2.1, hasStream_iff.mpr ⟨by omega, h2.2.1⟩⟩, h2.2.2⟩
      rcases Nat.eq_or_lt_of_le hi with rfl | hi
      · exact hz
      · exact hu i hi
    · refine ih (fun j hj => ?_) h
      rcases Nat.lt_succ_iff_lt_or_eq.mp hj with hj | rfl
      · exact hu j hj
      · exact (not_or.mp h1).2

theorem findByFirst_eq_none {first n k i : ℕ} (hn : slotCount dir ≤ k + n)
    (h : findByFirst dir (slotCount dir) first n k = none) (hk : k ≤ i) (hi : IsFile dir i) :
    streamFirst dir i ≠ first := by
  obtain ⟨⟨hlt, hu⟩, hp, hs⟩ := isFile_iff.mp hi
  obtain ⟨hs1, hs2⟩ := hasStream_iff.mp hs
  induction n generalizing k with
  | zero => omega
  | succ n ih =>
    rw [findByFirst] at h
    split_ifs at h with h1 h2
    · rcases h1 with h1 | h1
      · omega
      · exact absurd h1 (hu k hk)
    · rcases Nat.eq_or_lt_of_le hk with rfl | hk
      · exact fun hf => h2 ⟨hp, hs2, hf⟩
      · exact ih (by omega) h hk

def unlinkName (dir : List UInt8) (k : ℕ) : List UInt8 × ℕ :=
  nameSlots dir (unlinkNameSlot dir) (slotCount dir - (k + 2)) (k + 2) []

theorem unlinkName_snd (dir : List UInt8) (k : ℕ) : k < (unlinkName dir k).2 := by
  have := (nameSlots_snd dir (unlinkNameSlot dir) (slotCount dir - (k + 2)) (k + 2) []).1
  rw [unlinkName]
  omega

theorem findByName_eq_some {name : List UInt8} {n k i j : ℕ} (hu : ∀ j < k, slotType dir j ≠ 0)
    (h : findByName dir (slotCount dir) name n k = some (i, j)) :
    IsFile dir i ∧ unlinkName dir i = (name, j) := by
  induction n generalizing k with
  | zero => simp [findByName] at h
  | succ n ih =>
    have hnext : slotType dir k ≠ 0 → ∀ j < k + 1, slotType dir j ≠ 0 := by
      intro hz j hj
      rcases Nat.lt_succ_iff_lt_or_eq.mp hj with hj | rfl
      · exact hu j hj
      · exact hz
    rw [findByName] at h
    dsimp only at h
    split_ifs at h with h1 h2 h3
    · obtain ⟨hle, hz⟩ := not_or.mp h1
      rw [Option.some.injEq, Prod.mk.injEq] at h
      obtain ⟨rfl, rfl⟩ := h
      refine ⟨isFile_iff.mpr ⟨⟨by omega, fun i hi => hnext hz i (by omega)⟩, h2.1, h2.2⟩, ?_⟩
      exact Prod.ext h3 rfl
    · exact ih (hnext (not_or.mp h1).2) h
    · exact ih (hnext (not_or.mp h1).2) h

theorem findByName_eq_none {name : List UInt8} {n k i : ℕ} (hn : slotCount dir ≤ k + n)
    (h : findByName dir (slotCount dir) name n k = none) (hk : k ≤ i) (hi : IsFile dir i) :
    (unlinkName dir i).1 ≠ name := by
  obtain ⟨⟨hlt, hu⟩, hp, hs⟩ := isFile_iff.mp hi
  induction n generalizing k with
  | zero => omega
  | succ n ih =>
    rw [findByName] at h
    dsimp only at h
    split_ifs at h with h1 h2 h3
    · rcases h1 with h1 | h1
      · omega
      · exact absurd h1 (hu k hk)
    · rcases Nat.eq_or_lt_of_le hk with rfl | hk
      · exact h3
      · exact ih (by omega) h hk
    · rcases Nat.eq_or_lt_of_le hk with rfl | hk
      · exact absurd ⟨hp, hs⟩ h2
      · exact ih (by omega) h hk

def entryAt (dir : List UInt8) (k : ℕ) : Dirent := (scanEntry dir (slotCount dir) k).1

theorem dirEntries_eq_map (dir : List UInt8) : dirEntries dir = (primaries dir (endSlot dir)).map (entryAt dir) :=
  dirEntries_eq (endSlot_isEnd dir)

theorem entryAt_first {k : ℕ} (h : hasStream dir (slotCount dir) k = true) :
    (entryAt dir k).firstCluster = streamFirst dir k := by rw [entryAt, scanEntry, if_pos h]

theorem entryAt_no_stream {k : ℕ} (h : ¬ hasStream dir (slotCount dir) k = true) :
    (entryAt dir k).firstCluster = 0 := by rw [entryAt, scanEntry, if_neg h]

theorem IsFile.mem_entries {k : ℕ} (h : IsFile dir k) : entryAt dir k ∈ dirEntries dir := by
  rw [dirEntries_eq_map]
  exact List.mem_map_of_mem h.1

theorem IsFile.first_mem {k : ℕ} (h : IsFile dir k) :
    streamFirst dir k ∈ (dirEntries dir).map Dirent.firstCluster := by
  rw [← entryAt_first h.2]
  exact List.mem_map_of_mem h.mem_entries

theorem exists_isFile {x : Dirent} (hx : x ∈ dirEntries dir) (h0 : x.firstCluster ≠ 0) :
    ∃ k, IsFile dir k ∧ entryAt dir k = x := by
  rw [dirEntries_eq_map] at hx
  obtain ⟨k, hk, rfl⟩ := List.mem_map.mp hx
  refine ⟨k, ⟨hk, ?_⟩, rfl⟩
  by_contra hs
  exact h0 (entryAt_no_stream hs)

theorem scanEntry_size_lt (k : ℕ) : (scanEntry dir slots k).1.size < 2 ^ 64 := by
  unfold scanEntry
  dsimp only
  split_ifs
  · exact leNat_lt _ 8 _
  · exact Nat.two_pow_pos 64

theorem size_lt {x : Dirent} (hx : x ∈ dirEntries dir) : x.size < 2 ^ 64 := by
  rw [dirEntries_eq_map] at hx
  obtain ⟨k, -, rfl⟩ := List.mem_map.mp hx
  exact scanEntry_size_lt k

def Dirent.resize (f size : ℕ) (x : Dirent) : Dirent := if x.firstCluster = f then { x with size := size } else x

@[simp] theorem Dirent.resize_first (f size : ℕ) (x : Dirent) : (x.resize f size).firstCluster = x.firstCluster := by
  unfold Dirent.resize
  split_ifs <;> rfl

@[simp] theorem Dirent.resize_name (f size : ℕ) (x : Dirent) : (x.resize f size).name = x.name := by
  unfold Dirent.resize
  split_ifs <;> rfl

@[simp] theorem Dirent.resize_isDir (f size : ℕ) (x : Dirent) : (x.resize f size).isDir = x.isDir := by
  unfold Dirent.resize
  split_ifs <;> rfl

def Once (f : ℕ) (l : List ℕ) : Prop := l.Pairwise fun a b => a = f → b ≠ f

theorem once_of_nodup {l : List ℕ} (h : l.Nodup) (f : ℕ) : Once f l := h.imp fun hab ha hb => hab (ha.trans hb.symm)

theorem Once.inj {α : Type} {f : ℕ} {g : α → ℕ} {l : List α} (h : Once f (l.map g)) {a b : α} (ha : a ∈ l) (hb : b ∈ l)
    (hga : g a = f) (hgb : g b = f) : a = b := by
  by_contra hne
  have hsymm : Std.Symm fun a b => g a = f → g b ≠ f := ⟨fun _ _ hab hb ha => hab ha hb⟩
  exact (List.pairwise_map.mp h).forall ha hb hne hga hgb

theorem dirEntries_resize {k size : ℕ} (hk : IsFile dir k) (hs : size < 2 ^ 64)
    (hn : Once (streamFirst dir k) ((dirEntries dir).map Dirent.firstCluster)) :
    dirEntries (setSize dir k size) = (dirEntries dir).map (Dirent.resize (streamFirst dir k) size) := by
  rw [dirEntries_setSize (endSlot_isEnd dir) hk.2 hs, dirEntries_eq_map, List.map_map]
  rw [dirEntries_eq_map, List.map_map] at hn
  refine List.map_congr_left fun i hi => ?_
  have hiff : i = k ↔ (entryAt dir i).firstCluster = streamFirst dir k := by
    constructor
    · rintro rfl
      exact entryAt_first hk.2
    · intro h
      exact hn.inj hi hk.1 h (entryAt_first hk.2)
  rw [Function.comp_apply, Dirent.resize]
  simp only [hiff, entryAt]
  rfl

theorem dirEntries_eraseSet_isFile {k j : ℕ} (hk : IsFile dir k) (hkj : k < j) :
    ∃ rest, dirEntries dir = dirEntries (eraseSet dir k j) ++ entryAt dir k :: rest := by
  obtain ⟨hlt, hp⟩ := mem_primaries.mp hk.1
  obtain ⟨rest, hrest⟩ := primaries_split hlt hp
  refine ⟨rest.map (entryAt dir), ?_⟩
  rw [dirEntries_eraseSet (endSlot_isEnd dir) hlt hkj hp, dirEntries_eq_map, hrest, List.map_append, List.map_cons]
  rfl

/-- Every entry has a stream extension, and `exfat_unlink` reads its name as the scan does. -/
def Regular (dir : List UInt8) : Prop := ∀ k ∈ primaries dir (endSlot dir),
  hasStream dir (slotCount dir) k = true ∧ (unlinkName dir k).1 = (entryAt dir k).name

theorem entryAt_name {k : ℕ} (h : hasStream dir (slotCount dir) k = true) :
    (entryAt dir k).name = (nameSlots dir (scanNameSlot dir) (slotCount dir - (k + 2)) (k + 2) []).1 := by
  rw [entryAt, scanEntry, if_pos h]

theorem regular_of_free (h : slotType dir 0 = 0) : Regular dir := by
  have hend : endSlot dir = 0 := (endSlot_isEnd dir).unique ⟨Nat.zero_le _, by simp, .inr h⟩
  intro k hk
  rw [hend] at hk
  simp [primaries] at hk

theorem endSlot_setSize (dir : List UInt8) (k size : ℕ) : endSlot (setSize dir k size) = endSlot dir := by
  apply (endSlot_isEnd _).unique
  rw [slotCount_setSize]
  exact setSize_isEnd (endSlot_isEnd dir)

theorem endSlot_appendSet {name : List UInt8} {cl : ℕ}
    (hfit : 32 * (endSlot dir + (2 + nameEntries name)) ≤ dir.length) :
    endSlot (appendSet dir (endSlot dir) name cl) = endSlot dir + (2 + nameEntries name) := by
  apply (endSlot_isEnd _).unique
  rw [slotCount_appendSet]
  exact appendSet_isEnd hfit (endSlot_isEnd dir)

theorem Regular.setSize {k size : ℕ} (h : Regular dir) (hk : hasStream dir (slotCount dir) k = true) :
    Regular (Exfat.setSize dir k size) := by
  have hcount := slotCount_setSize dir k size
  have hend := endSlot_setSize dir k size
  have hc := (hasStream_iff.mp hk).2
  intro i hi
  rw [hend, setSize_primaries (endSlot_isEnd dir).le] at hi
  obtain ⟨hs, hname⟩ := h i hi
  have hlt := (hasStream_iff.mp hs).1
  have hs' : hasStream (Exfat.setSize dir k size) (slotCount (Exfat.setSize dir k size)) i = true := by
    rw [hcount, setSize_hasStream]
    exact hs
  refine ⟨hs', ?_⟩
  rw [entryAt_name hs] at hname
  rw [entryAt_name hs', unlinkName, hcount, setSize_unlinkNames hc (by omega), setSize_scanNames hc (by omega)]
  exact hname

theorem Regular.appendSet {name : List UInt8} {cl : ℕ} (h : Regular dir)
    (hfit : 32 * (endSlot dir + (2 + nameEntries name)) ≤ dir.length) (h0 : 0 ∉ name) :
    Regular (Exfat.appendSet dir (endSlot dir) name cl) := by
  have he := endSlot_isEnd dir
  have hle := he.le
  have hb : Bounds dir (Exfat.appendSet dir (endSlot dir) name cl) (slotCount dir) (endSlot dir) :=
    appendSet_bounds he hfit
  intro k hk
  rw [endSlot_appendSet hfit, appendSet_primaries he hfit, List.mem_append, List.mem_singleton] at hk
  rw [slotCount_appendSet, unlinkName, slotCount_appendSet, entryAt, slotCount_appendSet]
  rcases hk with hk | rfl
  · obtain ⟨hs, hname⟩ := h k hk
    have hlt := (mem_primaries.mp hk).1
    have hstream := hb.stream_lt hlt hs
    rw [hb.hasStream hlt, hb.scanEntry hlt, hb.nameSlots_unlink (by omega) (by omega)]
    exact ⟨hs, hname⟩
  · have hs : hasStream (Exfat.appendSet dir (endSlot dir) name cl) (slotCount dir) (endSlot dir) = true :=
      appendSet_hasStream hfit
    refine ⟨hs, ?_⟩
    rw [appendSet_unlinkName hfit h0, scanEntry, if_pos hs]

end DexOs.Exfat
