import DexOs.Multiboot

/-! What a loader writes: the tags of an information block one after another, and the entries of its
memory-map tags. `parse_mb2` reads exactly these. -/

namespace DexOs.Mb2

open DexOs.Lib

inductive TagList (m : Memory) (last : ℕ) : ℕ → List ℕ → Prop
  | done {t : ℕ} : tagType m t = tagEnd → TagList m last t []
  | tag {t : ℕ} {ts : List ℕ} : tagType m t ≠ tagEnd → 8 ≤ tagSize m t → t + tagSize m t ≤ last →
    TagList m last (mb2NextTag m t) ts → TagList m last t (t :: ts)

def entrySize (m : Memory) (t : ℕ) : ℕ := leNat m 4 (t + 8)

def tagEntries (m : Memory) (t : ℕ) : List MapEntry :=
  (List.range ((tagSize m t - 16) / entrySize m t)).map fun k => mmapEntry m (t + 16 + k * entrySize m t)

def mapEntries (m : Memory) (tags : List ℕ) : List MapEntry :=
  (tags.filter fun t => tagType m t = tagMmap).flatMap (tagEntries m)

/-- An information block with these tags. An entry has 24 bytes or more, and the end of a memory-map tag is
no more than an entry away from the last 32-bit offset. -/
structure WellFormed (m : Memory) (info : ℕ) (tags : List ℕ) : Prop where
  info_pos : 0 < info
  tagList : TagList m (info + totalSize m info) (mb2FirstTag info) tags
  entry : ∀ t ∈ tags, tagType m t = tagMmap →
    16 ≤ tagSize m t ∧ 24 ≤ entrySize m t ∧ tagSize m t + entrySize m t < 2 ^ 32

variable {m : Memory} {info last t : ℕ} {tags : List ℕ}

theorem TagList.single (hne : tagType m t ≠ tagEnd) (hsize : 8 ≤ tagSize m t) (hle : t + tagSize m t ≤ last)
    (hend : tagType m (mb2NextTag m t) = tagEnd) : TagList m last t [t] := .tag hne hsize hle (.done hend)

theorem mmapEntries_from {fuel k : ℕ} (h16 : 16 ≤ tagSize m t) (h : 0 < entrySize m t)
    (hfit : tagSize m t + entrySize m t < 2 ^ 32)
    (hk : k ≤ (tagSize m t - 16) / entrySize m t) (hfuel : (tagSize m t - 16) / entrySize m t - k < fuel) :
    mmapEntries m t fuel (16 + k * entrySize m t) =
      some ((List.range' k ((tagSize m t - 16) / entrySize m t - k)).map fun k =>
        mmapEntry m (t + 16 + k * entrySize m t)) := by
  induction fuel generalizing k with
  | zero => omega
  | succ fuel ih =>
    have hsucc : 16 + k * entrySize m t + entrySize m t = 16 + (k + 1) * entrySize m t := by
      rw [Nat.add_mul, Nat.one_mul, Nat.add_assoc]
    have hroom : k * entrySize m t ≤ tagSize m t - 16 :=
      (Nat.mul_le_mul_right _ hk).trans (Nat.div_mul_le_self _ _)
    rw [mmapEntries]
    change (if (16 + k * entrySize m t + entrySize m t) % 2 ^ 32 ≤ tagSize m t then _ else _) = _
    by_cases hmore : k < (tagSize m t - 16) / entrySize m t
    · have hnext : (k + 1) * entrySize m t ≤ tagSize m t - 16 :=
        (Nat.mul_le_mul_right _ hmore).trans (Nat.div_mul_le_self _ _)
      have hpos : 0 < (k + 1) * entrySize m t := Nat.mul_pos (Nat.succ_pos k) h
      have hmod : (16 + k * entrySize m t + leNat m 4 (t + 8)) % 2 ^ 32 = 16 + (k + 1) * entrySize m t := by
        change (16 + k * entrySize m t + entrySize m t) % 2 ^ 32 = _
        rw [hsucc, Nat.mod_eq_of_lt (by omega)]
      have hcount : (tagSize m t - 16) / entrySize m t - k = (tagSize m t - 16) / entrySize m t - (k + 1) + 1 := by
        omega
      rw [hsucc, Nat.mod_eq_of_lt (by omega), if_pos (by omega)]
      rw [hmod, ih hmore (by omega), hcount, List.range'_succ, List.map_cons, Option.map_some, Nat.add_assoc t]
    · have hlast : tagSize m t - 16 < (k + 1) * entrySize m t := by
        rw [← Nat.div_lt_iff_lt_mul h]
        omega
      have hnone : (tagSize m t - 16) / entrySize m t - k = 0 := by omega
      rw [hsucc, Nat.mod_eq_of_lt (by omega), if_neg (by omega), hnone]
      rfl

theorem mmapEntries_eq {fuel : ℕ} (h16 : 16 ≤ tagSize m t) (h : 0 < entrySize m t)
    (hfit : tagSize m t + entrySize m t < 2 ^ 32) (hfuel : (tagSize m t - 16) / entrySize m t < fuel) : mmapEntries m t fuel 16 = some (tagEntries m t) := by
  have key := mmapEntries_from h16 h hfit (Nat.zero_le _) (show _ - 0 < fuel by omega)
  rw [Nat.zero_mul, Nat.add_zero, Nat.sub_zero, ← List.range_eq_range'] at key
  exact key

theorem tagLoop_eq_foldl {β : Type} {body : ℕ → β → Option (β × Bool)} {step : ℕ → β → β} (h : TagList m last t tags)
    (hbody : ∀ t ∈ tags, ∀ acc, body t acc = some (step t acc, false)) {fuel : ℕ} (hfuel : tags.length < fuel) (acc : β) :
    tagLoop m last body fuel t acc = some (tags.foldl (fun acc t => step t acc) acc) := by
  induction h generalizing fuel acc with
  | done hend =>
    obtain ⟨fuel, rfl⟩ := Nat.exists_eq_succ_of_ne_zero (Nat.ne_zero_of_lt hfuel)
    rw [Nat.succ_eq_add_one, tagLoop, if_neg (fun hgo => hgo.2 hend)]
    rfl
  | @tag t ts hne hsize hle hrest ih =>
    obtain ⟨fuel, rfl⟩ := Nat.exists_eq_succ_of_ne_zero (Nat.ne_zero_of_lt hfuel)
    rw [List.length_cons] at hfuel
    rw [Nat.succ_eq_add_one, tagLoop, if_pos ⟨by omega, hne⟩, hbody t List.mem_cons_self]
    exact ih (fun t ht => hbody t (List.mem_cons_of_mem _ ht)) (by omega) _

def collect (m : Memory) (t : ℕ) (acc : Option (List MapEntry)) : Option (List MapEntry) :=
  if tagType m t = tagMmap then some (acc.getD [] ++ tagEntries m t) else acc

theorem foldl_collect (m : Memory) (tags : List ℕ) (acc : Option (List MapEntry)) :
    tags.foldl (fun acc t => collect m t acc) acc =
      if ∃ t ∈ tags, tagType m t = tagMmap then some (acc.getD [] ++ mapEntries m tags) else acc := by
  induction tags generalizing acc with
  | nil => simp
  | cons t ts ih =>
    rw [List.foldl_cons, ih, collect, mapEntries, mapEntries]
    by_cases ht : tagType m t = tagMmap
    · rw [if_pos ht, List.filter_cons_of_pos (by simpa using ht), List.flatMap_cons]
      by_cases hts : ∃ t ∈ ts, tagType m t = tagMmap
      · rw [if_pos hts, if_pos ⟨t, List.mem_cons_self, ht⟩, Option.getD_some, List.append_assoc]
      · have hnil : ts.filter (fun t => tagType m t = tagMmap) = [] := by
          rw [List.filter_eq_nil_iff]
          intro x hx hmm
          exact hts ⟨x, hx, by simpa using hmm⟩
        rw [if_neg hts, if_pos ⟨t, List.mem_cons_self, ht⟩, hnil, List.flatMap_nil, List.append_nil]
    · have hiff : (∃ x ∈ t :: ts, tagType m x = tagMmap) ↔ ∃ x ∈ ts, tagType m x = tagMmap := by
        simp [ht]
      rw [if_neg ht, List.filter_cons_of_neg (by simpa using ht)]
      simp only [hiff]

theorem WellFormed.readMemoryMap_eq (hw : WellFormed m info tags) (hmap : ∃ t ∈ tags, tagType m t = tagMmap) :
    ∃ n, ∀ fuel ≥ n, readMemoryMap fuel m info false = some (.mmap (mapEntries m tags)) := by
  refine ⟨tags.length + 2 ^ 32 + 1, fun fuel hfuel => ?_⟩
  have hsize (t : ℕ) : tagSize m t < 2 ^ 32 := leNat_lt m 4 (t + 4)
  have hbody : ∀ t ∈ tags, ∀ acc : Option (List MapEntry), (if tagType m t = tagMmap then
      (mmapEntries m t fuel 16).map fun es => (some (acc.getD [] ++ es), false)
      else some (acc, false)) = some (collect m t acc, false) := by
    intro t ht acc
    rw [collect]
    by_cases hmm : tagType m t = tagMmap
    · obtain ⟨h16, h24, hfit⟩ := hw.entry t ht hmm
      have hcount : (tagSize m t - 16) / entrySize m t ≤ tagSize m t :=
        (Nat.div_le_self _ _).trans (Nat.sub_le _ _)
      rw [if_pos hmm, if_pos hmm, mmapEntries_eq h16 (by omega) hfit (by have := hsize t; omega)]
      rfl
    · rw [if_neg hmm, if_neg hmm]
  have hcollect : collectMmap fuel m info = some (some (mapEntries m tags)) := by
    rw [collectMmap, tagLoop_eq_foldl hw.tagList hbody (by omega), foldl_collect, if_pos hmap]
    rfl
  have hpos := hw.info_pos
  rw [readMemoryMap, if_neg (by omega)]
  simp [hcollect]

end DexOs.Mb2
