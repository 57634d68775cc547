import DexOs.ExfatFiles
import DexOs.Lib.Searches

/-! The two readers of the root directory: `dir_scan_root`, which `exfat_open` and `exfat_stat` search, and
`exfat_unlink`. -/

namespace DexOs.Exfat

open DexOs.Lib

variable {dir : List UInt8} {name : List UInt8}

structure EntrySet where
  first : ℕ
  behind : ℕ
  cluster : ℕ
deriving DecidableEq

def scannedSet (dir : List UInt8) (k : ℕ) : EntrySet :=
  ⟨k, (scanEntry dir (slotCount dir) k).2, (entryAt dir k).firstCluster⟩

/-- The entry set that `exfat_open` and `exfat_stat` find. -/
def openFinds (dir name : List UInt8) : Option EntrySet :=
  (((primaries dir (endSlot dir)).take 32).find? fun k => (entryAt dir k).name = name).map (scannedSet dir)

/-- The entry set that `exfat_unlink` finds: it frees the clusters from `cluster` on and clears the slots. -/
def unlinkFinds (dir name : List UInt8) : Option EntrySet :=
  (findByName dir (dir.length / 32) name (dir.length / 32) 0).map fun r => ⟨r.1, r.2, streamFirst dir r.1⟩

def ReadersAgree (dir name : List UInt8) : Prop := openFinds dir name = unlinkFinds dir name

theorem find_scanned (dir name : List UInt8) : ((dirEntries dir).take 32).find? (·.name = name) =
    (openFinds dir name).map fun s => entryAt dir s.first := by
  rw [dirEntries_eq_map, ← List.map_take, List.find?_map, openFinds, Option.map_map]
  rfl

section Calls

variable {σ H : Type} [KernelAlloc H] {D : Disk σ} {w : World σ H} {path : CString}

theorem lookup_eq_openFinds (v : Vol) : D.lookup v path =
    (openFinds (D.dir v) (fileName path)).map fun s => entryAt (D.dir v) s.first := by
  rw [Disk.lookup, Disk.listed]
  exact find_scanned _ _

theorem exfatOpen_finds (hpath : pathIsRoot path = false) (ha : AllocOk H) (hpos : 0 < D.fs.clusterSize) :
    Wp (exfatOpen D.fs path) w fun r _ =>
      r = (openFinds (D.dir (D.vol w)) (fileName path)).map fun s => (entryAt (D.dir (D.vol w)) s.first).node := by
  apply (exfatOpen_spec hpath).mono
  rintro r w' ⟨-, -, hr⟩
  rw [hr ha hpos, lookup_eq_openFinds, Option.map_map]
  rfl

theorem exfatStat_finds (hpath : pathIsRoot path = false) (ha : AllocOk H) (hpos : 0 < D.fs.clusterSize) :
    Wp (exfatStat D.fs path) w fun r _ => r = (openFinds (D.dir (D.vol w)) (fileName path)).map fun s =>
      ((entryAt (D.dir (D.vol w)) s.first).size, (entryAt (D.dir (D.vol w)) s.first).isDir) := by
  apply (exfatStat_spec hpath ha hpos).mono
  rintro r w' ⟨-, hr⟩
  rw [hr, lookup_eq_openFinds, Option.map_map]
  rfl

end Calls

theorem nameSlots_snd_eq (take take' : ℕ → List ℕ → List UInt8 → List UInt8) (n j : ℕ) (nm nm' : List UInt8) :
    (nameSlots dir take n j nm).2 = (nameSlots dir take' n j nm').2 := by
  induction n generalizing j nm nm' with
  | zero => rfl
  | succ n ih =>
    rw [nameSlots, nameSlots]
    split
    · exact ih _ _ _
    · rfl

theorem scannedSet_eq {k : ℕ} (h : hasStream dir (slotCount dir) k = true) :
    scannedSet dir k = ⟨k, (unlinkName dir k).2, streamFirst dir k⟩ := by
  rw [scannedSet, entryAt_first h, scanEntry, if_pos h, unlinkName]
  exact congrArg (EntrySet.mk k · _) (nameSlots_snd_eq ..)

theorem findByName_eq {e : ℕ} (he : IsEnd dir (slotCount dir) e) {n k : ℕ} (hn : slotCount dir ≤ k + n) (hk : k ≤ e) :
    findByName dir (slotCount dir) name n k =
      (((List.range' k (e - k)).filter (isPrimary dir)).find? fun k =>
        hasStream dir (slotCount dir) k && decide ((unlinkName dir k).1 = name)).map fun k => (k, (unlinkName dir k).2) := by
  have hle := he.le
  induction n generalizing k with
  | zero =>
    have h0 : e - k = 0 := by omega
    rw [h0]
    rfl
  | succ n ih =>
    rw [findByName]
    by_cases hke : k = e
    · subst hke
      have hstop : slotCount dir ≤ k ∨ slotType dir k = 0 := he.last.imp_left fun h => by omega
      rw [if_pos hstop, Nat.sub_self]
      rfl
    · have hlt : k < e := by omega
      have hgo : ¬ (slotCount dir ≤ k ∨ slotType dir k = 0) := not_or.mpr ⟨by omega, he.used k hlt⟩
      have hsplit := range'_of_lt hlt
      have hrest := ih (k := k + 1) (by omega) (by omega)
      rw [if_neg hgo, hsplit]
      cases hp : isPrimary dir k with
      | false =>
        rw [if_neg (by simp), List.filter_cons_of_neg (by simp [hp])]
        exact hrest
      | true =>
        rw [List.filter_cons_of_pos hp, List.find?_cons]
        cases hs : hasStream dir (slotCount dir) k with
        | false =>
          rw [if_neg (by simp)]
          exact hrest
        | true =>
          rw [if_pos ⟨rfl, rfl⟩]
          by_cases hname : (unlinkName dir k).1 = name
          · have hhit : (nameSlots dir (unlinkNameSlot dir) (slotCount dir - (k + 2)) (k + 2) []).1 = name := hname
            rw [if_pos hhit, hname]
            simp
            rfl
          · have hmiss : ¬ (nameSlots dir (unlinkNameSlot dir) (slotCount dir - (k + 2)) (k + 2) []).1 = name := hname
            rw [if_neg hmiss]
            simp only [hname, decide_false, Bool.and_false]
            exact hrest

def opens (dir name : List UInt8) (x : ℕ × ℕ) : Bool := decide (x.2 < 32) && decide ((entryAt dir x.1).name = name)

def unlinks (dir name : List UInt8) (x : ℕ × ℕ) : Bool :=
  hasStream dir (slotCount dir) x.1 && decide ((unlinkName dir x.1).1 = name)

/-- The first entry that one of the readers takes for the name is one of the first 32, has a stream record, and its
name is the same with and without what stands behind a zero. -/
def FirstIsPlain (dir name : List UInt8) : Prop :=
  ∀ k i, (primaries dir (endSlot dir)).zipIdx.find? (fun x => opens dir name x || unlinks dir name x) = some (k, i) →
    i < 32 ∧ hasStream dir (slotCount dir) k = true ∧ (unlinkName dir k).1 = (entryAt dir k).name

theorem openFinds_eq (dir name : List UInt8) : openFinds dir name =
    (((primaries dir (endSlot dir)).zipIdx.find? (opens dir name)).map Prod.fst).map (scannedSet dir) := by
  rw [openFinds, find_take_zipIdx _ 32 _ 0]
  simp only [Nat.zero_add]
  rfl

theorem unlinkFinds_eq (dir name : List UInt8) : unlinkFinds dir name =
    (((primaries dir (endSlot dir)).zipIdx.find? (unlinks dir name)).map Prod.fst).map (scannedSet dir) := by
  have hfind := @findByName_eq dir name _ (endSlot_isEnd dir) (slotCount dir) 0 (by omega) (Nat.zero_le _)
  rw [Nat.sub_zero, ← List.range_eq_range', find_zipIdx _ _ 0] at hfind
  change (findByName dir (slotCount dir) name (slotCount dir) 0).map _ = _
  rw [hfind]
  change ((((primaries dir (endSlot dir)).zipIdx.find? (unlinks dir name)).map _).map _).map _ = _
  cases hx : (primaries dir (endSlot dir)).zipIdx.find? (unlinks dir name) with
  | none => rfl
  | some x =>
    have htaken := List.find?_some hx
    have hs : hasStream dir (slotCount dir) x.1 = true := (Bool.and_eq_true_iff.mp htaken).1
    exact congrArg some (scannedSet_eq hs).symm

theorem readers_agree_iff (dir name : List UInt8) : ReadersAgree dir name ↔ FirstIsPlain dir name := by
  have hfst (l : List ℕ) : l.zipIdx.map Prod.fst = l := List.zipIdx_map_fst 0 l
  have hnodup : ((primaries dir (endSlot dir)).zipIdx.map Prod.fst).Nodup := by
    rw [hfst]
    exact List.nodup_range.filter _
  have hslot (s t : Option ℕ) : s.map (scannedSet dir) = t.map (scannedSet dir) ↔ s = t := by
    apply (Option.map_injective _).eq_iff
    intro a b h
    exact congrArg EntrySet.first h
  rw [ReadersAgree, openFinds_eq, unlinkFinds_eq, hslot, find_eq_iff Prod.fst hnodup, Prod.forall]
  apply forall_congr'
  intro k
  apply forall_congr'
  intro i
  apply forall_congr'
  intro hfirst
  have hone := List.find?_some hfirst
  unfold opens unlinks at hone ⊢
  simp only [Bool.or_eq_true, Bool.and_eq_true, decide_eq_true_eq] at hone ⊢
  constructor
  · rintro ⟨⟨hi, hscan⟩, hs, hname⟩
    exact ⟨hi, hs, hname.trans hscan.symm⟩
  · rintro ⟨hi, hs, heq⟩
    rcases hone with ⟨-, hscan⟩ | ⟨-, hname⟩
    · exact ⟨⟨hi, hscan⟩, hs, heq.trans hscan⟩
    · exact ⟨⟨hi, heq.symm.trans hname⟩, hs, hname⟩

def streamless : List UInt8 := primarySlot 1 ++ nameSlot [97] 0 ++ List.replicate 448 0

theorem streamless_opens_only : openFinds streamless [97] = some ⟨0, 2, 0⟩ ∧ unlinkFinds streamless [97] = none ∧
    ¬ ReadersAgree streamless [97] := by
  have hopen : openFinds streamless [97] = some ⟨0, 2, 0⟩ := by decide +kernel
  have hunlink : unlinkFinds streamless [97] = none := by decide +kernel
  refine ⟨hopen, hunlink, ?_⟩
  rw [ReadersAgree, hopen, hunlink]
  exact Option.some_ne_none _

end DexOs.Exfat
