import DexOs.ExfatTraces
import Mathlib.Data.Finset.Card
import Mathlib.Data.Finset.Range

/-! Which calls return, whatever the FAT and the root directory hold. -/

namespace DexOs.Exfat

open DexOs.Lib

variable {σ H : Type} {R : SectorReader σ} {D : SectorDevice σ} {S : SectorStore σ} {w : World σ H} {s : σ} {cl : ℕ}

def Returns {α : Type} (x : Io σ H α) (w : World σ H) : Prop := Wp x w fun _ _ => True

theorem returns_bind {α β : Type} {x : Io σ H α} {f : α → Io σ H β} {R : α → World σ H → Prop} (hx : Wp x w R)
    (hf : ∀ a w', R a w' → Returns (f a) w') : Returns (x >>= f) w := wp_bind hx hf

theorem returns_pure {α : Type} (a : α) : Returns (pure a : Io σ H α) w := wp_pure trivial

theorem returns_bind_iff {α β : Type} {x : Io σ H α} {f : α → Io σ H β} {a : α} {w' : World σ H}
    (hx : x w = .ok (a, w')) : Returns (x >>= f) w ↔ Returns (f a) w' := by
  unfold Returns Wp
  rw [bind_run hx]

def ChainEnds (R : SectorReader σ) (s : σ) (c : ℕ) : Prop := ∃ n, EndsWithin R s n c

section Freeing

def usedEntries (R : SectorReader σ) (s : σ) : Finset ℕ := (Finset.range (2 ^ 30)).filter fun e => fatOf R s e ≠ 0

theorem fatOf_entryOf (R : SectorReader σ) (s : σ) (cl : ℕ) : fatOf R s (entryOf cl) = fatOf R s cl := by
  have h : entryOf (entryOf cl) = entryOf cl := Nat.mod_mod _ _
  rw [fatOf, fatOf, fatSector, fatSector, h]

theorem usedEntries_fatPut_lt (h : fatSector cl < S.sectors) (hne : fatOf S s cl ≠ 0) :
    (usedEntries S (fatPut S s cl 0)).card < (usedEntries S s).card := by
  have hmem : entryOf cl ∈ usedEntries S s := by
    rw [usedEntries, Finset.mem_filter, Finset.mem_range, fatOf_entryOf]
    exact ⟨Nat.mod_lt _ (by decide), hne⟩
  apply Finset.card_lt_card
  rw [Finset.ssubset_iff_of_subset]
  · refine ⟨entryOf cl, hmem, fun hin => ?_⟩
    apply (Finset.mem_filter.mp hin).2
    rw [fatOf_entryOf, fatOf_fatPut h (by decide), if_pos rfl]
  · intro e he
    obtain ⟨hlt, hused⟩ := Finset.mem_filter.mp he
    refine Finset.mem_filter.mpr ⟨hlt, fun hzero => hused ?_⟩
    rw [fatOf_fatPut h (by decide), hzero, ite_self]

-- every turn that goes on has just cleared an entry that was in use
theorem freeChain_returns {fuel : ℕ} (hfuel : (usedEntries S w.dev).card < fuel) :
    Returns (freeChain (fallbackFs S.dev) fuel cl) w := by
  induction fuel generalizing cl w with
  | zero => omega
  | succ fuel ih =>
    rw [freeChain]
    split_ifs with h2
    · exact returns_pure ()
    apply returns_bind fatGet_sector
    rintro next w1 ⟨rfl, rfl⟩
    apply returns_bind fatSet_sector
    rintro _ w2 h
    split_ifs with hend
    · exact returns_pure ()
    have hne : fatOf S w1.dev cl ≠ 0 := fun h => hend (.inl h)
    rcases h with ⟨hon, -, rfl⟩ | ⟨hoff, -, -⟩
    · apply ih
      have hlt := usedEntries_fatPut_lt hon hne
      dsimp only
      omega
    · rw [fatOf, if_neg (Nat.not_lt.mpr hoff)] at hne
      exact absurd rfl hne

/-- Within `n` entries the chain of `c` comes to a number that is no cluster, to a 0 or to an end mark. -/
def FreesWithin (R : SectorReader σ) (s : σ) : ℕ → ℕ → Prop
  | 0, _ => False
  | n + 1, c => c < 2 ∨ fatOf R s c = 0 ∨ fatOf R s c = eoc ∨ FreesWithin R s n (fatOf R s c)

theorem put_readonly (hro : D.writable = false) {lba : ℕ} (buf : List UInt8) (hlba : lba < 2 ^ 32) :
    put D s lba buf = s := by
  unfold put
  rw [D.write_fails s lba buf 1 hlba Nat.one_pos (by decide) fun h => absurd (hro.symm.trans h) (by decide)]

theorem fatSet_device {val : ℕ} : Wp (fatSet (fallbackFs D.dev) cl val) w fun r w' =>
    D.writable = false → r = -1 ∧ w' = w := by
  rw [fatSet, fatSlot_fallback]
  apply wp_bind (read_sector (fatSector_lt cl))
  rintro r w' ⟨rfl, hin, hout⟩
  rcases Nat.lt_or_ge (fatSector cl) D.sectors with hon | hoff
  · rw [hin hon, if_neg (lt_irrefl 1)]
    apply wp_bind (write_sector (fatSector_lt cl) (by rw [length_overlay, length_peek]))
    rintro rc w2 ⟨rfl, hrc⟩
    refine wp_pure fun hro => ⟨?_, ?_⟩
    · rw [if_neg fun h => absurd (hro.symm.trans h.1) (by decide)] at hrc
      rw [hrc]
      decide
    · rw [put_readonly hro _ (fatSector_lt cl)]
  · rw [if_pos (by rw [hout hoff]; decide)]
    exact wp_pure fun _ => ⟨rfl, rfl⟩

theorem freeChain_readonly (hro : D.writable = false) (fuel : ℕ) :
    Returns (freeChain (fallbackFs D.dev) fuel cl) w ↔ FreesWithin D w.dev fuel cl := by
  induction fuel generalizing cl with
  | zero =>
    refine iff_of_false ?_ id
    rintro ⟨_, _, hrun, -⟩
    cases hrun
  | succ fuel ih =>
    have hgets : Wp (fatGet (fallbackFs D.dev) cl) w _ := fatGet_sector (R := D.toSectorReader)
    obtain ⟨next, w1, hget, rfl, rfl⟩ := hgets
    have hsets : Wp (fatSet (fallbackFs D.dev) cl 0) w1 _ := fatSet_device
    obtain ⟨rc, w2, hset, hkeep⟩ := hsets
    obtain ⟨-, rfl⟩ := hkeep hro
    rw [freeChain, FreesWithin]
    split_ifs with h2
    · exact iff_of_true (returns_pure ()) (.inl h2)
    rw [returns_bind_iff hget, returns_bind_iff hset, or_iff_right h2]
    split_ifs with hend
    · exact iff_of_true (returns_pure ()) (hend.imp_right .inl)
    · obtain ⟨h0, he⟩ := not_or.mp hend
      rw [ih, or_iff_right h0, or_iff_right he]

end Freeing

section Calls

variable [KernelAlloc H]

theorem dirScanRoot_returns (n : ℕ) : Returns (dirScanRoot (fallbackFs R.dev) n) w := by
  unfold dirScanRoot
  apply returns_bind loadRoot_traced
  rintro (_ | ⟨p, dir⟩) w1 -
  · exact returns_pure _
  · apply returns_bind (kfree_dev p)
    rintro _ w2 -
    exact returns_pure _

theorem exfatOpen_returns (path : CString) : Returns (exfatOpen (fallbackFs R.dev) path) w := by
  unfold exfatOpen
  apply returns_bind (kmalloc_dev 24)
  rintro (_ | n) w1 -
  · exact returns_pure _
  apply returns_bind (kmalloc_dev 24)
  rintro (_ | vn) w2 -
  · apply returns_bind (kfree_dev n)
    rintro _ w3 -
    exact returns_pure _
  dsimp only
  split_ifs
  · exact returns_pure _
  apply returns_bind (dirScanRoot_returns 32)
  rintro ents w3 -
  split
  · exact returns_pure _
  · apply returns_bind (kfree_dev n)
    rintro _ w4 -
    apply returns_bind (kfree_dev vn)
    rintro _ w5 -
    exact returns_pure _

omit [KernelAlloc H] in
theorem readSkip_returns (k : ℕ) : Returns (readSkip (fallbackFs R.dev) k cl) w := by
  induction k generalizing cl w with
  | zero => exact returns_pure _
  | succ k ih =>
    rw [readSkip]
    apply returns_bind fatGet_sector
    rintro next w1 -
    split_ifs
    · exact returns_pure _
    · exact ih

theorem readLoop_returns {n skip len : ℕ} (hn : len ≤ n) (hskip : skip < 512) :
    Returns (readLoop (fallbackFs R.dev) n cl skip len) w := by
  induction n generalizing cl skip len w with
  | zero =>
    rw [readLoop, if_pos (Nat.le_zero.mp hn)]
    exact returns_pure _
  | succ n ih =>
    rw [readLoop]
    split_ifs with hdone
    · exact returns_pure _
    apply returns_bind (kmalloc_dev _)
    rintro (_ | p) w1 -
    · exact returns_pure _
    apply returns_bind readCluster_sector
    rintro r w2 ⟨-, rfl⟩
    split_ifs
    · dsimp only
      apply returns_bind (kfree_dev p)
      rintro _ w3 -
      split_ifs with htake
      · exact returns_pure _
      apply returns_bind fatGet_sector
      rintro next w4 -
      split_ifs
      · exact returns_pure _
      have hsize : (fallbackFs R.dev).clusterSize = 512 := rfl
      have hrest : Returns (readLoop (fallbackFs R.dev) n next 0
          (len - min len ((fallbackFs R.dev).clusterSize - skip))) w4 := by
        apply ih
        · rw [hsize]
          omega
        · decide
      apply returns_bind hrest
      rintro rest w5 -
      exact returns_pure _
    · apply returns_bind (kfree_dev p)
      rintro _ w3 -
      exact returns_pure _

theorem exfatRead_returns (node : Node) (off len : ℕ) : Returns (exfatRead (fallbackFs R.dev) node off len) w := by
  have hsize : (fallbackFs R.dev).clusterSize = 512 := rfl
  unfold exfatRead
  rw [hsize]
  split_ifs with hdir hend hzero
  · exact returns_pure _
  · exact returns_pure _
  · exact absurd hzero (by decide)
  · apply returns_bind (readSkip_returns _)
    rintro cl w1 -
    apply returns_bind (readLoop_returns (le_refl _) (Nat.mod_lt off (by decide)))
    rintro out w2 -
    exact returns_pure _

section Writing

theorem fatAlloc_device : Wp (fatAlloc (fallbackFs D.dev)) w fun r w' => r ≠ 0 → fatOf D w'.dev r = eoc := by
  cases hw : D.writable with
  | true => exact (fatAlloc_traced (S := ⟨D, hw⟩)).mono fun _ _ h h0 => (h.2 h0).2
  | false =>
    have hfrom (n cl : ℕ) (w : World σ H) : Wp (fatAllocFrom (fallbackFs D.dev) n cl) w fun r _ => r = 0 := by
      induction n generalizing cl w with
      | zero => exact wp_pure rfl
      | succ n ih =>
        rw [fatAllocFrom]
        apply wp_bind fatGet_sector
        rintro v w1 -
        split_ifs
        · apply wp_bind fatSet_device
          rintro rc w2 hset
          obtain ⟨rfl, -⟩ := hset hw
          rw [if_pos (by decide)]
          exact wp_pure rfl
        · exact ih _ _
    exact (hfrom _ _ w).mono fun _ _ h h0 => absurd h h0

omit [KernelAlloc H] in
theorem writeCluster_device {buf : List UInt8} (hlen : buf.length = 512) :
    Returns (writeCluster (fallbackFs D.dev) cl buf) w := by
  have hbytes : (fallbackFs D.dev).bdev.sectorSize * (fallbackFs D.dev).sectorsPerCluster = 512 := by
    simp [fallbackFs, D.sector_size]
  unfold writeCluster
  rw [clToLba_fallback, hbytes]
  dsimp only
  rw [if_neg (by omega), List.take_of_length_le (by omega)]
  apply returns_bind (write_sector (dataSector_lt cl) hlen)
  rintro r w' -
  exact returns_pure _

theorem appendCluster_returns : Returns (appendCluster (fallbackFs D.dev) cl) w := by
  unfold appendCluster
  apply returns_bind fatAlloc_device
  rintro ncl w1 -
  split_ifs
  · exact returns_pure _
  apply returns_bind fatSet_device
  rintro _ w2 -
  apply returns_bind fatSet_device
  rintro _ w3 -
  exact returns_pure _

theorem nextOrAppend_returns : Returns (nextOrAppend (fallbackFs D.dev) cl) w := by
  unfold nextOrAppend
  apply returns_bind fatGet_sector
  rintro nxt w1 -
  split_ifs
  · exact appendCluster_returns
  · exact returns_pure _

theorem extendChain_returns (n : ℕ) : Returns (extendChain (fallbackFs D.dev) n cl) w := by
  induction n generalizing cl w with
  | zero => exact returns_pure _
  | succ n ih =>
    rw [extendChain]
    apply returns_bind appendCluster_returns
    rintro ncl w1 -
    split_ifs
    · exact returns_pure _
    · exact ih

theorem writeSkip_returns (k : ℕ) : Returns (writeSkip (fallbackFs D.dev) k cl) w := by
  induction k generalizing cl w with
  | zero => exact returns_pure _
  | succ k ih =>
    rw [writeSkip]
    apply returns_bind nextOrAppend_returns
    rintro nxt w1 -
    split_ifs
    · exact returns_pure _
    · exact ih

theorem writeLoop_returns {n skip : ℕ} {rest : List UInt8} (hn : rest.length ≤ n) (hskip : skip < 512) :
    Returns (writeLoop (fallbackFs D.dev) n cl skip rest) w := by
  induction n generalizing cl skip rest w with
  | zero =>
    obtain rfl := List.length_eq_zero_iff.mp (Nat.le_zero.mp hn)
    exact returns_pure _
  | succ n ih =>
    rw [writeLoop]
    split_ifs with hnil
    · exact returns_pure _
    have hpos := List.length_pos_iff.mpr hnil
    apply returns_bind (kmalloc_dev _)
    rintro (_ | p) w1 -
    · exact returns_pure _
    apply returns_bind readCluster_sector
    rintro r w2 ⟨-, rfl⟩
    split_ifs
    · dsimp only
      apply returns_bind (writeCluster_device (by rw [length_overlay, length_peek]))
      rintro rc w3 -
      apply returns_bind (kfree_dev p)
      rintro _ w4 -
      split_ifs
      · exact returns_pure _
      · exact returns_pure _
      apply returns_bind nextOrAppend_returns
      rintro nxt w5 -
      split_ifs
      · exact returns_pure _
      apply ih _ (by decide)
      have hsize : (fallbackFs D.dev).clusterSize = 512 := rfl
      rw [List.length_drop, hsize]
      omega
    · apply returns_bind (kfree_dev p)
      rintro _ w3 -
      exact returns_pure _

theorem dirUpdate_returns (oldFirst newFirst newSize : ℕ) :
    Returns (dirUpdateStreamByFirstCluster (fallbackFs D.dev) oldFirst newFirst newSize) w := by
  unfold dirUpdateStreamByFirstCluster
  apply returns_bind loadRoot_traced
  rintro (_ | ⟨p, dir⟩) w1 ⟨-, hdir⟩
  · exact returns_pure _
  have hlen : dir.length = 512 := by
    rw [(hdir p dir rfl).2, length_peek]
  dsimp only
  split
  · apply returns_bind (kfree_dev p)
    rintro _ w2 -
    exact returns_pure _
  · apply returns_bind (writeCluster_device (by rw [length_setStream, hlen]))
    rintro rc w2 -
    apply returns_bind (kfree_dev p)
    rintro _ w3 -
    exact returns_pure _

theorem ensureChainLength_returns_iff (first needed : ℕ) :
    (∃ fuel, Returns (ensureChainLength fuel (fallbackFs D.dev) first needed) w) ↔
      first < 2 ∨ ChainEnds D w.dev first := by
  have hwalk (fuel cl : ℕ) (w : World σ H) :
      Returns (chainEnd (fallbackFs D.dev) fuel cl 1) w ↔ EndsWithin D w.dev fuel cl := by
    constructor
    · rintro ⟨r, w', hrun, -⟩
      exact ((chainEnd_traced (E := fun _ => True) 1 fun _ => trivial).post hrun).2.1
    · intro h
      exact (chainEnd_traced (E := fun _ => False) 1 fun hnot => hnot h).wp.mono fun _ _ _ => trivial
  by_cases h2 : first < 2
  · refine iff_of_true ⟨1, ?_⟩ (.inl h2)
    unfold ensureChainLength
    rw [if_pos h2]
    apply returns_bind fatAlloc_device
    rintro ncl w1 hncl
    split_ifs with h0
    · exact returns_pure _
    apply returns_bind ((hwalk 1 ncl w1).mpr (.inl (hncl h0)))
    rintro r w2 -
    apply returns_bind (extendChain_returns _)
    rintro last w3 -
    exact returns_pure _
  · have hne : first ≠ 0 := by omega
    rw [or_iff_right h2]
    apply exists_congr
    intro fuel
    rw [← hwalk]
    unfold ensureChainLength
    rw [if_neg h2, pure_bind, if_neg hne]
    constructor
    · rintro ⟨r, w', hrun, -⟩
      obtain ⟨a, w1, h, -⟩ := bind_ok hrun
      exact ⟨a, w1, h, trivial⟩
    · intro h
      apply returns_bind h
      rintro r w1 -
      apply returns_bind (extendChain_returns _)
      rintro last w2 -
      exact returns_pure _

end Writing

theorem exfatCreate_returns (path : CString) : Returns (exfatCreate (fallbackFs D.dev) path) w := by
  unfold exfatCreate
  dsimp only
  split_ifs
  · exact returns_pure _
  apply returns_bind loadRoot_traced
  rintro (_ | ⟨p, dir⟩) w1 ⟨-, hdir⟩
  · exact returns_pure _
  have hlen : dir.length = 512 := by
    rw [(hdir p dir rfl).2, length_peek]
  dsimp only
  by_cases hfull : (fallbackFs D.dev).clusterSize < 32 *
      (findEnd dir (dir.length / 32) (dir.length / 32) 0 + (2 + nameEntries (fileName path)))
  · rw [if_pos hfull]
    apply returns_bind (kfree_dev p)
    rintro _ w2 -
    exact returns_pure _
  rw [if_neg hfull]
  apply returns_bind fatAlloc_device
  rintro ncl w2 -
  by_cases h0 : ncl = 0
  · rw [if_pos h0]
    apply returns_bind (kfree_dev p)
    rintro _ w3 -
    exact returns_pure _
  rw [if_neg h0]
  apply returns_bind (writeCluster_device (by split_ifs <;> simp only [length_overlay, hlen]))
  rintro rc w3 -
  apply returns_bind (kfree_dev p)
  rintro _ w4 -
  exact returns_pure _

/-- The first cluster of the file that `exfat_unlink` removes: `none` when it fails before. -/
def unlinkFirst (R : SectorReader σ) (w : World σ H) (path : CString) : Option ℕ :=
  let dir := peek (R.view w.dev) (512 * 1152) 512
  if fileName path = [] then none
  else if (KernelAlloc.kmalloc w.heap 512).1 = none ∨ R.sectors ≤ 1152 then none
  else (findByName dir 16 (fileName path) 16 0).map fun r => streamFirst dir r.1

theorem loadRoot_read : Wp (loadRoot (fallbackFs R.dev)) w fun r w' =>
    (r ≠ none → w' = ⟨w.dev, (KernelAlloc.kmalloc w.heap 512).2⟩) ∧
      r.map Prod.snd = if (KernelAlloc.kmalloc w.heap 512).1 = none ∨ R.sectors ≤ 1152 then none
        else some (peek (R.view w.dev) (512 * 1152) 512) := by
  have hheap : Wp (kmalloc 512) w fun r w' =>
      r = (KernelAlloc.kmalloc w.heap 512).1 ∧ w' = ⟨w.dev, (KernelAlloc.kmalloc w.heap 512).2⟩ := ⟨_, _, rfl, rfl, rfl⟩
  unfold loadRoot
  apply wp_bind hheap
  rintro (_ | p) w1 ⟨hr, rfl⟩
  · rw [← hr, if_pos (.inl rfl)]
    exact wp_pure ⟨fun h => absurd rfl h, rfl⟩
  have hsome : ¬ (KernelAlloc.kmalloc w.heap 512).1 = none := by
    rw [← hr]
    exact Option.some_ne_none p
  apply wp_bind readCluster_sector
  rintro r w2 ⟨rfl, rfl⟩
  rw [root_sector]
  rcases Nat.lt_or_ge 1152 R.sectors with hon | hoff
  · have hok : ¬ ((KernelAlloc.kmalloc w.heap 512).1 = none ∨ R.sectors ≤ 1152) :=
      not_or.mpr ⟨hsome, Nat.not_le_of_lt hon⟩
    rw [if_pos hon, if_neg hok]
    refine wp_pure ⟨fun _ => rfl, ?_⟩
    simp only [Option.map_some]
  · rw [if_neg (Nat.not_lt_of_le hoff), if_pos (.inr hoff)]
    apply wp_bind (kfree_dev p)
    rintro _ w3 -
    exact wp_pure ⟨fun h => absurd rfl h, rfl⟩

theorem exfatUnlink_frees (fuel : ℕ) (path : CString) : Returns (exfatUnlink fuel (fallbackFs D.dev) path) w ↔
    ∀ first ∈ unlinkFirst D w path,
      Returns (freeChain (fallbackFs D.dev) fuel first) ⟨w.dev, (KernelAlloc.kmalloc w.heap 512).2⟩ := by
  have hnone (P : ℕ → Prop) : ∀ first ∈ (none : Option ℕ), P first := fun first h => absurd h (Option.not_mem_none first)
  unfold exfatUnlink unlinkFirst
  dsimp only
  by_cases hname : fileName path = []
  · rw [if_pos hname, if_pos hname]
    exact iff_of_true (returns_pure _) (hnone _)
  rw [if_neg hname, if_neg hname]
  obtain ⟨r, w1, hload, hw1, hdir⟩ := loadRoot_read (R := D.toSectorReader) (w := w)
  rw [returns_bind_iff hload]
  by_cases hfail : (KernelAlloc.kmalloc w.heap 512).1 = none ∨ D.sectors ≤ 1152
  · rw [if_pos hfail] at hdir ⊢
    obtain rfl := Option.map_eq_none_iff.mp hdir
    exact iff_of_true (returns_pure _) (hnone _)
  rw [if_neg hfail] at hdir ⊢
  have hlen : (peek (D.view w.dev) (512 * 1152) 512).length = 512 := length_peek _ _ _
  generalize peek (D.view w.dev) (512 * 1152) 512 = dir at hdir hlen ⊢
  obtain ⟨⟨p, _⟩, rfl, rfl⟩ := Option.map_eq_some_iff.mp hdir
  obtain rfl := hw1 (Option.some_ne_none _)
  dsimp only at hlen ⊢
  rw [hlen]
  cases findByName _ 16 (fileName path) 16 0 with
  | none =>
    refine iff_of_true ?_ (hnone _)
    apply returns_bind (kfree_dev p)
    rintro _ w2 -
    exact returns_pure _
  | some q =>
    rw [Option.map_some]
    constructor
    · rintro ⟨r, w', hrun, -⟩ first hfirst
      obtain rfl := Option.some.inj hfirst
      obtain ⟨_, w2, hfree, -⟩ := bind_ok hrun
      exact ⟨_, _, hfree, trivial⟩
    · intro h
      apply returns_bind (h _ rfl)
      rintro _ w2 -
      apply returns_bind (writeCluster_device (by rw [length_overlay, hlen]))
      rintro rc w3 -
      apply returns_bind (kfree_dev p)
      rintro _ w4 -
      exact returns_pure _

theorem exfatUnlink_returns_iff (path : CString) :
    (∃ fuel, Returns (exfatUnlink fuel (fallbackFs D.dev) path) w) ↔
      D.writable = true ∨ ∀ first ∈ unlinkFirst D w path, ∃ n, FreesWithin D w.dev n first := by
  simp only [exfatUnlink_frees]
  cases hw : D.writable with
  | true =>
    refine iff_of_true ⟨(usedEntries D w.dev).card + 1, fun first _ => ?_⟩ (.inl rfl)
    exact freeChain_returns (S := ⟨D, hw⟩) (Nat.lt_succ_self _)
  | false =>
    simp only [freeChain_readonly hw, Bool.false_eq_true, false_or]
    cases unlinkFirst D w path with
    | none => simp
    | some first => simp

theorem exfatWrite_returns_iff (node : Node) (off : ℕ) (buf : List UInt8) :
    (∃ fuel, Returns (exfatWrite fuel (fallbackFs D.dev) node off buf) w) ↔
      node.isDir = true ∨ buf = [] ∨ node.firstCluster < 2 ∨ ChainEnds D w.dev node.firstCluster := by
  have hsize : (fallbackFs D.dev).clusterSize = 512 := rfl
  by_cases hdir : node.isDir = true
  · refine iff_of_true ⟨0, ?_⟩ (.inl hdir)
    rw [exfatWrite, if_pos hdir]
    exact returns_pure _
  by_cases hnil : buf = []
  · refine iff_of_true ⟨0, ?_⟩ (.inr (.inl hnil))
    rw [exfatWrite, if_neg hdir, if_pos hnil]
    exact returns_pure _
  rw [or_iff_right hdir, or_iff_right hnil, ← ensureChainLength_returns_iff _
    (((off + buf.length) % 2 ^ 64 + 512 + (2 ^ 64 - 1)) % 2 ^ 64 / 512)]
  apply exists_congr
  intro fuel
  unfold exfatWrite
  rw [if_neg hdir, if_neg hnil, hsize, if_neg (by decide)]
  dsimp only
  constructor
  · rintro ⟨r, w', hrun, -⟩
    obtain ⟨a, w1, hensure, -⟩ := bind_ok hrun
    exact ⟨a, w1, hensure, trivial⟩
  · intro hensure
    apply returns_bind hensure
    rintro r w1 -
    split
    · exact returns_pure _
    apply returns_bind (writeSkip_returns _)
    rintro cl w2 -
    split
    · exact returns_pure _
    apply returns_bind (writeLoop_returns (le_refl buf.length) (Nat.mod_lt off (by decide)))
    rintro ok w3 -
    split
    · exact returns_pure _
    apply returns_bind (dirUpdate_returns _ _ _)
    rintro _ w4 -
    exact returns_pure _

/-- On every disk with the assumed layout all calls return, with two exceptions: a write to a file whose chain runs
in a circle, which `ensure_chain_length` follows for ever, and on a read-only device the removal of such a file. -/
theorem calls_return_iff (D : SectorDevice σ) (w : World σ H) :
    (∀ path, Returns (exfatOpen (fallbackFs D.dev) path) w) ∧
    (∀ node off len, Returns (exfatRead (fallbackFs D.dev) node off len) w) ∧
    (∀ path, Returns (exfatCreate (fallbackFs D.dev) path) w) ∧
    (∀ path, (∃ fuel, Returns (exfatUnlink fuel (fallbackFs D.dev) path) w) ↔
      D.writable = true ∨ ∀ first ∈ unlinkFirst D w path, ∃ n, FreesWithin D w.dev n first) ∧
    ∀ node off buf, (∃ fuel, Returns (exfatWrite fuel (fallbackFs D.dev) node off buf) w) ↔
      node.isDir = true ∨ buf = [] ∨ node.firstCluster < 2 ∨ ChainEnds D w.dev node.firstCluster :=
  ⟨exfatOpen_returns, exfatRead_returns, exfatCreate_returns, exfatUnlink_returns_iff, exfatWrite_returns_iff⟩

end Calls

def selfLinked : Memory := fun a => if a = 4096 + 65536 + 12 then 3 else 0

theorem small_disk_end : (⟨4096, 590336⟩ : Ramdisk).data + (⟨4096, 590336⟩ : Ramdisk).bytes < 2 ^ 64 := by decide

theorem small_disk_size : (⟨4096, 590336⟩ : Ramdisk).bytes < 2 ^ 41 := by decide

def smallDisk : SectorStore Memory := ramdiskStore [0x72] ⟨4096, 590336⟩ small_disk_end small_disk_size

theorem selfLinked_of_endless {R : SectorReader σ} {s : σ} {c : ℕ} (hself : fatOf R s c = c) (h2 : 2 ≤ c)
    (hne : c ≠ eoc) (n : ℕ) : ¬ EndsWithin R s n c ∧ ¬ FreesWithin R s n c := by
  induction n with
  | zero => exact ⟨id, id⟩
  | succ n ih =>
    rw [EndsWithin, FreesWithin, hself]
    refine ⟨?_, ?_⟩
    · rintro (h | h | h)
      · exact hne h
      · omega
      · exact ih.1 h
    · rintro (h | h | h | h)
      · omega
      · omega
      · exact hne h
      · exact ih.2 h

theorem write_to_self_linked_chain_hangs :
    ¬ ∃ fuel, Returns (exfatWrite fuel (fallbackFs smallDisk.dev) ⟨3, false, 1⟩ 0 [0x41])
      (⟨selfLinked, ()⟩ : World Memory Unit) := by
  have hself : fatOf smallDisk selfLinked 3 = 3 := by decide +kernel
  rw [exfatWrite_returns_iff]
  rintro (h | h | h | ⟨n, h⟩)
  · exact Bool.noConfusion h
  · exact absurd h (by decide)
  · exact absurd h (by decide)
  · exact (selfLinked_of_endless hself (by decide) (by decide) n).1 h

def isoDisk : SectorDevice Memory :=
  memdiskSectors [0x69, 0x73, 0x6F, 0x30] ⟨4096, 590336, false⟩ (by decide) (by decide)

def loopedImage : Memory := poke selfLinked (4096 + 512 * 1152) (entrySet [0x61] 3)

theorem loopedName_terminated : 0 ∉ [(0x61 : UInt8)] := by decide

def loopedName : CString := ⟨[0x61], loopedName_terminated⟩

-- the image is no file system that the kernel has made, but `exfat_mount` takes any
theorem unlink_on_readonly_disk_hangs :
    ¬ ∃ fuel, Returns (exfatUnlink fuel (fallbackFs isoDisk.dev) loopedName)
      (⟨loopedImage, ()⟩ : World Memory Unit) := by
  have hfirst : unlinkFirst isoDisk (⟨loopedImage, ()⟩ : World Memory Unit) loopedName = some 3 := by
    decide +kernel
  have hself : fatOf isoDisk loopedImage 3 = 3 := by decide +kernel
  rw [exfatUnlink_returns_iff]
  rintro (h | h)
  · exact Bool.noConfusion h
  · obtain ⟨n, h⟩ := h 3 hfirst
    exact (selfLinked_of_endless hself (by decide) (by decide) n).2 h

end DexOs.Exfat
