import DexOs.ExfatTermination
import DexOs.ExfatRootCluster

/-! Clusters that lie past the end of the device: the allocator's limit is the length of the FAT. -/

namespace DexOs.Exfat

open DexOs.Lib

variable {σ H : Type} {S : SectorStore σ} {s : σ} {k : ℕ}

def rootSector (S : SectorStore σ) (s : σ) : List UInt8 := peek (S.view s) (512 * 1152) 512

def listedFiles (S : SectorStore σ) (s : σ) : List Dirent :=
  if 1152 < S.sectors then dirEntries (rootSector S s) else []

def ChainsFit (S : SectorStore σ) (s : σ) : Prop :=
  ∀ x ∈ listedFiles S s, ∀ c, OnChain (fatOf S s) x.firstCluster c → dataSector c < S.sectors

/-- A volume that nothing was written to, the FAT entry of the root directory apart. -/
def Fresh (S : SectorStore σ) (s : σ) : Prop := ∀ i, ¬ (65544 ≤ i ∧ i < 65548) → S.view s i = 0

section Allocation

structure UsedBelow (S : SectorStore σ) (s : σ) (k : ℕ) : Prop where
  used : ∀ c, 2 ≤ c → c < k → fatOf S s c ≠ 0
  free : ∀ c, k ≤ c → c < 131072 → fatOf S s c = 0

def taken (S : SectorStore σ) (s : σ) (k : ℕ) : σ :=
  put S (fatPut S s k eoc) (dataSector k) (List.replicate 512 0)

theorem InHeap.fat_on (hS : 1153 ≤ S.sectors) {c : ℕ} (h : InHeap c) : fatSector c < S.sectors :=
  h.fatSector_lt.trans (by omega)

theorem fatOf_taken (hS : 1153 ≤ S.sectors) (hk : InHeap k) {c : ℕ} (hc : InHeap c) :
    fatOf S (taken S s k) c = if c = k then eoc else fatOf S s c := by
  rw [taken, fatOf_put hk List.length_replicate hc, InHeap.fatOf_fatPut (hk.fat_on hS) hk (by decide) hc]

theorem UsedBelow.taken (hS : 1153 ≤ S.sectors) (hk : InHeap k) (h : UsedBelow S s k) :
    UsedBelow S (taken S s k) (k + 1) := by
  have hk2 := hk.1
  constructor
  · intro c h2 hlt
    rw [fatOf_taken hS hk ⟨h2, by have := hk.2; omega⟩]
    split_ifs with hck
    · decide
    · exact h.used c h2 (by omega)
  · intro c hle hlt
    rw [fatOf_taken hS hk ⟨by omega, hlt⟩, if_neg (by omega)]
    exact h.free c (by omega) hlt

theorem rootSector_put {c : ℕ} (hc : InHeap c) (h2 : c ≠ 2) {buf : List UInt8} (hlen : buf.length = 512) :
    rootSector S (put S s (dataSector c) buf) = rootSector S s := by
  unfold rootSector
  rcases Nat.lt_or_ge (dataSector c) S.sectors with hon | hoff
  · have hsec := hc.dataSector
    have hge := hc.1
    rw [view_put hon hlen, peek_poke_of_disjoint]
    omega
  · rw [put_out _ hoff (dataSector_lt c)]

theorem rootSector_fatPut (hS : 1153 ≤ S.sectors) {c val : ℕ} (hc : InHeap c) :
    rootSector S (fatPut S s c val) = rootSector S s := by
  have hlt := hc.2
  unfold rootSector
  rw [view_fatPut (hc.fat_on hS), hc.entryOf, peek_poke_of_disjoint]
  rw [length_leBytes]
  omega

theorem rootSector_taken (hS : 1153 ≤ S.sectors) (hk : InHeap k) (h2 : k ≠ 2) :
    rootSector S (taken S s k) = rootSector S s := by
  rw [taken, rootSector_put hk h2 List.length_replicate, rootSector_fatPut hS hk]

variable [KernelAlloc H] {w : World σ H} (ha : AllocOk H) (hS : 1153 ≤ S.sectors)

include ha

theorem kmalloc_some {n : ℕ} (hn : 0 < n) : Wp (kmalloc n) w fun r w' => (∃ p, r = some p) ∧ w'.dev = w.dev := by
  refine ⟨_, _, rfl, ?_, rfl⟩
  exact Option.ne_none_iff_exists'.mp (ha w.heap n hn)

include hS

theorem fatAllocFrom_lowest {n cl : ℕ} (h2 : 2 ≤ cl) (hle : cl ≤ k) (hlt : k < cl + n) (hn : cl + n ≤ 131072)
    (h : UsedBelow S w.dev k) :
    Wp (fatAllocFrom (fallbackFs S.dev) n cl) w fun r w' => r = k ∧ w'.dev = taken S w.dev k := by
  induction n generalizing cl with
  | zero => omega
  | succ n ih =>
    rw [fatAllocFrom]
    apply wp_bind fatGet_sector
    rintro v w1 ⟨rfl, rfl⟩
    rcases Nat.eq_or_lt_of_le hle with rfl | hless
    · have hcl : InHeap cl := ⟨h2, by omega⟩
      rw [if_pos (h.free cl (le_refl _) hcl.2)]
      apply wp_bind fatSet_sector
      rintro rc w2 (⟨-, rfl, rfl⟩ | ⟨hoff, -, -⟩)
      · rw [if_neg (not_not.mpr rfl)]
        apply wp_bind (kmalloc_some ha (Nat.succ_pos 511))
        rintro r w3 ⟨⟨p, rfl⟩, hw3⟩
        have hlen : (List.replicate (fallbackFs S.dev).clusterSize (0 : UInt8)).length = 512 := List.length_replicate
        apply wp_bind (writeCluster_sector hlen)
        rintro _ w4 ⟨rfl, -⟩
        apply wp_bind (kfree_dev p)
        rintro _ w5 hw5
        refine wp_pure ⟨rfl, ?_⟩
        rw [hw5, hw3]
        rfl
      · exact absurd (hcl.fat_on hS) (Nat.not_lt.mpr hoff)
    · rw [if_neg (h.used cl h2 hless)]
      exact ih (by omega) hless (by omega) (by omega)

theorem fatAlloc_lowest (hk : InHeap k) (h : UsedBelow S w.dev k) :
    Wp (fatAlloc (fallbackFs S.dev)) w fun r w' => r = k ∧ w'.dev = taken S w.dev k := by
  unfold fatAlloc
  rw [fallbackFs_entries]
  exact fatAllocFrom_lowest ha hS (le_refl 2) hk.1 hk.2 (le_refl _) h

end Allocation

section Growth

variable [KernelAlloc H] {w : World σ H} (ha : AllocOk H) (hS : 1153 ≤ S.sectors)

structure Consecutive (S : SectorStore σ) (s : σ) (f last : ℕ) : Prop where
  next : ∀ c, f ≤ c → c < last → fatOf S s c = c + 1
  ends : fatOf S s last = eoc

omit [KernelAlloc H] in
theorem Consecutive.reaches {f last : ℕ} (h : Consecutive S s f last) (hle : f ≤ last) (hlt : last < 131072) :
    Relation.ReflTransGen (fun a b => fatOf S s a = b ∧ b ≠ 0 ∧ b ≠ eoc) f last := by
  have heoc : eoc = 2 ^ 32 - 1 := rfl
  obtain ⟨n, rfl⟩ := Nat.exists_eq_add_of_le hle
  have hall : ∀ j ≤ n, Relation.ReflTransGen (fun a b => fatOf S s a = b ∧ b ≠ 0 ∧ b ≠ eoc) f (f + j) := by
    intro j
    induction j with
    | zero => exact fun _ => .refl
    | succ j ih =>
      intro hj
      exact (ih (by omega)).tail ⟨h.next (f + j) (by omega) (by omega), by omega, by omega⟩
  exact hall n (le_refl n)

omit [KernelAlloc H] in
include hS in
theorem fatSet_inHeap {cl val : ℕ} (hcl : InHeap cl) :
    Wp (fatSet (fallbackFs S.dev) cl val) w fun _ w' => w' = { w with dev := fatPut S w.dev cl val } := by
  apply fatSet_sector.mono
  rintro r w' (⟨-, -, rfl⟩ | ⟨hoff, -, -⟩)
  · rfl
  · exact absurd (hcl.fat_on hS) (Nat.not_lt.mpr hoff)

include ha hS

theorem appendCluster_lowest (hk : InHeap k) (h3 : 3 ≤ k) (h : UsedBelow S w.dev k) {f : ℕ} (hf : 2 ≤ f)
    (hcons : Consecutive S w.dev f (k - 1)) :
    Wp (appendCluster (fallbackFs S.dev) (k - 1)) w fun r w' => r = k ∧ UsedBelow S w'.dev (k + 1) ∧
      Consecutive S w'.dev f k ∧ rootSector S w'.dev = rootSector S w.dev := by
  have hlast : InHeap (k - 1) := ⟨by omega, by have := hk.2; omega⟩
  unfold appendCluster
  apply wp_bind (fatAlloc_lowest ha hS hk h)
  rintro r w1 ⟨hr, hw1⟩
  rw [hr, if_neg (by omega)]
  apply wp_bind (fatSet_inHeap hS hlast)
  rintro _ w2 rfl
  apply wp_bind (fatSet_inHeap hS hk)
  rintro _ w3 rfl
  have hfat : ∀ c, InHeap c → fatOf S (fatPut S (fatPut S w1.dev (k - 1) k) k eoc) c =
      if c = k then eoc else if c = k - 1 then k else fatOf S w.dev c := by
    intro c hc
    rw [InHeap.fatOf_fatPut (hk.fat_on hS) hk (by decide) hc,
      InHeap.fatOf_fatPut (hlast.fat_on hS) hlast (lt_trans hk.2 (by decide)) hc, hw1, fatOf_taken hS hk hc]
    split_ifs <;> rfl
  refine wp_pure ⟨rfl, ⟨?_, ?_⟩, ⟨?_, ?_⟩, ?_⟩
  · intro c h2 hlt
    rw [hfat c ⟨h2, by have := hk.2; omega⟩]
    split_ifs
    · decide
    · omega
    · exact h.used c h2 (by omega)
  · intro c hle hlt
    rw [hfat c ⟨by omega, hlt⟩, if_neg (by omega), if_neg (by omega)]
    exact h.free c (by omega) hlt
  · intro c hle hlt
    rw [hfat c ⟨by omega, by have := hk.2; omega⟩, if_neg (by omega)]
    split_ifs with hc
    · omega
    · exact hcons.next c hle (by omega)
  · rw [hfat k hk, if_pos rfl]
  · rw [rootSector_fatPut hS hk, rootSector_fatPut hS hlast, hw1, rootSector_taken hS hk (by omega)]

theorem extendChain_lowest (n : ℕ) (h3 : 3 ≤ k) (hn : k + n ≤ 131072) (h : UsedBelow S w.dev k) {f : ℕ}
    (hf : 2 ≤ f) (hcons : Consecutive S w.dev f (k - 1)) :
    Wp (extendChain (fallbackFs S.dev) n (k - 1)) w fun r w' => r = k - 1 + n ∧
      Consecutive S w'.dev f (k - 1 + n) ∧ rootSector S w'.dev = rootSector S w.dev := by
  induction n generalizing k w with
  | zero => exact wp_pure ⟨rfl, hcons, rfl⟩
  | succ n ih =>
    rw [extendChain]
    apply wp_bind (appendCluster_lowest ha hS ⟨by omega, by omega⟩ h3 h hf hcons)
    rintro r w1 ⟨hr, hused, hcons1, hroot1⟩
    rw [hr, if_neg (by omega)]
    apply (ih (by omega) (by omega) hused hcons1).mono
    rintro r w' ⟨hr, hcons', hroot'⟩
    refine ⟨by omega, ?_, hroot'.trans hroot1⟩
    rwa [show k - 1 + (n + 1) = k + 1 - 1 + n by omega]

omit [KernelAlloc H] ha hS in
theorem writeSkip_consecutive [KernelAlloc H] {f last cl j : ℕ} (hlast : last < 131072)
    (hcons : Consecutive S w.dev f last) (hle : f ≤ cl) (hj : cl + j = last) :
    Wp (writeSkip (fallbackFs S.dev) j cl) w fun r w' => r = last ∧ w' = w := by
  induction j generalizing cl with
  | zero => exact wp_pure ⟨by omega, rfl⟩
  | succ j ih =>
    have heoc : eoc = 2 ^ 32 - 1 := rfl
    rw [writeSkip]
    have hnext : Wp (nextOrAppend (fallbackFs S.dev) cl) w fun r w' => r = cl + 1 ∧ w' = w := by
      unfold nextOrAppend
      apply wp_bind fatGet_sector
      rintro nxt w1 ⟨rfl, rfl⟩
      rw [hcons.next cl hle (by omega), if_neg (by omega)]
      exact wp_pure ⟨rfl, rfl⟩
    apply wp_bind hnext
    rintro _ w1 ⟨rfl, rfl⟩
    rw [if_neg (by omega)]
    exact ih (by omega) (by omega)

end Growth

def forgedRoot : List UInt8 := overlay (List.replicate 512 0) 0 (entrySet [98] (2 ^ 31))

theorem forgedRoot_entries : dirEntries forgedRoot = [⟨2 ^ 31, 0, false, [98]⟩] ∧
    findByFirst forgedRoot 16 2 16 0 = none := by decide +kernel

theorem overlay_whole {b bs : List UInt8} (h : bs.length = b.length) : overlay b 0 bs = bs := by
  rw [overlay_zero h.le, h, List.drop_length, List.append_nil]

section FirstFile

variable [KernelAlloc H] {w : World σ H} (ha : AllocOk H) (hS : 1153 ≤ S.sectors)

def rootWithA (k : ℕ) : List UInt8 := overlay (overlay (List.replicate 512 0) 0 (entrySet [97] k)) 96 [0]

theorem length_rootWithA (k : ℕ) : (rootWithA k).length = 512 := by
  rw [rootWithA, length_overlay, length_overlay, List.length_replicate]

theorem rootSector_put_root (hS : 1153 ≤ S.sectors) {dir : List UInt8} (hlen : dir.length = 512) :
    rootSector S (put S s 1152 dir) = dir := by
  unfold rootSector
  rw [view_put (by omega) hlen]
  have hself := peek_poke_self (S.view s) (512 * 1152) dir
  rwa [hlen] at hself

theorem fatOf_put_root {c : ℕ} (hc : InHeap c) {dir : List UInt8} (hlen : dir.length = 512) :
    fatOf S (put S s 1152 dir) c = fatOf S s c := by
  have htwo : InHeap 2 := ⟨le_refl 2, by decide⟩
  have hput := fatOf_put (S := S) (s := s) htwo hlen hc
  rwa [htwo.dataSector] at hput

include ha hS

theorem loadRoot_present : Wp (loadRoot (fallbackFs S.dev)) w fun r w' =>
    w'.dev = w.dev ∧ ∃ p, r = some (p, rootSector S w.dev) := by
  unfold loadRoot
  apply wp_bind (kmalloc_some ha (Nat.succ_pos 511))
  rintro r w1 ⟨⟨p, rfl⟩, hw1⟩
  apply wp_bind readCluster_sector
  rintro r w2 ⟨rfl, rfl⟩
  rw [root_sector, if_pos (by omega)]
  refine wp_pure ⟨hw1, p, ?_⟩
  rw [hw1]
  rfl

theorem exfatCreate_first (hk : InHeap k) (h : UsedBelow S w.dev k)
    (hroot : rootSector S w.dev = List.replicate 512 0) :
    Wp (exfatCreate (fallbackFs S.dev) pathA) w fun r w' =>
      r = 0 ∧ w'.dev = put S (taken S w.dev k) 1152 (rootWithA k) := by
  have hname : fileName pathA = [97] := by decide
  have hend : findEnd (List.replicate 512 0) 16 16 0 = 0 := by decide +kernel
  have hsize : (fallbackFs S.dev).clusterSize = 512 := rfl
  have hentries : nameEntries [97] = 1 := by decide
  unfold exfatCreate
  rw [hname]
  dsimp only
  rw [if_neg (by decide)]
  apply wp_bind (loadRoot_present ha hS)
  rintro r w1 ⟨hw1, p, rfl⟩
  dsimp only
  rw [hroot, List.length_replicate, show 512 / 32 = 16 by decide, hend, hentries, hsize, if_neg (by decide)]
  apply wp_bind (fatAlloc_lowest ha hS hk (hw1 ▸ h))
  rintro cl w2 ⟨hcl, hw2⟩
  have hk2 := hk.1
  rw [hcl, if_neg (by omega), if_pos (by decide)]
  apply wp_bind (writeCluster_sector (length_rootWithA k))
  rintro rc w3 ⟨rfl, hrc⟩
  rw [root_sector] at hrc ⊢
  apply wp_bind (kfree_dev p)
  rintro _ w4 hw4
  refine wp_pure ⟨?_, ?_⟩
  · rw [hrc, if_pos (by omega)]
  · rw [hw4, hw2, hw1]

theorem exfatOpen_first (hroot : rootSector S w.dev = rootWithA k)
    (hlist : dirEntries (rootWithA k) = [⟨k, 0, false, [97]⟩]) :
    Wp (exfatOpen (fallbackFs S.dev) pathA) w fun r w' => r = some ⟨k, false, 0⟩ ∧ w'.dev = w.dev := by
  unfold exfatOpen
  apply wp_bind (kmalloc_some ha (by decide))
  rintro r w1 ⟨⟨n, rfl⟩, hw1⟩
  apply wp_bind (kmalloc_some ha (by decide))
  rintro r w2 ⟨⟨vn, rfl⟩, hw2⟩
  dsimp only
  rw [if_neg (by decide)]
  have hscan : Wp (dirScanRoot (fallbackFs S.dev) 32) w2 fun r w' =>
      r = [⟨k, 0, false, [97]⟩] ∧ w'.dev = w.dev := by
    unfold dirScanRoot
    apply wp_bind (loadRoot_present ha hS)
    rintro r w3 ⟨hw3, p, rfl⟩
    apply wp_bind (kfree_dev p)
    rintro _ w4 hw4
    refine wp_pure ⟨?_, ?_⟩
    · rw [hw2, hw1, hroot, hlist]
      rfl
    · rw [hw4, hw3, hw2, hw1]
  apply wp_bind hscan
  rintro r w3 ⟨rfl, hw3⟩
  exact wp_pure ⟨rfl, hw3⟩

omit [KernelAlloc H] ha hS in
theorem ensureChainLength_single [KernelAlloc H] {fuel first needed : ℕ} {Q : ℕ × ℕ → World σ H → Prop}
    (hfuel : 0 < fuel) (h2 : 2 ≤ first) (hend : fatOf S w.dev first = eoc)
    (hext : Wp (extendChain (fallbackFs S.dev) (needed - 1) first) w fun last w' => Q (last, first) w') :
    Wp (ensureChainLength fuel (fallbackFs S.dev) first needed) w Q := by
  unfold ensureChainLength
  rw [if_neg (by omega)]
  apply wp_bind (wp_pure (Q := fun a w' => first = a ∧ w = w') ⟨rfl, rfl⟩)
  rintro _ _ ⟨rfl, rfl⟩
  rw [if_neg (by omega)]
  have hchain : Wp (chainEnd (fallbackFs S.dev) fuel first 1) w fun r w' => r = (first, 1) ∧ w = w' := by
    obtain ⟨n, rfl⟩ := Nat.exists_eq_succ_of_ne_zero hfuel.ne'
    rw [Nat.succ_eq_add_one, chainEnd]
    apply wp_bind fatGet_sector
    rintro next w1 ⟨rfl, rfl⟩
    rw [if_pos (.inl hend)]
    exact wp_pure ⟨rfl, rfl⟩
  apply wp_bind hchain
  rintro _ _ ⟨rfl, rfl⟩
  apply wp_bind hext
  intro last w' hq
  exact wp_pure hq

theorem exfatWrite_forges {fuel : ℕ} (hfuel : 0 < fuel) (hend : fatOf S w.dev 2 = eoc) :
    Wp (exfatWrite fuel (fallbackFs S.dev) ⟨2, false, 0⟩ 0 forgedRoot) w fun _ w' =>
      rootSector S w'.dev = forgedRoot := by
  have hlen : forgedRoot.length = 512 := by rw [forgedRoot, length_overlay, List.length_replicate]
  have hne : forgedRoot ≠ [] := List.ne_nil_of_length_pos (by omega)
  have hsize : (fallbackFs S.dev).clusterSize = 512 := rfl
  have hneeded : ((0 + forgedRoot.length) % 2 ^ 64 + 512 + (2 ^ 64 - 1)) % 2 ^ 64 / 512 = 1 := by
    rw [hlen]
    decide
  unfold exfatWrite
  rw [if_neg (by decide), if_neg hne, hsize, if_neg (by decide)]
  dsimp only
  rw [hneeded]
  apply wp_bind (ensureChainLength_single (Q := fun r w' => r = (2, 2) ∧ w' = w) hfuel (le_refl 2) hend
    (wp_pure ⟨rfl, rfl⟩))
  rintro _ w1 ⟨rfl, rfl⟩
  dsimp only
  rw [if_neg (by decide)]
  apply wp_bind (wp_pure (Q := fun r w' => r = 2 ∧ w1 = w') ⟨rfl, rfl⟩)
  rintro _ _ ⟨rfl, rfl⟩
  rw [if_neg (by decide)]
  have htwo : dataSector 2 = 1152 := InHeap.dataSector ⟨le_refl 2, by decide⟩
  have hloop : Wp (writeLoop (fallbackFs S.dev) forgedRoot.length 2 (0 % 512) forgedRoot) w1 fun _ w' =>
      rootSector S w'.dev = forgedRoot := by
    rw [hlen, writeLoop, if_neg hne]
    apply wp_bind (kmalloc_some ha (Nat.succ_pos 511))
    rintro r w2 ⟨⟨p, rfl⟩, hw2⟩
    apply wp_bind readCluster_sector
    rintro r w3 ⟨rfl, rfl⟩
    rw [htwo, if_pos (by omega), hsize, hlen]
    dsimp only
    rw [show min 512 (512 - 0 % 512) = 512 by decide, List.take_of_length_le (by omega), Nat.zero_mod,
      overlay_whole (by rw [hlen, length_peek])]
    apply wp_bind (writeCluster_sector hlen)
    rintro rc w4 ⟨rfl, hrc⟩
    rw [htwo, if_pos (by omega)] at hrc
    apply wp_bind (kfree_dev p)
    rintro _ w5 hw5
    rw [hrc, if_neg (not_not.mpr rfl), if_pos (le_refl _)]
    refine wp_pure ?_
    rw [hw5, htwo]
    exact rootSector_put_root hS hlen
  apply wp_bind hloop
  rintro ok w2 hroot
  by_cases hok : ok = false
  · rw [if_pos hok]
    exact wp_pure hroot
  rw [if_neg hok, if_pos (by decide)]
  have hupdate : Wp (dirUpdateStreamByFirstCluster (fallbackFs S.dev) 2 2
      (max 0 ((0 + forgedRoot.length) % 2 ^ 64))) w2 fun _ w' => rootSector S w'.dev = forgedRoot := by
    unfold dirUpdateStreamByFirstCluster
    apply wp_bind (loadRoot_present ha hS)
    rintro r w3 ⟨hw3, p, rfl⟩
    dsimp only
    rw [hroot, hlen, show 512 / 32 = 16 by decide, forgedRoot_entries.2]
    apply wp_bind (kfree_dev p)
    rintro _ w4 hw4
    refine wp_pure ?_
    rw [hw4, hw3, hroot]
  apply wp_bind hupdate
  intro _ w3 h3
  exact wp_pure h3

theorem exfatWrite_grows {fuel n : ℕ} (hfuel : 0 < fuel) (hn : 3 + n < 131072) (hoff : S.sectors ≤ 1153 + n)
    (hused : UsedBelow S w.dev 4) (hend : fatOf S w.dev 3 = eoc) :
    Wp (exfatWrite fuel (fallbackFs S.dev) ⟨3, false, 0⟩ (512 * n) [0]) w fun _ w' =>
      Consecutive S w'.dev 3 (3 + n) ∧ rootSector S w'.dev = rootSector S w.dev := by
  have hsize : (fallbackFs S.dev).clusterSize = 512 := rfl
  have hneeded : ((512 * n + 1) % 2 ^ 64 + 512 + (2 ^ 64 - 1)) % 2 ^ 64 / 512 = n + 1 := by omega
  have hstart : Consecutive S w.dev 3 (4 - 1) := ⟨fun c hle hlt => by omega, hend⟩
  have hlast : InHeap (3 + n) := ⟨by omega, hn⟩
  unfold exfatWrite
  rw [if_neg (by decide), if_neg (by decide), hsize, if_neg (by decide)]
  dsimp only
  rw [List.length_singleton, hneeded]
  have hext : Wp (extendChain (fallbackFs S.dev) (n + 1 - 1) 3) w fun r w' => (r, 3) = (3 + n, 3) ∧
      Consecutive S w'.dev 3 (3 + n) ∧ rootSector S w'.dev = rootSector S w.dev := by
    apply (extendChain_lowest ha hS n (show 3 ≤ 4 by decide) (by omega) hused (show 2 ≤ 3 by decide) hstart).mono
    rintro r w' ⟨rfl, hcons, hroot⟩
    exact ⟨rfl, hcons, hroot⟩
  apply wp_bind (ensureChainLength_single (Q := fun r w' => r = (3 + n, 3) ∧ Consecutive S w'.dev 3 (3 + n) ∧
    rootSector S w'.dev = rootSector S w.dev) hfuel (by decide) hend hext)
  rintro r w1 ⟨rfl, hcons, hroot⟩
  dsimp only
  rw [if_neg (by omega), Nat.mul_div_cancel_left n (by decide)]
  apply wp_bind (writeSkip_consecutive hn hcons (le_refl 3) rfl)
  rintro r w2 ⟨rfl, rfl⟩
  rw [if_neg (by omega)]
  have hloop : Wp (writeLoop (fallbackFs S.dev) 1 (3 + n) (512 * n % 512) [0]) w2 fun r w' =>
      r = false ∧ w'.dev = w2.dev := by
    rw [writeLoop, if_neg (by decide)]
    apply wp_bind (kmalloc_some ha (Nat.succ_pos 511))
    rintro r w3 ⟨⟨p, rfl⟩, hw3⟩
    apply wp_bind readCluster_sector
    rintro r w4 ⟨rfl, rfl⟩
    rw [if_neg (by rw [hlast.dataSector]; omega)]
    apply wp_bind (kfree_dev p)
    rintro _ w5 hw5
    exact wp_pure ⟨rfl, hw5.trans hw3⟩
  apply wp_bind hloop
  rintro _ w3 ⟨rfl, hw3⟩
  rw [if_pos rfl, ← hroot, ← hw3]
  exact wp_pure ⟨hw3 ▸ hcons, rfl⟩

end FirstFile

section Sessions

variable [KernelAlloc H]

/-- Calls on a mounted device: the files that are open so far are kept as they were opened or as the last
write through them has left them. -/
inductive Session (fuel : ℕ) (S : SectorStore σ) (w₀ : World σ H) : World σ H → List Node → Prop
  | mount {fs : Fs σ} {w : World σ H} (h : exfatMount S.dev w₀ = .ok (some fs, w)) : Session fuel S w₀ w []
  | create {w w' : World σ H} {hs : List Node} {r : ℤ} (hrun : Session fuel S w₀ w hs) (path : CString)
    (h : exfatCreate (fallbackFs S.dev) path w = .ok (r, w')) : Session fuel S w₀ w' hs
  | openFile {w w' : World σ H} {hs : List Node} {r : Option Node} (hrun : Session fuel S w₀ w hs) (path : CString)
    (h : exfatOpen (fallbackFs S.dev) path w = .ok (r, w')) : Session fuel S w₀ w' (r.toList ++ hs)
  | write {w w' : World σ H} {hs : List Node} {r : ℤ × Node} (hrun : Session fuel S w₀ w hs) (node : Node)
    (hnode : node ∈ hs) (off : ℕ) (buf : List UInt8)
    (h : exfatWrite fuel (fallbackFs S.dev) node off buf w = .ok (r, w')) : Session fuel S w₀ w' (r.2 :: hs)

/-- After every session, on any kernel heap, the chains of the files fit on the device. -/
def KeepsFit (fuel : ℕ) (S : SectorStore σ) (s : σ) : Prop :=
  ∀ (H : Type) [KernelAlloc H] (heap : H) (w : World σ H) (hs : List Node),
    Session fuel S ⟨s, heap⟩ w hs → ChainsFit S w.dev

omit [KernelAlloc H] in
theorem Fresh.fat (hs : Fresh S s) {c : ℕ} (hc : InHeap c) : fatOf S s c = if c = 2 then fatOf S s 2 else 0 := by
  have hlt := hc.2
  split_ifs with h2
  · rw [h2]
  · unfold fatOf
    split_ifs
    · rw [hc.entryOf]
      have hzero : leNat (S.view s) 4 (65536 + 4 * c) = leNat (fun _ => 0) 4 (65536 + 4 * c) :=
        leNat_congr fun i hi => hs _ (by omega)
      rw [hzero]
      rfl
    · rfl

omit [KernelAlloc H] in
theorem Fresh.root (hs : Fresh S s) : rootSector S s = List.replicate 512 0 := by
  apply List.eq_replicate_iff.mpr
  refine ⟨length_peek _ _ _, fun b hb => ?_⟩
  obtain ⟨i, -, rfl⟩ := List.mem_map.mp hb
  exact hs _ (by omega)

omit [KernelAlloc H] in
theorem Fresh.usedBelow (hs : Fresh S s) : UsedBelow S s (if fatOf S s 2 = 0 then 2 else 3) := by
  split_ifs with h2
  · refine ⟨fun c hge hlt => by omega, fun c hle hlt => ?_⟩
    rw [hs.fat ⟨hle, hlt⟩, h2, ite_self]
  · refine ⟨fun c hge hlt => ?_, fun c hle hlt => ?_⟩
    · obtain rfl : c = 2 := by omega
      exact h2
    · rw [hs.fat ⟨by omega, hlt⟩, if_neg (by omega)]

omit [KernelAlloc H] in
theorem Fresh.unsigned (hs : Fresh S s) : Unsigned S s := by
  intro h
  have hbyte := congrArg (fun l => byteAt l 0) h
  simp only [byteAt_peek (S.view s) 3 (show 0 < 8 by decide), hs (3 + 0) (by decide)] at hbyte
  exact absurd hbyte (by decide)

theorem rootWithA_entries : dirEntries (rootWithA 2) = [⟨2, 0, false, [97]⟩] ∧
    dirEntries (rootWithA 3) = [⟨3, 0, false, [97]⟩] := by decide +kernel

omit [KernelAlloc H] in
theorem session_first_file (fuel : ℕ) (hS : 1153 ≤ S.sectors) (hs : Fresh S s) (hk : InHeap k)
    (hused : UsedBelow S s k) (hlist : dirEntries (rootWithA k) = [⟨k, 0, false, [97]⟩]) :
    ∃ (w : World σ Unit) (hs : List Node), Session fuel S ⟨s, ()⟩ w hs ∧ ⟨k, false, 0⟩ ∈ hs ∧
      w.dev = put S (taken S s k) 1152 (rootWithA k) := by
  obtain ⟨r, w1, hmount, hw1, -, hr⟩ := exfatMount_spec (w := (⟨s, ()⟩ : World σ Unit)) (by omega) hs.unsigned
  have hw1 : w1.dev = s := hw1
  rw [hr allocOk_unit] at hmount
  obtain ⟨r, w2, hcreate, -, hw2⟩ := exfatCreate_first allocOk_unit hS hk (hw1 ▸ hused) (hw1 ▸ hs.root)
  have hroot : rootSector S w2.dev = rootWithA k := by
    rw [hw2]
    exact rootSector_put_root hS (length_rootWithA k)
  obtain ⟨r, w3, hopen, rfl, hw3⟩ := exfatOpen_first allocOk_unit hS hroot hlist
  refine ⟨w3, _, .openFile (.create (.mount hmount) pathA hcreate) pathA hopen, ?_, ?_⟩
  · exact List.mem_append_left _ (List.mem_singleton_self _)
  · rw [hw3, hw2, hw1]

omit [KernelAlloc H] in
theorem not_keepsFit_of_root_free {fuel : ℕ} (hfuel : 0 < fuel) (hS : 1153 ≤ S.sectors) (hmax : S.sectors ≤ 2 ^ 31)
    (hs : Fresh S s) (hfree : fatOf S s 2 = 0) : ¬ KeepsFit fuel S s := by
  intro hkeep
  have htwo : InHeap 2 := ⟨le_refl 2, by decide⟩
  have hused : UsedBelow S s 2 := by
    have := hs.usedBelow
    rwa [if_pos hfree] at this
  obtain ⟨w, nodes, hsession, hnode, hw⟩ := session_first_file fuel hS hs htwo hused rootWithA_entries.1
  have hend : fatOf S w.dev 2 = eoc := by
    rw [hw, fatOf_put_root htwo (length_rootWithA 2), fatOf_taken hS htwo htwo, if_pos rfl]
  obtain ⟨r, w', hwrite, hroot⟩ := exfatWrite_forges allocOk_unit hS hfuel hend
  have hfit := hkeep Unit () w' _ (.write hsession ⟨2, false, 0⟩ hnode 0 forgedRoot hwrite)
  have hmem : (⟨2 ^ 31, 0, false, [98]⟩ : Dirent) ∈ listedFiles S w'.dev := by
    rw [listedFiles, if_pos (by omega), hroot, forgedRoot_entries.1]
    exact List.mem_singleton_self _
  have hlt := hfit _ hmem (2 ^ 31) ⟨by decide, .refl⟩
  rw [show dataSector (2 ^ 31) = 2 ^ 31 + 1150 by decide] at hlt
  omega

omit [KernelAlloc H] in
theorem not_keepsFit_of_small {fuel : ℕ} (hfuel : 0 < fuel) (hS : 1153 ≤ S.sectors) (hmax : S.sectors < 132222)
    (hs : Fresh S s) (hroot : fatOf S s 2 ≠ 0) : ¬ KeepsFit fuel S s := by
  intro hkeep
  have hthree : InHeap 3 := ⟨by decide, by decide⟩
  have hused : UsedBelow S s 3 := by
    have := hs.usedBelow
    rwa [if_neg hroot] at this
  obtain ⟨w, nodes, hsession, hnode, hw⟩ := session_first_file fuel hS hs hthree hused rootWithA_entries.2
  have hfat : ∀ c, InHeap c → fatOf S w.dev c = fatOf S (taken S s 3) c := by
    intro c hc
    rw [hw, fatOf_put_root hc (length_rootWithA 3)]
  have hend : fatOf S w.dev 3 = eoc := by
    rw [hfat 3 hthree, fatOf_taken hS hthree hthree, if_pos rfl]
  have hused' : UsedBelow S w.dev 4 := by
    have htaken := hused.taken hS hthree
    constructor
    · intro c h2 hlt
      rw [hfat c ⟨h2, by omega⟩]
      exact htaken.used c h2 hlt
    · intro c hle hlt
      rw [hfat c ⟨by omega, hlt⟩]
      exact htaken.free c hle hlt
  -- the last cluster of the grown chain is the first one past the end of the device
  obtain ⟨n, hn⟩ := Nat.exists_eq_add_of_le hS
  obtain ⟨r, w', hwrite, hcons, hsame⟩ :=
    exfatWrite_grows allocOk_unit hS hfuel (show 3 + n < 131072 by omega) (by omega) hused' hend
  have hfit := hkeep Unit () w' _ (.write hsession ⟨3, false, 0⟩ hnode (512 * n) [0] hwrite)
  have hmem : (⟨3, 0, false, [97]⟩ : Dirent) ∈ listedFiles S w'.dev := by
    rw [listedFiles, if_pos (by omega), hsame, hw, rootSector_put_root hS (length_rootWithA 3), rootWithA_entries.2]
    exact List.mem_singleton_self _
  have hlt := hfit _ hmem (3 + n) ⟨by decide, hcons.reaches (by omega) (by omega)⟩
  rw [InHeap.dataSector ⟨by omega, by omega⟩] at hlt
  omega

section Large

variable (hS : 1153 ≤ S.sectors)

/-- What a session keeps on a volume whose root directory is marked in the FAT: the files have their own
chains, and a handle is a directory or belongs to a file that is still there. -/
structure Intact (w : World σ H) (hs : List Node) : Prop where
  wellFormed : WellFormed (fallbackDisk S hS) ((fallbackDisk S hS).vol w)
  handles : ∀ node ∈ hs, node.isDir = true ∨
    node.firstCluster ∈ (fallbackDisk S hS).firsts ((fallbackDisk S hS).vol w) ∧ node.size < 2 ^ 64

variable {hS} {w : World σ H} {hs : List Node}

omit [KernelAlloc H] in
theorem Intact.later {w' : World σ H} (h : Intact hS w hs)
    (hw : WellFormed (fallbackDisk S hS) ((fallbackDisk S hS).vol w'))
    (hfirsts : ∀ f ∈ (fallbackDisk S hS).firsts ((fallbackDisk S hS).vol w),
      f ∈ (fallbackDisk S hS).firsts ((fallbackDisk S hS).vol w')) : Intact hS w' hs := by
  refine ⟨hw, fun node hnode => ?_⟩
  rcases h.handles node hnode with hdir | ⟨hf, hsize⟩
  · exact .inl hdir
  · exact .inr ⟨hfirsts _ hf, hsize⟩

theorem Intact.create (h : Intact hS w hs) (path : CString) :
    Wp (exfatCreate (fallbackFs S.dev) path) w fun _ w' => Intact hS w' hs := by
  have hspec : Wp (exfatCreate (fallbackDisk S hS).fs path) w _ := exfatCreate_spec
  apply hspec.mono
  rintro r w' (⟨-, hk, -⟩ | ⟨-, -, cl, hc⟩)
  · apply h.later (hk.wellFormed h.wellFormed)
    intro f hf
    rwa [Disk.firsts, Disk.listed, hk.dir h.wellFormed.root_used]
  · have hlen := (fallbackDisk S hS).dir_length w
    apply h.later (hc.wellFormed (fileName_no_zero path) hlen h.wellFormed)
    intro f hf
    rw [Disk.firsts, hc.listed (fileName_no_zero path) hlen, List.map_append]
    exact List.mem_append_left _ hf

theorem Intact.openFile (h : Intact hS w hs) (path : CString) :
    Wp (exfatOpen (fallbackFs S.dev) path) w fun r w' => Intact hS w' (r.toList ++ hs) := by
  have hkeep : ∀ {w' : World σ H}, (fallbackDisk S hS).vol w' = (fallbackDisk S hS).vol w → Intact hS w' hs := by
    intro w' hv
    exact ⟨hv ▸ h.wellFormed, hv ▸ h.handles⟩
  have hcons : ∀ {w' : World σ H} {node : Node}, Intact hS w' hs → (node.isDir = true ∨ node.firstCluster ∈
      (fallbackDisk S hS).firsts ((fallbackDisk S hS).vol w') ∧ node.size < 2 ^ 64) → Intact hS w' (node :: hs) := by
    intro w' node hw' hnode
    exact ⟨hw'.wellFormed, List.forall_mem_cons.mpr ⟨hnode, hw'.handles⟩⟩
  cases hpath : pathIsRoot path with
  | true =>
    have hspec : Wp (exfatOpen (fallbackDisk S hS).fs path) w _ := exfatOpen_root hpath
    apply hspec.mono
    rintro _ w' ⟨hv, rfl | rfl⟩
    · exact hkeep hv
    · exact hcons (hkeep hv) (.inl rfl)
  | false =>
    have hspec : Wp (exfatOpen (fallbackDisk S hS).fs path) w _ := exfatOpen_spec hpath
    apply hspec.mono
    rintro (_ | node) w' ⟨hv, hr, -⟩
    · exact hkeep hv
    · obtain ⟨x, hx, rfl⟩ := Option.map_eq_some_iff.mp (hr.resolve_left (by simp)).symm
      have hmem := Disk.lookup_mem hx
      apply hcons (hkeep hv)
      rw [hv]
      exact .inr ⟨List.mem_map_of_mem hmem, size_lt hmem⟩

theorem Intact.write {fuel : ℕ} (hfuel : 131072 ≤ fuel) (h : Intact hS w hs) {node : Node} (hnode : node ∈ hs)
    (off : ℕ) (buf : List UInt8) :
    Wp (exfatWrite fuel (fallbackFs S.dev) node off buf) w fun r w' => Intact hS w' (r.2 :: hs) := by
  have hent : (fallbackDisk S hS).fs.entries ≤ fuel := (fallbackFs_entries S.dev).trans_le hfuel
  by_cases hrefuse : node.isDir = true ∨ buf = []
  · apply (exfatWrite_refused hrefuse).mono
    rintro r w' ⟨hr, rfl⟩
    rw [hr]
    exact ⟨h.wellFormed, List.forall_mem_cons.mpr ⟨h.handles node hnode, h.handles⟩⟩
  · obtain ⟨hfile, hbuf⟩ := not_or.mp hrefuse
    obtain ⟨hf, hsize⟩ := (h.handles node hnode).resolve_left hfile
    obtain ⟨ch, ho⟩ := h.wellFormed.owned
    have hroot := h.wellFormed.root_used
    have hspec : Wp (exfatWrite fuel (fallbackDisk S hS).fs node off buf) w _ :=
      exfatWrite_spec off (ho.chain _ hf) hroot hent (Bool.not_eq_true _ ▸ hfile) (clusterSize_pos_of_first hf) hsize hbuf
    have hwf : Wp (exfatWrite fuel (fallbackDisk S hS).fs node off buf) w _ :=
      exfatWrite_wellFormed off buf hent h.wellFormed hf hsize
    obtain ⟨r, w', hrun, ⟨hfirst, hsize'⟩, ⟨l', v1, ht, hv⟩, -⟩ := hspec
    have hfirsts : (fallbackDisk S hS).firsts ((fallbackDisk S hS).vol w') =
        (fallbackDisk S hS).firsts ((fallbackDisk S hS).vol w) := by
      have h1 := ht.firsts hroot
      rcases hv with rfl | ⟨size, hlt, hres⟩
      · exact h1
      · rw [hres.firsts hlt (h1 ▸ ho.nodup), h1]
    have hlater := h.later (hwf.post hrun) fun f hf => hfirsts.symm ▸ hf
    refine ⟨r, w', hrun, hlater.wellFormed, List.forall_mem_cons.mpr ⟨.inr ⟨?_, hsize'⟩, hlater.handles⟩⟩
    rw [hfirst, hfirsts]
    exact hf

omit [KernelAlloc H] in
theorem vol_fat {c : ℕ} (hc : c < 131072) : ((fallbackDisk S hS).vol w).fat c = fatOf S w.dev c := by
  have hlt : c < (fallbackDisk S hS).fs.entries := hc.trans_eq (fallbackFs_entries S.dev).symm
  have hentry : entryOf c = c := Nat.mod_eq_of_lt (lt_trans hc (by decide))
  rw [Disk.vol, Disk.volOf_fat _ hlt, fatOf, fatSector, hentry, if_pos (by omega)]
  rfl

omit [KernelAlloc H] in
theorem vol_dir : (fallbackDisk S hS).dir ((fallbackDisk S hS).vol w) = rootSector S w.dev := by
  rw [Disk.dir, Disk.vol, Disk.volOf_data _ Disk.root_valid]
  rfl

omit [KernelAlloc H] in
theorem Intact.chainsFit (h : Intact hS w hs) (hlarge : 132222 ≤ S.sectors) : ChainsFit S w.dev := by
  intro x hx c hc
  rw [listedFiles, if_pos (by omega)] at hx
  obtain ⟨ch, ho⟩ := h.wellFormed.owned
  have hmem : x.firstCluster ∈ (fallbackDisk S hS).firsts ((fallbackDisk S hS).vol w) := by
    rw [Disk.firsts, Disk.listed, vol_dir]
    exact List.mem_map_of_mem hx
  have hent : (fallbackDisk S hS).fs.entries = 131072 := fallbackFs_entries S.dev
  have hchain := ho.chain _ hmem
  have hchain' : IsChain (fallbackDisk S hS) (fatOf S w.dev) x.firstCluster (ch x.firstCluster) :=
    hchain.congr fun d hd => (vol_fat (hent ▸ (hchain.valid d hd).2)).symm
  obtain ⟨h2, hlt⟩ := hchain'.valid c (hchain'.mem_of_onChain hc)
  rw [hent] at hlt
  rw [InHeap.dataSector ⟨h2, hlt⟩]
  omega

theorem intact_of_session {fuel : ℕ} (hfuel : 131072 ≤ fuel) (hfresh : Fresh S s) (hroot : fatOf S s 2 ≠ 0) {heap : H}
    (h : Session fuel S ⟨s, heap⟩ w hs) : Intact hS w hs := by
  induction h with
  | mount hmount =>
    obtain ⟨hdev, -, -⟩ := (exfatMount_spec (by omega) hfresh.unsigned).post hmount
    refine ⟨wellFormed_of_empty ?_ ?_, by simp⟩
    · rw [show (fallbackDisk S hS).fs.rootDirCluster = 2 from rfl, vol_fat (by decide), hdev]
      exact hroot
    · rw [vol_dir, hdev]
      dsimp only
      rw [hfresh.root]
      decide +kernel
  | create _ path hcall ih => exact (ih.create path).post hcall
  | openFile _ path hcall ih => exact (ih.openFile path).post hcall
  | write _ node hnode off buf hcall ih => exact (ih.write hfuel hnode off buf).post hcall

end Large

end Sessions

/-- On a volume that nothing was written to, every chain that the driver builds lies on the device exactly when
no file can be created at all, or when the root directory is marked in the FAT and the device holds all the
clusters that the FAT describes. -/
theorem keepsFit_iff {fuel : ℕ} (hfuel : 131072 ≤ fuel) (hmax : S.sectors ≤ 2 ^ 31) (hs : Fresh S s) :
    KeepsFit fuel S s ↔ S.sectors ≤ 1152 ∨ 132222 ≤ S.sectors ∧ fatOf S s 2 ≠ 0 := by
  constructor
  · intro hkeep
    by_contra hno
    obtain ⟨hS, hsmall⟩ := not_or.mp hno
    by_cases hroot : fatOf S s 2 = 0
    · exact not_keepsFit_of_root_free (by omega) (by omega) hmax hs hroot hkeep
    · exact not_keepsFit_of_small (by omega) (by omega) (by omega) hs hroot hkeep
  · rintro (hsmall | ⟨hlarge, hroot⟩) H _ heap w nodes hsession
    · intro x hx
      rw [listedFiles, if_neg (by omega)] at hx
      exact absurd hx List.not_mem_nil
    · have hS : 1153 ≤ S.sectors := by omega
      have hintact : Intact hS w nodes := intact_of_session hfuel hs hroot hsession
      exact hintact.chainsFit hlarge

theorem ram0Memory_fresh : Fresh ram0Store ram0Memory := by
  intro i hi
  change (if i < 512 * (67697664 / 512) then ram0Memory (0x200000 + i) else 0) = 0
  split_ifs
  · rw [ram0Memory, if_neg (by omega)]
  · rfl

theorem keepsFit_iff_ram0 : KeepsFit 131072 ram0Store ram0Memory :=
  (keepsFit_iff (le_refl _) (by decide +kernel) ram0Memory_fresh).mpr (.inr (by decide +kernel))

theorem small_disk_links_missing_cluster :
    Wp (session 3 smallDisk.dev [.create pathA, .write pathA 512 [0x41]]) (⟨fun _ => 0, ()⟩ : World Memory Unit)
      fun _ w' => fatOf smallDisk w'.dev 2 = 3 ∧ ¬ ChainsFit smallDisk w'.dev := by
  have hrun : Wp (session 3 smallDisk.dev [.create pathA, .write pathA 512 [0x41]])
      (⟨fun _ => 0, ()⟩ : World Memory Unit) fun _ w' =>
        decide (listedFiles smallDisk w'.dev = [⟨2, 0, false, [97]⟩] ∧ fatOf smallDisk w'.dev 2 = 3) = true :=
    wp_of_test (by decide +kernel)
  apply hrun.mono
  intro r w' h
  obtain ⟨hlist, hfat⟩ := of_decide_eq_true h
  refine ⟨hfat, fun hfit => ?_⟩
  have hmem : (⟨2, 0, false, [97]⟩ : Dirent) ∈ listedFiles smallDisk w'.dev := by
    rw [hlist]
    exact List.mem_singleton_self _
  have hlt := hfit _ hmem 3 ⟨le_refl 2, .single ⟨hfat, by decide, by decide⟩⟩
  exact absurd hlt (by decide +kernel)

end DexOs.Exfat
