import DexOs.ExfatSectors
import DexOs.ExfatSpace

/-! What `exfat_read` copies, for any FAT and any handle: the clusters are those that the FAT links lead to,
and nothing is known of where these end. -/

namespace DexOs.Exfat

open DexOs.Lib

variable {σ H : Type} {R : SectorReader σ} {fs : Fs σ} {s : σ}

/-- A volume of 512-byte sectors on the device `R`, wherever its FAT and its clusters are. -/
structure Mounted (R : SectorReader σ) (fs : Fs σ) : Prop where
  bdev_eq : fs.bdev = R.dev
  bytes_eq : fs.bytesPerSector = 512
  spc_pos : 0 < fs.sectorsPerCluster
  spc_lt : fs.sectorsPerCluster < 256
  size_eq : fs.clusterSize = 512 * fs.sectorsPerCluster

theorem Mounted.clusterSize_pos (hm : Mounted R fs) : 0 < fs.clusterSize := by
  have hspc := hm.spc_pos
  have hsize := hm.size_eq
  omega

def linkAt (R : SectorReader σ) (fs : Fs σ) (s : σ) (cl : ℕ) : ℕ :=
  let sector := (fs.fatOffset + cl * 4 % 2 ^ 32 / 512) % 2 ^ 32
  if sector < R.sectors then leNat (R.view s) 4 (512 * sector + cl * 4 % 2 ^ 32 % 512) else 0

def dataAt (R : SectorReader σ) (fs : Fs σ) (s : σ) (cl : ℕ) : Option (List UInt8) :=
  if clToLba fs cl + fs.sectorsPerCluster ≤ R.sectors then
    some (peek (R.view s) (512 * clToLba fs cl) fs.clusterSize)
  else none

section Chain

variable {link : ℕ → ℕ} {f c : ℕ}

/-- Cluster `k` of the chain from `c`: the chain ends at the end mark and at a number that is no cluster. -/
def chainAt (link : ℕ → ℕ) : ℕ → ℕ → Option ℕ
  | 0, c => if 2 ≤ c then some c else none
  | k + 1, c => if 2 ≤ c ∧ link c ≠ eoc then chainAt link k (link c) else none

def follow (link : ℕ → ℕ) : ℕ → ℕ → ℕ
  | 0, c => c
  | k + 1, c => if link c = eoc ∨ link c = 0 then c else follow link k (link c)

theorem chainAt_add {k : ℕ} (h : chainAt link k f = some c) (m : ℕ) : chainAt link (k + m) f = chainAt link m c := by
  induction k generalizing f with
  | zero =>
    rw [chainAt] at h
    split_ifs at h
    obtain rfl := Option.some.inj h
    rw [Nat.zero_add]
  | succ k ih =>
    rw [chainAt] at h
    split_ifs at h with hf
    rw [show k + 1 + m = k + m + 1 by omega, chainAt, if_pos hf, ih h]

theorem follow_eq {k : ℕ} (h : chainAt link k f = some c) : follow link k f = c := by
  induction k generalizing f with
  | zero =>
    rw [chainAt] at h
    split_ifs at h
    exact Option.some.inj h
  | succ k ih =>
    rw [chainAt] at h
    split_ifs at h with hf
    have hpos : link f ≠ 0 := by
      intro h0
      rw [h0] at h
      cases k <;> simp [chainAt] at h
    rw [follow, if_neg (not_or.mpr ⟨hf.2, hpos⟩), ih h]

end Chain

section Device

variable {w : World σ H} {cl : ℕ}

theorem Mounted.fatGet (hm : Mounted R fs) : Wp (fatGet fs cl) w fun r w' => r = linkAt R fs w.dev cl ∧ w' = w := by
  have hslot : fatSlot fs cl =
      some ((fs.fatOffset + cl * 4 % 2 ^ 32 / 512) % 2 ^ 32, cl * 4 % 2 ^ 32 % 512) := by
    unfold fatSlot
    rw [hm.bytes_eq, if_neg (by decide)]
    dsimp only
    rw [if_neg (by omega)]
  have hlt : (fs.fatOffset + cl * 4 % 2 ^ 32 / 512) % 2 ^ 32 < 2 ^ 32 := Nat.mod_lt _ (Nat.two_pow_pos 32)
  rw [Exfat.fatGet, hslot, hm.bdev_eq]
  unfold linkAt
  dsimp only
  generalize (fs.fatOffset + cl * 4 % 2 ^ 32 / 512) % 2 ^ 32 = sector at hlt
  generalize hoff : cl * 4 % 2 ^ 32 % 512 = sectOff
  apply wp_bind (read_sector hlt)
  rintro r w' ⟨rfl, hin, hout⟩
  refine wp_pure ⟨?_, rfl⟩
  split_ifs with hneg hon hon
  · rw [hin hon] at hneg
    simp at hneg
  · rfl
  · rw [hin hon, leNat_peek _ _ (by omega)]
  · exact absurd (hout (Nat.le_of_not_lt hon)) (by omega)

theorem Mounted.readCluster (hm : Mounted R fs) : Wp (readCluster fs cl) w fun r w' =>
    r = dataAt R fs w.dev cl ∧ w' = w := by
  have hpos := hm.spc_pos
  have hlt := hm.spc_lt
  have hlba : clToLba fs cl < 2 ^ 32 := Nat.mod_lt _ (Nat.two_pow_pos 32)
  unfold Exfat.readCluster dataAt
  generalize clToLba fs cl = lba at hlba ⊢
  by_cases hon : lba + fs.sectorsPerCluster ≤ R.sectors
  · have hread : Wp (bdevRead fs.bdev lba fs.sectorsPerCluster) w fun r w' =>
        r = ((fs.sectorsPerCluster : ℤ), peek (R.view w.dev) (512 * lba) fs.clusterSize) ∧ w' = w := by
      refine ⟨_, _, ?_, rfl, rfl⟩
      rw [bdevRead, hm.bdev_eq, R.read_eq]
      dsimp only
      rw [R.read_in w.dev _ _ hon, hm.size_eq]
    apply wp_bind hread
    rintro _ _ ⟨rfl, rfl⟩
    rw [if_pos rfl, if_neg (by rw [length_peek]; omega), length_peek, Nat.sub_self, List.replicate_zero,
      List.append_nil, if_pos hon]
    exact wp_pure ⟨rfl, rfl⟩
  · have hread : Wp (bdevRead fs.bdev lba fs.sectorsPerCluster) w fun r w' => r.1 = -1 ∧ w' = w := by
      obtain ⟨hr, hw⟩ := R.read_out w.dev _ _ hlba hpos (by omega) (Nat.lt_of_not_le hon)
      refine ⟨(R.read w.dev lba fs.sectorsPerCluster).1, w, ?_, hr, rfl⟩
      rw [bdevRead, hm.bdev_eq, R.read_eq]
      dsimp only
      rw [hw]
    apply wp_bind hread
    rintro r _ ⟨hr, rfl⟩
    rw [hr, if_neg (by omega), if_neg hon]
    exact wp_pure ⟨rfl, rfl⟩

theorem length_dataAt {data : List UInt8} (h : dataAt R fs s cl = some data) : data.length = fs.clusterSize := by
  unfold dataAt at h
  split_ifs at h
  rw [← Option.some.inj h, length_peek]

theorem Mounted.readSkip (hm : Mounted R fs) (k : ℕ) : Wp (readSkip fs k cl) w fun r w' =>
    r = follow (linkAt R fs w.dev) k cl ∧ w' = w := by
  induction k generalizing cl with
  | zero => exact wp_pure ⟨rfl, rfl⟩
  | succ k ih =>
    rw [Exfat.readSkip, follow]
    apply wp_bind hm.fatGet
    rintro _ _ ⟨rfl, rfl⟩
    split_ifs
    · exact wp_pure ⟨rfl, rfl⟩
    · exact ih

end Device

section Copy

def Agrees (R : SectorReader σ) (fs : Fs σ) (s : σ) (f pos : ℕ) (out : List UInt8) : Prop :=
  ∀ j < out.length, ∃ c data, chainAt (linkAt R fs s) ((pos + j) / fs.clusterSize) f = some c ∧
    dataAt R fs s c = some data ∧ byteAt out j = byteAt data ((pos + j) % fs.clusterSize)

variable {f c pos skip : ℕ} {out rest : List UInt8}

theorem agrees_nil : Agrees R fs s f pos [] := fun j hj => absurd hj (Nat.not_lt_zero j)

theorem Agrees.append (h : Agrees R fs s f pos out) (h' : Agrees R fs s f (pos + out.length) rest) :
    Agrees R fs s f pos (out ++ rest) := by
  intro j hj
  rcases Nat.lt_or_ge j out.length with hlt | hge
  · rw [byteAt_append_left hlt]
    exact h j hlt
  · obtain ⟨i, rfl⟩ := Nat.exists_eq_add_of_le hge
    rw [List.length_append] at hj
    rw [byteAt_append_right, ← Nat.add_assoc]
    exact h' i (by omega)

theorem Agrees.shift (hpos : 0 < fs.clusterSize) {k : ℕ} (hk : chainAt (linkAt R fs s) k f = some c)
    (h : Agrees R fs s c pos out) : Agrees R fs s f (fs.clusterSize * k + pos) out := by
  intro j hj
  rw [Nat.add_assoc, Nat.mul_add_div hpos, Nat.mul_add_mod, chainAt_add hk]
  exact h j hj

theorem agrees_chunk (h2 : 2 ≤ c) {data : List UInt8} (hdata : dataAt R fs s c = some data) {n : ℕ}
    (hn : skip + n ≤ fs.clusterSize) : Agrees R fs s c skip ((data.drop skip).take n) := by
  intro j hj
  have hlen := length_dataAt hdata
  rw [List.length_take] at hj
  have hlt : skip + j < fs.clusterSize := by omega
  refine ⟨c, data, ?_, hdata, ?_⟩
  · rw [Nat.div_eq_of_lt hlt, chainAt, if_pos h2]
  · rw [Nat.mod_eq_of_lt hlt, byteAt_of_lt (by rw [List.length_take]; omega), byteAt_of_lt (by omega),
      List.getElem_take, List.getElem_drop]

variable [KernelAlloc H] {w : World σ H}

theorem Mounted.readLoop (hm : Mounted R fs) {n cl len : ℕ} (hskip : skip < fs.clusterSize) (hn : len ≤ n) :
    Wp (readLoop fs n cl skip len) w fun out w' => w'.dev = w.dev ∧ out.length ≤ len ∧ Agrees R fs w.dev cl skip out ∧
      (out = [] ↔ len = 0 ∨ cl < 2 ∨ (KernelAlloc.kmalloc w.heap fs.clusterSize).1 = none ∨
        dataAt R fs w.dev cl = none) := by
  induction n generalizing cl skip len w with
  | zero =>
    obtain rfl := Nat.le_zero.mp hn
    exact wp_pure ⟨rfl, le_refl 0, agrees_nil, iff_of_true rfl (.inl rfl)⟩
  | succ n ih =>
    rw [Exfat.readLoop]
    by_cases hstop : len = 0 ∨ cl < 2
    · rw [if_pos hstop]
      refine wp_pure ⟨rfl, Nat.zero_le _, agrees_nil, iff_of_true rfl ?_⟩
      exact hstop.imp_right .inl
    rw [if_neg hstop]
    obtain ⟨hlen, hcl⟩ := not_or.mp hstop
    apply wp_bind (kmalloc_run _)
    rintro r w1 ⟨hr, rfl⟩
    rw [← hr]
    cases r with
    | none => exact wp_pure ⟨rfl, Nat.zero_le _, agrees_nil, iff_of_true rfl (.inr (.inr (.inl rfl)))⟩
    | some p =>
      apply wp_bind hm.readCluster
      rintro tmp w1 ⟨htmp, rfl⟩
      rw [← htmp]
      cases tmp with
      | none =>
        apply wp_bind (kfree_run p)
        rintro _ w2 rfl
        exact wp_pure ⟨rfl, Nat.zero_le _, agrees_nil, iff_of_true rfl (.inr (.inr (.inr rfl)))⟩
      | some data =>
        have hdata := htmp.symm
        dsimp only at hdata ⊢
        have hsize := length_dataAt hdata
        generalize htake : min len (fs.clusterSize - skip) = take
        have hchunk : Agrees R fs w.dev cl skip ((data.drop skip).take take) :=
          agrees_chunk (by omega) hdata (by omega)
        have hclen : ((data.drop skip).take take).length = take := by
          rw [List.length_take, List.length_drop]
          omega
        have hne : (data.drop skip).take take ≠ [] := List.ne_nil_of_length_pos (by omega)
        have hnone : ¬ (len = 0 ∨ cl < 2 ∨ False ∨ False) := by
          rintro (h | h | h | h)
          · exact hlen h
          · exact hcl h
          · exact h
          · exact h
        generalize (data.drop skip).take take = chunk at hchunk hclen hne
        apply wp_bind (kfree_run p)
        rintro _ w2 rfl
        split_ifs with hdone
        · exact wp_pure ⟨rfl, by omega, hchunk, iff_of_false hne hnone⟩
        apply wp_bind hm.fatGet
        rintro next w3 ⟨hnext, rfl⟩
        dsimp only at hnext
        split_ifs with hend
        · exact wp_pure ⟨rfl, by omega, hchunk, iff_of_false hne hnone⟩
        apply wp_bind (ih (by omega) (by omega))
        rintro rest w4 ⟨hdev, hrlen, hrest, hempty⟩
        refine wp_pure ⟨hdev, ?_, ?_, iff_of_false (List.append_ne_nil_of_left_ne_nil hne _) hnone⟩
        · rw [List.length_append]
          omega
        · apply hchunk.append
          by_cases h2 : 2 ≤ next
          · have hlink : chainAt (linkAt R fs w.dev) 1 cl = some next := by
              rw [chainAt, ← hnext, if_pos ⟨by omega, fun h => hend (.inr h)⟩, chainAt, if_pos h2]
            have hshift := hrest.shift (by omega) hlink
            rwa [show fs.clusterSize * 1 + 0 = skip + chunk.length by omega] at hshift
          · rw [hempty.mpr (.inr (.inl (by omega)))]
            exact agrees_nil

end Copy

section Prefix

variable [KernelAlloc H] {w : World σ H} {first size off len : ℕ}

/-- The bytes that `exfat_read` copies are a prefix of the part of the chain's clusters from `off` up to the
end of the range and of the file; there are none when the chain ends before `off`. -/
def ReadsPrefix (R : SectorReader σ) (fs : Fs σ) (first size off len : ℕ) (w : World σ H) : Prop :=
  Wp (exfatRead fs ⟨first, false, size⟩ off len) w fun r _ => r.2.length ≤ min (off + len) size - off ∧
    Agrees R fs w.dev first off r.2 ∧
    (chainAt (linkAt R fs w.dev) (off / fs.clusterSize) first = none → r = (0, []))

theorem Mounted.exfatRead (hm : Mounted R fs) (hoff : off < size) :
    Wp (exfatRead fs ⟨first, false, size⟩ off len) w fun r _ => r.1 = toInt r.2.length ∧
      r.2.length ≤ min len (size - off) ∧
      Agrees R fs w.dev (follow (linkAt R fs w.dev) (off / fs.clusterSize) first) (off % fs.clusterSize) r.2 ∧
      (r.2 = [] ↔ min len (size - off) = 0 ∨ follow (linkAt R fs w.dev) (off / fs.clusterSize) first < 2 ∨
        (KernelAlloc.kmalloc w.heap fs.clusterSize).1 = none ∨
        dataAt R fs w.dev (follow (linkAt R fs w.dev) (off / fs.clusterSize) first) = none) := by
  have hpos := hm.clusterSize_pos
  unfold Exfat.exfatRead
  rw [if_neg (by simp), if_neg (Nat.not_le.mpr hoff), if_neg hpos.ne']
  dsimp only
  apply wp_bind (hm.readSkip _)
  rintro _ w1 ⟨rfl, rfl⟩
  apply wp_bind (hm.readLoop (Nat.mod_lt _ hpos) (le_refl _))
  rintro out w2 ⟨-, hlen, hagree, hempty⟩
  exact wp_pure ⟨rfl, hlen, hagree, hempty⟩

theorem readsPrefix_of_reached (hm : Mounted R fs) (hoff : off < size) {c : ℕ}
    (hc : chainAt (linkAt R fs w.dev) (off / fs.clusterSize) first = some c) : ReadsPrefix R fs first size off len w := by
  have hpos := hm.clusterSize_pos
  apply (hm.exfatRead hoff).mono
  rintro r w' ⟨-, hlen, hagree, -⟩
  rw [follow_eq hc] at hagree
  have hshift := hagree.shift hpos hc
  rw [Nat.div_add_mod] at hshift
  refine ⟨by omega, hshift, ?_⟩
  intro hnone
  rw [hc] at hnone
  cases hnone

theorem readsPrefix_iff_of_short (hm : Mounted R fs) (hoff : off < size)
    (hc : chainAt (linkAt R fs w.dev) (off / fs.clusterSize) first = none) :
    ReadsPrefix R fs first size off len w ↔ len = 0 ∨
      follow (linkAt R fs w.dev) (off / fs.clusterSize) first < 2 ∨
      (KernelAlloc.kmalloc w.heap fs.clusterSize).1 = none ∨
      dataAt R fs w.dev (follow (linkAt R fs w.dev) (off / fs.clusterSize) first) = none := by
  have hzero : min len (size - off) = 0 ↔ len = 0 := by omega
  have hread : Wp (exfatRead fs ⟨first, false, size⟩ off len) w _ := hm.exfatRead hoff
  rw [hzero] at hread
  constructor
  · intro hprefix
    obtain ⟨r, w', hrun, -, -, hnone⟩ := hprefix
    obtain ⟨-, -, -, hempty⟩ := hread.post hrun
    apply hempty.mp
    rw [hnone hc]
  · intro hcond
    apply hread.mono
    rintro ⟨n, out⟩ w' ⟨hn, -, -, hempty⟩
    dsimp only at hn hempty
    rw [hempty.mpr hcond] at hn ⊢
    refine ⟨Nat.zero_le _, agrees_nil, fun _ => ?_⟩
    rw [hn]
    rfl

/-- The copied bytes are a prefix of the file's range exactly when there is nothing to copy, when the chain
reaches the offset, or when the cluster at which the walk to the offset ends cannot be read: the copy loop
starts there even if the chain has ended before the offset. -/
theorem readsPrefix_iff (hm : Mounted R fs) (w : World σ H) (first size off len : ℕ) :
    ReadsPrefix R fs first size off len w ↔ size ≤ off ∨ len = 0 ∨
      chainAt (linkAt R fs w.dev) (off / fs.clusterSize) first ≠ none ∨
      follow (linkAt R fs w.dev) (off / fs.clusterSize) first < 2 ∨
      (KernelAlloc.kmalloc w.heap fs.clusterSize).1 = none ∨
      dataAt R fs w.dev (follow (linkAt R fs w.dev) (off / fs.clusterSize) first) = none := by
  rcases Nat.lt_or_ge off size with hoff | hoff
  · cases hc : chainAt (linkAt R fs w.dev) (off / fs.clusterSize) first with
    | some c => exact iff_of_true (readsPrefix_of_reached hm hoff hc) (.inr (.inr (.inl (by simp))))
    | none =>
      rw [readsPrefix_iff_of_short hm hoff hc, or_iff_right (Nat.not_le.mpr hoff)]
      simp
  · apply iff_of_true _ (.inl hoff)
    unfold ReadsPrefix Exfat.exfatRead
    rw [if_neg (by simp), if_pos hoff]
    exact wp_pure ⟨Nat.zero_le _, agrees_nil, fun _ => rfl⟩

end Prefix

section Ram0

theorem fallback_mounted (R : SectorReader σ) : Mounted R (fallbackFs R.dev) := ⟨rfl, rfl, Nat.one_pos, (by decide : 1 < 256), rfl⟩

def shortChain : Memory :=
  poke (poke (poke ram0Memory (0x200000 + 65548) (leBytes 4 eoc)) (0x200000 + 589824) (entrySet [97] 3))
    (0x200000 + 589824 + 56) (leBytes 8 1024)

theorem readsPrefix_iff_start : ReadsPrefix ram0Store (fallbackFs ram0Store.dev) 3 1024 0 1
    (⟨shortChain, ()⟩ : World Memory Unit) :=
  (readsPrefix_iff (fallback_mounted ram0Store.toSectorReader) _ 3 1024 0 1).mpr (.inr (.inr (.inl (by decide +kernel))))

theorem read_past_chain_copies :
    (Wp (exfatOpen (fallbackFs ram0Store.dev) pathA) (⟨shortChain, ()⟩ : World Memory Unit) fun n _ =>
      n = some ⟨3, false, 1024⟩) ∧
    ¬ ReadsPrefix ram0Store (fallbackFs ram0Store.dev) 3 1024 512 1 (⟨shortChain, ()⟩ : World Memory Unit) := by
  constructor
  · have hopen : Wp (exfatOpen (fallbackFs ram0Store.dev) pathA) (⟨shortChain, ()⟩ : World Memory Unit) fun n _ =>
        decide (n = some ⟨3, false, 1024⟩) = true := wp_of_test (by decide +kernel)
    apply hopen.mono
    intro n w' h
    exact of_decide_eq_true h
  · have hchain : chainAt (linkAt ram0Store (fallbackFs ram0Store.dev) shortChain)
        (512 / (fallbackFs ram0Store.dev).clusterSize) 3 = none := by decide +kernel
    have hlast : follow (linkAt ram0Store (fallbackFs ram0Store.dev) shortChain)
        (512 / (fallbackFs ram0Store.dev).clusterSize) 3 = 3 := by decide +kernel
    have hdata : dataAt ram0Store (fallbackFs ram0Store.dev) shortChain 3 ≠ none := by decide +kernel
    have hiff : ReadsPrefix ram0Store (fallbackFs ram0Store.dev) 3 1024 512 1
        (⟨shortChain, ()⟩ : World Memory Unit) ↔ _ :=
      readsPrefix_iff_of_short (fallback_mounted ram0Store.toSectorReader) (by decide) hchain
    dsimp only at hiff
    rw [hiff, hlast]
    rintro (h | h | h | h)
    · exact absurd h (by decide)
    · exact absurd h (by decide)
    · exact allocOk_unit () _ (by decide) h
    · exact hdata h

end Ram0

end DexOs.Exfat
