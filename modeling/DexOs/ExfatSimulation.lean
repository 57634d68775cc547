import DexOs.Exfat
import DexOs.Lib.Simulation

/-! The exFAT driver depends on its device only through the answers to its requests. -/

namespace DexOs.Exfat

open DexOs.Lib

variable {σ τ H H' α : Type}

def Fs.withDevice (fs : Fs σ) (d : BlockDevice τ) : Fs τ where
  bdev := d
  fatOffset := fs.fatOffset
  fatLength := fs.fatLength
  clusterHeapOff := fs.clusterHeapOff
  bytesPerSector := fs.bytesPerSector
  sectorsPerCluster := fs.sectorsPerCluster
  clusterSize := fs.clusterSize
  rootDirCluster := fs.rootDirCluster

section Geometry

variable (fs : Fs σ) (d : BlockDevice τ)

@[simp] theorem withDevice_bdev : (fs.withDevice d).bdev = d := rfl

@[simp] theorem withDevice_sectorsPerCluster : (fs.withDevice d).sectorsPerCluster = fs.sectorsPerCluster := rfl

@[simp] theorem withDevice_clusterSize : (fs.withDevice d).clusterSize = fs.clusterSize := rfl

@[simp] theorem withDevice_rootDirCluster : (fs.withDevice d).rootDirCluster = fs.rootDirCluster := rfl

@[simp] theorem withDevice_entries : (fs.withDevice d).entries = fs.entries := rfl

@[simp] theorem withDevice_fatSlot (cl : ℕ) : fatSlot (fs.withDevice d) cl = fatSlot fs cl := rfl

@[simp] theorem withDevice_clToLba (cl : ℕ) : clToLba (fs.withDevice d) cl = clToLba fs cl := rfl

end Geometry

/-- Related states of the two devices give the same answer to every request of the driver, and stay related. The
sector numbers and the counts of the driver have 32 bits. -/
structure SameAnswers (R : σ → τ → Prop) (b : BlockDevice σ) (d : BlockDevice τ) : Prop where
  sector : d.sectorSize = b.sectorSize
  read : ∃ r r', b.read = some r ∧ d.read = some r' ∧ ∀ s t lba count, R s t → lba < 2 ^ 32 → 0 < count →
    count < 2 ^ 32 → (r s lba count).1 = (r' t lba count).1 ∧ R (r s lba count).2 (r' t lba count).2
  write : ∃ r r', b.write = some r ∧ d.write = some r' ∧ ∀ s t lba buf count, R s t → lba < 2 ^ 32 → 0 < count →
    count < 2 ^ 32 → (r s lba buf count).1 = (r' t lba buf count).1 ∧ R (r s lba buf count).2 (r' t lba buf count).2

structure Sized (fs : Fs σ) : Prop where
  spc_lt : fs.sectorsPerCluster < 2 ^ 32
  spc_pos : fs.clusterSize ≠ 0 → 0 < fs.sectorsPerCluster

/-- Related heaps have room for the same requests until the second one breaks away, and the blocks that they hand out
are related too. -/
structure SameRoom [KernelAlloc H] [KernelAlloc H'] (Q : Tie H H') (P : ℕ → ℕ → Prop) : Prop where
  kmalloc : ∀ h h' n, Q.rel h h' → Q.broken (KernelAlloc.kmalloc h' n).2 ∨
    Option.Rel P (KernelAlloc.kmalloc h n).1 (KernelAlloc.kmalloc h' n).1 ∧
      Q.rel (KernelAlloc.kmalloc h n).2 (KernelAlloc.kmalloc h' n).2
  kfree : ∀ h h' p q, Q.rel h h' → P p q → Q.rel (KernelAlloc.kfree h p) (KernelAlloc.kfree h' q)
  kmalloc_broken : ∀ h' n, Q.broken h' → Q.broken (KernelAlloc.kmalloc h' n).2
  kfree_broken : ∀ h' q, Q.broken h' → Q.broken (KernelAlloc.kfree h' q)
  partner : ∀ q, ∃ p, P p q

def Both (R : σ → τ → Prop) (Q : Tie H H') : Tie (World σ H) (World τ H') where
  rel w v := R w.dev v.dev ∧ Q.rel w.heap v.heap
  broken v := Q.broken v.heap

variable {R : σ → τ → Prop} {Q : Tie H H'} {P : ℕ → ℕ → Prop} {fs : Fs σ} {d : BlockDevice τ}

theorem simulates_stop {β : Type} {S : α → β → Prop} (e : Fault) :
    Simulates (Both R Q) S (stop e : Io σ H α) (stop e) := simulates_throw e

theorem matches_stop (e : Fault) : Matches (Both R Q) (stop e : Io σ H α) (stop e) := simulates_stop e

section Device

variable {lba count : ℕ} {b : BlockDevice σ} (h : SameAnswers R b d)

include h

theorem bdevRead_matches (hl : lba < 2 ^ 32) (hpos : 0 < count) (hc : count < 2 ^ 32) :
    Matches (Both R Q) (bdevRead b lba count : Io σ H _) (bdevRead d lba count) := by
  obtain ⟨r, r', hr, hr', hsame⟩ := h.read
  unfold bdevRead
  rw [hr, hr']
  constructor
  case away => exact fun v hv => ⟨hv, _, rfl⟩
  case step =>
    intro w v hw
    have hs := hsame w.dev v.dev lba count hw.1 hl hpos hc
    exact .inr ⟨hs.1, hs.2, hw.2⟩

theorem bdevWrite_matches (hl : lba < 2 ^ 32) (hpos : 0 < count) (hc : count < 2 ^ 32) (buf : List UInt8) :
    Matches (Both R Q) (bdevWrite b lba buf count : Io σ H _) (bdevWrite d lba buf count) := by
  obtain ⟨r, r', hr, hr', hsame⟩ := h.write
  unfold bdevWrite
  rw [hr, hr']
  constructor
  case away => exact fun v hv => ⟨hv, _, rfl⟩
  case step =>
    intro w v hw
    have hs := hsame w.dev v.dev lba buf count hw.1 hl hpos hc
    exact .inr ⟨hs.1, hs.2, hw.2⟩

end Device

section Driver

variable (h : SameAnswers R fs.bdev d) (hs : Sized fs)

include h

section Cluster

variable (hpos : fs.clusterSize ≠ 0)

include hs hpos

theorem readCluster_matches (cl : ℕ) :
    Matches (Both R Q) (readCluster fs cl : Io σ H _) (readCluster (fs.withDevice d) cl) := by
  unfold readCluster
  simp only [withDevice_bdev, withDevice_clToLba, withDevice_sectorsPerCluster, withDevice_clusterSize]
  apply (bdevRead_matches h (Nat.mod_lt _ (by decide)) (hs.spc_pos hpos) hs.spc_lt).bind
  intro r
  apply matches_ite <;> intro _
  · apply matches_ite <;> intro _
    · exact matches_stop _
    · exact matches_pure _
  · exact matches_pure _

theorem writeCluster_matches (cl : ℕ) (buf : List UInt8) :
    Matches (Both R Q) (writeCluster fs cl buf : Io σ H _) (writeCluster (fs.withDevice d) cl buf) := by
  unfold writeCluster
  simp only [withDevice_bdev, withDevice_clToLba, withDevice_sectorsPerCluster, h.sector]
  apply matches_ite <;> intro _
  · exact matches_stop _
  · apply (bdevWrite_matches h (Nat.mod_lt _ (by decide)) (hs.spc_pos hpos) hs.spc_lt _).bind
    intro r
    exact matches_pure _

end Cluster

omit h in
theorem fatSlot_sector {cl sector off : ℕ} (hslot : fatSlot fs cl = some (sector, off)) : sector < 2 ^ 32 := by
  unfold fatSlot at hslot
  dsimp only at hslot
  split_ifs at hslot
  obtain ⟨rfl, -⟩ := Prod.mk.inj (Option.some.inj hslot)
  exact Nat.mod_lt _ (by decide)

theorem fatGet_matches (cl : ℕ) :
    Matches (Both R Q) (fatGet fs cl : Io σ H _) (fatGet (fs.withDevice d) cl) := by
  unfold fatGet
  rw [withDevice_fatSlot]
  cases hslot : fatSlot fs cl with
  | none => exact matches_stop _
  | some slot =>
    apply (bdevRead_matches h (fatSlot_sector hslot) Nat.one_pos (by decide)).bind
    intro r
    exact matches_pure _

theorem fatSet_matches (cl val : ℕ) :
    Matches (Both R Q) (fatSet fs cl val : Io σ H _) (fatSet (fs.withDevice d) cl val) := by
  unfold fatSet
  rw [withDevice_fatSlot]
  cases hslot : fatSlot fs cl with
  | none => exact matches_stop _
  | some slot =>
    apply (bdevRead_matches h (fatSlot_sector hslot) Nat.one_pos (by decide)).bind
    intro r
    split_ifs
    · exact matches_pure _
    · apply (bdevWrite_matches h (fatSlot_sector hslot) Nat.one_pos (by decide) _).bind
      intro rc
      exact matches_pure _

theorem readSkip_matches (k cl : ℕ) :
    Matches (Both R Q) (readSkip fs k cl : Io σ H _) (readSkip (fs.withDevice d) k cl) := by
  induction k generalizing cl with
  | zero => exact matches_pure _
  | succ k ih =>
    apply (fatGet_matches h cl).bind
    intro next
    split_ifs
    · exact matches_pure _
    · exact ih next

theorem chainEnd_matches (fuel cur count : ℕ) :
    Matches (Both R Q) (chainEnd fs fuel cur count : Io σ H _) (chainEnd (fs.withDevice d) fuel cur count) := by
  induction fuel generalizing cur count with
  | zero => exact matches_stop _
  | succ fuel ih =>
    apply (fatGet_matches h cur).bind
    intro next
    split_ifs
    · exact matches_pure _
    · exact ih next (count + 1)

theorem freeChain_matches (fuel cl : ℕ) :
    Matches (Both R Q) (freeChain fs fuel cl : Io σ H _) (freeChain (fs.withDevice d) fuel cl) := by
  induction fuel generalizing cl with
  | zero => exact matches_stop _
  | succ fuel ih =>
    unfold freeChain
    split_ifs
    · exact matches_pure _
    · apply (fatGet_matches h cl).bind
      intro next
      apply (fatSet_matches h cl 0).bind
      intro _
      split_ifs
      · exact matches_pure _
      · exact ih next

section Heap

omit h

variable [KernelAlloc H] [KernelAlloc H'] (ha : SameRoom Q P)

include ha

theorem kmalloc_simulates (n : ℕ) :
    Simulates (Both R Q) (Option.Rel fun p q => n ≠ 0 ∧ P p q) (kmalloc n : Io σ H _) (kmalloc n) := by
  have hzero {h : H'} {q : ℕ} (hq : (KernelAlloc.kmalloc h n).1 = some q) : n ≠ 0 := by
    rintro rfl
    rw [KernelAlloc.kmalloc_zero] at hq
    cases hq
  have haway (v : World τ H') (hv : Q.broken (KernelAlloc.kmalloc v.heap n).2) :
      Away (Both R Q) (Option.Rel fun p q => n ≠ 0 ∧ P p q) (kmalloc n v) := by
    refine ⟨hv, ?_⟩
    change ∃ r, Option.Rel _ r (KernelAlloc.kmalloc v.heap n).1
    cases hr : (KernelAlloc.kmalloc v.heap n).1 with
    | none => exact ⟨none, .none⟩
    | some q =>
      obtain ⟨p, hp⟩ := ha.partner q
      exact ⟨some p, .some ⟨hzero hr, hp⟩⟩
  constructor
  case away => exact fun v hv => haway v (ha.kmalloc_broken _ _ hv)
  case step =>
    intro w v hw
    rcases ha.kmalloc w.heap v.heap n hw.2 with hbroken | ⟨hrel, hq⟩
    · exact .inl (haway v hbroken)
    refine .inr ⟨?_, hw.1, hq⟩
    change Option.Rel _ (KernelAlloc.kmalloc w.heap n).1 (KernelAlloc.kmalloc v.heap n).1
    generalize (KernelAlloc.kmalloc w.heap n).1 = r at hrel ⊢
    generalize hr : (KernelAlloc.kmalloc v.heap n).1 = r' at hrel ⊢
    cases hrel with
    | none => exact .none
    | some hp => exact .some ⟨hzero hr, hp⟩

theorem kfree_matches {p q : ℕ} (hp : P p q) : Matches (Both R Q) (kfree p : Io σ H _) (kfree q) where
  step w v hw := .inr ⟨rfl, hw.1, ha.kfree w.heap v.heap p q hw.2 hp⟩
  away v hv := ⟨ha.kfree_broken v.heap q hv, (), rfl⟩

theorem kfree_then_matches {p q : ℕ} (hp : P p q) {x : Io σ H α} {y : Io τ H' α} (hx : Matches (Both R Q) x y) :
    Matches (Both R Q) (kfree p >>= fun _ => x) (kfree q >>= fun _ => y) :=
  (kfree_matches ha hp).bind fun _ => hx

include h hs

theorem loadRoot_simulates : Simulates (Both R Q)
    (Option.Rel fun r r' => fs.clusterSize ≠ 0 ∧ P r.1 r'.1 ∧ r.2 = r'.2) (loadRoot fs : Io σ H _)
    (loadRoot (fs.withDevice d)) := by
  unfold loadRoot
  refine (kmalloc_simulates ha _).option (simulates_pure .none) ?_
  rintro p q ⟨hpos, hp⟩
  apply Simulates.bind (readCluster_matches h hs hpos _)
  rintro r _ rfl
  cases r with
  | none =>
    apply Simulates.bind (kfree_matches ha hp)
    exact fun _ _ _ => simulates_pure .none
  | some dir => exact simulates_pure (.some ⟨hpos, hp, rfl⟩)

theorem dirScanRoot_matches (maxEnts : ℕ) :
    Matches (Both R Q) (dirScanRoot fs maxEnts : Io σ H _) (dirScanRoot (fs.withDevice d) maxEnts) := by
  unfold dirScanRoot
  refine (loadRoot_simulates h hs ha).option (matches_pure _) ?_
  rintro ⟨p, dir⟩ ⟨p', _⟩ ⟨hpos, hp, rfl⟩
  exact kfree_then_matches ha hp (matches_pure _)

theorem exfatOpen_matches (path : CString) :
    Matches (Both R Q) (exfatOpen fs path : Io σ H _) (exfatOpen (fs.withDevice d) path) := by
  unfold exfatOpen
  refine (kmalloc_simulates ha _).option (matches_pure _) ?_
  rintro n n' ⟨-, hn⟩
  refine (kmalloc_simulates ha _).option (kfree_then_matches ha hn (matches_pure _)) ?_
  rintro vn vn' ⟨-, hvn⟩
  dsimp only
  split_ifs
  · exact matches_pure _
  · apply (dirScanRoot_matches h hs ha 32).bind
    intro ents
    split
    · exact matches_pure _
    · exact kfree_then_matches ha hn (kfree_then_matches ha hvn (matches_pure _))

theorem exfatStat_matches (path : CString) :
    Matches (Both R Q) (exfatStat fs path : Io σ H _) (exfatStat (fs.withDevice d) path) := by
  unfold exfatStat
  split_ifs
  · exact matches_pure _
  · apply (dirScanRoot_matches h hs ha 32).bind
    intro ents
    exact matches_pure _

theorem readLoop_matches (n cl skip len : ℕ) :
    Matches (Both R Q) (readLoop fs n cl skip len : Io σ H _) (readLoop (fs.withDevice d) n cl skip len) := by
  induction n generalizing cl skip len with
  | zero =>
    unfold readLoop
    split_ifs
    · exact matches_pure _
    · exact matches_stop _
  | succ n ih =>
    unfold readLoop
    split_ifs
    · exact matches_pure _
    · refine (kmalloc_simulates ha _).option (matches_pure _) ?_
      rintro p p' ⟨hpos, hp⟩
      apply (readCluster_matches h hs hpos cl).bind
      intro r
      cases r with
      | none => exact kfree_then_matches ha hp (matches_pure _)
      | some tmp =>
        apply kfree_then_matches ha hp
        simp only [withDevice_clusterSize]
        apply matches_ite <;> intro _
        · exact matches_pure _
        · apply (fatGet_matches h cl).bind
          intro next
          split_ifs
          · exact matches_pure _
          · apply (ih next 0 _).bind
            intro rest
            exact matches_pure _

theorem exfatRead_matches (node : Node) (off len : ℕ) :
    Matches (Both R Q) (exfatRead fs node off len : Io σ H _) (exfatRead (fs.withDevice d) node off len) := by
  unfold exfatRead
  simp only [withDevice_clusterSize]
  apply matches_ite <;> intro _
  · exact matches_pure _
  apply matches_ite <;> intro _
  · exact matches_pure _
  apply matches_ite <;> intro _
  · exact matches_stop _
  · apply (readSkip_matches h _ _).bind
    intro cl
    apply (readLoop_matches h hs ha _ _ _ _).bind
    intro out
    exact matches_pure _

theorem fatAllocFrom_matches (n cl : ℕ) :
    Matches (Both R Q) (fatAllocFrom fs n cl : Io σ H _) (fatAllocFrom (fs.withDevice d) n cl) := by
  induction n generalizing cl with
  | zero => exact matches_pure _
  | succ n ih =>
    apply (fatGet_matches h cl).bind
    intro v
    split_ifs
    · apply (fatSet_matches h cl eoc).bind
      intro rc
      split_ifs
      · exact matches_pure _
      · refine (kmalloc_simulates ha _).option (matches_pure _) ?_
        rintro p p' ⟨hpos, hp⟩
        apply (writeCluster_matches h hs hpos cl _).bind
        intro _
        exact kfree_then_matches ha hp (matches_pure _)
    · exact ih (cl + 1)

theorem fatAlloc_matches : Matches (Both R Q) (fatAlloc fs : Io σ H _) (fatAlloc (fs.withDevice d)) :=
  fatAllocFrom_matches h hs ha _ _

theorem dirUpdateStream_matches (oldFirst newFirst newSize : ℕ) :
    Matches (Both R Q) (dirUpdateStreamByFirstCluster fs oldFirst newFirst newSize : Io σ H _)
      (dirUpdateStreamByFirstCluster (fs.withDevice d) oldFirst newFirst newSize) := by
  unfold dirUpdateStreamByFirstCluster
  refine (loadRoot_simulates h hs ha).option (matches_pure _) ?_
  rintro ⟨p, dir⟩ ⟨p', _⟩ ⟨hpos, hp, rfl⟩
  dsimp only
  split
  · exact kfree_then_matches ha hp (matches_pure _)
  · apply (writeCluster_matches h hs hpos _ _).bind
    intro rc
    exact kfree_then_matches ha hp (matches_pure _)

theorem appendCluster_matches (cur : ℕ) :
    Matches (Both R Q) (appendCluster fs cur : Io σ H _) (appendCluster (fs.withDevice d) cur) := by
  unfold appendCluster
  apply (fatAlloc_matches h hs ha).bind
  intro ncl
  split_ifs
  · exact matches_pure _
  · apply (fatSet_matches h cur ncl).bind
    intro _
    apply (fatSet_matches h ncl eoc).bind
    intro _
    exact matches_pure _

theorem nextOrAppend_matches (cl : ℕ) :
    Matches (Both R Q) (nextOrAppend fs cl : Io σ H _) (nextOrAppend (fs.withDevice d) cl) := by
  unfold nextOrAppend
  apply (fatGet_matches h cl).bind
  intro nxt
  split_ifs
  · exact appendCluster_matches h hs ha cl
  · exact matches_pure _

theorem extendChain_matches (n cur : ℕ) :
    Matches (Both R Q) (extendChain fs n cur : Io σ H _) (extendChain (fs.withDevice d) n cur) := by
  induction n generalizing cur with
  | zero => exact matches_pure _
  | succ n ih =>
    apply (appendCluster_matches h hs ha cur).bind
    intro ncl
    split_ifs
    · exact matches_pure _
    · exact ih ncl

theorem ensureChainLength_matches (fuel first needed : ℕ) :
    Matches (Both R Q) (ensureChainLength fuel fs first needed : Io σ H _)
      (ensureChainLength fuel (fs.withDevice d) first needed) := by
  have hfirst : Matches (Both R Q) (if first < 2 then fatAlloc fs else pure first : Io σ H ℕ)
      (if first < 2 then fatAlloc (fs.withDevice d) else pure first) := by
    split_ifs
    · exact fatAlloc_matches h hs ha
    · exact matches_pure _
  unfold ensureChainLength
  apply hfirst.bind
  intro first'
  split_ifs
  · exact matches_pure _
  · apply (chainEnd_matches h _ _ _).bind
    intro r
    apply (extendChain_matches h hs ha _ _).bind
    intro last
    exact matches_pure _

theorem writeSkip_matches (k cl : ℕ) :
    Matches (Both R Q) (writeSkip fs k cl : Io σ H _) (writeSkip (fs.withDevice d) k cl) := by
  induction k generalizing cl with
  | zero => exact matches_pure _
  | succ k ih =>
    apply (nextOrAppend_matches h hs ha cl).bind
    intro nxt
    split_ifs
    · exact matches_pure _
    · exact ih nxt

theorem writeLoop_matches (n cl skip : ℕ) (rest : List UInt8) :
    Matches (Both R Q) (writeLoop fs n cl skip rest : Io σ H _) (writeLoop (fs.withDevice d) n cl skip rest) := by
  induction n generalizing cl skip rest with
  | zero =>
    unfold writeLoop
    split_ifs
    · exact matches_pure _
    · exact matches_stop _
  | succ n ih =>
    unfold writeLoop
    split_ifs
    · exact matches_pure _
    · refine (kmalloc_simulates ha _).option (matches_pure _) ?_
      rintro p p' ⟨hpos, hp⟩
      apply (readCluster_matches h hs hpos cl).bind
      intro r
      cases r with
      | none => exact kfree_then_matches ha hp (matches_pure _)
      | some tmp =>
        apply (writeCluster_matches h hs hpos cl _).bind
        intro rc
        apply kfree_then_matches ha hp
        simp only [withDevice_clusterSize]
        apply matches_ite <;> intro _
        · exact matches_pure _
        apply matches_ite <;> intro _
        · exact matches_pure _
        · apply (nextOrAppend_matches h hs ha cl).bind
          intro nxt
          split_ifs
          · exact matches_pure _
          · exact ih nxt 0 _

theorem exfatWrite_matches (fuel : ℕ) (node : Node) (off : ℕ) (buf : List UInt8) :
    Matches (Both R Q) (exfatWrite fuel fs node off buf : Io σ H _) (exfatWrite fuel (fs.withDevice d) node off buf) := by
  unfold exfatWrite
  simp only [withDevice_clusterSize]
  apply matches_ite <;> intro _
  · exact matches_pure _
  apply matches_ite <;> intro _
  · exact matches_pure _
  apply matches_ite <;> intro _
  · exact matches_stop _
  · apply (ensureChainLength_matches h hs ha _ _ _).bind
    intro r
    apply matches_ite <;> intro _
    · exact matches_pure _
    · apply (writeSkip_matches h hs ha _ _).bind
      intro cl
      apply matches_ite <;> intro _
      · exact matches_pure _
      · apply (writeLoop_matches h hs ha _ _ _ _).bind
        intro ok
        apply matches_ite <;> intro _
        · exact matches_pure _
        · apply (dirUpdateStream_matches h hs ha _ _ _).bind
          intro _
          exact matches_pure _

theorem exfatCreate_matches (path : CString) :
    Matches (Both R Q) (exfatCreate fs path : Io σ H _) (exfatCreate (fs.withDevice d) path) := by
  unfold exfatCreate
  simp only [withDevice_clusterSize, withDevice_rootDirCluster]
  apply matches_ite <;> intro _
  · exact matches_pure _
  · refine (loadRoot_simulates h hs ha).option (matches_pure _) ?_
    rintro ⟨p, dir⟩ ⟨p', _⟩ ⟨hpos, hp, rfl⟩
    dsimp only
    apply matches_ite <;> intro _
    · exact kfree_then_matches ha hp (matches_pure _)
    · apply (fatAlloc_matches h hs ha).bind
      intro cl
      apply matches_ite <;> intro _
      · exact kfree_then_matches ha hp (matches_pure _)
      · apply (writeCluster_matches h hs hpos _ _).bind
        intro rc
        exact kfree_then_matches ha hp (matches_pure _)

theorem exfatUnlink_matches (fuel : ℕ) (path : CString) :
    Matches (Both R Q) (exfatUnlink fuel fs path : Io σ H _) (exfatUnlink fuel (fs.withDevice d) path) := by
  unfold exfatUnlink
  simp only [withDevice_rootDirCluster]
  apply matches_ite <;> intro _
  · exact matches_pure _
  · refine (loadRoot_simulates h hs ha).option (matches_pure _) ?_
    rintro ⟨p, dir⟩ ⟨p', _⟩ ⟨hpos, hp, rfl⟩
    dsimp only
    split
    · exact kfree_then_matches ha hp (matches_pure _)
    · apply (freeChain_matches h fuel _).bind
      intro _
      apply (writeCluster_matches h hs hpos _ _).bind
      intro rc
      exact kfree_then_matches ha hp (matches_pure _)

end Heap

end Driver

section Mount

variable {b : BlockDevice σ}

def Moved (b : BlockDevice σ) (d : BlockDevice τ) (f : Fs σ) (g : Fs τ) : Prop :=
  f.bdev = b ∧ Sized f ∧ g = f.withDevice d

theorem exfatMount_simulates [KernelAlloc H] [KernelAlloc H'] (h : SameAnswers R b d) (ha : SameRoom Q P) :
    Simulates (Both R Q) (Option.Rel (Moved b d)) (exfatMount b : Io σ H _) (exfatMount d) := by
  have hnone : Simulates (Both R Q) (Option.Rel (Moved b d)) (pure none : Io σ H (Option (Fs σ))) (pure none) :=
    simulates_pure .none
  have hsome {fs : Fs σ} (hb : fs.bdev = b) (hs : Sized fs) : Simulates (Both R Q) (Option.Rel (Moved b d))
      (pure (some fs) : Io σ H (Option (Fs σ))) (pure (some (fs.withDevice d))) := simulates_pure (.some ⟨hb, hs, rfl⟩)
  unfold exfatMount
  rw [h.sector]
  split_ifs
  · exact hnone
  · refine (kmalloc_simulates ha _).option hnone ?_
    rintro p p' ⟨hpos, hp⟩
    apply Simulates.bind (bdevRead_matches h (by decide) Nat.one_pos (by decide))
    rintro r _ rfl
    dsimp only
    split_ifs
    · exact simulates_stop _
    · apply hsome rfl
      have hspc := (byteAt r.2 0x6D).toNat_lt
      constructor
      · dsimp only
        omega
      · intro hne
        apply Nat.pos_of_ne_zero
        rintro h0
        dsimp only at hne h0
        exact hne (by simp [h0])
    · exact hsome rfl ⟨show 1 < 2 ^ 32 by decide, fun _ => Nat.one_pos⟩

end Mount

end DexOs.Exfat
