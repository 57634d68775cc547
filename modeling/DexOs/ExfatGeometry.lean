import DexOs.ExfatDirectoryBounds
import DexOs.ExfatHeap
import DexOs.ExfatMount

/-! What `exfat_mount` takes from the boot sector, and for which boot sectors the driver stays inside its
buffers. -/

namespace DexOs.Exfat

open DexOs.Lib

variable {σ H α β : Type}

section Mount

def mountPointer [KernelAlloc H] : Option (BlockDevice σ) → Io σ H (Option (Fs σ))
  -- `bdev->sector_size`
  | none => stop .memory
  | some bdev => exfatMount bdev

def Signed (vbr : ℕ → UInt8) : Prop := peek vbr 3 8 = [0x45, 0x58, 0x46, 0x41, 0x54, 0x20, 0x20, 0x20]

def bpsShift (vbr : ℕ → UInt8) : ℕ := (vbr 0x6C).toNat

def spcByte (vbr : ℕ → UInt8) : ℕ := (vbr 0x6D).toNat

def signedFs (bdev : BlockDevice σ) (vbr : ℕ → UInt8) : Fs σ :=
  ⟨bdev, leNat vbr 4 0x80, leNat vbr 4 0x84, leNat vbr 4 0x88, 2 ^ bpsShift vbr, spcByte vbr,
    2 ^ bpsShift vbr * spcByte vbr % 2 ^ 32, leNat vbr 4 0xA0⟩

/-- The device has the bytes `vbr` in its sector 0, or cannot read it. -/
def Presents (vbr : ℕ → UInt8) (d : BlockDevice σ) (s : σ) : Prop :=
  Proper d ∧ ∀ read, d.read = some read → (read s 0 1).1.1 = 1 → (read s 0 1).1.2 = peek vbr 0 512

variable [KernelAlloc H] {d : BlockDevice σ} {w : World σ H} {vbr : ℕ → UInt8}

theorem exfatMount_ends (h : Presents vbr d w.dev) :
    Ends (exfatMount d) w (fun _ => Signed vbr ∧ 32 ≤ bpsShift vbr) fun r _ => ∀ fs, r = some fs →
      d.sectorSize = 512 ∧ (fs = fallbackFs d ∨ Signed vbr ∧ bpsShift vbr < 32 ∧ fs = signedFs d vbr) := by
  obtain ⟨hp, hlba⟩ := h
  unfold exfatMount
  split
  case isTrue =>
    intro fs hfs
    cases hfs
  case isFalse hsector =>
    have h512 := not_not.mp hsector
    have hheap : Ends (kmalloc 40 : Io σ H _) w (fun _ => Signed vbr ∧ 32 ≤ bpsShift vbr) fun _ w' => w'.dev = w.dev := rfl
    apply ends_bind hheap
    intro r w' hdev
    cases r with
    | none =>
      intro fs hfs
      cases hfs
    | some p =>
      apply ends_bind (R := fun r _ => r.1 = 1 → r.2 = peek vbr 0 512)
      · unfold Ends bdevRead
        cases hread : d.read with
        | none => exact absurd hread hp.read_some
        | some read =>
          dsimp only
          rw [hdev]
          exact hlba read hread
      · intro r w'' hr
        split
        case isTrue hsig =>
          rw [hr hsig.1, drop_take_peek _ _ (by decide)] at hsig
          rw [hr hsig.1]
          dsimp only
          rw [byteAt_peek _ _ (by decide), byteAt_peek _ _ (by decide)]
          split
          case isTrue hshift => exact ⟨hsig.2, hshift⟩
          case isFalse hshift =>
            intro fs hfs
            obtain rfl := Option.some.inj hfs
            refine ⟨h512, .inr ⟨hsig.2, Nat.lt_of_not_le hshift, ?_⟩⟩
            rw [leNat_peek _ _ (by decide), leNat_peek _ _ (by decide), leNat_peek _ _ (by decide),
              leNat_peek _ _ (by decide)]
            rfl
        case isFalse =>
          intro fs hfs
          obtain rfl := Option.some.inj hfs
          exact ⟨h512, .inl rfl⟩

end Mount

section Sound

variable [KernelAlloc H]

/-- A file handle of the volume: some `exfat_open` has returned it, and `exfat_write` may have changed it since. -/
inductive Returned (H : Type) [KernelAlloc H] (fs : Fs σ) : Node → Prop
  | opened {w w' : World σ H} {path : CString} {node : Node} (h : exfatOpen fs path w = .ok (some node, w')) :
    Returned H fs node
  | written {w w' : World σ H} {fuel off : ℕ} {buf : List UInt8} {rc : ℤ} {node node' : Node} (hn : Returned H fs node)
    (h : exfatWrite fuel fs node off buf w = .ok ((rc, node'), w')) : Returned H fs node'

/-- No call on the volume leaves a buffer, divides by zero or calls a null pointer, whatever its arguments and
the sectors of the device. A call may still run out of fuel. -/
structure Guarded (fs : Fs σ) (w : World σ H) : Prop where
  opened : ∀ path, exfatOpen fs path w ≠ .error .memory
  stat : ∀ path, exfatStat fs path w ≠ .error .memory
  read : ∀ node off len, Returned H fs node → exfatRead fs node off len w ≠ .error .memory
  write : ∀ fuel node off buf, Returned H fs node → exfatWrite fuel fs node off buf w ≠ .error .memory
  create : ∀ path, exfatCreate fs path w ≠ .error .memory
  unlink : ∀ fuel path, exfatUnlink fuel fs path w ≠ .error .memory
  directory : ∀ dir, dir.length = fs.clusterSize → InBounds dir

omit [KernelAlloc H] in
theorem ends_not_memory {x : Io σ H α} {w : World σ H} {Q : α → World σ H → Prop} (h : Ends x w (· = .fuel) Q) :
    x w ≠ .error .memory := by
  intro hx
  unfold Ends at h
  rw [hx] at h
  cases h

theorem noLedger : HeapLedger fun (_ : Multiset ℕ) (_ : H) => True := ⟨fun _ _ => trivial, fun _ _ => trivial, fun _ => trivial⟩

theorem guarded_of_fs512 {fs : Fs σ} (hp : Proper fs.bdev) (hfs : Fs512 fs) (h0 : fs.clusterSize ≠ 0) (w : World σ H) :
    Guarded fs w := by
  have hE : ¬ Proper fs.bdev → Fault.memory = .fuel := fun h => absurd hp h
  have hdiv : fs.clusterSize = 0 → Fault.memory = .fuel := fun h => absurd h h0
  constructor
  case opened => exact fun path => ends_not_memory (exfatOpen_ends noLedger hfs hE path trivial)
  case stat => exact fun path => ends_not_memory ((exfatStat_neutral noLedger hfs hE path).ends trivial)
  case read =>
    exact fun node off len _ => ends_not_memory ((exfatRead_neutral noLedger hfs hE hdiv node off len).ends trivial)
  case write =>
    intro fuel node off buf _
    exact ends_not_memory ((exfatWrite_neutral (E := (· = .fuel)) noLedger hfs hE rfl hdiv fuel node off buf).ends trivial)
  case create => exact fun path => ends_not_memory ((exfatCreate_neutral noLedger hfs hE path).ends trivial)
  case unlink =>
    intro fuel path
    exact ends_not_memory ((exfatUnlink_neutral (E := (· = .fuel)) noLedger hfs hE rfl fuel path).ends trivial)
  case directory => exact fun dir _ => inBounds dir

/-- Some state of the heap has room for a block of `n` bytes. -/
def Grants (H : Type) [KernelAlloc H] (n : ℕ) : Prop := ∃ h : H, (KernelAlloc.kmalloc h n).1 ≠ none

section NoBuffer

/-! Without a buffer for a cluster no call gets past `kmalloc`, and no handle but that of the root directory exists. -/

variable {fs : Fs σ} {w : World σ H} (hno : ¬ Grants H fs.clusterSize)

include hno

theorem loadRoot_noBuffer : Wp (loadRoot fs) w fun r _ => r = none := by
  have hheap : Wp (kmalloc fs.clusterSize) w fun r _ => r = none :=
    ⟨_, _, rfl, by_contra fun h => hno ⟨w.heap, h⟩⟩
  apply wp_bind hheap
  rintro _ w' rfl
  exact wp_pure rfl

theorem dirScanRoot_noBuffer (n : ℕ) : Wp (dirScanRoot fs n) w fun r _ => r = [] := by
  apply wp_bind (loadRoot_noBuffer hno)
  rintro _ w' rfl
  exact wp_pure rfl

theorem exfatOpen_noBuffer (path : CString) : Wp (exfatOpen fs path) w fun r _ => ∀ node, r = some node → node.isDir = true := by
  have hheap (n : ℕ) (w : World σ H) : Wp (kmalloc n) w fun _ _ => True := ⟨_, _, rfl, trivial⟩
  have hfree (p : ℕ) (w : World σ H) : Wp (kfree p) w fun _ _ => True := ⟨_, _, rfl, trivial⟩
  unfold exfatOpen
  apply wp_bind (hheap 24 w)
  rintro (_ | n) w1 -
  · exact wp_pure fun node h => by cases h
  apply wp_bind (hheap 24 w1)
  rintro (_ | vn) w2 -
  · apply wp_bind (hfree n w2)
    rintro _ w3 -
    exact wp_pure fun node h => by cases h
  dsimp only
  split_ifs
  · refine wp_pure fun node h => ?_
    obtain rfl := Option.some.inj h
    rfl
  apply wp_bind (dirScanRoot_noBuffer hno 32)
  rintro _ w3 rfl
  apply wp_bind (hfree n w3)
  rintro _ w4 -
  apply wp_bind (hfree vn w4)
  rintro _ w5 -
  exact wp_pure fun node h => by cases h

theorem Returned.isDir {node : Node} (h : Returned H fs node) : node.isDir = true := by
  induction h with
  | opened h =>
    obtain ⟨r, w', hrun, hr⟩ := exfatOpen_noBuffer hno _
    rw [h] at hrun
    obtain ⟨rfl, -⟩ := Prod.mk.inj (Except.ok.inj hrun)
    exact hr _ rfl
  | written _ h ih =>
    rw [exfatWrite, if_pos ih] at h
    obtain ⟨h, -⟩ := Prod.mk.inj (Except.ok.inj h)
    obtain ⟨-, rfl⟩ := Prod.mk.inj h
    exact ih

theorem guarded_of_noBuffer (w : World σ H) : Guarded fs w := by
  have hok {α : Type} {x : Io σ H α} {Q : α → World σ H → Prop} (h : Wp x w Q) : x w ≠ .error .memory := by
    obtain ⟨r, w', hrun, -⟩ := h
    rw [hrun]
    exact fun h => by cases h
  constructor
  case opened => exact fun path => hok (exfatOpen_noBuffer hno path)
  case stat =>
    intro path
    unfold exfatStat
    split_ifs
    · exact hok (wp_pure (Q := fun _ _ => True) trivial)
    · refine hok (wp_bind (Q := fun _ _ => True) (dirScanRoot_noBuffer hno 32) ?_)
      rintro _ w' rfl
      exact wp_pure trivial
  case read =>
    intro node off len hn
    rw [exfatRead, if_pos (hn.isDir hno)]
    exact hok (wp_pure (Q := fun _ _ => True) trivial)
  case write =>
    intro fuel node off buf hn
    rw [exfatWrite, if_pos (hn.isDir hno)]
    exact hok (wp_pure (Q := fun _ _ => True) trivial)
  case create =>
    intro path
    unfold exfatCreate
    dsimp only
    split_ifs
    · exact hok (wp_pure (Q := fun _ _ => True) trivial)
    · refine hok (wp_bind (Q := fun _ _ => True) (loadRoot_noBuffer hno) ?_)
      rintro _ w' rfl
      exact wp_pure trivial
  case unlink =>
    intro fuel path
    unfold exfatUnlink
    dsimp only
    split_ifs
    · exact hok (wp_pure (Q := fun _ _ => True) trivial)
    · refine hok (wp_bind (Q := fun _ _ => True) (loadRoot_noBuffer hno) ?_)
      rintro _ w' rfl
      exact wp_pure trivial
  case directory => exact fun dir _ => inBounds dir

end NoBuffer

variable {bdev : BlockDevice σ} {vbr : ℕ → UInt8}

theorem fallbackFs_fs512 (h : bdev.sectorSize = 512) : Fs512 (fallbackFs bdev) := ⟨h, rfl, rfl⟩

theorem spcByte_lt (vbr : ℕ → UInt8) : spcByte vbr < 256 := (vbr 0x6D).toNat_lt

theorem signedFs_cluster_of_lt (h : bpsShift vbr ≤ 9) :
    (signedFs bdev vbr).clusterSize = 2 ^ bpsShift vbr * spcByte vbr := by
  have hspc := spcByte_lt vbr
  have hpow : 2 ^ bpsShift vbr ≤ 2 ^ 9 := Nat.pow_le_pow_right (by decide) h
  apply Nat.mod_eq_of_lt
  calc 2 ^ bpsShift vbr * spcByte vbr ≤ 2 ^ 9 * 256 := Nat.mul_le_mul hpow hspc.le
    _ < 2 ^ 32 := by decide

theorem signedFs_fs512 (h : bdev.sectorSize = 512) (h9 : bpsShift vbr = 9) : Fs512 (signedFs bdev vbr) := by
  refine ⟨h, ?_, ?_⟩
  · change 2 ^ bpsShift vbr = 512
    rw [h9]
    rfl
  · rw [signedFs_cluster_of_lt h9.le, h9]
    rfl

end Sound

section Unsound

/-! A boot sector with other values fails already on a large RAM disk. -/

theorem ramdisk_proper (name : List UInt8) (rd : Ramdisk) : Proper (ramdiskDevice name rd) := by
  refine ⟨by simp [ramdiskDevice], by simp [ramdiskDevice], ?_⟩
  intro read hread m lba count
  obtain rfl := Option.some.inj hread
  unfold rdRead
  split
  · exact Nat.zero_le _
  · split
    · exact Nat.zero_le _
    case h_2 off len hrange =>
      rw [length_peek]
      unfold rdRange at hrange
      dsimp only at hrange
      split at hrange
      · cases hrange
      · obtain ⟨-, rfl⟩ := Prod.mk.inj (Option.some.inj hrange)
        rw [mul_comm]
        exact Nat.mod_le _ _

def largeDisk : BlockDevice Memory := ramdiskDevice [0x72] ⟨0, 2 ^ 42⟩

theorem largeDisk_read (m : Memory) {lba count : ℕ} (hlba : lba < 2 ^ 32) (h0 : count ≠ 0) (hcount : count < 256) :
    rdRead ⟨0, 2 ^ 42⟩ 512 m lba count = (((count : ℤ), peek m (lba * 512) (count * 512)), m) := by
  have hoff : lba * 512 % 2 ^ 64 = lba * 512 := Nat.mod_eq_of_lt (by omega)
  have hlen : count * 512 % 2 ^ 64 = count * 512 := Nat.mod_eq_of_lt (by omega)
  have hsum : (lba * 512 + count * 512) % 2 ^ 64 = lba * 512 + count * 512 := Nat.mod_eq_of_lt (by omega)
  unfold rdRead rdRange
  rw [if_neg h0]
  dsimp only
  rw [hoff, hlen, hsum, if_neg (by omega)]
  dsimp only
  rw [Nat.zero_add, hoff]

theorem largeDisk_presents (vbr : ℕ → UInt8) : Presents vbr largeDisk vbr := by
  refine ⟨ramdisk_proper _ _, ?_⟩
  intro read hread _
  obtain rfl := Option.some.inj hread
  rw [largeDisk_read vbr (by decide) (by decide) (by decide)]

def Breaks (x : Io σ H α) (w : World σ H) : Prop := Ends x w (· = .memory) fun _ _ => False

theorem Breaks.eq {x : Io σ H α} {w : World σ H} (h : Breaks x w) : x w = .error .memory := by
  unfold Breaks Ends at h
  cases hx : x w with
  | error e =>
    rw [hx] at h
    rw [h]
  | ok r =>
    rw [hx] at h
    exact h.elim

theorem Breaks.bind {x : Io σ H α} {f : α → Io σ H β} {w : World σ H} (h : Breaks x w) : Breaks (x >>= f) w :=
  ends_bind h fun _ _ hf => hf.elim

theorem breaks_bind {x : Io σ H α} {f : α → Io σ H β} {w : World σ H} {R : α → World σ H → Prop} (hx : Wp x w R)
    (hf : ∀ a w', R a w' → Breaks (f a) w') : Breaks (x >>= f) w := ends_bind hx.ends hf

variable {vbr : ℕ → UInt8} {w : World Memory H}

theorem readCluster_breaks (hshift : bpsShift vbr < 9) (hspc : spcByte vbr ≠ 0) (cl : ℕ) :
    Breaks (readCluster (signedFs largeDisk vbr) cl) w := by
  have hlba : clToLba (signedFs largeDisk vbr) cl < 2 ^ 32 := Nat.mod_lt _ (by decide)
  have hsize : (signedFs largeDisk vbr).clusterSize < spcByte vbr * 512 := by
    rw [signedFs_cluster_of_lt hshift.le, mul_comm]
    exact Nat.mul_lt_mul_of_pos_left (Nat.pow_lt_pow_right (by decide) hshift) (Nat.pos_of_ne_zero hspc)
  have hread : bdevRead largeDisk (clToLba (signedFs largeDisk vbr) cl) (spcByte vbr) w =
      .ok (((spcByte vbr : ℤ), peek w.dev (clToLba (signedFs largeDisk vbr) cl * 512) (spcByte vbr * 512)), w) := by
    change Except.ok _ = _
    rw [largeDisk_read _ hlba hspc (spcByte_lt vbr)]
  unfold readCluster
  apply breaks_bind (R := fun r w' => r.1 = (spcByte vbr : ℤ) ∧ r.2.length = spcByte vbr * 512)
    ⟨_, _, hread, rfl, length_peek _ _ _⟩
  rintro r w' ⟨hret, hlen⟩
  have hret' : r.1 = (signedFs largeDisk vbr).sectorsPerCluster := hret
  rw [if_pos hret', if_pos (by rw [hlen]; exact hsize)]
  rfl

theorem fatSlot_none {fs : Fs σ} (h : 2 ^ 10 ≤ fs.bytesPerSector) : fatSlot fs 128 = none := by
  have hoff : 128 * 4 % 2 ^ 32 % fs.bytesPerSector = 512 := Nat.mod_eq_of_lt (by omega)
  unfold fatSlot
  dsimp only
  rw [if_neg (by omega), hoff, if_pos (by decide)]

theorem fatGet_breaks (hshift : 9 < bpsShift vbr) : Breaks (fatGet (signedFs largeDisk vbr) 128) w := by
  unfold fatGet
  rw [fatSlot_none (Nat.pow_le_pow_right (by decide) hshift)]
  rfl

theorem bdevRead_largeDisk {lba count : ℕ} (hlba : lba < 2 ^ 32) (h0 : count ≠ 0) (hcount : count < 256) :
    Wp (bdevRead largeDisk lba count) w fun r w' => r = (((count : ℕ) : ℤ), peek w.dev (lba * 512) (count * 512)) ∧ w' = w := by
  refine ⟨_, _, ?_, rfl, rfl⟩
  change Except.ok _ = _
  rw [largeDisk_read _ hlba h0 hcount]

def frontEntry : List UInt8 := entrySet [0x66] 128

section Directory

variable {dir : List UInt8} (hdir : ∀ i < 128, byteAt dir i = byteAt frontEntry i)

include hdir

theorem front_slot {k : ℕ} (hk : k < 4) : SameSlot frontEntry dir k := by
  intro off hoff
  exact hdir _ (by omega)

theorem findByName_front (h4 : 4 ≤ dir.length / 32) :
    findByName dir (dir.length / 32) [0x66] (dir.length / 32) 0 = some (0, 3) ∧ streamFirst dir 0 = 128 := by
  have htype {k : ℕ} (hk : k < 4) : slotType dir k = slotType frontEntry k := (front_slot hdir hk).type
  constructor
  · obtain ⟨n, hn⟩ := Nat.exists_eq_add_of_le h4
    have hprimary : isPrimary dir 0 = true := by
      rw [(front_slot hdir (by decide)).isPrimary]
      decide
    have hstream : hasStream dir (4 + n) 0 = true := by
      unfold hasStream
      rw [htype (by decide)]
      exact decide_eq_true ⟨by omega, by decide⟩
    have hnames : nameSlots dir (unlinkNameSlot dir) (4 + n - (0 + 2)) (0 + 2) [] = ([0x66], 3) := by
      rw [show 4 + n - (0 + 2) = n + 1 + 1 by omega, nameSlots, htype (by decide), if_pos (by decide), nameSlots,
        htype (by decide), if_neg (by decide), unlinkNameSlot_congr (front_slot hdir (by decide))]
      · decide
      · intro c hc
        exact List.mem_range.mp hc
    rw [hn, show 4 + n = 3 + n + 1 by omega, findByName]
    rw [show 3 + n + 1 = 4 + n by omega, if_neg, if_pos ⟨hprimary, hstream⟩]
    · dsimp only
      rw [hnames, if_pos rfl]
    · rw [htype (by decide)]
      rintro (h | h)
      · omega
      · exact absurd h (by decide)
  · unfold streamFirst
    rw [(front_slot hdir (by decide)).leNat (by decide)]
    decide

end Directory

def frontName : CString := ⟨[0x66], by decide⟩

variable [KernelAlloc H]

theorem loadRoot_breaks (hshift : bpsShift vbr < 9) (hspc : spcByte vbr ≠ 0)
    (hheap : (KernelAlloc.kmalloc w.heap (signedFs largeDisk vbr).clusterSize).1 ≠ none) :
    Breaks (loadRoot (signedFs largeDisk vbr)) w := by
  obtain ⟨p, hp⟩ := Option.ne_none_iff_exists'.mp hheap
  have hkmalloc : Wp (kmalloc (signedFs largeDisk vbr).clusterSize) w fun r _ => r = some p := ⟨_, _, rfl, hp⟩
  apply breaks_bind hkmalloc
  rintro _ w' rfl
  exact (readCluster_breaks hshift hspc _).bind

omit [KernelAlloc H] in
theorem readCluster_largeDisk (hspc : spcByte vbr ≠ 0) (cl : ℕ) :
    Ends (readCluster (signedFs largeDisk vbr) cl) w (· = .memory) fun r w' => w' = w ∧ ∃ dir, r = some dir ∧
      512 ≤ dir.length ∧ ∀ i < 512, byteAt dir i = w.dev (clToLba (signedFs largeDisk vbr) cl * 512 + i) := by
  have hlba : clToLba (signedFs largeDisk vbr) cl < 2 ^ 32 := Nat.mod_lt _ (by decide)
  have hone : 512 ≤ spcByte vbr * 512 := by omega
  unfold readCluster
  apply ends_bind (bdevRead_largeDisk hlba hspc (spcByte_lt vbr)).ends
  rintro r w' ⟨rfl, rfl⟩
  have hret : (((spcByte vbr : ℕ) : ℤ)) = (signedFs largeDisk vbr).sectorsPerCluster := rfl
  rw [if_pos hret]
  split_ifs
  · rfl
  · refine ⟨rfl, _, rfl, ?_, fun i hi => ?_⟩
    · rw [List.length_append, length_peek]
      exact hone.trans (Nat.le_add_right _ _)
    · rw [byteAt_append_left (by rw [length_peek]; omega), byteAt_peek _ _ (by omega)]

def frontDevice (vbr : ℕ → UInt8) : Memory :=
  poke (fun _ => 0) (clToLba (signedFs largeDisk vbr) (signedFs largeDisk vbr).rootDirCluster * 512) frontEntry

theorem exfatUnlink_breaks (hshift : 9 < bpsShift vbr) (hspc : spcByte vbr ≠ 0) {h : H}
    (hheap : (KernelAlloc.kmalloc h (signedFs largeDisk vbr).clusterSize).1 ≠ none) :
    Breaks (exfatUnlink 1 (signedFs largeDisk vbr) frontName) (⟨frontDevice vbr, h⟩ : World Memory H) := by
  obtain ⟨p, hp⟩ := Option.ne_none_iff_exists'.mp hheap
  have hkmalloc : Wp (kmalloc (signedFs largeDisk vbr).clusterSize) (⟨frontDevice vbr, h⟩ : World Memory H) fun r w' =>
      r = some p ∧ w'.dev = frontDevice vbr := ⟨_, _, rfl, hp, rfl⟩
  have hload : Ends (loadRoot (signedFs largeDisk vbr)) (⟨frontDevice vbr, h⟩ : World Memory H) (· = .memory)
      fun r _ => ∃ dir, r = some (p, dir) ∧ 512 ≤ dir.length ∧ ∀ i < 128, byteAt dir i = byteAt frontEntry i := by
    apply ends_bind hkmalloc.ends
    rintro _ w' ⟨rfl, hw'⟩
    apply ends_bind (readCluster_largeDisk hspc _)
    rintro _ w'' ⟨rfl, dir, rfl, hlen, hbytes⟩
    refine ⟨dir, rfl, hlen, fun i hi => ?_⟩
    have hfront : frontEntry.length = 96 := by decide
    rw [hbytes i (by omega), hw']
    unfold frontDevice poke
    split_ifs with hin
    · rw [Nat.add_sub_cancel_left]
    · rw [byteAt_of_length_le (by omega)]
  unfold exfatUnlink
  dsimp only
  rw [if_neg (by decide)]
  apply ends_bind hload
  rintro _ w' ⟨dir, rfl, hlen, hbytes⟩
  obtain ⟨hfind, hfirst⟩ := findByName_front hbytes (by omega)
  have hname : fileName frontName = [0x66] := by decide
  dsimp only
  rw [hname, hfind]
  dsimp only
  rw [hfirst]
  apply Breaks.bind
  rw [freeChain, if_neg (by decide)]
  exact (fatGet_breaks hshift).bind

theorem signedFs_not_guarded (hspc : spcByte vbr ≠ 0) (h9 : bpsShift vbr ≠ 9)
    {h : H} (hheap : (KernelAlloc.kmalloc h (signedFs largeDisk vbr).clusterSize).1 ≠ none) :
    ∃ m, ¬ Guarded (signedFs largeDisk vbr) (⟨m, h⟩ : World Memory H) := by
  refine ⟨frontDevice vbr, fun hg => ?_⟩
  rcases Nat.lt_or_gt_of_ne h9 with hlt | hgt
  · apply hg.stat frontName
    apply Breaks.eq
    unfold exfatStat dirScanRoot
    rw [if_neg (by decide)]
    exact (loadRoot_breaks hlt hspc hheap).bind.bind
  · exact hg.unlink 1 frontName (exfatUnlink_breaks hgt hspc hheap).eq

end Unsound

section Robust

/-- The device that `vfs_mount` hands over: none without a name, else one with the given sector 0. -/
def HandsOver (lba0 : Option (ℕ → UInt8)) (dev : Option (BlockDevice σ)) (s : σ) : Prop :=
  match lba0, dev with
  | none, none => True
  | some vbr, some d => Presents vbr d s
  | _, _ => False

/-- The mount itself is free of undefined behaviour, and after it so is every call on the volume, whatever the
device and the heap hold by then. -/
def Robust (H : Type) [KernelAlloc H] (lba0 : Option (ℕ → UInt8)) : Prop :=
  ∀ (σ : Type) (dev : Option (BlockDevice σ)) (w : World σ H), HandsOver lba0 dev w.dev →
    mountPointer dev w ≠ .error .memory ∧
      ∀ fs w₁, mountPointer dev w = .ok (some fs, w₁) → ∀ w₂ : World σ H, Guarded fs w₂

/-- A signed boot sector that does no harm: it gives sectors of 512 bytes and clusters that are not empty, or there is
never a buffer for its clusters, as for empty ones. -/
def Harmless (H : Type) [KernelAlloc H] (vbr : ℕ → UInt8) : Prop :=
  bpsShift vbr = 9 ∧ spcByte vbr ≠ 0 ∨
    bpsShift vbr < 32 ∧ ¬ Grants H (2 ^ bpsShift vbr * spcByte vbr % 2 ^ 32)

variable {H : Type} [KernelAlloc H] {vbr : ℕ → UInt8}

theorem exfatMount_refused {d : BlockDevice σ} (h40 : ¬ Grants H 40) (w : World σ H) :
    Wp (exfatMount d) w fun r _ => r = none := by
  unfold exfatMount
  split_ifs
  · exact wp_pure rfl
  · have hheap : Wp (kmalloc 40) w fun r _ => r = none := ⟨_, _, rfl, by_contra fun h => h40 ⟨w.heap, h⟩⟩
    apply wp_bind hheap
    rintro _ w' rfl
    exact wp_pure rfl

theorem robust_of_harmless (h : Signed vbr → Grants H 40 → Harmless H vbr) : Robust H (some vbr) := by
  intro σ dev w hdev
  cases dev with
  | none => exact hdev.elim
  | some d =>
    change exfatMount d w ≠ _ ∧ ∀ fs w₁, exfatMount d w = _ → _
    by_cases h40 : Grants H 40
    · have hmount := exfatMount_ends hdev
      constructor
      · intro hstop
        unfold Ends at hmount
        rw [hstop] at hmount
        obtain ⟨hsig, h32⟩ := hmount
        rcases h hsig h40 with h9 | hlt
        · omega
        · omega
      · intro fs w₁ hrun w₂
        obtain ⟨h512, hfs⟩ := hmount.post hrun fs rfl
        rcases hfs with rfl | ⟨hsig, -, rfl⟩
        · exact guarded_of_fs512 hdev.1 (fallbackFs_fs512 h512) (Nat.succ_ne_zero 511) w₂
        rcases h hsig h40 with ⟨h9, hspc⟩ | ⟨-, hno⟩
        · apply guarded_of_fs512 hdev.1 (signedFs_fs512 h512 h9)
          rw [signedFs_cluster_of_lt h9.le, h9]
          exact Nat.mul_ne_zero (by decide) hspc
        · exact guarded_of_noBuffer hno w₂
    · obtain ⟨r, w', hrun, rfl⟩ := exfatMount_refused (d := d) h40 w
      rw [hrun]
      refine ⟨(fun h => by cases h), fun fs w₁ h => ?_⟩
      cases h

theorem largeDisk_mount (hsig : Signed vbr) {h : H} (hheap : (KernelAlloc.kmalloc h 40).1 ≠ none) :
    exfatMount largeDisk (⟨vbr, h⟩ : World Memory H) =
      if 32 ≤ bpsShift vbr then .error .memory
      else .ok (some (signedFs largeDisk vbr), ⟨vbr, (KernelAlloc.kmalloc h 40).2⟩) := by
  obtain ⟨p, hp⟩ := Option.ne_none_iff_exists'.mp hheap
  have hkmalloc : kmalloc 40 (⟨vbr, h⟩ : World Memory H) = .ok (some p, ⟨vbr, (KernelAlloc.kmalloc h 40).2⟩) := by
    change Except.ok _ = _
    rw [← hp]
  have hread (g : H) : bdevRead largeDisk 0 1 (⟨vbr, g⟩ : World Memory H) = .ok ((1, peek vbr 0 512), ⟨vbr, g⟩) := by
    change Except.ok _ = _
    rw [largeDisk_read vbr (by decide) (by decide) (by decide)]
    rfl
  unfold exfatMount
  rw [if_neg (by decide), bind_run hkmalloc]
  dsimp only
  rw [bind_run (hread _), drop_take_peek _ _ (by decide), if_pos ⟨rfl, hsig⟩]
  dsimp only
  rw [byteAt_peek _ _ (by decide), byteAt_peek _ _ (by decide), leNat_peek _ _ (by decide),
    leNat_peek _ _ (by decide), leNat_peek _ _ (by decide), leNat_peek _ _ (by decide)]
  change (if 32 ≤ bpsShift vbr then stop .memory else pure (some (signedFs largeDisk vbr)) : Io Memory H _) _ = _
  split <;> rfl

def smallRam : BlockDevice Memory := ramdiskDevice [0x72, 0x61, 0x6D, 0x30] ⟨4096, 4096⟩

def halfSectors : Memory := fun a =>
  if a = 4096 + 0x6C then 8 else if a = 4096 + 0x6D then 1 else if a = 4096 + 0x88 ∨ a = 4096 + 0xA0 then 2
  else if 4099 ≤ a then byteAt [0x45, 0x58, 0x46, 0x41, 0x54, 0x20, 0x20, 0x20] (a - 4099) else 0

end Robust

end DexOs.Exfat
