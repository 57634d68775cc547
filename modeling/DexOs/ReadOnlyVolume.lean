import DexOs.VolumeIsolation

/-! A volume on a device that refuses to write, as the boot image is registered. -/

namespace DexOs.Exfat

open DexOs.Lib

variable {ι σ H α β : Type}

/-- Reads keep the state and writes return -1 without a change. -/
structure ReadOnly (b : BlockDevice σ) : Prop where
  read : ∃ r, b.read = some r ∧ ∀ s lba count, (r s lba count).2 = s
  write : ∃ r, b.write = some r ∧ ∀ s lba buf count, r s lba buf count = (-1, s)

theorem memdisk_readOnly (name : List UInt8) {p : Memdisk} (sectorSize : ℕ) (hw : p.writable = false) :
    ReadOnly (memdiskDevice name p sectorSize) where
  read := by
    refine ⟨_, rfl, fun m lba count => ?_⟩
    unfold memRead
    split <;> rfl
  write := by
    refine ⟨_, rfl, fun m lba buf count => ?_⟩
    rw [memWrite, if_pos hw]

section Frozen

def frozen (b : BlockDevice σ) (s : σ) : BlockDevice Unit where
  name := b.name
  sectorSize := b.sectorSize
  sectorCount := b.sectorCount
  read := b.read.map fun r _ lba count => ((r s lba count).1, ())
  write := some fun _ _ _ _ => (-1, ())

theorem frozen_sameAnswers {b : BlockDevice σ} (hb : ReadOnly b) (s : σ) :
    SameAnswers (fun t _ => t = s) b (frozen b s) where
  sector := rfl
  read := by
    obtain ⟨r, hr, hkeep⟩ := hb.read
    refine ⟨r, fun _ lba count => ((r s lba count).1, ()), hr, by simp [frozen, hr], ?_⟩
    rintro _ _ lba count rfl _ _ _
    exact ⟨rfl, hkeep _ lba count⟩
  write := by
    obtain ⟨r, hr, hrefuse⟩ := hb.write
    refine ⟨r, _, hr, rfl, ?_⟩
    rintro _ _ lba buf count rfl _ _ _
    rw [hrefuse]
    exact ⟨rfl, rfl⟩

end Frozen

section Results

def Always (x : Io σ H α) (q : α → Prop) : Prop := ∀ w, Ends x w (fun _ => True) fun r _ => q r

theorem always_pure {a : α} {q : α → Prop} (h : q a) : Always (pure a : Io σ H α) q := fun _ => h

theorem always_stop (e : Fault) (q : α → Prop) : Always (stop e : Io σ H α) q := fun _ => trivial

theorem Always.bind {x : Io σ H α} {f : α → Io σ H β} {p : α → Prop} {q : β → Prop} (hx : Always x p)
    (hf : ∀ a, p a → Always (f a) q) : Always (x >>= f) q :=
  fun w => ends_bind (hx w) fun a w' ha => hf a ha w'

theorem always_then {x : Io σ H α} {f : α → Io σ H β} {q : β → Prop} (hf : ∀ a, Always (f a) q) : Always (x >>= f) q :=
  fun w => ends_bind (ends_true x w) fun a w' _ => hf a w'

variable {fs : Fs σ} (hb : ReadOnly fs.bdev)

include hb

theorem bdevWrite_readOnly (lba : ℕ) (buf : List UInt8) (count : ℕ) :
    Always (bdevWrite fs.bdev lba buf count : Io σ H _) fun rc => rc = -1 := by
  obtain ⟨r, hr, hrefuse⟩ := hb.write
  intro w
  unfold Ends
  simp only [bdevWrite, hr, hrefuse]

theorem writeCluster_readOnly (cl : ℕ) (buf : List UInt8) : Always (writeCluster fs cl buf : Io σ H _) fun rc => rc = -1 := by
  unfold writeCluster
  dsimp only
  split_ifs
  · exact always_stop _ _
  · apply (bdevWrite_readOnly hb _ _ _).bind
    rintro _ rfl
    apply always_pure
    rw [if_neg (by omega)]

theorem fatSet_readOnly (cl val : ℕ) : Always (fatSet fs cl val : Io σ H _) fun rc => rc = -1 := by
  unfold fatSet
  split
  · exact always_stop _ _
  · apply always_then
    intro r
    split_ifs
    · exact always_pure rfl
    · apply (bdevWrite_readOnly hb _ _ _).bind
      rintro _ rfl
      exact always_pure rfl

variable [KernelAlloc H]

theorem fatAlloc_readOnly : Always (fatAlloc fs : Io σ H _) fun cl => cl = 0 := by
  unfold fatAlloc
  generalize fs.entries - 2 = n
  generalize 2 = cl
  induction n generalizing cl with
  | zero => exact always_pure rfl
  | succ n ih =>
    apply always_then
    intro v
    split_ifs
    · apply (fatSet_readOnly hb cl eoc).bind
      rintro _ rfl
      exact always_pure rfl
    · exact ih (cl + 1)

theorem writeLoop_readOnly (n cl skip : ℕ) {rest : List UInt8} (hrest : rest ≠ []) :
    Always (writeLoop fs n cl skip rest : Io σ H _) fun ok => ok = false := by
  cases n with
  | zero =>
    rw [writeLoop, if_neg hrest]
    exact always_stop _ _
  | succ n =>
    rw [writeLoop, if_neg hrest]
    apply always_then
    intro r
    cases r with
    | none => exact always_pure rfl
    | some p =>
      apply always_then
      intro r
      cases r with
      | none => exact always_then fun _ => always_pure rfl
      | some tmp =>
        apply (writeCluster_readOnly hb cl _).bind
        rintro _ rfl
        exact always_then fun _ => always_pure rfl

theorem exfatWrite_readOnly (fuel : ℕ) (node : Node) (off : ℕ) {buf : List UInt8} (hbuf : buf ≠ []) :
    Always (exfatWrite fuel fs node off buf : Io σ H _) fun r => r.1 = -1 := by
  unfold exfatWrite
  dsimp only
  split_ifs
  · exact always_pure rfl
  · exact always_stop _ _
  all_goals
    apply always_then
    intro r
    split_ifs
    · exact always_pure rfl
    · apply always_then
      intro cl
      split_ifs
      · exact always_pure rfl
      · apply (writeLoop_readOnly hb _ _ _ hbuf).bind
        rintro _ rfl
        exact always_pure rfl

theorem exfatCreate_readOnly (path : CString) : Always (exfatCreate fs path : Io σ H _) fun rc => rc = -1 := by
  unfold exfatCreate
  dsimp only
  split_ifs
  · exact always_pure rfl
  · apply always_then
    intro r
    cases r with
    | none => exact always_pure rfl
    | some r =>
      dsimp only
      split_ifs
      · exact always_then fun _ => always_pure rfl
      all_goals
        apply (fatAlloc_readOnly hb).bind
        rintro _ rfl
        exact always_then fun _ => always_pure rfl

theorem exfatUnlink_readOnly (fuel : ℕ) (path : CString) : Always (exfatUnlink fuel fs path : Io σ H _) fun rc => rc = -1 := by
  unfold exfatUnlink
  dsimp only
  split_ifs
  · exact always_pure rfl
  · apply always_then
    intro r
    cases r with
    | none => exact always_pure rfl
    | some r =>
      dsimp only
      split
      · exact always_then fun _ => always_pure rfl
      · apply always_then
        intro _
        apply (writeCluster_readOnly hb _ _).bind
        rintro _ rfl
        exact always_then fun _ => always_pure rfl

end Results

section Session

/-- A call that would change the volume returns -1. -/
def Refused : FileCall → Reply → Prop
  | .create _, r => r = .code (-1)
  | .unlink _, r => r = .code (-1)
  | .write _ _ buf, r => buf ≠ [] → r = .code (-1)
  | _, _ => True

variable [KernelAlloc H] {b : BlockDevice σ} (hb : ReadOnly b) {v : Volume σ} {u : Volume Unit} {s : σ}

include hb

theorem perform_readOnly (hv : SameVolume b (frozen b s) v u) (fuel : ℕ) (c : FileCall) :
    Always (perform fuel b v c : Io σ H _) fun r => Refused c r.1 := by
  have hmounted {bad : Reply × Volume σ} {op : Fs σ → Io σ H (Reply × Volume σ)} {q : Reply × Volume σ → Prop}
      (hbad : q bad) (hop : ∀ fs, ReadOnly fs.bdev → Always (op fs) q) : Always (onMounted v bad op) q := by
    have hm := hv.mounted
    unfold onMounted
    generalize v.mounted = x at hm ⊢
    generalize u.mounted = y at hm
    cases hm with
    | none => exact always_pure hbad
    | some hfs => exact hop _ (hfs.1 ▸ hb)
  cases c with
  | mount => exact fun w => (ends_true _ w).mono (fun _ h => h) fun _ _ _ => trivial
  | openFile path => exact fun w => (ends_true _ w).mono (fun _ h => h) fun _ _ _ => trivial
  | stat path => exact fun w => (ends_true _ w).mono (fun _ h => h) fun _ _ _ => trivial
  | read k off len => exact fun w => (ends_true _ w).mono (fun _ h => h) fun _ _ _ => trivial
  | create path =>
    refine hmounted rfl fun fs hfs => ?_
    apply (exfatCreate_readOnly hfs path).bind
    rintro _ rfl
    exact always_pure rfl
  | unlink path =>
    refine hmounted rfl fun fs hfs => ?_
    apply (exfatUnlink_readOnly hfs fuel path).bind
    rintro _ rfl
    exact always_pure rfl
  | write k off buf =>
    by_cases hbuf : buf = []
    · exact fun w => (ends_true _ w).mono (fun _ h => h) fun _ _ _ hne => absurd hbuf hne
    · have hf := hv.file k
      simp only [perform, onFile]
      generalize v.opened[k]? = x at hf ⊢
      generalize u.opened[k]? = y at hf
      cases hf with
      | none => exact always_pure fun _ => rfl
      | some hfile =>
        apply (exfatWrite_readOnly (hfile.1.1 ▸ hb) fuel _ off hbuf).bind
        intro r hr
        apply always_pure
        intro _
        dsimp only
        rw [hr]

omit hb in
theorem sessions_readOnly [DecidableEq ι] {b : ι → BlockDevice σ} (hb : ∀ i, ReadOnly (b i)) (fuel : ℕ)
    (cs : List (ι × FileCall)) {v : ι → Volume σ} {u : ι → Volume Unit} (hv : ∀ i, SameVolume (b i) (frozen (b i) s) (v i) (u i))
    (h : H) : (sessions fuel b cs v ⟨s, h⟩).2.dev = s ∧
      ∀ k ∈ (sessions fuel b cs v ⟨s, h⟩).1, ∀ r, k.2.reply = .ok r → Refused k.2.call r := by
  induction cs generalizing v u h with
  | nil => exact ⟨rfl, nofun⟩
  | cons c cs ih =>
    rw [sessions]
    cases hrun : perform fuel (b c.1) (v c.1) c.2 ⟨s, h⟩ with
    | error e =>
      refine ⟨rfl, fun k hk r hr => ?_⟩
      rw [List.mem_singleton.mp hk] at hr
      cases hr
    | ok r =>
      obtain ⟨⟨r, v₁⟩, ⟨s₁, h₁⟩⟩ := r
      have hstart : (Both (fun t (_ : Unit) => t = s) (.tight Eq)).rel (⟨s, h⟩ : World σ H) ⟨(), h⟩ := ⟨rfl, rfl⟩
      obtain ⟨⟨r', u₁⟩, w', -, ⟨-, hu₁⟩, hs₁, -⟩ :=
        (perform_simulates (frozen_sameAnswers (hb c.1) s) sameRoom_eq (hv c.1) fuel c.2).ok hstart hrun
      obtain rfl : s₁ = s := hs₁
      have hv' := related_update (R := fun i => SameVolume (b i) (frozen (b i) s₁)) hv hu₁
      obtain ⟨hdev, hall⟩ := ih hv' h₁
      refine ⟨hdev, List.forall_mem_cons.mpr ⟨?_, hall⟩⟩
      rintro _ ⟨⟩
      exact (perform_readOnly (hb c.1) (hv c.1) fuel c.2 ⟨s₁, h⟩).post hrun

end Session

section Image

variable [KernelAlloc H] [DecidableEq ι] {p : ι → Memdisk}

/-- Calls on volumes on images that are registered as read-only disks change no byte of memory, up to the first call that
does not return, and every call that returns and would change the volume returns -1. -/
theorem image_unchanged (hp : ∀ i, (p i).writable = false) (name : ι → List UInt8) (sectorSize : ι → ℕ) (fuel : ℕ)
    (cs : List (ι × FileCall)) (m : Memory) (h : H) :
    let session := sessions fuel (fun i => memdiskDevice (name i) (p i) (sectorSize i)) cs (fun _ => Volume.empty) ⟨m, h⟩
    session.2.dev = m ∧ ∀ k ∈ session.1, ∀ r, k.2.reply = .ok r → Refused k.2.call r :=
  sessions_readOnly (fun i => memdisk_readOnly (name i) (sectorSize i) (hp i)) fuel cs (fun _ => sameVolume_empty) h

theorem letter_ne_zero : (97 : UInt8) ≠ 0 := by decide

def imageCalls : List (Unit × FileCall) :=
  [((), .mount), ((), .create (pathOf 97 letter_ne_zero)), ((), .stat (pathOf 97 letter_ne_zero))]

theorem image_unchanged_ram0 :
    let session := sessions 5 (fun _ : Unit => memdiskDevice [] ⟨0x200000, 0xA0000, false⟩ 512) imageCalls
      (fun _ => Volume.empty) (⟨fun _ => 0, KernelHeap.bootHeap⟩ : World Memory KernelHeap.Heap)
    session.1.map (fun k => k.2.reply.toOption) = [some (.code 0), some (.code (-1)), some (.info none)] ∧
      session.2.dev = (fun _ => 0) ∧ ∀ k ∈ session.1, ∀ r, k.2.reply = .ok r → Refused k.2.call r :=
  ⟨by decide +kernel, image_unchanged (fun _ => rfl) (fun _ => []) (fun _ => 512) 5 imageCalls _ _⟩

end Image

end DexOs.Exfat
