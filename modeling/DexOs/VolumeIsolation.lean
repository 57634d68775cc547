import DexOs.FileSessions
import DexOs.MemoryWindows
import DexOs.KernelHeapLedger

/-! Volumes on disjoint sectors of memory do not meet, whatever bytes they hold. -/

namespace DexOs.Exfat

open DexOs.Lib

variable {ι H : Type} {b : BlockDevice Memory} {lo n : ℕ}

def Within (lo n : ℕ) (m₀ m s : Memory) : Prop := Shows lo n m s ∧ ∀ a, ¬ InSectors lo n a → m a = m₀ a

theorem window_sameAnswers (hw : Window (2 ^ 32) b lo n) (m₀ : Memory) :
    SameAnswers (Within lo n m₀) b (ownDisk n) where
  sector := hw.sector.symm
  read := by
    obtain ⟨r, hr, hanswer⟩ := hw.read
    refine ⟨r, _, hr, rfl, fun m s lba count hms hl hpos hc => ?_⟩
    rw [hanswer m lba count hl hpos hc]
    split_ifs with hin
    · rw [peek_of_shows hms.1 hin]
      exact ⟨rfl, hms⟩
    · exact ⟨rfl, hms⟩
  write := by
    obtain ⟨r, hr, hanswer⟩ := hw.write
    refine ⟨r, _, hr, rfl, fun m s lba buf count hms hl hpos hc => ?_⟩
    rw [hanswer m lba buf count hl hpos hc]
    split_ifs with hin
    · refine ⟨rfl, shows_poke hms.1 lba _, fun a ha => ?_⟩
      have hlen := List.length_take_le (count * 512) buf
      unfold InSectors at ha
      dsimp only
      rw [poke_outside m _ (by omega) hlen]
      exact hms.2 a ha
    · exact ⟨rfl, hms⟩

theorem sameRoom_eq [KernelAlloc H] : SameRoom (.tight (Eq : H → H → Prop)) Eq where
  kmalloc h _ k hh := by
    obtain rfl : h = _ := hh
    refine .inr ⟨?_, rfl⟩
    cases (KernelAlloc.kmalloc h k).1 with
    | none => exact .none
    | some p => exact .some rfl
  kfree h _ p _ hh hp := by
    obtain rfl : h = _ := hh
    rw [hp]
    rfl
  kmalloc_broken _ _ hb := hb.elim
  kfree_broken _ _ hb := hb.elim
  partner q := ⟨q, rfl⟩

section Step

variable [KernelAlloc H] {fuel : ℕ} {c : FileCall} {v v' u : Volume Memory} {m s : Memory} {h : H} {w' : World Memory H}
  {r : Reply}

theorem perform_within (hw : Window (2 ^ 32) b lo n) (hv : SameVolume b (ownDisk n) v u) (hs : Shows lo n m s)
    (hrun : perform fuel b v c ⟨m, h⟩ = .ok ((r, v'), w')) :
    ∃ u' s', perform fuel (ownDisk n) u c ⟨s, h⟩ = .ok ((r, u'), ⟨s', w'.heap⟩) ∧
      SameVolume b (ownDisk n) v' u' ∧ Within lo n m w'.dev s' := by
  have hstart : (Both (Within lo n m) (.tight Eq)).rel (⟨m, h⟩ : World Memory H) ⟨s, h⟩ := ⟨⟨hs, fun _ _ => rfl⟩, rfl⟩
  obtain ⟨⟨r', u'⟩, ⟨s', h'⟩, hown, ⟨hr, hu'⟩, hm', hh'⟩ :=
    (perform_simulates (window_sameAnswers hw m) sameRoom_eq hv fuel c).ok hstart hrun
  obtain rfl : r = r' := hr
  obtain rfl : w'.heap = h' := hh'
  exact ⟨u', s', hown, hu', hm'⟩

theorem perform_fault (hw : Window (2 ^ 32) b lo n) (hv : SameVolume b (ownDisk n) v u) (hs : Shows lo n m s) {e : Fault}
    (hrun : perform fuel b v c ⟨m, h⟩ = .error e) : perform fuel (ownDisk n) u c ⟨s, h⟩ = .error e :=
  (perform_simulates (window_sameAnswers hw m) sameRoom_eq hv fuel c).error
    (show (Both (Within lo n m) (.tight Eq)).rel (⟨m, h⟩ : World Memory H) ⟨s, h⟩ from ⟨⟨hs, fun _ _ => rfl⟩, rfl⟩) hrun

end Step

section Session

/-- The windows have no address in common. -/
def Apart (lo n : ι → ℕ) : Prop := ∀ i j a, InSectors (lo i) (n i) a → InSectors (lo j) (n j) a → i = j

theorem shows_apart {lo n : ι → ℕ} {m m₁ s : Memory} {i k : ι} (hapart : Apart lo n) (hs : Shows (lo i) (n i) m s)
    (hi : i ≠ k) (hframe : ∀ a, ¬ InSectors (lo k) (n k) a → m₁ a = m a) : Shows (lo i) (n i) m₁ s := by
  intro j hj
  have hout : ¬ InSectors (lo k) (n k) (lo i + j) := fun hin =>
    hi (hapart i k _ ⟨Nat.le_add_right _ _, Nat.add_lt_add_left hj _⟩ hin)
  exact (hframe _ hout).trans (hs j hj)

variable [DecidableEq ι]

def onVolume {α : Type} (i : ι) : List (ι × α) → List α
  | [] => []
  | x :: xs => if x.1 = i then x.2 :: onVolume i xs else onVolume i xs

variable {b : ι → BlockDevice Memory} {lo n : ι → ℕ} (hw : ∀ i, Window (2 ^ 32) (b i) (lo i) (n i))
  [KernelAlloc H] {fuel : ℕ} {v : ι → Volume Memory} {m : Memory} {h : H}

theorem sessions_fault {c : ι × FileCall} {e : Fault} (cs : List (ι × FileCall))
    (hrun : perform fuel (b c.1) (v c.1) c.2 ⟨m, h⟩ = .error e) :
    sessions fuel b (c :: cs) v ⟨m, h⟩ = ([(c.1, ⟨c.2, h, .error e⟩)], ⟨m, h⟩) := by rw [sessions, hrun]

theorem sessions_reply {c : ι × FileCall} {r : Reply} {v₁ : Volume Memory} {w₁ : World Memory H}
    (cs : List (ι × FileCall)) (hrun : perform fuel (b c.1) (v c.1) c.2 ⟨m, h⟩ = .ok ((r, v₁), w₁)) :
    sessions fuel b (c :: cs) v ⟨m, h⟩ =
      ((c.1, ⟨c.2, h, .ok r⟩) :: (sessions fuel b cs (Function.update v c.1 v₁) w₁).1,
        (sessions fuel b cs (Function.update v c.1 v₁) w₁).2) := by rw [sessions, hrun]

include hw

theorem sessions_outside (cs : List (ι × FileCall)) (hv : ∀ i, ∃ u, SameVolume (b i) (ownDisk (n i)) (v i) u) {a : ℕ}
    (hout : ∀ i, ¬ InSectors (lo i) (n i) a) : (sessions fuel b cs v ⟨m, h⟩).2.dev a = m a := by
  induction cs generalizing m h v with
  | nil => rfl
  | cons c cs ih =>
    cases hrun : perform fuel (b c.1) (v c.1) c.2 ⟨m, h⟩ with
    | error e => rw [sessions_fault cs hrun]
    | ok r =>
      obtain ⟨⟨r, v₁⟩, ⟨m₁, h₁⟩⟩ := r
      obtain ⟨u, hu⟩ := hv c.1
      obtain ⟨u', s', -, hu', -, hframe⟩ := perform_within (s := fun k => m (lo c.1 + k)) (hw c.1) hu (fun _ _ => rfl) hrun
      rw [sessions_reply cs hrun]
      have hv' := (Function.forall_update_iff v fun i v => ∃ u, SameVolume (b i) (ownDisk (n i)) v u).mpr
        ⟨⟨u', hu'⟩, fun i _ => hv i⟩
      exact (ih hv').trans (hframe a (hout c.1))

/-- What the volume `i` replies in a session and what is then in its window is the same on a disk of its own, where every
call finds the heap that it found in the session. -/
def Alone (fuel : ℕ) (dev : BlockDevice Memory) (lo n : ℕ) (calls : List (Made H)) (u : Volume Memory) (s m' : Memory) : Prop :=
  (replay fuel dev (calls.map fun k => (k.call, k.heap)) u s).1 = calls.map Made.reply ∧
    Shows lo n m' (replay fuel dev (calls.map fun k => (k.call, k.heap)) u s).2

theorem sessions_alone (hapart : Apart lo n) (cs : List (ι × FileCall)) {u : ι → Volume Memory} {s : ι → Memory}
    (hv : ∀ i, SameVolume (b i) (ownDisk (n i)) (v i) (u i)) (hs : ∀ i, Shows (lo i) (n i) m (s i)) (i : ι) :
    Alone fuel (ownDisk (n i)) (lo i) (n i) (onVolume i (sessions fuel b cs v ⟨m, h⟩).1) (u i) (s i)
      (sessions fuel b cs v ⟨m, h⟩).2.dev := by
  induction cs generalizing m h v u s with
  | nil => exact ⟨rfl, hs i⟩
  | cons c cs ih =>
    cases hrun : perform fuel (b c.1) (v c.1) c.2 ⟨m, h⟩ with
    | error e =>
      have hown := perform_fault (hw c.1) (hv c.1) (hs c.1) hrun
      rw [sessions_fault cs hrun, Alone]
      simp only [onVolume]
      split_ifs with heq
      · subst heq
        simp only [List.map_cons, List.map_nil, replay]
        rw [hown]
        exact ⟨rfl, hs _⟩
      · exact ⟨rfl, hs i⟩
    | ok r =>
      obtain ⟨⟨r, v₁⟩, ⟨m₁, h₁⟩⟩ := r
      obtain ⟨u₁, s₁, hown, hu₁, hs₁, hframe⟩ := perform_within (hw c.1) (hv c.1) (hs c.1) hrun
      have hv' := related_update (R := fun i => SameVolume (b i) (ownDisk (n i))) hv hu₁
      have hs' := (Function.forall_update_iff s fun i t => Shows (lo i) (n i) m₁ t).mpr
        ⟨hs₁, fun i hi => shows_apart hapart (hs i) hi hframe⟩
      have hrest := ih (h := h₁) hv' hs'
      rw [sessions_reply cs hrun]
      simp only [onVolume]
      split_ifs with heq
      · subst heq
        rw [Function.update_self, Function.update_self] at hrest
        rw [Alone]
        simp only [List.map_cons, replay]
        rw [hown]
        exact ⟨congrArg _ hrest.1, hrest.2⟩
      · rw [Function.update_of_ne (Ne.symm heq), Function.update_of_ne (Ne.symm heq)] at hrest
        exact hrest

end Session

section TwoDisks

def twoDisks (i : Bool) : Ramdisk := ⟨if i then 0x400000 else 0x200000, 0xA0000⟩

def pathOf (c : UInt8) (h : c ≠ 0) : CString := ⟨[c], by simpa using h.symm⟩

def twoCalls : List (Bool × FileCall) :=
  [(false, .mount), (true, .mount), (true, .openFile (pathOf 97 (by decide))), (false, .create (pathOf 97 (by decide)))]

def twoReplies : List (Bool × Reply) :=
  [(false, .code 0), (true, .code 0), (true, .file none), (false, .code 0)]

theorem twoDisks_window (i : Bool) :
    Window (2 ^ 32) (ramdiskDevice [] (twoDisks i)) (twoDisks i).data 1280 := by
  cases i <;> exact (ramdisk_window [] (by decide) (by decide)).mono (by decide)

theorem twoDisks_apart : Apart (fun i => (twoDisks i).data) fun _ => 1280 := by
  intro i j a hi hj
  cases i <;> cases j <;> first | rfl | (simp only [InSectors, twoDisks] at hi hj; simp at hi hj; omega)

end TwoDisks

section Partitions

variable [DecidableEq ι] [KernelAlloc H] {p : ι → Partition Memory} {lo n : ι → ℕ} {fuel : ℕ}

/-- Calls on volumes in partitions change no byte outside the sectors of the partitions' entries, whatever the sectors
hold, up to the first call that does not return. The driver never asks for a sector number so large that the guard of
`part_write` lets it wrap around. -/
theorem partition_sessions_confined {devs : List (BlockDevice Memory)} {m₀ : Memory} {h₀ : H}
    (hp : ∀ i, p i ∈ (blockScanPartitions devs m₀ h₀).1) (hw : ∀ i, Window (2 ^ 33) (p i).parent (lo i) (n i))
    (cs : List (ι × FileCall)) (m : Memory) (h : H) {a : ℕ}
    (hout : ∀ i, ¬ InSectors (lo i + (p i).lbaBase * 512) (p i).lbaCount a) :
    (sessions fuel (fun i => (p i).toDevice) cs (fun _ => Volume.empty) ⟨m, h⟩).2.dev a = m a := by
  have hwindow (i : ι) := partition_window (scan_registered (hp i)) (hw i) (by decide)
  refine sessions_outside hwindow cs (fun _ => ⟨_, sameVolume_empty⟩) fun i hin => hout i ⟨hin.1, ?_⟩
  exact hin.2.trans_le (Nat.add_le_add_left (Nat.mul_le_mul_right 512 (min_le_left _ _)) _)

def wideDisk : BlockDevice Memory := ramdiskDevice [114, 97, 109, 48] ⟨0x200000, 0xA0200⟩

def wideDiskMemory : Memory := fun a =>
  if a = 0x200000 + 450 then 7 else if a = 0x200000 + 454 then 1 else if a = 0x200000 + 459 then 5
  else if a = 0x200000 + 510 then 0x55 else if a = 0x200000 + 511 then 0xAA else 0

def widePartition : Partition Memory := ⟨[114, 97, 109, 48, 112, 49], wideDisk, 1, 1280⟩

theorem widePartition_scanned : (blockScanPartitions [wideDisk] wideDiskMemory ()).1 = [widePartition] := by
  have hread : rdRead ⟨0x200000, 0xA0200⟩ 512 wideDiskMemory 0 1 =
      ((1, peek wideDiskMemory 0x200000 512), wideDiskMemory) := by simp [rdRead, rdRange]
  have hbyte {i : ℕ} (hi : i < 512) : byteAt (peek wideDiskMemory 0x200000 512) i = wideDiskMemory (0x200000 + i) :=
    byteAt_peek _ _ hi
  have hentry (i : ℕ) (hi : i < 4) : mbrEntry (peek wideDiskMemory 0x200000 512) i =
      if i = 0 then ⟨7, 1, 1280⟩ else ⟨0, 0, 0⟩ := by
    interval_cases i <;> simp [mbrEntry, leNat, hbyte, wideDiskMemory]
  simp [blockScanPartitions, scanDevice, wideDisk, ramdiskDevice, hread, hbyte, wideDiskMemory, scanEntries,
    DexOs.scanEntry, hentry, KernelAlloc.kmalloc, widePartition, partitionName]

def wideCalls : List (Unit × FileCall) :=
  [((), .mount), ((), .create (pathOf 97 (by decide))), ((), .openFile (pathOf 97 (by decide))), ((), .write 0 0 [1, 2])]

theorem widePartition_confined :
    let session := sessions 3 (fun _ : Unit => widePartition.toDevice) wideCalls (fun _ => Volume.empty)
      (⟨wideDiskMemory, ()⟩ : World Memory Unit)
    session.1.map (fun k => k.2.reply.toOption) =
        [some (.code 0), some (.code 0), some (.file (some ⟨2, false, 0⟩)), some (.code 2)] ∧
      ∀ a, ¬ InSectors 0x200200 1280 a → session.2.dev a = wideDiskMemory a := by
  have hmem : widePartition ∈ (blockScanPartitions [wideDisk] wideDiskMemory ()).1 := by
    rw [widePartition_scanned]
    exact List.mem_singleton_self _
  have hdisk : Window (2 ^ 33) wideDisk 0x200000 1281 :=
    (ramdisk_window _ (by decide) (by decide)).mono (by decide)
  refine ⟨by decide +kernel, fun a ha => ?_⟩
  exact partition_sessions_confined (fun _ => hmem) (fun _ => hdisk) wideCalls wideDiskMemory () fun _ => ha

end Partitions

end DexOs.Exfat
