import DexOs.ExfatSimulation
import Mathlib.Data.List.Forall2

/-! Sessions: calls of the exFAT driver in any order, on one volume or on several. -/

namespace DexOs.Exfat

open DexOs.Lib

variable {ι σ τ H H' : Type}

/-- A call on a volume. An open file is named by its place among the files opened on the volume. -/
inductive FileCall
  | mount
  | openFile (path : CString)
  | stat (path : CString)
  | create (path : CString)
  | unlink (path : CString)
  | read (k off len : ℕ)
  | write (k off : ℕ) (buf : List UInt8)

inductive Reply
  | code (rc : ℤ)
  | file (node : Option Node)
  | info (r : Option (ℕ × Bool))
  | bytes (rc : ℤ) (out : List UInt8)
deriving DecidableEq

/-- A call that was made: the kernel heap as it found it, and its reply, or why it did not return. -/
structure Made (H : Type) where
  call : FileCall
  heap : H
  reply : Except Fault Reply

structure OpenFile (σ : Type) where
  fs : Fs σ
  node : Node

structure Volume (σ : Type) where
  mounted : Option (Fs σ)
  opened : List (OpenFile σ)

def Volume.empty : Volume σ := ⟨none, []⟩

section Run

variable [KernelAlloc H]

def onMounted {α : Type} (v : Volume σ) (bad : α) (op : Fs σ → Io σ H α) : Io σ H α :=
  match v.mounted with
  | none => pure bad
  | some fs => op fs

def onFile {α : Type} (v : Volume σ) (k : ℕ) (bad : α) (op : OpenFile σ → Io σ H α) : Io σ H α :=
  match v.opened[k]? with
  | none => pure bad
  | some f => op f

def perform (fuel : ℕ) (dev : BlockDevice σ) (v : Volume σ) : FileCall → Io σ H (Reply × Volume σ)
  | .mount => do
    let r ← exfatMount dev
    match r with
    | none => pure (.code (-1), v)
    | some fs => pure (.code 0, { v with mounted := some fs })
  | .openFile path => onMounted v (.file none, v) fun fs => do
    let r ← exfatOpen fs path
    match r with
    | none => pure (.file none, v)
    | some node => pure (.file (some node), { v with opened := v.opened ++ [⟨fs, node⟩] })
  | .stat path => onMounted v (.info none, v) fun fs => do
    let r ← exfatStat fs path
    pure (.info r, v)
  | .create path => onMounted v (.code (-1), v) fun fs => do
    let rc ← exfatCreate fs path
    pure (.code rc, v)
  | .unlink path => onMounted v (.code (-1), v) fun fs => do
    let rc ← exfatUnlink fuel fs path
    pure (.code rc, v)
  | .read k off len => onFile v k (.bytes (-1) [], v) fun f => do
    let r ← exfatRead f.fs f.node off len
    pure (.bytes r.1 r.2, v)
  | .write k off buf => onFile v k (.code (-1), v) fun f => do
    let r ← exfatWrite fuel f.fs f.node off buf
    pure (.code r.1, { v with opened := v.opened.set k ⟨f.fs, r.2⟩ })

/-- Calls on several volumes in any order; the volume `i` is mounted from the device `devs i`. A session ends with the
first call that does not return, and then the devices are as that call found them. -/
def sessions [DecidableEq ι] (fuel : ℕ) (devs : ι → BlockDevice σ) :
    List (ι × FileCall) → (ι → Volume σ) → World σ H → List (ι × Made H) × World σ H
  | [], _, w => ([], w)
  | c :: cs, v, w =>
    match perform fuel (devs c.1) (v c.1) c.2 w with
    | .error e => ([(c.1, ⟨c.2, w.heap, .error e⟩)], w)
    | .ok (r, w') =>
      let rest := sessions fuel devs cs (Function.update v c.1 r.2) w'
      ((c.1, ⟨c.2, w.heap, .ok r.1⟩) :: rest.1, rest.2)

def replay (fuel : ℕ) (dev : BlockDevice σ) : List (FileCall × H) → Volume σ → σ → List (Except Fault Reply) × σ
  | [], _, s => ([], s)
  | c :: cs, v, s =>
    match perform fuel dev v c.1 ⟨s, c.2⟩ with
    | .error e => ([.error e], s)
    | .ok (r, w) =>
      let rest := replay fuel dev cs r.2 w.dev
      (.ok r.1 :: rest.1, rest.2)

end Run

section Simulation

variable {R : σ → τ → Prop} {Q : Tie H H'} {P : ℕ → ℕ → Prop} {b : BlockDevice σ} {d : BlockDevice τ}

def SameFile (b : BlockDevice σ) (d : BlockDevice τ) (f : OpenFile σ) (g : OpenFile τ) : Prop :=
  Moved b d f.fs g.fs ∧ f.node = g.node

structure SameVolume (b : BlockDevice σ) (d : BlockDevice τ) (v : Volume σ) (u : Volume τ) : Prop where
  mounted : Option.Rel (Moved b d) v.mounted u.mounted
  opened : List.Forall₂ (SameFile b d) v.opened u.opened

def SameResult {α : Type} (b : BlockDevice σ) (d : BlockDevice τ) (r : α × Volume σ) (s : α × Volume τ) : Prop :=
  r.1 = s.1 ∧ SameVolume b d r.2 s.2

variable {v : Volume σ} {u : Volume τ}

theorem sameVolume_empty : SameVolume b d Volume.empty Volume.empty := ⟨.none, .nil⟩

theorem SameVolume.file (h : SameVolume b d v u) (k : ℕ) : Option.Rel (SameFile b d) v.opened[k]? u.opened[k]? := by
  have hlen := h.opened.length_eq
  rcases Nat.lt_or_ge k v.opened.length with hk | hk
  · have hk' : k < u.opened.length := hlen ▸ hk
    rw [List.getElem?_eq_getElem hk, List.getElem?_eq_getElem hk']
    exact .some (h.opened.get hk hk')
  · rw [List.getElem?_eq_none hk, List.getElem?_eq_none (hlen ▸ hk)]
    exact .none

theorem SameVolume.add (h : SameVolume b d v u) {f : OpenFile σ} {g : OpenFile τ} (hfg : SameFile b d f g) :
    SameVolume b d { v with opened := v.opened ++ [f] } { u with opened := u.opened ++ [g] } :=
  ⟨h.mounted, List.rel_append h.opened (.cons hfg .nil)⟩

theorem SameVolume.set (h : SameVolume b d v u) (k : ℕ) {f : OpenFile σ} {g : OpenFile τ} (hfg : SameFile b d f g) :
    SameVolume b d { v with opened := v.opened.set k f } { u with opened := u.opened.set k g } := by
  refine ⟨h.mounted, List.forall₂_iff_get.mpr ⟨?_, fun j hj hj' => ?_⟩⟩
  · simpa using h.opened.length_eq
  · simp only [List.get_eq_getElem, List.getElem_set]
    split_ifs
    · exact hfg
    · exact h.opened.get (by simpa using hj) (by simpa using hj')

variable [KernelAlloc H] [KernelAlloc H'] (hd : SameAnswers R b d) (ha : SameRoom Q P) (h : SameVolume b d v u)

omit [KernelAlloc H] [KernelAlloc H'] in
include hd h in
theorem onMounted_simulates {α β : Type} {T : α → β → Prop} {bad : α} {bad' : β} {f : Fs σ → Io σ H α}
    {g : Fs τ → Io τ H' β} (hbad : T bad bad')
    (hf : ∀ fs, SameAnswers R fs.bdev d → Sized fs → fs.bdev = b → Simulates (Both R Q) T (f fs) (g (fs.withDevice d))) :
    Simulates (Both R Q) T (onMounted v bad f) (onMounted u bad' g) := by
  have hm := h.mounted
  unfold onMounted
  generalize v.mounted = x at hm ⊢
  generalize u.mounted = y at hm ⊢
  cases hm with
  | none => exact simulates_pure hbad
  | some hfs =>
    obtain ⟨hb, hs, rfl⟩ := hfs
    exact hf _ (hb ▸ hd) hs hb

omit [KernelAlloc H] [KernelAlloc H'] in
include hd h in
theorem onFile_simulates {α β : Type} {T : α → β → Prop} {k : ℕ} {bad : α} {bad' : β} {f : OpenFile σ → Io σ H α}
    {g : OpenFile τ → Io τ H' β} (hbad : T bad bad')
    (hf : ∀ fs node, SameAnswers R fs.bdev d → Sized fs → fs.bdev = b →
      Simulates (Both R Q) T (f ⟨fs, node⟩) (g ⟨fs.withDevice d, node⟩)) :
    Simulates (Both R Q) T (onFile v k bad f) (onFile u k bad' g) := by
  have hm := h.file k
  unfold onFile
  generalize v.opened[k]? = x at hm ⊢
  generalize u.opened[k]? = y at hm ⊢
  cases hm with
  | none => exact simulates_pure hbad
  | @some f g hfile =>
    obtain ⟨fs, node⟩ := f
    obtain ⟨gs, node'⟩ := g
    obtain ⟨⟨hb, hs, rfl⟩, rfl⟩ := hfile
    exact hf fs node (hb ▸ hd) hs hb

include hd ha h

theorem perform_simulates (fuel : ℕ) (c : FileCall) :
    Simulates (Both R Q) (SameResult b d) (perform fuel b v c : Io σ H _) (perform fuel d u c) := by
  cases c with
  | mount =>
    apply (exfatMount_simulates hd ha).bind
    intro f g hfg
    cases hfg with
    | none => exact simulates_pure ⟨rfl, h⟩
    | some hfg => exact simulates_pure ⟨rfl, .some hfg, h.opened⟩
  | openFile path =>
    refine onMounted_simulates hd h ⟨rfl, h⟩ fun fs hfs hs hb => ?_
    apply Simulates.bind (exfatOpen_matches hfs hs ha path)
    rintro r _ rfl
    cases r with
    | none => exact simulates_pure ⟨rfl, h⟩
    | some node => exact simulates_pure ⟨rfl, h.add ⟨⟨hb, hs, rfl⟩, rfl⟩⟩
  | stat path =>
    refine onMounted_simulates hd h ⟨rfl, h⟩ fun fs hfs hs _ => ?_
    apply Simulates.bind (exfatStat_matches hfs hs ha path)
    rintro r _ rfl
    exact simulates_pure ⟨rfl, h⟩
  | create path =>
    refine onMounted_simulates hd h ⟨rfl, h⟩ fun fs hfs hs _ => ?_
    apply Simulates.bind (exfatCreate_matches hfs hs ha path)
    rintro r _ rfl
    exact simulates_pure ⟨rfl, h⟩
  | unlink path =>
    refine onMounted_simulates hd h ⟨rfl, h⟩ fun fs hfs hs _ => ?_
    apply Simulates.bind (exfatUnlink_matches hfs hs ha fuel path)
    rintro r _ rfl
    exact simulates_pure ⟨rfl, h⟩
  | read k off len =>
    refine onFile_simulates hd h ⟨rfl, h⟩ fun fs node hfs hs _ => ?_
    apply Simulates.bind (exfatRead_matches hfs hs ha node off len)
    rintro r _ rfl
    exact simulates_pure ⟨rfl, h⟩
  | write k off buf =>
    refine onFile_simulates hd h ⟨rfl, h⟩ fun fs node hfs hs hb => ?_
    apply Simulates.bind (exfatWrite_matches hfs hs ha fuel node off buf)
    rintro r _ rfl
    exact simulates_pure ⟨rfl, h.set k ⟨⟨hb, hs, rfl⟩, rfl⟩⟩

end Simulation

end DexOs.Exfat
