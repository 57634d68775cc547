import DexOs.ExfatOwnership

/-! The free clusters of a volume, the buffers that the kernel heap hands out, and exactly what
`fat_alloc` makes of both. -/

namespace DexOs.Exfat

open DexOs.Lib

variable {σ H α β : Type}

section DeviceOnly

def KeepsHeap (x : Io σ H α) : Prop := ∀ w, Ends x w (fun _ => True) fun _ w' => w'.heap = w.heap

theorem KeepsHeap.bind {x : Io σ H α} {f : α → Io σ H β} (hx : KeepsHeap x) (hf : ∀ a, KeepsHeap (f a)) :
    KeepsHeap (x >>= f) := by
  intro w
  apply ends_bind (hx w)
  intro a w' hw'
  apply (hf a w').mono (fun _ h => h)
  intro b w'' hw''
  rw [hw'', hw']

theorem keepsHeap_pure (a : α) : KeepsHeap (pure a : Io σ H α) := fun _ => rfl

theorem keepsHeap_stop (e : Fault) : KeepsHeap (stop e : Io σ H α) := fun _ => trivial

theorem bdevRead_keepsHeap (d : BlockDevice σ) (lba count : ℕ) : KeepsHeap (bdevRead d lba count : Io σ H _) := by
  intro w
  unfold Ends bdevRead
  cases d.read with
  | none => trivial
  | some read => rfl

theorem bdevWrite_keepsHeap (d : BlockDevice σ) (lba : ℕ) (buf : List UInt8) (count : ℕ) :
    KeepsHeap (bdevWrite d lba buf count : Io σ H _) := by
  intro w
  unfold Ends bdevWrite
  cases d.write with
  | none => trivial
  | some write => rfl

theorem fatSet_keepsHeap (fs : Fs σ) (cl val : ℕ) : KeepsHeap (fatSet fs cl val : Io σ H _) := by
  unfold fatSet
  cases fatSlot fs cl with
  | none => exact keepsHeap_stop _
  | some slot =>
    apply (bdevRead_keepsHeap _ _ _).bind
    intro r
    split_ifs
    · exact keepsHeap_pure _
    · exact (bdevWrite_keepsHeap _ _ _ _).bind fun _ => keepsHeap_pure _

theorem writeCluster_keepsHeap (fs : Fs σ) (cl : ℕ) (buf : List UInt8) :
    KeepsHeap (writeCluster fs cl buf : Io σ H _) := by
  unfold writeCluster
  dsimp only
  split_ifs
  · exact keepsHeap_stop _
  · exact (bdevWrite_keepsHeap _ _ _ _).bind fun _ => keepsHeap_pure _

theorem KeepsHeap.wp {x : Io σ H α} {w : World σ H} {Q : α → World σ H → Prop} (h : KeepsHeap x) (hx : Wp x w Q) :
    Wp x w fun a w' => Q a w' ∧ w'.heap = w.heap := by
  obtain ⟨a, w', hrun, hq⟩ := hx
  exact ⟨a, w', hrun, hq, (h w).post hrun⟩

end DeviceOnly

section Buffers

variable [KernelAlloc H]

def turn (n : ℕ) (h : H) : H :=
  match (KernelAlloc.kmalloc h n).1 with
  | none => (KernelAlloc.kmalloc h n).2
  | some p => KernelAlloc.kfree (KernelAlloc.kmalloc h n).2 p

def granted (n : ℕ) : ℕ → H → ℕ
  | 0, _ => 0
  | k + 1, h => if (KernelAlloc.kmalloc h n).1 = none then 0 else granted n k (turn n h) + 1

theorem granted_le (n k : ℕ) (h : H) : granted n k h ≤ k := by
  induction k generalizing h with
  | zero => exact le_refl 0
  | succ k ih =>
    rw [granted]
    split_ifs
    · exact Nat.zero_le _
    · exact Nat.succ_le_succ (ih _)

theorem granted_add (n j k : ℕ) (h : H) :
    granted n (j + k) h = j + k ↔ granted n j h = j ∧ granted n k ((turn n)^[j] h) = k := by
  induction j generalizing h with
  | zero => simp [granted]
  | succ j ih =>
    rw [show j + 1 + k = j + k + 1 by omega, granted, granted, Function.iterate_succ_apply]
    by_cases hnone : (KernelAlloc.kmalloc h n).1 = none
    · rw [if_pos hnone, if_pos hnone]
      simp
    · rw [if_neg hnone, if_neg hnone, Nat.add_right_cancel_iff, Nat.add_right_cancel_iff, ih]

theorem granted_of_allocOk (ha : AllocOk H) {n : ℕ} (hn : 0 < n) (k : ℕ) (h : H) : granted n k h = k := by
  induction k generalizing h with
  | zero => rfl
  | succ k ih => rw [granted, if_neg (ha h n hn), ih]

end Buffers

section Free

variable {D : Disk σ} {v v' : Vol}

/-- The clusters that `fat_alloc` can still take, in the order in which it takes them. -/
def Disk.free (D : Disk σ) (v : Vol) : List ℕ := (List.range' 2 (D.fs.entries - 2)).filter fun c => v.fat c = 0

theorem Disk.mem_free {c : ℕ} : c ∈ D.free v ↔ D.Valid c ∧ v.fat c = 0 := by
  have hge := D.root_ge
  have hlt := D.root_lt
  simp only [free, List.mem_filter, List.mem_range'_1, Valid, decide_eq_true_eq]
  omega

theorem Disk.free_nodup (D : Disk σ) (v : Vol) : (D.free v).Nodup := List.Nodup.filter _ List.nodup_range'

def Marked (D : Disk σ) (v v' : Vol) : Prop := ∃ c, D.Valid c ∧ v.fat c = 0 ∧ v'.fat c ≠ 0

theorem Marked.fat_ne (h : Marked D v v') : v'.fat ≠ v.fat := by
  obtain ⟨c, -, hz, hne⟩ := h
  intro heq
  exact hne (heq ▸ hz)

theorem Marked.free_ne_nil (h : Marked D v v') : D.free v ≠ [] := by
  obtain ⟨c, hc, hz, -⟩ := h
  exact List.ne_nil_of_mem (Disk.mem_free.mpr ⟨hc, hz⟩)

theorem Marked.mono {v'' : Vol} (h : Marked D v v') (hmono : ∀ c, v'.fat c ≠ 0 → v''.fat c ≠ 0) : Marked D v v'' := by
  obtain ⟨c, hc, hz, hne⟩ := h
  exact ⟨c, hc, hz, hmono c hne⟩

theorem Disk.free_tail {cl : ℕ} {rest : List ℕ} (hfree : D.free v = cl :: rest)
    (hfat : ∀ c, D.Valid c → (v'.fat c = 0 ↔ v.fat c = 0 ∧ c ≠ cl)) : D.free v' = rest := by
  have hnd := D.free_nodup v
  rw [hfree] at hnd
  have hfilter : D.free v' = (D.free v).filter (· ≠ cl) := by
    rw [free, free, List.filter_filter]
    apply List.filter_congr
    intro c hc
    have hvalid : D.Valid c := by
      rw [List.mem_range'_1] at hc
      exact ⟨hc.1, by omega⟩
    simp [hfat c hvalid, and_comm]
  rw [hfilter, hfree, List.filter_cons_of_neg (by simp)]
  apply List.filter_eq_self.mpr
  intro c hc
  have hne : c ≠ cl := fun e => (List.nodup_cons.mp hnd).1 (e ▸ hc)
  simpa using hne

end Free

section Alloc

variable [KernelAlloc H] {D : Disk σ} {w : World σ H}

def Disk.take (D : Disk σ) (v : Vol) (cl : ℕ) : Vol :=
  if D.On cl then (v.setFat cl eoc).setData cl (List.replicate D.fs.clusterSize 0) else v.setFat cl eoc

omit [KernelAlloc H] in
theorem Disk.take_fat (D : Disk σ) (v : Vol) (cl : ℕ) : (D.take v cl).fat = Function.update v.fat cl eoc := by
  unfold take
  split_ifs <;> rfl

/-- `fat_alloc` as a function of the free clusters: without one it does nothing, without a buffer it leaves
the lowest one marked, and otherwise it returns it. -/
def FatAlloc (D : Disk σ) (free : List ℕ) (w : World σ H) (r : ℕ) (w' : World σ H) : Prop :=
  match free with
  | [] => r = 0 ∧ w' = w
  | cl :: _ =>
    if (KernelAlloc.kmalloc w.heap D.fs.clusterSize).1 = none then r = 0 ∧ D.vol w' = (D.vol w).setFat cl eoc
    else r = cl ∧ D.vol w' = D.take (D.vol w) cl ∧ w'.heap = turn D.fs.clusterSize w.heap

theorem fatAllocFrom_exact {n cl : ℕ} (hcl : 2 ≤ cl) (hn : cl + n ≤ D.fs.entries) :
    Wp (fatAllocFrom D.fs n cl) w
      (FatAlloc D ((List.range' cl n).filter fun c => (D.vol w).fat c = 0) w) := by
  induction n generalizing cl with
  | zero => exact wp_pure ⟨rfl, rfl⟩
  | succ n ih =>
    have hlt : cl < D.fs.entries := by omega
    rw [fatAllocFrom, List.range'_succ]
    apply wp_bind (Disk.fatGet_spec hlt)
    rintro _ w ⟨rfl, rfl⟩
    by_cases hz : (D.vol w).fat cl = 0
    · rw [if_pos hz, List.filter_cons_of_pos (by simpa using hz)]
      apply wp_bind ((fatSet_keepsHeap _ _ _).wp (Disk.fatSet_spec hlt eoc_lt))
      rintro _ w1 ⟨⟨rfl, hv1⟩, hh1⟩
      rw [if_neg (by simp)]
      apply wp_bind (kmalloc_run _)
      rintro _ w2 ⟨rfl, rfl⟩
      rw [hh1]
      unfold FatAlloc
      dsimp only
      cases hp : (KernelAlloc.kmalloc w.heap D.fs.clusterSize).1 with
      | none =>
        simp only [↓reduceIte]
        exact wp_pure ⟨rfl, hv1⟩
      | some p =>
        have hs := clusterSize_pos D (pos_of_kmalloc hp)
        simp only [reduceCtorEq, ↓reduceIte]
        apply wp_bind ((writeCluster_keepsHeap _ _ _).wp (Disk.writeCluster_spec ⟨hcl, hlt⟩ hs List.length_replicate))
        rintro _ w3 ⟨hv3, hh3⟩
        apply wp_bind (kfree_run p)
        rintro _ w4 rfl
        refine wp_pure ⟨rfl, ?_, ?_⟩
        · change D.vol w3 = _
          unfold Disk.take
          split_ifs at hv3 ⊢
          · rw [hv3.2, ← hv1]
            rfl
          · rw [hv3.2, ← hv1]
            rfl
        · rw [turn, hp, hh3]
    · rw [if_neg hz, List.filter_cons_of_neg (by simpa using hz)]
      exact ih (by omega) (by omega)

theorem fatAlloc_exact : Wp (fatAlloc D.fs) w (FatAlloc D (D.free (D.vol w)) w) := by
  have hge := D.root_ge
  have hlt := D.root_lt
  exact fatAllocFrom_exact (le_refl 2) (by omega)

theorem FatAlloc.fat {free : List ℕ} {cl : ℕ} {w' : World σ H} (h : FatAlloc D free w cl w') (hcl : cl ≠ 0) :
    (D.vol w').fat = Function.update (D.vol w).fat cl eoc := by
  cases free with
  | nil => exact absurd h.1 hcl
  | cons c rest =>
    rw [FatAlloc] at h
    split_ifs at h
    · exact absurd h.1 hcl
    · obtain ⟨rfl, hv, -⟩ := h
      rw [hv, Disk.take_fat]

theorem FatAlloc.marked {cl : ℕ} {w' : World σ H} (hfree : D.free (D.vol w) ≠ [])
    (h : FatAlloc D (D.free (D.vol w)) w cl w') : Marked D (D.vol w) (D.vol w') := by
  obtain ⟨c, rest, hcons⟩ := List.exists_cons_of_ne_nil hfree
  obtain ⟨hvalid, hz⟩ := Disk.mem_free.mp (hcons ▸ List.mem_cons_self : c ∈ D.free (D.vol w))
  have hset : (D.vol w').fat c = eoc := by
    rw [hcons, FatAlloc] at h
    split_ifs at h with hnone
    · rw [h.2]
      exact Function.update_self ..
    · rw [h.2.1, Disk.take_fat]
      exact Function.update_self ..
  exact ⟨c, hvalid, hz, by rw [hset]; decide⟩

end Alloc

end DexOs.Exfat
