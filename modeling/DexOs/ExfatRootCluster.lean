import DexOs.ExfatOwnership
import Mathlib.Logic.Relation

/-! The cluster of the root directory on a volume that was never formatted. -/

namespace DexOs.Exfat

open DexOs.Lib

variable {σ H : Type} {D : Disk σ} {v : Vol}

def OnChain (fat : ℕ → ℕ) (f c : ℕ) : Prop :=
  2 ≤ f ∧ Relation.ReflTransGen (fun a b => fat a = b ∧ b ≠ 0 ∧ b ≠ eoc) f c

/-- The root directory is in no chain of a file, and no two files share a cluster. -/
structure Separate (D : Disk σ) (v : Vol) : Prop where
  root : ∀ x ∈ D.listed v, ¬ OnChain v.fat x.firstCluster D.fs.rootDirCluster
  files : (D.listed v).Pairwise fun x y => ∀ c, OnChain v.fat x.firstCluster c → ¬ OnChain v.fat y.firstCluster c

theorem IsChain.mem_of_onChain {fat : ℕ → ℕ} {f c : ℕ} {l : List ℕ} (h : IsChain D fat f l) (hc : OnChain fat f c) :
    c ∈ l := by
  obtain ⟨-, hpath⟩ := hc
  induction hpath with
  | refl => exact h.first_mem
  | @tail b c _ hstep ih =>
    obtain ⟨i, hi⟩ := List.getElem?_of_mem ih
    have hnext := h.linked.next_eq hi
    rw [hstep.1] at hnext
    cases hn : l[i + 1]? with
    | none => exact absurd (by rw [hnext, hn]; rfl) hstep.2.2
    | some d =>
      rw [hn, Option.getD_some] at hnext
      exact hnext ▸ List.mem_of_getElem? hn

theorem WellFormed.separate (h : WellFormed D v) : Separate D v := by
  obtain ⟨ch, ho⟩ := h.owned
  have hchain : ∀ x ∈ D.listed v, IsChain D v.fat x.firstCluster (ch x.firstCluster) :=
    fun x hx => ho.chain _ (List.mem_map_of_mem hx)
  refine ⟨fun x hx hc => (hchain x hx).no_root ((hchain x hx).mem_of_onChain hc), ?_⟩
  refine (List.pairwise_map.mp ho.disjoint).imp_of_mem fun {x y} hx hy hd c hcx hcy => ?_
  exact hd ((hchain x hx).mem_of_onChain hcx) ((hchain y hy).mem_of_onChain hcy)

variable [KernelAlloc H]

def session (fuel : ℕ) (bdev : BlockDevice σ) (ops : List Op) : Io σ H (Option (List Bool)) := do
  match ← exfatMount bdev with
  | none => pure none
  | some fs => do
    let bs ← runOps fuel fs ops
    pure (some bs)

variable {S : SectorStore σ} {s : σ}

/-- No boot record, and an empty root directory in the fallback layout; an all-zero device is one. -/
structure Blank (S : SectorStore σ) (s : σ) : Prop where
  unsigned : Unsigned S s
  empty : S.view s (512 * 1152) = 0

def rootEntry (S : SectorStore σ) (s : σ) : ℕ := leNat (S.view s) 4 (512 * 128 + 8)

/-- After every session of successful calls the clusters are separate, on any kernel heap. -/
def KeepsSeparate (S : SectorStore σ) (hS : 1153 ≤ S.sectors) (fuel : ℕ) (s : σ) : Prop :=
  ∀ (H : Type) [KernelAlloc H] (heap : H) (ops : List Op) (bs : List Bool) (w' : World σ H),
    session fuel S.dev ops ⟨s, heap⟩ = .ok (some bs, w') → (∀ b ∈ bs, b = true) →
      Separate (fallbackDisk S hS) ((fallbackDisk S hS).vol w')

omit [KernelAlloc H] in
theorem Blank.slot (hS : 1153 ≤ S.sectors) (hb : Blank S s) {w : World σ H} (hw : w.dev = s) :
    slotType ((fallbackDisk S hS).dir ((fallbackDisk S hS).vol w)) 0 = 0 := by
  rw [Disk.dir, Disk.vol, Disk.volOf_data _ Disk.root_valid, slotType, slotByte,
    byteAt_peek _ _ (Nat.lt_of_sub_pos (by decide : 0 < 512)), hw]
  exact hb.empty

omit [KernelAlloc H] in
theorem fallbackDisk_root (hS : 1153 ≤ S.sectors) {w : World σ H} (hw : w.dev = s) :
    ((fallbackDisk S hS).vol w).fat (fallbackDisk S hS).fs.rootDirCluster = rootEntry S s := by
  rw [Disk.vol, Disk.volOf_fat _ (fallbackDisk S hS).root_lt, hw]
  rfl

theorem keepsSeparate_of_root_used (hS : 1153 ≤ S.sectors) {fuel : ℕ} (hfuel : 131072 ≤ fuel) (hb : Blank S s)
    (hroot : rootEntry S s ≠ 0) : KeepsSeparate S hS fuel s := by
  intro H _ heap ops bs w' hrun _
  have hsession : Wp (session fuel S.dev ops) (⟨s, heap⟩ : World σ H) fun r w' =>
      r ≠ none → WellFormed (fallbackDisk S hS) ((fallbackDisk S hS).vol w') := by
    refine wp_bind (exfatMount_spec (by omega) hb.unsigned) ?_
    rintro _ w1 ⟨hdev, rfl | rfl, -⟩
    · exact wp_pure fun h => absurd rfl h
    · have hwf : WellFormed (fallbackDisk S hS) ((fallbackDisk S hS).vol w1) :=
        wellFormed_of_empty (by rw [fallbackDisk_root hS hdev]; exact hroot) (hb.slot hS hdev)
      have hent : (fallbackDisk S hS).fs.entries ≤ fuel := (fallbackFs_entries S.dev).trans_le hfuel
      refine wp_bind (runOps_invariant (fun op _ h => runOp_wellFormed hent op h) ops hwf) ?_
      intro _ w2 hw2
      exact wp_pure fun _ => hw2
  exact (hsession.post hrun (by simp)).separate

theorem create_takes_root (fuel : ℕ) (path : CString) {w : World σ H} (ha : AllocOk H)
    (hfree : (D.vol w).fat D.fs.rootDirCluster = 0)
    (hlow : ∀ c, 2 ≤ c → c < D.fs.rootDirCluster → (D.vol w).fat c ≠ 0) (hname : fileName path ≠ [])
    (hfit : 32 * (endSlot (D.dir (D.vol w)) + (2 + nameEntries (fileName path))) ≤ D.fs.clusterSize) :
    Wp (runOp fuel D.fs (.create path)) w fun b w' => b = true ∧ ¬ Separate D (D.vol w') := by
  refine wp_bind exfatCreate_spec ?_
  rintro r w' (⟨-, -, hfull⟩ | ⟨rfl, -, cl, hcreated⟩)
  · exact absurd hfree (hfull ha hname hfit _ Disk.root_valid)
  refine wp_pure ⟨rfl, fun hsep => ?_⟩
  have hlist := hcreated.listed (fileName_no_zero path) (D.dir_length w)
  obtain ⟨-, v1, ht, -⟩ := hcreated
  have hcl : cl = D.fs.rootDirCluster := by
    rcases Nat.lt_trichotomy cl D.fs.rootDirCluster with h | h | h
    · exact absurd ht.free (hlow cl ht.valid.1 h)
    · exact h
    · exact absurd hfree (ht.lowest _ D.root_ge h)
  refine hsep.root _ (by rw [hlist]; exact List.mem_append_right _ List.mem_cons_self) ?_
  rw [hcl]
  exact ⟨D.root_ge, .refl⟩

theorem not_keepsSeparate_of_root_free (hS : 1153 ≤ S.sectors) {fuel : ℕ} (hb : Blank S s)
    (hroot : rootEntry S s = 0) : ¬ KeepsSeparate S hS fuel s := by
  intro hkeep
  have hsession : Wp (session fuel S.dev [.create ⟨[97], by decide⟩]) (⟨s, ()⟩ : World σ Unit) fun r w' =>
      r = some [true] ∧ ¬ Separate (fallbackDisk S hS) ((fallbackDisk S hS).vol w') := by
    refine wp_bind (exfatMount_spec (by omega) hb.unsigned) ?_
    rintro r w1 ⟨hdev, -, hok⟩
    rw [hok allocOk_unit]
    have hend : endSlot ((fallbackDisk S hS).dir ((fallbackDisk S hS).vol w1)) = 0 :=
      (endSlot_isEnd _).unique ⟨Nat.zero_le _, by simp, .inr (hb.slot hS hdev)⟩
    have hcreate := create_takes_root (D := fallbackDisk S hS) fuel ⟨[97], by decide⟩ allocOk_unit
      ((fallbackDisk_root hS hdev).trans hroot) (fun c h1 h2 => absurd h2 (Nat.not_lt.mpr h1))
      (by decide) (by rw [hend]; exact Nat.le_of_ble_eq_true rfl)
    have hops : Wp (runOps fuel (fallbackDisk S hS).fs [.create ⟨[97], by decide⟩]) w1 fun bs w' =>
        bs = [true] ∧ ¬ Separate (fallbackDisk S hS) ((fallbackDisk S hS).vol w') := by
      refine wp_bind hcreate ?_
      rintro b w2 ⟨rfl, hsep⟩
      exact wp_pure ⟨rfl, hsep⟩
    refine wp_bind hops ?_
    rintro bs w2 ⟨rfl, hsep⟩
    exact wp_pure ⟨rfl, hsep⟩
  obtain ⟨r, w', hrun, rfl, hsep⟩ := hsession
  exact hsep (hkeep Unit () _ _ w' hrun (by simp))

/-- On a volume without files the clusters stay separate exactly when the root directory's own cluster
is marked as used; on an all-zero device it is not. -/
theorem keepsSeparate_iff_root_used (hS : 1153 ≤ S.sectors) {fuel : ℕ} (hfuel : 131072 ≤ fuel) (hb : Blank S s) :
    KeepsSeparate S hS fuel s ↔ rootEntry S s ≠ 0 := by
  constructor
  · intro hkeep hroot
    exact not_keepsSeparate_of_root_free hS hb hroot hkeep
  · exact keepsSeparate_of_root_used hS hfuel hb

theorem keepsSeparate_iff_root_used_small : KeepsSeparate ram0Store ram0Store_sectors 131072 ram0Memory ↔
    rootEntry ram0Store ram0Memory ≠ 0 :=
  keepsSeparate_iff_root_used ram0Store_sectors (le_refl _) ⟨by decide +kernel, by decide +kernel⟩

theorem zero_disk_not_separate : ¬ KeepsSeparate ram0Store ram0Store_sectors 131072 fun _ => 0 :=
  not_keepsSeparate_of_root_free ram0Store_sectors ⟨by decide +kernel, by decide +kernel⟩ (by decide +kernel)

end DexOs.Exfat
