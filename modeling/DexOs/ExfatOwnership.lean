import DexOs.ExfatMount

/-! No cluster is used twice: the files keep disjoint chains in every run of the driver. -/

namespace DexOs.Exfat

open DexOs.Lib

variable {σ H : Type} {D : Disk σ} {v v' : Vol}

structure WellFormed (D : Disk σ) (v : Vol) : Prop where
  root_used : v.fat D.fs.rootDirCluster ≠ 0
  owned : ∃ ch, Owns D v.fat (D.firsts v) ch

theorem fileName_no_zero (path : CString) : 0 ∉ fileName path := by
  unfold fileName
  split_ifs
  · exact fun h => path.2 (List.mem_of_mem_tail h)
  · exact path.2

theorem pathIsRoot_of_name {path : CString} (h : fileName path ≠ []) : pathIsRoot path = false := by
  rw [pathIsRoot, decide_eq_false_iff_not, not_or]
  constructor
  · intro hpath
    exact h (by rw [fileName, hpath]; rfl)
  · intro hpath
    exact h (by rw [fileName, hpath]; rfl)

theorem wellFormed_of_empty (hroot : v.fat D.fs.rootDirCluster ≠ 0) (hfree : slotType (D.dir v) 0 = 0) :
    WellFormed D v := by
  have hnil : D.firsts v = [] := by rw [Disk.firsts, Disk.listed, dirEntries_of_free hfree, List.map_nil]
  exact ⟨hroot, fun _ => [], by simp [hnil], by simp [hnil]⟩

theorem Kept.dir (h : Kept v v') (hroot : v.fat D.fs.rootDirCluster ≠ 0) : D.dir v' = D.dir v := h.data _ hroot

theorem Touched.root_not_mem {f : ℕ} {l l' : List ℕ} (h : Touched D v v' f l l') : D.fs.rootDirCluster ∉ l := by
  obtain ⟨ext, rfl, -⟩ := h.grows
  exact fun hm => h.chain.no_root (List.mem_append_left _ hm)

theorem Touched.dir {f : ℕ} {l l' : List ℕ} (h : Touched D v v' f l l')
    (hroot : v.fat D.fs.rootDirCluster ≠ 0) : D.dir v' = D.dir v := h.data _ hroot h.root_not_mem

theorem Touched.firsts {f : ℕ} {l l' : List ℕ} (h : Touched D v v' f l l')
    (hroot : v.fat D.fs.rootDirCluster ≠ 0) : D.firsts v' = D.firsts v := Disk.firsts_congr (h.dir hroot)

theorem Resized.firsts {f size : ℕ} (h : Resized D v v' f size) (hs : size < 2 ^ 64) (hn : (D.firsts v).Nodup) :
    D.firsts v' = D.firsts v := by
  rw [Disk.firsts, h.listed hs hn, List.map_map, Disk.firsts]
  exact List.map_congr_left fun x _ => Dirent.resize_first f size x

theorem Created.listed {name : List UInt8} {cl : ℕ} (h : Created D v v' name cl) (h0 : 0 ∉ name)
    (hlen : (D.dir v).length = D.fs.clusterSize) :
    D.listed v' = D.listed v ++ [⟨cl, 0, false, storedName name⟩] := by
  obtain ⟨hfit, v1, ht, rfl⟩ := h
  have hcl : cl < 2 ^ 32 := ht.valid.2.trans (Disk.entries_lt.trans (by decide))
  rw [Disk.listed, Disk.dir_setData, dirEntries_appendSet (endSlot_isEnd _) (hlen ▸ hfit) h0 hcl, Disk.listed]

theorem Unlinked.listed {ch : ℕ → List ℕ} {name : List UInt8} (h : Unlinked D v v' ch name) :
    ∃ x rest, D.listed v = D.listed v' ++ x :: rest ∧ (Regular (D.dir v) → x.name = name) ∧
      Freed v { v with fat := v'.fat } (ch x.firstCluster) ∧ ∀ c, c ≠ D.fs.rootDirCluster → v'.data c = v.data c := by
  obtain ⟨k, j, hk, hname, v1, hfreed, rfl⟩ := h
  have hkj : k < j := by
    have := unlinkName_snd (D.dir v) k
    rwa [hname] at this
  obtain ⟨rest, hrest⟩ := dirEntries_eraseSet_isFile hk hkj
  refine ⟨entryAt (D.dir v) k, rest, ?_, fun hreg => ?_, ?_, fun c hc => ?_⟩
  · rw [Disk.listed, hrest, Disk.listed, Disk.dir_setData]
  · rw [← (hreg k hk.1).2, hname]
  · rw [entryAt_first hk.2]
    exact ⟨rfl, hfreed.free, hfreed.fat⟩
  · rw [← hfreed.data]
    exact Function.update_of_ne hc _ _

section Steps

theorem Created.wellFormed {name : List UInt8} {cl : ℕ} (h : Created D v v' name cl) (h0 : 0 ∉ name)
    (hlen : (D.dir v).length = D.fs.clusterSize) (hw : WellFormed D v) : WellFormed D v' := by
  have hlist := h.listed h0 hlen
  obtain ⟨-, v1, ht, rfl⟩ := h
  obtain ⟨ch, ho⟩ := hw.owned
  refine ⟨?_, Function.update ch cl [cl], ?_⟩
  · change v1.fat _ ≠ 0
    rw [ht.fat _ hw.root_used]
    exact hw.root_used
  · have hfirsts : D.firsts (v1.setData D.fs.rootDirCluster (appendSet (D.dir v) (endSlot (D.dir v)) name cl)) =
        D.firsts v ++ [cl] := by
      rw [Disk.firsts, hlist, List.map_append]
      rfl
    rw [hfirsts]
    exact ht.owns ho hw.root_used

theorem Kept.wellFormed (h : Kept v v') (hw : WellFormed D v) : WellFormed D v' := by
  obtain ⟨ch, ho⟩ := hw.owned
  refine ⟨by rw [h.fat _ hw.root_used]; exact hw.root_used, ch, ?_⟩
  rw [Disk.firsts, Disk.listed, h.dir hw.root_used]
  exact h.owns ho

theorem Touched.wellFormed {f : ℕ} {l' : List ℕ} {ch : ℕ → List ℕ} (h : Touched D v v' f (ch f) l')
    (hw : WellFormed D v) (ho : Owns D v.fat (D.firsts v) ch) (hf : f ∈ D.firsts v) : WellFormed D v' := by
  refine ⟨h.fat_ne_zero hw.root_used, Function.update ch f l', ?_⟩
  rw [h.firsts hw.root_used]
  exact h.owns ho hf rfl

theorem Resized.wellFormed {f size : ℕ} (h : Resized D v v' f size) (hs : size < 2 ^ 64) (hw : WellFormed D v) :
    WellFormed D v' := by
  obtain ⟨ch, ho⟩ := hw.owned
  refine ⟨by rw [h.fat]; exact hw.root_used, ch, ?_⟩
  rw [h.firsts hs ho.nodup, h.fat]
  exact ho

theorem Unlinked.owns {ch : ℕ → List ℕ} {name : List UInt8} (h : Unlinked D v v' ch name)
    (ho : Owns D v.fat (D.firsts v) ch) :
    Owns D v'.fat (D.firsts v') ch ∧ v'.fat D.fs.rootDirCluster = v.fat D.fs.rootDirCluster := by
  obtain ⟨x, rest, hlist, -, hfreed, -⟩ := h.listed
  have hfirsts : D.firsts v = D.firsts v' ++ x.firstCluster :: rest.map Dirent.firstCluster := by
    rw [Disk.firsts, hlist, List.map_append, List.map_cons]
    rfl
  have hx : x.firstCluster ∈ D.firsts v := by
    rw [hfirsts]
    simp
  have hdisj := ho.disjoint
  rw [hfirsts, List.pairwise_append] at hdisj
  refine ⟨⟨fun f hf => ?_, hdisj.1⟩, hfreed.fat _ (ho.chain _ hx).no_root⟩
  have hmem : f ∈ D.firsts v := hfirsts ▸ List.mem_append_left _ hf
  refine (ho.chain f hmem).congr fun c hc => ?_
  exact hfreed.fat c fun hcx => hdisj.2.2 f hf _ List.mem_cons_self hc hcx

theorem Unlinked.wellFormed {ch : ℕ → List ℕ} {name : List UInt8} (h : Unlinked D v v' ch name)
    (hw : WellFormed D v) (ho : Owns D v.fat (D.firsts v) ch) : WellFormed D v' := by
  obtain ⟨ho', hroot⟩ := h.owns ho
  exact ⟨by rw [hroot]; exact hw.root_used, ch, ho'⟩

end Steps

section Run

variable [KernelAlloc H] {w : World σ H}

inductive Op
  | create (path : CString)
  | write (path : CString) (off : ℕ) (buf : List UInt8)
  | unlink (path : CString)

def runOp (fuel : ℕ) (fs : Fs σ) : Op → Io σ H Bool
  | .create path => do
    let r ← exfatCreate fs path
    pure (r = 0)
  | .write path off buf => do
    match ← exfatOpen fs path with
    | none => pure false
    | some node => do
      let r ← exfatWrite fuel fs node off buf
      pure (r.1 = buf.length)
  | .unlink path => do
    let r ← exfatUnlink fuel fs path
    pure (r = 0)

def runOps (fuel : ℕ) (fs : Fs σ) : List Op → Io σ H (List Bool)
  | [] => pure []
  | op :: ops => do
    let b ← runOp fuel fs op
    let bs ← runOps fuel fs ops
    pure (b :: bs)

omit [KernelAlloc H] in
theorem clusterSize_pos_of_first {f : ℕ} (hf : f ∈ D.firsts (D.vol w)) : 0 < D.fs.clusterSize := by
  refine Nat.pos_of_ne_zero fun h0 => ?_
  have hnil : D.dir (D.vol w) = [] := List.length_eq_zero_iff.mp (by rw [D.dir_length, h0])
  rw [Disk.firsts, Disk.listed, hnil] at hf
  exact absurd hf (by simp [dirEntries, scanSlots])

theorem exfatWrite_refused {fuel off : ℕ} {fs : Fs σ} {node : Node} {buf : List UInt8}
    (h : node.isDir = true ∨ buf = []) : Wp (exfatWrite fuel fs node off buf) w fun r w' => r.2 = node ∧ w' = w := by
  unfold exfatWrite
  by_cases hdir : node.isDir = true
  · rw [if_pos hdir]
    exact wp_pure ⟨rfl, rfl⟩
  · rw [if_neg hdir, if_pos (h.resolve_left hdir)]
    exact wp_pure ⟨rfl, rfl⟩

theorem exfatWrite_wellFormed (off : ℕ) (buf : List UInt8) {fuel : ℕ} {node : Node} (hfuel : D.fs.entries ≤ fuel)
    (hw : WellFormed D (D.vol w)) (hf : node.firstCluster ∈ D.firsts (D.vol w)) (hsize : node.size < 2 ^ 64) :
    Wp (exfatWrite fuel D.fs node off buf) w fun _ w' => WellFormed D (D.vol w') := by
  by_cases hrefuse : node.isDir = true ∨ buf = []
  · refine (exfatWrite_refused hrefuse).mono ?_
    rintro _ w ⟨-, rfl⟩
    exact hw
  obtain ⟨hfile, hbuf⟩ := not_or.mp hrefuse
  obtain ⟨ch, ho⟩ := hw.owned
  refine (exfatWrite_spec off (ho.chain _ hf) hw.root_used hfuel (by simpa using hfile)
    (clusterSize_pos_of_first hf) hsize hbuf).mono ?_
  rintro r w' ⟨-, ⟨l', v1, ht, hv⟩, -⟩
  have hw1 := ht.wellFormed hw ho hf
  rcases hv with hv | ⟨size, hsize, hres⟩
  · exact hv ▸ hw1
  · exact hres.wellFormed hsize hw1

theorem runOp_wellFormed {fuel : ℕ} (hfuel : D.fs.entries ≤ fuel) (op : Op) (hw : WellFormed D (D.vol w)) :
    Wp (runOp fuel D.fs op) w fun _ w' => WellFormed D (D.vol w') := by
  cases op with
  | create path =>
    refine wp_bind exfatCreate_spec ?_
    rintro r w' (⟨-, hk, -⟩ | ⟨-, -, cl, hc⟩)
    · exact wp_pure (hk.wellFormed hw)
    · exact wp_pure (hc.wellFormed (fileName_no_zero path) (D.dir_length w) hw)
  | write path off buf =>
    rw [runOp]
    cases hpath : pathIsRoot path with
    | true =>
      refine wp_bind (exfatOpen_root hpath) ?_
      rintro _ w1 ⟨hv, rfl | rfl⟩
      · exact wp_pure (hv ▸ hw)
      · refine wp_bind (exfatWrite_refused (.inl rfl)) ?_
        rintro _ w1 ⟨-, rfl⟩
        exact wp_pure (hv ▸ hw)
    | false =>
      refine wp_bind (exfatOpen_spec hpath) ?_
      rintro r w1 ⟨hv, hr, -⟩
      cases r with
      | none => exact wp_pure (hv ▸ hw)
      | some node =>
        obtain ⟨x, hx, rfl⟩ := Option.map_eq_some_iff.mp (hr.resolve_left (by simp)).symm
        have hmem := Disk.lookup_mem hx
        have hf : x.node.firstCluster ∈ D.firsts (D.vol w1) := hv ▸ List.mem_map_of_mem hmem
        refine wp_bind (exfatWrite_wellFormed off buf hfuel (hv ▸ hw) hf (size_lt hmem)) ?_
        intro _ w2 hw2
        exact wp_pure hw2
  | unlink path =>
    obtain ⟨ch, ho⟩ := hw.owned
    refine wp_bind (exfatUnlink_spec path ho hfuel) ?_
    rintro r w' (⟨-, hv, -⟩ | ⟨-, hu⟩)
    · exact wp_pure (hv ▸ hw)
    · exact wp_pure (hu.wellFormed hw ho)

theorem runOps_invariant {fuel : ℕ} {I : Vol → Prop}
    (hstep : ∀ (op : Op) (w : World σ H), I (D.vol w) → Wp (runOp fuel D.fs op) w fun _ w' => I (D.vol w'))
    (ops : List Op) (hw : I (D.vol w)) : Wp (runOps fuel D.fs ops) w fun _ w' => I (D.vol w') := by
  induction ops generalizing w with
  | nil => exact wp_pure hw
  | cons op ops ih =>
    refine wp_bind (hstep op w hw) ?_
    intro b w1 hw1
    refine wp_bind (ih hw1) ?_
    intro bs w2 hw2
    exact wp_pure hw2

/-- Every sequence of calls ends and leaves the volume well-formed, whichever of them fail. -/
theorem wellFormed_of_run (D : Disk σ) {fuel : ℕ} (hfuel : D.fs.entries ≤ fuel) (ops : List Op)
    (w : World σ H) (hw : WellFormed D (D.vol w)) :
    Wp (runOps fuel D.fs ops) w fun _ w' => WellFormed D (D.vol w') :=
  runOps_invariant (fun op _ h => runOp_wellFormed hfuel op h) ops hw

end Run

section Ram0

def ram0Store : SectorStore Memory := ramdiskStore [114, 97, 109, 48] ⟨0x200000, 67697664⟩ (by decide) (by decide)

theorem ram0Store_sectors : 1153 ≤ ram0Store.sectors := by
  change 1153 ≤ 67697664 / 512
  decide

def ram0Volume : Disk Memory := fallbackDisk ram0Store ram0Store_sectors

theorem ram0_entries_le : ram0Volume.fs.entries ≤ 131072 := Nat.le_of_eq (fallbackFs_entries _)

def pathA : CString := ⟨[97], by decide⟩

def ram0Memory : Memory := fun a => if 0x200000 + 65544 ≤ a ∧ a < 0x200000 + 65548 then 0xFF else 0

theorem ram0Volume_wellFormed : WellFormed ram0Volume (ram0Volume.vol ⟨ram0Memory, ()⟩) := by
  refine wellFormed_of_empty ?_ ?_
  · rw [Disk.vol, Disk.volOf_fat _ ram0Volume.root_lt]
    change leNat (ramdiskView ⟨0x200000, 67697664⟩ ram0Memory) 4 65544 ≠ 0
    decide +kernel
  · rw [Disk.dir, Disk.vol, Disk.volOf_data _ Disk.root_valid, slotType, slotByte, byteAt_peek _ _ (by decide)]
    change ramdiskView ⟨0x200000, 67697664⟩ ram0Memory 589824 = 0
    decide +kernel

theorem wellFormed_of_run_small : Wp (runOps 131072 ram0Volume.fs [.create pathA,
      .write pathA 510 [1, 2, 3], .unlink pathA]) ⟨ram0Memory, ()⟩
    fun _ w' => WellFormed ram0Volume (ram0Volume.vol w') :=
  wellFormed_of_run ram0Volume ram0_entries_le _ _ ram0Volume_wellFormed

end Ram0

end DexOs.Exfat
