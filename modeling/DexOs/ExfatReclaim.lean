import DexOs.ExfatTaken
import DexOs.ExfatReaders

/-! A file that is made, written and removed again leaves the FAT and the list of files as they were. -/

namespace DexOs.Exfat

open DexOs.Lib

section Directory

variable {dir₀ dir : List UInt8} {name : List UInt8} {cl : ℕ}

/-- The directory `dir` has the entries of `dir₀` and behind them one of this name and first cluster. -/
structure Appended (dir₀ dir name : List UInt8) (cl : ℕ) : Prop where
  bounds : Bounds dir₀ dir (slotCount dir₀) (endSlot dir₀)
  count : slotCount dir = slotCount dir₀
  primaries : primaries dir (endSlot dir) = primaries dir₀ (endSlot dir₀) ++ [endSlot dir₀]
  stream : hasStream dir (slotCount dir) (endSlot dir₀) = true
  first : streamFirst dir (endSlot dir₀) = cl
  name : (unlinkName dir (endSlot dir₀)).1 = name

theorem appended_appendSet (hfit : 32 * (endSlot dir + (2 + nameEntries name)) ≤ dir.length) (h0 : 0 ∉ name)
    (hcl : cl < 2 ^ 32) (hstored : storedName name = name) :
    Appended dir (appendSet dir (endSlot dir) name cl) name cl := by
  have hstream : hasStream (appendSet dir (endSlot dir) name cl) (slotCount dir) (endSlot dir) = true :=
    appendSet_hasStream hfit
  refine ⟨appendSet_bounds (endSlot_isEnd dir) hfit, slotCount_appendSet _ _ _ _, ?_, ?_, ?_, ?_⟩
  · rw [endSlot_appendSet hfit, appendSet_primaries (endSlot_isEnd dir) hfit]
  · rw [slotCount_appendSet]
    exact hstream
  · have hentry := congrArg Dirent.firstCluster (appendSet_entry hfit h0 hcl)
    rw [scanEntry, if_pos hstream] at hentry
    exact hentry
  · rw [unlinkName, slotCount_appendSet, appendSet_unlinkName hfit h0, appendSet_scanName hfit h0, hstored]

theorem Appended.isFile (h : Appended dir₀ dir name cl) : IsFile dir (endSlot dir₀) :=
  ⟨by rw [h.primaries]; simp, h.stream⟩

theorem Appended.old (h : Appended dir₀ dir name cl) {k : ℕ} (hk : IsFile dir k) (hne : k ≠ endSlot dir₀) :
    IsFile dir₀ k ∧ streamFirst dir k = streamFirst dir₀ k ∧ (unlinkName dir k).1 = (unlinkName dir₀ k).1 := by
  have hmem := hk.1
  rw [h.primaries, List.mem_append, List.mem_singleton, or_iff_left hne] at hmem
  have hlt := (mem_primaries.mp hmem).1
  have hs : hasStream dir₀ (slotCount dir₀) k = true := by
    rw [← h.bounds.hasStream hlt, ← h.count]
    exact hk.2
  have hnext := h.bounds.stream_lt hlt hs
  have hle := h.bounds.le
  refine ⟨⟨hmem, hs⟩, (h.bounds.same _ hnext).leNat (by decide), ?_⟩
  rw [unlinkName, unlinkName, h.count, h.bounds.nameSlots_unlink (by omega) (by omega)]

theorem Appended.setSize (h : Appended dir₀ dir name cl) (size : ℕ) :
    Appended dir₀ (setSize dir (endSlot dir₀) size) name cl := by
  have hcount := slotCount_setSize dir (endSlot dir₀) size
  obtain ⟨hlt, hc⟩ := hasStream_iff.mp h.stream
  have hle := h.bounds.le
  have hslots := h.count
  refine ⟨⟨hle, ?_, ?_⟩, hcount.trans h.count, ?_, ?_, ?_, ?_⟩
  · intro i hi off hoff
    rw [setSize_slotByte (by omega) hoff (.inl (by omega))]
    exact h.bounds.same i hi off hoff
  · rw [setSize_type (by omega)]
    exact h.bounds.stop
  · rw [endSlot_setSize, setSize_primaries (endSlot_isEnd dir).le, h.primaries]
  · rw [hcount, setSize_hasStream]
    exact h.stream
  · rw [← h.first]
    exact leNat_congr fun i hi => setSize_slotByte hlt (by omega) (.inr (by omega))
  · rw [← h.name, unlinkName, hcount, setSize_unlinkNames hc (by omega), unlinkName]

theorem Appended.erase (h : Appended dir₀ dir name cl) {j : ℕ} (hj : endSlot dir₀ < j) :
    dirEntries (eraseSet dir (endSlot dir₀) j) = dirEntries dir₀ := by
  obtain ⟨hlt, hp⟩ := mem_primaries.mp h.isFile.1
  rw [dirEntries_eraseSet (endSlot_isEnd dir) hlt hj hp, h.count, h.bounds.entries, dirEntries_eq (endSlot_isEnd dir₀)]

/-- No entry has the name, neither as `dir_scan_root` reads names nor as `exfat_unlink` does. -/
structure NewName (dir name : List UInt8) : Prop where
  scan : ∀ x ∈ dirEntries dir, x.name ≠ name
  unlink : unlinkFinds dir name = none

theorem NewName.unlinkName_ne (h : NewName dir name) {k : ℕ} (hk : IsFile dir k) : (unlinkName dir k).1 ≠ name := by
  have hnone : findByName dir (slotCount dir) name (slotCount dir) 0 = none := Option.map_eq_none_iff.mp h.unlink
  exact findByName_eq_none (by simp) hnone (Nat.zero_le k) hk

theorem Appended.unlinks (h : Appended dir₀ dir name cl) (hnew : NewName dir₀ name) {k : ℕ} (hk : IsFile dir k)
    (hname : (unlinkName dir k).1 = name) : k = endSlot dir₀ := by
  by_contra hne
  obtain ⟨hold, -, heq⟩ := h.old hk hne
  exact hnew.unlinkName_ne hold (heq ▸ hname)

end Directory

variable {σ H : Type} {D : Disk σ} {v₀ v v' : Vol} {name : List UInt8} {cl : ℕ}

/-- Since `v₀` a file of this name and first cluster has come to the volume, and nothing else in its FAT and among
its entries. -/
structure Added (D : Disk σ) (v₀ v : Vol) (name : List UInt8) (cl : ℕ) : Prop where
  taken : ∃ l, Taken D v₀ v cl l
  dir : Appended (D.dir v₀) (D.dir v) name cl

theorem Created.added (h : Created D v v' name cl) (ht : Taken D v v' cl [cl]) (h0 : 0 ∉ name)
    (hstored : storedName name = name) (hlen : (D.dir v).length = D.fs.clusterSize) : Added D v v' name cl := by
  have hlt := (ht.chain.valid cl (List.mem_singleton_self cl)).2
  refine ⟨⟨_, ht⟩, ?_⟩
  obtain ⟨hfit, v1, -, rfl⟩ := h
  rw [Disk.dir_setData]
  exact appended_appendSet (hlen ▸ hfit) h0 (hlt.trans (Disk.entries_lt.trans (by decide))) hstored

theorem Added.resized {size : ℕ} (h : Added D v₀ v name cl) (hdir : D.dir v' = D.dir v)
    (hused : ∀ f ∈ D.firsts v₀, f ≠ 0 → v₀.fat f ≠ 0) {v'' : Vol} (hres : Resized D v' v'' cl size) :
    Appended (D.dir v₀) (D.dir v'') name cl := by
  obtain ⟨k, hk, hfirst, rfl⟩ := hres
  obtain ⟨l, ht⟩ := h.taken
  have hcl := (ht.chain.valid cl ht.chain.first_mem).1
  rw [hdir] at hk hfirst
  have hkey : k = endSlot (D.dir v₀) := by
    by_contra hne
    obtain ⟨hold, heq, -⟩ := h.dir.old hk hne
    apply hused cl ?_ (by omega) (ht.free cl ht.chain.first_mem)
    rw [← hfirst, heq]
    exact hold.first_mem
  rw [Disk.dir_setData, hdir, hkey]
  exact h.dir.setSize size

variable [KernelAlloc H] {w : World σ H}

section Session

def writes (fuel : ℕ) (fs : Fs σ) : Node → List (ℕ × List UInt8) → Io σ H Node
  | node, [] => pure node
  | node, (off, buf) :: rest => do
    let r ← exfatWrite fuel fs node off buf
    writes fuel fs r.2 rest

def openAndWrite (fuel : ℕ) (fs : Fs σ) (path : CString) (requests : List (ℕ × List UInt8)) : Io σ H Unit := do
  match ← exfatOpen fs path with
  | none => pure ()
  | some node => do
    let _ ← writes fuel fs node requests
    pure ()

variable {fuel : ℕ} (ha : AllocOk H) (hfuel : D.fs.entries ≤ fuel) (hpos : 0 < D.fs.clusterSize)
  (hroot : v₀.fat D.fs.rootDirCluster ≠ 0) (hused : ∀ f ∈ D.firsts v₀, f ≠ 0 → v₀.fat f ≠ 0)

include ha hfuel hpos hroot hused

theorem exfatWrite_added {off : ℕ} {buf : List UInt8} {node : Node} (hsize : node.size < 2 ^ 64)
    (h : Added D v₀ (D.vol w) name node.firstCluster) : Wp (exfatWrite fuel D.fs node off buf) w fun r w' =>
      r.2.size < 2 ^ 64 ∧ r.2.firstCluster = node.firstCluster ∧ Added D v₀ (D.vol w') name node.firstCluster := by
  obtain ⟨l, ht⟩ := h.taken
  by_cases hrefuse : node.isDir = true ∨ buf = []
  · apply (exfatWrite_refused hrefuse).mono
    rintro r w ⟨hr, rfl⟩
    rw [hr]
    exact ⟨hsize, rfl, h⟩
  · obtain ⟨hfile, hbuf⟩ := not_or.mp hrefuse
    apply ((exfatWrite_taken ha hpos hroot hfuel ht).and (exfatWrite_spec off ht.chain (ht.used hroot) hfuel
      (by simpa using hfile) hpos hsize hbuf)).mono
    rintro r w' ⟨⟨hfirst, htaken⟩, ⟨-, hsize'⟩, ⟨l', v1, htouch, hv⟩, -⟩
    have hdir := htouch.dir (ht.used hroot)
    refine ⟨hsize', hfirst, htaken, ?_⟩
    rcases hv with hv | ⟨size, -, hres⟩
    · rw [hv, hdir]
      exact h.dir
    · exact h.resized hdir hused hres

theorem writes_added {node : Node} {requests : List (ℕ × List UInt8)} (hsize : node.size < 2 ^ 64)
    (h : Added D v₀ (D.vol w) name node.firstCluster) :
    Wp (writes fuel D.fs node requests) w fun _ w' => Added D v₀ (D.vol w') name node.firstCluster := by
  induction requests generalizing node w with
  | nil => exact wp_pure h
  | cons request rest ih =>
    rw [writes]
    apply wp_bind (exfatWrite_added ha hfuel hpos hroot hused hsize h)
    rintro r w1 ⟨hsize1, hfirst, h1⟩
    rw [← hfirst] at h1 ⊢
    exact ih hsize1 h1

end Session

section Reclaim

variable {path : CString} {fuel : ℕ}

/-- The FAT is the same, and so is what `dir_scan_root` returns. -/
structure SameFiles (D : Disk σ) (w w' : World σ H) : Prop where
  fat : (D.vol w').fat = (D.vol w).fat
  scan : ∀ maxEnts, ∃ ents, (Wp (dirScanRoot D.fs maxEnts) w fun r _ => r = ents) ∧
    Wp (dirScanRoot D.fs maxEnts) w' fun r _ => r = ents

theorem dirScanRoot_same (ha : AllocOk H) (hpos : 0 < D.fs.clusterSize) {w' : World σ H}
    (hlist : D.listed (D.vol w') = D.listed (D.vol w)) (maxEnts : ℕ) :
    ∃ ents, (Wp (dirScanRoot D.fs maxEnts) w fun r _ => r = ents) ∧
      Wp (dirScanRoot D.fs maxEnts) w' fun r _ => r = ents := by
  refine ⟨_, (dirScanRoot_spec maxEnts).mono fun r _ h => h.2.2 ha hpos, ?_⟩
  apply (dirScanRoot_spec maxEnts).mono
  rintro r w1 ⟨-, -, h⟩
  rw [h ha hpos, hlist]

theorem exfatUnlink_added (ha : AllocOk H) (hfuel : D.fs.entries ≤ fuel) (hpos : 0 < D.fs.clusterSize)
    (hname : fileName path ≠ []) (hnew : NewName (D.dir v₀) (fileName path))
    (h : Added D v₀ (D.vol w) (fileName path) cl) : Wp (exfatUnlink fuel D.fs path) w fun r w' =>
      r = 0 ∧ (D.vol w').fat = v₀.fat ∧ D.listed (D.vol w') = D.listed v₀ := by
  obtain ⟨l, ht⟩ := h.taken
  have hchain : ∀ k, IsFile (D.dir (D.vol w)) k → (unlinkName (D.dir (D.vol w)) k).1 = fileName path →
      IsChain D (D.vol w).fat (streamFirst (D.dir (D.vol w)) k) l := by
    intro k hk hkname
    rw [h.dir.unlinks hnew hk hkname, h.dir.first]
    exact ht.chain
  apply (@exfatUnlink_of_chain _ _ _ D w path fuel (fun _ => l) hchain hfuel).mono
  rintro r w' (⟨-, -, hnone⟩ | ⟨hr, k, j, hk, hkj, v1, hfreed, hv⟩)
  · exact absurd h.dir.name (hnone ha hpos hname _ h.dir.isFile)
  · have hkey := h.dir.unlinks hnew hk (by rw [hkj])
    have hj := unlinkName_snd (D.dir (D.vol w)) k
    rw [hkj] at hj
    subst hkey
    have hfat := ht.freed hfreed
    refine ⟨hr, ?_, ?_⟩
    · rw [hv]
      exact hfat
    · rw [hv, Disk.listed, Disk.dir_setData]
      exact h.dir.erase hj

theorem exfatOpen_created (hname : fileName path ≠ []) (hnew : NewName (D.dir v) (fileName path))
    (hcreated : Created D v (D.vol w) (fileName path) cl) (hlen : (D.dir v).length = D.fs.clusterSize) :
    Wp (exfatOpen D.fs path) w fun r w' => D.vol w' = D.vol w ∧ ∀ node, r = some node → node = ⟨cl, false, 0⟩ := by
  apply (exfatOpen_spec (pathIsRoot_of_name hname)).mono
  rintro r w' ⟨hv, hr, -⟩
  refine ⟨hv, ?_⟩
  rintro node rfl
  obtain ⟨x, hx, rfl⟩ := Option.map_eq_some_iff.mp (hr.resolve_left (by simp)).symm
  have hmem := Disk.lookup_mem hx
  rw [Disk.lookup] at hx
  have hxname : x.name = fileName path := by simpa using List.find?_some hx
  rw [hcreated.listed (fileName_no_zero path) hlen, List.mem_append, List.mem_singleton] at hmem
  rcases hmem with hold | rfl
  · exact absurd hxname (hnew.scan x hold)
  · rfl

/-- A file that is made under a new name, written through a handle in any way and removed leaves no cluster behind:
FAT and files are as before. The root directory and the first clusters of the other files have to be in use. -/
theorem unlink_reclaims (ha : AllocOk H) (hfuel : D.fs.entries ≤ fuel) (hroot : (D.vol w).fat D.fs.rootDirCluster ≠ 0)
    (hused : ∀ f ∈ D.firsts (D.vol w), f ≠ 0 → (D.vol w).fat f ≠ 0) (hlen : (fileName path).length ≤ 63)
    (hascii : ∀ b ∈ fileName path, b < 128) (hnew : NewName (D.dir (D.vol w)) (fileName path))
    (requests : List (ℕ × List UInt8)) :
    Wp (exfatCreate D.fs path) w fun r w1 => r = 0 →
      Wp (openAndWrite fuel D.fs path requests) w1 fun _ w2 =>
        Wp (exfatUnlink fuel D.fs path) w2 fun r w3 => r = 0 ∧ SameFiles D w w3 := by
  apply (exfatCreate_taken hroot).mono
  intro r w1 hcreate hr
  obtain ⟨hname, cl, hcreated, ht⟩ := hcreate hr
  have hpos := hcreated.clusterSize_pos
  have hdir := D.dir_length w
  have hadded := hcreated.added ht (fileName_no_zero path) (storedName_eq hlen hascii) hdir
  have hunlink {w2 : World σ H} (h : Added D (D.vol w) (D.vol w2) (fileName path) cl) :
      Wp (exfatUnlink fuel D.fs path) w2 fun r w3 => r = 0 ∧ SameFiles D w w3 := by
    apply (exfatUnlink_added ha hfuel hpos hname hnew h).mono
    rintro r w3 ⟨hr, hfat, hlist⟩
    exact ⟨hr, hfat, dirScanRoot_same ha hpos hlist⟩
  unfold openAndWrite
  apply wp_bind (exfatOpen_created hname hnew hcreated hdir)
  rintro (_ | node) w2 ⟨hv, hnode⟩
  · exact wp_pure (hunlink (hv.symm ▸ hadded))
  · obtain rfl := hnode node rfl
    have hopened : Added D (D.vol w) (D.vol w2) (fileName path) cl := hv.symm ▸ hadded
    apply wp_bind (writes_added ha hfuel hpos hroot hused (Nat.two_pow_pos 64) hopened)
    intro _ w3 h3
    exact wp_pure (hunlink h3)

end Reclaim

section Ram0

theorem unlink_reclaims_ram0 :
    Wp (exfatCreate ram0Volume.fs pathA) (⟨ram0Memory, ()⟩ : World Memory Unit) fun r w1 => r = 0 →
      Wp (openAndWrite 131072 ram0Volume.fs pathA [(510, [1, 2, 3]), (2 ^ 62, [4])]) w1 fun _ w2 =>
        Wp (exfatUnlink 131072 ram0Volume.fs pathA) w2 fun r w3 =>
          r = 0 ∧ SameFiles ram0Volume (⟨ram0Memory, ()⟩ : World Memory Unit) w3 := by
  have hempty : slotType (ram0Volume.dir (ram0Volume.vol (⟨ram0Memory, ()⟩ : World Memory Unit))) 0 = 0 := by
    decide +kernel
  have hnil : ram0Volume.listed (ram0Volume.vol (⟨ram0Memory, ()⟩ : World Memory Unit)) = [] := dirEntries_of_free hempty
  refine unlink_reclaims allocOk_unit ram0_entries_le ram0Volume_wellFormed.root_used ?_ (by decide) (by decide +kernel)
    ⟨?_, ?_⟩ _
  · intro f hf
    rw [Disk.firsts, hnil] at hf
    cases hf
  · intro x hx
    change x ∈ ram0Volume.listed _ at hx
    rw [hnil] at hx
    cases hx
  · decide +kernel

end Ram0

end DexOs.Exfat
