import DexOs.ExfatWriteOutcome
import DexOs.ExfatHandles

/-! What a failed `exfat_write` leaves behind: clusters are taken before the data is written, and data is
written before the next buffer is asked for. -/

namespace DexOs.Exfat

open DexOs.Lib

variable {σ H : Type} {D : Disk σ} {v v' : Vol} {ch : ℕ → List ℕ}

/-- Every listed file owns its chain on the device, or is empty and has no cluster. -/
structure OwnedFiles (D : Disk σ) (v : Vol) (ch : ℕ → List ℕ) : Prop where
  root_used : v.fat D.fs.rootDirCluster ≠ 0
  chain : ∀ f ∈ D.firsts v, FileChain D v.fat f (ch f)
  empty : ∀ x ∈ D.listed v, x.firstCluster = 0 → x.size = 0
  on_device : ∀ f ∈ D.firsts v, ∀ c ∈ ch f, D.On c
  disjoint : (D.firsts v).Pairwise fun f g => (ch f).Disjoint (ch g)

theorem OwnedFiles.once (h : OwnedFiles D v ch) {f : ℕ} (hc : IsChain D v.fat f (ch f)) : Once f (D.firsts v) := by
  apply h.disjoint.imp
  rintro a b hd rfl rfl
  exact hd hc.first_mem hc.first_mem

theorem OwnedFiles.no_root (h : OwnedFiles D v ch) {f : ℕ} (hf : f ∈ D.firsts v) : D.fs.rootDirCluster ∉ ch f := by
  rcases h.chain f hf with ⟨-, hnil⟩ | hc
  · rw [hnil]
    exact List.not_mem_nil
  · exact hc.no_root

section Contents

def Quiet (old : List UInt8) (size off : ℕ) (chunk : List UInt8) : Prop :=
  ∀ i < chunk.length, off + i < size → byteAt chunk i = byteAt old (off + i)

theorem take_overlay_iff {old chunk : List UInt8} {size off : ℕ} (hfit : off + chunk.length ≤ old.length) :
    (overlay old off chunk).take size = old.take size ↔ Quiet old size off chunk := by
  constructor
  · intro heq i hi hlt
    have hbyte := congrArg (fun b => byteAt b (off + i)) heq
    rw [byteAt_take, byteAt_take, if_pos hlt, if_pos hlt, byteAt_overlay_inside hfit, if_pos (by omega),
      Nat.add_sub_cancel_left] at hbyte
    exact hbyte
  · intro hquiet
    apply bytes_ext (by simp)
    intro i hi
    rw [List.length_take] at hi
    rw [byteAt_take, byteAt_take, if_pos (by omega), if_pos (by omega), byteAt_overlay_inside hfit]
    split_ifs with hin
    · obtain ⟨j, rfl⟩ := Nat.exists_eq_add_of_le hin.1
      rw [Nat.add_sub_cancel_left]
      exact hquiet j (by omega) (by omega)
    · rfl

def SameContents (D : Disk σ) (ch : ℕ → List ℕ) (v v' : Vol) : Prop :=
  ∀ y ∈ D.listed v, (bytes v' (ch y.firstCluster)).take y.size = (bytes v (ch y.firstCluster)).take y.size

theorem sameContents_iff {x : Dirent} {off : ℕ} {chunk : List UInt8} (ho : OwnedFiles D v ch) (hx : x ∈ D.listed v)
    (hc : IsChain D v.fat x.firstCluster (ch x.firstCluster)) (hst : Stored v v' (ch x.firstCluster) off chunk)
    (hfit : off + chunk.length ≤ (bytes v (ch x.firstCluster)).length) :
    SameContents D ch v v' ↔ Quiet (bytes v (ch x.firstCluster)) x.size off chunk := by
  have hself : (bytes v' (ch x.firstCluster)).take x.size = (bytes v (ch x.firstCluster)).take x.size ↔
      Quiet (bytes v (ch x.firstCluster)) x.size off chunk := by
    rw [hst.bytes, take_overlay_iff hfit]
  rw [← hself]
  constructor
  · intro h
    exact h x hx
  · intro h y hy
    by_cases hyx : y.firstCluster = x.firstCluster
    · have hxy := (ho.once hc).inj hy hx hyx rfl
      rw [hxy]
      exact h
    · have hsymm : Std.Symm fun f g => (ch f).Disjoint (ch g) := ⟨fun _ _ hd => hd.symm⟩
      have hdis := ho.disjoint.forall (List.mem_map_of_mem hy) (List.mem_map_of_mem hx) hyx
      rw [bytes_congr fun c hm => hst.data c fun hcx => hdis hm hcx]

end Contents

section Failure

variable [KernelAlloc H] {w : World σ H} {fuel off : ℕ} {node : Node} {buf : List UInt8} {x : Dirent}

/-- After a call that returns -1, FAT, root directory, the contents of every file and the handle are as before. -/
def FailsCleanly (fuel : ℕ) (D : Disk σ) (ch : ℕ → List ℕ) (node : Node) (off : ℕ) (buf : List UInt8)
    (w : World σ H) : Prop :=
  Wp (exfatWrite fuel D.fs node off buf) w fun r w' => r.1 = -1 →
    (D.vol w').fat = (D.vol w).fat ∧ D.dir (D.vol w') = D.dir (D.vol w) ∧ SameContents D ch (D.vol w) (D.vol w') ∧
      r.2.firstCluster = node.firstCluster ∧ r.2.size = node.size

/-- A write that has to extend the file finds no free cluster, or has all that it needs. A write inside the chain
finds the bytes in place that it writes before the buffers run out. The return value of a write that goes
through is -1 for some lengths from 2^32 - 1 on; then it must change nothing at all. -/
def ChangesNothing (D : Disk σ) (w : World σ H) (x : Dirent) (l : List ℕ) (node : Node) (off : ℕ)
    (buf : List UInt8) : Prop :=
  let csz := D.fs.clusterSize
  let turns := turnsOf csz (off % csz) buf.length
  let done := granted csz turns w.heap
  if 0 < lacking csz l (off + buf.length) then
    D.free (D.vol w) = [] ∨ GoesThrough D w l off buf.length ∧ buf.length % 2 ^ 32 ≠ 2 ^ 32 - 1
  else if done < turns then Quiet (bytes (D.vol w) l) x.size off (buf.take (done * csz - off % csz))
  else buf.length % 2 ^ 32 = 2 ^ 32 - 1 → Quiet (bytes (D.vol w) l) x.size off buf ∧
    off + buf.length ≤ node.size ∧ (node.size = x.size ∨ (KernelAlloc.kmalloc ((turn csz)^[turns] w.heap) csz).1 = none)

theorem toInt_eq_neg_one_iff {n : ℕ} : toInt n = -1 ↔ n % 2 ^ 32 = 2 ^ 32 - 1 := by
  unfold toInt
  split_ifs <;> omega

theorem failsCleanly_iff_of_short (hl : FileChain D (D.vol w).fat node.firstCluster (ch node.firstCluster))
    (hroot : (D.vol w).fat D.fs.rootDirCluster ≠ 0) (hfuel : D.fs.entries ≤ fuel) (hfile : node.isDir = false)
    (hcsz : 0 < D.fs.clusterSize) (hsize : node.size < 2 ^ 64) (hbuf : buf ≠ []) (hlen : buf.length < 2 ^ 63)
    (hneed : 0 < lacking D.fs.clusterSize (ch node.firstCluster) (off + buf.length)) :
    FailsCleanly fuel D ch node off buf w ↔ D.free (D.vol w) = [] ∨
      GoesThrough D w (ch node.firstCluster) off buf.length ∧ buf.length % 2 ^ 32 ≠ 2 ^ 32 - 1 := by
  apply (exfatWrite_short hl hroot hfuel hfile hcsz hsize hbuf hlen hneed).iff
  rintro r w' ⟨hnil, hmark, hthrough, hfail⟩
  constructor
  · intro hclean
    by_contra hcond
    obtain ⟨hfree, hgo⟩ := not_or.mp hcond
    apply (hmark hfree).fat_ne
    apply (hclean _).1
    by_cases hg : GoesThrough D w (ch node.firstCluster) off buf.length
    · rw [hthrough hg, toInt_eq_neg_one_iff]
      by_contra hne
      exact hgo ⟨hg, hne⟩
    · exact hfail hg
  · intro hcond hr
    rcases hcond with hfree | ⟨hg, hne⟩
    · obtain ⟨rfl, hv⟩ := hnil hfree
      rw [hv]
      exact ⟨rfl, rfl, fun _ _ => rfl, rfl, rfl⟩
    · rw [hthrough hg, toInt_eq_neg_one_iff] at hr
      exact absurd hr hne

theorem goesThrough_iff_granted {l : List ℕ} {len : ℕ} (hon : ∀ c ∈ l, D.On c)
    (hneed : lacking D.fs.clusterSize l (off + len) = 0) : GoesThrough D w l off len ↔
      granted D.fs.clusterSize (turnsOf D.fs.clusterSize (off % D.fs.clusterSize) len) w.heap =
        turnsOf D.fs.clusterSize (off % D.fs.clusterSize) len := by
  unfold GoesThrough
  dsimp only
  rw [hneed, Nat.zero_add, List.take_zero, List.append_nil, and_iff_right (Nat.zero_le _), and_iff_left]
  intro c hc
  exact hon c (List.mem_of_mem_drop (List.mem_of_mem_take hc))

omit [KernelAlloc H] in
theorem Updates.data [KernelAlloc H] {h : H} {f size c : ℕ} (hu : Updates D h f size v v')
    (hc : c ≠ D.fs.rootDirCluster) : v'.data c = v.data c := by
  rcases hu with ⟨rfl, -⟩ | ⟨-, hres⟩
  · rfl
  · exact hres.data hc

omit [KernelAlloc H] in
theorem resized_dir_iff {f size : ℕ} (hres : Resized D v v' f size) (hx : x ∈ D.listed v) (hf : x.firstCluster = f)
    (hone : Once f (D.firsts v)) (hs : size < 2 ^ 64) : D.dir v' = D.dir v ↔ size = x.size := by
  obtain ⟨k, hk, rfl, rfl⟩ := hres
  have hxk : x = entryAt (D.dir v) k := hone.inj hx hk.mem_entries hf (entryAt_first hk.2)
  have hsize : x.size = streamSize (D.dir v) k := by rw [hxk, entryAt, scanEntry, if_pos hk.2]
  rw [Disk.dir_setData, hsize]
  constructor
  · intro hdir
    rw [← hdir, setSize_streamSize (hasStream_iff.mp hk.2).1 hs]
  · intro h
    rw [h]
    exact setSize_self _ _

omit [KernelAlloc H] in
theorem Stored.dir {l : List ℕ} {chunk : List UInt8} (h : Stored v v' l off chunk) (hroot : D.fs.rootDirCluster ∉ l) :
    D.dir v' = D.dir v := h.data _ hroot

omit [KernelAlloc H] in
theorem Updates.dir_iff [KernelAlloc H] {h : H} {size : ℕ} (hu : Updates D h x.firstCluster size v v')
    (hx : x ∈ D.listed v) (h0 : x.firstCluster ≠ 0) (hone : Once x.firstCluster (D.firsts v)) (hs : size < 2 ^ 64) :
    D.dir v' = D.dir v ↔ size = x.size ∨ (KernelAlloc.kmalloc h D.fs.clusterSize).1 = none := by
  rcases hu with ⟨rfl, hnone⟩ | ⟨hsome, hres⟩
  · apply iff_of_true rfl
    by_contra hcond
    exact hnone (not_or.mp hcond).2 h0 (List.mem_map_of_mem hx)
  · rw [or_iff_left hsome]
    exact resized_dir_iff hres hx rfl hone hs

theorem failsCleanly_iff_of_covered (ho : OwnedFiles D (D.vol w) ch) (hx : x ∈ D.listed (D.vol w))
    (hnode : node.firstCluster = x.firstCluster) (hc : IsChain D (D.vol w).fat x.firstCluster (ch x.firstCluster))
    (hfuel : D.fs.entries ≤ fuel) (hfile : node.isDir = false) (hcsz : 0 < D.fs.clusterSize)
    (hsize : node.size < 2 ^ 64) (hbuf : buf ≠ [])
    (hneed : lacking D.fs.clusterSize (ch x.firstCluster) (off + buf.length) = 0) :
    FailsCleanly fuel D ch node off buf w ↔
      if granted D.fs.clusterSize (turnsOf D.fs.clusterSize (off % D.fs.clusterSize) buf.length) w.heap <
          turnsOf D.fs.clusterSize (off % D.fs.clusterSize) buf.length then
        Quiet (bytes (D.vol w) (ch x.firstCluster)) x.size off (buf.take (granted D.fs.clusterSize
          (turnsOf D.fs.clusterSize (off % D.fs.clusterSize) buf.length) w.heap * D.fs.clusterSize -
            off % D.fs.clusterSize))
      else buf.length % 2 ^ 32 = 2 ^ 32 - 1 → Quiet (bytes (D.vol w) (ch x.firstCluster)) x.size off buf ∧
        off + buf.length ≤ node.size ∧ (node.size = x.size ∨ (KernelAlloc.kmalloc ((turn D.fs.clusterSize)^[turnsOf
          D.fs.clusterSize (off % D.fs.clusterSize) buf.length] w.heap) D.fs.clusterSize).1 = none) := by
  have hf : x.firstCluster ∈ D.firsts (D.vol w) := List.mem_map_of_mem hx
  have hfit : off + buf.length ≤ D.fs.clusterSize * (ch x.firstCluster).length := by
    apply (le_mul_ceil hcsz).trans
    apply Nat.mul_le_mul_left
    unfold lacking at hneed
    omega
  have hsmall := hc.byte_lt hfit
  have hlt := D.clusterSize_lt
  have hlenb : (bytes (D.vol w) (ch x.firstCluster)).length = D.fs.clusterSize * (ch x.firstCluster).length :=
    length_bytes (hc.filled w)
  have hgo : GoesThrough D w (ch x.firstCluster) off buf.length ↔ _ := goesThrough_iff_granted (ho.on_device _ hf) hneed
  have hle := granted_le D.fs.clusterSize (turnsOf D.fs.clusterSize (off % D.fs.clusterSize) buf.length) w.heap
  have hcut : off % D.fs.clusterSize + buf.length ≤
      D.fs.clusterSize * turnsOf D.fs.clusterSize (off % D.fs.clusterSize) buf.length := le_mul_ceil hcsz
  have hcn : IsChain D (D.vol w).fat node.firstCluster (ch x.firstCluster) := by
    rw [hnode]
    exact hc
  apply (exfatWrite_near hcn ho.root_used hfuel hfile hcsz hbuf (by omega)).iff
  rintro r w' ⟨hthrough, hfail, -, hdata⟩
  obtain ⟨v1, hst, hkept, hupd⟩ := hdata hneed (ho.on_device _ hf)
  generalize turnsOf D.fs.clusterSize (off % D.fs.clusterSize) buf.length = turns at *
  split_ifs with hdone
  · have hno : ¬ GoesThrough D w (ch x.firstCluster) off buf.length := fun h => by
      have := hgo.mp h
      omega
    rw [hfail hno, hkept hno]
    have hcontents := sameContents_iff ho hx hc hst (by rw [hlenb, List.length_take]; omega)
    rw [← hcontents]
    constructor
    · intro hclean
      exact (hclean rfl).2.2.1
    · intro hsame _
      exact ⟨hst.fat, hst.dir (ho.no_root hf), hsame, rfl, rfl⟩
  · have hyes : GoesThrough D w (ch x.firstCluster) off buf.length := hgo.mpr (by omega)
    have hall : granted D.fs.clusterSize turns w.heap = turns := by omega
    rw [hall, List.take_of_length_le (by rw [Nat.mul_comm]; omega)] at hst
    have hdir1 := hst.dir (ho.no_root hf)
    have hupd' := hupd hyes
    rw [hthrough hyes]
    dsimp only
    rw [toInt_eq_neg_one_iff]
    apply imp_congr_right
    intro _
    have hcontents : SameContents D ch (D.vol w) (D.vol w') ↔
        Quiet (bytes (D.vol w) (ch x.firstCluster)) x.size off buf := by
      rw [← sameContents_iff ho hx hc hst (by rw [hlenb]; exact hfit)]
      apply forall₂_congr
      intro y hy
      rw [bytes_congr fun c hm => hupd'.data fun e => ho.no_root (List.mem_map_of_mem hy) (e ▸ hm)]
    have hdir : D.dir (D.vol w') = D.dir (D.vol w) ↔ max node.size (off + buf.length) = x.size ∨
        (KernelAlloc.kmalloc ((turn D.fs.clusterSize)^[turns] w.heap) D.fs.clusterSize).1 = none := by
      have hlisted := Disk.listed_congr hdir1
      have hfirsts := Disk.firsts_congr hdir1
      rw [← hdir1]
      rw [hnode] at hupd'
      have hpos := (hc.valid _ hc.first_mem).1
      exact hupd'.dir_iff (hlisted ▸ hx) (by omega) (hfirsts ▸ ho.once hc) (max_lt hsize (by omega))
    rw [hupd'.fat, hst.fat, hdir, hcontents]
    constructor
    · rintro ⟨-, hd, hq, -, hmax⟩
      rw [hmax] at hd
      exact ⟨hq, by omega, hd⟩
    · rintro ⟨hq, hend, hd⟩
      rw [Nat.max_eq_left hend]
      exact ⟨rfl, hd, hq, rfl, rfl⟩

/-- A failed write leaves everything as it was exactly when the handle is a directory, the buffer is empty, or the
free clusters, the buffers of the kernel heap and the bytes in place are as `ChangesNothing` says. -/
theorem failsCleanly_iff (ho : OwnedFiles D (D.vol w) ch) (hfuel : D.fs.entries ≤ fuel) (hx : x ∈ D.listed (D.vol w))
    (hnode : node.firstCluster = x.firstCluster) (hsize : node.size < 2 ^ 64) (hlen : buf.length < 2 ^ 63) :
    FailsCleanly fuel D ch node off buf w ↔
      node.isDir = true ∨ buf = [] ∨ ChangesNothing D w x (ch x.firstCluster) node off buf := by
  have hf : x.firstCluster ∈ D.firsts (D.vol w) := List.mem_map_of_mem hx
  have hcsz := clusterSize_pos_of_first hf
  by_cases hdir : node.isDir = true
  · apply iff_of_true _ (.inl hdir)
    unfold FailsCleanly exfatWrite
    rw [if_pos hdir]
    exact wp_pure fun _ => ⟨rfl, rfl, fun _ _ => rfl, rfl, rfl⟩
  by_cases hbuf : buf = []
  · apply iff_of_true _ (.inr (.inl hbuf))
    unfold FailsCleanly exfatWrite
    rw [if_neg hdir, if_pos hbuf]
    exact wp_pure fun h => absurd h (show (0 : ℤ) ≠ -1 by decide)
  have hfile : node.isDir = false := by simpa using hdir
  rw [or_iff_right hdir, or_iff_right hbuf]
  unfold ChangesNothing
  dsimp only
  rcases Nat.eq_zero_or_pos (lacking D.fs.clusterSize (ch x.firstCluster) (off + buf.length)) with h0 | hneed
  · rw [if_neg (by omega)]
    rcases ho.chain _ hf with ⟨-, hnil⟩ | hc
    · -- no cluster has no room for a byte
      have hpos := List.length_pos_iff.mpr hbuf
      have hceil : 0 < (off + buf.length + D.fs.clusterSize - 1) / D.fs.clusterSize := Nat.div_pos (by omega) hcsz
      rw [lacking, hnil, List.length_nil] at h0
      omega
    · exact failsCleanly_iff_of_covered ho hx hnode hc hfuel hfile hcsz hsize hbuf h0
  · rw [if_pos hneed]
    rw [← hnode] at hneed hf ⊢
    exact failsCleanly_iff_of_short (ho.chain _ hf) ho.root_used hfuel hfile hcsz hsize hbuf hlen hneed

end Failure

section Ram0

theorem ram0File_owned : OwnedFiles ram0Volume (ram0Volume.vol (⟨ram0File, ()⟩ : World Memory Unit)) fun _ => [3] := by
  have hown := ram0File_owns ()
  refine ⟨ram0File_root (), fun f hf => .inr (hown.chain f hf), ?_, ?_, hown.disjoint⟩
  · intro x hx h0
    rw [ram0File_listed, List.mem_singleton] at hx
    rw [hx] at h0
    exact absurd h0 (by decide)
  · intro f _ c hc
    rw [List.mem_singleton.mp hc]
    decide +kernel

theorem failsCleanly_iff_first_byte :
    FailsCleanly 131072 ram0Volume (fun _ => [3]) ⟨3, false, 0⟩ 0 [1] (⟨ram0File, ()⟩ : World Memory Unit) := by
  apply (failsCleanly_iff (x := ⟨3, 0, false, [97]⟩) ram0File_owned ram0_entries_le
    (by rw [ram0File_listed]; exact List.mem_cons_self) rfl (by decide) (by decide)).mpr
  apply Or.inr
  apply Or.inr
  unfold ChangesNothing
  dsimp only
  rw [if_neg (by decide), granted_of_allocOk allocOk_unit (by decide), if_neg (lt_irrefl _)]
  intro h
  exact absurd h (by decide)

theorem far_write_takes_clusters :
    OwnedFiles ram0Volume (ram0Volume.vol (⟨ram0File, ()⟩ : World Memory Unit)) (fun _ => [3]) ∧
    (⟨3, 0, false, [97]⟩ : Dirent) ∈ ram0Volume.listed (ram0Volume.vol (⟨ram0File, ()⟩ : World Memory Unit)) ∧
    ¬ FailsCleanly 131072 ram0Volume (fun _ => [3]) ⟨3, false, 0⟩ (2 ^ 40) [1]
      (⟨ram0File, ()⟩ : World Memory Unit) := by
  have hmem : (⟨3, 0, false, [97]⟩ : Dirent) ∈
      ram0Volume.listed (ram0Volume.vol (⟨ram0File, ()⟩ : World Memory Unit)) := by
    rw [ram0File_listed]
    exact List.mem_cons_self
  have hneed : lacking ram0Volume.fs.clusterSize [3] (2 ^ 40 + ([1] : List UInt8).length) = 2 ^ 31 := by decide
  have hpos : 0 < lacking ram0Volume.fs.clusterSize [3] (2 ^ 40 + ([1] : List UInt8).length) := by
    rw [hneed]
    exact Nat.two_pow_pos 31
  have hfirst : 3 ∈ ram0Volume.firsts (ram0Volume.vol (⟨ram0File, ()⟩ : World Memory Unit)) := by
    rw [Disk.firsts, ram0File_listed]
    exact List.mem_cons_self
  refine ⟨ram0File_owned, hmem, ?_⟩
  have hiff : FailsCleanly 131072 ram0Volume (fun _ => [3]) ⟨3, false, 0⟩ (2 ^ 40) [1]
      (⟨ram0File, ()⟩ : World Memory Unit) ↔ _ :=
    failsCleanly_iff_of_short (ram0File_owned.chain 3 hfirst) ram0File_owned.root_used
      ram0_entries_le rfl (by decide) (by decide) (by decide) (by decide) hpos
  rw [hiff]
  rintro (hfree | ⟨hgo, -⟩)
  · have hfour : 4 ∈ ram0Volume.free (ram0Volume.vol (⟨ram0File, ()⟩ : World Memory Unit)) := by
      refine Disk.mem_free.mpr ⟨by decide +kernel, ?_⟩
      change (ram0Volume.volOf (ram0Store.view ram0File)).fat 4 = 0
      decide +kernel
    rw [hfree] at hfour
    cases hfour
  · have hlt := ram0Volume.length_free_lt (ram0Volume.vol (⟨ram0File, ()⟩ : World Memory Unit))
    unfold GoesThrough at hgo
    dsimp only at hgo
    rw [hneed] at hgo
    exact absurd hgo.1 (by omega)

end Ram0

end DexOs.Exfat
