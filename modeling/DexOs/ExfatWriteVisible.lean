import DexOs.ExfatWriteFailure
import DexOs.ExfatContents

/-! Whether a write that returned its length is found again by the path. The directory entry is looked for by the
first cluster, and the entry of an empty file has none yet. -/

namespace DexOs.Exfat

open DexOs.Lib

variable {σ H : Type} [KernelAlloc H] {D : Disk σ} {w : World σ H} {fuel off : ℕ} {path : CString} {buf : List UInt8}
  {x : Dirent} {ch : ℕ → List ℕ}

/-- `exfat_stat` by the path reports a size that takes the bytes in, and a new handle reads them back. -/
def Visible (D : Disk σ) (path : CString) (off : ℕ) (buf : List UInt8) (w : World σ H) : Prop :=
  (Wp (exfatStat D.fs path) w fun s _ => ∃ size isDir, s = some (size, isDir) ∧ off + buf.length ≤ size) ∧
    Wp (exfatOpen D.fs path) w fun n w' => ∃ node, n = some node ∧
      Wp (exfatRead D.fs node off buf.length) w' fun r _ => r = ((buf.length : ℤ), buf)

/-- The file is opened, and a write through the handle that returns its length, more than 0, can be found again. -/
def WritesVisibly (fuel : ℕ) (D : Disk σ) (path : CString) (off : ℕ) (buf : List UInt8) (w : World σ H) : Prop :=
  Wp (exfatOpen D.fs path) w fun n w1 => ∃ node, n = some node ∧
    Wp (exfatWrite fuel D.fs node off buf) w1 fun r w2 =>
      r.1 = buf.length → 0 < buf.length → Visible D path off buf w2

theorem toInt_lt (n : ℕ) : toInt n < 2 ^ 31 := by
  unfold toInt
  split_ifs <;> omega

theorem exfatWrite_lt (fs : Fs σ) (node : Node) :
    Ends (exfatWrite fuel fs node off buf) w (fun _ => True) fun r _ => r.1 < 2 ^ 31 := by
  apply (exfatWrite_count fuel fs node off buf w).mono (fun _ h => h)
  rintro r w' (hr | hr)
  · rw [hr]
    decide
  · rw [hr]
    exact toInt_lt _

section Found

theorem visible_of_lookup {l : List ℕ} (ha : AllocOk H) (hcsz : 0 < D.fs.clusterSize) (hpath : pathIsRoot path = false)
    (hx : D.lookup (D.vol w) path = some x) (hfile : x.isDir = false) (hsize : off + buf.length ≤ x.size)
    (hc : IsChain D (D.vol w).fat x.firstCluster l) (hon : ∀ c ∈ l, D.On c)
    (hroom : off + buf.length ≤ D.fs.clusterSize * l.length) (hlen : buf.length < 2 ^ 31)
    (hbytes : ((bytes (D.vol w) l).drop off).take buf.length = buf) : Visible D path off buf w := by
  constructor
  · apply (exfatStat_spec hpath ha hcsz).mono
    rintro s w' ⟨-, rfl⟩
    rw [hx]
    exact ⟨x.size, x.isDir, rfl, hsize⟩
  · apply (exfatOpen_spec hpath).mono
    rintro n w' ⟨hv, -, hn⟩
    refine ⟨x.node, by rw [hn ha hcsz, hx, Option.map_some], ?_⟩
    rw [← hv] at hc hbytes
    apply (exfatRead_spec x.node ha hcsz hc hfile).mono
    rintro r _ rfl
    -- what lies behind the bytes does not matter to the read
    have hcut : readFile D (D.vol w').data l x.node.size off buf.length =
        readFile D (D.vol w').data l (off + buf.length) off buf.length := by
      have hxs : off + buf.length ≤ x.node.size := hsize
      unfold readFile
      rcases Nat.eq_zero_or_pos buf.length with h0 | hpos
      · rw [h0, Nat.zero_min, Nat.zero_min, readFrom_zero, ite_self, ite_self]
      · rw [if_neg (by omega), if_neg (by omega), show min buf.length (x.node.size - off) = buf.length by omega,
          show min buf.length (off + buf.length - off) = buf.length by omega]
    have hread : readFile D (D.vol w').data l x.node.size off buf.length = buf := by
      rw [hcut, readFile_eq off buf.length hc hon hroom, List.drop_take, List.take_take,
        Nat.add_sub_cancel_left, Nat.min_self, hbytes]
    rw [hread, toInt_eq_iff.mpr hlen]

theorem not_visible_of_lookup (ha : AllocOk H) (hcsz : 0 < D.fs.clusterSize) (hpath : pathIsRoot path = false)
    (hx : D.lookup (D.vol w) path = some x) (hsize : x.size < off + buf.length) : ¬ Visible D path off buf w := by
  rintro ⟨⟨s, w', hrun, size, isDir, rfl, hle⟩, -⟩
  have hstat := ((exfatStat_spec hpath ha hcsz).post hrun).2
  rw [hx, Option.map_some, Option.some.injEq, Prod.mk.injEq] at hstat
  omega

theorem exfatWrite_visible (ha : AllocOk H) (hon : ∀ c, D.Valid c → D.On c) (ho : OwnedFiles D (D.vol w) ch)
    (hfuel : D.fs.entries ≤ fuel) (hpath : pathIsRoot path = false) (hx : D.lookup (D.vol w) path = some x)
    (hfile : x.isDir = false) (hfirst : x.firstCluster ≠ 0) (hbuf : buf ≠ []) :
    Wp (exfatWrite fuel D.fs x.node off buf) w fun r w' => r.1 = buf.length → Visible D path off buf w' := by
  have hmem := Disk.lookup_mem hx
  have hf : x.firstCluster ∈ D.firsts (D.vol w) := List.mem_map_of_mem hmem
  have hcsz := clusterSize_pos_of_first hf
  have hc := (ho.chain _ hf).resolve_left fun h => hfirst h.1
  have hwrite : Wp (exfatWrite fuel D.fs x.node off buf) w _ :=
    exfatWrite_spec off hc ho.root_used hfuel hfile hcsz (size_lt hmem) hbuf
  obtain ⟨r, w', hrun, -, -, hexact, -⟩ := hwrite
  refine ⟨r, w', hrun, ?_⟩
  intro hr
  have hlen : buf.length < 2 ^ 31 := by
    have hlt := (exfatWrite_lt D.fs x.node).post hrun
    rw [hr] at hlt
    exact_mod_cast hlt
  have hwrote : Wrote D (D.vol w) (D.vol w') x.firstCluster (ch x.firstCluster) off buf (max x.size (off + buf.length)) :=
    (hexact ha hr).2
  have hsize := max_lt (size_lt hmem) hwrote.fits
  have hfound : D.lookup (D.vol w') path = some { x with size := max x.size (off + buf.length) } := by
    rw [hwrote.lookup ho.root_used hf (ho.once hc) hsize, hx, Option.map_some, Dirent.resize, if_pos rfl]
  obtain ⟨l', v1, ht, hupd, hstored⟩ := hwrote.stored
  obtain ⟨v0, -, hroom, hst⟩ := hstored hon
  have hres := hupd.resolve_left fun hno => hno.2 (ht.firsts ho.root_used ▸ hf)
  have hchain : IsChain D (D.vol w').fat x.firstCluster l' := by
    rw [hres.fat]
    exact ht.chain
  have hbytes : bytes (D.vol w') l' = overlay (bytes v0 l') off buf := by
    rw [← hst.bytes]
    exact bytes_congr fun c hm => hres.data fun e => ht.chain.no_root (e ▸ hm)
  have hlenb : (bytes v0 l').length = D.fs.clusterSize * l'.length := by
    rw [← length_bytes (hchain.filled w'), hbytes, length_overlay]
  apply visible_of_lookup ha hcsz hpath hfound hfile (le_max_right _ _) hchain
    (fun c hm => hon c (hchain.valid c hm)) hroom hlen
  rw [hbytes, drop_take_overlay (by rw [hlenb]; exact hroom)]

end Found

section Lost

omit [KernelAlloc H] in
theorem OwnedFiles.fat_ne_zero {v : Vol} (ho : OwnedFiles D v ch) {f : ℕ} (hf : f ∈ D.firsts v) (h0 : f ≠ 0) :
    v.fat f ≠ 0 := by
  have hc := (ho.chain f hf).resolve_left fun h => h0 h.1
  exact hc.fat_ne_zero hc.first_mem

theorem exfatWrite_lost {cl : ℕ} {w1 : World σ H} (ho : OwnedFiles D (D.vol w) ch) (hfuel : D.fs.entries ≤ fuel)
    (hfile : x.isDir = false) (hcsz : 0 < D.fs.clusterSize) (hsize : x.size < 2 ^ 64) (hbuf : buf ≠ [])
    (ht : Took D (D.vol w) (D.vol w1) cl) :
    Wp (exfatWrite fuel D.fs { x.node with firstCluster := cl } off buf) w1 fun _ w2 =>
      D.dir (D.vol w2) = D.dir (D.vol w) := by
  have hroot1 : (D.vol w1).fat D.fs.rootDirCluster ≠ 0 := by
    rw [ht.fat _ ho.root_used]
    exact ho.root_used
  have hdir1 : D.dir (D.vol w1) = D.dir (D.vol w) := ht.data _ ho.root_used
  have hwrite : Wp (exfatWrite fuel D.fs { x.node with firstCluster := cl } off buf) w1 _ :=
    exfatWrite_spec off (ht.alone ho.root_used) hroot1 hfuel hfile hcsz hsize hbuf
  apply hwrite.mono
  rintro r w2 ⟨-, ⟨l', v1, htouch, hv⟩, -⟩
  have hdir : D.dir v1 = D.dir (D.vol w) := (htouch.dir hroot1).trans hdir1
  rcases hv with rfl | ⟨size, -, k, hk, hfirst, -⟩
  · exact hdir
  · have hmem := hk.first_mem
    rw [hfirst, hdir] at hmem
    exact absurd ht.free (ho.fat_ne_zero hmem ht.ne_zero)

theorem goesThrough_iff_free (ha : AllocOk H) (hon : ∀ c, D.Valid c → D.On c) (hcsz : 0 < D.fs.clusterSize) (len : ℕ) :
    GoesThrough D w [] off len ↔ (off + len + D.fs.clusterSize - 1) / D.fs.clusterSize ≤ (D.free (D.vol w)).length := by
  unfold GoesThrough
  dsimp only
  rw [granted_of_allocOk ha hcsz, lacking, List.length_nil, Nat.sub_zero]
  refine and_iff_left ⟨rfl, ?_⟩
  intro c hc
  have hfree : c ∈ D.free (D.vol w) := List.mem_of_mem_take (List.mem_of_mem_drop (List.mem_of_mem_take hc))
  exact hon c (Disk.mem_free.mp hfree).1

theorem exfatWrite_visible_iff_of_empty (ha : AllocOk H) (hon : ∀ c, D.Valid c → D.On c)
    (ho : OwnedFiles D (D.vol w) ch) (hfuel : D.fs.entries ≤ fuel) (hpath : pathIsRoot path = false)
    (hx : D.lookup (D.vol w) path = some x) (hfile : x.isDir = false) (hfirst : x.firstCluster = 0) (hbuf : buf ≠ []) :
    Wp (exfatWrite fuel D.fs x.node off buf) w (fun r w' => r.1 = buf.length → Visible D path off buf w') ↔
      2 ^ 31 ≤ buf.length ∨
        (D.free (D.vol w)).length < (off + buf.length + D.fs.clusterSize - 1) / D.fs.clusterSize := by
  have hmem := Disk.lookup_mem hx
  have hcsz := clusterSize_pos_of_first (List.mem_map_of_mem hmem : x.firstCluster ∈ D.firsts (D.vol w))
  have hpos := List.length_pos_iff.mpr hbuf
  have hceil : 0 < (off + buf.length + D.fs.clusterSize - 1) / D.fs.clusterSize := Nat.div_pos (by omega) hcsz
  have hfirst' : x.node.firstCluster = 0 := hfirst
  rcases exfatWrite_first hfirst' ho.root_used hfuel hfile hcsz hbuf with
    ⟨hnil, hrun⟩ | ⟨-, hnone, -⟩ | ⟨cl, rest, w1, hfree, hsome, ht, hfree1, hheap1, hrun⟩
  · apply iff_of_true
    · exact ⟨_, _, hrun, fun h => absurd h (by dsimp only; omega)⟩
    · rw [hnil]
      exact .inr hceil
  · exact absurd hnone (ha _ _ hcsz)
  · have hlost : Wp (exfatWrite fuel D.fs { x.node with firstCluster := cl } off buf) w1 _ :=
      exfatWrite_lost ho hfuel hfile hcsz (size_lt hmem) hbuf ht
    unfold Wp
    rw [hrun]
    rcases Nat.lt_or_ge buf.length (2 ^ 31) with hlen | hlong
    · rw [or_iff_right (by omega)]
      have hroot1 : (D.vol w1).fat D.fs.rootDirCluster ≠ 0 := by
        rw [ht.fat _ ho.root_used]
        exact ho.root_used
      have hiff : GoesThrough D w1 [cl] off buf.length ↔ GoesThrough D w [] off buf.length :=
        goesThrough_empty (by omega) hcsz hfree hsome hfree1 hheap1
      rw [goesThrough_iff_free ha hon hcsz] at hiff
      have hres : Wp (exfatWrite fuel D.fs { x.node with firstCluster := cl } off buf) w1 _ :=
        exfatWrite_result (ht.alone ho.root_used) hroot1 hfuel hfile hcsz hbuf (by omega)
      apply (hres.and hlost).iff
      rintro r w2 ⟨⟨hgo, hno, -⟩, hdir⟩
      have hfound : D.lookup (D.vol w2) path = some x := by rw [Disk.lookup_congr hdir, hx]
      have hempty := ho.empty x hmem hfirst
      have hhidden : ¬ Visible D path off buf w2 := not_visible_of_lookup ha hcsz hpath hfound (by omega)
      constructor
      · intro hvis
        by_contra hcond
        apply hhidden
        apply hvis
        rw [hgo (hiff.mpr (by omega)), toInt_eq_iff.mpr hlen]
      · intro hcond hr
        have hnot : ¬ GoesThrough D w1 [cl] off buf.length := by
          rw [hiff]
          omega
        rw [hno hnot] at hr
        dsimp only at hr
        omega
    · apply iff_of_true
      · obtain ⟨r, w2, hrun1, -⟩ := hlost
        refine ⟨r, w2, hrun1, ?_⟩
        intro hr
        have hlt := (exfatWrite_lt _ _).post hrun1
        omega
      · exact .inl hlong

end Lost

/-- With every buffer allocated and every cluster on the device, what is written to a file is found again exactly
when the file has a first cluster already, or when the write cannot return its length, more than 0: the buffer
is empty or has 2^31 bytes or more, or too few clusters are free. -/
theorem writesVisibly_iff (ha : AllocOk H) (hon : ∀ c, D.Valid c → D.On c) (ho : OwnedFiles D (D.vol w) ch)
    (hfuel : D.fs.entries ≤ fuel) (hpath : pathIsRoot path = false) (hx : D.lookup (D.vol w) path = some x)
    (hfile : x.isDir = false) : WritesVisibly fuel D path off buf w ↔
      x.firstCluster ≠ 0 ∨ buf = [] ∨ 2 ^ 31 ≤ buf.length ∨
        (D.free (D.vol w)).length < (off + buf.length + D.fs.clusterSize - 1) / D.fs.clusterSize := by
  have hcsz := clusterSize_pos_of_first (List.mem_map_of_mem (Disk.lookup_mem hx) : x.firstCluster ∈ D.firsts (D.vol w))
  apply (exfatOpen_spec hpath).iff
  rintro n w1 ⟨hv, -, hn⟩
  rw [hn ha hcsz, hx, Option.map_some]
  rw [← hv] at ho hx ⊢
  simp only [Option.some.injEq, exists_eq_left']
  by_cases hbuf : buf = []
  · apply iff_of_true _ (.inr (.inl hbuf))
    apply (exfatWrite_refused (.inr hbuf)).mono
    rintro r w2 - - hpos
    rw [hbuf] at hpos
    exact absurd hpos (lt_irrefl 0)
  · have hpos := List.length_pos_iff.mpr hbuf
    simp only [hpos, forall_const]
    by_cases hfirst : x.firstCluster = 0
    · rw [or_iff_right (not_not.mpr hfirst), or_iff_right hbuf]
      exact exfatWrite_visible_iff_of_empty ha hon ho hfuel hpath hx hfile hfirst hbuf
    · exact iff_of_true (exfatWrite_visible ha hon ho hfuel hpath hx hfile hfirst hbuf) (.inl hfirst)

section Ram0

theorem writesVisibly_iff_ram0 :
    WritesVisibly 131072 ram0Volume pathA 510 [1, 2, 3] (⟨ram0File, ()⟩ : World Memory Unit) := by
  have hpath : pathIsRoot pathA = false := by decide
  apply (writesVisibly_iff allocOk_unit ram0_on ram0File_owned ram0_entries_le hpath (ram0File_lookup ()) rfl).mpr
  exact .inl (by decide)

def ram0Empty : Memory := poke ram0Memory (0x200000 + 589824) (entrySet [97] 0)

theorem ram0Empty_listed :
    ram0Volume.listed (ram0Volume.vol (⟨ram0Empty, ()⟩ : World Memory Unit)) = [⟨0, 0, false, [97]⟩] := by
  change ram0Volume.listed (ram0Volume.volOf (ram0Store.view ram0Empty)) = _
  decide +kernel

theorem ram0Empty_owned :
    OwnedFiles ram0Volume (ram0Volume.vol (⟨ram0Empty, ()⟩ : World Memory Unit)) fun _ => [] := by
  refine ⟨?_, ?_, ?_, fun _ _ _ hc => absurd hc List.not_mem_nil, ?_⟩
  · change (ram0Volume.volOf (ram0Store.view ram0Empty)).fat 2 ≠ 0
    decide +kernel
  · intro f hf
    rw [Disk.firsts, ram0Empty_listed] at hf
    exact .inl ⟨List.mem_singleton.mp hf, rfl⟩
  · intro x hx _
    rw [ram0Empty_listed, List.mem_singleton] at hx
    rw [hx]
  · rw [Disk.firsts, ram0Empty_listed]
    exact List.pairwise_singleton _ _

theorem first_write_is_lost :
    OwnedFiles ram0Volume (ram0Volume.vol (⟨ram0Empty, ()⟩ : World Memory Unit)) (fun _ => []) ∧
    ram0Volume.lookup (ram0Volume.vol (⟨ram0Empty, ()⟩ : World Memory Unit)) pathA = some ⟨0, 0, false, [97]⟩ ∧
    ¬ WritesVisibly 131072 ram0Volume pathA 0 [1] (⟨ram0Empty, ()⟩ : World Memory Unit) := by
  have hpath : pathIsRoot pathA = false := by decide
  have hfound : ram0Volume.lookup (ram0Volume.vol (⟨ram0Empty, ()⟩ : World Memory Unit)) pathA =
      some ⟨0, 0, false, [97]⟩ := by
    rw [Disk.lookup, ram0Empty_listed]
    decide
  refine ⟨ram0Empty_owned, hfound, ?_⟩
  rintro ⟨n, w1, hrun, node, rfl, hwrite⟩
  obtain ⟨hv, -, hn⟩ := (exfatOpen_spec hpath).post hrun
  have hnode := hn allocOk_unit (by decide)
  rw [hfound, Option.map_some, Option.some.injEq] at hnode
  have howned := ram0Empty_owned
  rw [← hv] at hfound howned
  have hvisible : Wp (exfatWrite 131072 ram0Volume.fs node 0 [1]) w1 fun r w2 =>
      r.1 = ([1] : List UInt8).length → Visible ram0Volume pathA 0 [1] w2 :=
    hwrite.mono fun r w2 h hr => h hr (by decide)
  rw [hnode, exfatWrite_visible_iff_of_empty allocOk_unit ram0_on howned ram0_entries_le hpath hfound rfl rfl
    (by decide)] at hvisible
  have hthree : 3 ∈ ram0Volume.free (ram0Volume.vol w1) := by
    rw [hv]
    refine Disk.mem_free.mpr ⟨by decide +kernel, ?_⟩
    change (ram0Volume.volOf (ram0Store.view ram0Empty)).fat 3 = 0
    decide +kernel
  have hsome := List.length_pos_of_mem hthree
  rcases hvisible with hlong | hfew
  · exact absurd hlong (by decide)
  · have hone : (0 + ([1] : List UInt8).length + ram0Volume.fs.clusterSize - 1) / ram0Volume.fs.clusterSize = 1 := by decide
    rw [hone] at hfew
    omega

end Ram0

end DexOs.Exfat
