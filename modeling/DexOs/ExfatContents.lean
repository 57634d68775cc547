import DexOs.ExfatHandles

/-! A file is a byte array: what a write does to what reads return. -/

namespace DexOs.Exfat

open DexOs.Lib

variable {σ H : Type} {D : Disk σ} {v v' : Vol}

/-- The clusters `l` have room for the bytes of the file, with zeros behind them. -/
structure Backed (D : Disk σ) (v : Vol) (x : Dirent) (l : List ℕ) : Prop where
  room : x.size ≤ D.fs.clusterSize * l.length
  zeros : ∀ i, x.size ≤ i → byteAt (bytes v l) i = 0

/-- A well-formed volume with every cluster on the device, whose chains back their files. -/
structure Sound (D : Disk σ) (v : Vol) : Prop where
  on : ∀ c, D.Valid c → D.On c
  root_used : v.fat D.fs.rootDirCluster ≠ 0
  owned : ∃ ch, Owns D v.fat (D.firsts v) ch ∧ ∀ x ∈ D.listed v, Backed D v x (ch x.firstCluster)

theorem Grown.bytes {f : ℕ} {l l' : List ℕ} (h : Grown D v v' f l l') (hc : IsChain D v.fat f l)
    (hon : ∀ c, D.Valid c → D.On c) : ∃ n, bytes v' l' = Exfat.bytes v l ++ List.replicate n 0 := by
  obtain ⟨ext, rfl, hext⟩ := h.grows
  have hold : Exfat.bytes v' l = Exfat.bytes v l := bytes_congr fun c hm => h.data_all c (hc.fat_ne_zero hm)
  have hnew : ∀ e : List ℕ, (∀ c ∈ e, v'.data c = List.replicate D.fs.clusterSize 0) →
      Exfat.bytes v' e = List.replicate (D.fs.clusterSize * e.length) 0 := by
    intro e he
    induction e with
    | nil => rfl
    | cons c e ih =>
      have hrest := ih fun d hd => he d (List.mem_cons_of_mem _ hd)
      rw [Exfat.bytes] at hrest ⊢
      rw [List.flatMap_cons, hrest, he c List.mem_cons_self, List.replicate_append_replicate, List.length_cons,
        Nat.mul_succ, Nat.add_comm]
  refine ⟨D.fs.clusterSize * ext.length, ?_⟩
  rw [Exfat.bytes, List.flatMap_append]
  refine congrArg₂ _ hold (hnew ext fun c hm => ?_)
  have hmem := List.mem_append_right l hm
  exact h.zeros c hmem (hext c hm) (hon c (h.chain.valid c hmem))

theorem Wrote.contents {x : Dirent} {l : List ℕ} {off : ℕ} {buf : List UInt8}
    (h : Wrote D v v' x.firstCluster l off buf (max x.size (off + buf.length)))
    (hon : ∀ c, D.Valid c → D.On c) (hc : IsChain D v.fat x.firstCluster l) (hfill : Filled v D.fs.clusterSize l)
    (hb : Backed D v x l) (hbuf : buf ≠ []) (hroot : v.fat D.fs.rootDirCluster ≠ 0)
    (hf : x.firstCluster ∈ D.firsts v) : ∃ l' v1, Touched D v v1 x.firstCluster l l' ∧
      Resized D v1 v' x.firstCluster (max x.size (off + buf.length)) ∧
      Backed D v' { x with size := max x.size (off + buf.length) } l' ∧
      (bytes v' l').take (max x.size (off + buf.length)) = writeAt ((bytes v l).take x.size) off buf := by
  obtain ⟨l', v1, ht, hupd, hstored⟩ := h.stored
  obtain ⟨v0, hg, hfit, hst⟩ := hstored hon
  have hfirsts := ht.firsts hroot
  have hres := hupd.resolve_left fun hno => hno.2 (hfirsts ▸ hf)
  obtain ⟨n, hgrown⟩ := hg.bytes hc hon
  have hlen : (bytes v0 l').length = D.fs.clusterSize * l'.length := by
    refine length_bytes fun c hm => ?_
    by_cases hz : v.fat c = 0
    · rw [hg.zeros c hm hz (hon c (hg.chain.valid c hm)), List.length_replicate]
    · rw [hg.data_all c hz]
      obtain ⟨ext, rfl, hext⟩ := hg.grows
      rcases List.mem_append.mp hm with hm | hm
      · exact hfill c hm
      · exact absurd (hext c hm) hz
  have hzero : ∀ i, x.size ≤ i → byteAt (bytes v0 l') i = 0 := fun i hi => by
    rw [hgrown, byteAt_append_zeros, hb.zeros i hi]
  have hold : (bytes v0 l').take x.size = (bytes v l).take x.size := by
    rw [hgrown, List.take_append_of_le_length (by rw [length_bytes hfill]; exact hb.room)]
  have hnew : bytes v' l' = overlay (bytes v0 l') off buf := by
    rw [← hst.bytes]
    exact bytes_congr fun c hm => hres.data fun e => ht.chain.no_root (e ▸ hm)
  have hroom : x.size ≤ D.fs.clusterSize * l'.length := by
    obtain ⟨ext, rfl, -⟩ := ht.grows
    exact hb.room.trans (Nat.mul_le_mul_left _ (by simp))
  refine ⟨l', v1, ht, hres, ⟨max_le hroom hfit, fun i hi => ?_⟩, ?_⟩
  · rw [hnew, byteAt_overlay_inside (hlen ▸ hfit), if_neg (by dsimp only at hi; omega), hzero i (by dsimp only at hi; omega)]
  · rw [hnew, take_overlay_eq_writeAt hbuf (hlen ▸ hroom) hzero (hlen ▸ hfit), hold]

theorem Sound.write {x : Dirent} {l' : List ℕ} {v1 : Vol} {size : ℕ} {ch : ℕ → List ℕ} (hs : Sound D v)
    (ho : Owns D v.fat (D.firsts v) ch) (hb : ∀ y ∈ D.listed v, Backed D v y (ch y.firstCluster))
    (hx : x ∈ D.listed v) (ht : Touched D v v1 x.firstCluster (ch x.firstCluster) l')
    (hr : Resized D v1 v' x.firstCluster size) (hsize : size < 2 ^ 64) (hnew : Backed D v' { x with size := size } l') :
    Sound D v' := by
  have hf : x.firstCluster ∈ D.firsts v := List.mem_map_of_mem hx
  have hfirsts := ht.firsts hs.root_used
  have hnodup : (D.firsts v1).Nodup := hfirsts ▸ ho.nodup
  have hlist : D.listed v' = (D.listed v).map (Dirent.resize x.firstCluster size) := by
    rw [hr.listed hsize hnodup, Disk.listed_congr (ht.dir hs.root_used)]
  refine ⟨hs.on, ?_, Function.update ch x.firstCluster l', ?_, fun y hy => ?_⟩
  · rw [hr.fat]
    exact ht.fat_ne_zero hs.root_used
  · rw [hr.firsts hsize hnodup, hfirsts, hr.fat]
    exact ht.owns ho hf rfl
  · rw [hlist] at hy
    obtain ⟨z, hz, rfl⟩ := List.mem_map.mp hy
    by_cases hzx : z.firstCluster = x.firstCluster
    · obtain rfl : z = x := List.inj_on_of_nodup_map ho.nodup hz hx hzx
      rw [Dirent.resize_first, Function.update_self, Dirent.resize, if_pos rfl]
      exact hnew
    · have hg : z.firstCluster ∈ D.firsts v := List.mem_map_of_mem hz
      have hchain := ho.chain _ hg
      rw [Dirent.resize_first, Function.update_of_ne hzx, Dirent.resize, if_neg hzx]
      have hsame : bytes v' (ch z.firstCluster) = bytes v (ch z.firstCluster) := bytes_congr fun c hm => by
        have hne : c ≠ D.fs.rootDirCluster := fun e => hchain.no_root (e ▸ hm)
        have hout : c ∉ ch x.firstCluster := fun hcx => ho.apart hf hg (Ne.symm hzx) hcx hm
        rw [hr.data hne, ht.data c (hchain.fat_ne_zero hm) hout]
      exact ⟨(hb z hz).room, fun i hi => by rw [hsame, (hb z hz).zeros i hi]⟩

variable [KernelAlloc H] {w : World σ H} {path : CString}

def HandleReads (D : Disk σ) (node : Node) (w : World σ H) (b : List UInt8) : Prop :=
  ∀ off len, len < 2 ^ 31 → Wp (exfatRead D.fs node off len) w fun r _ =>
    r = ((((b.drop off).take len).length : ℤ), (b.drop off).take len)

def ReadsAs (D : Disk σ) (path : CString) (w : World σ H) (b : List UInt8) : Prop :=
  Wp (exfatOpen D.fs path) w fun n w' => ∃ node, n = some node ∧ HandleReads D node w' b

theorem handleReads_of_backed {x : Dirent} {l : List ℕ} (ha : AllocOk H) (hs : 0 < D.fs.clusterSize)
    (hc : IsChain D (D.vol w).fat x.firstCluster l) (hon : ∀ c, D.Valid c → D.On c)
    (hb : Backed D (D.vol w) x l) (hfile : x.isDir = false) :
    HandleReads D x.node w ((bytes (D.vol w) l).take x.size) := by
  intro off len hlen
  refine (exfatRead_spec x.node ha hs hc hfile).mono ?_
  rintro r _ rfl
  have hbytes := readFile_eq off len hc (fun c hm => hon c (hc.valid c hm)) hb.room
  have hshort : ((((bytes (D.vol w) l).take x.size).drop off).take len).length < 2 ^ 31 :=
    (List.length_take_le _ _).trans_lt hlen
  rw [show x.node.size = x.size from rfl, hbytes, toInt_eq_iff.mpr hshort]

theorem readsAs_of_handleReads {x : Dirent} {b : List UInt8} (ha : AllocOk H) (hs : 0 < D.fs.clusterSize)
    (hpath : pathIsRoot path = false) (hx : D.lookup (D.vol w) path = some x)
    (h : ∀ w' : World σ H, D.vol w' = D.vol w → HandleReads D x.node w' b) : ReadsAs D path w b := by
  refine (exfatOpen_spec hpath).mono ?_
  rintro n w' ⟨hv, -, hn⟩
  exact ⟨x.node, by rw [hn ha hs, hx, Option.map_some], h w' hv⟩

/-- `exfat_write` through a fresh handle is a write to a byte array: reads through the handle and
through a new one return the new array, and the volume stays sound. -/
theorem exfatWrite_refines_writeAt (D : Disk σ) (ha : AllocOk H) {fuel : ℕ} (hfuel : D.fs.entries ≤ fuel)
    (w : World σ H) (hs : Sound D (D.vol w)) (hpath : pathIsRoot path = false) (off : ℕ) (buf : List UInt8) :
    Wp (exfatOpen D.fs path) w fun n w1 => ∀ node, n = some node → node.isDir = false →
      ∃ old, old.length = node.size ∧ HandleReads D node w1 old ∧
        Wp (exfatWrite fuel D.fs node off buf) w1 fun r w2 => r.1 = buf.length → Sound D (D.vol w2) ∧
          (Wp (exfatStat D.fs path) w2 fun s _ =>
            s = some (if buf = [] then node.size else max node.size (off + buf.length), false)) ∧
          HandleReads D r.2 w2 (writeAt old off buf) ∧ ReadsAs D path w2 (writeAt old off buf) := by
  refine (exfatOpen_spec hpath).mono ?_
  rintro n w1 ⟨hv, hn, -⟩ node rfl hfile
  obtain ⟨x, hx, rfl⟩ := Option.map_eq_some_iff.mp (hn.resolve_left (by simp)).symm
  rw [← hv] at hs hx
  have hmem := Disk.lookup_mem hx
  have hf : x.firstCluster ∈ D.firsts (D.vol w1) := List.mem_map_of_mem hmem
  have hpos := clusterSize_pos_of_first hf
  obtain ⟨ch, ho, hb⟩ := hs.owned
  have hchain := ho.chain _ hf
  have hfill := hchain.filled w1
  have hold := handleReads_of_backed ha hpos hchain hs.on (hb x hmem) hfile
  refine ⟨_, ?_, hold, ?_⟩
  · rw [List.length_take, length_bytes hfill]
    exact Nat.min_eq_left (hb x hmem).room
  by_cases hbuf : buf = []
  · refine (exfatWrite_refused (.inr hbuf)).mono ?_
    rintro r w2 ⟨hr, rfl⟩ -
    rw [if_pos hbuf, writeAt, if_pos hbuf, hr]
    refine ⟨hs, ?_, hold, ?_⟩
    · refine (exfatStat_spec hpath ha hpos).mono ?_
      rintro s w3 ⟨-, hst⟩
      rw [hst, hx, Option.map_some]
      exact congrArg (fun d => some (x.size, d)) hfile
    · refine readsAs_of_handleReads ha hpos hpath hx fun w' hv' => ?_
      rw [← hv'] at hchain ⊢
      exact handleReads_of_backed ha hpos hchain hs.on (hv' ▸ hb x hmem) hfile
  · refine (exfatWrite_spec off hchain hs.root_used hfuel hfile hpos (size_lt hmem) hbuf).mono ?_
    rintro r w2 ⟨-, -, hexact, -⟩ hr
    obtain ⟨hnode, hwrote⟩ := hexact ha hr
    obtain ⟨l', v1, ht, hres, hback, hbytes⟩ :=
      hwrote.contents hs.on hchain hfill (hb x hmem) hbuf hs.root_used hf
    have hsize := max_lt (size_lt hmem) hwrote.fits
    have hfound : D.lookup (D.vol w2) path = some { x with size := max x.size (off + buf.length) } := by
      rw [hwrote.lookup hs.root_used hf (once_of_nodup ho.nodup _) hsize, hx, Option.map_some, Dirent.resize,
        if_pos (show x.firstCluster = x.node.firstCluster from rfl)]
      rfl
    have hchain' : IsChain D (D.vol w2).fat x.firstCluster l' := by
      rw [hres.fat]
      exact ht.chain
    have hreads : ∀ w' : World σ H, D.vol w' = D.vol w2 →
        HandleReads D r.2 w' (writeAt ((bytes (D.vol w1) (ch x.firstCluster)).take x.size) off buf) := by
      intro w' hv'
      rw [hnode, ← hbytes, ← hv']
      exact handleReads_of_backed (x := { x with size := max x.size (off + buf.length) }) ha hpos (hv' ▸ hchain') hs.on
        (hv' ▸ hback) hfile
    refine ⟨hs.write ho hb hmem ht hres hsize hback, ?_, hreads w2 rfl, ?_⟩
    · refine (exfatStat_spec hpath ha hpos).mono ?_
      rintro s w3 ⟨-, hst⟩
      rw [hst, hfound, Option.map_some, if_neg hbuf]
      exact congrArg (fun d => some (_, d)) hfile
    · refine readsAs_of_handleReads ha hpos hpath hfound fun w' hv' => ?_
      have hfresh := hreads w' hv'
      rw [hnode] at hfresh
      exact hfresh

section Ram0

theorem ram0_on (c : ℕ) (h : ram0Volume.Valid c) : ram0Volume.On c := by
  have hlt : c < 131072 := h.2.trans_eq (fallbackFs_entries _)
  have hsectors : ram0Volume.sectors = 132222 := by decide +kernel
  change 1152 + (c - 2) * 1 + 1 ≤ ram0Volume.sectors
  omega

theorem ram0File_sound : Sound ram0Volume (ram0Volume.vol (⟨ram0File, ()⟩ : World Memory Unit)) := by
  refine ⟨ram0_on, ram0File_root (), fun _ => [3], ram0File_owns (), fun x hx => ?_⟩
  rw [ram0File_listed, List.mem_singleton] at hx
  have hzero : bytes (ram0Volume.vol (⟨ram0File, ()⟩ : World Memory Unit)) [3] = List.replicate 512 0 := by
    decide +kernel
  refine ⟨by rw [hx]; exact Nat.zero_le _, fun i _ => ?_⟩
  rw [hzero, byteAt_replicate_zero]

theorem exfatWrite_refines_writeAt_ram0 :
    Wp (exfatOpen ram0Volume.fs pathA) (⟨ram0File, ()⟩ : World Memory Unit) fun n w1 =>
      ∃ node old, n = some node ∧ old.length = node.size ∧ HandleReads ram0Volume node w1 old ∧
        Wp (exfatWrite 131072 ram0Volume.fs node 510 [1, 2, 3]) w1 fun r w2 => r.1 = 3 ∧
          Sound ram0Volume (ram0Volume.vol w2) ∧
          (Wp (exfatStat ram0Volume.fs pathA) w2 fun s _ => s = some (max node.size 513, false)) ∧
          HandleReads ram0Volume r.2 w2 (writeAt old 510 [1, 2, 3]) ∧
          ReadsAs ram0Volume pathA w2 (writeAt old 510 [1, 2, 3]) := by
  have hpath : pathIsRoot pathA = false := by decide
  have hcount : Wp (exfatOpen ram0Volume.fs pathA >>= fun _ => exfatWrite 131072 ram0Volume.fs ⟨3, false, 0⟩ 510 [1, 2, 3])
      (⟨ram0File, ()⟩ : World Memory Unit) fun r _ => decide (r.1 = 3) = true := wp_of_test (by decide +kernel)
  have hwrite :=
    exfatWrite_refines_writeAt ram0Volume allocOk_unit ram0_entries_le _ ram0File_sound hpath 510 [1, 2, 3]
  apply ((exfatOpen_spec hpath).and (hwrite.and (wp_of_bind hcount))).mono
  rintro n w1 ⟨⟨-, -, hn⟩, hwrite, hcount⟩
  have hnode := hn allocOk_unit (by decide)
  rw [ram0File_lookup] at hnode
  obtain ⟨old, hlen, hreads, hafter⟩ := hwrite _ hnode rfl
  refine ⟨_, old, hnode, hlen, hreads, (hafter.and hcount).mono ?_⟩
  rintro r w2 ⟨hafter, hr⟩
  have hthree : r.1 = 3 := of_decide_eq_true hr
  exact ⟨hthree, hafter hthree⟩

theorem empty_write_keeps_size : Sound ram0Volume (ram0Volume.vol (⟨ram0File, ()⟩ : World Memory Unit)) ∧
    Wp (exfatOpen ram0Volume.fs pathA) (⟨ram0File, ()⟩ : World Memory Unit) fun n w1 =>
      ∃ node, n = some node ∧ Wp (exfatWrite 131072 ram0Volume.fs node 1 []) w1 fun r w2 => r.1 = 0 ∧
        Wp (exfatStat ram0Volume.fs pathA) w2 fun s _ => s ≠ some (max node.size (1 + 0), false) := by
  have hpath : pathIsRoot pathA = false := by decide
  refine ⟨ram0File_sound, (exfatOpen_spec hpath).mono ?_⟩
  rintro n w1 ⟨hv, -, hn⟩
  have hnode := hn allocOk_unit (by decide)
  rw [ram0File_lookup] at hnode
  refine ⟨_, hnode, ⟨(0, ⟨3, false, 0⟩), w1, rfl, rfl, ?_⟩⟩
  refine (exfatStat_spec hpath allocOk_unit (by decide)).mono ?_
  rintro s w2 ⟨-, rfl⟩
  rw [hv, ram0File_lookup]
  decide

end Ram0

end DexOs.Exfat
