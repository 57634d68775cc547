import DexOs.ExfatOwnership

/-! What removing a file does to the other files. Removal leaves an end mark in the directory. -/

namespace DexOs.Exfat

open DexOs.Lib

variable {σ H : Type} {D : Disk σ} {v v' : Vol} {names : List (List UInt8)}

structure Plain (name : List UInt8) : Prop where
  pos : 0 < name.length
  le : name.length ≤ 63
  ascii : ∀ c ∈ name, c < 128

structure Catalog (D : Disk σ) (names : List (List UInt8)) (v : Vol) : Prop where
  wellFormed : WellFormed D v
  names : (D.listed v).map Dirent.name = names
  files : ∀ x ∈ D.listed v, x.isDir = false
  regular : Regular (D.dir v)

theorem Catalog.congr (hc : Catalog D names v) (hdir : D.dir v' = D.dir v) (hw : WellFormed D v') :
    Catalog D names v' := by
  refine ⟨hw, ?_, ?_, ?_⟩
  · rw [Disk.listed, hdir]
    exact hc.names
  · rw [Disk.listed, hdir]
    exact hc.files
  · rw [hdir]
    exact hc.regular

theorem Created.catalog {name : List UInt8} {cl : ℕ} (h : Created D v v' name cl) (h0 : 0 ∉ name) (hp : Plain name)
    (hlen : (D.dir v).length = D.fs.clusterSize) (hc : Catalog D names v) : Catalog D (names ++ [name]) v' := by
  have hlist := h.listed h0 hlen
  refine ⟨h.wellFormed h0 hlen hc.wellFormed, ?_, fun x hx => ?_, ?_⟩
  · rw [hlist, List.map_append, hc.names, storedName_eq hp.le hp.ascii]
    rfl
  · rw [hlist, List.mem_append, List.mem_singleton] at hx
    rcases hx with hx | rfl
    · exact hc.files x hx
    · rfl
  · obtain ⟨hfit, v1, -, rfl⟩ := h
    rw [Disk.dir_setData]
    exact hc.regular.appendSet (hlen ▸ hfit) h0

theorem Resized.catalog {f size : ℕ} (h : Resized D v v' f size) (hs : size < 2 ^ 64) (hc : Catalog D names v) :
    Catalog D names v' := by
  obtain ⟨ch, ho⟩ := hc.wellFormed.owned
  have hlist := h.listed hs ho.nodup
  refine ⟨h.wellFormed hs hc.wellFormed, ?_, fun x hx => ?_, ?_⟩
  · rw [hlist, List.map_map, ← hc.names]
    exact List.map_congr_left fun x _ => Dirent.resize_name f size x
  · rw [hlist] at hx
    obtain ⟨y, hy, rfl⟩ := List.mem_map.mp hx
    rw [Dirent.resize_isDir]
    exact hc.files y hy
  · obtain ⟨k, hk, -, rfl⟩ := h
    rw [Disk.dir_setData]
    exact hc.regular.setSize hk.2

section Build

/-- Device states that creations of files with distinct plain names and writes to these files lead to,
on a volume whose root directory is empty and has its cluster; with the names in their order and the
open handles. Every call runs on a kernel heap of its own. -/
inductive Built (D : Disk σ) (fuel : ℕ) : List (List UInt8) → List Node → σ → Prop
  | empty (s : σ) (hroot : (D.volOf (D.view s)).fat D.fs.rootDirCluster ≠ 0)
      (hfree : slotType (D.dir (D.volOf (D.view s))) 0 = 0) : Built D fuel [] [] s
  | create {H : Type} [KernelAlloc H] {names : List (List UInt8)} {hs : List Node} {s : σ} {path : CString} {h : H}
      {r : ℤ} {w' : World σ H} (hb : Built D fuel names hs s) (hp : Plain (fileName path))
      (hnew : fileName path ∉ names) (hrun : exfatCreate D.fs path ⟨s, h⟩ = .ok (r, w')) :
      Built D fuel (if r = 0 then names ++ [fileName path] else names) hs w'.dev
  | openFile {H : Type} [KernelAlloc H] {names : List (List UInt8)} {hs : List Node} {s : σ} {path : CString} {h : H}
      {node : Node} {w' : World σ H} (hb : Built D fuel names hs s) (hname : fileName path ∈ names)
      (hrun : exfatOpen D.fs path ⟨s, h⟩ = .ok (some node, w')) : Built D fuel names (node :: hs) w'.dev
  | write {H : Type} [KernelAlloc H] {names : List (List UInt8)} {hs : List Node} {s : σ} {h : H} {node : Node}
      {off : ℕ} {buf : List UInt8} {r : ℤ × Node} {w' : World σ H} (hb : Built D fuel names hs s) (hn : node ∈ hs)
      (hrun : exfatWrite fuel D.fs node off buf ⟨s, h⟩ = .ok (r, w')) : Built D fuel names (r.2 :: hs) w'.dev

def Node.Listed (D : Disk σ) (v : Vol) (node : Node) : Prop :=
  node.firstCluster ∈ D.firsts v ∧ node.size < 2 ^ 64

structure BuiltState (D : Disk σ) (names : List (List UInt8)) (hs : List Node) (v : Vol) : Prop where
  nodup : names.Nodup
  plain : ∀ n ∈ names, Plain n
  catalog : Catalog D names v
  handles : ∀ node ∈ hs, node.Listed D v

variable [KernelAlloc H] {w : World σ H}

theorem exfatCreate_catalog {hs : List Node} {path : CString} (hb : BuiltState D names hs (D.vol w))
    (hp : Plain (fileName path)) (hnew : fileName path ∉ names) : Wp (exfatCreate D.fs path) w fun r w' =>
      BuiltState D (if r = 0 then names ++ [fileName path] else names) hs (D.vol w') := by
  refine exfatCreate_spec.mono ?_
  rintro r w' (⟨rfl, hk, -⟩ | ⟨rfl, -, cl, hc⟩)
  · have hdir := hk.dir (D := D) hb.catalog.wellFormed.root_used
    refine ⟨hb.nodup, hb.plain, hb.catalog.congr hdir (hk.wellFormed hb.catalog.wellFormed), fun node hn => ?_⟩
    rw [Node.Listed, Disk.firsts, Disk.listed, hdir]
    exact hb.handles node hn
  · have h0 := fileName_no_zero path
    have hlen := D.dir_length w
    rw [if_pos rfl]
    refine ⟨?_, fun n hn => ?_, hc.catalog h0 hp hlen hb.catalog, fun node hn => ?_⟩
    · exact List.nodup_append.mpr ⟨hb.nodup, List.nodup_singleton _, fun a ha b hb e => hnew
        (List.mem_singleton.mp hb ▸ e ▸ ha)⟩
    · rcases List.mem_append.mp hn with hn | hn
      · exact hb.plain n hn
      · rw [List.mem_singleton.mp hn]
        exact hp
    · rw [Node.Listed, Disk.firsts, hc.listed h0 hlen, List.map_append]
      exact ⟨List.mem_append_left _ (hb.handles node hn).1, (hb.handles node hn).2⟩

theorem exfatOpen_catalog {hs : List Node} {path : CString} (hb : BuiltState D names hs (D.vol w))
    (hname : fileName path ∈ names) : Wp (exfatOpen D.fs path) w fun r w' =>
      ∀ node, r = some node → BuiltState D names (node :: hs) (D.vol w') := by
  have hpath := pathIsRoot_of_name (List.length_pos_iff.mp (hb.plain _ hname).pos)
  refine (exfatOpen_spec hpath).mono ?_
  rintro r w' ⟨hv, hr, -⟩ node rfl
  obtain ⟨x, hx, rfl⟩ := Option.map_eq_some_iff.mp (hr.resolve_left (by simp)).symm
  have hmem := Disk.lookup_mem hx
  rw [hv]
  refine ⟨hb.nodup, hb.plain, hb.catalog, fun n hn => ?_⟩
  rcases List.mem_cons.mp hn with rfl | hn
  · exact ⟨List.mem_map_of_mem hmem, size_lt hmem⟩
  · exact hb.handles n hn

theorem exfatWrite_catalog {fuel off : ℕ} {hs : List Node} {node : Node} {buf : List UInt8}
    (hfuel : D.fs.entries ≤ fuel) (hb : BuiltState D names hs (D.vol w)) (hn : node ∈ hs) :
    Wp (exfatWrite fuel D.fs node off buf) w fun r w' => BuiltState D names (r.2 :: hs) (D.vol w') := by
  obtain ⟨hf, hsize⟩ := hb.handles node hn
  by_cases hrefuse : node.isDir = true ∨ buf = []
  · refine (exfatWrite_refused hrefuse).mono ?_
    rintro r w ⟨hr, rfl⟩
    refine ⟨hb.nodup, hb.plain, hb.catalog, fun n hmem => ?_⟩
    rcases List.mem_cons.mp hmem with rfl | hmem
    · rw [hr]
      exact ⟨hf, hsize⟩
    · exact hb.handles n hmem
  obtain ⟨hfile, hbuf⟩ := not_or.mp hrefuse
  have hw := hb.catalog.wellFormed
  obtain ⟨ch, ho⟩ := hw.owned
  refine (exfatWrite_spec off (ho.chain _ hf) hw.root_used hfuel (by simpa using hfile) (clusterSize_pos_of_first hf)
    hsize hbuf).mono ?_
  rintro r w' ⟨⟨hfirst, hrsize⟩, ⟨l', v1, ht, hv⟩, -⟩
  have hcat : Catalog D names v1 := hb.catalog.congr (ht.dir hw.root_used) (ht.wellFormed hw ho hf)
  have hfirsts := ht.firsts hw.root_used
  have hdone : Catalog D names (D.vol w') ∧ D.firsts (D.vol w') = D.firsts (D.vol w) := by
    rcases hv with hv | ⟨size, hs, hres⟩
    · exact ⟨hv ▸ hcat, hv ▸ hfirsts⟩
    · exact ⟨hres.catalog hs hcat, (hres.firsts hs (hfirsts ▸ ho.nodup)).trans hfirsts⟩
  refine ⟨hb.nodup, hb.plain, hdone.1, fun n hmem => ?_⟩
  rw [Node.Listed, hdone.2]
  rcases List.mem_cons.mp hmem with rfl | hmem
  · exact ⟨hfirst ▸ hf, hrsize⟩
  · exact hb.handles n hmem

omit [KernelAlloc H] in
theorem Built.state {fuel : ℕ} (hfuel : D.fs.entries ≤ fuel) {hs : List Node} {s : σ} (hb : Built D fuel names hs s) :
    BuiltState D names hs (D.volOf (D.view s)) := by
  induction hb with
  | empty s hroot hfree =>
    have hnil : D.listed (D.volOf (D.view s)) = [] := dirEntries_of_free hfree
    refine ⟨List.nodup_nil, by simp, ⟨wellFormed_of_empty hroot hfree, ?_, ?_, regular_of_free hfree⟩, by simp⟩
    · rw [hnil, List.map_nil]
    · simp [hnil]
  | create hb hp hnew hrun ih => exact (exfatCreate_catalog ih hp hnew).post hrun
  | openFile hb hname hrun ih => exact (exfatOpen_catalog ih hname).post hrun _ rfl
  | write hb hn hrun ih => exact (exfatWrite_catalog hfuel ih hn).post hrun

end Build

section Unlink

variable {a b : CString}

theorem lookup_eq_none (h : fileName a ∉ (D.listed v).map Dirent.name) : D.lookup v a = none := by
  rw [Disk.lookup, List.find?_eq_none]
  intro x hx hname
  exact h (List.mem_map.mpr ⟨x, List.mem_of_mem_take hx, of_decide_eq_true hname⟩)

theorem lookup_isSome_iff : (D.lookup v b).isSome ↔ fileName b ∈ ((D.listed v).map Dirent.name).take 32 := by
  rw [Disk.lookup, List.find?_isSome, ← List.map_take, List.mem_map]
  simp

theorem lookup_append {rest : List Dirent} {y : Dirent} (hlist : D.listed v = D.listed v' ++ rest)
    (h : D.lookup v' b = some y) : D.lookup v b = some y := by
  rw [Disk.lookup] at h
  rw [Disk.lookup, hlist, List.take_append, List.find?_append, h, Option.some_or]

variable [KernelAlloc H] {w : World σ H}

/-- If the removal of `a` returns 0, then `a` cannot be opened any more, and `b` can, with the same
handle and the same bytes as before. -/
def UnlinkSpares (D : Disk σ) (fuel : ℕ) (a b : CString) (w : World σ H) : Prop :=
  Wp (exfatUnlink fuel D.fs a) w fun r w' => r = 0 →
    (Wp (exfatOpen D.fs a) w' fun n _ => n = none) ∧
    ∃ node, (Wp (exfatOpen D.fs b) w fun n _ => n = some node) ∧
      (Wp (exfatOpen D.fs b) w' fun n _ => n = some node) ∧
      ∀ off len, ∃ out, (Wp (exfatRead D.fs node off len) w fun r _ => r = out) ∧
        Wp (exfatRead D.fs node off len) w' fun r _ => r = out

theorem Catalog.exists_isFile (hc : Catalog D names v) {name : List UInt8} (hname : name ∈ names) :
    ∃ k, IsFile (D.dir v) k ∧ (unlinkName (D.dir v) k).1 = name := by
  rw [← hc.names] at hname
  obtain ⟨x, hx, rfl⟩ := List.mem_map.mp hname
  rw [Disk.listed, dirEntries_eq_map] at hx
  obtain ⟨k, hk, rfl⟩ := List.mem_map.mp hx
  obtain ⟨hs, hn⟩ := hc.regular k hk
  exact ⟨k, ⟨hk, hs⟩, hn⟩

theorem Unlinked.reads {w' : World σ H} {ch : ℕ → List ℕ} {name : List UInt8} {y : Dirent} (ha : AllocOk H)
    (hu : Unlinked D (D.vol w) (D.vol w') ch name) (ho : Owns D (D.vol w).fat (D.firsts (D.vol w)) ch)
    (hy : y ∈ D.listed (D.vol w')) (hfile : y.isDir = false) (off len : ℕ) :
    ∃ out, (Wp (exfatRead D.fs y.node off len) w fun r _ => r = out) ∧
      Wp (exfatRead D.fs y.node off len) w' fun r _ => r = out := by
  obtain ⟨x, rest, hlist, -, -, hdata⟩ := hu.listed
  have hf' : y.firstCluster ∈ D.firsts (D.vol w') := List.mem_map_of_mem hy
  have hf : y.firstCluster ∈ D.firsts (D.vol w) := by
    rw [Disk.firsts, hlist, List.map_append]
    exact List.mem_append_left _ hf'
  have hpos := clusterSize_pos_of_first hf
  have hc := ho.chain _ hf
  have hc' := (hu.owns ho).1.chain _ hf'
  have hsame := readFile_congr (D := D) (fun c hm => hdata c fun e => hc.no_root (e ▸ hm)) y.size off len
  refine ⟨_, exfatRead_spec y.node ha hpos hc hfile, ?_⟩
  refine (exfatRead_spec y.node ha hpos hc' hfile).mono ?_
  rintro r w'' rfl
  rw [show y.node.size = y.size from rfl, hsame]

theorem unlinkSpares_iff_of_state {fuel : ℕ} {hs : List Node} (ha : AllocOk H) (hfuel : D.fs.entries ≤ fuel)
    (hbuilt : BuiltState D names hs (D.vol w)) (hna : fileName a ∈ names) (hnb : fileName b ∈ names) :
    UnlinkSpares D fuel a b w ↔
      names.idxOf (fileName b) < names.idxOf (fileName a) ∧ names.idxOf (fileName b) < 32 := by
  have hcat := hbuilt.catalog
  obtain ⟨ch, ho⟩ := hcat.wellFormed.owned
  have hnamea := List.length_pos_iff.mp (hbuilt.plain _ hna).pos
  have hpatha := pathIsRoot_of_name hnamea
  have hpathb := pathIsRoot_of_name (List.length_pos_iff.mp (hbuilt.plain _ hnb).pos)
  obtain ⟨k, hk, hkname⟩ := hcat.exists_isFile hna
  have hpos := clusterSize_pos_of_first (w := w) hk.first_mem
  obtain ⟨r, w', hrun, hspec⟩ := exfatUnlink_spec a ho hfuel
  rcases hspec with ⟨-, -, hnone⟩ | ⟨rfl, hu⟩
  · exact absurd hkname (hnone ha hpos hnamea k hk)
  obtain ⟨x, rest, hlist, hx, -, -⟩ := hu.listed
  replace hx := hx hcat.regular
  have hnames : names = (D.listed (D.vol w')).map Dirent.name ++ fileName a :: rest.map Dirent.name := by
    rw [← hcat.names, hlist, List.map_append, List.map_cons, hx]
  have hout : fileName a ∉ (D.listed (D.vol w')).map Dirent.name := fun hm => by
    have hnodup := hbuilt.nodup
    rw [hnames, List.nodup_append] at hnodup
    exact hnodup.2.2 _ hm _ List.mem_cons_self rfl
  have hidx : names.idxOf (fileName a) = (D.listed (D.vol w')).length := by
    rw [hnames, List.idxOf_append_of_notMem hout, List.idxOf_cons_self, List.length_map, Nat.add_zero]
  have hfound : (D.lookup (D.vol w') b).isSome ↔
      names.idxOf (fileName b) < names.idxOf (fileName a) ∧ names.idxOf (fileName b) < 32 := by
    have hbefore : names.take (D.listed (D.vol w')).length = (D.listed (D.vol w')).map Dirent.name := by
      conv_lhs => rw [hnames]
      exact List.take_left' (List.length_map _)
    rw [lookup_isSome_iff, ← hbefore, ← hidx, List.take_take, List.mem_take_iff_idxOf_lt hnb]
    omega
  rw [← hfound]
  constructor
  · intro hspares
    obtain ⟨-, node, -, hopen, -⟩ := hspares.post hrun rfl
    obtain ⟨n, w'', hrun', rfl⟩ := hopen
    obtain ⟨-, hn, -⟩ := (exfatOpen_spec hpathb).post hrun'
    obtain ⟨y, hy, -⟩ := Option.map_eq_some_iff.mp (hn.resolve_left (by simp)).symm
    rw [hy]
    rfl
  · intro hsome
    obtain ⟨y, hy⟩ := Option.isSome_iff_exists.mp hsome
    have hmem := Disk.lookup_mem hy
    have hfile : y.isDir = false := hcat.files y (hlist ▸ List.mem_append_left _ hmem)
    refine ⟨0, w', hrun, fun _ => ⟨?_, y.node, ?_, ?_, hu.reads ha ho hmem hfile⟩⟩
    · refine (exfatOpen_spec hpatha).mono ?_
      rintro n w'' ⟨-, hn, -⟩
      rw [lookup_eq_none hout, Option.map_none, or_self] at hn
      exact hn
    · refine (exfatOpen_spec hpathb).mono ?_
      rintro n w'' ⟨-, -, hn⟩
      rw [hn ha hpos, lookup_append hlist hy, Option.map_some]
    · refine (exfatOpen_spec hpathb).mono ?_
      rintro n w'' ⟨-, -, hn⟩
      rw [hn ha hpos, hy, Option.map_some]

/-- The other file survives exactly when it was created before the removed one and is among the first
32 files. -/
theorem unlinkSpares_iff {fuel : ℕ} {hs : List Node} (ha : AllocOk H) (hfuel : D.fs.entries ≤ fuel)
    (hb : Built D fuel names hs w.dev) (hna : fileName a ∈ names) (hnb : fileName b ∈ names) :
    UnlinkSpares D fuel a b w ↔
      names.idxOf (fileName b) < names.idxOf (fileName a) ∧ names.idxOf (fileName b) < 32 :=
  unlinkSpares_iff_of_state ha hfuel (hb.state hfuel) hna hnb

end Unlink

section Ram0

def pathB : CString := ⟨[47, 98], by decide⟩

def ram0Create (path : CString) (m : Memory) : Memory :=
  match exfatCreate ram0Volume.fs path (⟨m, ()⟩ : World Memory Unit) with
  | .ok (_, w') => w'.dev
  | .error _ => m

theorem built_ram0Create (path : CString) {hs : List Node} {m : Memory} (hb : Built ram0Volume 131072 names hs m)
    (hp : Plain (fileName path)) (hnew : fileName path ∉ names)
    (h : test (exfatCreate ram0Volume.fs path) (⟨m, ()⟩ : World Memory Unit) (fun r _ => r = 0) = true) :
    Built ram0Volume 131072 (names ++ [fileName path]) hs (ram0Create path m) := by
  obtain ⟨r, w', hrun, hr⟩ := wp_of_test h
  have hbuilt := hb.create hp hnew hrun
  rw [if_pos (of_decide_eq_true hr)] at hbuilt
  rw [ram0Create, hrun]
  exact hbuilt

def ram0Two : Memory := ram0Create pathB (ram0Create pathA ram0Memory)

theorem ram0Two_built : Built ram0Volume 131072 [[97], [98]] [] ram0Two := by
  have hempty : Built ram0Volume 131072 [] [] ram0Memory := .empty _ (by decide +kernel) (by decide +kernel)
  have hfirst := built_ram0Create pathA hempty ⟨by decide, by decide, by decide +kernel⟩ List.not_mem_nil
    (by decide +kernel)
  have hnew : fileName pathB ∉ [fileName pathA] := by decide +kernel
  exact built_ram0Create pathB hfirst ⟨by decide, by decide, by decide +kernel⟩ hnew (by decide +kernel)

theorem unlinkSpares_iff_ram0 : UnlinkSpares ram0Volume 131072 pathB pathA (⟨ram0Two, ()⟩ : World Memory Unit) := by
  have hspares : ∀ m, Built ram0Volume 131072 [[97], [98]] [] m →
      UnlinkSpares ram0Volume 131072 pathB pathA (⟨m, ()⟩ : World Memory Unit) := fun m hb =>
    (unlinkSpares_iff allocOk_unit ram0_entries_le hb (by decide) (by decide)).mpr (by decide)
  exact hspares ram0Two ram0Two_built

/-- The file `b` does not survive the removal of the earlier file `a`. -/
theorem unlink_hides_later_file : Built ram0Volume 131072 [[97], [98]] [] ram0Two ∧
    ¬ UnlinkSpares ram0Volume 131072 pathA pathB (⟨ram0Two, ()⟩ : World Memory Unit) := by
  have hhides : ∀ m, Built ram0Volume 131072 [[97], [98]] [] m →
      ¬ UnlinkSpares ram0Volume 131072 pathA pathB (⟨m, ()⟩ : World Memory Unit) := by
    intro m hb hspares
    have hstate := hb.state ram0_entries_le
    exact absurd ((unlinkSpares_iff_of_state allocOk_unit ram0_entries_le hstate (by decide) (by decide)).mp hspares)
      (by decide)
  exact ⟨ram0Two_built, hhides ram0Two ram0Two_built⟩

end Ram0

end DexOs.Exfat
