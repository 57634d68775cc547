import DexOs.ExfatCreate
import DexOs.ExfatFill
import DexOs.ExfatUnlink
import DexOs.FileStore
import DexOs.ExfatSlots
import DexOs.GrantedRuns
import DexOs.KernelHeapLedger

/-! The driver keeps a store: what a volume holds in bytes, names and free clusters, and what every request
makes of it. -/

namespace DexOs.Exfat

open DexOs.Lib

variable {σ H : Type} {D : Disk σ} {v v' : Vol} {s : FileStore} {ch ch' : ℕ → List ℕ} {x : Dirent} {f : StoredFile}

structure Represents (D : Disk σ) (v : Vol) (ch : ℕ → List ℕ) (x : Dirent) (f : StoredFile) : Prop where
  name : x.name = f.name
  isFile : x.isDir = false
  size : x.size = f.bytes.length
  backed : Backed D v x (ch x.firstCluster)
  bytes : (bytes v (ch x.firstCluster)).take x.size = f.bytes
  clusters : (ch x.firstCluster).length = f.clusters

/-- The directory lists the stored files in their order, the chains hold their bytes, and what is not
counted as free is marked in the FAT. -/
structure Holds (D : Disk σ) (v : Vol) (s : FileStore) : Prop where
  size : s.clusterSize = D.fs.clusterSize
  on : ∀ c, D.Valid c → D.On c
  root_used : v.fat D.fs.rootDirCluster ≠ 0
  regular : Regular (D.dir v)
  packed : Packed (D.dir v) (s.files.map StoredFile.slots)
  free : (D.free v).length = s.free
  files : ∃ ch, Owns D v.fat (D.firsts v) ch ∧ List.Forall₂ (Represents D v ch) (D.listed v) s.files

theorem holds_empty (hon : ∀ c, D.Valid c → D.On c) (hroot : v.fat D.fs.rootDirCluster ≠ 0)
    (hfree : slotType (D.dir v) 0 = 0) : Holds D v ⟨D.fs.clusterSize, [], (D.free v).length⟩ := by
  have hnil : D.listed v = [] := dirEntries_of_free hfree
  refine ⟨rfl, hon, hroot, regular_of_free hfree, Packed.of_free hfree, rfl, fun _ => [], ?_, ?_⟩
  · constructor <;> simp [Disk.firsts, hnil]
  · rw [hnil]
    exact .nil

theorem Represents.frame (h : Represents D v ch x f) (hch : ch' x.firstCluster = ch x.firstCluster)
    (hdata : ∀ c ∈ ch x.firstCluster, v'.data c = v.data c) : Represents D v' ch' x f := by
  have hbytes : Exfat.bytes v' (ch x.firstCluster) = Exfat.bytes v (ch x.firstCluster) := bytes_congr hdata
  refine ⟨h.name, h.isFile, h.size, ?_, ?_, ?_⟩
  · rw [hch]
    refine ⟨h.backed.room, ?_⟩
    rw [hbytes]
    exact h.backed.zeros
  · rw [hch, hbytes]
    exact h.bytes
  · rw [hch]
    exact h.clusters

section Search

theorem lookup_cases {path : CString} (hfiles : List.Forall₂ (Represents D v ch) (D.listed v) s.files) :
    (s.find (fileName path) = none ∧ D.lookup v path = none) ∨
      ∃ i f x, s.find (fileName path) = some i ∧ s.files[i]? = some f ∧ (D.listed v)[i]? = some x ∧
        D.lookup v path = some x ∧ Represents D v ch x f := by
  have htake := List.forall₂_take 32 hfiles
  have hfind : ((D.listed v).take 32).findIdx? (·.name = fileName path) = s.find (fileName path) :=
    findIdx?_of_forall₂ htake fun a b hab => by rw [hab.name]
  cases hi : s.find (fileName path) with
  | none =>
    refine .inl ⟨rfl, ?_⟩
    rw [hi] at hfind
    rw [Disk.lookup, List.find?_eq_none]
    intro y hy
    have hmiss := List.findIdx?_eq_none_iff.mp hfind y hy
    simpa using hmiss
  | some i =>
    rw [hi] at hfind
    have hlt := lt_of_findIdx? hfind
    rw [List.length_take] at hlt
    have hf : s.files[i]? = some (s.files.get ⟨i, by rw [← hfiles.length_eq]; omega⟩) := List.getElem?_eq_getElem _
    obtain ⟨x, hx, hrep⟩ := exists_of_forall₂ hfiles hf
    refine .inr ⟨i, _, x, rfl, hf, hx, ?_, hrep⟩
    rw [Disk.lookup, find?_of_findIdx? hfind, List.getElem?_take_of_lt (by omega), hx]

theorem onFile_none {path : CString} {op : ℕ → StoredFile → Reply × FileStore} (h : s.find (fileName path) = none) :
    s.onFile path op = (.file none, s) := by rw [FileStore.onFile, h]

theorem onFile_some {path : CString} {op : ℕ → StoredFile → Reply × FileStore} {i : ℕ}
    (h : s.find (fileName path) = some i) (hf : s.files[i]? = some f) : s.onFile path op = op i f := by
  rw [FileStore.onFile, h]
  dsimp only
  rw [hf]

end Search

variable [KernelAlloc H] {w : World σ H} {path : CString}

section Create

omit [KernelAlloc H] in
theorem Took.free_length {cl : ℕ} (hcl : D.Valid cl) (hz : v.fat cl = 0)
    (hfat : v'.fat = Function.update v.fat cl eoc) : (D.free v').length = (D.free v).length - 1 := by
  have hmem : cl ∈ D.free v := Disk.mem_free.mpr ⟨hcl, hz⟩
  have herase : D.free v' = (D.free v).erase cl := by
    rw [(D.free_nodup v).erase_eq_filter, Disk.free, Disk.free, List.filter_filter, hfat]
    apply List.filter_congr
    intro c _
    by_cases hc : c = cl
    · subst hc
      rw [Function.update_self]
      simp
      decide
    · rw [Function.update_of_ne hc]
      simp [hc]
  rw [herase, List.length_erase_of_mem hmem]

omit [KernelAlloc H] in
theorem Created.holds {name : List UInt8} {cl : ℕ} (h : Created D v v' name cl) (h0 : 0 ∉ name)
    (hlen : (D.dir v).length = D.fs.clusterSize) (hfat : v'.fat = Function.update v.fat cl eoc) (hs : Holds D v s) :
    Holds D v' { s with files := s.files ++ [⟨storedName name, 2 + nameEntries name, [], 1⟩], free := s.free - 1 } := by
  obtain ⟨ch, ho, hfiles⟩ := hs.files
  have hlist := h.listed h0 hlen
  obtain ⟨hfit, v1, ht, hv'⟩ := h
  have hroot1 := ht.fat _ hs.root_used
  have hne : cl ≠ D.fs.rootDirCluster := fun e => hs.root_used (e ▸ ht.free)
  have hfat1 : v'.fat = v1.fat := by rw [hv']; rfl
  have hdata : ∀ c, c ≠ D.fs.rootDirCluster → v'.data c = v1.data c := by
    intro c hc
    rw [hv']
    exact Function.update_of_ne hc _ _
  have hdir : D.dir v' = appendSet (D.dir v) (endSlot (D.dir v)) name cl := by rw [hv', Disk.dir_setData]
  refine ⟨hs.size, hs.on, ?_, ?_, ?_, ?_, Function.update ch cl [cl], ?_, ?_⟩
  · rw [hfat1, hroot1]
    exact hs.root_used
  · rw [hdir]
    exact hs.regular.appendSet (hlen ▸ hfit) h0
  · rw [hdir, List.map_append]
    exact hs.packed.appendSet (hlen ▸ hfit)
  · rw [Took.free_length ht.valid ht.free hfat, hs.free]
  · rw [Disk.firsts, hlist, List.map_append, hfat1]
    exact ht.owns ho hs.root_used
  · rw [hlist]
    apply List.rel_append
    · apply forall₂_imp_mem hfiles
      intro x hx f hrep
      have hchain := ho.chain _ (List.mem_map_of_mem hx)
      apply hrep.frame
      · apply Function.update_of_ne
        rintro rfl
        exact hchain.fat_ne_zero hchain.first_mem ht.free
      · intro c hc
        rw [hdata c fun e => hchain.no_root (e ▸ hc), ht.data c (hchain.fat_ne_zero hc)]
    · refine .cons ?_ .nil
      have hzero : bytes v' [cl] = List.replicate D.fs.clusterSize 0 := by
        rw [bytes, List.flatMap_singleton, hdata cl hne, ht.zeroed (hs.on cl ht.valid)]
      have hself : Function.update ch cl [cl] cl = [cl] := Function.update_self ..
      refine ⟨rfl, rfl, rfl, ⟨Nat.zero_le _, ?_⟩, List.take_zero, by rw [hself]; rfl⟩
      intro i _
      rw [hself, hzero, byteAt_replicate_zero]

theorem exfatCreate_holds (ha : AllocOk H) (hs : Holds D (D.vol w) s) (hpos : 0 < D.fs.clusterSize) :
    Wp (exfatCreate D.fs path) w fun r w' =>
      (s.create (fileName path)).1 = .code r ∧ Holds D (D.vol w') (s.create (fileName path)).2 := by
  have hslots : s.slots = endSlot (D.dir (D.vol w)) := hs.packed.last.symm
  have hfit : EntryFits D (D.vol w) (fileName path) ↔
      ¬ s.clusterSize < 32 * (s.slots + (2 + nameEntries (fileName path))) := by
    rw [EntryFits, hslots, hs.size, Nat.not_lt]
  have hnone : D.free (D.vol w) = [] ↔ s.free = 0 := by rw [← hs.free, List.length_eq_zero_iff]
  have hrefuse : Refuses D path w ↔ fileName path = [] ∨
      s.clusterSize < 32 * (s.slots + (2 + nameEntries (fileName path))) ∨ s.free = 0 := by
    have hbuf := ha w.heap _ hpos
    rw [Refuses, hfit, hnone, not_not]
    tauto
  apply (exfatCreate_exact.and exfatCreate_spec).mono
  rintro r w' ⟨hexact, hspec⟩
  rw [FileStore.create]
  rcases hexact with ⟨hno, rfl, hv⟩ | ⟨hyes, rfl, hmark⟩ | ⟨hyes, rfl, cl, -, hcreated, hfat⟩
  · rw [if_pos (hrefuse.mp hno), hv]
    exact ⟨rfl, hs⟩
  · -- with a buffer for every cluster, a free cluster is taken
    exfalso
    rcases hspec with ⟨-, -, hfull⟩ | ⟨hr, -⟩
    · rw [Refuses, not_or, not_or, not_or, not_not] at hyes
      obtain ⟨hname, -, hfits, hfree⟩ := hyes
      obtain ⟨c, hc⟩ := List.exists_mem_of_ne_nil _ hfree
      obtain ⟨hvalid, hzero⟩ := Disk.mem_free.mp hc
      exact hfull ha hname hfits c hvalid hzero
    · cases hr
  · rw [if_neg fun h => hyes (hrefuse.mpr h)]
    exact ⟨rfl, hcreated.holds (fileName_no_zero path) (D.dir_length w) hfat hs⟩

end Create

section Put

omit [KernelAlloc H] in
theorem Holds.firsts_nodup (hs : Holds D v s) : (D.firsts v).Nodup := by
  obtain ⟨ch, ho, -⟩ := hs.files
  exact ho.nodup

omit [KernelAlloc H] in
theorem Holds.replace {i : ℕ} {f' : StoredFile} {l' : List ℕ} (hs : Holds D v s)
    (ho : Owns D v.fat (D.firsts v) ch) (hfiles : List.Forall₂ (Represents D v ch) (D.listed v) s.files)
    (hx : (D.listed v)[i]? = some x) (hf : s.files[i]? = some f) (hslots : f'.slots = f.slots)
    (hroot : v'.fat D.fs.rootDirCluster ≠ 0)
    (hlist : D.listed v' = (D.listed v).map (Dirent.resize x.firstCluster f'.bytes.length))
    (hregular : Regular (D.dir v')) (hpacked : Packed (D.dir v') (s.files.map StoredFile.slots))
    (howns : Owns D v'.fat (D.firsts v) (Function.update ch x.firstCluster l'))
    (hdata : ∀ c, v.fat c ≠ 0 → c ∉ ch x.firstCluster → c ≠ D.fs.rootDirCluster → v'.data c = v.data c)
    (hnew : Represents D v' (Function.update ch x.firstCluster l') { x with size := f'.bytes.length } f') :
    Holds D v' { s with files := s.files.set i f', free := (D.free v').length } := by
  have hfirsts : D.firsts v' = D.firsts v := by
    rw [Disk.firsts, hlist, List.map_map, Disk.firsts]
    exact List.map_congr_left fun y _ => Dirent.resize_first _ _ y
  refine ⟨hs.size, hs.on, hroot, hregular, ?_, rfl, Function.update ch x.firstCluster l', hfirsts ▸ howns, ?_⟩
  · obtain ⟨hi, rfl⟩ := List.getElem?_eq_some_iff.mp hf
    have hsame : (s.files.set i f').map StoredFile.slots = s.files.map StoredFile.slots := by
      have hi' : i < (s.files.map StoredFile.slots).length := by simpa using hi
      rw [List.map_set, hslots, ← List.getElem_map (h := hi'), List.set_getElem_self]
    rw [hsame]
    exact hpacked
  · apply forall₂_set hfiles (by rw [hlist, List.length_map])
    · intro a ha
      rw [hx] at ha
      obtain rfl := Option.some.inj ha
      refine ⟨{ x with size := f'.bytes.length }, ?_, hnew⟩
      rw [hlist, List.getElem?_map, hx, Option.map_some, Dirent.resize, if_pos rfl]
    · intro j a c hji ha hrep
      have hne : a.firstCluster ≠ x.firstCluster := by
        intro heq
        apply hji
        have hn := hs.firsts_nodup
        have hlt : j < (D.firsts v).length := by
          rw [Disk.firsts, List.length_map]
          exact (List.getElem?_eq_some_iff.mp ha).1
        apply (List.getElem?_inj hlt hn).mp
        rw [Disk.firsts, List.getElem?_map, List.getElem?_map, ha, hx, Option.map_some, Option.map_some, heq]
      have hga : a.firstCluster ∈ D.firsts v := List.mem_map_of_mem (List.mem_of_getElem? ha)
      have hgx : x.firstCluster ∈ D.firsts v := List.mem_map_of_mem (List.mem_of_getElem? hx)
      have hchain := ho.chain _ hga
      refine ⟨a, ?_, ?_⟩
      · rw [hlist, List.getElem?_map, ha, Option.map_some, Dirent.resize, if_neg hne]
      · apply hrep.frame (Function.update_of_ne hne _ _)
        intro c hc
        exact hdata c (hchain.fat_ne_zero hc) (fun hcx => ho.apart hgx hga (Ne.symm hne) hcx hc) fun e =>
          hchain.no_root (e ▸ hc)

omit [KernelAlloc H] in
theorem Disk.free_congr (h : v'.fat = v.fat) : D.free v' = D.free v := by rw [free, free, h]

omit [KernelAlloc H] in
theorem resize_same (hn : (D.firsts v).Nodup) (hx : x ∈ D.listed v) :
    (D.listed v).map (Dirent.resize x.firstCluster x.size) = D.listed v := by
  conv_rhs => rw [← List.map_id (D.listed v)]
  apply List.map_congr_left
  intro y hy
  rw [Dirent.resize]
  split_ifs with h
  · obtain rfl := List.inj_on_of_nodup_map hn hy hx h
    rfl
  · rfl

omit [KernelAlloc H] in
theorem Represents.grown {l' : List ℕ} (h : Represents D v ch x f) (hg : Grown D v v' x.firstCluster (ch x.firstCluster) l')
    (hc : IsChain D v.fat x.firstCluster (ch x.firstCluster)) (hfill : Filled v D.fs.clusterSize (ch x.firstCluster))
    (hon : ∀ c, D.Valid c → D.On c) :
    Represents D v' (Function.update ch x.firstCluster l') x { f with clusters := l'.length } := by
  obtain ⟨n, hbytes⟩ := hg.bytes hc hon
  have hself : Function.update ch x.firstCluster l' x.firstCluster = l' := Function.update_self ..
  refine ⟨h.name, h.isFile, h.size, ⟨?_, ?_⟩, ?_, ?_⟩
  · obtain ⟨ext, rfl, -⟩ := hg.grows
    rw [hself]
    exact h.backed.room.trans (Nat.mul_le_mul_left _ (by simp))
  · intro i hi
    rw [hself, hbytes, byteAt_append_zeros, h.backed.zeros i hi]
  · rw [hself, hbytes, List.take_append_of_le_length, h.bytes]
    rw [length_bytes hfill]
    exact h.backed.room
  · rw [hself]

omit [KernelAlloc H] in
theorem Holds.grown {i : ℕ} {l' : List ℕ} (hs : Holds D v s) (ho : Owns D v.fat (D.firsts v) ch)
    (hfiles : List.Forall₂ (Represents D v ch) (D.listed v) s.files) (hx : (D.listed v)[i]? = some x)
    (hf : s.files[i]? = some f) (hrep : Represents D v ch x f)
    (hfill : Filled v D.fs.clusterSize (ch x.firstCluster)) (hg : Grown D v v' x.firstCluster (ch x.firstCluster) l') :
    Holds D v' { s with files := s.files.set i { f with clusters := l'.length }, free := (D.free v').length } := by
  have hmem := List.mem_of_getElem? hx
  have hfirst : x.firstCluster ∈ D.firsts v := List.mem_map_of_mem hmem
  have hdir : D.dir v' = D.dir v := hg.dir hs.root_used
  have hslots : ({ f with clusters := l'.length } : StoredFile).slots = f.slots := rfl
  apply hs.replace ho hfiles hx hf hslots (hg.fat_ne_zero hs.root_used)
  · rw [← hrep.size, resize_same ho.nodup hmem, Disk.listed_congr hdir]
  · rw [hdir]
    exact hs.regular
  · rw [hdir]
    exact hs.packed
  · exact hg.owns ho hfirst rfl
  · exact fun c hc _ _ => hg.data_all c hc
  · have hnew := hrep.grown hg (ho.chain _ hfirst) hfill hs.on
    rw [← hrep.size]
    exact hnew

omit [KernelAlloc H] in
theorem Holds.written {i : ℕ} {l' : List ℕ} {v1 : Vol} {b : List UInt8} (hs : Holds D v s)
    (ho : Owns D v.fat (D.firsts v) ch) (hfiles : List.Forall₂ (Represents D v ch) (D.listed v) s.files)
    (hx : (D.listed v)[i]? = some x) (hf : s.files[i]? = some f) (hrep : Represents D v ch x f)
    (ht : Touched D v v1 x.firstCluster (ch x.firstCluster) l') (hres : Resized D v1 v' x.firstCluster b.length)
    (hlt : b.length < 2 ^ 64) (hback : Backed D v' { x with size := b.length } l')
    (hbytes : (bytes v' l').take b.length = b) :
    Holds D v' { s with files := s.files.set i { f with bytes := b, clusters := l'.length },
                        free := (D.free v').length } := by
  have hfirst : x.firstCluster ∈ D.firsts v := List.mem_map_of_mem (List.mem_of_getElem? hx)
  have hfirsts := ht.firsts hs.root_used
  have hself : Function.update ch x.firstCluster l' x.firstCluster = l' := Function.update_self ..
  have hlist := hres.listed hlt (hfirsts ▸ ho.nodup)
  rw [Disk.listed_congr (ht.dir hs.root_used)] at hlist
  have hroot : v'.fat D.fs.rootDirCluster ≠ 0 := by
    rw [hres.fat]
    exact ht.fat_ne_zero hs.root_used
  have howns : Owns D v'.fat (D.firsts v) (Function.update ch x.firstCluster l') := by
    rw [hres.fat]
    exact ht.owns ho hfirst rfl
  have hdata : ∀ c, v.fat c ≠ 0 → c ∉ ch x.firstCluster → c ≠ D.fs.rootDirCluster → v'.data c = v.data c := by
    intro c hc hout hne
    rw [hres.data hne, ht.data c hc hout]
  obtain ⟨k, hk, -, rfl⟩ := hres
  have hdir : D.dir (v1.setData D.fs.rootDirCluster (setSize (D.dir v1) k b.length)) = setSize (D.dir v) k b.length := by
    rw [Disk.dir_setData, ht.dir hs.root_used]
  rw [ht.dir hs.root_used] at hk
  have hslots : ({ f with bytes := b, clusters := l'.length } : StoredFile).slots = f.slots := rfl
  apply hs.replace ho hfiles hx hf hslots hroot hlist
  · rw [hdir]
    exact hs.regular.setSize hk.2
  · rw [hdir]
    exact hs.packed.setSize k b.length
  · exact howns
  · exact hdata
  · exact ⟨hrep.name, hrep.isFile, rfl, by rwa [hself], by rwa [hself], by rw [hself]⟩

theorem exfatWrite_holds {fuel i off : ℕ} {buf : List UInt8} (ha : AllocOk H) (hfuel : D.fs.entries ≤ fuel)
    (hs : Holds D (D.vol w) s) (ho : Owns D (D.vol w).fat (D.firsts (D.vol w)) ch)
    (hfiles : List.Forall₂ (Represents D (D.vol w) ch) (D.listed (D.vol w)) s.files)
    (hx : (D.listed (D.vol w))[i]? = some x) (hf : s.files[i]? = some f) (hrep : Represents D (D.vol w) ch x f)
    (hbuf : buf ≠ []) (hshort : buf.length < 2 ^ 31) :
    Wp (exfatWrite fuel D.fs x.node off buf) w fun r w' =>
      (s.put i f off buf).1 = .code r.1 ∧ Holds D (D.vol w') (s.put i f off buf).2 := by
  have hmem := List.mem_of_getElem? hx
  have hfirst : x.firstCluster ∈ D.firsts (D.vol w) := List.mem_map_of_mem hmem
  have hpos := clusterSize_pos_of_first hfirst
  have hchain := ho.chain _ hfirst
  have hfill := hchain.filled w
  have hneeds : s.needs f (off + buf.length) = lacking D.fs.clusterSize (ch x.firstCluster) (off + buf.length) := by
    rw [FileStore.needs, hs.size, ← hrep.clusters]
    rfl
  have hgrows : Wp (exfatWrite fuel D.fs x.node off buf) w _ :=
    exfatWrite_extended ha hpos hchain hs.root_used hfuel hrep.isFile hbuf hs.on (by omega)
  apply (hgrows.and (exfatWrite_spec off hchain hs.root_used hfuel hrep.isFile hpos (size_lt hmem) hbuf)).mono
  rintro r w' ⟨⟨hgo, hfail⟩, -, -, hexact, -⟩
  rw [FileStore.put, if_neg hbuf]
  dsimp only
  rw [hneeds]
  by_cases hle : lacking D.fs.clusterSize (ch x.firstCluster) (off + buf.length) ≤ s.free
  · rw [if_pos hle]
    rw [← hs.free] at hle
    obtain ⟨hr, v1, hext, hfat⟩ := hgo hle
    have hcode : r.1 = buf.length := by
      rw [hr]
      exact toInt_eq_iff.mpr hshort
    obtain ⟨-, hwrote⟩ := hexact ha hcode
    obtain ⟨l', v2, ht, hres, hback, hbytes⟩ :=
      hwrote.contents hs.on hchain hfill hrep.backed hbuf hs.root_used hfirst
    have hlen : l'.length = f.clusters + lacking D.fs.clusterSize (ch x.firstCluster) (off + buf.length) := by
      have hnew := ht.chain.linked
      rw [← hres.fat, hfat] at hnew
      rw [hnew.unique hext.grown.chain.linked, length_append_free, Nat.min_eq_left hle, hrep.clusters]
    have hfree : (D.free (D.vol w')).length =
        s.free - lacking D.fs.clusterSize (ch x.firstCluster) (off + buf.length) := by
      rw [Disk.free_congr hfat, hext.free, List.length_drop, hs.free]
    have hsize : max x.size (off + buf.length) = (writeAt f.bytes off buf).length := by
      rw [length_writeAt hbuf, hrep.size]
    have hlt := max_lt (size_lt hmem) hwrote.fits
    rw [hrep.bytes] at hbytes
    rw [hsize] at hres hback hbytes hlt
    have hdone := hs.written ho hfiles hx hf hrep ht hres hlt hback hbytes
    rw [hlen, hfree] at hdone
    exact ⟨by rw [hcode], hdone⟩
  · rw [if_neg hle]
    rw [← hs.free] at hle
    obtain ⟨hr, hext⟩ := hfail (Nat.lt_of_not_le hle)
    have hdone := hs.grown ho hfiles hx hf hrep hfill hext.grown
    rw [length_append_free, Nat.min_eq_right (Nat.le_of_not_le hle), hext.free, List.length_drop, hrep.clusters,
      Nat.sub_eq_zero_of_le (Nat.le_of_not_le hle), hs.free] at hdone
    exact ⟨by rw [hr], hdone⟩

end Put

section Remove

theorem exfatUnlink_finds {fuel : ℕ} (ha : AllocOk H) (hpos : 0 < D.fs.clusterSize) (hname : fileName path ≠ [])
    (ho : Owns D (D.vol w).fat (D.firsts (D.vol w)) ch) (hfuel : D.fs.entries ≤ fuel) :
    Wp (exfatUnlink fuel D.fs path) w fun r w' =>
      (findByName (D.dir (D.vol w)) (slotCount (D.dir (D.vol w))) (fileName path) (slotCount (D.dir (D.vol w))) 0 = none →
        r = -1 ∧ D.vol w' = D.vol w) ∧
      ∀ k j, findByName (D.dir (D.vol w)) (slotCount (D.dir (D.vol w))) (fileName path)
          (slotCount (D.dir (D.vol w))) 0 = some (k, j) →
        r = 0 ∧ IsFile (D.dir (D.vol w)) k ∧ ∃ v1, Freed (D.vol w) v1 (ch (streamFirst (D.dir (D.vol w)) k)) ∧
          D.vol w' = v1.setData D.fs.rootDirCluster (eraseSet (D.dir (D.vol w)) k j) := by
  unfold exfatUnlink
  dsimp only
  rw [if_neg hname]
  apply wp_bind (loadRoot_spec D)
  rintro r1 w1 ⟨hv, hdir, hok⟩
  obtain ⟨⟨p, dir⟩, rfl⟩ := Option.ne_none_iff_exists'.mp (hok ha hpos)
  obtain ⟨rfl, hs⟩ := hdir p dir rfl
  have hlen := D.dir_length w
  rw [show (D.vol w).data D.fs.rootDirCluster = D.dir (D.vol w) from rfl]
  dsimp only
  rw [show (D.dir (D.vol w)).length / 32 = slotCount (D.dir (D.vol w)) from rfl]
  cases hfind : findByName (D.dir (D.vol w)) (slotCount (D.dir (D.vol w))) (fileName path)
      (slotCount (D.dir (D.vol w))) 0 with
  | none =>
    apply wp_bind (kfree_spec D p)
    intro _ w2 hv2
    exact wp_pure ⟨fun _ => ⟨rfl, hv2.trans hv⟩, nofun⟩
  | some kj =>
    obtain ⟨k, j⟩ := kj
    obtain ⟨hk, -⟩ := findByName_eq_some (by simp) hfind
    have hc := ho.chain _ hk.first_mem
    have hshort := hc.length_lt
    apply wp_bind (freeChain_spec hc hc.head (by omega) fun c _ => by rw [hv])
    intro _ w2 hfreed
    rw [List.drop_zero, hv] at hfreed
    apply wp_bind (Disk.writeCluster_spec Disk.root_valid hs (by rw [length_overlay, hlen]))
    intro rc w3 hw3
    rw [if_pos Disk.root_on_device] at hw3
    obtain ⟨rfl, hv3⟩ := hw3
    apply wp_bind (kfree_spec D p)
    intro _ w4 hv4
    refine wp_pure ⟨nofun, ?_⟩
    rintro _ _ ⟨⟩
    exact ⟨rfl, hk, _, hfreed, hv4.trans hv3⟩

omit [KernelAlloc H] in
theorem Freed.free_length {l : List ℕ} (h : Freed v v' l) (hvalid : ∀ c ∈ l, D.Valid c) (hused : ∀ c ∈ l, v.fat c ≠ 0)
    (hn : l.Nodup) : (D.free v').length = (D.free v).length + l.length := by
  have hperm : (D.free v').Perm (D.free v ++ l) := by
    apply (List.perm_ext_iff_of_nodup (D.free_nodup v') ?_).mpr
    · intro c
      rw [List.mem_append, Disk.mem_free, Disk.mem_free]
      by_cases hc : c ∈ l
      · simp [hc, h.free c hc, hvalid c hc]
      · simp [hc, h.fat c hc]
    · apply (D.free_nodup v).append hn
      intro c hfree hc
      exact hused c hc (Disk.mem_free.mp hfree).2
  rw [hperm.length_eq, List.length_append]

omit [KernelAlloc H] in
theorem Holds.removed {i k : ℕ} {v1 : Vol} (hs : Holds D v s)
    (ho : Owns D v.fat (D.firsts v) ch) (hfiles : List.Forall₂ (Represents D v ch) (D.listed v) s.files)
    (hk : (primaries (D.dir v) (endSlot (D.dir v)))[i]? = some k) (hfile : IsFile (D.dir v) k)
    (hfreed : Freed v v1 (ch (streamFirst (D.dir v) k)))
    (hv' : v' = v1.setData D.fs.rootDirCluster (eraseSet (D.dir v) k (unlinkName (D.dir v) k).2)) :
    Holds D v' { s with files := s.files.take i,
                        free := s.free + ((s.files[i]?).map StoredFile.clusters).getD 0 } := by
  have hkj := unlinkName_snd (D.dir v) k
  have hdir : D.dir v' = eraseSet (D.dir v) k (unlinkName (D.dir v) k).2 := by rw [hv', Disk.dir_setData]
  have hlist : D.listed v' = (D.listed v).take i := by
    rw [Disk.listed, hdir, dirEntries_eraseSet_take hk hkj, Disk.listed]
  have hunlinked : Unlinked D v v' ch (unlinkName (D.dir v) k).1 := ⟨k, _, hfile, rfl, v1, hfreed, hv'⟩
  obtain ⟨howns, hroot⟩ := hunlinked.owns ho
  have hx : (D.listed v)[i]? = some (entryAt (D.dir v) k) := by
    rw [Disk.listed, dirEntries_eq_map, List.getElem?_map, hk, Option.map_some]
  have hlt : i < s.files.length := hfiles.length_eq ▸ (List.getElem?_eq_some_iff.mp hx).1
  have hf : s.files[i]? = some s.files[i] := List.getElem?_eq_getElem hlt
  have hrep := (forall₂_iff_getElem?.mp hfiles).2 i _ _ hx hf
  have hfirst := entryAt_first hfile.2
  have hchain := ho.chain _ hfile.first_mem
  have hclusters : (ch (streamFirst (D.dir v) k)).length = s.files[i].clusters := hfirst ▸ hrep.clusters
  refine ⟨hs.size, hs.on, ?_, ?_, ?_, ?_, ch, howns, ?_⟩
  · rw [hroot]
    exact hs.root_used
  · rw [hdir]
    exact hs.regular.eraseSet hk hkj
  · rw [hdir, List.map_take]
    exact hs.packed.eraseSet hk hkj
  · have hfat : v'.fat = v1.fat := by rw [hv']; rfl
    rw [Disk.free_congr hfat, hfreed.free_length hchain.valid (fun c hc => hchain.fat_ne_zero hc) hchain.linked.nodup,
      hs.free, hclusters, hf]
    rfl
  · rw [hlist]
    apply forall₂_imp_mem (List.forall₂_take i hfiles)
    intro y hy g hg
    have hy' := ho.chain _ (List.mem_map_of_mem (List.mem_of_mem_take hy))
    apply hg.frame rfl
    intro c hc
    have hne : c ≠ D.fs.rootDirCluster := fun e => hy'.no_root (e ▸ hc)
    rw [hv', ← hfreed.data]
    exact Function.update_of_ne hne _ _

theorem exfatUnlink_holds {fuel : ℕ} (ha : AllocOk H) (hpos : 0 < D.fs.clusterSize) (hfuel : D.fs.entries ≤ fuel)
    (hs : Holds D (D.vol w) s) (hname : fileName path ≠ []) :
    Wp (exfatUnlink fuel D.fs path) w fun r w' =>
      (s.remove (fileName path)).1 = .code r ∧ Holds D (D.vol w') (s.remove (fileName path)).2 := by
  obtain ⟨ch, ho, hfiles⟩ := hs.files
  have hfind : (D.listed (D.vol w)).findIdx? (·.name = fileName path) = s.files.findIdx? (·.name = fileName path) :=
    findIdx?_of_forall₂ hfiles fun a b hab => by rw [hab.name]
  apply (exfatUnlink_finds ha hpos hname ho hfuel).mono
  rintro r w' ⟨hnone, hsome⟩
  rw [FileStore.remove, ← hfind]
  cases hi : (D.listed (D.vol w)).findIdx? (·.name = fileName path) with
  | none =>
    obtain ⟨rfl, hv⟩ := hnone (hs.regular.findByName_none hi)
    rw [hv]
    exact ⟨rfl, hs⟩
  | some i =>
    obtain ⟨k, hk, hfound⟩ := hs.regular.findByName_some hi
    obtain ⟨rfl, hfile, v1, hfreed, hv'⟩ := hsome k _ hfound
    exact ⟨rfl, hs.removed ho hfiles hk hfile hfreed hv'⟩

end Remove

section Serve

def serve (fuel : ℕ) (fs : Fs σ) : Request → Io σ H Reply
  | .create path => do
    let rc ← exfatCreate fs path
    pure (.code rc)
  | .put path off buf => do
    match ← exfatOpen fs path with
    | none => pure (.file none)
    | some node => do
      let r ← exfatWrite fuel fs node off buf
      pure (.code r.1)
  | .get path off len => do
    match ← exfatOpen fs path with
    | none => pure (.file none)
    | some node => do
      let r ← exfatRead fs node off len
      pure (.bytes r.1 r.2)
  | .stat path => do
    let r ← exfatStat fs path
    pure (.info r)
  | .remove path => do
    let rc ← exfatUnlink fuel fs path
    pure (.code rc)

def serveAll (fuel : ℕ) (fs : Fs σ) : List Request → Io σ H (List Reply)
  | [] => pure []
  | r :: rs => do
    let first ← serve fuel fs r
    let rest ← serveAll fuel fs rs
    pure (first :: rest)

theorem serve_matches {fs : Fs σ} (h : SameAnswers Eq fs.bdev fs.bdev) (hs : Sized fs) (fuel : ℕ) (r : Request) :
    Matches (Both Eq watch) (serve fuel fs r : Io σ H _) (serve fuel fs r) := by
  cases r with
  | create path => exact (exfatCreate_matches h hs sameRoom_watch path).bind fun _ => matches_pure _
  | put path off buf =>
    apply (exfatOpen_matches h hs sameRoom_watch path).bind
    rintro (_ | node)
    · exact matches_pure _
    · exact (exfatWrite_matches h hs sameRoom_watch fuel node off buf).bind fun _ => matches_pure _
  | get path off len =>
    apply (exfatOpen_matches h hs sameRoom_watch path).bind
    rintro (_ | node)
    · exact matches_pure _
    · exact (exfatRead_matches h hs sameRoom_watch node off len).bind fun _ => matches_pure _
  | stat path => exact (exfatStat_matches h hs sameRoom_watch path).bind fun _ => matches_pure _
  | remove path => exact (exfatUnlink_matches h hs sameRoom_watch fuel path).bind fun _ => matches_pure _

theorem serveAll_matches {fs : Fs σ} (h : SameAnswers Eq fs.bdev fs.bdev) (hs : Sized fs) (fuel : ℕ) (rs : List Request) :
    Matches (Both Eq watch) (serveAll fuel fs rs : Io σ H _) (serveAll fuel fs rs) := by
  induction rs with
  | nil => exact matches_pure _
  | cons r rs ih =>
    apply (serve_matches h hs fuel r).bind
    intro first
    exact ih.bind fun _ => matches_pure _

/-- The counts that the calls return fit an `int`. -/
def Request.Short : Request → Prop
  | .put _ _ buf => buf.length < 2 ^ 31
  | .get _ _ len => len < 2 ^ 31
  | _ => True

theorem exfatOpen_root_node (ha : AllocOk H) (hpath : pathIsRoot path = true) :
    Wp (exfatOpen D.fs path) w fun r w' => D.vol w' = D.vol w ∧ r = some ⟨D.fs.rootDirCluster, true, 0⟩ := by
  unfold exfatOpen
  apply wp_bind (kmalloc_spec D _)
  rintro n w1 ⟨hv1, -, hok1⟩
  obtain ⟨n, rfl⟩ := Option.ne_none_iff_exists'.mp (hok1 ha (by decide))
  apply wp_bind (kmalloc_spec D _)
  rintro vn w2 ⟨hv2, -, hok2⟩
  obtain ⟨vn, rfl⟩ := Option.ne_none_iff_exists'.mp (hok2 ha (by decide))
  dsimp only
  rw [if_pos hpath]
  exact wp_pure ⟨hv2.trans hv1, rfl⟩

inductive Handle (D : Disk σ) (v : Vol) (s : FileStore) (path : CString) : Node → Prop
  | root (hpath : pathIsRoot path = true) : Handle D v s path ⟨D.fs.rootDirCluster, true, 0⟩
  | file {ch : ℕ → List ℕ} {i : ℕ} {x : Dirent} {f : StoredFile} (hpath : pathIsRoot path = false)
      (ho : Owns D v.fat (D.firsts v) ch) (hfiles : List.Forall₂ (Represents D v ch) (D.listed v) s.files)
      (hi : s.find (fileName path) = some i) (hf : s.files[i]? = some f) (hx : (D.listed v)[i]? = some x)
      (hrep : Represents D v ch x f) : Handle D v s path x.node

theorem exfatOpen_handle (ha : AllocOk H) (hpos : 0 < D.fs.clusterSize) (hs : Holds D (D.vol w) s) (path : CString) :
    Wp (exfatOpen D.fs path) w fun r w' => D.vol w' = D.vol w ∧
      (r = none → pathIsRoot path = false ∧ s.find (fileName path) = none) ∧
      ∀ node ∈ r, Handle D (D.vol w) s path node := by
  cases hpath : pathIsRoot path with
  | true =>
    apply (exfatOpen_root_node ha hpath).mono
    rintro _ w' ⟨hv, rfl⟩
    refine ⟨hv, nofun, ?_⟩
    rintro _ ⟨⟩
    exact .root hpath
  | false =>
    obtain ⟨ch, ho, hfiles⟩ := hs.files
    apply (exfatOpen_spec hpath).mono
    rintro r w' ⟨hv, -, hr⟩
    refine ⟨hv, ?_⟩
    rw [hr ha hpos]
    rcases lookup_cases hfiles with ⟨hnone, hmiss⟩ | ⟨i, f, x, hi, hf, hx, hfound, hrep⟩
    · rw [hmiss]
      exact ⟨fun _ => ⟨rfl, hnone⟩, nofun⟩
    · rw [hfound]
      refine ⟨nofun, ?_⟩
      rintro _ ⟨⟩
      exact .file hpath ho hfiles hi hf hx hrep

theorem exfatRead_vol {off len : ℕ} {l : List ℕ} (ha : AllocOk H) (hpos : 0 < D.fs.clusterSize) (node : Node)
    (hc : IsChain D (D.vol w).fat node.firstCluster l) :
    Wp (exfatRead D.fs node off len) w fun _ w' => D.vol w' = D.vol w := by
  unfold exfatRead
  split_ifs with hdir hoff hzero
  · exact wp_pure rfl
  · exact wp_pure rfl
  · omega
  · dsimp only
    apply wp_bind (readSkip_spec hc hc.head)
    rintro cl w1 ⟨hcl, rfl⟩
    rw [Nat.zero_add] at hcl
    apply wp_bind (readLoop_spec ha hc hcl (Nat.mod_lt _ hpos) (le_refl _))
    rintro _ w' ⟨hv, -⟩
    exact wp_pure hv

theorem putFile_holds {fuel off : ℕ} {buf : List UInt8} (ha : AllocOk H) (hpos : 0 < D.fs.clusterSize)
    (hfuel : D.fs.entries ≤ fuel) (hs : Holds D (D.vol w) s) (hpath : pathIsRoot path = false)
    (hshort : buf.length < 2 ^ 31) :
    Wp (serve fuel D.fs (.put path off buf)) w fun reply w' =>
      reply = (s.serve (.put path off buf)).1 ∧ Holds D (D.vol w') (s.serve (.put path off buf)).2 := by
  obtain ⟨ch, ho, hfiles⟩ := hs.files
  rw [serve, FileStore.serve, hpath, if_neg (by simp)]
  apply wp_bind (exfatOpen_spec hpath)
  rintro n w1 ⟨hv, -, hn⟩
  rcases lookup_cases hfiles with ⟨hnone, hmiss⟩ | ⟨i, f, x, hi, hf, hx, hfound, hrep⟩
  · rw [hn ha hpos, hmiss, onFile_none hnone]
    exact wp_pure ⟨rfl, hv ▸ hs⟩
  · rw [hn ha hpos, hfound, onFile_some hi hf]
    dsimp only [Option.map_some]
    rw [← hv] at hs ho hfiles hx hrep
    by_cases hbuf : buf = []
    · subst hbuf
      have hfile := hrep.isFile
      have hnode : exfatWrite fuel D.fs x.node off [] = (pure (0, x.node) : Io σ H _) := by
        rw [exfatWrite, show x.node.isDir = false from hfile, if_neg (by simp), if_pos rfl]
      rw [hnode]
      exact wp_pure ⟨rfl, hs⟩
    · apply wp_bind (exfatWrite_holds ha hfuel hs ho hfiles hx hf hrep hbuf hshort)
      rintro r w2 ⟨hr, hs'⟩
      exact wp_pure ⟨hr.symm, hs'⟩

theorem getFile_holds {fuel off len : ℕ} (ha : AllocOk H) (hpos : 0 < D.fs.clusterSize)
    (hs : Holds D (D.vol w) s) (hpath : pathIsRoot path = false) (hshort : len < 2 ^ 31) :
    Wp (serve fuel D.fs (.get path off len)) w fun reply w' =>
      reply = (s.serve (.get path off len)).1 ∧ Holds D (D.vol w') (s.serve (.get path off len)).2 := by
  obtain ⟨ch, ho, hfiles⟩ := hs.files
  rw [serve, FileStore.serve, hpath, if_neg (by simp)]
  apply wp_bind (exfatOpen_spec hpath)
  rintro n w1 ⟨hv, -, hn⟩
  rcases lookup_cases hfiles with ⟨hnone, hmiss⟩ | ⟨i, f, x, hi, hf, hx, hfound, hrep⟩
  · rw [hn ha hpos, hmiss, onFile_none hnone]
    exact wp_pure ⟨rfl, hv ▸ hs⟩
  · rw [hn ha hpos, hfound, onFile_some hi hf]
    dsimp only [Option.map_some]
    rw [← hv] at hs ho hx hrep
    have hchain := ho.chain _ (List.mem_map_of_mem (List.mem_of_getElem? hx))
    have hreads := handleReads_of_backed ha hpos hchain hs.on hrep.backed hrep.isFile off len hshort
    apply wp_bind (hreads.and (exfatRead_vol ha hpos x.node hchain))
    rintro r w2 ⟨rfl, hv2⟩
    refine wp_pure ⟨?_, hv2 ▸ hs⟩
    rw [hrep.bytes]
    rfl

theorem statFile_holds {fuel : ℕ} (ha : AllocOk H) (hpos : 0 < D.fs.clusterSize) (hs : Holds D (D.vol w) s)
    (hpath : pathIsRoot path = false) :
    Wp (serve fuel D.fs (.stat path)) w fun reply w' =>
      reply = (s.serve (.stat path)).1 ∧ Holds D (D.vol w') (s.serve (.stat path)).2 := by
  obtain ⟨ch, ho, hfiles⟩ := hs.files
  rw [serve, FileStore.serve, hpath, if_neg (by simp)]
  apply wp_bind (exfatStat_spec hpath ha hpos)
  rintro _ w1 ⟨hv, rfl⟩
  rcases lookup_cases hfiles with ⟨hnone, hmiss⟩ | ⟨i, f, x, hi, hf, -, hfound, hrep⟩
  · rw [hmiss, hnone]
    exact wp_pure ⟨rfl, hv ▸ hs⟩
  · rw [hfound, hi, Option.bind_some, hf, Option.map_some, Option.map_some, hrep.size, hrep.isFile]
    exact wp_pure ⟨rfl, hv ▸ hs⟩

theorem serve_root {fuel : ℕ} (ha : AllocOk H) (hs : Holds D (D.vol w) s) (hpath : pathIsRoot path = true) (r : Request)
    (hr : (∃ off buf, r = .put path off buf) ∨ (∃ off len, r = .get path off len) ∨ r = .stat path) :
    Wp (serve fuel D.fs r) w fun reply w' => reply = (s.serve r).1 ∧ Holds D (D.vol w') (s.serve r).2 := by
  rcases hr with ⟨off, buf, rfl⟩ | ⟨off, len, rfl⟩ | rfl
  · rw [serve, FileStore.serve, if_pos hpath]
    apply wp_bind (exfatOpen_root_node ha hpath)
    rintro _ w1 ⟨hv, rfl⟩
    exact wp_pure ⟨rfl, hv ▸ hs⟩
  · rw [serve, FileStore.serve, if_pos hpath]
    apply wp_bind (exfatOpen_root_node ha hpath)
    rintro _ w1 ⟨hv, rfl⟩
    exact wp_pure ⟨rfl, hv ▸ hs⟩
  · rw [serve, FileStore.serve, if_pos hpath, exfatStat, if_pos hpath]
    exact wp_pure ⟨rfl, hs⟩

theorem serve_holds {fuel : ℕ} (ha : AllocOk H) (hpos : 0 < D.fs.clusterSize) (hfuel : D.fs.entries ≤ fuel)
    (hs : Holds D (D.vol w) s) (r : Request) (hshort : r.Short) :
    Wp (serve fuel D.fs r) w fun reply w' => reply = (s.serve r).1 ∧ Holds D (D.vol w') (s.serve r).2 := by
  cases r with
  | create path =>
    apply wp_bind (exfatCreate_holds ha hs hpos)
    rintro rc w' ⟨hrc, hs'⟩
    exact wp_pure ⟨hrc.symm, hs'⟩
  | put path off buf =>
    cases hpath : pathIsRoot path with
    | true => exact serve_root ha hs hpath _ (.inl ⟨off, buf, rfl⟩)
    | false => exact putFile_holds ha hpos hfuel hs hpath hshort
  | get path off len =>
    cases hpath : pathIsRoot path with
    | true => exact serve_root ha hs hpath _ (.inr (.inl ⟨off, len, rfl⟩))
    | false => exact getFile_holds ha hpos hs hpath hshort
  | stat path =>
    cases hpath : pathIsRoot path with
    | true => exact serve_root ha hs hpath _ (.inr (.inr rfl))
    | false => exact statFile_holds ha hpos hs hpath
  | remove path =>
    rw [FileStore.serve]
    by_cases hname : fileName path = []
    · rw [if_pos hname, serve, exfatUnlink]
      dsimp only
      rw [if_pos hname]
      exact wp_pure ⟨rfl, hs⟩
    · rw [if_neg hname]
      apply wp_bind (exfatUnlink_holds ha hpos hfuel hs hname)
      rintro rc w' ⟨hrc, hs'⟩
      exact wp_pure ⟨hrc.symm, hs'⟩

theorem serveAll_holds {fuel : ℕ} (ha : AllocOk H) (hpos : 0 < D.fs.clusterSize) (hfuel : D.fs.entries ≤ fuel)
    (rs : List Request) (hshort : ∀ r ∈ rs, r.Short) (hs : Holds D (D.vol w) s) :
    Wp (serveAll fuel D.fs rs) w fun replies w' =>
      replies = (FileStore.serveAll rs s).1 ∧ Holds D (D.vol w') (FileStore.serveAll rs s).2 := by
  induction rs generalizing w s with
  | nil => exact wp_pure ⟨rfl, hs⟩
  | cons r rs ih =>
    obtain ⟨hr, hrs⟩ := List.forall_mem_cons.mp hshort
    apply wp_bind (serve_holds ha hpos hfuel hs r hr)
    rintro reply w1 ⟨rfl, hs1⟩
    apply wp_bind (ih hrs hs1)
    rintro replies w2 ⟨rfl, hs2⟩
    exact wp_pure ⟨rfl, hs2⟩

theorem serveAll_granted {fuel : ℕ} (hpos : 0 < D.fs.clusterSize) (hfuel : D.fs.entries ≤ fuel) (rs : List Request)
    (hshort : ∀ r ∈ rs, r.Short) (hs : Holds D (D.vol w) s) (hroom : NoRefusal (serveAll fuel D.fs rs) w) :
    Wp (serveAll fuel D.fs rs) w fun replies w' =>
      replies = (FileStore.serveAll rs s).1 ∧ Holds D (D.vol w') (FileStore.serveAll rs s).2 := by
  have hwatched : Wp (serveAll fuel D.fs rs) (⟨w.dev, .live w.heap⟩ : World σ (Watched H)) fun replies v =>
      replies = (FileStore.serveAll rs s).1 ∧ Holds D (D.volOf (D.view v.dev)) (FileStore.serveAll rs s).2 :=
    serveAll_holds allocOk_watched hpos hfuel rs hshort hs
  have hmatches : Matches (Both Eq watch) (serveAll fuel D.fs rs : Io σ H _) (serveAll fuel D.fs rs) :=
    serveAll_matches (disk_sameAnswers D) (disk_sized D) fuel rs
  exact wp_of_noRefusal (Q := fun replies dev => replies = (FileStore.serveAll rs s).1 ∧
    Holds D (D.volOf (D.view dev)) (FileStore.serveAll rs s).2) hmatches hroom hwatched

end Serve

end DexOs.Exfat
