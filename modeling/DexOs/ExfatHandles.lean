import DexOs.ExfatOwnership
import DexOs.ExfatWriteOutcome
import DexOs.GrantedRuns
import DexOs.KernelHeapLedger

/-! Several handles on one file. Each caches the size of its open, and a write stores the size that its
own handle knows. A handle of a file without a first cluster gets one of its own, which the directory never learns. -/

namespace DexOs.Exfat

open DexOs.Lib

variable {σ H : Type} {D : Disk σ} {v v' : Vol} {path : CString}

def Disk.sizeOf (D : Disk σ) (v : Vol) (path : CString) : Option ℕ := (D.lookup v path).map Dirent.size

theorem Disk.lookup_congr (h : D.dir v' = D.dir v) (path : CString) : D.lookup v' path = D.lookup v path := by
  rw [lookup, lookup, listed_congr h]

theorem Resized.lookup_once {f size : ℕ} (h : Resized D v v' f size) (hs : size < 2 ^ 64) (hn : Once f (D.firsts v))
    (path : CString) : D.lookup v' path = (D.lookup v path).map (Dirent.resize f size) := by
  rw [Disk.lookup, h.listed_once hs hn, ← List.map_take, List.find?_map, Disk.lookup]
  congr 2
  funext x
  rw [Function.comp_apply, Dirent.resize_name]

theorem Wrote.lookup {f off size : ℕ} {l : List ℕ} {buf : List UInt8} (h : Wrote D v v' f l off buf size)
    (hroot : v.fat D.fs.rootDirCluster ≠ 0) (hf : f ∈ D.firsts v) (hn : Once f (D.firsts v)) (hs : size < 2 ^ 64)
    (path : CString) : D.lookup v' path = (D.lookup v path).map (Dirent.resize f size) := by
  obtain ⟨l', v1, ht, hupd, -⟩ := h.stored
  have hfirsts := ht.firsts hroot
  rcases hupd with ⟨-, hnot⟩ | hres
  · exact absurd (hfirsts ▸ hf) hnot
  · rw [hres.lookup_once hs (hfirsts ▸ hn), Disk.lookup_congr (ht.dir hroot)]

variable [KernelAlloc H] {w : World σ H}

inductive Call
  | openHandle
  | write (i off : ℕ) (buf : List UInt8)

def call (fuel : ℕ) (fs : Fs σ) (path : CString) (hs : List Node) : Call → Io σ H (Option (List Node))
  | .openHandle => do
    match ← exfatOpen fs path with
    | none => pure none
    | some node => pure (some (hs ++ [node]))
  | .write i off buf =>
    match hs[i]? with
    | none => pure none
    | some node => do
      let r ← exfatWrite fuel fs node off buf
      pure (if r.1 = buf.length then some (hs.set i r.2) else none)

def calls (fuel : ℕ) (fs : Fs σ) (path : CString) : List Call → List Node → Io σ H (Option (List Node))
  | [], hs => pure (some hs)
  | c :: cs, hs => do
    match ← call fuel fs path hs c with
    | none => pure none
    | some hs => calls fuel fs path cs hs

def Call.reach (m : ℕ) : Call → ℕ
  | .openHandle => m
  | .write _ off buf => max m (off + buf.length)

/-- Before the calls and after each successful one of them, the directory has the size `m` or the end
of the farthest write so far. -/
def SizesExact (fuel : ℕ) (D : Disk σ) (path : CString) : List Call → ℕ → List Node → World σ H → Prop
  | [], m, _, w => D.sizeOf (D.vol w) path = some m
  | c :: cs, m, hs, w => D.sizeOf (D.vol w) path = some m ∧
    Wp (call fuel D.fs path hs c) w fun r w' => ∀ hs', r = some hs' → SizesExact fuel D path cs (c.reach m) hs' w'

/-- What a successful call needs of the entry in the directory. A write through a handle with a first cluster: the size
is not beyond both the size of the handle and the end of the write. A write to a file without a first cluster, which
never changes the entry, and an empty write: they lie inside the file. -/
def Call.Fits (x : Dirent) (hs : List Node) : Call → Prop
  | .openHandle => True
  | .write i off buf => ∀ node, hs[i]? = some node →
    if buf = [] ∨ x.firstCluster = 0 then off + buf.length ≤ x.size else x.size ≤ max node.size (off + buf.length)

def CallsFit (fuel : ℕ) (D : Disk σ) (path : CString) : List Call → List Node → World σ H → Prop
  | [], _, _ => True
  | c :: cs, hs, w => Wp (call fuel D.fs path hs c) w fun r w' => ∀ hs', r = some hs' →
    (∀ x, D.lookup (D.vol w) path = some x → c.Fits x hs) ∧ CallsFit fuel D path cs hs' w'

/-- No `kmalloc` is refused in the calls, up to the first one that fails. -/
def Granted (fuel : ℕ) (D : Disk σ) (path : CString) : List Call → List Node → World σ H → Prop
  | [], _, _ => True
  | c :: cs, hs, w => NoRefusal (call fuel D.fs path hs c) w ∧
    ∀ hs' w', call fuel D.fs path hs c w = .ok (some hs', w') → Granted fuel D path cs hs' w'

/-- The root directory is in use, and the chains of the listed files are valid and pairwise disjoint. A file may have
no first cluster. -/
structure Orderly (D : Disk σ) (v : Vol) : Prop where
  root_used : v.fat D.fs.rootDirCluster ≠ 0
  chains : ∃ ch : ℕ → List ℕ, (∀ f ∈ D.firsts v, FileChain D v.fat f (ch f)) ∧
    (D.firsts v).Pairwise fun f g => (ch f).Disjoint (ch g)

/-- The file `x` and its handles. All chains are owned; when the file has none, those of its handles are not the
chains of other files. -/
structure Opened (D : Disk σ) (path : CString) (x : Dirent) (hs : List Node) (w : World σ H) : Prop where
  root_used : (D.vol w).fat D.fs.rootDirCluster ≠ 0
  owned : ∃ L ch, Owns D (D.vol w).fat L ch ∧ ∀ f, f ∈ D.firsts (D.vol w) ∨ f ∈ hs.map Node.firstCluster → f ≠ 0 → f ∈ L
  once : ∀ f, f ≠ 0 → Once f (D.firsts (D.vol w))
  found : D.lookup (D.vol w) path = some x
  isFile : x.isDir = false
  handles : ∀ node ∈ hs, node.isDir = false ∧ node.size < 2 ^ 64
  shared : x.firstCluster ≠ 0 → ∀ node ∈ hs, node.firstCluster = x.firstCluster ∧ node.size ≤ x.size
  apart : x.firstCluster = 0 → ∀ node ∈ hs, node.firstCluster ≠ 0 → node.firstCluster ∉ D.firsts (D.vol w)

omit [KernelAlloc H] in
theorem Opened.mem {x : Dirent} {hs : List Node} (h : Opened D path x hs w) : x ∈ D.listed (D.vol w) :=
  Disk.lookup_mem h.found

omit [KernelAlloc H] in
theorem Opened.congr {H' : Type} {x : Dirent} {hs : List Node} {w' : World σ H'} (h : Opened D path x hs w)
    (hv : D.vol w' = D.vol w) : Opened D path x hs w' := by
  obtain ⟨h1, h2, h3, h4, h5, h6, h7, h8⟩ := h
  rw [← hv] at h1 h2 h3 h4 h8
  exact ⟨h1, h2, h3, h4, h5, h6, h7, h8⟩

omit [KernelAlloc H] in
theorem Opened.push {x : Dirent} {hs : List Node} {node : Node} (h : Opened D path x hs w) (hnode : node = x.node) :
    Opened D path x (hs ++ [node]) w := by
  obtain ⟨L, ch, hown, hL⟩ := h.owned
  have hmem : x.firstCluster ∈ D.firsts (D.vol w) := List.mem_map_of_mem h.mem
  have hall {P : Node → Prop} (hold : ∀ n ∈ hs, P n) (hnew : P x.node) : ∀ n ∈ hs ++ [node], P n := by
    intro n hn
    rcases List.mem_append.mp hn with hn | hn
    · exact hold n hn
    · rw [List.mem_singleton.mp hn, hnode]
      exact hnew
  refine ⟨h.root_used, ⟨L, ch, hown, ?_⟩, h.once, h.found, h.isFile, hall h.handles ⟨h.isFile, size_lt h.mem⟩,
    fun hx => hall (h.shared hx) ⟨rfl, le_refl _⟩, fun hx => hall (h.apart hx) fun h0 => absurd hx h0⟩
  rintro f (hf | hf) h0
  · exact hL f (.inl hf) h0
  · rw [List.map_append, List.mem_append] at hf
    rcases hf with hf | hf
    · exact hL f (.inr hf) h0
    · rw [List.map_singleton, List.mem_singleton, hnode] at hf
      exact hL f (.inl (hf ▸ hmem)) h0

omit [KernelAlloc H] in
theorem opened_of_orderly {x : Dirent} (ho : Orderly D (D.vol w)) (hx : D.lookup (D.vol w) path = some x)
    (hfile : x.isDir = false) : Opened D path x [] w := by
  obtain ⟨ch, hchain, hdis⟩ := ho.chains
  have hvalid (f : ℕ) (hf : f ∈ D.firsts (D.vol w)) (h0 : f ≠ 0) : IsChain D (D.vol w).fat f (ch f) :=
    (hchain f hf).resolve_left fun h => h0 h.1
  refine ⟨ho.root_used, ⟨(D.firsts (D.vol w)).filter (· ≠ 0), ch, ⟨fun f hf => ?_, hdis.filter _⟩, ?_⟩, ?_, hx, hfile,
    by simp, by simp, by simp⟩
  · obtain ⟨hmem, h0⟩ := List.mem_filter.mp hf
    exact hvalid f hmem (of_decide_eq_true h0)
  · rintro f (hf | hf) h0
    · exact List.mem_filter.mpr ⟨hf, decide_eq_true h0⟩
    · cases hf
  · intro f h0
    apply hdis.imp_of_mem
    intro a b ha _ hd haf hbf
    rw [haf] at ha hd
    rw [hbf] at hd
    have hc := hvalid f ha h0
    exact hd hc.first_mem hc.first_mem

theorem exfatWrite_held {fuel off : ℕ} {node : Node} {buf : List UInt8} {L : List ℕ} {ch : ℕ → List ℕ}
    (hfuel : D.fs.entries ≤ fuel) (hroot : (D.vol w).fat D.fs.rootDirCluster ≠ 0) (ho : Owns D (D.vol w).fat L ch)
    (hf : node.firstCluster ∈ L) (honce : Once node.firstCluster (D.firsts (D.vol w))) (hfile : node.isDir = false)
    (hcsz : 0 < D.fs.clusterSize) (hsize : node.size < 2 ^ 64) (hbuf : buf ≠ []) :
    Wp (exfatWrite fuel D.fs node off buf) w fun r w' => r.2.firstCluster = node.firstCluster ∧
      (D.vol w').fat D.fs.rootDirCluster ≠ 0 ∧ (∃ ch', Owns D (D.vol w').fat L ch') ∧
      D.firsts (D.vol w') = D.firsts (D.vol w) ∧
      (node.firstCluster ∉ D.firsts (D.vol w) → D.dir (D.vol w') = D.dir (D.vol w)) ∧
      (AllocOk H → r.1 = buf.length → r.2 = { node with size := max node.size (off + buf.length) } ∧
        Wrote D (D.vol w) (D.vol w') node.firstCluster (ch node.firstCluster) off buf
          (max node.size (off + buf.length))) := by
  apply (exfatWrite_spec off (ho.chain _ hf) hroot hfuel hfile hcsz hsize hbuf).mono
  rintro r w' ⟨⟨hfirst, -⟩, ⟨l', v1, ht, hv⟩, hexact, -⟩
  have hfirsts1 := ht.firsts hroot
  have hown1 := ht.owns ho hf rfl
  refine ⟨hfirst, ?_⟩
  rcases hv with rfl | ⟨size, hlt, hres⟩
  · exact ⟨ht.fat_ne_zero hroot, ⟨_, hown1⟩, hfirsts1, fun _ => ht.dir hroot, hexact⟩
  · have hlisted := hres.listed_once hlt (by rwa [hfirsts1])
    have hfirsts : D.firsts (D.vol w') = D.firsts v1 := by
      rw [Disk.firsts, hlisted, List.map_map, Disk.firsts]
      exact List.map_congr_left fun x _ => Dirent.resize_first _ size x
    refine ⟨by rw [hres.fat]; exact ht.fat_ne_zero hroot, ⟨_, by rw [hres.fat]; exact hown1⟩, hfirsts.trans hfirsts1, ?_,
      hexact⟩
    intro hnot
    obtain ⟨k, hk, hfk, -⟩ := hres
    have hmem : streamFirst (D.dir v1) k ∈ D.firsts v1 := hk.first_mem
    rw [hfk, hfirsts1] at hmem
    exact absurd hmem hnot

theorem exfatWrite_unlisted {fuel off : ℕ} {node : Node} {buf : List UInt8} {L : List ℕ} {ch : ℕ → List ℕ}
    (hfuel : D.fs.entries ≤ fuel) (hroot : (D.vol w).fat D.fs.rootDirCluster ≠ 0) (ho : Owns D (D.vol w).fat L ch)
    (hL : ∀ f ∈ D.firsts (D.vol w), f ≠ 0 → f ∈ L) (h0 : node.firstCluster = 0) (hfile : node.isDir = false)
    (hcsz : 0 < D.fs.clusterSize) (hsize : node.size < 2 ^ 64) (hbuf : buf ≠ []) :
    Wp (exfatWrite fuel D.fs node off buf) w fun r w' => r.1 = buf.length → ∃ cl ∉ D.firsts (D.vol w),
      r.2.firstCluster = cl ∧ (D.vol w').fat D.fs.rootDirCluster ≠ 0 ∧ (∃ ch', Owns D (D.vol w').fat (L ++ [cl]) ch') ∧
      D.dir (D.vol w') = D.dir (D.vol w) ∧
      (AllocOk H → r.2 = { node with firstCluster := cl, size := max node.size (off + buf.length) } ∧
        off + buf.length < 2 ^ 64) := by
  have hfail : (-1 : ℤ) ≠ buf.length := by omega
  rcases exfatWrite_first h0 hroot hfuel hfile hcsz hbuf with
    ⟨-, hrun⟩ | ⟨-, -, w1, hrun, -⟩ | ⟨cl, rest, w1, -, -, ht, -, -, hrun⟩
  · exact ⟨_, _, hrun, fun h => absurd h hfail⟩
  · exact ⟨_, _, hrun, fun h => absurd h hfail⟩
  have hcl : cl ∉ D.firsts (D.vol w) := by
    intro hmem
    have hin := hL cl hmem ht.ne_zero
    exact (ho.chain cl hin).fat_ne_zero (ho.chain cl hin).first_mem ht.free
  have hdir1 : D.dir (D.vol w1) = D.dir (D.vol w) := ht.data _ hroot
  have hfirsts1 := Disk.firsts_congr hdir1
  have hroot1 : (D.vol w1).fat D.fs.rootDirCluster ≠ 0 := by rwa [ht.fat _ hroot]
  have honce : Once cl (D.firsts (D.vol w1)) := by
    rw [hfirsts1]
    apply List.pairwise_of_forall_mem_list
    rintro a ha b - rfl
    exact absurd ha hcl
  have hheld : Wp (exfatWrite fuel D.fs { node with firstCluster := cl } off buf) w1 _ :=
    exfatWrite_held hfuel hroot1 (ht.owns ho hroot) (List.mem_append_right L List.mem_cons_self) honce hfile hcsz hsize hbuf
  obtain ⟨r, w', hrun1, hfirst, hroot', hown', hfirsts, hdir, hexact⟩ := hheld
  refine ⟨r, w', hrun.trans hrun1, fun hr => ⟨cl, hcl, hfirst, hroot', hown', ?_, fun ha => ?_⟩⟩
  · rw [hdir (by rwa [hfirsts1]), hdir1]
  · obtain ⟨hnode, hwrote⟩ := hexact ha hr
    exact ⟨hnode, hwrote.fits⟩

omit [KernelAlloc H] in
theorem Opened.set {x x' : Dirent} {hs : List Node} {i : ℕ} {n : Node} {w' : World σ H} {L : List ℕ} {ch : ℕ → List ℕ}
    (h : Opened D path x hs w) (hroot : (D.vol w').fat D.fs.rootDirCluster ≠ 0) (hown : Owns D (D.vol w').fat L ch)
    (hL : ∀ f, f ∈ D.firsts (D.vol w) ∨ f ∈ hs.map Node.firstCluster → f ≠ 0 → f ∈ L) (hn : n.firstCluster ∈ L)
    (hfirsts : D.firsts (D.vol w') = D.firsts (D.vol w)) (hfound : D.lookup (D.vol w') path = some x')
    (hx : x'.firstCluster = x.firstCluster) (hdir : x'.isDir = x.isDir) (hnode : n.isDir = false ∧ n.size < 2 ^ 64)
    (hshared : x.firstCluster ≠ 0 → x.size ≤ x'.size ∧ n.firstCluster = x.firstCluster ∧ n.size ≤ x'.size)
    (hapart : x.firstCluster = 0 → n.firstCluster ∉ D.firsts (D.vol w)) : Opened D path x' (hs.set i n) w' := by
  have hall {P : Node → Prop} (hold : ∀ n ∈ hs, P n) (hnew : P n) : ∀ m ∈ hs.set i n, P m := by
    intro m hm
    rcases List.mem_or_eq_of_mem_set hm with hm | rfl
    · exact hold m hm
    · exact hnew
  refine ⟨hroot, ⟨L, ch, hown, ?_⟩, by rw [hfirsts]; exact h.once, hfound, hdir.trans h.isFile, hall h.handles hnode, ?_, ?_⟩
  · rintro f (hf | hf) h0
    · exact hL f (.inl (hfirsts ▸ hf)) h0
    · obtain ⟨m, hm, rfl⟩ := List.mem_map.mp hf
      rcases List.mem_or_eq_of_mem_set hm with hm | rfl
      · exact hL _ (.inr (List.mem_map_of_mem hm)) h0
      · exact hn
  · intro h0
    rw [hx] at h0 ⊢
    obtain ⟨hle, hnew⟩ := hshared h0
    exact hall (fun m hm => ⟨(h.shared h0 m hm).1, ((h.shared h0 m hm).2).trans hle⟩) hnew
  · intro h0
    rw [hx] at h0
    rw [hfirsts]
    exact hall (h.apart h0) fun _ => hapart h0

theorem exfatWrite_unseen {fuel i off : ℕ} {x : Dirent} {hs : List Node} {node : Node} {buf : List UInt8} (ha : AllocOk H)
    (hfuel : D.fs.entries ≤ fuel) (ho : Opened D path x hs w) (hx : x.firstCluster = 0) (hn : node ∈ hs) (hbuf : buf ≠ []) :
    Wp (exfatWrite fuel D.fs node off buf) w fun r w' => r.1 = buf.length → Opened D path x (hs.set i r.2) w' := by
  obtain ⟨hfile, hsize⟩ := ho.handles node hn
  obtain ⟨L, ch, hown, hL⟩ := ho.owned
  have hcsz : 0 < D.fs.clusterSize := clusterSize_pos_of_first (List.mem_map_of_mem ho.mem)
  by_cases h0 : node.firstCluster = 0
  · apply (exfatWrite_unlisted hfuel ho.root_used hown (fun f hf => hL f (.inl hf)) h0 hfile hcsz hsize hbuf).mono
    intro r w' hgo hr
    obtain ⟨cl, hcl, hfirst, hroot', ⟨ch', hown'⟩, hdir, hnode⟩ := hgo hr
    obtain ⟨hnode, hfits⟩ := hnode ha
    have hfound : D.lookup (D.vol w') path = some x := (Disk.lookup_congr hdir path).trans ho.found
    refine ho.set hroot' hown' (fun f hf hf0 => List.mem_append_left _ (hL f hf hf0)) ?_ (Disk.firsts_congr hdir) hfound rfl rfl
      ?_ (fun hne => absurd hx hne) fun _ => ?_
    · rw [hfirst]
      exact List.mem_append_right L List.mem_cons_self
    · rw [hnode]
      exact ⟨hfile, max_lt hsize hfits⟩
    · rw [hfirst]
      exact hcl
  · have hf : node.firstCluster ∈ L := hL _ (.inr (List.mem_map_of_mem hn)) h0
    apply (exfatWrite_held hfuel ho.root_used hown hf (ho.once _ h0) hfile hcsz hsize hbuf).mono
    rintro r w' ⟨hfirst, hroot', ⟨ch', hown'⟩, hfirsts, hdir, hexact⟩ hr
    have hapart := ho.apart hx node hn h0
    obtain ⟨hnode, hwrote⟩ := hexact ha hr
    have hfound : D.lookup (D.vol w') path = some x := (Disk.lookup_congr (hdir hapart) path).trans ho.found
    refine ho.set hroot' hown' hL (hfirst ▸ hf) hfirsts hfound rfl rfl ?_ (fun hne => absurd hx hne) fun _ => hfirst ▸ hapart
    rw [hnode]
    exact ⟨hfile, max_lt hsize hwrote.fits⟩

theorem exfatWrite_seen {fuel i off : ℕ} {x : Dirent} {hs : List Node} {node : Node} {buf : List UInt8} (ha : AllocOk H)
    (hfuel : D.fs.entries ≤ fuel) (ho : Opened D path x hs w) (hx : x.firstCluster ≠ 0) (hn : node ∈ hs) (hbuf : buf ≠ []) :
    Wp (exfatWrite fuel D.fs node off buf) w fun r w' => r.1 = buf.length →
      D.lookup (D.vol w') path = some { x with size := max node.size (off + buf.length) } ∧
      (x.size ≤ max node.size (off + buf.length) →
        Opened D path { x with size := max node.size (off + buf.length) } (hs.set i r.2) w') := by
  obtain ⟨hfile, hsize⟩ := ho.handles node hn
  obtain ⟨hfirst, -⟩ := ho.shared hx node hn
  obtain ⟨L, ch, hown, hL⟩ := ho.owned
  have hlisted : x.firstCluster ∈ D.firsts (D.vol w) := List.mem_map_of_mem ho.mem
  have hcsz : 0 < D.fs.clusterSize := clusterSize_pos_of_first hlisted
  have hf : node.firstCluster ∈ L := hfirst ▸ hL _ (.inl hlisted) hx
  have honce := ho.once _ hx
  rw [← hfirst] at hx honce hlisted
  apply (exfatWrite_held hfuel ho.root_used hown hf honce hfile hcsz hsize hbuf).mono
  rintro r w' ⟨hfirst', hroot', ⟨ch', hown'⟩, hfirsts, -, hexact⟩ hr
  obtain ⟨hnode, hwrote⟩ := hexact ha hr
  have hfound : D.lookup (D.vol w') path = some { x with size := max node.size (off + buf.length) } := by
    rw [hwrote.lookup ho.root_used hlisted honce (max_lt hsize hwrote.fits), ho.found, Option.map_some, Dirent.resize,
      if_pos hfirst.symm]
  refine ⟨hfound, fun hle => ?_⟩
  refine ho.set hroot' hown' hL (hfirst' ▸ hf) hfirsts hfound rfl rfl ?_ (fun _ => ⟨hle, hfirst'.trans hfirst, ?_⟩)
    fun h0 => absurd (hfirst.trans h0) hx
  · rw [hnode]
    exact ⟨hfile, max_lt hsize hwrote.fits⟩
  · rw [hnode]

theorem wp_write_call {fuel i off : ℕ} {hs : List Node} {node : Node} {buf : List UInt8}
    {Q : List Node → World σ H → Prop} (hi : hs[i]? = some node)
    (h : Wp (exfatWrite fuel D.fs node off buf) w fun r w' => r.1 = buf.length → Q (hs.set i r.2) w') :
    Wp (call fuel D.fs path hs (.write i off buf)) w fun r w' => ∀ hs', r = some hs' → Q hs' w' := by
  rw [call, hi]
  apply wp_bind h
  rintro r w' hq
  refine wp_pure fun hs' hhs => ?_
  split_ifs at hhs with hr
  exact Option.some.inj hhs ▸ hq hr

theorem call_spec {fuel : ℕ} {x : Dirent} {hs : List Node} (ha : AllocOk H) (hfuel : D.fs.entries ≤ fuel)
    (hpath : pathIsRoot path = false) (ho : Opened D path x hs w) (c : Call) :
    Wp (call fuel D.fs path hs c) w fun r w' => ∀ hs', r = some hs' → ∃ x', D.lookup (D.vol w') path = some x' ∧
      (x'.size = c.reach x.size ↔ c.Fits x hs) ∧ (x'.size = c.reach x.size → Opened D path x' hs' w') := by
  cases c with
  | openHandle =>
    refine wp_bind (exfatOpen_spec hpath) ?_
    rintro r w1 ⟨hv, hr, -⟩
    cases r with
    | none => exact wp_pure (by simp)
    | some node =>
      refine wp_pure ?_
      rintro _ ⟨⟩
      have hnode : node = x.node := by
        have h := hr.resolve_left (by simp)
        rw [ho.found] at h
        exact Option.some.inj h
      refine ⟨x, hv ▸ ho.found, ⟨fun _ => trivial, fun _ => rfl⟩, fun _ => ?_⟩
      have hpush : Opened D path x (hs ++ [node]) w := ho.push hnode
      exact hpush.congr hv
  | write i off buf =>
    cases hi : hs[i]? with
    | none =>
      rw [call, hi]
      exact wp_pure (by simp)
    | some node =>
      have hn := List.mem_of_getElem? hi
      obtain ⟨hfile, hsize⟩ := ho.handles node hn
      have hfits : (Call.write i off buf).Fits x hs ↔ if buf = [] ∨ x.firstCluster = 0 then off + buf.length ≤ x.size
          else x.size ≤ max node.size (off + buf.length) := by
        simp [Call.Fits, hi]
      have hcsz : 0 < D.fs.clusterSize := clusterSize_pos_of_first (List.mem_map_of_mem ho.mem)
      rw [hfits]
      apply wp_write_call hi
      by_cases hbuf : buf = []
      · apply (exfatWrite_refused (.inr hbuf)).mono
        rintro r w ⟨hr, rfl⟩ -
        have hset : hs.set i r.2 = hs := by
          obtain ⟨hlt, hget⟩ := List.getElem?_eq_some_iff.mp hi
          rw [hr, ← hget, List.set_getElem_self hlt]
        refine ⟨x, ho.found, ?_, fun _ => by rw [hset]; exact ho⟩
        rw [if_pos (.inl hbuf), Call.reach]
        omega
      by_cases hx : x.firstCluster = 0
      · rw [if_pos (.inr hx)]
        apply (exfatWrite_unseen (i := i) ha hfuel ho hx hn hbuf).mono
        rintro r w' hopened hr
        have ho' := hopened hr
        refine ⟨x, ho'.found, ?_, fun _ => ho'⟩
        rw [Call.reach]
        omega
      · obtain ⟨-, hle⟩ := ho.shared hx node hn
        rw [if_neg (not_or.mpr ⟨hbuf, hx⟩)]
        apply (exfatWrite_seen (i := i) ha hfuel ho hx hn hbuf).mono
        rintro r w' hseen hr
        obtain ⟨hfound, hopened⟩ := hseen hr
        refine ⟨_, hfound, ?_, fun heq => hopened ?_⟩
        · rw [Call.reach]
          dsimp only
          omega
        · rw [Call.reach] at heq
          dsimp only at heq
          omega

theorem call_matches {fs : Fs σ} (h : SameAnswers Eq fs.bdev fs.bdev) (hs : Sized fs) (fuel : ℕ) (path : CString)
    (nodes : List Node) (c : Call) :
    Matches (Both Eq watch) (call fuel fs path nodes c : Io σ H _) (call fuel fs path nodes c) := by
  cases c with
  | openHandle =>
    apply (exfatOpen_matches h hs sameRoom_watch path).bind
    rintro (_ | node)
    · exact matches_pure _
    · exact matches_pure _
  | write i off buf =>
    simp only [call]
    cases nodes[i]? with
    | none => exact matches_pure _
    | some node => exact (exfatWrite_matches h hs sameRoom_watch fuel node off buf).bind fun _ => matches_pure _

theorem call_granted {fuel : ℕ} {x : Dirent} {hs : List Node} (hfuel : D.fs.entries ≤ fuel)
    (hpath : pathIsRoot path = false) (ho : Opened D path x hs w) (c : Call)
    (hroom : NoRefusal (call fuel D.fs path hs c) w) :
    Wp (call fuel D.fs path hs c) w fun r w' => ∀ hs', r = some hs' → ∃ x', D.lookup (D.vol w') path = some x' ∧
      (x'.size = c.reach x.size ↔ c.Fits x hs) ∧ (x'.size = c.reach x.size → Opened D path x' hs' w') := by
  have ho' : Opened D path x hs (⟨w.dev, .live w.heap⟩ : World σ (Watched H)) := ho.congr rfl
  have hwatched := call_spec allocOk_watched hfuel hpath ho' c
  have hmatches : Matches (Both Eq watch) (call fuel D.fs path hs c : Io σ H _) (call fuel D.fs path hs c) :=
    call_matches (disk_sameAnswers D) (disk_sized D) fuel path hs c
  have hspec := wp_of_noRefusal (Q := fun r dev => ∀ hs', r = some hs' →
    ∃ x', D.lookup (D.vol ⟨dev, ()⟩) path = some x' ∧ (x'.size = c.reach x.size ↔ c.Fits x hs) ∧
      (x'.size = c.reach x.size → Opened D path x' hs' ⟨dev, ()⟩)) hmatches hroom ?_
  · refine hspec.mono fun r w' hr hs' hhs => ?_
    obtain ⟨x', hfound, hfits, hopened⟩ := hr hs' hhs
    exact ⟨x', hfound, hfits, fun heq => (hopened heq).congr rfl⟩
  · refine hwatched.mono fun r v hr hs' hhs => ?_
    obtain ⟨x', hfound, hfits, hopened⟩ := hr hs' hhs
    exact ⟨x', hfound, hfits, fun heq => (hopened heq).congr rfl⟩

theorem calls_matches {fs : Fs σ} (h : SameAnswers Eq fs.bdev fs.bdev) (hs : Sized fs) (fuel : ℕ) (path : CString)
    (cs : List Call) (nodes : List Node) :
    Matches (Both Eq watch) (calls fuel fs path cs nodes : Io σ H _) (calls fuel fs path cs nodes) := by
  induction cs generalizing nodes with
  | nil => exact matches_pure _
  | cons c cs ih =>
    apply (call_matches h hs fuel path nodes c).bind
    rintro (_ | nodes')
    · exact matches_pure _
    · exact ih nodes'

theorem granted_of_calls {fuel : ℕ} {cs : List Call} {hs : List Node}
    (h : Wp (calls fuel D.fs path cs hs) (⟨w.dev, .live w.heap⟩ : World σ (Watched H)) fun _ v => v.heap ≠ .refused) :
    Granted fuel D path cs hs w := by
  induction cs generalizing hs w with
  | nil => trivial
  | cons c cs ih =>
    obtain ⟨r, v, hrun, hrest⟩ := wp_of_bind h
    have hmatches : Matches (Both Eq watch) (call fuel D.fs path hs c : Io σ H _) (call fuel D.fs path hs c) :=
      call_matches (disk_sameAnswers D) (disk_sized D) fuel path hs c
    have hlive : v.heap ≠ .refused := by
      cases r with
      | none =>
        obtain ⟨_, _, ⟨⟩, hlive⟩ := hrest
        exact hlive
      | some hs' =>
        obtain ⟨r', v', hrun', hlive'⟩ := hrest
        have hnext : Matches (Both Eq watch) (calls fuel D.fs path cs hs' : Io σ H _) (calls fuel D.fs path cs hs') :=
          calls_matches (disk_sameAnswers D) (disk_sized D) fuel path cs hs'
        exact hnext.unbroken hrun' hlive'
    refine ⟨?_, ?_⟩
    · rintro a v' hrun'
      obtain ⟨rfl, rfl⟩ := Prod.mk.inj (Except.ok.inj (hrun.symm.trans hrun'))
      exact hlive
    · intro hs' w' hrun'
      have hstart : (Both Eq watch).rel w ⟨w.dev, .live w.heap⟩ := ⟨rfl, rfl⟩
      obtain ⟨_, w1, hrun1, rfl, hdev, hheap⟩ := hmatches.back hstart hrun hlive
      obtain ⟨rfl, rfl⟩ := Prod.mk.inj (Except.ok.inj (hrun1.symm.trans hrun'))
      obtain ⟨vdev, vheap⟩ := v
      obtain rfl : w1.dev = vdev := hdev
      obtain rfl : vheap = .live w1.heap := hheap
      exact ih hrest

theorem granted_of_test {fuel : ℕ} {cs : List Call} {hs : List Node}
    (h : test (calls fuel D.fs path cs hs) (⟨w.dev, .live w.heap⟩ : World σ (Watched H)) (fun _ v => v.heap.isLive) = true) :
    Granted fuel D path cs hs w := by
  apply granted_of_calls
  apply (wp_of_test h).mono
  rintro r ⟨dev, heap⟩ hlive rfl
  cases hlive

theorem sizesExact_iff_of_opened {fuel : ℕ} {x : Dirent} {hs : List Node} (hfuel : D.fs.entries ≤ fuel)
    (hpath : pathIsRoot path = false) (cs : List Call) (ho : Opened D path x hs w)
    (hroom : Granted fuel D path cs hs w) :
    SizesExact fuel D path cs x.size hs w ↔ CallsFit fuel D path cs hs w := by
  have hsize : D.sizeOf (D.vol w) path = some x.size := by rw [Disk.sizeOf, ho.found, Option.map_some]
  induction cs generalizing x hs w with
  | nil => exact ⟨fun _ => trivial, fun _ => hsize⟩
  | cons c cs ih =>
    rw [SizesExact, CallsFit, and_iff_right hsize]
    refine (call_granted hfuel hpath ho c hroom.1).run.congr fun r w' hr => forall₂_congr fun hs' hhs => ?_
    obtain ⟨hrun, hr⟩ := hr
    obtain ⟨x', hfound, hiff, hopened⟩ := hr hs' hhs
    have hnext : Granted fuel D path cs hs' w' := hroom.2 hs' w' (hhs ▸ hrun)
    have hfits : (∀ x, D.lookup (D.vol w) path = some x → c.Fits x hs) ↔ x'.size = c.reach x.size := by
      rw [ho.found, hiff]
      simp
    rw [hfits]
    have hsize' : D.sizeOf (D.vol w') path = some x'.size := by rw [Disk.sizeOf, hfound, Option.map_some]
    constructor
    · intro hexact
      have heq : x'.size = c.reach x.size := by
        cases cs with
        | nil => exact Option.some.inj (hsize'.symm.trans hexact)
        | cons => exact Option.some.inj (hsize'.symm.trans hexact.1)
      refine ⟨heq, (ih (hopened heq) hnext hsize').mp ?_⟩
      rwa [heq]
    · rintro ⟨heq, hfit⟩
      rw [← heq]
      exact (ih (hopened heq) hnext hsize').mpr hfit

/-- On a file of an orderly volume, as long as no `kmalloc` is refused: the directory has the right size
after every call exactly when every call fits. -/
theorem sizesExact_iff {fuel : ℕ} {x : Dirent} (hfuel : D.fs.entries ≤ fuel) (hw : Orderly D (D.vol w))
    (hpath : pathIsRoot path = false) (hx : D.lookup (D.vol w) path = some x) (hfile : x.isDir = false)
    (cs : List Call) (hroom : Granted fuel D path cs [] w) :
    SizesExact fuel D path cs x.size [] w ↔ CallsFit fuel D path cs [] w :=
  sizesExact_iff_of_opened hfuel hpath cs (opened_of_orderly hw hx hfile) hroom

theorem SizesExact.last {fuel m : ℕ} {cs : List Call} {hs : List Node} (h : SizesExact fuel D path cs m hs w) :
    Wp (calls fuel D.fs path cs hs) w fun r w' =>
      r ≠ none → D.sizeOf (D.vol w') path = some (cs.foldl Call.reach m) := by
  induction cs generalizing m hs w with
  | nil => exact wp_pure fun _ => h
  | cons c cs ih =>
    refine wp_bind h.2 ?_
    rintro (_ | hs') w' hnext
    · exact wp_pure fun h => absurd rfl h
    · exact ih (hnext hs' rfl)

section Ram0

def ram0File : Memory :=
  poke (poke ram0Memory (0x200000 + 65548) (leBytes 4 eoc)) (0x200000 + 589824) (entrySet [97] 3)

omit [KernelAlloc H] in
theorem ram0File_listed (h : H) : ram0Volume.listed (ram0Volume.vol ⟨ram0File, h⟩) = [⟨3, 0, false, [97]⟩] := by
  change ram0Volume.listed (ram0Volume.volOf (ram0Store.view ram0File)) = _
  decide +kernel

omit [KernelAlloc H] in
theorem ram0File_owns (h : H) : Owns ram0Volume (ram0Volume.vol ⟨ram0File, h⟩).fat
    (ram0Volume.firsts (ram0Volume.vol ⟨ram0File, h⟩)) fun _ => [3] := by
  have hfat : (ram0Volume.vol (⟨ram0File, h⟩ : World Memory H)).fat 3 = eoc := by
    change (ram0Volume.volOf (ram0Store.view ram0File)).fat 3 = eoc
    decide +kernel
  have hvalid : ram0Volume.Valid 3 := by decide +kernel
  have hchain : IsChain ram0Volume (ram0Volume.vol ⟨ram0File, h⟩).fat 3 [3] :=
    ⟨(linked_cons ..).mpr ⟨rfl, hvalid.ne_eoc, (linked_nil ..).mpr hfat⟩, by simp, by simpa using hvalid, by decide⟩
  rw [Disk.firsts, ram0File_listed]
  exact ⟨by simpa using hchain, by simp⟩

omit [KernelAlloc H] in
theorem ram0File_root (h : H) :
    (ram0Volume.vol (⟨ram0File, h⟩ : World Memory H)).fat ram0Volume.fs.rootDirCluster ≠ 0 := by
  change (ram0Volume.volOf (ram0Store.view ram0File)).fat 2 ≠ 0
  decide +kernel

omit [KernelAlloc H] in
theorem ram0File_lookup (h : H) : ram0Volume.lookup (ram0Volume.vol ⟨ram0File, h⟩) pathA =
    some ⟨3, 0, false, [97]⟩ := by
  rw [Disk.lookup, ram0File_listed]
  decide

theorem sizesExact_iff_ram0 :
    let cs : List Call := [.openHandle, .openHandle, .write 0 0 [1, 2, 3], .write 1 0 [4, 5, 6, 7]]
    let w : World Memory KernelHeap.Heap := ⟨ram0File, KernelHeap.bootHeap⟩
    SizesExact 131072 ram0Volume pathA cs 0 [] w ↔ CallsFit 131072 ram0Volume pathA cs [] w := by
  intro cs w
  have hpath : pathIsRoot pathA = false := by decide
  have hown := ram0File_owns KernelHeap.bootHeap
  have horderly : Orderly ram0Volume (ram0Volume.vol w) :=
    ⟨ram0File_root KernelHeap.bootHeap, _, fun f hf => .inr (hown.chain f hf), hown.disjoint⟩
  have hroom : test (calls 131072 ram0Volume.fs pathA cs []) (⟨w.dev, .live w.heap⟩ : World Memory (Watched KernelHeap.Heap))
      (fun _ v => v.heap.isLive) = true := by decide +kernel
  exact sizesExact_iff ram0_entries_le horderly hpath (ram0File_lookup KernelHeap.bootHeap) rfl cs (granted_of_test hroom)

/-- The second handle still knows the size 0, and its write of one byte cuts the file back. -/
theorem stale_handle_shrinks : ¬ SizesExact 131072 ram0Volume pathA [.openHandle, .openHandle,
    .write 0 0 [1, 2, 3], .write 1 0 [4]] 0 [] (⟨ram0File, ()⟩ : World Memory Unit) := by
  intro h
  have htest : test (calls 131072 ram0Volume.fs pathA [.openHandle, .openHandle, .write 0 0 [1, 2, 3],
      .write 1 0 [4]] []) (⟨ram0File, ()⟩ : World Memory Unit) (fun r w' =>
      r ≠ none ∧ ram0Volume.sizeOf (ram0Volume.vol w') pathA = some 1) = true := by decide +kernel
  obtain ⟨r, w', hrun, hr⟩ := wp_of_test htest
  obtain ⟨hsome, hone⟩ := of_decide_eq_true hr
  rw [h.last.post hrun hsome] at hone
  exact absurd hone (by decide)

end Ram0

end DexOs.Exfat
