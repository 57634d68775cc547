import DexOs.ExfatData
import DexOs.ExfatLookup

/-! What the file operations do to the volume. -/

namespace DexOs.Exfat

open DexOs.Lib

variable {σ H : Type} [KernelAlloc H] {D : Disk σ} {w : World σ H}

def Disk.dir (D : Disk σ) (v : Vol) : List UInt8 := v.data D.fs.rootDirCluster

def Disk.listed (D : Disk σ) (v : Vol) : List Dirent := dirEntries (D.dir v)

def Disk.firsts (D : Disk σ) (v : Vol) : List ℕ := (D.listed v).map Dirent.firstCluster

def Disk.lookup (D : Disk σ) (v : Vol) (path : CString) : Option Dirent :=
  ((D.listed v).take 32).find? (·.name = fileName path)

def Dirent.node (x : Dirent) : Node := ⟨x.firstCluster, x.isDir, x.size⟩

@[simp] theorem Disk.dir_setData (D : Disk σ) (v : Vol) (buf : List UInt8) :
    D.dir (v.setData D.fs.rootDirCluster buf) = buf := Function.update_self ..

theorem Disk.listed_congr {v v' : Vol} (h : D.dir v' = D.dir v) : D.listed v' = D.listed v := by
  rw [listed, h, listed]

theorem Disk.firsts_congr {v v' : Vol} (h : D.dir v' = D.dir v) : D.firsts v' = D.firsts v := by
  rw [firsts, listed_congr h, firsts]

theorem Disk.lookup_mem {v : Vol} {path : CString} {x : Dirent} (h : D.lookup v path = some x) : x ∈ D.listed v :=
  List.mem_of_mem_take (List.mem_of_find?_eq_some h)

omit [KernelAlloc H] in
theorem Disk.dir_length (D : Disk σ) (w : World σ H) : (D.dir (D.vol w)).length = D.fs.clusterSize :=
  data_length w root_valid

section Lookup

theorem dirScanRoot_spec (maxEnts : ℕ) : Wp (dirScanRoot D.fs maxEnts) w fun r w' => D.vol w' = D.vol w ∧
    (r = [] ∨ r = (D.listed (D.vol w)).take maxEnts) ∧
    (AllocOk H → 0 < D.fs.clusterSize → r = (D.listed (D.vol w)).take maxEnts) := by
  unfold dirScanRoot
  refine wp_bind (loadRoot_spec D) ?_
  rintro (_ | ⟨p, dir⟩) w1 ⟨hv, hdir, hok⟩
  · exact wp_pure ⟨hv, .inl rfl, fun ha hs => absurd rfl (hok ha hs)⟩
  · obtain ⟨rfl, -⟩ := hdir p dir rfl
    refine wp_bind (kfree_spec D p) ?_
    intro _ w2 hv2
    exact wp_pure ⟨hv2.trans hv, .inr rfl, fun _ _ => rfl⟩

theorem exfatOpen_spec {path : CString} (hpath : pathIsRoot path = false) :
    Wp (exfatOpen D.fs path) w fun r w' => D.vol w' = D.vol w ∧
      (r = none ∨ r = (D.lookup (D.vol w) path).map Dirent.node) ∧
      (AllocOk H → 0 < D.fs.clusterSize → r = (D.lookup (D.vol w) path).map Dirent.node) := by
  unfold exfatOpen
  refine wp_bind (kmalloc_spec D _) ?_
  rintro (_ | n) w1 ⟨hv1, -, hok1⟩
  · exact wp_pure ⟨hv1, .inl rfl, fun ha _ => absurd rfl (hok1 ha (by decide))⟩
  refine wp_bind (kmalloc_spec D _) ?_
  rintro (_ | vn) w2 ⟨hv2, -, hok2⟩
  · refine wp_bind (kfree_spec D n) ?_
    intro _ w3 hv3
    exact wp_pure ⟨(hv3.trans hv2).trans hv1, .inl rfl, fun ha _ => absurd rfl (hok2 ha (by decide))⟩
  have hv : D.vol w2 = D.vol w := hv2.trans hv1
  simp only [hpath, Bool.false_eq_true, if_false]
  refine wp_bind (dirScanRoot_spec 32) ?_
  rintro ents w3 ⟨hv3, hents, hok3⟩
  rw [hv] at hv3 hents hok3
  cases hfind : ents.find? (·.name = fileName path) with
  | some x =>
    have hall : ents = (D.listed (D.vol w)).take 32 := by
      refine hents.resolve_left ?_
      rintro rfl
      simp at hfind
    have hr : some x.node = (D.lookup (D.vol w) path).map Dirent.node := by
      rw [Disk.lookup, ← hall, hfind]
      rfl
    exact wp_pure ⟨hv3, .inr hr, fun _ _ => hr⟩
  | none =>
    refine wp_bind (kfree_spec D n) ?_
    intro _ w4 hv4
    refine wp_bind (kfree_spec D vn) ?_
    intro _ w5 hv5
    refine wp_pure ⟨(hv5.trans hv4).trans hv3, .inl rfl, fun ha hs => ?_⟩
    rw [Disk.lookup, ← hok3 ha hs, hfind]
    rfl

theorem exfatOpen_root {path : CString} (hpath : pathIsRoot path = true) :
    Wp (exfatOpen D.fs path) w fun r w' => D.vol w' = D.vol w ∧
      (r = none ∨ r = some ⟨D.fs.rootDirCluster, true, 0⟩) := by
  unfold exfatOpen
  refine wp_bind (kmalloc_spec D _) ?_
  rintro (_ | n) w1 ⟨hv1, -⟩
  · exact wp_pure ⟨hv1, .inl rfl⟩
  refine wp_bind (kmalloc_spec D _) ?_
  rintro (_ | vn) w2 ⟨hv2, -⟩
  · refine wp_bind (kfree_spec D n) ?_
    intro _ w3 hv3
    exact wp_pure ⟨(hv3.trans hv2).trans hv1, .inl rfl⟩
  · dsimp only
    rw [if_pos hpath]
    exact wp_pure ⟨hv2.trans hv1, .inr rfl⟩

theorem exfatStat_spec {path : CString} (hpath : pathIsRoot path = false) (ha : AllocOk H)
    (hs : 0 < D.fs.clusterSize) : Wp (exfatStat D.fs path) w fun r w' => D.vol w' = D.vol w ∧
      r = (D.lookup (D.vol w) path).map fun x => (x.size, x.isDir) := by
  unfold exfatStat
  simp only [hpath, Bool.false_eq_true, if_false]
  refine wp_bind (dirScanRoot_spec 32) ?_
  rintro ents w1 ⟨hv, -, hok⟩
  refine wp_pure ⟨hv, ?_⟩
  rw [hok ha hs]
  rfl

end Lookup

section Update

def Resized (D : Disk σ) (v v' : Vol) (f size : ℕ) : Prop :=
  ∃ k, IsFile (D.dir v) k ∧ streamFirst (D.dir v) k = f ∧
    v' = v.setData D.fs.rootDirCluster (setSize (D.dir v) k size)

theorem dirUpdate_spec (f size : ℕ) : Wp (dirUpdateStreamByFirstCluster D.fs f f size) w fun _ w' =>
    (D.vol w' = D.vol w ∧ ((KernelAlloc.kmalloc w.heap D.fs.clusterSize).1 ≠ none → f ≠ 0 →
      f ∉ D.firsts (D.vol w))) ∨
      (KernelAlloc.kmalloc w.heap D.fs.clusterSize).1 ≠ none ∧ Resized D (D.vol w) (D.vol w') f size := by
  unfold dirUpdateStreamByFirstCluster
  refine wp_bind (loadRoot_exact D) ?_
  rintro _ w1 ⟨hv, rfl⟩
  by_cases hbuf : (KernelAlloc.kmalloc w.heap D.fs.clusterSize).1 = none
  · rw [hbuf]
    exact wp_pure (.inl ⟨hv, fun h => absurd rfl h⟩)
  obtain ⟨p, hp⟩ := Option.ne_none_iff_exists'.mp hbuf
  have hs := clusterSize_pos D (pos_of_kmalloc hp)
  rw [hp, Option.map_some]
  dsimp only
  rw [show (D.vol w).data D.fs.rootDirCluster = D.dir (D.vol w) from rfl, ← slotCount]
  cases hfind : findByFirst (D.dir (D.vol w)) (slotCount (D.dir (D.vol w))) f (slotCount (D.dir (D.vol w))) 0 with
  | none =>
    refine wp_bind (kfree_spec D p) ?_
    intro _ w2 hv2
    refine wp_pure (.inl ⟨hv2.trans hv, fun _ h0 hf => ?_⟩)
    obtain ⟨x, hx, rfl⟩ := List.mem_map.mp hf
    obtain ⟨k, hk, rfl⟩ := exists_isFile hx h0
    exact findByFirst_eq_none (by simp) hfind (Nat.zero_le k) hk (entryAt_first hk.2).symm
  | some k =>
    obtain ⟨hk, rfl⟩ := findByFirst_eq_some (by simp) hfind
    dsimp only
    have hlen : (setSize (D.dir (D.vol w)) k size).length = D.fs.clusterSize := by
      rw [setSize, length_overlay, D.dir_length]
    rw [setStream_eq]
    refine wp_bind (Disk.writeCluster_spec Disk.root_valid hs hlen) ?_
    intro rc w2 hw2
    rw [if_pos Disk.root_on_device, hv] at hw2
    refine wp_bind (kfree_spec D p) ?_
    intro _ w3 hv3
    exact wp_pure (.inr ⟨by simp, k, hk, rfl, hv3.trans hw2.2⟩)

theorem Resized.listed_once {v v' : Vol} {f size : ℕ} (h : Resized D v v' f size) (hs : size < 2 ^ 64)
    (hn : Once f (D.firsts v)) : D.listed v' = (D.listed v).map (Dirent.resize f size) := by
  obtain ⟨k, hk, rfl, rfl⟩ := h
  rw [Disk.listed, Disk.dir_setData, dirEntries_resize hk hs hn]
  rfl

theorem Resized.listed {v v' : Vol} {f size : ℕ} (h : Resized D v v' f size) (hs : size < 2 ^ 64)
    (hn : (D.firsts v).Nodup) : D.listed v' = (D.listed v).map (Dirent.resize f size) :=
  h.listed_once hs (once_of_nodup hn f)

theorem Resized.fat {v v' : Vol} {f size : ℕ} (h : Resized D v v' f size) : v'.fat = v.fat := by
  obtain ⟨k, -, -, rfl⟩ := h
  rfl

theorem Resized.data {v v' : Vol} {f size c : ℕ} (h : Resized D v v' f size) (hc : c ≠ D.fs.rootDirCluster) :
    v'.data c = v.data c := by
  obtain ⟨k, -, -, rfl⟩ := h
  exact Function.update_of_ne hc _ _

end Update

section Create

def Created (D : Disk σ) (v v' : Vol) (name : List UInt8) (cl : ℕ) : Prop :=
  32 * (endSlot (D.dir v) + (2 + nameEntries name)) ≤ D.fs.clusterSize ∧ ∃ v1, Took D v v1 cl ∧
    v' = v1.setData D.fs.rootDirCluster (appendSet (D.dir v) (endSlot (D.dir v)) name cl)

theorem exfatCreate_spec {path : CString} : Wp (exfatCreate D.fs path) w fun r w' =>
    (r = -1 ∧ Kept (D.vol w) (D.vol w') ∧ (AllocOk H → fileName path ≠ [] →
      32 * (endSlot (D.dir (D.vol w)) + (2 + nameEntries (fileName path))) ≤ D.fs.clusterSize →
        ∀ c, D.Valid c → (D.vol w).fat c ≠ 0)) ∨
      (r = 0 ∧ fileName path ≠ [] ∧ ∃ cl, Created D (D.vol w) (D.vol w') (fileName path) cl) := by
  unfold exfatCreate
  dsimp only
  by_cases hname : fileName path = []
  · rw [if_pos hname]
    exact wp_pure (.inl ⟨rfl, Kept.refl _, fun _ h => absurd hname h⟩)
  rw [if_neg hname]
  refine wp_bind (loadRoot_spec D) ?_
  rintro (_ | ⟨p, dir⟩) w1 ⟨hv, hdir, hok⟩
  · exact wp_pure (.inl ⟨rfl, hv ▸ Kept.refl _, fun ha _ hfit => absurd rfl (hok ha (by omega))⟩)
  obtain ⟨rfl, hs⟩ := hdir p dir rfl
  have hlen := D.dir_length w
  rw [show (D.vol w).data D.fs.rootDirCluster = D.dir (D.vol w) from rfl]
  dsimp only
  generalize hroot : D.dir (D.vol w) = dir at hlen ⊢
  rw [show findEnd dir (dir.length / 32) (dir.length / 32) 0 = endSlot dir from rfl]
  by_cases hfit : D.fs.clusterSize < 32 * (endSlot dir + (2 + nameEntries (fileName path)))
  · rw [if_pos hfit]
    refine wp_bind (kfree_spec D p) ?_
    intro _ w2 hv2
    exact wp_pure (.inl ⟨rfl, hv2.trans hv ▸ Kept.refl _, fun _ _ h => absurd h (by omega)⟩)
  rw [if_neg hfit]
  refine wp_bind fatAlloc_spec ?_
  rw [hv]
  rintro cl w2 (⟨rfl, hk, hfull⟩ | ht)
  · rw [if_pos rfl]
    refine wp_bind (kfree_spec D p) ?_
    intro _ w3 hv3
    exact wp_pure (.inl ⟨rfl, hv3 ▸ hk, fun ha _ h => hfull ha (by omega)⟩)
  · rw [if_neg ht.ne_zero]
    rw [← appendSet_eq hlen]
    refine wp_bind (Disk.writeCluster_spec Disk.root_valid hs (by rw [length_appendSet, hlen])) ?_
    intro rc w3 hw3
    rw [if_pos Disk.root_on_device] at hw3
    obtain ⟨rfl, hv3⟩ := hw3
    refine wp_bind (kfree_spec D p) ?_
    intro _ w4 hv4
    refine wp_pure (.inr ⟨rfl, hname, cl, ?_⟩)
    rw [Created, hroot]
    exact ⟨by omega, _, ht, hv4.trans hv3⟩

end Create

section Unlink

variable {f : ℕ} {l : List ℕ}

structure Freed (v v' : Vol) (l : List ℕ) : Prop where
  data : v'.data = v.data
  free : ∀ c ∈ l, v'.fat c = 0
  fat : ∀ c, c ∉ l → v'.fat c = v.fat c

omit [KernelAlloc H] in
theorem freeChain_spec {fuel i cl : ℕ} {fat : ℕ → ℕ} (hc : IsChain D fat f l) (hi : l[i]? = some cl)
    (hfuel : l.length ≤ i + fuel) (hag : ∀ c ∈ l.drop i, (D.vol w).fat c = fat c) :
    Wp (freeChain D.fs fuel cl) w fun _ w' => Freed (D.vol w) (D.vol w') (l.drop i) := by
  obtain ⟨hlt, hcl⟩ := List.getElem?_eq_some_iff.mp hi
  induction fuel generalizing i cl w with
  | zero => omega
  | succ fuel ih =>
    have hvalid := hc.valid cl (List.mem_of_getElem? hi)
    have hcl2 := hvalid.1
    have hdrop : l.drop i = cl :: l.drop (i + 1) := by rw [List.drop_eq_getElem_cons hlt, hcl]
    have hnot : cl ∉ l.drop (i + 1) := by
      have hnd := hc.linked.nodup.sublist (List.drop_sublist i l)
      rw [hdrop] at hnd
      exact (List.nodup_cons.mp hnd).1
    have hnext : (D.vol w).fat cl = (l[i + 1]?).getD eoc := by
      rw [hag cl (by rw [hdrop]; exact List.mem_cons_self), hc.linked.next_eq hi]
    rw [freeChain, if_neg (by omega)]
    refine wp_bind (Disk.fatGet_spec hvalid.2) ?_
    rintro _ w ⟨rfl, rfl⟩
    refine wp_bind (Disk.fatSet_spec hvalid.2 (by decide)) ?_
    rintro _ w1 ⟨rfl, hv1⟩
    have hself : (D.vol w1).fat cl = 0 := by rw [hv1]; exact Function.update_self ..
    have hother : ∀ c, c ≠ cl → (D.vol w1).fat c = (D.vol w).fat c := fun c hne => by
      rw [hv1]
      exact Function.update_of_ne hne _ _
    rw [hnext, hdrop]
    cases hn : l[i + 1]? with
    | none =>
      rw [Option.getD_none, if_pos (.inr rfl), List.drop_of_length_le (List.getElem?_eq_none_iff.mp hn)]
      refine wp_pure ⟨by rw [hv1]; rfl, by simpa using hself, fun c hcm => hother c ?_⟩
      simpa using hcm
    | some d =>
      have hd := hc.valid d (List.mem_of_getElem? hn)
      have hd2 := hd.1
      obtain ⟨hlt', hd'⟩ := List.getElem?_eq_some_iff.mp hn
      rw [Option.getD_some, if_neg (by rintro (h | h); omega; exact hd.ne_eoc h)]
      have hag' : ∀ c ∈ l.drop (i + 1), (D.vol w1).fat c = fat c := fun c hcm => by
        have hne : c ≠ cl := fun e => hnot (e ▸ hcm)
        rw [hother c hne, hag c (by rw [hdrop]; exact List.mem_cons_of_mem _ hcm)]
      refine (ih hn (by omega) hag' hlt' hd').mono ?_
      intro _ w2 hfreed
      refine ⟨by rw [hfreed.data, hv1]; rfl, fun c hcm => ?_, fun c hcm => ?_⟩
      · rcases List.mem_cons.mp hcm with rfl | hcm
        · rw [hfreed.fat c hnot, hself]
        · exact hfreed.free c hcm
      · obtain ⟨hne, hcm⟩ := not_or.mp (List.mem_cons.not.mp hcm)
        rw [hfreed.fat c hcm, hother c hne]

def Unlinked (D : Disk σ) (v v' : Vol) (ch : ℕ → List ℕ) (name : List UInt8) : Prop :=
  ∃ k j, IsFile (D.dir v) k ∧ unlinkName (D.dir v) k = (name, j) ∧
    ∃ v1, Freed v v1 (ch (streamFirst (D.dir v) k)) ∧
      v' = v1.setData D.fs.rootDirCluster (eraseSet (D.dir v) k j)

theorem exfatUnlink_of_chain (path : CString) {fuel : ℕ} {ch : ℕ → List ℕ}
    (hchain : ∀ k, IsFile (D.dir (D.vol w)) k → (unlinkName (D.dir (D.vol w)) k).1 = fileName path →
      IsChain D (D.vol w).fat (streamFirst (D.dir (D.vol w)) k) (ch (streamFirst (D.dir (D.vol w)) k)))
    (hfuel : D.fs.entries ≤ fuel) : Wp (exfatUnlink fuel D.fs path) w fun r w' =>
      (r = -1 ∧ D.vol w' = D.vol w ∧ (AllocOk H → 0 < D.fs.clusterSize → fileName path ≠ [] →
        ∀ k, IsFile (D.dir (D.vol w)) k → (unlinkName (D.dir (D.vol w)) k).1 ≠ fileName path)) ∨
      (r = 0 ∧ Unlinked D (D.vol w) (D.vol w') ch (fileName path)) := by
  unfold exfatUnlink
  dsimp only
  by_cases hname : fileName path = []
  · rw [if_pos hname]
    exact wp_pure (.inl ⟨rfl, rfl, fun _ _ h => absurd hname h⟩)
  rw [if_neg hname]
  refine wp_bind (loadRoot_spec D) ?_
  rintro (_ | ⟨p, dir⟩) w1 ⟨hv, hdir, hok⟩
  · exact wp_pure (.inl ⟨rfl, hv, fun ha hs => absurd rfl (hok ha hs)⟩)
  obtain ⟨rfl, hs⟩ := hdir p dir rfl
  have hlen := D.dir_length w
  rw [show (D.vol w).data D.fs.rootDirCluster = D.dir (D.vol w) from rfl]
  dsimp only
  rw [show (D.dir (D.vol w)).length / 32 = slotCount (D.dir (D.vol w)) from rfl]
  cases hfind : findByName (D.dir (D.vol w)) (slotCount (D.dir (D.vol w))) (fileName path)
      (slotCount (D.dir (D.vol w))) 0 with
  | none =>
    refine wp_bind (kfree_spec D p) ?_
    intro _ w2 hv2
    exact wp_pure (.inl ⟨rfl, hv2.trans hv, fun _ _ _ k hk => findByName_eq_none (by simp) hfind (Nat.zero_le k) hk⟩)
  | some kj =>
    obtain ⟨k, j⟩ := kj
    obtain ⟨hk, hkj⟩ := findByName_eq_some (by simp) hfind
    have hc := hchain k hk (by rw [hkj])
    have hshort := hc.length_lt
    refine wp_bind (freeChain_spec hc hc.head (by omega) fun c _ => by rw [hv]) ?_
    intro _ w2 hfreed
    rw [List.drop_zero, hv] at hfreed
    refine wp_bind (Disk.writeCluster_spec Disk.root_valid hs (by rw [length_overlay, hlen])) ?_
    intro rc w3 hw3
    rw [if_pos Disk.root_on_device] at hw3
    obtain ⟨rfl, hv3⟩ := hw3
    refine wp_bind (kfree_spec D p) ?_
    intro _ w4 hv4
    exact wp_pure (.inr ⟨rfl, k, j, hk, hkj, _, hfreed, hv4.trans hv3⟩)

theorem exfatUnlink_spec (path : CString) {fuel : ℕ} {ch : ℕ → List ℕ}
    (ho : Owns D (D.vol w).fat (D.firsts (D.vol w)) ch) (hfuel : D.fs.entries ≤ fuel) :
    Wp (exfatUnlink fuel D.fs path) w fun r w' =>
      (r = -1 ∧ D.vol w' = D.vol w ∧ (AllocOk H → 0 < D.fs.clusterSize → fileName path ≠ [] →
        ∀ k, IsFile (D.dir (D.vol w)) k → (unlinkName (D.dir (D.vol w)) k).1 ≠ fileName path)) ∨
      (r = 0 ∧ Unlinked D (D.vol w) (D.vol w') ch (fileName path)) :=
  exfatUnlink_of_chain path (fun _ hk _ => ho.chain _ hk.first_mem) hfuel

end Unlink

section Write

variable {l : List ℕ}

/-- What a write that succeeds leaves behind: the entry of the file has the size of the handle and,
when every cluster is on the device, the bytes are in place along a chain that is long enough. -/
structure Wrote (D : Disk σ) (v v' : Vol) (f : ℕ) (l : List ℕ) (off : ℕ) (buf : List UInt8) (size : ℕ) : Prop where
  fits : off + buf.length < 2 ^ 64
  stored : ∃ l' v1, Touched D v v1 f l l' ∧ (v' = v1 ∧ f ∉ D.firsts v1 ∨ Resized D v1 v' f size) ∧
    ((∀ c, D.Valid c → D.On c) → ∃ v0, Grown D v v0 f l l' ∧
      off + buf.length ≤ D.fs.clusterSize * l'.length ∧ Stored v0 v1 l' off buf)

theorem toInt_eq_iff {n : ℕ} : toInt n = n ↔ n < 2 ^ 31 := by
  unfold toInt
  split_ifs <;> omega

theorem le_mul_ceil {a s : ℕ} (hs : 0 < s) : a ≤ s * ((a + s - 1) / s) := by
  have h1 := Nat.div_add_mod (a + s - 1) s
  have h2 := Nat.mod_lt (a + s - 1) hs
  generalize s * ((a + s - 1) / s) = x at *
  omega

theorem ceil_le {a s n : ℕ} (hs : 0 < s) (h : a ≤ s * n) : (a + s - 1) / s ≤ n := by
  refine Nat.le_of_lt_succ (Nat.div_lt_of_lt_mul ?_)
  rw [Nat.mul_succ]
  omega

theorem Disk.clusterSize_lt (D : Disk σ) : D.fs.clusterSize < 2 ^ 17 := by
  have h1 := D.size_eq
  have h2 := D.spc_lt
  omega

theorem IsChain.byte_lt {fat : ℕ → ℕ} {f n : ℕ} (h : IsChain D fat f l) (hn : n ≤ D.fs.clusterSize * l.length) :
    n < 2 ^ 48 := by
  have h1 := h.length_lt
  have h2 := Disk.entries_lt (D := D)
  have h3 := D.clusterSize_lt
  have h4 : D.fs.clusterSize * l.length ≤ 2 ^ 17 * 2 ^ 30 := Nat.mul_le_mul (by omega) (by omega)
  omega

theorem needed_eq (off len : ℕ) {csz : ℕ} (hs : 0 < csz) (hcsz : csz < 2 ^ 17) (h : off + len < 2 ^ 63) :
    ((off + len) % 2 ^ 64 + csz + (2 ^ 64 - 1)) % 2 ^ 64 / csz = (off + len + csz - 1) / csz := by
  have hwrap : ((off + len) % 2 ^ 64 + csz + (2 ^ 64 - 1)) % 2 ^ 64 = off + len + csz - 1 := by omega
  rw [hwrap]

/-- `exfat_write` through a handle of a file that has a chain: what holds whatever fails, what a
success means, and a case in which it succeeds. -/
theorem exfatWrite_spec (off : ℕ) {fuel : ℕ} {node : Node} {buf : List UInt8}
    (hc : IsChain D (D.vol w).fat node.firstCluster l) (hroot : (D.vol w).fat D.fs.rootDirCluster ≠ 0)
    (hfuel : D.fs.entries ≤ fuel) (hfile : node.isDir = false) (hs : 0 < D.fs.clusterSize)
    (hsize : node.size < 2 ^ 64) (hbuf : buf ≠ []) :
    Wp (exfatWrite fuel D.fs node off buf) w fun r w' =>
      (r.2.firstCluster = node.firstCluster ∧ r.2.size < 2 ^ 64) ∧
      (∃ l' v1, Touched D (D.vol w) v1 node.firstCluster l l' ∧
        (D.vol w' = v1 ∨ ∃ size < 2 ^ 64, Resized D v1 (D.vol w') node.firstCluster size)) ∧
      (AllocOk H → r.1 = buf.length → r.2 = { node with size := max node.size (off + buf.length) } ∧
        Wrote D (D.vol w) (D.vol w') node.firstCluster l off buf (max node.size (off + buf.length))) ∧
      (AllocOk H → (∀ c, D.Valid c → D.On c) → buf.length < 2 ^ 31 →
        off + buf.length ≤ D.fs.clusterSize * l.length → r.1 = buf.length) := by
  have hf := (hc.valid _ hc.first_mem).1
  have hfail : (-1 : ℤ) ≠ buf.length := by omega
  have hpos := List.length_pos_iff.mpr hbuf
  have hcsz := D.clusterSize_lt
  unfold exfatWrite
  rw [hfile, if_neg (by decide), if_neg hbuf, if_neg (by omega)]
  dsimp only
  have hneeded := needed_eq off buf.length hs hcsz
  have hend : off + buf.length < 2 ^ 63 → (off + buf.length) % 2 ^ 64 = off + buf.length := by omega
  have hlt : (off + buf.length) % 2 ^ 64 < 2 ^ 64 := Nat.mod_lt _ (Nat.two_pow_pos 64)
  generalize (off + buf.length) % 2 ^ 64 = endPos at *
  generalize (endPos + D.fs.clusterSize + (2 ^ 64 - 1)) % 2 ^ 64 / D.fs.clusterSize = needed at *
  -- a chain that has room for the bytes has as many clusters as are asked for
  have hroom : off + buf.length ≤ D.fs.clusterSize * l.length → needed ≤ l.length := fun hfit => by
    have := hc.byte_lt hfit
    rw [hneeded (by omega)]
    exact ceil_le hs hfit
  refine wp_bind (ensureChainLength_spec hc hroot hfuel) ?_
  rintro ⟨r1, first⟩ w1 ⟨rfl, ⟨l1, hg1, hr1⟩, hstay⟩
  dsimp only at hr1 hstay ⊢
  rcases hr1 with rfl | ⟨hr1, hlen1⟩
  · rw [if_pos rfl]
    exact wp_pure ⟨⟨rfl, hsize⟩, ⟨l1, _, hg1.toTouched, .inl rfl⟩, fun _ h => absurd h hfail,
      fun _ _ _ hfit => absurd rfl (hstay (hroom hfit))⟩
  rw [if_neg hr1]
  have hfit1 : off + buf.length < 2 ^ 63 → off + buf.length ≤ D.fs.clusterSize * l1.length := fun h => by
    refine (le_mul_ceil hs).trans (Nat.mul_le_mul_left _ ?_)
    rw [hlen1, ← hneeded h]
    exact Nat.le_max_right _ _
  refine wp_bind (writeSkip_spec hg1.chain hg1.chain.head (hg1.fat_ne_zero hroot)) ?_
  rintro cl w2 ⟨l2, hg2, hcl, hlong⟩
  rw [Nat.zero_add] at hcl hlong
  replace hlong := fun h => hlong (Nat.div_lt_of_lt_mul ((Nat.lt_add_of_pos_right hpos).trans_le (hfit1 h)))
  have hg := hg1.trans hg2
  rcases hcl with rfl | ⟨hcl, hcl2⟩
  · rw [if_pos rfl]
    refine wp_pure ⟨⟨rfl, hsize⟩, ⟨l2, _, hg.toTouched, .inl rfl⟩, fun _ h => absurd h hfail, fun _ _ _ hfit => ?_⟩
    have := hc.byte_lt hfit
    exact absurd rfl (hlong (by omega)).1
  rw [if_neg hcl]
  refine wp_bind (writeLoop_spec hg.chain hcl2 (Nat.mod_lt _ hs) (le_refl _) (hg.fat_ne_zero hroot)) ?_
  rintro ok w3 ⟨l3, ht3, hstored⟩
  rw [Nat.div_add_mod] at hstored
  have hon2 : (∀ c, D.Valid c → D.On c) → ∀ c ∈ l2, D.On c := fun hon c hc => hon c (hg.chain.valid c hc)
  by_cases hbad : ok = false
  · rw [if_pos hbad]
    refine wp_pure ⟨⟨rfl, hsize⟩, ⟨l3, _, hg.toTouched.trans ht3, .inl rfl⟩, fun _ h => absurd h hfail,
      fun ha hon _ hfit => ?_⟩
    have hsmall := hc.byte_lt hfit
    obtain ⟨-, rfl, rfl⟩ := hlong (by omega)
    exact absurd (hbad.symm.trans (hstored ha (hon2 hon) (hfit1 (by omega))).1) (by decide)
  rw [if_neg hbad, if_pos (by omega)]
  refine wp_bind (dirUpdate_spec _ _) ?_
  intro _ w4 hupd
  refine wp_pure ⟨⟨rfl, max_lt hsize hlt⟩, ⟨l3, _, hg.toTouched.trans ht3, ?_⟩, fun ha hlen => ?_,
    fun _ _ hlen _ => toInt_eq_iff.mpr hlen⟩
  · exact hupd.imp And.left fun h => ⟨_, max_lt hsize hlt, h.2⟩
  -- the chain reaches the offset, so nothing has wrapped around
  have hlen' := toInt_eq_iff.mp hlen
  have hblock := (List.getElem?_eq_some_iff.mp hcl2).1
  have hoff := hg.chain.byte_lt (Nat.mul_le_mul_left D.fs.clusterSize hblock.le)
  have hmod := Nat.div_add_mod off D.fs.clusterSize
  have hrest := Nat.mod_lt off hs
  have hsmall : off + buf.length < 2 ^ 63 := by omega
  obtain ⟨-, rfl, rfl⟩ := hlong hsmall
  rw [hend hsmall] at hupd ⊢
  refine ⟨rfl, by omega, l3, _, hg1.toTouched.trans ht3, ?_, fun hon => ?_⟩
  · exact hupd.imp (fun h => ⟨h.1, h.2 (ha _ _ hs) (by omega)⟩) And.right
  · obtain ⟨-, rfl, hst⟩ := hstored ha (hon2 hon) (hfit1 hsmall)
    exact ⟨_, hg1, hfit1 hsmall, hst⟩

theorem exfatWrite_count (fuel : ℕ) (fs : Fs σ) (node : Node) (off : ℕ) (buf : List UInt8) (w : World σ H) :
    Ends (exfatWrite fuel fs node off buf) w (fun _ => True) fun r _ =>
      r.1 = -1 ∨ r.1 = toInt buf.length := by
  unfold exfatWrite
  split
  · exact .inl rfl
  split
  case isTrue hnil =>
    right
    rw [hnil]
    rfl
  split
  · trivial
  apply ends_bind (ends_true _ _)
  intro r w1 _
  dsimp only
  split
  · exact .inl rfl
  apply ends_bind (ends_true _ _)
  intro cl w2 _
  split
  · exact .inl rfl
  apply ends_bind (ends_true _ _)
  intro ok w3 _
  split
  · exact .inl rfl
  apply ends_bind (ends_true _ _)
  intro _ w4 _
  exact .inr rfl

end Write

end DexOs.Exfat
