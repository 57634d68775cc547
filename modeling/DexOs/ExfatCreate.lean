import DexOs.ExfatSpace

/-! What `exfat_create` writes and what `dir_scan_root` reads back: the limits of the two on the names and
on the number of entries are not the same. -/

namespace DexOs.Exfat

open DexOs.Lib

variable {σ H : Type} [KernelAlloc H] {D : Disk σ} {w : World σ H} {path : CString}

def EntryFits (D : Disk σ) (v : Vol) (name : List UInt8) : Prop :=
  32 * (endSlot (D.dir v) + (2 + nameEntries name)) ≤ D.fs.clusterSize

def Allocates (D : Disk σ) (w : World σ H) (cl : ℕ) : Prop :=
  Wp (loadRoot D.fs) w fun _ w1 => Wp (fatAlloc D.fs) w1 fun r _ => r = cl

/-- `exfat_create` returns before it changes the volume: there is no name, no buffer for the directory, no
room in the directory or no free cluster. -/
def Refuses (D : Disk σ) (path : CString) (w : World σ H) : Prop :=
  fileName path = [] ∨ (KernelAlloc.kmalloc w.heap D.fs.clusterSize).1 = none ∨
    ¬ EntryFits D (D.vol w) (fileName path) ∨ D.free (D.vol w) = []

section Spec

theorem exfatCreate_exact : Wp (exfatCreate D.fs path) w fun r w' =>
    (Refuses D path w ∧ r = -1 ∧ D.vol w' = D.vol w) ∨
    (¬ Refuses D path w ∧ r = -1 ∧ Marked D (D.vol w) (D.vol w')) ∨
    (¬ Refuses D path w ∧ r = 0 ∧ ∃ cl, Allocates D w cl ∧ Created D (D.vol w) (D.vol w') (fileName path) cl ∧
      (D.vol w').fat = Function.update (D.vol w).fat cl eoc) := by
  unfold exfatCreate
  dsimp only
  by_cases hname : fileName path = []
  · rw [if_pos hname]
    exact wp_pure (.inl ⟨.inl hname, rfl, rfl⟩)
  rw [if_neg hname]
  apply wp_bind (loadRoot_exact D).run
  rintro r w1 ⟨hload, hv, hr⟩
  cases hbuf : (KernelAlloc.kmalloc w.heap D.fs.clusterSize).1 with
  | none =>
    rw [hr, hbuf]
    exact wp_pure (.inl ⟨.inr (.inl hbuf), rfl, hv⟩)
  | some p =>
    have hlen := D.dir_length w
    rw [hbuf, Option.map_some] at hr
    subst hr
    rw [show (D.vol w).data D.fs.rootDirCluster = D.dir (D.vol w) from rfl]
    dsimp only
    rw [show findEnd (D.dir (D.vol w)) ((D.dir (D.vol w)).length / 32) ((D.dir (D.vol w)).length / 32) 0 =
      endSlot (D.dir (D.vol w)) from rfl]
    by_cases hfit : EntryFits D (D.vol w) (fileName path)
    · rw [if_neg (Nat.not_lt.mpr hfit)]
      have hpos : 0 < D.fs.clusterSize := by
        unfold EntryFits at hfit
        omega
      apply wp_bind (fatAlloc_exact.and fatAlloc_spec).run
      rintro cl w2 ⟨halloc, hexact, hspec⟩
      by_cases hfree : D.free (D.vol w) = []
      · rw [hv, hfree] at hexact
        obtain ⟨rfl, rfl⟩ := hexact
        rw [if_pos rfl]
        apply wp_bind (kfree_spec D p)
        intro _ w3 hv3
        exact wp_pure (.inl ⟨.inr (.inr (.inr hfree)), rfl, hv3.trans hv⟩)
      · have hgo : ¬ Refuses D path w := by
          rintro (h | h | h | h)
          · exact hname h
          · rw [hbuf] at h
            cases h
          · exact h hfit
          · exact hfree h
        have hmark := FatAlloc.marked (hv.symm ▸ hfree) hexact
        rw [hv] at hmark hspec
        rcases hspec with ⟨rfl, -, -⟩ | ht
        · rw [if_pos rfl]
          apply wp_bind (kfree_spec D p)
          intro _ w3 hv3
          exact wp_pure (.inr (.inl ⟨hgo, rfl, hv3 ▸ hmark⟩))
        · rw [if_neg ht.ne_zero]
          rw [← appendSet_eq hlen]
          apply wp_bind (Disk.writeCluster_spec Disk.root_valid (clusterSize_pos D hpos)
            (by rw [length_appendSet, hlen]))
          intro rc w3 hw3
          rw [if_pos Disk.root_on_device] at hw3
          obtain ⟨rfl, hv3⟩ := hw3
          apply wp_bind (kfree_spec D p)
          intro _ w4 hv4
          have hv' : D.vol w4 = _ := hv4.trans hv3
          have hfat : (D.vol w4).fat = (D.vol w2).fat := by
            rw [hv']
            rfl
          refine wp_pure (.inr (.inr ⟨hgo, rfl, cl, ⟨_, w1, hload, cl, w2, halloc, rfl⟩, ⟨hfit, D.vol w2, ht, hv'⟩, ?_⟩))
          rw [hfat, hexact.fat ht.ne_zero, hv]
    · rw [if_pos (Nat.lt_of_not_le hfit)]
      apply wp_bind (kfree_spec D p)
      intro _ w2 hv2
      exact wp_pure (.inl ⟨.inr (.inr (.inl hfit)), rfl, hv2.trans hv⟩)

end Spec

section RoundTrip

omit [KernelAlloc H] in
theorem Created.clusterSize_pos {v v' : Vol} {name : List UInt8} {cl : ℕ} (h : Created D v v' name cl) :
    0 < D.fs.clusterSize := by
  have hfit := h.1
  omega

/-- Whenever `dir_scan_root` gets its buffer, it returns these entries, of which it has room for 32. -/
def Scans (D : Disk σ) (dev : σ) (ents : List Dirent) : Prop :=
  ∀ (G : Type) [KernelAlloc G] (heap : G), (KernelAlloc.kmalloc heap D.fs.clusterSize).1 ≠ none →
    Wp (dirScanRoot D.fs 32) (⟨dev, heap⟩ : World σ G) fun r _ => r = ents

theorem dirScanRoot_exact (hbuf : (KernelAlloc.kmalloc w.heap D.fs.clusterSize).1 ≠ none) :
    Wp (dirScanRoot D.fs 32) w fun r _ => r = (D.listed (D.vol w)).take 32 := by
  obtain ⟨p, hp⟩ := Option.ne_none_iff_exists'.mp hbuf
  unfold dirScanRoot
  apply wp_bind (loadRoot_exact D)
  rintro _ w1 ⟨-, rfl⟩
  rw [hp]
  apply wp_bind (kfree_spec D p)
  intro _ w2 _
  exact wp_pure rfl

omit [KernelAlloc H] in
theorem scans_iff (hpos : 0 < D.fs.clusterSize) {ents : List Dirent} :
    Scans D w.dev ents ↔ ents = (D.listed (D.vol w)).take 32 := by
  constructor
  · intro h
    have hbuf : (KernelAlloc.kmalloc () D.fs.clusterSize).1 ≠ none := allocOk_unit () _ hpos
    obtain ⟨r, w', hrun, hr⟩ := h Unit () hbuf
    exact hr.symm.trans ((dirScanRoot_exact hbuf).post hrun)
  · rintro rfl G _ heap hbuf
    exact dirScanRoot_exact hbuf

/-- A name that `exfat_create` stores is decoded again behind the entries that were there, and a name whose
entry set does not fit changes nothing. -/
theorem create_round_trip (D : Disk σ) (w : World σ H) (path : CString) {ents : List Dirent}
    (hscan : Scans D w.dev ents) (hfew : ents.length < 32) (hshort : (fileName path).length ≤ 63)
    (hascii : ∀ b ∈ fileName path, b < 128) :
    Wp (exfatCreate D.fs path) w fun r w' =>
      (r = 0 → ∃ cl, Allocates D w cl ∧ Scans D w'.dev (ents ++ [⟨cl, 0, false, fileName path⟩])) ∧
      (¬ EntryFits D (D.vol w) (fileName path) →
        r = -1 ∧ (D.vol w').fat = (D.vol w).fat ∧ D.dir (D.vol w') = D.dir (D.vol w)) := by
  apply exfatCreate_exact.mono
  rintro r w' (⟨-, rfl, hv⟩ | ⟨hgo, rfl, -⟩ | ⟨hgo, rfl, cl, halloc, hcreated, -⟩)
  · refine ⟨fun h => absurd h (by decide), fun _ => ⟨rfl, ?_⟩⟩
    rw [hv]
    exact ⟨rfl, rfl⟩
  · exact ⟨fun h => absurd h (by decide), fun hno => absurd (.inr (.inr (.inl hno))) hgo⟩
  · refine ⟨fun _ => ⟨cl, halloc, ?_⟩, fun hno => absurd (.inr (.inr (.inl hno))) hgo⟩
    have hpos := hcreated.clusterSize_pos
    have hents := (scans_iff hpos).mp hscan
    have hall : (D.listed (D.vol w)).length < 32 := by
      rw [hents, List.length_take] at hfew
      omega
    rw [List.take_of_length_le hall.le] at hents
    rw [scans_iff hpos, hcreated.listed (fileName_no_zero path) (D.dir_length w), storedName_eq hshort hascii, ← hents]
    apply (List.take_of_length_le _).symm
    rw [List.length_append, List.length_singleton]
    exact hfew

end RoundTrip

section Findable

def OpenFails (D : Disk σ) (path : CString) (dev : σ) : Prop :=
  ∀ (G : Type) [KernelAlloc G] (heap : G), Wp (exfatOpen D.fs path) (⟨dev, heap⟩ : World σ G) fun r _ => r = none

def OpensAs (D : Disk σ) (path : CString) (dev : σ) (node : Node) : Prop :=
  ∀ (G : Type) [KernelAlloc G], AllocOk G → ∀ heap : G,
    Wp (exfatOpen D.fs path) (⟨dev, heap⟩ : World σ G) fun r _ => r = some node

/-- A new entry with the name can be found again: the directory lists fewer than 32 entries, none of them of
this name, and the decoder keeps the name as it is. -/
def Findable (D : Disk σ) (v : Vol) (name : List UInt8) : Prop :=
  (D.listed v).length < 32 ∧ (∀ x ∈ D.listed v, x.name ≠ name) ∧ name.length ≤ 63 ∧ ∀ b ∈ name, b < 128

/-- The call accepts the path only if nothing had its name and the new entry is found afterwards; a path for
which that cannot be is refused and changes nothing. -/
def AcceptsFindable (D : Disk σ) (path : CString) (w : World σ H) : Prop :=
  Wp (exfatCreate D.fs path) w fun r w' =>
    (r = 0 → OpenFails D path w.dev ∧ ∃ cl, Allocates D w cl ∧ OpensAs D path w'.dev ⟨cl, false, 0⟩) ∧
    (¬ Findable D (D.vol w) (fileName path) →
      r = -1 ∧ (D.vol w').fat = (D.vol w).fat ∧ D.dir (D.vol w') = D.dir (D.vol w))

variable {v v' : Vol}

omit [KernelAlloc H] in
theorem Findable.lookup (h : Findable D v (fileName path)) : D.lookup v path = none := by
  rw [Disk.lookup, List.find?_eq_none]
  intro x hx
  simpa using h.2.1 x (List.mem_of_mem_take hx)

omit [KernelAlloc H] in
theorem Findable.created {cl : ℕ} (h : Findable D v (fileName path)) (hlen : (D.dir v).length = D.fs.clusterSize)
    (hc : Created D v v' (fileName path) cl) : D.lookup v' path = some ⟨cl, 0, false, fileName path⟩ := by
  obtain ⟨hfew, hnew, hshort, hascii⟩ := h
  have hold : (D.listed v).find? (·.name = fileName path) = none := by
    apply List.find?_eq_none.mpr
    intro x hx
    simpa using hnew x hx
  rw [Disk.lookup, hc.listed (fileName_no_zero path) hlen, storedName_eq hshort hascii, List.take_of_length_le,
    List.find?_append, hold]
  · simp
  · rw [List.length_append, List.length_singleton]
    exact hfew

theorem accepts_iff_refuses (hfind : ¬ Findable D (D.vol w) (fileName path)) :
    AcceptsFindable D path w ↔ Refuses D path w := by
  constructor
  · intro hprop
    by_contra hgo
    obtain ⟨r, w', hrun, -, hkeep⟩ := hprop
    obtain ⟨rfl, hfat, -⟩ := hkeep hfind
    rcases exfatCreate_exact.post hrun with ⟨h, -⟩ | ⟨-, -, hmark⟩ | ⟨-, h, -⟩
    · exact hgo h
    · exact hmark.fat_ne hfat
    · exact absurd h (by decide)
  · intro hrefuse
    apply exfatCreate_exact.mono
    rintro r w' (⟨-, rfl, hv⟩ | ⟨hgo, -⟩ | ⟨hgo, -⟩)
    · refine ⟨fun h => absurd h (by decide), fun _ => ⟨rfl, ?_⟩⟩
      rw [hv]
      exact ⟨rfl, rfl⟩
    · exact absurd hrefuse hgo
    · exact absurd hrefuse hgo

/-- `exfat_create` does so exactly when it refuses the path before it changes anything, or when the name can
be found again: it checks for neither a second entry, nor the length and the bytes of the name, nor the
number of entries. -/
theorem create_findable_iff (D : Disk σ) (w : World σ H) (path : CString) :
    AcceptsFindable D path w ↔ Refuses D path w ∨ Findable D (D.vol w) (fileName path) := by
  unfold AcceptsFindable
  by_cases hfind : Findable D (D.vol w) (fileName path)
  · apply iff_of_true _ (.inr hfind)
    apply exfatCreate_exact.mono
    rintro r w' (⟨-, rfl, -⟩ | ⟨-, rfl, -⟩ | ⟨hgo, rfl, cl, halloc, hcreated, -⟩)
    · exact ⟨fun h => absurd h (by decide), fun h => absurd hfind h⟩
    · exact ⟨fun h => absurd h (by decide), fun h => absurd hfind h⟩
    · have hpath : pathIsRoot path = false := pathIsRoot_of_name fun h => hgo (.inl h)
      have hpos := hcreated.clusterSize_pos
      refine ⟨fun _ => ⟨?_, cl, halloc, ?_⟩, fun h => absurd hfind h⟩
      · intro G _ heap
        apply (exfatOpen_spec hpath).mono
        rintro o w1 ⟨-, rfl | ho, -⟩
        · rfl
        · rw [ho, show D.lookup (D.vol (⟨w.dev, heap⟩ : World σ G)) path = none from hfind.lookup]
          rfl
      · intro G _ ha heap
        apply (exfatOpen_spec hpath).mono
        rintro o w1 ⟨-, -, ho⟩
        have hfound : D.lookup (D.vol (⟨w'.dev, heap⟩ : World σ G)) path = some ⟨cl, 0, false, fileName path⟩ :=
          hfind.created (D.dir_length w) hcreated
        rw [ho ha hpos, hfound]
        rfl
  · rw [or_iff_left hfind]
    exact accepts_iff_refuses hfind

end Findable

section Ram0

theorem ram0Memory_scans : Scans ram0Volume ram0Memory [] := by
  apply (scans_iff (w := (⟨ram0Memory, ()⟩ : World Memory Unit)) (by decide)).mpr
  change [] = (ram0Volume.listed (ram0Volume.volOf (ram0Store.view ram0Memory))).take 32
  decide +kernel

theorem create_round_trip_first :
    Wp (exfatCreate ram0Volume.fs pathA) (⟨ram0Memory, ()⟩ : World Memory Unit) fun r w' =>
      (r = 0 → ∃ cl, Allocates ram0Volume (⟨ram0Memory, ()⟩ : World Memory Unit) cl ∧
        Scans ram0Volume w'.dev ([] ++ [⟨cl, 0, false, [97]⟩])) ∧
      (¬ EntryFits ram0Volume (ram0Volume.vol (⟨ram0Memory, ()⟩ : World Memory Unit)) [97] →
        r = -1 ∧ (ram0Volume.vol w').fat = (ram0Volume.vol (⟨ram0Memory, ()⟩ : World Memory Unit)).fat ∧
          ram0Volume.dir (ram0Volume.vol w') = ram0Volume.dir (ram0Volume.vol (⟨ram0Memory, ()⟩ : World Memory Unit))) :=
  create_round_trip ram0Volume _ pathA ram0Memory_scans (by decide) (by decide) (by decide +kernel)

def pathSlashA : CString := ⟨[47, 97], by decide⟩

theorem leading_slash_is_dropped : Scans ram0Volume ram0Memory [] ∧ pathSlashA.1.length = 2 ∧
    (∀ b ∈ pathSlashA.1, b < 128) ∧
    Wp (exfatCreate ram0Volume.fs pathSlashA) (⟨ram0Memory, ()⟩ : World Memory Unit) fun r w' =>
      r = 0 ∧ ∀ cl, ¬ Scans ram0Volume w'.dev ([] ++ [⟨cl, 0, false, pathSlashA.1⟩]) := by
  refine ⟨ram0Memory_scans, rfl, by decide +kernel, ?_⟩
  have hrun : Wp (exfatCreate ram0Volume.fs pathSlashA) (⟨ram0Memory, ()⟩ : World Memory Unit) fun r w' =>
      decide (r = 0 ∧ ram0Volume.listed (ram0Volume.vol w') = [⟨3, 0, false, [97]⟩]) = true :=
    wp_of_test (by decide +kernel)
  apply hrun.mono
  intro r w' h
  obtain ⟨hr, hlist⟩ := of_decide_eq_true h
  refine ⟨hr, ?_⟩
  intro cl hscan
  rw [scans_iff (by decide), hlist] at hscan
  simp [pathSlashA] at hscan

theorem duplicate_is_accepted :
    Wp (exfatCreate ram0Volume.fs pathA) (⟨ram0Memory, ()⟩ : World Memory Unit) fun r w =>
      r = 0 ∧ ¬ AcceptsFindable ram0Volume pathA w := by
  have hrun : Wp (exfatCreate ram0Volume.fs pathA) (⟨ram0Memory, ()⟩ : World Memory Unit) fun r w =>
      decide (r = 0 ∧ ram0Volume.listed (ram0Volume.vol w) = [⟨3, 0, false, [97]⟩] ∧
        endSlot (ram0Volume.dir (ram0Volume.vol w)) = 3 ∧ (ram0Volume.vol w).fat 4 = 0) = true :=
    wp_of_test (by decide +kernel)
  apply hrun.mono
  intro r w h
  obtain ⟨hr, hlist, hend, hfat⟩ := of_decide_eq_true h
  refine ⟨hr, ?_⟩
  have hfind : ¬ Findable ram0Volume (ram0Volume.vol w) (fileName pathA) := by
    rintro ⟨-, hnew, -⟩
    rw [hlist] at hnew
    exact hnew _ List.mem_cons_self rfl
  rw [accepts_iff_refuses hfind]
  rintro (hname | hbuf | hfit | hfree)
  · exact absurd hname (by decide)
  · exact allocOk_unit w.heap _ (by decide) hbuf
  · rw [EntryFits, hend] at hfit
    exact hfit (by decide)
  · have hmem : 4 ∈ ram0Volume.free (ram0Volume.vol w) := Disk.mem_free.mpr ⟨by decide +kernel, hfat⟩
    rw [hfree] at hmem
    cases hmem

end Ram0

end DexOs.Exfat
