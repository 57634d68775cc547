import DexOs.ExfatConfinement
import DexOs.ExfatRootCluster
import DexOs.ExfatStore
import DexOs.Lib.Frames

/-! Mounting a volume again. The driver keeps a volume nowhere but on its device, and leaves the sectors before the FAT
as they are. -/

namespace DexOs.Exfat

open DexOs.Lib Relation

variable {σ H : Type} {S : SectorStore σ} {cl val off len n : ℕ} {path : CString}

def SameBoot (S : SectorStore σ) (w w' : World σ H) : Prop := ∀ i < 65536, S.view w'.dev i = S.view w.dev i

instance : Std.Refl (SameBoot (H := H) S) := ⟨fun _ _ _ => rfl⟩

instance : IsTrans (World σ H) (SameBoot S) := ⟨fun _ _ _ h h' i hi => (h' i hi).trans (h i hi)⟩

theorem sameBoot_of_dev {w w' : World σ H} (h : w'.dev = w.dev) : SameBoot S w w' := fun _ _ => by rw [h]

theorem sameBoot_of_tame {w w' : World σ H} (h : Tame S w.dev w'.dev) : SameBoot S w w' := (heapOnly_of_steps h.steps).low

theorem within_stop {α : Type} (e : Fault) : Within (SameBoot S) (stop e : Io σ H α) := fun _ _ _ h => by cases h

section Programs

variable [KernelAlloc H]

theorem kmalloc_within : Within (SameBoot S) (kmalloc n : Io σ H _) :=
  within_of_wp fun _ => (kmalloc_dev n).mono fun _ _ h => sameBoot_of_dev h

theorem kfree_within : Within (SameBoot S) (kfree n : Io σ H _) :=
  within_of_wp fun _ => (kfree_dev n).mono fun _ _ h => sameBoot_of_dev h

theorem loadRoot_boot (w : World σ H) : Wp (loadRoot (fallbackFs S.dev)) w fun r w' =>
    SameBoot S w w' ∧ ∀ p dir, r = some (p, dir) → dir.length = 512 := by
  apply loadRoot_traced.mono
  rintro r w' ⟨hdev, hdir⟩
  refine ⟨sameBoot_of_dev hdev, fun p dir hr => ?_⟩
  rw [(hdir p dir hr).2, length_peek]

theorem dirScanRoot_within : Within (SameBoot S) (dirScanRoot (fallbackFs S.dev) n : Io σ H _) := by
  apply within_bind_of loadRoot_boot
  rintro (_ | ⟨p, dir⟩) -
  · exact within_pure _
  · apply kfree_within.bind
    intro _
    exact within_pure _

theorem exfatOpen_within : Within (SameBoot S) (exfatOpen (fallbackFs S.dev) path : Io σ H _) := by
  apply kmalloc_within.bind
  rintro (_ | n)
  · exact within_pure _
  apply kmalloc_within.bind
  rintro (_ | vn)
  · apply kfree_within.bind
    intro _
    exact within_pure _
  dsimp only
  split_ifs
  · exact within_pure _
  apply dirScanRoot_within.bind
  intro ents
  split
  · exact within_pure _
  · apply kfree_within.bind
    intro _
    apply kfree_within.bind
    intro _
    exact within_pure _

theorem exfatStat_within : Within (SameBoot S) (exfatStat (fallbackFs S.dev) path : Io σ H _) := by
  unfold exfatStat
  split_ifs
  · exact within_pure _
  apply dirScanRoot_within.bind
  intro ents
  exact within_pure _

omit [KernelAlloc H] in
theorem fatGet_within : Within (SameBoot S) (fatGet (fallbackFs S.dev) cl : Io σ H _) :=
  within_of_wp fun _ => fatGet_sector.mono fun _ _ h => sameBoot_of_dev (congrArg World.dev h.2)

omit [KernelAlloc H] in
theorem readCluster_within : Within (SameBoot S) (readCluster (fallbackFs S.dev) cl : Io σ H _) :=
  within_of_wp fun _ => readCluster_sector.mono fun _ _ h => sameBoot_of_dev (congrArg World.dev h.1)

omit [KernelAlloc H] in
theorem readSkip_within (k : ℕ) : Within (SameBoot S) (readSkip (fallbackFs S.dev) k cl : Io σ H _) := by
  induction k generalizing cl with
  | zero => exact within_pure _
  | succ k ih =>
    apply fatGet_within.bind
    intro next
    split_ifs
    · exact within_pure _
    · exact ih

theorem readLoop_within {skip : ℕ} :
    Within (SameBoot S) (readLoop (fallbackFs S.dev) n cl skip len : Io σ H _) := by
  induction n generalizing cl skip len with
  | zero =>
    unfold readLoop
    split_ifs
    · exact within_pure _
    · exact within_stop _
  | succ n ih =>
    unfold readLoop
    split_ifs
    · exact within_pure _
    apply kmalloc_within.bind
    rintro (_ | p)
    · exact within_pure _
    dsimp only
    apply readCluster_within.bind
    rintro (_ | tmp)
    · apply kfree_within.bind
      intro _
      exact within_pure _
    dsimp only
    apply kfree_within.bind
    intro _
    split_ifs
    · exact within_pure _
    apply fatGet_within.bind
    intro next
    split_ifs
    · exact within_pure _
    apply ih.bind
    intro rest
    exact within_pure _

theorem exfatRead_within {node : Node} : Within (SameBoot S) (exfatRead (fallbackFs S.dev) node off len : Io σ H _) := by
  unfold exfatRead
  split_ifs
  · exact within_pure _
  · exact within_pure _
  · exact within_stop _
  dsimp only
  apply (readSkip_within _).bind
  intro cl
  apply readLoop_within.bind
  intro out
  exact within_pure _

omit [KernelAlloc H] in
theorem fatSet_within : Within (SameBoot S) (fatSet (fallbackFs S.dev) cl val : Io σ H _) := by
  apply within_of_wp
  intro _
  apply fatSet_sector.mono
  rintro _ _ (⟨hon, -, rfl⟩ | ⟨-, -, rfl⟩)
  · intro i hi
    rw [view_fatPut hon, poke, if_neg (by omega)]
  · exact sameBoot_of_dev rfl

omit [KernelAlloc H] in
theorem writeRoot_within {dir : List UInt8} (hlen : dir.length = 512) : Within (SameBoot S)
    (writeCluster (fallbackFs S.dev) (fallbackFs S.dev).rootDirCluster dir : Io σ H _) :=
  within_of_wp fun _ => (writeRoot_traced hlen).mono fun _ _ h => sameBoot_of_tame h

theorem exfatCreate_within : Within (SameBoot S) (exfatCreate (fallbackFs S.dev) path : Io σ H _) := by
  unfold exfatCreate
  dsimp only
  split_ifs with hname
  · exact within_pure _
  apply within_bind_of loadRoot_boot
  rintro (_ | ⟨p, dir⟩) hdir
  · exact within_pure _
  have hlen := hdir p dir rfl
  dsimp only
  split
  · apply kfree_within.bind
    intro _
    exact within_pure _
  apply (within_of_wp fun _ => fatAlloc_traced.mono fun _ _ h => sameBoot_of_tame h.1).bind
  intro cl
  split
  · apply kfree_within.bind
    intro _
    exact within_pure _
  apply (writeRoot_within (by split_ifs <;> simp [hlen])).bind
  intro rc
  apply kfree_within.bind
  intro _
  exact within_pure _

omit [KernelAlloc H] in
theorem freeChain_within (fuel : ℕ) : Within (SameBoot S) (freeChain (fallbackFs S.dev) fuel cl : Io σ H _) := by
  induction fuel generalizing cl with
  | zero => exact within_stop _
  | succ fuel ih =>
    unfold freeChain
    split_ifs
    · exact within_pure _
    apply fatGet_within.bind
    intro next
    apply fatSet_within.bind
    intro _
    split_ifs
    · exact within_pure _
    · exact ih

theorem exfatUnlink_within {fuel : ℕ} : Within (SameBoot S) (exfatUnlink fuel (fallbackFs S.dev) path : Io σ H _) := by
  unfold exfatUnlink
  dsimp only
  split_ifs
  · exact within_pure _
  apply within_bind_of loadRoot_boot
  rintro (_ | ⟨p, dir⟩) hdir
  · exact within_pure _
  have hlen := hdir p dir rfl
  dsimp only
  split
  · apply kfree_within.bind
    intro _
    exact within_pure _
  apply (freeChain_within _).bind
  intro _
  apply (writeRoot_within (by simp [hlen])).bind
  intro rc
  apply kfree_within.bind
  intro _
  exact within_pure _

end Programs

section Chains

variable {hS : 1153 ≤ S.sectors} {w : World σ H} {f c : ℕ} {l : List ℕ} {s : FileStore} {node : Node}

theorem fatOf_valid (hc : InHeap c) : ((fallbackDisk S hS).vol w).fat c = fatOf S w.dev c := by
  have hlt : c < (fallbackDisk S hS).fs.entries := hc.2.trans_eq (fallbackFs_entries S.dev).symm
  rw [Disk.vol, Disk.volOf_fat _ hlt, fatOf, if_pos (hc.fatSector_lt.trans (by omega)), hc.entryOf]
  rfl

theorem inHeap_of_valid (hc : (fallbackDisk S hS).Valid c) : InHeap c := ⟨hc.1, hc.2.trans_eq (fallbackFs_entries S.dev)⟩

theorem inside_of_chain (h : IsChain (fallbackDisk S hS) ((fallbackDisk S hS).vol w).fat f l) : Inside S w.dev f := by
  have hchain (d : ℕ) (hd : ReflTransGen (Link S w.dev) f d) :
      OnChain ((fallbackDisk S hS).vol w).fat f d := by
    induction hd with
    | refl => exact ⟨(h.valid f h.first_mem).1, .refl⟩
    | @tail b d _ hlink ih =>
      have hb := inHeap_of_valid (h.valid b (h.mem_of_onChain ih))
      obtain ⟨rfl, h0, he⟩ := hlink
      have hfat : ((fallbackDisk S hS).vol w).fat b = fatOf S w.dev b := fatOf_valid hb
      exact ⟨ih.1, ih.2.tail ⟨hfat, hfat ▸ h0, hfat ▸ he⟩⟩
  exact fun d hd => inHeap_of_valid (h.valid d (h.mem_of_onChain (hchain d hd)))

theorem handle_followable {path : CString} {off : ℕ} {buf : List UInt8}
    (h : Handle (fallbackDisk S hS) ((fallbackDisk S hS).vol w) s path node) :
    (⟨node, off, buf⟩ : WriteCall).Followable S w.dev := by
  cases h with
  | root => exact .inl rfl
  | file hpath ho hfiles hi hf hx hrep =>
    exact .inr (.inr (.inr (inside_of_chain (ho.chain _ (List.mem_map_of_mem (List.mem_of_getElem? hx))))))

end Chains

/-- A request, or unmounting the volume and mounting the device again. -/
inductive Action
  | request (r : Request)
  | remount

def absent : Request → Reply
  | .create _ => .code (-1)
  | .put _ _ _ => .file none
  | .get _ _ _ => .file none
  | .stat _ => .info none
  | .remove _ => .code (-1)

def Action.Short : Action → Prop
  | .request r => r.Short
  | .remount => True

namespace FileStore

def act (s : FileStore) : Action → Reply × FileStore
  | .request r => s.serve r
  | .remount => (.code 0, s)

def actAll : List Action → FileStore → List Reply × FileStore
  | [], s => ([], s)
  | a :: as, s =>
    let first := s.act a
    let rest := actAll as first.2
    (first.1 :: rest.1, rest.2)

end FileStore

section Actions

variable [KernelAlloc H]

def act (fuel : ℕ) (dev : BlockDevice σ) (fs : Option (Fs σ)) : Action → Io σ H (Reply × Option (Fs σ))
  | .request r =>
    match fs with
    | none => pure (absent r, none)
    | some fs => do
      let reply ← serve fuel fs r
      pure (reply, some fs)
  | .remount => do
    let r ← exfatMount dev
    pure (.code (if r.isSome then 0 else -1), r)

def actAll (fuel : ℕ) (dev : BlockDevice σ) : List Action → Option (Fs σ) → Io σ H (List Reply)
  | [], _ => pure []
  | a :: as, fs => do
    let first ← act fuel dev fs a
    let rest ← actAll fuel dev as first.2
    pure (first.1 :: rest)

theorem act_matches {b : BlockDevice σ} (h : SameAnswers Eq b b) (fuel : ℕ) {fs gs : Option (Fs σ)}
    (hfs : Option.Rel (Moved b b) fs gs) (a : Action) :
    Simulates (Both Eq watch) (fun r s => r.1 = s.1 ∧ Option.Rel (Moved b b) r.2 s.2) (act fuel b fs a : Io σ H _)
      (act fuel b gs a) := by
  cases a with
  | request r =>
    cases hfs with
    | none => exact simulates_pure ⟨rfl, .none⟩
    | @some f g hmoved =>
      obtain ⟨rfl, hsized, rfl⟩ := hmoved
      apply Simulates.bind (serve_matches h hsized fuel r)
      rintro reply _ rfl
      exact simulates_pure ⟨rfl, .some ⟨rfl, hsized, rfl⟩⟩
  | remount =>
    apply (exfatMount_simulates h sameRoom_watch).bind
    intro f g hfg
    refine simulates_pure ⟨?_, hfg⟩
    cases hfg <;> rfl

theorem actAll_matches {b : BlockDevice σ} (h : SameAnswers Eq b b) (fuel : ℕ) (as : List Action) {fs gs : Option (Fs σ)}
    (hfs : Option.Rel (Moved b b) fs gs) :
    Matches (Both Eq watch) (actAll fuel b as fs : Io σ H _) (actAll fuel b as gs) := by
  induction as generalizing fs gs with
  | nil => exact matches_pure _
  | cons a as ih =>
    apply (act_matches h fuel hfs a).bind
    rintro ⟨first, fs'⟩ ⟨_, gs'⟩ ⟨rfl, hfs'⟩
    exact (ih hfs').bind fun _ => matches_pure _

variable {hS : 1153 ≤ S.sectors} {w w' : World σ H} {s : FileStore} {fuel : ℕ} {reply : Reply}

omit [KernelAlloc H] in
theorem Unsigned.sameBoot (h : Unsigned S w.dev) (hb : SameBoot S w w') : Unsigned S w'.dev := by
  have hpeek : peek (S.view w'.dev) 3 8 = peek (S.view w.dev) 3 8 := by
    apply List.map_congr_left
    intro i hi
    have hi' := List.mem_range.mp hi
    exact hb _ (by omega)
  rw [Unsigned, hpeek]
  exact h

theorem serve_boot (ha : AllocOk H) (hs : Holds (fallbackDisk S hS) ((fallbackDisk S hS).vol w) s) (r : Request)
    (hrun : serve fuel (fallbackFs S.dev) r w = .ok (reply, w')) : SameBoot S w w' := by
  cases r with
  | create path =>
    exact (exfatCreate_within.bind fun _ => within_pure _) w _ w' hrun
  | put path off buf =>
    obtain ⟨n, w1, hopen, hrest⟩ := bind_ok hrun
    have hboot := exfatOpen_within w _ w1 hopen
    obtain ⟨hv, -, hhandle⟩ := (exfatOpen_handle ha (Nat.succ_pos 511) hs path).post hopen
    cases n with
    | none =>
      cases hrest
      exact hboot
    | some node =>
      obtain ⟨r, w2, hwrite, hend⟩ := bind_ok hrest
      cases hend
      have hfollow : (⟨node, off, buf⟩ : WriteCall).Followable S w1.dev :=
        handle_followable (hv.symm ▸ hhandle node rfl)
      exact IsTrans.trans _ _ _ hboot (exfatWrite_heapOnly hfollow hwrite).low
  | get path off len =>
    refine (exfatOpen_within.bind fun n => ?_) w _ w' hrun
    cases n with
    | none => exact within_pure _
    | some node => exact exfatRead_within.bind fun _ => within_pure _
  | stat path => exact (exfatStat_within.bind fun _ => within_pure _) w _ w' hrun
  | remove path => exact (exfatUnlink_within.bind fun _ => within_pure _) w _ w' hrun

theorem act_holds (ha : AllocOk H) (hfuel : 131072 ≤ fuel) (hsig : Unsigned S w.dev)
    (hs : Holds (fallbackDisk S hS) ((fallbackDisk S hS).vol w) s) (a : Action) (hshort : a.Short) :
    Wp (act fuel S.dev (some (fallbackFs S.dev)) a) w fun r w' =>
      r = ((s.act a).1, some (fallbackFs S.dev)) ∧ Unsigned S w'.dev ∧
        Holds (fallbackDisk S hS) ((fallbackDisk S hS).vol w') (s.act a).2 := by
  cases a with
  | request r =>
    have hent : (fallbackDisk S hS).fs.entries ≤ fuel := (fallbackFs_entries S.dev).trans_le hfuel
    apply wp_bind (serve_holds ha (Nat.succ_pos 511) hent hs r hshort).run
    rintro _ w1 ⟨hrun, rfl, hs1⟩
    exact wp_pure ⟨rfl, hsig.sameBoot (serve_boot ha hs r hrun), hs1⟩
  | remount =>
    apply wp_bind (exfatMount_spec (by omega) hsig)
    rintro r w1 ⟨hdev, -, hok⟩
    obtain rfl := hok ha
    have hv : (fallbackDisk S hS).vol w1 = (fallbackDisk S hS).vol w := by rw [Disk.vol, Disk.vol, hdev]
    exact wp_pure ⟨rfl, hdev ▸ hsig, hv ▸ hs⟩

theorem actAll_holds (ha : AllocOk H) (hfuel : 131072 ≤ fuel) (hsig : Unsigned S w.dev)
    (hs : Holds (fallbackDisk S hS) ((fallbackDisk S hS).vol w) s) (as : List Action) (hshort : ∀ a ∈ as, a.Short) :
    Wp (actAll fuel S.dev as (some (fallbackFs S.dev))) w fun replies w' =>
      replies = (FileStore.actAll as s).1 ∧
        Holds (fallbackDisk S hS) ((fallbackDisk S hS).vol w') (FileStore.actAll as s).2 := by
  induction as generalizing w s with
  | nil => exact wp_pure ⟨rfl, hs⟩
  | cons a as ih =>
    obtain ⟨ha', has⟩ := List.forall_mem_cons.mp hshort
    apply wp_bind (act_holds ha hfuel hsig hs a ha')
    rintro _ w1 ⟨rfl, hsig1, hs1⟩
    apply wp_bind (ih hsig1 hs1 has)
    rintro _ w2 ⟨rfl, hs2⟩
    exact wp_pure ⟨rfl, hs2⟩

theorem mounted_holds (ha : AllocOk H) (hfuel : 131072 ≤ fuel) (hsig : Unsigned S w.dev)
    (hs : Holds (fallbackDisk S hS) ((fallbackDisk S hS).vol w) s) (as : List Action) (hshort : ∀ a ∈ as, a.Short) :
    Wp (actAll fuel S.dev (.remount :: as) none) w fun replies w' =>
      replies = .code 0 :: (FileStore.actAll as s).1 ∧
        Holds (fallbackDisk S hS) ((fallbackDisk S hS).vol w') (FileStore.actAll as s).2 := by
  have hmount : Wp (act fuel S.dev none .remount) w fun r w' => r = (.code 0, some (fallbackFs S.dev)) ∧ w'.dev = w.dev := by
    apply wp_bind (exfatMount_spec (by omega) hsig)
    rintro r w1 ⟨hdev, -, hok⟩
    obtain rfl := hok ha
    exact wp_pure ⟨rfl, hdev⟩
  apply wp_bind hmount
  rintro _ w1 ⟨rfl, hdev⟩
  have hv : (fallbackDisk S hS).vol w1 = (fallbackDisk S hS).vol w := by rw [Disk.vol, Disk.vol, hdev]
  apply wp_bind (actAll_holds ha hfuel (hdev ▸ hsig) (hv.symm ▸ hs) as hshort)
  rintro _ w2 ⟨rfl, hs2⟩
  exact wp_pure ⟨rfl, hs2⟩

end Actions

end DexOs.Exfat
