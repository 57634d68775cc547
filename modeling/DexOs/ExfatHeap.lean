import DexOs.Exfat
import DexOs.KernelHeapLedger

/-! What the functions of `exfat.c` hold of the heap: every buffer is freed on every path. -/

namespace DexOs.Exfat

open DexOs.Lib

variable {σ H α β : Type}

structure Proper (d : BlockDevice σ) : Prop where
  read_some : d.read ≠ none
  write_some : d.write ≠ none
  delivers : ∀ read, d.read = some read → ∀ s lba count, (read s lba count).1.2.length ≤ d.sectorSize * count

structure Fs512 (fs : Fs σ) : Prop where
  sector_eq : fs.bdev.sectorSize = 512
  bytes_eq : fs.bytesPerSector = 512
  cluster_eq : fs.clusterSize = 512 * fs.sectorsPerCluster

def Owed (owes : Multiset ℕ → H → Prop) (ps : Multiset ℕ) (w : World σ H) : Prop := owes ps w.heap

def held : Option ℕ → Multiset ℕ
  | none => 0
  | some p => {p}

variable {owes : Multiset ℕ → H → Prop} {E : Fault → Prop}

section Device

variable {d : BlockDevice σ} {fs : Fs σ}

theorem stop_triple {G : Multiset ℕ} {T : α → Multiset ℕ} {Q : α → Prop} {e : Fault} (he : E e) :
    Triple (Owed owes) E G (stop e : Io σ H α) T Q := fun _ _ _ => he

theorem bdevRead_neutral (hE : ¬ Proper d → E .memory) (lba count : ℕ) :
    Neutral (Owed owes) E (bdevRead d lba count : Io σ H _) fun r => Proper d → r.2.length ≤ d.sectorSize * count := by
  intro F w hw
  unfold Ends bdevRead
  cases hread : d.read with
  | none => exact hE fun hp => hp.read_some hread
  | some read => exact ⟨fun hp => hp.delivers read hread _ _ _, hw⟩

theorem bdevWrite_neutral (hE : ¬ Proper d → E .memory) (lba : ℕ) (buf : List UInt8) (count : ℕ) :
    Neutral (Owed owes) E (bdevWrite d lba buf count : Io σ H _) fun _ => True := by
  intro F w hw
  unfold Ends bdevWrite
  cases hwrite : d.write with
  | none => exact hE fun hp => hp.write_some hwrite
  | some write => exact ⟨trivial, hw⟩

variable (hfs : Fs512 fs) (hE : ¬ Proper fs.bdev → E .memory)

include hfs hE

theorem readCluster_neutral (cl : ℕ) :
    Neutral (Owed owes) E (readCluster fs cl : Io σ H _) fun r => ∀ buf, r = some buf → buf.length = fs.clusterSize := by
  unfold readCluster
  apply (bdevRead_neutral hE _ _).bind
  intro r hr
  split
  · split
    case isTrue hlong =>
      apply stop_triple
      apply hE
      intro hp
      have := hr hp
      rw [hfs.sector_eq, ← hfs.cluster_eq] at this
      omega
    case isFalse hfit =>
      apply neutral_pure
      intro buf hbuf
      obtain rfl := Option.some.inj hbuf
      rw [List.length_append, List.length_replicate]
      omega
  · apply neutral_pure
    intro buf hbuf
    cases hbuf

theorem writeCluster_neutral (cl : ℕ) {buf : List UInt8} (hbuf : buf.length = fs.clusterSize) :
    Neutral (Owed owes) E (writeCluster fs cl buf : Io σ H _) fun _ => True := by
  unfold writeCluster
  dsimp only
  rw [if_neg (by rw [hbuf, hfs.sector_eq, hfs.cluster_eq]; exact lt_irrefl _)]
  apply (bdevWrite_neutral hE _ _ _).bind
  intro r _
  exact neutral_pure trivial

omit hE in
theorem fatSlot_some (cl : ℕ) : ∃ sector sectOff, fatSlot fs cl = some (sector, sectOff) := by
  unfold fatSlot
  dsimp only
  rw [hfs.bytes_eq, if_neg (by decide), if_neg (by omega)]
  exact ⟨_, _, rfl⟩

theorem fatGet_neutral (cl : ℕ) : Neutral (Owed owes) E (fatGet fs cl : Io σ H _) fun _ => True := by
  obtain ⟨sector, sectOff, hslot⟩ := fatSlot_some hfs cl
  unfold fatGet
  rw [hslot]
  apply (bdevRead_neutral hE _ _).bind
  intro r _
  exact neutral_pure trivial

theorem fatSet_neutral (cl val : ℕ) : Neutral (Owed owes) E (fatSet fs cl val : Io σ H _) fun _ => True := by
  obtain ⟨sector, sectOff, hslot⟩ := fatSlot_some hfs cl
  unfold fatSet
  rw [hslot]
  apply (bdevRead_neutral hE _ _).bind
  intro r _
  split
  · exact neutral_pure trivial
  · apply (bdevWrite_neutral hE _ _ _).bind
    intro rc _
    exact neutral_pure trivial

theorem readSkip_neutral (k cl : ℕ) : Neutral (Owed owes) E (readSkip fs k cl : Io σ H _) fun _ => True := by
  induction k generalizing cl with
  | zero => exact neutral_pure trivial
  | succ k ih =>
    apply (fatGet_neutral hfs hE _).bind
    intro next _
    split
    · exact neutral_pure trivial
    · exact ih next

theorem chainEnd_neutral (hfuel : E .fuel) (fuel cur count : ℕ) :
    Neutral (Owed owes) E (chainEnd fs fuel cur count : Io σ H _) fun _ => True := by
  induction fuel generalizing cur count with
  | zero => exact stop_triple hfuel
  | succ fuel ih =>
    apply (fatGet_neutral hfs hE _).bind
    intro next _
    split
    · exact neutral_pure trivial
    · exact ih next (count + 1)

theorem freeChain_neutral (hfuel : E .fuel) (fuel cl : ℕ) :
    Neutral (Owed owes) E (freeChain fs fuel cl : Io σ H _) fun _ => True := by
  induction fuel generalizing cl with
  | zero => exact stop_triple hfuel
  | succ fuel ih =>
    unfold freeChain
    split
    · exact neutral_pure trivial
    · apply (fatGet_neutral hfs hE _).bind
      intro next _
      apply (fatSet_neutral hfs hE _ _).bind
      intro _ _
      split
      · exact neutral_pure trivial
      · exact ih next

end Device

section Buffers

variable [KernelAlloc H] (L : HeapLedger owes)

include L

theorem kmalloc_triple (n : ℕ) (G : Multiset ℕ) :
    Triple (Owed owes) E G (kmalloc n : Io σ H _) (fun r => held r + G) fun _ => True := by
  intro F w hw
  refine ⟨trivial, ?_⟩
  change owes (held (KernelAlloc.kmalloc w.heap n).1 + G + F) (KernelAlloc.kmalloc w.heap n).2
  cases hr : (KernelAlloc.kmalloc w.heap n).1 with
  | none =>
    rw [held, zero_add]
    exact L.malloc_none hw hr
  | some p =>
    rw [held, add_assoc]
    exact L.malloc_some hw hr

theorem kfree_triple (p : ℕ) (G : Multiset ℕ) :
    Triple (Owed owes) E ({p} + G) (kfree p : Io σ H _) (fun _ => G) fun _ => True := by
  intro F w hw
  rw [add_assoc] at hw
  exact ⟨trivial, L.free hw⟩

theorem kfree_pure (p : ℕ) {a : α} {T : α → Multiset ℕ} {Q : α → Prop} (hT : T a = 0) (hq : Q a) :
    Triple (Owed owes) E {p} (do kfree p; pure a : Io σ H α) T Q := by
  have h := kfree_triple (σ := σ) (E := E) L p 0
  rw [add_zero] at h
  apply triple_bind h
  intro _ _
  exact triple_pure hT.symm hq

theorem kmalloc_bind {n : ℕ} {f : Option ℕ → Io σ H α} {T : α → Multiset ℕ} {Q : α → Prop}
    (hnone : Triple (Owed owes) E 0 (f none) T Q) (hsome : ∀ p, Triple (Owed owes) E {p} (f (some p)) T Q) :
    Triple (Owed owes) E 0 (kmalloc n >>= f) T Q := by
  apply triple_bind (kmalloc_triple L n 0)
  intro r _
  rw [add_zero]
  cases r with
  | none => exact hnone
  | some p => exact hsome p

theorem open_ends {n m : ℕ} {f : Option ℕ → Io σ H (Option α)} {g : ℕ → Option ℕ → Io σ H (Option α)}
    (hnone : f none = pure none) (hsome : ∀ p, f (some p) = kmalloc m >>= g p)
    (hfree : ∀ p, g p none = do kfree p; pure none)
    (hg : ∀ p q, Triple (Owed owes) E ({p} + {q}) (g p (some q)) (fun r => r.elim 0 fun _ => {p} + {q}) fun _ => True)
    {w : World σ H} (hw : owes 0 w.heap) :
    Ends (kmalloc n >>= f) w E fun r w' => r = none → owes 0 w'.heap := by
  have hlast {G : Multiset ℕ} {x : Io σ H (Option α)} {w' : World σ H} (K : Multiset ℕ)
      (hx : Triple (Owed owes) E G x (fun r => r.elim 0 fun _ => K) fun _ => True) (hw' : Owed owes G w') :
      Ends x w' E fun r w'' => r = none → owes 0 w''.heap := by
    rw [← add_zero G] at hw'
    apply (hx 0 w' hw').mono (fun _ he => he)
    rintro r w'' ⟨-, hr⟩ rfl
    exact hr
  apply ends_bind (kmalloc_triple L n 0 0 w hw)
  rintro r w₁ ⟨-, hw₁⟩
  dsimp only at hw₁
  rw [add_zero, add_zero] at hw₁
  cases r with
  | none =>
    rw [hnone]
    intro _
    exact hw₁
  | some p =>
    rw [hsome]
    rw [← add_zero (held (some p))] at hw₁
    apply ends_bind (kmalloc_triple L m _ 0 w₁ hw₁)
    rintro r w₂ ⟨-, hw₂⟩
    dsimp only at hw₂
    rw [add_zero] at hw₂
    cases r with
    | none =>
      rw [hfree]
      rw [held, zero_add] at hw₂
      exact hlast 0 (kfree_pure L p rfl trivial) hw₂
    | some q =>
      rw [add_comm] at hw₂
      exact hlast _ (hg p q) hw₂

omit L in
theorem exfatMount_fs512 {bdev : BlockDevice σ} {fs : Fs σ} {w₀ w₁ : World σ H}
    (hrun : exfatMount bdev w₀ = .ok (some fs, w₁)) (hbytes : fs.bytesPerSector = 512) : Fs512 fs := by
  have hmount : Ends (exfatMount bdev : Io σ H _) w₀ (fun _ => True)
      fun r _ => ∀ fs, r = some fs → fs.bytesPerSector = 512 → Fs512 fs := by
    unfold exfatMount
    split
    case isTrue =>
      intro fs h
      cases h
    case isFalse hsector =>
      apply ends_bind (ends_true _ _)
      intro r w _
      cases r with
      | none =>
        intro fs h
        cases h
      | some p =>
        apply ends_bind (ends_true _ _)
        intro r w _
        split
        · dsimp only
          split
          · trivial
          · intro fs h hb
            obtain rfl := Option.some.inj h
            dsimp only at hb
            refine ⟨not_not.mp hsector, hb, ?_⟩
            have hspc := (byteAt r.2 109).toNat_lt
            dsimp only
            rw [hb, Nat.mod_eq_of_lt (by omega)]
        · intro fs h _
          obtain rfl := Option.some.inj h
          exact ⟨not_not.mp hsector, rfl, rfl⟩
  exact hmount.post hrun fs rfl hbytes

variable {fs : Fs σ} (hfs : Fs512 fs) (hE : ¬ Proper fs.bdev → E .memory)

include hfs hE

theorem loadRoot_triple : Triple (Owed owes) E 0 (loadRoot fs : Io σ H _) (fun r => held (r.map Prod.fst))
    fun r => ∀ p dir, r = some (p, dir) → dir.length = fs.clusterSize := by
  unfold loadRoot
  apply kmalloc_bind L
  case hnone =>
    refine triple_pure rfl ?_
    intro p dir h
    cases h
  case hsome =>
    intro p
    apply (readCluster_neutral hfs hE _).bind
    intro r hr
    cases r with
    | none =>
      refine kfree_pure L p rfl ?_
      intro p dir h
      cases h
    | some dir =>
      refine triple_pure rfl ?_
      intro p' dir' h
      cases h
      exact hr dir rfl

theorem dirScanRoot_neutral (maxEnts : ℕ) :
    Neutral (Owed owes) E (dirScanRoot fs maxEnts : Io σ H _) fun _ => True := by
  unfold dirScanRoot
  apply triple_bind (loadRoot_triple L hfs hE)
  intro r _
  cases r with
  | none => exact neutral_pure trivial
  | some r => exact kfree_pure L r.1 rfl trivial

theorem exfatStat_neutral (path : CString) :
    Neutral (Owed owes) E (exfatStat fs path : Io σ H _) fun _ => True := by
  unfold exfatStat
  split
  · exact neutral_pure trivial
  · apply (dirScanRoot_neutral L hfs hE _).bind
    intro ents _
    exact neutral_pure trivial

theorem exfatOpen_ends (path : CString) {w : World σ H} (hw : owes 0 w.heap) :
    Ends (exfatOpen fs path) w E fun r w' => r = none → owes 0 w'.heap := by
  unfold exfatOpen
  apply open_ends L
  case hnone => rfl
  case hsome => exact fun n => rfl
  case hfree => exact fun n => rfl
  case hw => exact hw
  case hg =>
    intro n vn
    dsimp only
    split
    · exact triple_pure rfl trivial
    · apply (dirScanRoot_neutral L hfs hE _).bind
      intro ents _
      split
      · exact triple_pure rfl trivial
      · apply triple_bind (kfree_triple L n {vn})
        intro _ _
        exact kfree_pure L vn rfl trivial

theorem readLoop_neutral {n cl skip len : ℕ} (hlen : len ≤ n) (hskip : skip < fs.clusterSize) :
    Neutral (Owed owes) E (readLoop fs n cl skip len : Io σ H _) fun _ => True := by
  induction n generalizing cl skip len with
  | zero =>
    unfold readLoop
    rw [if_pos (by omega)]
    exact neutral_pure trivial
  | succ n ih =>
    unfold readLoop
    split
    · exact neutral_pure trivial
    · apply kmalloc_bind L
      case hnone => exact neutral_pure trivial
      case hsome =>
        intro p
        apply (readCluster_neutral hfs hE _).bind
        intro r _
        cases r with
        | none => exact kfree_pure L p rfl trivial
        | some tmp =>
          apply triple_bind (kfree_triple L p 0)
          intro _ _
          split
          · exact neutral_pure trivial
          · apply (fatGet_neutral hfs hE _).bind
            intro next _
            split
            · exact neutral_pure trivial
            · -- `skip` is less than a cluster, so the turn has taken a byte
              apply Neutral.bind (ih (by omega) (by omega))
              intro rest _
              exact neutral_pure trivial

theorem exfatRead_neutral (hdiv : fs.clusterSize = 0 → E .memory) (node : Node) (off len : ℕ) :
    Neutral (Owed owes) E (exfatRead fs node off len : Io σ H _) fun _ => True := by
  unfold exfatRead
  split
  · exact neutral_pure trivial
  · split
    · exact neutral_pure trivial
    · split
      case isTrue h0 => exact stop_triple (hdiv h0)
      case isFalse h0 =>
        apply (readSkip_neutral hfs hE _ _).bind
        intro cl _
        apply Neutral.bind (readLoop_neutral L hfs hE (le_refl _) (Nat.mod_lt _ (Nat.pos_of_ne_zero h0)))
        intro out _
        exact neutral_pure trivial

theorem fatAllocFrom_neutral (n cl : ℕ) :
    Neutral (Owed owes) E (fatAllocFrom fs n cl : Io σ H _) fun _ => True := by
  induction n generalizing cl with
  | zero => exact neutral_pure trivial
  | succ n ih =>
    apply (fatGet_neutral hfs hE _).bind
    intro v _
    split
    · apply (fatSet_neutral hfs hE _ _).bind
      intro rc _
      split
      · exact neutral_pure trivial
      · apply kmalloc_bind L
        case hnone => exact neutral_pure trivial
        case hsome =>
          intro p
          apply (writeCluster_neutral hfs hE cl List.length_replicate).bind
          intro _ _
          exact kfree_pure L p rfl trivial
    · exact ih (cl + 1)

theorem fatAlloc_neutral : Neutral (Owed owes) E (fatAlloc fs : Io σ H _) fun _ => True :=
  fatAllocFrom_neutral L hfs hE _ _

theorem dirUpdateStream_neutral (oldFirst newFirst newSize : ℕ) : Neutral (Owed owes) E
    (dirUpdateStreamByFirstCluster fs oldFirst newFirst newSize : Io σ H _) fun _ => True := by
  unfold dirUpdateStreamByFirstCluster
  apply triple_bind (loadRoot_triple L hfs hE)
  intro r hr
  cases r with
  | none => exact neutral_pure trivial
  | some r =>
    dsimp only
    split
    · exact kfree_pure L r.1 rfl trivial
    · apply Neutral.bind (writeCluster_neutral hfs hE _ ((length_setStream _ _ _ _).trans (hr r.1 r.2 rfl)))
      intro rc _
      exact kfree_pure L r.1 rfl trivial

theorem appendCluster_neutral (cur : ℕ) :
    Neutral (Owed owes) E (appendCluster fs cur : Io σ H _) fun _ => True := by
  unfold appendCluster
  apply (fatAlloc_neutral L hfs hE).bind
  intro ncl _
  split
  · exact neutral_pure trivial
  · apply (fatSet_neutral hfs hE _ _).bind
    intro _ _
    apply (fatSet_neutral hfs hE _ _).bind
    intro _ _
    exact neutral_pure trivial

theorem nextOrAppend_neutral (cl : ℕ) :
    Neutral (Owed owes) E (nextOrAppend fs cl : Io σ H _) fun _ => True := by
  unfold nextOrAppend
  apply (fatGet_neutral hfs hE _).bind
  intro nxt _
  split
  · exact appendCluster_neutral L hfs hE cl
  · exact neutral_pure trivial

theorem extendChain_neutral (n cur : ℕ) :
    Neutral (Owed owes) E (extendChain fs n cur : Io σ H _) fun _ => True := by
  induction n generalizing cur with
  | zero => exact neutral_pure trivial
  | succ n ih =>
    apply (appendCluster_neutral L hfs hE _).bind
    intro ncl _
    split
    · exact neutral_pure trivial
    · exact ih ncl

theorem writeSkip_neutral (k cl : ℕ) : Neutral (Owed owes) E (writeSkip fs k cl : Io σ H _) fun _ => True := by
  induction k generalizing cl with
  | zero => exact neutral_pure trivial
  | succ k ih =>
    apply (nextOrAppend_neutral L hfs hE _).bind
    intro nxt _
    split
    · exact neutral_pure trivial
    · exact ih nxt

theorem writeLoop_neutral {n cl skip : ℕ} {rest : List UInt8} (hlen : rest.length ≤ n) (hskip : skip < fs.clusterSize) :
    Neutral (Owed owes) E (writeLoop fs n cl skip rest : Io σ H _) fun _ => True := by
  induction n generalizing cl skip rest with
  | zero =>
    unfold writeLoop
    rw [if_pos (List.eq_nil_of_length_eq_zero (Nat.le_zero.mp hlen))]
    exact neutral_pure trivial
  | succ n ih =>
    unfold writeLoop
    split
    · exact neutral_pure trivial
    · apply kmalloc_bind L
      case hnone => exact neutral_pure trivial
      case hsome =>
        intro p
        apply (readCluster_neutral hfs hE _).bind
        intro r hr
        cases r with
        | none => exact kfree_pure L p rfl trivial
        | some tmp =>
          apply Neutral.bind (writeCluster_neutral hfs hE _ ((length_overlay ..).trans (hr tmp rfl)))
          intro rc _
          apply triple_bind (kfree_triple L p 0)
          intro _ _
          split
          · exact neutral_pure trivial
          · split
            · exact neutral_pure trivial
            · apply (nextOrAppend_neutral L hfs hE _).bind
              intro nxt _
              split
              · exact neutral_pure trivial
              · apply ih
                · rw [List.length_drop]
                  omega
                · omega

theorem exfatCreate_neutral (path : CString) :
    Neutral (Owed owes) E (exfatCreate fs path : Io σ H _) fun _ => True := by
  unfold exfatCreate
  dsimp only
  split
  · exact neutral_pure trivial
  · apply triple_bind (loadRoot_triple L hfs hE)
    intro r hr
    cases r with
    | none => exact neutral_pure trivial
    | some r =>
      dsimp only
      split
      · exact kfree_pure L r.1 rfl trivial
      · apply (fatAlloc_neutral L hfs hE).bind
        intro cl _
        split
        · exact kfree_pure L r.1 rfl trivial
        · apply Neutral.bind (writeCluster_neutral hfs hE _ _)
          · intro rc _
            exact kfree_pure L r.1 rfl trivial
          · have hdir := hr r.1 r.2 rfl
            split
            · rw [length_overlay, length_overlay, hdir]
            · rw [length_overlay, hdir]

section Loops

variable (hfuel : E .fuel)

include hfuel

theorem ensureChainLength_neutral (fuel first needed : ℕ) :
    Neutral (Owed owes) E (ensureChainLength fuel fs first needed : Io σ H _) fun _ => True := by
  have hfirst : Neutral (Owed owes) E (if first < 2 then fatAlloc fs else pure first : Io σ H ℕ) fun _ => True := by
    split
    · exact fatAlloc_neutral L hfs hE
    · exact neutral_pure trivial
  unfold ensureChainLength
  apply hfirst.bind
  intro first' _
  split
  · exact neutral_pure trivial
  · apply (chainEnd_neutral hfs hE hfuel _ _ _).bind
    intro r _
    apply (extendChain_neutral L hfs hE _ _).bind
    intro last _
    exact neutral_pure trivial

theorem exfatWrite_neutral (hdiv : fs.clusterSize = 0 → E .memory) (fuel : ℕ) (node : Node) (off : ℕ)
    (buf : List UInt8) : Neutral (Owed owes) E (exfatWrite fuel fs node off buf : Io σ H _) fun _ => True := by
  unfold exfatWrite
  split
  · exact neutral_pure trivial
  · split
    · exact neutral_pure trivial
    · split
      case isTrue h0 => exact stop_triple (hdiv h0)
      case isFalse h0 =>
        apply (ensureChainLength_neutral L hfs hE hfuel _ _ _).bind
        intro r _
        split
        · exact neutral_pure trivial
        · apply (writeSkip_neutral L hfs hE _ _).bind
          intro cl _
          split
          · exact neutral_pure trivial
          · apply Neutral.bind (writeLoop_neutral L hfs hE (le_refl _) (Nat.mod_lt _ (Nat.pos_of_ne_zero h0)))
            intro ok _
            split
            · exact neutral_pure trivial
            · apply (dirUpdateStream_neutral L hfs hE _ _ _).bind
              intro _ _
              exact neutral_pure trivial

theorem exfatUnlink_neutral (fuel : ℕ) (path : CString) :
    Neutral (Owed owes) E (exfatUnlink fuel fs path : Io σ H _) fun _ => True := by
  unfold exfatUnlink
  dsimp only
  split
  · exact neutral_pure trivial
  · apply triple_bind (loadRoot_triple L hfs hE)
    intro r hr
    cases r with
    | none => exact neutral_pure trivial
    | some r =>
      dsimp only
      split
      · exact kfree_pure L r.1 rfl trivial
      · apply (freeChain_neutral hfs hE hfuel _ _).bind
        intro _ _
        apply Neutral.bind (writeCluster_neutral hfs hE _ ((length_overlay ..).trans (hr r.1 r.2 rfl)))
        intro rc _
        exact kfree_pure L r.1 rfl trivial

end Loops

end Buffers

end DexOs.Exfat
