import DexOs.ExfatSectors
import Mathlib.Logic.Relation

/-! What one call writes to the device, as the sequence of its sector writes. -/

namespace DexOs.Exfat

open DexOs.Lib Relation

variable {σ H : Type} {R : SectorReader σ} {S : SectorStore σ} {w : World σ H} {s s' : σ} {cl c val : ℕ}

def InHeap (c : ℕ) : Prop := 2 ≤ c ∧ c < 131072

/-- A sector write that the layout foresees: an entry of the FAT is set to a cluster number or to the end
mark, or a cluster of the heap gets new bytes. -/
inductive HeapStep (S : SectorStore σ) (s : σ) : σ → Prop
  | entry (cl val : ℕ) (hcl : InHeap cl) (hval : InHeap val ∨ val = eoc) : HeapStep S s (fatPut S s cl val)
  | data (cl : ℕ) (buf : List UInt8) (hcl : InHeap cl) (hlen : buf.length = 512) :
    HeapStep S s (put S s (dataSector cl) buf)

def Link (R : SectorReader σ) (s : σ) (a b : ℕ) : Prop := b = fatOf R s a ∧ b ≠ 0 ∧ b ≠ eoc

/-- Every cluster that the chain of `c` reaches lies in the heap. -/
def Inside (R : SectorReader σ) (s : σ) (c : ℕ) : Prop := ∀ d, ReflTransGen (Link R s) c d → InHeap d

theorem InHeap.entryOf (h : InHeap c) : entryOf c = c := Nat.mod_eq_of_lt (lt_trans h.2 (by decide))

theorem InHeap.fatSector_lt (h : InHeap c) : fatSector c < 1152 := by
  have := h.2
  rw [fatSector, h.entryOf]
  omega

theorem InHeap.dataSector (h : InHeap c) : dataSector c = 1150 + c := by
  obtain ⟨h2, hlt⟩ := h
  unfold Exfat.dataSector
  omega

theorem Inside.inHeap (h : Inside R s c) : InHeap c := h c .refl

theorem Inside.next (h : Inside R s c) (h0 : fatOf R s c ≠ 0) (he : fatOf R s c ≠ eoc) :
    Inside R s (fatOf R s c) := by
  intro d hd
  exact h d (.head ⟨rfl, h0, he⟩ hd)

theorem inside_of_end (h : InHeap c) (hend : fatOf R s c = 0 ∨ fatOf R s c = eoc) : Inside R s c := by
  intro d hd
  rcases hd.cases_head with rfl | ⟨e, ⟨rfl, h0, he⟩, -⟩
  · exact h
  · exact absurd hend (by simp [h0, he])

theorem Inside.transfer (hx : Inside S s c)
    (h : ∀ d, Inside S s d → fatOf S s' d = 0 ∨ fatOf S s' d = eoc ∨ Inside S s (fatOf S s' d)) :
    Inside S s' c := by
  have hall : ∀ d, ReflTransGen (Link S s') c d → Inside S s d := by
    intro d hd
    induction hd with
    | refl => exact hx
    | tail _ hlink ih =>
      obtain ⟨rfl, h0, he⟩ := hlink
      exact ((h _ ih).resolve_left h0).resolve_left he
  intro d hd
  exact (hall d hd).inHeap

/-- The device states are linked by foreseen writes, and the chains inside the heap stay there. -/
structure Tame (S : SectorStore σ) (s s' : σ) : Prop where
  steps : ReflTransGen (HeapStep S) s s'
  inside : ∀ c, Inside S s c → Inside S s' c

theorem Tame.refl (S : SectorStore σ) (s : σ) : Tame S s s := ⟨.refl, fun _ h => h⟩

theorem Tame.trans {s'' : σ} (h : Tame S s s') (h' : Tame S s' s'') : Tame S s s'' :=
  ⟨h.steps.trans h'.steps, fun c hc => h'.inside c (h.inside c hc)⟩

theorem fatOf_put (hcl : InHeap cl) {buf : List UInt8} (hlen : buf.length = 512) (hc : InHeap c) :
    fatOf S (put S s (dataSector cl) buf) c = fatOf S s c := by
  have hsec := hcl.dataSector
  rcases Nat.lt_or_ge (dataSector cl) S.sectors with hon | hoff
  · have hcl2 := hcl.1
    have hc2 := hc.2
    unfold fatOf
    rw [view_put hon hlen, hc.entryOf, leNat_poke_of_disjoint]
    omega
  · rw [put_out _ hoff (dataSector_lt cl)]

theorem tame_put (hcl : InHeap cl) {buf : List UInt8} (hlen : buf.length = 512) :
    Tame S s (put S s (dataSector cl) buf) := by
  refine ⟨.single (.data cl buf hcl hlen), fun c hc => hc.transfer fun d hd => ?_⟩
  rw [fatOf_put hcl hlen hd.inHeap]
  by_cases h0 : fatOf S s d = 0
  · exact .inl h0
  · by_cases he : fatOf S s d = eoc
    · exact .inr (.inl he)
    · exact .inr (.inr (hd.next h0 he))

theorem InHeap.fatOf_fatPut (h : fatSector cl < S.sectors) (hcl : InHeap cl) (hval : val < 2 ^ 32)
    (hc : InHeap c) : fatOf S (fatPut S s cl val) c = if c = cl then val else fatOf S s c := by
  rw [Exfat.fatOf_fatPut h hval, hc.entryOf, hcl.entryOf]

theorem tame_fatPut (h : fatSector cl < S.sectors) (hcl : InHeap cl) (hval : val = eoc ∨ Inside S s val) :
    Tame S s (fatPut S s cl val) := by
  have hlt : val < 2 ^ 32 := by
    rcases hval with rfl | hin
    · decide
    · exact lt_trans hin.inHeap.2 (by decide)
  refine ⟨.single (.entry cl val hcl (hval.symm.imp_left Inside.inHeap)), fun c hc => hc.transfer fun d hd => ?_⟩
  rw [InHeap.fatOf_fatPut h hcl hlt hd.inHeap]
  split_ifs
  · exact .inr hval
  · by_cases h0 : fatOf S s d = 0
    · exact .inl h0
    · by_cases he : fatOf S s d = eoc
      · exact .inr (.inl he)
      · exact .inr (.inr (hd.next h0 he))

section Programs

variable [KernelAlloc H]

theorem kmalloc_dev (n : ℕ) : Wp (kmalloc n) w fun _ w' => w'.dev = w.dev := ⟨_, _, rfl, rfl⟩

theorem kfree_dev (p : ℕ) : Wp (kfree p) w fun _ w' => w'.dev = w.dev := ⟨_, _, rfl, rfl⟩

theorem fatAllocFrom_traced (n : ℕ) (h2 : 2 ≤ cl) (hn : cl + n ≤ 131072) :
    Wp (fatAllocFrom (fallbackFs S.dev) n cl) w fun r w' => Tame S w.dev w'.dev ∧
      (r ≠ 0 → InHeap r ∧ fatOf S w'.dev r = eoc) := by
  induction n generalizing cl with
  | zero => exact wp_pure ⟨.refl S w.dev, fun h => absurd rfl h⟩
  | succ n ih =>
    have hcl : InHeap cl := ⟨h2, by omega⟩
    rw [fatAllocFrom]
    apply wp_bind fatGet_sector
    rintro v w1 ⟨rfl, rfl⟩
    split_ifs with hv
    · apply wp_bind fatSet_sector
      rintro rc w2 (⟨hon, rfl, rfl⟩ | ⟨-, rfl, rfl⟩)
      · have hset : Tame S w1.dev (fatPut S w1.dev cl eoc) := tame_fatPut hon hcl (.inl rfl)
        rw [if_neg (not_not.mpr rfl)]
        apply wp_bind (kmalloc_dev _)
        rintro (_ | p) w3 hw3
        · refine wp_pure ⟨?_, fun h => absurd rfl h⟩
          rw [hw3]
          exact hset
        · have hlen : (List.replicate (fallbackFs S.dev).clusterSize (0 : UInt8)).length = 512 := List.length_replicate
          apply wp_bind (writeCluster_sector hlen)
          rintro _ w4 ⟨rfl, -⟩
          apply wp_bind (kfree_dev p)
          rintro _ w5 hw5
          refine wp_pure ?_
          rw [hw5, hw3]
          refine ⟨hset.trans (tame_put hcl hlen), fun _ => ⟨hcl, ?_⟩⟩
          rw [fatOf_put hcl hlen hcl, InHeap.fatOf_fatPut hon hcl (by decide) hcl, if_pos rfl]
      · rw [if_pos (by decide)]
        exact wp_pure ⟨.refl S w2.dev, fun h => absurd rfl h⟩
    · exact ih (by omega) (by omega)

theorem fatAlloc_traced : Wp (fatAlloc (fallbackFs S.dev)) w fun r w' => Tame S w.dev w'.dev ∧
    (r ≠ 0 → InHeap r ∧ fatOf S w'.dev r = eoc) := by
  unfold fatAlloc
  rw [fallbackFs_entries]
  exact fatAllocFrom_traced _ (le_refl 2) (le_refl _)

omit [KernelAlloc H] in
theorem fatSet_traced : Wp (fatSet (fallbackFs S.dev) cl val) w fun _ w' =>
    InHeap cl → val = eoc ∨ Inside S w.dev val → Tame S w.dev w'.dev := by
  apply fatSet_sector.mono
  rintro r w' (⟨hon, -, rfl⟩ | ⟨-, -, rfl⟩) hcl hval
  · exact tame_fatPut hon hcl hval
  · exact .refl S w'.dev

def Onward (S : SectorStore σ) (w w' : World σ H) (cl r : ℕ) : Prop :=
  Inside S w.dev cl → Tame S w.dev w'.dev ∧ (r ≠ 0 → Inside S w'.dev r)

theorem appendCluster_traced :
    Wp (appendCluster (fallbackFs S.dev) cl) w fun r w' => Onward S w w' cl r := by
  unfold appendCluster
  apply wp_bind fatAlloc_traced
  rintro ncl w1 ⟨h1, hncl⟩
  split_ifs with h0
  · exact wp_pure fun _ => ⟨h1, fun h => absurd rfl h⟩
  · obtain ⟨hin, hend⟩ := hncl h0
    apply wp_bind fatSet_traced
    rintro _ w2 h2
    apply wp_bind fatSet_traced
    rintro _ w3 h3
    refine wp_pure fun hcl => ?_
    have hn1 : Inside S w1.dev ncl := inside_of_end hin (.inr hend)
    have ht2 := h2 hcl.inHeap (.inr hn1)
    have ht3 := h3 hin (.inl rfl)
    exact ⟨h1.trans (ht2.trans ht3), fun _ => ht3.inside _ (ht2.inside _ hn1)⟩

theorem nextOrAppend_traced :
    Wp (nextOrAppend (fallbackFs S.dev) cl) w fun r w' => Onward S w w' cl r := by
  unfold nextOrAppend
  apply wp_bind fatGet_sector
  rintro nxt w1 ⟨rfl, rfl⟩
  split_ifs with hend
  · exact appendCluster_traced
  · refine wp_pure fun hcl => ⟨.refl S _, fun h0 => ?_⟩
    exact hcl.next h0 fun he => hend (.inl he)

omit [KernelAlloc H] in
theorem Onward.trans {w w' w'' : World σ H} {r' : ℕ} (h : Onward S w w' cl c) (h0 : c ≠ 0)
    (h' : Onward S w' w'' c r') : Onward S w w'' cl r' := by
  intro hcl
  obtain ⟨ht, hin⟩ := h hcl
  obtain ⟨ht', hin'⟩ := h' (hin h0)
  exact ⟨ht.trans ht', hin'⟩

theorem extendChain_traced (n : ℕ) :
    Wp (extendChain (fallbackFs S.dev) n cl) w fun r w' => Onward S w w' cl r := by
  induction n generalizing cl w with
  | zero => exact wp_pure fun hcl => ⟨.refl S _, fun _ => hcl⟩
  | succ n ih =>
    rw [extendChain]
    apply wp_bind appendCluster_traced
    rintro ncl w1 h1
    split_ifs with h0
    · exact wp_pure fun hcl => ⟨(h1 hcl).1, fun h => absurd rfl h⟩
    · exact ih.mono fun r w' h => h1.trans h0 h

theorem writeSkip_traced (k : ℕ) :
    Wp (writeSkip (fallbackFs S.dev) k cl) w fun r w' => Onward S w w' cl r := by
  induction k generalizing cl w with
  | zero => exact wp_pure fun hcl => ⟨.refl S _, fun _ => hcl⟩
  | succ k ih =>
    rw [writeSkip]
    apply wp_bind nextOrAppend_traced
    rintro nxt w1 h1
    split_ifs with h0
    · exact wp_pure fun hcl => ⟨(h1 hcl).1, fun h => absurd rfl h⟩
    · exact ih.mono fun r w' h => h1.trans h0 h

theorem writeLoop_traced {n skip : ℕ} {rest : List UInt8} (hn : rest.length ≤ n) (hskip : skip < 512) :
    Wp (writeLoop (fallbackFs S.dev) n cl skip rest) w fun _ w' => Inside S w.dev cl → Tame S w.dev w'.dev := by
  induction n generalizing cl skip rest w with
  | zero =>
    obtain rfl := List.length_eq_zero_iff.mp (Nat.le_zero.mp hn)
    exact wp_pure fun _ => .refl S _
  | succ n ih =>
    rw [writeLoop]
    split_ifs with hnil
    · exact wp_pure fun _ => .refl S _
    have hpos := List.length_pos_iff.mpr hnil
    apply wp_bind (kmalloc_dev _)
    rintro (_ | p) w1 hw1
    · exact wp_pure fun _ => hw1 ▸ .refl S _
    apply wp_bind readCluster_sector
    rintro r w2 ⟨rfl, rfl⟩
    split_ifs with hon
    · dsimp only
      apply wp_bind (writeCluster_sector (by rw [length_overlay, length_peek]))
      rintro rc w3 ⟨rfl, -⟩
      apply wp_bind (kfree_dev p)
      rintro _ w4 hw4
      have ht : Inside S w.dev cl → Tame S w.dev w4.dev := by
        intro hcl
        rw [hw4, ← hw1]
        exact tame_put hcl.inHeap (by rw [length_overlay, length_peek])
      split_ifs with hrc hdone
      · exact wp_pure ht
      · exact wp_pure ht
      · apply wp_bind nextOrAppend_traced
        rintro nxt w5 h5
        have ht5 : Inside S w.dev cl → Tame S w.dev w5.dev ∧ (nxt ≠ 0 → Inside S w5.dev nxt) := by
          intro hcl
          obtain ⟨h1, h2⟩ := h5 ((ht hcl).inside _ hcl)
          exact ⟨(ht hcl).trans h1, h2⟩
        split_ifs with h0
        · exact wp_pure fun hcl => (ht5 hcl).1
        · have hlen : (rest.drop (min rest.length ((fallbackFs S.dev).clusterSize - skip))).length ≤ n := by
            have hsize : (fallbackFs S.dev).clusterSize = 512 := rfl
            rw [List.length_drop, hsize]
            omega
          apply (ih hlen (by decide)).mono
          intro _ w' h' hcl
          obtain ⟨h1, h2⟩ := ht5 hcl
          exact h1.trans (h' (h2 h0))
    · apply wp_bind (kfree_dev p)
      rintro _ w3 hw3
      refine wp_pure fun _ => ?_
      rw [hw3, hw1]
      exact .refl S _

omit [KernelAlloc H] in
theorem root_sector (d : BlockDevice σ) : dataSector (fallbackFs d).rootDirCluster = 1152 := by
  simp [dataSector, fallbackFs]

theorem loadRoot_traced : Wp (loadRoot (fallbackFs R.dev)) w fun r w' => w'.dev = w.dev ∧
    ∀ p dir, r = some (p, dir) → 1152 < R.sectors ∧ dir = peek (R.view w.dev) (512 * 1152) 512 := by
  unfold loadRoot
  apply wp_bind (kmalloc_dev _)
  rintro (_ | p) w1 hw1
  · exact wp_pure ⟨hw1, fun _ _ h => by cases h⟩
  apply wp_bind readCluster_sector
  rintro r w2 ⟨rfl, rfl⟩
  rw [root_sector]
  split_ifs with hon
  · refine wp_pure ⟨hw1, fun _ _ h => ⟨hon, ?_⟩⟩
    rw [← hw1]
    exact (Prod.mk.inj (Option.some.inj h)).2.symm
  · apply wp_bind (kfree_dev p)
    rintro _ w3 hw3
    exact wp_pure ⟨hw3.trans hw1, fun _ _ h => by cases h⟩

omit [KernelAlloc H] in
theorem writeRoot_traced {dir : List UInt8} (hlen : dir.length = 512) :
    Wp (writeCluster (fallbackFs S.dev) (fallbackFs S.dev).rootDirCluster dir) w fun _ w' =>
      Tame S w.dev w'.dev := by
  apply (writeCluster_sector hlen).mono
  rintro _ w' ⟨rfl, -⟩
  exact tame_put ⟨le_refl 2, by decide⟩ hlen

theorem dirUpdate_traced (oldFirst newFirst newSize : ℕ) :
    Wp (dirUpdateStreamByFirstCluster (fallbackFs S.dev) oldFirst newFirst newSize) w fun _ w' =>
      Tame S w.dev w'.dev := by
  unfold dirUpdateStreamByFirstCluster
  apply wp_bind loadRoot_traced
  rintro (_ | ⟨p, dir⟩) w1 ⟨hw1, hdir⟩
  · exact wp_pure (hw1 ▸ .refl S _)
  · have hlen : dir.length = 512 := by
      rw [(hdir p dir rfl).2, length_peek]
    dsimp only
    split
    · apply wp_bind (kfree_dev p)
      rintro _ w2 hw2
      exact wp_pure (hw2 ▸ hw1 ▸ .refl S _)
    · apply wp_bind (writeRoot_traced (by rw [length_setStream, hlen]))
      rintro rc w2 h2
      apply wp_bind (kfree_dev p)
      rintro _ w3 hw3
      exact wp_pure (hw3 ▸ hw1 ▸ h2)

def EndsWithin (R : SectorReader σ) (s : σ) : ℕ → ℕ → Prop
  | 0, _ => False
  | n + 1, c => fatOf R s c = eoc ∨ fatOf R s c = 0 ∨ EndsWithin R s n (fatOf R s c)

omit [KernelAlloc H] in
theorem chainEnd_traced {E : Fault → Prop} {fuel : ℕ} (count : ℕ)
    (hE : ¬ EndsWithin R w.dev fuel cl → E .fuel) :
    Ends (chainEnd (fallbackFs R.dev) fuel cl count) w E fun r w' => w' = w ∧ EndsWithin R w.dev fuel cl ∧
      (Inside R w.dev cl → Inside R w.dev r.1) := by
  induction fuel generalizing cl count with
  | zero => exact hE fun h => h
  | succ fuel ih =>
    rw [chainEnd]
    apply ends_bind fatGet_sector.ends
    rintro next w1 ⟨rfl, rfl⟩
    split_ifs with hend
    · exact ⟨rfl, hend.imp_right .inl, fun h => h⟩
    · have hE' : ¬ EndsWithin R w1.dev fuel (fatOf R w1.dev cl) → E .fuel := by
        intro hnot
        apply hE
        rintro (h | h | h)
        · exact hend (.inl h)
        · exact hend (.inr h)
        · exact hnot h
      apply (ih (count + 1) hE').mono (fun _ h => h)
      rintro r w' ⟨rfl, hw, hin⟩
      refine ⟨rfl, .inr (.inr hw), fun hcl => hin (hcl.next (fun h => hend (.inr h)) fun h => hend (.inl h))⟩

section Write

variable {E : Fault → Prop} {fuel first : ℕ} (hE0 : fuel = 0 → E .fuel)

include hE0

theorem ensureChainLength_traced (needed : ℕ) (hE : 2 ≤ first → ¬ EndsWithin S w.dev fuel first → E .fuel) :
    Ends (ensureChainLength fuel (fallbackFs S.dev) first needed) w E fun r w' =>
      (first < 2 ∨ EndsWithin S w.dev fuel first) ∧
      (first < 2 ∨ Inside S w.dev first → Tame S w.dev w'.dev ∧ (r.1 ≠ 0 → Inside S w'.dev r.2)) := by
  have hfirst : Wp (if first < 2 then fatAlloc (fallbackFs S.dev) else pure first) w fun r w' =>
      Tame S w.dev w'.dev ∧ (2 ≤ first → r = first ∧ w' = w) ∧
        (first < 2 → r ≠ 0 → InHeap r ∧ fatOf S w'.dev r = eoc) := by
    split_ifs with h2
    · apply fatAlloc_traced.mono
      rintro r w' ⟨ht, hr⟩
      exact ⟨ht, fun h => by omega, fun _ => hr⟩
    · exact wp_pure ⟨.refl S _, fun _ => ⟨rfl, rfl⟩, fun h => absurd h h2⟩
  unfold ensureChainLength
  apply ends_bind hfirst.ends
  rintro first' w1 ⟨ht1, hold, hnew⟩
  split_ifs with h0
  · have hlt : first < 2 := by
      by_contra hge
      have := (hold (by omega)).1
      omega
    exact ⟨.inl hlt, fun _ => ⟨ht1, fun h => absurd rfl h⟩⟩
  have hE1 : ¬ EndsWithin S w1.dev fuel first' → E .fuel := by
    intro hnot
    rcases Nat.lt_or_ge first 2 with hlt | hge
    · apply hE0
      cases fuel with
      | zero => rfl
      | succ fuel => exact absurd (.inl (hnew hlt h0).2) hnot
    · obtain ⟨rfl, rfl⟩ := hold hge
      exact hE hge hnot
  apply ends_bind (chainEnd_traced 1 hE1)
  rintro ⟨last, count⟩ w2 ⟨rfl, hwithin, hin⟩
  apply ends_bind (extendChain_traced (needed - count)).ends
  rintro end' w3 h3
  constructor
  · rcases Nat.lt_or_ge first 2 with hlt | hge
    · exact .inl hlt
    · obtain ⟨rfl, rfl⟩ := hold hge
      exact .inr hwithin
  · intro hcond
    have hinside : Inside S w2.dev first' := by
      rcases Nat.lt_or_ge first 2 with hlt | hge
      · obtain ⟨hh, hend⟩ := hnew hlt h0
        exact inside_of_end hh (.inr hend)
      · obtain ⟨rfl, rfl⟩ := hold hge
        exact hcond.resolve_left (by omega)
    obtain ⟨ht3, -⟩ := h3 (hin hinside)
    exact ⟨ht1.trans ht3, fun _ => ht3.inside _ hinside⟩

theorem exfatWrite_traced (node : Node) (off : ℕ) (buf : List UInt8)
    (hE : node.isDir = false → buf ≠ [] → 2 ≤ node.firstCluster →
      ¬ EndsWithin S w.dev fuel node.firstCluster → E .fuel) :
    Ends (exfatWrite fuel (fallbackFs S.dev) node off buf) w E fun _ w' =>
      (node.isDir = true ∨ buf = [] ∨ node.firstCluster < 2 ∨ EndsWithin S w.dev fuel node.firstCluster) ∧
      (node.isDir = true ∨ buf = [] ∨ node.firstCluster < 2 ∨ Inside S w.dev node.firstCluster →
        Tame S w.dev w'.dev) := by
  have hsize : (fallbackFs S.dev).clusterSize = 512 := rfl
  unfold exfatWrite
  by_cases hdir : node.isDir = true
  · rw [if_pos hdir]
    exact ⟨.inl hdir, fun _ => .refl S _⟩
  rw [if_neg hdir]
  by_cases hnil : buf = []
  · rw [if_pos hnil]
    exact ⟨.inr (.inl hnil), fun _ => .refl S _⟩
  rw [if_neg hnil, hsize, if_neg (by decide)]
  apply ends_bind (ensureChainLength_traced hE0 _ (hE (Bool.not_eq_true _ ▸ hdir) hnil))
  rintro ⟨last, first'⟩ w1 ⟨hends, htame⟩
  have hcond : node.isDir = true ∨ buf = [] ∨ node.firstCluster < 2 ∨ Inside S w.dev node.firstCluster →
      Tame S w.dev w1.dev ∧ (last ≠ 0 → Inside S w1.dev first') := by
    rintro (h | h | h)
    · exact absurd h hdir
    · exact absurd h hnil
    · exact htame h
  refine Ends.mono (R := fun _ w' => node.isDir = true ∨ buf = [] ∨ node.firstCluster < 2 ∨
    Inside S w.dev node.firstCluster → Tame S w.dev w'.dev) ?_ (fun _ h => h) fun _ _ h => ⟨.inr (.inr hends), h⟩
  dsimp only
  by_cases h0 : last = 0
  · rw [if_pos h0]
    exact fun h => (hcond h).1
  rw [if_neg h0]
  apply ends_bind (writeSkip_traced (off / 512)).ends
  rintro cl w2 h2
  by_cases hcl : cl = 0
  · rw [if_pos hcl]
    exact fun h => (hcond h).1.trans (h2 ((hcond h).2 h0)).1
  rw [if_neg hcl]
  apply ends_bind (writeLoop_traced (le_refl buf.length) (Nat.mod_lt off (by decide))).ends
  rintro ok w3 h3
  have hdone : node.isDir = true ∨ buf = [] ∨ node.firstCluster < 2 ∨ Inside S w.dev node.firstCluster →
      Tame S w.dev w3.dev := by
    intro h
    obtain ⟨ht1, hin1⟩ := hcond h
    obtain ⟨ht2, hin2⟩ := h2 (hin1 h0)
    exact ht1.trans (ht2.trans (h3 (hin2 hcl)))
  by_cases hok : ok = false
  · rw [if_pos hok]
    exact hdone
  rw [if_neg hok]
  apply ends_bind (dirUpdate_traced _ _ _).ends
  rintro _ w4 h4
  exact fun h => (hdone h).trans h4

end Write

end Programs

end DexOs.Exfat
