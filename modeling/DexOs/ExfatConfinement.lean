import DexOs.ExfatTermination

/-! Where the sector writes of `exfat_write` go, over whole runs of calls. -/

namespace DexOs.Exfat

open DexOs.Lib Relation

variable {σ H : Type} {S : SectorStore σ} {w : World σ H} {s s' : σ}

def storedEntry (S : SectorStore σ) (s : σ) (cl : ℕ) : ℕ := leNat (S.view s) 4 (65536 + 4 * cl)

/-- From one device state to another only entries of the FAT are set, to cluster numbers or end marks, and
only clusters of the heap get new bytes; nothing before the FAT or after the heap changes. -/
structure HeapOnly (S : SectorStore σ) (s s' : σ) : Prop where
  steps : ReflTransGen (HeapStep S) s s'
  low : ∀ i < 65536, S.view s' i = S.view s i
  entries : ∀ cl < 131072, storedEntry S s' cl = storedEntry S s cl ∨ InHeap (storedEntry S s' cl) ∨
    storedEntry S s' cl = eoc
  high : ∀ i, 512 * 132222 ≤ i → S.view s' i = S.view s i

theorem HeapOnly.refl (S : SectorStore σ) (s : σ) : HeapOnly S s s :=
  ⟨.refl, fun _ _ => rfl, fun _ _ => .inl rfl, fun _ _ => rfl⟩

theorem HeapOnly.trans {s'' : σ} (h : HeapOnly S s s') (h' : HeapOnly S s' s'') : HeapOnly S s s'' where
  steps := h.steps.trans h'.steps
  low i hi := (h'.low i hi).trans (h.low i hi)
  high i hi := (h'.high i hi).trans (h.high i hi)
  entries cl hcl := by
    rcases h'.entries cl hcl with heq | hnew
    · rw [heq]
      exact h.entries cl hcl
    · exact .inr hnew

theorem view_put_outside {cl : ℕ} (hcl : InHeap cl) {buf : List UInt8} (hlen : buf.length = 512) {i : ℕ}
    (hi : i < 512 * 1152 ∨ 512 * 132222 ≤ i) : S.view (put S s (dataSector cl) buf) i = S.view s i := by
  rcases Nat.lt_or_ge (dataSector cl) S.sectors with hon | hoff
  · have hsec := hcl.dataSector
    obtain ⟨h2, hlt⟩ := hcl
    rw [view_put hon hlen, poke, if_neg (by omega)]
  · rw [put_out _ hoff (dataSector_lt cl)]

theorem heapOnly_data {cl : ℕ} (hcl : InHeap cl) {buf : List UInt8} (hlen : buf.length = 512) :
    HeapOnly S s (put S s (dataSector cl) buf) where
  steps := .single (.data cl buf hcl hlen)
  low i hi := view_put_outside hcl hlen (.inl (by omega))
  high i hi := view_put_outside hcl hlen (.inr hi)
  entries x hx := .inl (leNat_congr fun i hi => view_put_outside hcl hlen (.inl (by omega)))

theorem storedEntry_fatPut {cl val : ℕ} (hcl : InHeap cl) (hval : val < 2 ^ 32) (hon : fatSector cl < S.sectors)
    (x : ℕ) : storedEntry S (fatPut S s cl val) x = if x = cl then val else storedEntry S s x := by
  unfold storedEntry
  rw [view_fatPut hon, hcl.entryOf]
  split_ifs with hx
  · rw [hx, leNat_poke_self hval]
  · rw [leNat_poke_of_disjoint (by rw [length_leBytes]; omega)]

theorem heapOnly_entry {cl val : ℕ} (hcl : InHeap cl) (hval : InHeap val ∨ val = eoc) :
    HeapOnly S s (fatPut S s cl val) := by
  by_cases hon : fatSector cl < S.sectors
  · have hlt := hcl.2
    have hlen := length_leBytes 4 val
    have hval32 : val < 2 ^ 32 := by
      rcases hval with hin | rfl
      · exact lt_trans hin.2 (by decide)
      · decide
    refine ⟨.single (.entry cl val hcl hval), fun i hi => ?_, fun x hx => ?_, fun i hi => ?_⟩
    · rw [view_fatPut hon, hcl.entryOf, poke, if_neg (by omega)]
    · rw [storedEntry_fatPut hcl hval32 hon]
      split_ifs
      · exact .inr hval
      · exact .inl rfl
    · rw [view_fatPut hon, hcl.entryOf, poke, if_neg (by omega)]
  · have hsame : fatPut S s cl val = s := put_out _ (Nat.le_of_not_lt hon) (fatSector_lt cl)
    rw [hsame]
    exact .refl S s

theorem HeapStep.heapOnly (h : HeapStep S s s') : HeapOnly S s s' := by
  cases h with
  | entry cl val hcl hval => exact heapOnly_entry hcl hval
  | data cl buf hcl hlen => exact heapOnly_data hcl hlen

theorem heapOnly_of_steps (h : ReflTransGen (HeapStep S) s s') : HeapOnly S s s' := by
  induction h with
  | refl => exact .refl S s
  | tail _ hstep ih => exact ih.trans hstep.heapOnly

structure WriteCall where
  node : Node
  off : ℕ
  buf : List UInt8

/-- The call follows no cluster number outside the heap: it writes nothing, or the file has no cluster yet,
or every cluster that its chain reaches lies in the heap. -/
def WriteCall.Followable (c : WriteCall) (S : SectorStore σ) (s : σ) : Prop :=
  c.node.isDir = true ∨ c.buf = [] ∨ c.node.firstCluster < 2 ∨ Inside S s c.node.firstCluster

section Runs

variable [KernelAlloc H]

/-- A run of `exfat_write` calls that return, each of them followable in the state it starts in. -/
inductive FollowableRun (S : SectorStore σ) (w : World σ H) : World σ H → Prop
  | start : FollowableRun S w w
  | call {w₁ w₂ : World σ H} (hrun : FollowableRun S w w₁) (c : WriteCall) (hc : c.Followable S w₁.dev)
    {fuel : ℕ} {r : ℤ × Node} (hcall : exfatWrite fuel (fallbackFs S.dev) c.node c.off c.buf w₁ = .ok (r, w₂)) :
    FollowableRun S w w₂

theorem exfatWrite_heapOnly {c : WriteCall} (hc : c.Followable S w.dev) {fuel : ℕ} {r : ℤ × Node}
    {w' : World σ H} (hcall : exfatWrite fuel (fallbackFs S.dev) c.node c.off c.buf w = .ok (r, w')) :
    HeapOnly S w.dev w'.dev := by
  have h : Ends (exfatWrite fuel (fallbackFs S.dev) c.node c.off c.buf) w (fun _ => True) _ :=
    exfatWrite_traced (fun _ => trivial) c.node c.off c.buf fun _ _ _ _ => trivial
  exact heapOnly_of_steps ((h.post hcall).2 hc).steps

theorem FollowableRun.heapOnly {w' : World σ H} (h : FollowableRun S w w') : HeapOnly S w.dev w'.dev := by
  induction h with
  | start => exact .refl S w.dev
  | call _ c hc hcall ih => exact ih.trans (exfatWrite_heapOnly hc hcall)

/-- In every run of `exfat_write` calls whose chains lie in the heap, the sector writes so far, and those of
each single call, stay in the FAT and the heap, and no file data reaches the FAT. -/
theorem writes_stay_in_heap {w₁ w₂ : World σ H} (hrun : FollowableRun S w w₁) (c : WriteCall)
    (hc : c.Followable S w₁.dev) {fuel : ℕ} {r : ℤ × Node}
    (hcall : exfatWrite fuel (fallbackFs S.dev) c.node c.off c.buf w₁ = .ok (r, w₂)) :
    HeapOnly S w₁.dev w₂.dev ∧ HeapOnly S w.dev w₂.dev := by
  have hstep := exfatWrite_heapOnly hc hcall
  exact ⟨hstep, hrun.heapOnly.trans hstep⟩

end Runs

def chainedDisk : SectorStore Memory := ramdiskStore [0x72] ⟨4096, 593920⟩ (by decide) (by decide)

def threeThenFour : Memory := fun a =>
  if a = 4096 + 65536 + 12 then 4 else if 4096 + 65536 + 16 ≤ a ∧ a < 4096 + 65536 + 20 then 0xFF else 0

theorem threeThenFour_inside : Inside chainedDisk threeThenFour 3 := by
  have h3 : fatOf chainedDisk threeThenFour 3 = 4 := by decide +kernel
  have h4 : fatOf chainedDisk threeThenFour 4 = eoc := by decide +kernel
  have hfour : Inside chainedDisk threeThenFour 4 := inside_of_end ⟨by decide, by decide⟩ (.inr h4)
  intro d hd
  rcases hd.cases_head with rfl | ⟨e, ⟨rfl, -, -⟩, hrest⟩
  · exact ⟨by decide, by decide⟩
  · rw [h3] at hrest
    exact hfour d hrest

theorem writes_stay_in_heap_second_cluster :
    Wp (exfatWrite 2 (fallbackFs chainedDisk.dev) ⟨3, false, 600⟩ 512 [0x41]) (⟨threeThenFour, ()⟩ : World Memory Unit)
      fun r w₂ => r.1 = 1 ∧ chainedDisk.view w₂.dev (512 * 1154) = 0x41 ∧ HeapOnly chainedDisk threeThenFour w₂.dev := by
  have hrun : Wp (exfatWrite 2 (fallbackFs chainedDisk.dev) ⟨3, false, 600⟩ 512 [0x41])
      (⟨threeThenFour, ()⟩ : World Memory Unit) fun r w' =>
        decide (r.1 = 1 ∧ chainedDisk.view w'.dev (512 * 1154) = 0x41) = true := wp_of_test (by decide +kernel)
  obtain ⟨r, w₂, hcall, h⟩ := hrun
  obtain ⟨hr, hbyte⟩ := of_decide_eq_true h
  have hc : WriteCall.Followable ⟨⟨3, false, 600⟩, 512, [0x41]⟩ chainedDisk threeThenFour :=
    .inr (.inr (.inr threeThenFour_inside))
  have hstart : FollowableRun chainedDisk (⟨threeThenFour, ()⟩ : World Memory Unit) ⟨threeThenFour, ()⟩ := .start
  exact ⟨r, w₂, hcall, hr, hbyte, (writes_stay_in_heap hstart _ hc hcall).2⟩

def linkedToOne : Memory := fun a => if a = 4096 + 65536 + 12 then 1 else 0

theorem write_through_entry_one_reaches_fat :
    Wp (exfatWrite 3 (fallbackFs smallDisk.dev) ⟨3, false, 0⟩ 512 [0xFE, 0xFF, 0xFF, 0xFF])
      (⟨linkedToOne, ()⟩ : World Memory Unit) fun r w' => r.1 = 4 ∧ storedEntry smallDisk linkedToOne 130944 = 0 ∧
        storedEntry smallDisk w'.dev 130944 = 0xFFFFFFFE ∧ ¬ HeapOnly smallDisk linkedToOne w'.dev := by
  have hrun : Wp (exfatWrite 3 (fallbackFs smallDisk.dev) ⟨3, false, 0⟩ 512 [0xFE, 0xFF, 0xFF, 0xFF])
      (⟨linkedToOne, ()⟩ : World Memory Unit) fun r w' =>
        decide (r.1 = 4 ∧ storedEntry smallDisk w'.dev 130944 = 0xFFFFFFFE) = true := wp_of_test (by decide +kernel)
  have hzero : storedEntry smallDisk linkedToOne 130944 = 0 := by decide +kernel
  apply hrun.mono
  intro r w' h
  obtain ⟨hr, hent⟩ := of_decide_eq_true h
  refine ⟨hr, hzero, hent, fun hheap => ?_⟩
  rcases hheap.entries 130944 (by decide) with heq | hin | heoc
  · rw [hent, hzero] at heq
    exact absurd heq (by decide)
  · rw [hent] at hin
    exact absurd hin.2 (by decide)
  · rw [hent] at heoc
    exact absurd heoc (by decide)

end DexOs.Exfat
