import DexOs.KernelHeapRuns

/-! The heap invariant over every run of `kmalloc` and `kfree` after `kmalloc_init`. -/

namespace DexOs.KernelHeap

open DexOs.Lib

variable {u : ℕ} {S : Space} {R : Region} {h h' : Heap} {blocks live : List ℕ}

structure Owned (h : Heap) (blocks live : List ℕ) : Prop where
  nodup : live.Nodup
  owner : ∀ p ∈ live, ∃ b ∈ blocks, p = b + headerSize ∧ (h.header b).free = false

theorem init_tiled (R : Region) (header : ℕ → Header) :
    Tiled 16 R.toSpace (kmallocInit header R.start R.size) [R.start] := by
  have hsize : sub64 R.size headerSize = R.size - headerSize :=
    sub64_of_le (by rw [headerSize_eq]; exact R.size_ge)
  have hdr : (kmallocInit header R.start R.size).header R.start = ⟨R.size - headerSize, true, 0⟩ := by
    simp only [kmallocInit, Function.update_self, hsize]
  have hge := R.size_ge
  refine ⟨dvd_refl 16, ⟨⟨rfl, ?_⟩, ?_⟩, ⟨rfl, ?_⟩, ?_⟩
  · simp only [hdr, lseg_nil]
  · simpa using R.start_pos.ne
  · simp only [blockEnd, hdr, lseg_nil, headerSize_eq, Region.toSpace]
    omega
  · have ha := R.size_aligned
    simp only [List.mem_singleton, forall_eq, hdr, headerSize_eq]
    omega

theorem Owned.malloc {fuel n p : ℕ} (t : Tiled u S h blocks) (o : Owned h blocks live)
    (hk : kmalloc fuel h n = some (p, h')) :
    ∃ blocks', Tiled u S h' blocks' ∧ Owned h' blocks' (if p = 0 then live else p :: live) := by
  rcases kmalloc_spec t hk with ⟨rfl, rfl⟩ | ⟨b, hb, hfree, rfl, blocks', t', hsub, hb', hkeep⟩
  · exact ⟨blocks, t, by simpa using o⟩
  · have h0 : b + headerSize ≠ 0 := by have := t.block_pos hb; omega
    -- the block just taken was free, so it carries no live pointer
    have hne : ∀ p ∈ live, ∀ c ∈ blocks, p = c + headerSize → (h.header c).free = false → c ≠ b := by
      rintro p - c - - hc rfl
      simp [hfree] at hc
    refine ⟨blocks', t', ?_, ?_⟩
    · rw [if_neg h0, List.nodup_cons]
      refine ⟨fun hp => ?_, o.nodup⟩
      obtain ⟨c, hc, he, hcf⟩ := o.owner _ hp
      exact hne _ hp c hc he hcf (by omega)
    · rw [if_neg h0]
      intro p hp
      rcases List.mem_cons.mp hp with rfl | hp
      · exact ⟨b, hsub b hb, rfl, hb'⟩
      · obtain ⟨c, hc, he, hcf⟩ := o.owner p hp
        exact ⟨c, hsub c hc, he, by rw [hkeep c hc (hne p hp c hc he hcf)]; exact hcf⟩

theorem Owned.free {fuel p : ℕ} (t : Tiled u S h blocks) (o : Owned h blocks live) (hp : p ∈ live)
    (hk : kfree fuel h p = some h') :
    ∃ blocks', Tiled u S h' blocks' ∧ Owned h' blocks' (live.erase p) := by
  obtain ⟨b, hb, rfl, -⟩ := o.owner p hp
  obtain ⟨blocks', t', hkeep⟩ := kfree_spec t hb hk
  refine ⟨blocks', t', o.nodup.erase _, fun q hq => ?_⟩
  obtain ⟨hqp, hq⟩ := (o.nodup.mem_erase_iff).mp hq
  obtain ⟨c, hc, rfl, hcf⟩ := o.owner q hq
  have hcb : c ≠ b := by rintro rfl; exact hqp rfl
  obtain ⟨hmem, he⟩ := hkeep c hc hcb hcf
  exact ⟨c, hmem, rfl, by rw [he]; exact hcf⟩

theorem Reach.invariant (hr : Reach R h live) : ∃ blocks, Tiled 16 R.toSpace h blocks ∧ Owned h blocks live := by
  induction hr with
  | init header => exact ⟨[R.start], init_tiled R header, List.nodup_nil, by simp⟩
  | malloc _ _ hk ih =>
    obtain ⟨blocks, t, o⟩ := ih
    exact Owned.malloc t o hk
  | free _ hp hk ih =>
    obtain ⟨blocks, t, o⟩ := ih
    exact Owned.free t o hp hk

theorem kmalloc_isSome (t : Tiled u S h blocks) {fuel : ℕ} (hf : S.size / 32 < fuel) (n : ℕ) :
    (kmalloc fuel h n).isSome := by
  unfold kmalloc
  split_ifs
  · rfl
  · simpa using findBlock_isSome t.linked (lt_of_le_of_lt t.length_le hf)

theorem kfree_isSome (t : Tiled u S h blocks) {fuel b : ℕ} (hf : S.size / 32 < fuel) (hb : b ∈ blocks) :
    (kfree fuel h (b + headerSize)).isSome := by
  have hlen := t.length_le
  have t' := t.setFree b true
  rw [kfree_eq t hb]
  cases blocks with
  | nil => simp at hb
  | cons d ds =>
    rw [show h.head = d from t.linked.1.1]
    simp only [List.length_cons] at hlen
    rw [← List.nil_append (d :: ds)] at t'
    exact coalesce_isSome t' (by omega)

theorem usable_eq (t : Tiled u S h blocks) {b : ℕ} (hb : b ∈ blocks) :
    kmallocUsableSize h (b + headerSize) = (h.header b).size := by
  have hend := t.end_lt hb
  have h0 : b + headerSize ≠ 0 := by have := t.block_pos hb; omega
  rw [kmallocUsableSize, if_neg h0, ptrToHdr, sub64_of_le (by omega)]
  congr 2
  omega

def payload (h : Heap) (p : ℕ) : Set ℕ := Set.Ico p (p + kmallocUsableSize h p)

theorem payload_header_disjoint (t : Tiled u S h blocks) {b c : ℕ} (hb : b ∈ blocks) (hc : c ∈ blocks) :
    Disjoint (payload h (b + headerSize)) (Set.Ico c (c + headerSize)) := by
  rw [payload, usable_eq t hb, Set.Ico_disjoint_Ico]
  by_cases hbc : b = c
  · subst hbc
    omega
  · have hd := t.disjoint hb hc hbc
    simp only [blockEnd] at hd
    omega

theorem payload_disjoint (t : Tiled u S h blocks) {b c : ℕ} (hb : b ∈ blocks) (hc : c ∈ blocks)
    (hbc : b ≠ c) : Disjoint (payload h (b + headerSize)) (payload h (c + headerSize)) := by
  rw [payload, payload, usable_eq t hb, usable_eq t hc, Set.Ico_disjoint_Ico]
  have hd := t.disjoint hb hc hbc
  simp only [blockEnd] at hd
  omega

theorem live_disjoint (t : Tiled u S h blocks) (o : Owned h blocks live) :
    live.Pairwise (fun p q => Disjoint (payload h p) (payload h q)) := by
  refine o.nodup.imp_of_mem (fun {p q} hp hq hne => ?_)
  obtain ⟨b, hb, rfl, -⟩ := o.owner p hp
  obtain ⟨c, hc, rfl, -⟩ := o.owner q hq
  exact payload_disjoint t hb hc (by rintro rfl; exact hne rfl)

/-- After any run the list from `g_head` is finite, increasing and tiles the heap, payloads are
16-aligned, and the payloads of live pointers meet neither each other nor a header. No call hangs. -/
theorem heap_tiled_of_reach (R : Region) {h : Heap} {live : List ℕ} (hr : Reach R h live) :
    (∃ blocks, Linked (fun b => (h.header b).next) 0 h.head blocks ∧
      Lseg (fun b => b + headerSize + (h.header b).size) R.start blocks (R.start + R.size) ∧
      blocks.Pairwise (· < ·) ∧ (∀ b ∈ blocks, 16 ∣ b + headerSize) ∧
      (∀ p ∈ live, ∃ b ∈ blocks, p = b + headerSize) ∧
      ∀ p ∈ live, ∀ b ∈ blocks, Disjoint (payload h p) (Set.Ico b (b + headerSize))) ∧
    live.Pairwise (fun p q => Disjoint (payload h p) (payload h q)) ∧
    ∀ fuel > R.size / 32, (∀ n, (kmalloc fuel h n).isSome) ∧ ∀ p ∈ live, (kfree fuel h p).isSome := by
  obtain ⟨blocks, t, o⟩ := hr.invariant
  refine ⟨⟨blocks, t.linked, t.tiles, ?_, ?_, ?_, ?_⟩, live_disjoint t o, ?_⟩
  · refine (t.tiles.pairwise (fun c _ => lt_blockEnd _ c)).imp (fun {b c} hbc => ?_)
    exact lt_of_lt_of_le (lt_blockEnd _ b) hbc
  · intro b hb
    have := t.block_aligned R.start_aligned hb
    rw [headerSize_eq]
    omega
  · intro p hp
    obtain ⟨b, hb, rfl, -⟩ := o.owner p hp
    exact ⟨b, hb, rfl⟩
  · intro p hp c hc
    obtain ⟨b, hb, rfl, -⟩ := o.owner p hp
    exact payload_header_disjoint t hb hc
  · intro fuel hf
    refine ⟨kmalloc_isSome t hf, fun p hp => ?_⟩
    obtain ⟨b, hb, rfl, -⟩ := o.owner p hp
    exact kfree_isSome t hf hb

def smallRegion : Region :=
  ⟨4096, 256, by decide, by decide, by decide, by decide, by decide⟩

theorem heap_tiled_of_reach_small :
    ∃ h, Reach smallRegion h [4208, 4128] ∧ (h.header (4208 - headerSize)).size = 32 ∧
      [4208, 4128].Pairwise (fun p q => Disjoint (payload h p) (payload h q)) := by
  have hrun : ((kmalloc 9 (kmallocInit (fun _ => ⟨0, false, 0⟩) smallRegion.start smallRegion.size) 40).bind fun r =>
      (kmalloc 9 r.2 24).map fun s => (r.1, s.1, (s.2.header (4208 - headerSize)).size)) = some (4128, 4208, 32) := by
    decide +kernel
  obtain ⟨⟨p, h⟩, hp, hrun⟩ := Option.bind_eq_some_iff.mp hrun
  obtain ⟨⟨q, h'⟩, hq, heq⟩ := Option.map_eq_some_iff.mp hrun
  obtain ⟨rfl, rfl, hsize⟩ : p = 4128 ∧ q = 4208 ∧ (h'.header (4208 - headerSize)).size = 32 := by simpa using heq
  have hr := Reach.malloc (by decide) (Reach.malloc (by decide) (Reach.init (R := smallRegion) _) hp) hq
  exact ⟨h', hr, hsize, (heap_tiled_of_reach smallRegion hr).2.1⟩

end DexOs.KernelHeap
