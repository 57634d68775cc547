import DexOs.FrameRuns
import DexOs.FrameAccounting

/-! The free count pays for every free frame, so each of them can be handed out. -/

namespace DexOs.Frames

open DexOs.Lib DexOs.Mb2

variable {s : Pmm}

def Pmm.Funded (s : Pmm) : Prop := 4096 * (s.bitmap.clearBits s.frames).card ≤ s.free

theorem funded_iff : s.Funded ↔ ∃ d, s.Surplus d := by
  constructor
  · intro h
    exact ⟨s.free - 4096 * (s.bitmap.clearBits s.frames).card, (Nat.add_sub_cancel' h).symm⟩
  · rintro ⟨d, h⟩
    rw [Pmm.Surplus] at h
    rw [Pmm.Funded, h]
    exact Nat.le_add_right ..

theorem Pmm.Framed.paged (hf : s.Framed) (hw : 4096 ∣ s.bitmapLimit) : s.Paged :=
  ⟨hf.base_aligned, hw, hf.base_le, hf.limit_le.trans_lt (by decide)⟩

theorem pmmReserve_funded (hf : s.Framed) (hw : 4096 ∣ s.bitmapLimit) (h : s.Funded) (paddr size : ℕ) :
    (pmmReserve s paddr size).Funded := by
  obtain ⟨d, hd⟩ := funded_iff.mp h
  exact funded_iff.mpr ⟨d, pmmReserve_surplus (hf.paged hw) hd paddr size⟩

theorem reserveAll_funded (hf : s.Framed) (hw : 4096 ∣ s.bitmapLimit) (h : s.Funded)
    (reserved : List (ℕ × ℕ)) : (reserveAll s reserved).Funded := by
  induction reserved generalizing s with
  | nil => exact h
  | cons r rs ih =>
    have hsame := pmmReserve_same s r.1 r.2
    exact ih (hsame.framed hf) (hsame.limit ▸ hw) (pmmReserve_funded hf hw h r.1 r.2)

def Pmm.framesIn (s : Pmm) (r : Region) : Finset ℕ :=
  Finset.Ico ((r.base - s.bitmapBase) / 4096) ((r.base + r.len - s.bitmapBase) / 4096)

def Region.Apart (r r' : Region) : Prop := r.base + r.len ≤ r'.base ∨ r'.base + r'.len ≤ r.base

theorem mem_framesIn (hc : Covers s) {r : Region} (hr : r ∈ s.regions) {i : ℕ} : i ∈ s.framesIn r ↔ s.FrameIn r i := by
  have h1 := hc.base_aligned
  have h2 := (hc.regionsOk.ok r hr).aligned
  have h3 := hc.inside r hr
  simp only [Pmm.framesIn, Finset.mem_Ico, Pmm.FrameIn, Pmm.frameAddr, frameSize_eq]
  omega

theorem card_framesIn (hc : Covers s) {r : Region} (hr : r ∈ s.regions) (hw : 4096 ∣ r.len) :
    4096 * (s.framesIn r).card = r.len := by
  have h1 := hc.base_aligned
  have h2 := (hc.regionsOk.ok r hr).aligned
  have h3 := hc.inside r hr
  rw [Pmm.framesIn, Nat.card_Ico]
  omega

theorem lt_of_mem_framesIn (hc : Covers s) {r : Region} (hr : r ∈ s.regions) {i : ℕ} (hi : i ∈ s.framesIn r) :
    i < s.frames := by
  have h3 := hc.inside r hr
  have h4 := hc.frames_eq
  rw [Pmm.framesIn, Finset.mem_Ico] at hi
  omega

theorem apart_iff (hc : Covers s) {r r' : Region} (hr : r ∈ s.regions) (hr' : r' ∈ s.regions)
    (hw : 4096 ∣ r.len) (hw' : 4096 ∣ r'.len) : r.Apart r' ↔ ∀ i ∈ s.framesIn r, i ∉ s.framesIn r' := by
  have h1 := hc.base_aligned
  obtain ⟨h2, h3, -⟩ := hc.regionsOk.ok r hr
  obtain ⟨h4, h5, -⟩ := hc.regionsOk.ok r' hr'
  have h6 := hc.inside r hr
  have h7 := hc.inside r' hr'
  simp only [Pmm.framesIn, Finset.mem_Ico, Region.Apart]
  constructor
  · intro h i hi hi'
    omega
  · intro h
    -- the frame where the later one starts
    have hmax := h ((max r.base r'.base - s.bitmapBase) / 4096)
    omega

theorem freeRegion_step (hc : Covers s) {r : Region} (rs : List Region) (hr : r ∈ s.regions)
    (hfree : s.free + 2 ^ 32 < 2 ^ 64) :
    ∃ s', freeRegions (r :: rs) s = freeRegions rs s' ∧ SameFrame s s' ∧ s'.free = s.free + r.len ∧
      s'.bitmap.clearBits s'.frames = s.bitmap.clearBits s.frames ∪ s.framesIn r := by
  have hlim := (hc.regionsOk.ok r hr).limit
  have hsame := markRange_same s r.base r.len false
  refine ⟨{ markRange s r.base r.len false with free := (s.free + r.len) % 2 ^ 64 }, freeRegions_cons hc hr,
    ⟨hsame.regions, hsame.base, hsame.limit⟩, Nat.mod_eq_of_lt (by omega), ?_⟩
  have hframes : Pmm.frames { markRange s r.base r.len false with free := (s.free + r.len) % 2 ^ 64 } = s.frames :=
    hsame.frames
  ext i
  rw [hframes, Bitmap.mem_clearBits, Finset.mem_union, Bitmap.mem_clearBits, mem_framesIn hc hr]
  dsimp only
  rw [markRange_region hc hr]
  constructor
  · rintro ⟨hi, h | h⟩
    · exact .inr h
    · exact .inl ⟨hi, h⟩
  · rintro (⟨hi, h⟩ | h)
    · exact ⟨hi, .inr h⟩
    · exact ⟨lt_of_mem_framesIn hc hr ((mem_framesIn hc hr).mpr h), .inl h⟩

theorem freeRegions_surplus {rs : List Region} {d : ℕ} (hc : Covers s) (hw : ∀ r ∈ s.regions, 4096 ∣ r.len)
    (hrs : ∀ r ∈ rs, r ∈ s.regions) (hfree : s.free + rs.length * 2 ^ 32 < 2 ^ 64) (h : s.Surplus d) :
    ∃ k, (freeRegions rs s).Surplus (d + 4096 * k) ∧
      (k = 0 ↔ rs.Pairwise Region.Apart ∧ ∀ r ∈ rs, ∀ i ∈ s.framesIn r, i ∉ s.bitmap.clearBits s.frames) := by
  induction rs generalizing s d with
  | nil => exact ⟨0, h, iff_of_true rfl ⟨.nil, by simp⟩⟩
  | cons r rs ih =>
    have hmem := hrs r List.mem_cons_self
    have hlim := (hc.regionsOk.ok r hmem).limit
    rw [List.length_cons] at hfree
    obtain ⟨s', hstep, hsame, hcount, hclear⟩ := freeRegion_step hc rs hmem (by omega)
    have hrest (x : Region) (hx : x ∈ rs) : x ∈ s.regions := hrs x (List.mem_cons_of_mem _ hx)
    have hframes (x : Region) : s'.framesIn x = s.framesIn x := by rw [Pmm.framesIn, Pmm.framesIn, hsame.base]
    have hnew : s'.Surplus (d + 4096 * (s.bitmap.clearBits s.frames ∩ s.framesIn r).card) := by
      have hcard := Finset.card_union_add_card_inter (s.bitmap.clearBits s.frames) (s.framesIn r)
      have hlen := card_framesIn hc hmem (hw r hmem)
      rw [Pmm.Surplus] at h ⊢
      rw [hclear, hcount]
      omega
    obtain ⟨k, hk, hiff⟩ := ih (hsame.covers hc) (hsame.regions ▸ hw) (fun x hx => hsame.regions ▸ hrest x hx)
      (by omega) hnew
    refine ⟨(s.bitmap.clearBits s.frames ∩ s.framesIn r).card + k, ?_, ?_⟩
    · rw [hstep, Nat.mul_add, ← Nat.add_assoc]
      exact hk
    · have hnone : (s.bitmap.clearBits s.frames ∩ s.framesIn r).card = 0 ↔
          ∀ i ∈ s.framesIn r, i ∉ s.bitmap.clearBits s.frames := by
        rw [Finset.card_eq_zero, Finset.eq_empty_iff_forall_notMem]
        simp only [Finset.mem_inter, not_and]
        exact forall_congr' fun i => imp_not_comm
      rw [Nat.add_eq_zero_iff, hiff, hnone, List.pairwise_cons, List.forall_mem_cons]
      simp only [hframes, hclear, Finset.mem_union, not_or]
      constructor
      · rintro ⟨h1, h2, h3⟩
        refine ⟨⟨fun x hx => ?_, h2⟩, h1, fun x hx i hi => (h3 x hx i hi).1⟩
        rw [apart_iff hc hmem (hrest x hx) (hw r hmem) (hw x (hrest x hx))]
        intro i hi hi'
        exact (h3 x hx i hi').2 hi
      · rintro ⟨⟨h1, h2⟩, h3, h4⟩
        refine ⟨h3, h2, fun x hx i hi => ⟨h4 x hx i hi, fun hi' => ?_⟩⟩
        exact (apart_iff hc hmem (hrest x hx) (hw r hmem) (hw x (hrest x hx))).mp (h1 x hx) i hi' hi

theorem addRegion_length {rs : List Region} (h : rs.length ≤ maxRegions) (base len : ℕ) :
    (addRegion rs base len).length ≤ maxRegions := by
  unfold addRegion
  dsimp only
  split_ifs with h1
  · exact h
  · exact h
  · exact h
  · rw [List.length_append, List.length_singleton]
    omega

theorem regionsOf_length (map : MemoryMap) : (regionsOf map).length ≤ 64 := by
  have fold (usable : ℕ) (es : List MapEntry) (rs : List Region) (h : rs.length ≤ maxRegions) :
      (es.foldl (addEntry usable) rs).length ≤ maxRegions := by
    induction es generalizing rs with
    | nil => exact h
    | cons e es ih =>
      refine ih _ ?_
      unfold addEntry
      split_ifs
      · exact addRegion_length h _ _
      · exact h
  cases map with
  | efi es => exact fold 7 es [] (Nat.zero_le _)
  | mmap es => exact fold 1 es [] (Nat.zero_le _)
  | basic upper =>
    simp only [regionsOf]
    split_ifs
    · exact addRegion_length (Nat.zero_le _) _ _
    · exact Nat.zero_le _
  | missing => exact Nat.zero_le _

theorem beforeReserve_surplus (storage : Bitmap) {map : MemoryMap} (hb : UpperFits map)
    (hw : ∀ r ∈ regionsOf map, 4096 ∣ r.len) :
    (beforeReserve storage map).Paged ∧ ∃ k, (beforeReserve storage map).Surplus (4096 * k) ∧
      (k = 0 ↔ (regionsOf map).Pairwise Region.Apart) := by
  obtain ⟨hcov, hregs, hzero, hall⟩ := allUsed_spec storage hb
  have hlen := regionsOf_length map
  rw [← hregs] at hlen hw
  have hempty : (allUsed storage map).bitmap.clearBits (allUsed storage map).frames = ∅ := by
    refine Finset.eq_empty_of_forall_notMem fun i hi => ?_
    obtain ⟨hlt, hc⟩ := Bitmap.mem_clearBits.mp hi
    simp [hall i hlt] at hc
  have hfund : (allUsed storage map).Surplus 0 := by
    rw [Pmm.Surplus, hempty, Finset.card_empty, hzero]
  obtain ⟨k, hk, hiff⟩ := freeRegions_surplus hcov hw (fun r hr => hr) (by omega) hfund
  rw [hempty, hregs] at hiff
  rw [Nat.zero_add] at hk
  obtain ⟨hcov', hregs', -⟩ := beforeReserve_spec storage hb
  refine ⟨hcov'.toFramed.paged ?_, k, hk, by simpa using hiff⟩
  rcases hcov'.limit_end with ⟨-, h0⟩ | ⟨r, hr, hend⟩
  · rw [h0]
    exact ⟨0, rfl⟩
  · have hal := (hcov'.regionsOk.ok r hr).aligned
    have hlen := hw r (by rw [hregs, ← hregs']; exact hr)
    omega

theorem initFromMap_surplus {storage : Bitmap} {map : MemoryMap} {d : ℕ} (hp : (beforeReserve storage map).Paged)
    (h : (beforeReserve storage map).Surplus d) :
    (initFromMap storage map).Paged ∧ (initFromMap storage map).Surplus d := by
  have h1 := pmmReserve_same (beforeReserve storage map) (beforeReserve storage map).bitmapBase frameSize
  rw [initFromMap_eq]
  refine ⟨(pmmReserve_same _ 0 0x100000).paged (h1.paged hp), ?_⟩
  apply pmmReserve_surplus (h1.paged hp)
  exact pmmReserve_surplus hp h _ _

theorem initFromMap_funded (storage : Bitmap) {map : MemoryMap} (hb : UpperFits map)
    (hw : ∀ r ∈ regionsOf map, 4096 ∣ r.len) :
    (initFromMap storage map).Funded ∧ 4096 ∣ (initFromMap storage map).bitmapLimit := by
  obtain ⟨hpaged, k, hk, -⟩ := beforeReserve_surplus storage hb hw
  obtain ⟨hpaged', hk'⟩ := initFromMap_surplus hpaged hk
  exact ⟨funded_iff.mpr ⟨_, hk'⟩, hpaged'.limit_aligned⟩

theorem scanRun_one {b : Bitmap} {n i j runStart : ℕ} (hj : b.test j = false) (hij : i ≤ j) (hjn : j < i + n) :
    ∃ r, r ≤ j ∧ scanRun b 1 n i 0 runStart = some r := by
  induction n generalizing i runStart with
  | zero => omega
  | succ n ih =>
    rw [scanRun]
    by_cases ht : b.test i = false
    · rw [if_pos ht]
      exact ⟨i, hij, rfl⟩
    · have hne : i ≠ j := by
        rintro rfl
        exact ht hj
      rw [if_neg ht]
      exact ih (by omega) (by omega)

theorem Reach.hand_out {s₀ : Pmm} {live : List Alloc} (hr : Reach s₀ s live) (hf : s.Framed) (h : s.Funded)
    {i : ℕ} (hi : i < s.frames) (hc : s.bitmap.test i = false)
    (hne : ∀ k < s.frames, s.bitmap.test k = false → s.frameAddr k ≠ 0) :
    ∃ s' live', Reach s₀ s' live' ∧ ⟨s.frameAddr i, 1⟩ ∈ live' := by
  induction hn : (s.bitmap.clearBits s.frames).card generalizing s live with
  | zero =>
    have hmem : i ∈ s.bitmap.clearBits s.frames := Bitmap.mem_clearBits.mpr ⟨hi, hc⟩
    rw [Finset.card_eq_zero.mp hn] at hmem
    simp at hmem
  | succ n ih =>
    obtain ⟨r, hri, hscan⟩ : ∃ r, r ≤ i ∧ scanRun s.bitmap 1 s.frames 0 0 0 = some r :=
      scanRun_one hc (Nat.zero_le _) (by omega)
    have hfree : s.Funded := h
    unfold Pmm.Funded at h
    have halloc : pmmAllocFrames s 1 = (s.frameAddr r % 2 ^ 64,
        { s with bitmap := s.bitmap.fill true 1 r, free := sub64 s.free (1 * frameSize % 2 ^ 64) }) := by
      unfold pmmAllocFrames allocBelowIndex
      rw [if_neg Nat.one_ne_zero]
      dsimp only
      rw [if_neg (by rw [frameSize_eq]; omega), hscan, Pmm.frameAddr]
    have hlt := hf.frame_lt (i := r) (by omega)
    have hlim := hf.limit_le
    have hclear := (scanRun_sound (.inl rfl) (fun j _ hj => by omega) hscan).2 r (le_refl _) (by omega)
    have hstep := Reach.alloc 1 hr
    rw [halloc, Nat.mod_eq_of_lt (show s.frameAddr r < 2 ^ 64 by omega), grant,
      if_neg (hne r (by omega) hclear)] at hstep
    by_cases hir : i = r
    · subst hir
      exact ⟨_, _, hstep, List.mem_cons_self⟩
    · have hmem : r ∈ s.bitmap.clearBits s.frames := Bitmap.mem_clearBits.mpr ⟨by omega, hclear⟩
      have hcard : ((s.bitmap.fill true 1 r).clearBits s.frames).card = n := by
        have hset : s.bitmap.fill true 1 r = s.bitmap.set r := rfl
        rw [hset, Bitmap.clearBits_set, Finset.card_erase_of_mem hmem, hn, Nat.add_sub_cancel]
      have hnext := ih hstep ⟨hf.base_aligned, hf.base_le, hf.limit_le⟩
      refine hnext ?_ hi ?_ (fun k hk hc' => hne k hk ?_) hcard
      · change 4096 * ((s.bitmap.fill true 1 r).clearBits s.frames).card ≤
          sub64 s.free (1 * frameSize % 2 ^ 64)
        rw [hcard, frameSize_eq, sub64_of_le (by omega)]
        omega
      · rw [Bitmap.test_fill, if_neg (by omega), hc]
      · rw [Bitmap.test_fill] at hc'
        split_ifs at hc'
        exact hc'

end DexOs.Frames
