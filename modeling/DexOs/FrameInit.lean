import DexOs.FrameSpec

/-! The free frames after `pmm_init`. -/

namespace DexOs.Frames

open DexOs.Lib DexOs.Mb2

def usableEntries : MemoryMap → List MapEntry
  | .efi es => es.filter (·.type = 7)
  | .mmap es => es.filter (·.type = 1)
  | .basic upper => [⟨0x100000, upper * 1024, 1⟩]
  | .missing => []

def Bounded (map : MemoryMap) : Prop := ∀ e ∈ usableEntries map, e.base < 2 ^ 52 ∧ e.length < 2 ^ 52

structure RegionOk (r : Region) : Prop where
  aligned : 4096 ∣ r.base
  pos : 0 < r.len
  limit : r.base + r.len ≤ 2 ^ 32

/-- The regions are made of whole frames, or there is only one. -/
structure RegionsOk (rs : List Region) : Prop where
  ok : ∀ r ∈ rs, RegionOk r
  whole : (∀ r ∈ rs, 4096 ∣ r.len) ∨ ∃ r, rs = [r]

theorem mem_addRegion {rs : List Region} {base len : ℕ} (hb : base + len < 2 ^ 64) {r : Region}
    (hr : r ∈ addRegion rs base len) :
    r ∈ rs ∨ (r.base = base ∧ 0 < r.len ∧ r.base + r.len ≤ 2 ^ 32 ∧ r.len ≤ len ∧
      (r.len = len ∨ r.base + r.len = 2 ^ 32)) := by
  unfold addRegion at hr
  dsimp only at hr
  rw [Nat.mod_eq_of_lt hb] at hr
  have hcap : cap = 2 ^ 32 := rfl
  split_ifs at hr with h1 h2 h3
  · exact .inl hr
  · exact .inl hr
  · exact .inl hr
  · rcases List.mem_append.mp hr with hr | hr
    · exact .inl hr
    · obtain rfl := List.mem_singleton.mp hr
      dsimp only
      omega

theorem addRegion_zero (rs : List Region) (base : ℕ) : addRegion rs base 0 = rs := by
  unfold addRegion
  rw [if_pos (Or.inl (Eq.refl 0))]

theorem mem_addEntry {usable : ℕ} {rs : List Region} {e : MapEntry} {r : Region}
    (hr : r ∈ addEntry usable rs e) :
    r ∈ rs ∨ (e.type = usable ∧ RegionOk r ∧ 4096 ∣ r.len ∧
      (e.base < 2 ^ 52 ∧ e.length < 2 ^ 52 → e.base ≤ r.base ∧ r.base + r.len ≤ e.base + e.length)) := by
  unfold addEntry at hr
  split_ifs at hr with ht
  · dsimp only at hr
    have hup : alignUp e.base frameSize = (e.base + 4095) % 2 ^ 64 / 4096 * 4096 := by
      rw [alignUp, frameSize_eq]
    have hdown : alignDown ((e.length + e.base) % 2 ^ 64) frameSize =
        (e.length + e.base) % 2 ^ 64 / 4096 * 4096 := by
      rw [alignDown, frameSize_eq]
    generalize alignUp e.base frameSize = first at hr hup
    generalize alignDown ((e.length + e.base) % 2 ^ 64) frameSize = last at hr hdown
    by_cases hlt : first < last
    · rw [if_pos hlt] at hr
      have hsum : first + (last - first) < 2 ^ 64 := by omega
      rcases mem_addRegion hsum hr with hr | ⟨h1, h2, h3, h4, h5⟩
      · exact .inl hr
      · refine .inr ⟨ht, ⟨by omega, h2, h3⟩, by omega, fun hb => ?_⟩
        rw [Nat.mod_eq_of_lt (by omega)] at hup hdown
        omega
    · rw [if_neg hlt, addRegion_zero] at hr
      exact .inl hr
  · exact .inl hr

theorem mem_foldl_addEntry {usable : ℕ} {es : List MapEntry} {rs : List Region} {r : Region}
    (hr : r ∈ es.foldl (addEntry usable) rs) :
    r ∈ rs ∨ ∃ e ∈ es, e.type = usable ∧ RegionOk r ∧ 4096 ∣ r.len ∧
      (e.base < 2 ^ 52 ∧ e.length < 2 ^ 52 → e.base ≤ r.base ∧ r.base + r.len ≤ e.base + e.length) := by
  induction es generalizing rs with
  | nil => exact .inl hr
  | cons e es ih =>
    rcases ih hr with hr | ⟨x, hx, h⟩
    · rcases mem_addEntry hr with hr | h
      · exact .inl hr
      · exact .inr ⟨e, List.mem_cons_self, h⟩
    · exact .inr ⟨x, List.mem_cons_of_mem _ hx, h⟩

def UpperFits : MemoryMap → Prop
  | .basic upper => upper * 1024 < 2 ^ 52
  | _ => True

theorem Bounded.upperFits {map : MemoryMap} (hb : Bounded map) : UpperFits map := by
  cases map with
  | basic upper => exact (hb _ (List.mem_singleton_self _)).2
  | _ => trivial

theorem readMemoryMap_upperFits {fuel info : ℕ} {m : Memory} {fromUefi : Bool} {map : MemoryMap}
    (h : readMemoryMap fuel m info fromUefi = some map) : UpperFits map := by
  cases map with
  | basic upper =>
    have hfind : findBasic fuel m info = some (some upper) := by
      by_cases h0 : info = 0
      · simp [readMemoryMap, h0] at h
      rw [readMemoryMap, if_neg h0] at h
      obtain ⟨_ | efi, -, h⟩ := Option.bind_eq_some_iff.mp h
      · obtain ⟨_ | es, -, h⟩ := Option.bind_eq_some_iff.mp h
        · obtain ⟨_ | u, hfind, h⟩ := Option.bind_eq_some_iff.mp h
          · simp at h
          · obtain ⟨rfl⟩ := Option.some.inj h
            exact hfind
        · simp at h
      · simp at h
    have hlt : ∀ u, some upper = some u → u < 2 ^ 32 := by
      refine tagLoop_inv (P := fun acc => ∀ u, acc = some u → u < 2 ^ 32) ?_ (by simp) hfind
      intro t acc acc' stop hacc hb
      split_ifs at hb
      · obtain ⟨rfl, -⟩ := Prod.mk.inj (Option.some.inj hb)
        rintro u ⟨⟩
        exact leNat_lt _ _ _
      · obtain ⟨rfl, -⟩ := Prod.mk.inj (Option.some.inj hb)
        exact hacc
    have := hlt upper rfl
    simp only [UpperFits]
    omega
  | _ => trivial

theorem regionsOf_ok {map : MemoryMap} (hb : UpperFits map) : RegionsOk (regionsOf map) := by
  have whole (usable : ℕ) (es : List MapEntry) : RegionsOk (es.foldl (addEntry usable) []) := by
    refine ⟨fun r hr => ?_, .inl (fun r hr => ?_)⟩
    all_goals
      rcases mem_foldl_addEntry hr with hr | ⟨e, _, _, hok, hlen, _⟩
      · simp at hr
      · first | exact hok | exact hlen
  cases map with
  | efi es => exact whole 7 es
  | mmap es => exact whole 1 es
  | basic upper =>
    simp only [UpperFits] at hb
    have hmem : ∀ r ∈ regionsOf (.basic upper), RegionOk r := by
      intro r hr
      simp only [regionsOf] at hr
      split_ifs at hr
      · rcases mem_addRegion (by omega) hr with hr | ⟨h1, h2, h3, _⟩
        · simp at hr
        · exact ⟨by omega, h2, h3⟩
      · simp at hr
    refine ⟨hmem, ?_⟩
    simp only [regionsOf, addRegion]
    split_ifs
    all_goals first
      | exact .inr ⟨_, rfl⟩
      | exact .inl (by simp)
  | missing => exact ⟨by simp [regionsOf], .inl (by simp [regionsOf])⟩

theorem regionsOf_usable {map : MemoryMap} (hb : Bounded map) {r : Region} (hr : r ∈ regionsOf map) :
    ∃ e ∈ usableEntries map, e.base ≤ r.base ∧ r.base + r.len ≤ e.base + e.length := by
  have inside (usable : ℕ) (es : List MapEntry) (hr : r ∈ es.foldl (addEntry usable) [])
      (hes : ∀ e ∈ es.filter (·.type = usable), e.base < 2 ^ 52 ∧ e.length < 2 ^ 52) :
      ∃ e ∈ es.filter (·.type = usable), e.base ≤ r.base ∧ r.base + r.len ≤ e.base + e.length := by
    rcases mem_foldl_addEntry hr with hr | ⟨e, he, ht, _, _, h⟩
    · simp at hr
    · have he' : e ∈ es.filter (·.type = usable) := by simp [he, ht]
      exact ⟨e, he', h (hes e he')⟩
  cases map with
  | efi es => exact inside 7 es hr hb
  | mmap es => exact inside 1 es hr hb
  | basic upper =>
    have hu := hb.upperFits
    simp only [UpperFits] at hu
    refine ⟨_, List.mem_singleton_self _, ?_⟩
    simp only [regionsOf] at hr
    split_ifs at hr
    · rcases mem_addRegion (by omega) hr with hr | ⟨h1, h2, h3, h4, _⟩
      · simp at hr
      · dsimp only
        omega
    · simp at hr
  | missing => simp [regionsOf] at hr

theorem widen_eq {r : Region} (hr : RegionOk r) (b : ℕ × ℕ) :
    widen b r = (min b.1 r.base, max b.2 (r.base + r.len)) := by
  have hcap : cap = 2 ^ 32 := rfl
  have hpos := hr.pos
  have hlim := hr.limit
  unfold widen
  dsimp only
  rw [if_neg (by omega), Nat.mod_eq_of_lt (a := r.base + r.len) (by omega),
    Nat.min_eq_left (a := r.base + r.len) (by omega)]

theorem foldl_widen {rs : List Region} (hr : ∀ r ∈ rs, RegionOk r) (b : ℕ × ℕ) :
    ((rs.foldl widen b).1 ≤ b.1 ∧ b.2 ≤ (rs.foldl widen b).2 ∧
      ∀ r ∈ rs, (rs.foldl widen b).1 ≤ r.base ∧ r.base + r.len ≤ (rs.foldl widen b).2) ∧
    ((rs.foldl widen b).1 = b.1 ∨ ∃ r ∈ rs, (rs.foldl widen b).1 = r.base) ∧
    ((rs.foldl widen b).2 = b.2 ∨ ∃ r ∈ rs, (rs.foldl widen b).2 = r.base + r.len) := by
  induction rs generalizing b with
  | nil => simp
  | cons r rs ih =>
    have h := ih (fun x hx => hr x (List.mem_cons_of_mem _ hx)) (widen b r)
    rw [List.foldl_cons]
    generalize rs.foldl widen (widen b r) = c at h ⊢
    rw [widen_eq (hr r List.mem_cons_self)] at h
    obtain ⟨⟨ha, hb, hall⟩, hlo, hhi⟩ := h
    dsimp only at ha hb hlo hhi
    refine ⟨⟨ha.trans (min_le_left _ _), (le_max_left _ _).trans hb, ?_⟩, ?_, ?_⟩
    · intro x hx
      rcases List.mem_cons.mp hx with rfl | hx
      · exact ⟨ha.trans (min_le_right _ _), (le_max_right _ _).trans hb⟩
      · exact hall x hx
    · rcases hlo with hlo | ⟨x, hx, hlo⟩
      · rcases min_choice b.1 r.base with h | h
        · exact .inl (hlo.trans h)
        · exact .inr ⟨r, List.mem_cons_self, hlo.trans h⟩
      · exact .inr ⟨x, List.mem_cons_of_mem _ hx, hlo⟩
    · rcases hhi with hhi | ⟨x, hx, hhi⟩
      · rcases max_choice b.2 (r.base + r.len) with h | h
        · exact .inl (hhi.trans h)
        · exact .inr ⟨r, List.mem_cons_self, hhi.trans h⟩
      · exact .inr ⟨x, List.mem_cons_of_mem _ hx, hhi⟩

structure Covers (s : Pmm) : Prop extends s.Framed where
  regionsOk : RegionsOk s.regions
  inside : ∀ r ∈ s.regions, s.bitmapBase ≤ r.base ∧ r.base + r.len ≤ s.bitmapLimit
  base_start : s.regions = [] ∨ ∃ r ∈ s.regions, s.bitmapBase = r.base
  limit_end : (s.regions = [] ∧ s.bitmapLimit = 0) ∨ ∃ r ∈ s.regions, s.bitmapLimit = r.base + r.len

theorem SameFrame.covers {s s' : Pmm} (h : SameFrame s s') (hc : Covers s) : Covers s' where
  toFramed := h.framed hc.toFramed
  regionsOk := by rw [h.regions]; exact hc.regionsOk
  inside := by rw [h.regions, h.base, h.limit]; exact hc.inside
  base_start := by rw [h.regions, h.base]; exact hc.base_start
  limit_end := by rw [h.regions, h.limit]; exact hc.limit_end

theorem buildBitmapBounds_covers {s : Pmm} (hr : RegionsOk s.regions) : Covers (buildBitmapBounds s) := by
  obtain ⟨⟨hlo', hhi', hall⟩, hlo, hhi⟩ := foldl_widen hr.ok (2 ^ 64 - 1, 0)
  change (bounds s.regions).1 ≤ _ at hlo'
  change ∀ r ∈ s.regions, (bounds s.regions).1 ≤ r.base ∧ r.base + r.len ≤ (bounds s.regions).2 at hall
  change (bounds s.regions).1 = _ ∨ ∃ r ∈ s.regions, (bounds s.regions).1 = r.base at hlo
  change (bounds s.regions).2 = _ ∨ ∃ r ∈ s.regions, (bounds s.regions).2 = r.base + r.len at hhi
  unfold buildBitmapBounds
  dsimp only
  by_cases hnil : s.regions = []
  · rw [if_pos (Or.inl hnil)]
    exact ⟨⟨⟨0, rfl⟩, le_refl _, Nat.zero_le _⟩, hr, by simp [hnil], .inl hnil, .inl ⟨hnil, rfl⟩⟩
  obtain ⟨r, hmem⟩ := List.exists_mem_of_ne_nil _ hnil
  have hrok := hr.ok r hmem
  have hrin := hall r hmem
  have hpos := hrok.pos
  have hlim := hrok.limit
  obtain ⟨x, hx, hlox⟩ : ∃ r ∈ s.regions, (bounds s.regions).1 = r.base := by
    rcases hlo with h | h
    · exact absurd hrin.1 (by rw [h]; dsimp only; omega)
    · exact h
  obtain ⟨y, hy, hhiy⟩ : ∃ r ∈ s.regions, (bounds s.regions).2 = r.base + r.len := by
    rcases hhi with h | h
    · exact absurd hrin.2 (by rw [h]; dsimp only; omega)
    · exact h
  have hxal := (hr.ok x hx).aligned
  have hylim := (hr.ok y hy).limit
  have hfits : ¬ maxFrames * frameSize < (bounds s.regions).2 - (bounds s.regions).1 := by
    simp only [maxFrames, frameSize_eq]
    clear hlo hhi
    omega
  rw [if_neg (by
    rintro (h | h)
    · exact hnil h
    · clear hlo hhi
      omega)]
  simp only [hfits, ↓reduceIte]
  refine ⟨⟨?_, ?_, ?_⟩, hr, hall, .inr ⟨x, hx, hlox⟩, .inr ⟨y, hy, hhiy⟩⟩
  · dsimp only
    rw [hlox]
    exact hxal
  · dsimp only
    clear hlo hhi
    omega
  · dsimp only
    rw [hhiy]
    exact hylim

theorem freeRegions_same (rs : List Region) (s : Pmm) : SameFrame s (freeRegions rs s) := by
  induction rs generalizing s with
  | nil => exact SameFrame.refl s
  | cons r rs ih =>
    rw [freeRegions]
    refine SameFrame.trans ?_ (ih _)
    dsimp only
    split_ifs
    · have h := markRange_same s (max r.base s.bitmapBase)
        (min ((r.base + r.len) % 2 ^ 64) s.bitmapLimit - max r.base s.bitmapBase) false
      exact ⟨h.regions, h.base, h.limit⟩
    · exact SameFrame.refl s

def Pmm.FrameIn (s : Pmm) (r : Region) (i : ℕ) : Prop :=
  r.base ≤ s.frameAddr i ∧ s.frameAddr i + 4096 ≤ r.base + r.len

theorem markRange_region {s : Pmm} (hc : Covers s) {r : Region} (hr : r ∈ s.regions) (i : ℕ) :
    (markRange s r.base r.len false).bitmap.test i = false ↔ s.FrameIn r i ∨ s.bitmap.test i = false := by
  have hok := hc.regionsOk.ok r hr
  have hal := hok.aligned
  have hlim := hok.limit
  obtain ⟨hlo, hhi⟩ := hc.inside r hr
  have hend : (s.clamp r.base r.len).2 = r.base + r.len := by
    simp only [Pmm.clamp, alignUp, frameSize_eq]
    rw [Nat.mod_eq_of_lt (by omega)]
    rcases hc.regionsOk.whole with hw | ⟨x, hx⟩
    · have := hw r hr
      omega
    · rw [hx, List.mem_singleton] at hr
      subst hr
      rcases hc.limit_end with h | ⟨y, hy, h⟩
      · simp [hx] at h
      · rw [hx, List.mem_singleton] at hy
        subst hy
        omega
  have hstart : (s.clamp r.base r.len).1 = r.base := by
    simp only [Pmm.clamp, alignDown, frameSize_eq]
    omega
  rw [markRange_test hc.toFramed hok.pos, hend, hstart, Pmm.FrameIn]
  split_ifs with h <;> simp [h]

theorem freeRegions_cons {s : Pmm} (hc : Covers s) {r : Region} {rs : List Region} (hr : r ∈ s.regions) :
    freeRegions (r :: rs) s = freeRegions rs
      { markRange s r.base r.len false with free := (s.free + r.len) % 2 ^ 64 } := by
  have hok := hc.regionsOk.ok r hr
  have hpos := hok.pos
  have hlim := hok.limit
  obtain ⟨hlo, hhi⟩ := hc.inside r hr
  have hfirst : max r.base s.bitmapBase = r.base := max_eq_left hlo
  have hlast : min ((r.base + r.len) % 2 ^ 64) s.bitmapLimit = r.base + r.len := by
    rw [Nat.mod_eq_of_lt (by omega), min_eq_left hhi]
  rw [freeRegions]
  dsimp only
  rw [hfirst, hlast, if_pos (by omega), Nat.add_sub_cancel_left]

theorem freeRegions_test {s : Pmm} (hc : Covers s) {rs : List Region} (hrs : ∀ r ∈ rs, r ∈ s.regions)
    (i : ℕ) : (freeRegions rs s).bitmap.test i = false ↔
      (∃ r ∈ rs, s.FrameIn r i) ∨ s.bitmap.test i = false := by
  induction rs generalizing s with
  | nil => simp [freeRegions]
  | cons r rs ih =>
    have hmem := hrs r List.mem_cons_self
    have hsame := markRange_same s r.base r.len false
    have hsame' : SameFrame s { markRange s r.base r.len false with free := (s.free + r.len) % 2 ^ 64 } :=
      ⟨hsame.regions, hsame.base, hsame.limit⟩
    rw [freeRegions_cons hc hmem, ih (hsame'.covers hc) (fun x hx => by
      rw [hsame'.regions]
      exact hrs x (List.mem_cons_of_mem _ hx))]
    dsimp only
    rw [markRange_region hc hmem]
    simp only [List.mem_cons, exists_eq_or_imp, Pmm.FrameIn, hsame'.frameAddr]
    rw [or_left_comm, or_assoc]

def allUsed (storage : Bitmap) (map : MemoryMap) : Pmm :=
  let rs := regionsOf map
  let s := buildBitmapBounds ⟨rs, 0, 0, totalLen rs, totalLen rs, 0, storage⟩
  markRange s s.bitmapBase (sub64 s.bitmapLimit s.bitmapBase) true

def beforeReserve (storage : Bitmap) (map : MemoryMap) : Pmm :=
  freeRegions (allUsed storage map).regions (allUsed storage map)

theorem initFromMap_eq (storage : Bitmap) (map : MemoryMap) :
    initFromMap storage map = pmmReserve (pmmReserve (beforeReserve storage map)
      (beforeReserve storage map).bitmapBase frameSize) 0 0x100000 := rfl

theorem buildBitmapBounds_keeps (s : Pmm) :
    (buildBitmapBounds s).regions = s.regions ∧ (buildBitmapBounds s).free = s.free := by
  unfold buildBitmapBounds
  dsimp only
  split_ifs <;> exact ⟨rfl, rfl⟩

theorem markRange_free (s : Pmm) (paddr size : ℕ) (used : Bool) :
    (markRange s paddr size used).free = s.free := by
  unfold markRange
  dsimp only
  split_ifs <;> rfl

theorem allUsed_spec (storage : Bitmap) {map : MemoryMap} (hb : UpperFits map) :
    Covers (allUsed storage map) ∧ (allUsed storage map).regions = regionsOf map ∧
      (allUsed storage map).free = 0 ∧
      ∀ i < (allUsed storage map).frames, (allUsed storage map).bitmap.test i = true := by
  have hcov := buildBitmapBounds_covers (s := ⟨regionsOf map, 0, 0, totalLen (regionsOf map),
    totalLen (regionsOf map), 0, storage⟩) (regionsOf_ok hb)
  obtain ⟨hregs, hzero⟩ := buildBitmapBounds_keeps ⟨regionsOf map, 0, 0, totalLen (regionsOf map),
    totalLen (regionsOf map), 0, storage⟩
  unfold allUsed
  dsimp only
  generalize buildBitmapBounds ⟨regionsOf map, 0, 0, totalLen (regionsOf map),
    totalLen (regionsOf map), 0, storage⟩ = s at hregs hzero hcov ⊢
  have hbase := hcov.base_aligned
  have hlim := hcov.limit_le
  rw [sub64_of_le hcov.base_le]
  have hmark := markRange_same s s.bitmapBase (s.bitmapLimit - s.bitmapBase) true
  refine ⟨hmark.covers hcov, hmark.regions.trans hregs, (markRange_free _ _ _ _).trans hzero, ?_⟩
  intro i hi
  rw [hmark.frames] at hi
  have hfr := hcov.frame_lt hi
  have hge : s.bitmapBase ≤ s.frameAddr i := Nat.le_add_right _ _
  rw [markRange_test hcov.toFramed (by omega), if_pos]
  simp only [Pmm.clamp, alignDown, alignUp, frameSize_eq]
  omega

theorem beforeReserve_spec (storage : Bitmap) {map : MemoryMap} (hb : UpperFits map) :
    Covers (beforeReserve storage map) ∧ (beforeReserve storage map).regions = regionsOf map ∧
      ∀ i < (beforeReserve storage map).frames, (beforeReserve storage map).bitmap.test i = false ↔
        ∃ r ∈ regionsOf map, (beforeReserve storage map).FrameIn r i := by
  obtain ⟨hcov, hregs, -, hall⟩ := allUsed_spec storage hb
  unfold beforeReserve
  generalize allUsed storage map = t at *
  have hfree := freeRegions_same t.regions t
  refine ⟨hfree.covers hcov, by rw [hfree.regions, hregs], fun i hi => ?_⟩
  rw [hfree.frames] at hi
  have hframe : ∀ r, (freeRegions t.regions t).FrameIn r i ↔ t.FrameIn r i := fun r => by
    rw [Pmm.FrameIn, Pmm.FrameIn, hfree.frameAddr]
  simp only [hframe]
  rw [freeRegions_test hcov (fun r hr => hr), hall i hi, hregs]
  simp only [Bool.true_eq_false, or_false]

theorem initFromMap_spec (storage : Bitmap) {map : MemoryMap} (hb : UpperFits map) :
    Covers (initFromMap storage map) ∧ (initFromMap storage map).regions = regionsOf map ∧
      ∀ i < (initFromMap storage map).frames, (initFromMap storage map).bitmap.test i = false ↔
        (∃ r ∈ regionsOf map, (initFromMap storage map).FrameIn r i) ∧
          0x100000 ≤ (initFromMap storage map).frameAddr i ∧ i ≠ 0 := by
  obtain ⟨hcov, hregs, hfree⟩ := beforeReserve_spec storage hb
  rw [initFromMap_eq]
  generalize beforeReserve storage map = s at *
  have h1 := pmmReserve_same s s.bitmapBase frameSize
  have h2 := h1.trans (pmmReserve_same (pmmReserve s s.bitmapBase frameSize) 0 0x100000)
  refine ⟨h2.covers hcov, by rw [h2.regions, hregs], fun i hi => ?_⟩
  rw [h2.frames] at hi
  have hfr := hcov.frame_lt hi
  have hbase := hcov.base_aligned
  have hlim := hcov.limit_le
  have hframe : ∀ r, (pmmReserve (pmmReserve s s.bitmapBase frameSize) 0 0x100000).FrameIn r i ↔
      s.FrameIn r i := fun r => by rw [Pmm.FrameIn, Pmm.FrameIn, h2.frameAddr]
  simp only [hframe]
  rw [h2.frameAddr, pmmReserve_test (h1.framed hcov.toFramed), pmmReserve_test hcov.toFramed,
    Bool.or_eq_false_iff, Bool.or_eq_false_iff, hfree i hi, and_assoc]
  refine and_congr_right fun _ => ?_
  rw [h1.frameAddr]
  simp only [decide_eq_false_iff_not, Pmm.clamp, h1.base, h1.limit, alignDown, alignUp]
  rw [frameSize_eq]
  simp only [Pmm.frameAddr, frameSize_eq] at hfr ⊢
  omega

end DexOs.Frames
