import DexOs.KernelHeapSafety
import Mathlib.Order.Bounds.Basic

/-! Which block `kmalloc` takes for a request, and when it fails. -/

namespace DexOs.KernelHeap

open DexOs.Lib

variable {u : ℕ} {S : Space} {R : Region} {h h' : Heap} {blocks live : List ℕ} {fuel n p : ℕ}

def rounded (n : ℕ) : ℕ := (n + 15) / 16 * 16

theorem alignUp_eq_rounded (hn : n + 15 < 2 ^ 64) : alignUp n 16 = rounded n := by
  rw [alignUp, rounded, Nat.mod_eq_of_lt hn]

theorem alignUp_wraps (hn : n < 2 ^ 64) (hbig : 2 ^ 64 ≤ n + 15) : alignUp n 16 = 0 := by
  rw [alignUp]
  omega

theorem kmalloc_first (t : Tiled u S h blocks) (hf : S.size / 32 < fuel) (h0 : n ≠ 0) :
    ((∀ b ∈ blocks, ¬ Fits h (alignUp n 16) b) ∧ kmalloc fuel h n = some (0, h)) ∨
    ∃ pre b post, blocks = pre ++ b :: post ∧ Fits h (alignUp n 16) b ∧ (∀ c ∈ pre, ¬ Fits h (alignUp n 16) c) ∧
      kmalloc fuel h n = some (b + headerSize, (splitBlock h b (alignUp n 16)).store b
        { (splitBlock h b (alignUp n 16)).header b with free := false }) := by
  have hends : (findBlock h (alignUp n 16) fuel h.head).isSome :=
    findBlock_isSome t.linked (lt_of_le_of_lt t.length_le hf)
  obtain ⟨cur, hcur⟩ := Option.isSome_iff_exists.mp hends
  by_cases hhead : h.head = 0
  · left
    have hnil : blocks = [] := t.linked.unique ((linked_nil ..).mpr hhead)
    refine ⟨by simp [hnil], ?_⟩
    rw [kmalloc, if_pos (.inr hhead)]
  rw [kmalloc, if_neg (by tauto)]
  dsimp only
  rw [hcur, Option.map_some]
  rcases findBlock_spec t.linked hcur with ⟨rfl, hnone⟩ | ⟨pre, post, rfl, hfits, hpre⟩
  · exact .inl ⟨hnone, by rw [if_pos rfl]⟩
  · right
    have hmem : cur ∈ pre ++ cur :: post := by simp
    have hend := t.end_lt hmem
    refine ⟨pre, cur, post, rfl, hfits, hpre, ?_⟩
    rw [if_neg (t.block_pos hmem).ne', Nat.mod_eq_of_lt (show cur + headerSize < 2 ^ 64 by omega)]

theorem Tiled.isLeast_first {pre post : List ℕ} {b asize : ℕ} (t : Tiled u S h (pre ++ b :: post))
    (hb : Fits h asize b) (hpre : ∀ c ∈ pre, ¬ Fits h asize c) :
    IsLeast {c | c ∈ pre ++ b :: post ∧ Fits h asize c} b := by
  refine ⟨⟨by simp, hb⟩, ?_⟩
  rintro c ⟨hc, hfits⟩
  have hsorted := t.tiles.pairwise fun c _ => lt_blockEnd h.header c
  rw [List.pairwise_append] at hsorted
  rcases List.mem_append.mp hc with hc | hc
  · exact absurd hfits (hpre c hc)
  · rcases List.mem_cons.mp hc with rfl | hc
    · exact le_refl c
    · have hle := (List.pairwise_cons.mp hsorted.2.1).1 c hc
      exact (lt_blockEnd h.header b).le.trans hle

theorem splitBlock_size {pre post : List ℕ} {b asize : ℕ} (t : Tiled u S h (pre ++ b :: post))
    (hs : asize ≤ (h.header b).size) (ha : 16 ∣ asize) : asize ≤ ((splitBlock h b asize).header b).size := by
  rcases splitBlock_cases t hs ha with he | ⟨n, rest, -, -, -, -, hb, -, -⟩
  · rwa [he]
  · rw [hb]

/-- What a caller of `kmalloc` with size `n` is promised, for the block lists before and after. -/
structure Served (h : Heap) (n p : ℕ) (h' : Heap) (blocks blocks' : List ℕ) : Prop where
  null_iff : p = 0 ↔ n = 0 ∨ ∀ b ∈ blocks, ¬ Fits h (rounded n) b
  unchanged : p = 0 → h' = h
  lowest : p ≠ 0 → ∃ b, IsLeast {b | b ∈ blocks ∧ Fits h (rounded n) b} b ∧ p = b + headerSize
  usable : p ≠ 0 → n ≤ kmallocUsableSize h' p
  kept : ∀ c ∈ blocks, (h.header c).free = false →
    c ∈ blocks' ∧ (h'.header c).free = false ∧ (h'.header c).size = (h.header c).size

def Serves (h : Heap) (n : ℕ) : Prop :=
  ∃ N, ∀ fuel ≥ N, ∃ p h' blocks blocks', kmalloc fuel h n = some (p, h') ∧
    Linked (fun b => (h.header b).next) 0 h.head blocks ∧ Linked (fun b => (h'.header b).next) 0 h'.head blocks' ∧
    Served h n p h' blocks blocks'

theorem served_null (hnull : n = 0 ∨ ∀ b ∈ blocks, ¬ Fits h (rounded n) b) : Served h n 0 h blocks blocks where
  null_iff := iff_of_true rfl hnull
  unchanged _ := rfl
  lowest hp := absurd rfl hp
  usable hp := absurd rfl hp
  kept _ hc hfree := ⟨hc, hfree, rfl⟩

theorem served_of_fits (t : Tiled u S h blocks) (hn : n + 15 < 2 ^ 64) : Serves h n := by
  refine ⟨S.size / 32 + 1, fun fuel hfuel => ?_⟩
  by_cases h0 : n = 0
  · refine ⟨0, h, blocks, blocks, ?_, t.linked, t.linked, served_null (.inl h0)⟩
    rw [kmalloc, if_pos (.inl h0)]
  rcases kmalloc_first t (show S.size / 32 < fuel by omega) h0 with ⟨hall, hk⟩ | ⟨pre, b, post, rfl, hfits, hpre, hk⟩
  · rw [alignUp_eq_rounded hn] at hall
    exact ⟨0, h, blocks, blocks, hk, t.linked, t.linked, served_null (.inr hall)⟩
  · have hmem : b ∈ pre ++ b :: post := by simp
    have hdvd : 16 ∣ alignUp n 16 := alignUp_dvd n 16
    have hpos : b + headerSize ≠ 0 := by
      have := t.block_pos hmem
      omega
    obtain ⟨blocks', t', hsub, hkeep⟩ := splitBlock_spec t hfits.2 hdvd
    have hsize := splitBlock_size t hfits.2 hdvd
    have t'' := t'.setFree b false
    rw [alignUp_eq_rounded hn] at hfits hpre hsize hdvd hk t'' hkeep
    refine ⟨_, _, _, blocks', hk, t.linked, t''.linked, ?_, ?_, ?_, ?_, ?_⟩
    · refine iff_of_false hpos ?_
      rintro (hz | hall)
      · exact h0 hz
      · exact hall b hmem hfits
    · exact fun hz => absurd hz hpos
    · exact fun _ => ⟨b, t.isLeast_first hfits hpre, rfl⟩
    · intro _
      rw [usable_eq t'' (hsub b hmem), store_header, Function.update_self]
      dsimp only
      refine le_trans ?_ hsize
      rw [rounded]
      omega
    · intro c hc hfree
      have hcb : c ≠ b := by
        rintro rfl
        rw [hfits.1] at hfree
        exact Bool.noConfusion hfree
      rw [store_header, Function.update_of_ne hcb, hkeep c hc hcb]
      exact ⟨hsub c hc, hfree, rfl⟩

theorem served_of_full (t : Tiled u S h blocks) (hn : n ≠ 0) (hfull : ∀ b ∈ blocks, (h.header b).free = false) :
    Serves h n := by
  have hno (asize b : ℕ) (hb : b ∈ blocks) : ¬ Fits h asize b := by
    rintro ⟨hfree, -⟩
    rw [hfull b hb] at hfree
    exact Bool.noConfusion hfree
  refine ⟨S.size / 32 + 1, fun fuel hfuel => ⟨0, h, blocks, blocks, ?_, t.linked, t.linked, served_null (.inr (hno _))⟩⟩
  rcases kmalloc_first t (show S.size / 32 < fuel by omega) hn with ⟨-, hk⟩ | ⟨pre, b, post, rfl, hfits, -⟩
  · exact hk
  · exact absurd hfits (hno _ b (by simp))

theorem not_served_of_wrap (t : Tiled u S h blocks) (hn : n < 2 ^ 64) (hbig : 2 ^ 64 ≤ n + 15) {b : ℕ} (hb : b ∈ blocks)
    (hfree : (h.header b).free = true) : ¬ Serves h n := by
  rintro ⟨N, hserves⟩
  obtain ⟨p, h', blocks₁, blocks', hk, hl, -, hs⟩ := hserves (max N (S.size / 32 + 1)) (le_max_left _ _)
  obtain rfl := hl.unique t.linked
  have hnull : p = 0 := by
    rw [hs.null_iff]
    right
    intro c hc hfits
    have hend := t.end_lt hc
    have hsize := hfits.2
    rw [rounded] at hsize
    omega
  rcases kmalloc_first t (show S.size / 32 < max N (S.size / 32 + 1) by omega) (show n ≠ 0 by omega) with
    ⟨hall, -⟩ | ⟨pre, c, post, rfl, -, -, hk'⟩
  · apply hall b hb
    rw [alignUp_wraps hn hbig]
    exact ⟨hfree, Nat.zero_le _⟩
  · have hpos := t.block_pos (show c ∈ pre ++ c :: post by simp)
    rw [hk] at hk'
    have hp := (Prod.mk.inj (Option.some.inj hk')).1
    omega

/-- In every reachable heap `kmalloc` serves exactly the requests that can be rounded up without wrapping around,
and any request when no block is free. -/
theorem kmalloc_serves_iff (R : Region) {h : Heap} {live : List ℕ} (hr : Reach R h live) {n : ℕ} (hn : n < 2 ^ 64) :
    Serves h n ↔ n + 15 < 2 ^ 64 ∨
      ∀ blocks, Linked (fun b => (h.header b).next) 0 h.head blocks → ∀ b ∈ blocks, (h.header b).free = false := by
  obtain ⟨blocks, t, -⟩ := hr.invariant
  constructor
  · intro hs
    by_contra hcon
    push Not at hcon
    obtain ⟨hbig, blocks₁, hl, b, hb, hfree⟩ := hcon
    obtain rfl := hl.unique t.linked
    exact not_served_of_wrap t hn hbig hb (Bool.eq_true_of_not_eq_false hfree) hs
  · rintro (hfit | hfull)
    · exact served_of_fits t hfit
    · by_cases hfit : n + 15 < 2 ^ 64
      · exact served_of_fits t hfit
      · exact served_of_full t (by omega) (hfull blocks t.linked)

theorem kmalloc_serves_iff_small : Serves (kmallocInit (fun _ => ⟨0, false, 0⟩) smallRegion.start smallRegion.size) 40 :=
  (kmalloc_serves_iff smallRegion (Reach.init fun _ => ⟨0, false, 0⟩) (by decide)).mpr (.inl (by decide))

theorem kmalloc_wraps : Reach smallRegion (kmallocInit (fun _ => ⟨0, false, 0⟩) smallRegion.start smallRegion.size) [] ∧
    (∃ h', kmalloc 9 (kmallocInit (fun _ => ⟨0, false, 0⟩) smallRegion.start smallRegion.size) (2 ^ 64 - 1) =
      some (4128, h') ∧ kmallocUsableSize h' 4128 = 0) ∧
    ¬ Serves (kmallocInit (fun _ => ⟨0, false, 0⟩) smallRegion.start smallRegion.size) (2 ^ 64 - 1) := by
  have hrun : (kmalloc 9 (kmallocInit (fun _ => ⟨0, false, 0⟩) smallRegion.start smallRegion.size) (2 ^ 64 - 1)).map
      (fun r => (r.1, kmallocUsableSize r.2 r.1)) = some (4128, 0) := by decide +kernel
  obtain ⟨⟨p, h'⟩, hk, hp⟩ := Option.map_eq_some_iff.mp hrun
  obtain ⟨rfl, husable⟩ := Prod.mk.inj hp
  refine ⟨Reach.init _, ⟨h', hk, husable⟩, ?_⟩
  apply not_served_of_wrap (init_tiled smallRegion fun _ => ⟨0, false, 0⟩) (by decide) (by decide) (List.mem_singleton_self _)
  simp [kmallocInit]

end DexOs.KernelHeap
