import DexOs.KernelHeapTiling
import Mathlib.Order.Interval.Set.Disjoint
import Mathlib.Order.CompletePartialOrder

/-! What one call of `kmalloc` or `kfree` does to the tiling, and what every run keeps. -/

namespace DexOs.KernelHeap

open DexOs.Lib

variable {u : ℕ} {S : Space} {h h' : Heap} {blocks : List ℕ}

def Fits (h : Heap) (asize b : ℕ) : Prop := (h.header b).free = true ∧ asize ≤ (h.header b).size

theorem findBlock_isSome {asize fuel cur : ℕ} {l : List ℕ}
    (hl : Linked (fun b => (h.header b).next) 0 cur l) (hf : l.length < fuel) :
    (findBlock h asize fuel cur).isSome := by
  induction l generalizing fuel cur with
  | nil =>
    obtain ⟨f, rfl⟩ : ∃ f, fuel = f + 1 := ⟨fuel - 1, by omega⟩
    simp [findBlock, (linked_nil ..).mp hl]
  | cons b l ih =>
    obtain ⟨f, rfl⟩ : ∃ f, fuel = f + 1 := ⟨fuel - 1, by simp at hf; omega⟩
    obtain ⟨rfl, hne, ht⟩ := (linked_cons ..).mp hl
    simp only [findBlock, hne, ↓reduceIte]
    split_ifs
    · rfl
    · exact ih ht (by simpa using hf)

theorem findBlock_spec {asize fuel cur r : ℕ} {l : List ℕ}
    (hl : Linked (fun b => (h.header b).next) 0 cur l) (hr : findBlock h asize fuel cur = some r) :
    (r = 0 ∧ ∀ b ∈ l, ¬ Fits h asize b) ∨
      ∃ pre post, l = pre ++ r :: post ∧ Fits h asize r ∧ ∀ b ∈ pre, ¬ Fits h asize b := by
  induction fuel generalizing cur l with
  | zero => simp [findBlock] at hr
  | succ f ih =>
    simp only [findBlock] at hr
    cases l with
    | nil =>
      rw [if_pos ((linked_nil ..).mp hl)] at hr
      exact .inl ⟨(Option.some.inj hr).symm, by simp⟩
    | cons b l =>
      obtain ⟨rfl, hne, ht⟩ := (linked_cons ..).mp hl
      rw [if_neg hne] at hr
      by_cases hfit : (h.header cur).free ∧ asize ≤ (h.header cur).size
      · rw [if_pos hfit] at hr
        obtain rfl := Option.some.inj hr
        exact .inr ⟨[], l, rfl, hfit, by simp⟩
      · rw [if_neg hfit] at hr
        rcases ih ht hr with ⟨rfl, hall⟩ | ⟨pre, post, rfl, hr', hpre⟩
        · exact .inl ⟨rfl, by simpa using ⟨hfit, hall⟩⟩
        · exact .inr ⟨cur :: pre, post, rfl, hr', by simpa using ⟨hfit, hpre⟩⟩

@[simp] theorem store_head (h : Heap) (a : ℕ) (v : Header) : (h.store a v).head = h.head := rfl

@[simp] theorem store_header (h : Heap) (a : ℕ) (v : Header) :
    (h.store a v).header = Function.update h.header a v := rfl

theorem splitBlock_cases {pre post : List ℕ} {b asize : ℕ} (t : Tiled u S h (pre ++ b :: post))
    (hs : asize ≤ (h.header b).size) (ha : 16 ∣ asize) :
    splitBlock h b asize = h ∨ ∃ n rest, n = b + headerSize + asize ∧
      (h.header b).size = asize + headerSize + rest ∧
      Tiled u S (splitBlock h b asize) (pre ++ b :: n :: post) ∧ n ∉ pre ++ b :: post ∧
      (splitBlock h b asize).header b = { h.header b with size := asize, next := n } ∧
      (splitBlock h b asize).header n = ⟨rest, true, (h.header b).next⟩ ∧
      ∀ c, c ≠ b → c ≠ n → (splitBlock h b asize).header c = h.header c := by
  have hmem : b ∈ pre ++ b :: post := by simp
  have hend := t.end_lt hmem
  have hsmall : (asize + headerSize + 16) % 2 ^ 64 = asize + headerSize + 16 := by
    have := S.start_ge
    have := (t.bounds hmem).1
    simp only [headerSize_eq] at hend ⊢
    omega
  by_cases hbig : asize + headerSize + 16 ≤ (h.header b).size
  · right
    have hnew : (b + headerSize + asize) % 2 ^ 64 = b + headerSize + asize := by omega
    have hrest : sub64 (sub64 (h.header b).size asize) headerSize =
        (h.header b).size - asize - headerSize := by
      rw [sub64_of_le hs, sub64_of_le (by omega)]
    have hne : b + headerSize + asize ≠ b := by simp only [headerSize_eq]; omega
    have hold (v : Header) : Function.update h.header (b + headerSize + asize) v b = h.header b :=
      Function.update_of_ne hne.symm v h.header
    have he : splitBlock h b asize = (h.store (b + headerSize + asize)
        ⟨(h.header b).size - asize - headerSize, true, (h.header b).next⟩).store b
          { h.header b with size := asize, next := b + headerSize + asize } := by
      unfold splitBlock
      simp only [store_header]
      rw [hsmall, if_pos hbig, hnew, hrest, hold]
    have hsum : (h.header b).size = asize + headerSize + ((h.header b).size - asize - headerSize) := by omega
    refine ⟨b + headerSize + asize, (h.header b).size - asize - headerSize, rfl, hsum, ?_⟩
    rw [he]
    have hkeep (c : ℕ) (hc : c ≠ b) (hc' : c ≠ b + headerSize + asize) : ((h.store (b + headerSize + asize)
        ⟨(h.header b).size - asize - headerSize, true, (h.header b).next⟩).store b
          { h.header b with size := asize, next := b + headerSize + asize }).header c = h.header c := by
      simp [hc, hc']
    have hfresh : b + headerSize + asize ∉ pre ++ b :: post := by
      intro hin
      have hd := t.disjoint hin hmem hne
      have hlt := lt_blockEnd h.header (b + headerSize + asize)
      simp only [blockEnd, headerSize_eq] at hd hlt hbig
      omega
    exact ⟨t.split rfl rfl hsum (t.unit_dvd.trans ha) (by simp) (by simp [Function.update_of_ne hne]) hkeep,
      hfresh, by simp, by simp [Function.update_of_ne hne], hkeep⟩
  · left
    unfold splitBlock
    simp only
    rw [hsmall, if_neg hbig]

theorem splitBlock_spec {pre post : List ℕ} {b asize : ℕ} (t : Tiled u S h (pre ++ b :: post))
    (hs : asize ≤ (h.header b).size) (ha : 16 ∣ asize) :
    ∃ blocks', Tiled u S (splitBlock h b asize) blocks' ∧ (∀ c ∈ pre ++ b :: post, c ∈ blocks') ∧
      ∀ c ∈ pre ++ b :: post, c ≠ b → (splitBlock h b asize).header c = h.header c := by
  rcases splitBlock_cases t hs ha with he | ⟨n, rest, -, -, t', hn, -, -, hframe⟩
  · rw [he]
    exact ⟨_, t, fun c hc => hc, fun c _ _ => rfl⟩
  · refine ⟨_, t', fun c hc => ?_, fun c hc hcb => hframe c hcb (ne_of_mem_of_not_mem hc hn)⟩
    simp only [List.mem_append, List.mem_cons] at hc ⊢
    tauto

theorem kmalloc_cases {fuel n p : ℕ} (t : Tiled u S h blocks) (hk : kmalloc fuel h n = some (p, h')) :
    (p = 0 ∧ h' = h) ∨ ∃ pre b post, blocks = pre ++ b :: post ∧ Fits h (alignUp n 16) b ∧ p = b + headerSize ∧
      h' = (splitBlock h b (alignUp n 16)).store b
        { (splitBlock h b (alignUp n 16)).header b with free := false } := by
  unfold kmalloc at hk
  split_ifs at hk with h0
  · simp only [Option.some.injEq, Prod.mk.injEq] at hk
    exact .inl ⟨hk.1.symm, hk.2.symm⟩
  obtain ⟨b, hcur, hk⟩ := Option.map_eq_some_iff.mp hk
  rcases findBlock_spec t.linked hcur with ⟨rfl, -⟩ | ⟨pre, post, rfl, hfits, -⟩
  · simp only [↓reduceIte, Prod.mk.injEq] at hk
    exact .inl ⟨hk.1.symm, hk.2.symm⟩
  have hmem : b ∈ pre ++ b :: post := by simp
  have hend := t.end_lt hmem
  rw [if_neg (t.block_pos hmem).ne'] at hk
  simp only [Prod.mk.injEq] at hk
  obtain ⟨rfl, rfl⟩ := hk
  exact .inr ⟨pre, b, post, rfl, hfits, Nat.mod_eq_of_lt (by omega), rfl⟩

theorem Tiled.setFree (t : Tiled u S h blocks) (b : ℕ) (f : Bool) :
    Tiled u S (h.store b { h.header b with free := f }) blocks := by
  refine t.congr rfl fun c _ => ?_
  by_cases hc : c = b <;> simp [hc]

theorem kmalloc_spec {fuel n p : ℕ} (t : Tiled u S h blocks) (hk : kmalloc fuel h n = some (p, h')) :
    (p = 0 ∧ h' = h) ∨ ∃ b ∈ blocks, (h.header b).free = true ∧ p = b + headerSize ∧
      ∃ blocks', Tiled u S h' blocks' ∧ (∀ c ∈ blocks, c ∈ blocks') ∧ (h'.header b).free = false ∧
        ∀ c ∈ blocks, c ≠ b → h'.header c = h.header c := by
  rcases kmalloc_cases t hk with hnone | ⟨pre, b, post, rfl, ⟨hfree, hs⟩, rfl, rfl⟩
  · exact .inl hnone
  right
  obtain ⟨blocks', t', hsub, hkeep⟩ := splitBlock_spec t hs (alignUp_dvd n 16)
  refine ⟨b, by simp, hfree, rfl, blocks', t'.setFree b false, hsub, by simp, ?_⟩
  intro c hc hcb
  simp [hcb, hkeep c hc hcb]

def absorb (h : Heap) (b n : ℕ) : Heap :=
  h.store b { h.header b with
    size := (h.header b).size + (headerSize + (h.header n).size), next := (h.header n).next }

theorem coalesce_last {fuel cur : ℕ} {pre : List ℕ} (t : Tiled u S h (pre ++ [cur])) :
    coalesce (fuel + 1) h cur = some h := by
  have hnext : (h.header cur).next = 0 := (linked_nil ..).mp t.linked.suffix
  unfold coalesce
  rw [if_pos (Or.inr hnext)]

theorem coalesce_cons {fuel cur n : ℕ} {pre post : List ℕ} (t : Tiled u S h (pre ++ cur :: n :: post)) :
    coalesce (fuel + 1) h cur =
      if (h.header cur).free ∧ (h.header n).free then coalesce fuel (absorb h cur n) cur
      else coalesce fuel h n := by
  have hcur := t.end_lt (b := cur) (by simp)
  have hend := t.end_lt (b := n) (by simp)
  have hnext : (h.header cur).next = n := ((linked_cons ..).mp t.linked.suffix).1
  have htouch : cur + headerSize + (h.header cur).size = n := by
    obtain ⟨d, -, rfl, he, -⟩ := (lseg_append ..).mp t.tiles
    exact he
  have h0 : ¬ (cur = 0 ∨ n = 0) := by
    have := t.block_pos (b := cur) (by simp)
    have := t.block_pos (b := n) (by simp)
    omega
  rw [coalesce]
  simp only [hnext]
  rw [if_neg h0, Nat.mod_eq_of_lt hcur, Nat.mod_eq_of_lt (by omega : (h.header cur).size +
    (headerSize + (h.header n).size) < 2 ^ 64)]
  simp only [htouch, and_true]
  rfl

theorem absorb_tiled {cur n : ℕ} {pre post : List ℕ} (t : Tiled u S h (pre ++ cur :: n :: post)) :
    Tiled u S (absorb h cur n) (pre ++ cur :: post) :=
  t.merge rfl (by simp [absorb]) (fun c hc => by simp [absorb, hc])

theorem coalesce_isSome {fuel cur : ℕ} {pre post : List ℕ} (t : Tiled u S h (pre ++ cur :: post))
    (hf : post.length < fuel) : (coalesce fuel h cur).isSome := by
  induction fuel generalizing h cur pre post with
  | zero => omega
  | succ f ih =>
    cases post with
    | nil => rw [coalesce_last t]; rfl
    | cons n post =>
      simp only [List.length_cons] at hf
      rw [coalesce_cons t]
      split_ifs
      · exact ih (absorb_tiled t) (by omega)
      · have t' : Tiled u S h ((pre ++ [cur]) ++ n :: post) := by simpa using t
        exact ih t' (by omega)

theorem coalesce_spec {fuel cur : ℕ} {pre post : List ℕ} (t : Tiled u S h (pre ++ cur :: post))
    (hk : coalesce fuel h cur = some h') :
    ∃ blocks', Tiled u S h' blocks' ∧ ∀ c ∈ pre ++ cur :: post, (h.header c).free = false →
      c ∈ blocks' ∧ h'.header c = h.header c := by
  induction fuel generalizing h cur pre post with
  | zero => simp [coalesce] at hk
  | succ f ih =>
    cases post with
    | nil =>
      rw [coalesce_last t] at hk
      obtain rfl := Option.some.inj hk
      exact ⟨_, t, fun c hc _ => ⟨hc, rfl⟩⟩
    | cons n post =>
      rw [coalesce_cons t] at hk
      split_ifs at hk with hm
      · obtain ⟨blocks', t', hkeep⟩ := ih (absorb_tiled t) hk
        refine ⟨blocks', t', fun c hc hfree => ?_⟩
        have hcc : c ≠ cur := by rintro rfl; simp [hm.1] at hfree
        have hcn : c ≠ n := by rintro rfl; simp [hm.2] at hfree
        have hc' : c ∈ pre ++ cur :: post := by
          simp only [List.mem_append, List.mem_cons] at hc ⊢
          tauto
        simpa [absorb, hcc] using hkeep c hc' (by simpa [absorb, hcc] using hfree)
      · have t' : Tiled u S h ((pre ++ [cur]) ++ n :: post) := by simpa using t
        obtain ⟨blocks', t'', hkeep⟩ := ih t' hk
        exact ⟨blocks', t'', fun c hc => hkeep c (by simpa using hc)⟩

theorem kfree_eq {fuel b : ℕ} (t : Tiled u S h blocks) (hb : b ∈ blocks) :
    kfree fuel h (b + headerSize) = coalesce fuel (h.store b { h.header b with free := true }) h.head := by
  have hend := t.end_lt hb
  have hp : ptrToHdr (b + headerSize) = b := by
    rw [ptrToHdr, sub64_of_le (by omega)]
    omega
  have h0 : b + headerSize ≠ 0 := by
    have := t.block_pos hb
    omega
  simp only [kfree, h0, ↓reduceIte, hp]

theorem kfree_spec {fuel b : ℕ} (t : Tiled u S h blocks) (hb : b ∈ blocks)
    (hk : kfree fuel h (b + headerSize) = some h') :
    ∃ blocks', Tiled u S h' blocks' ∧ ∀ c ∈ blocks, c ≠ b → (h.header c).free = false →
      c ∈ blocks' ∧ h'.header c = h.header c := by
  rw [kfree_eq t hb] at hk
  have t' := t.setFree b true
  cases blocks with
  | nil => simp at hb
  | cons d ds =>
    have hd : h.head = d := t.linked.1.1
    rw [hd] at hk
    rw [← List.nil_append (d :: ds)] at t'
    obtain ⟨blocks', t'', hkeep⟩ := coalesce_spec t' hk
    refine ⟨blocks', t'', fun c hc hcb hfree => ?_⟩
    simpa [hcb] using hkeep c hc (by simpa [hcb] using hfree)

end DexOs.KernelHeap
