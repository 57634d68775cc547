import DexOs.KernelHeap

/-! The block list tiles the heap. Each edit of the list is stated once, on the header map. -/

namespace DexOs.KernelHeap

open DexOs.Lib

def blockEnd (header : ℕ → Header) (b : ℕ) : ℕ := b + headerSize + (header b).size

structure Space where
  start : ℕ
  size : ℕ
  start_ge : 16 ≤ start
  limit : start + size < 2 ^ 64

theorem Region.start_ge (R : Region) : 16 ≤ R.start := Nat.le_of_dvd R.start_pos R.start_aligned

def Region.toSpace (R : Region) : Space := ⟨R.start, R.size, R.start_ge, R.limit⟩

/-- The list from the head visits `blocks`, and their extents tile the space. The sizes are multiples of `u`,
which is 16 for the heaps that `kmalloc_init` leads to. -/
structure Tiled (u : ℕ) (S : Space) (h : Heap) (blocks : List ℕ) : Prop where
  unit_dvd : u ∣ 16
  linked : Linked (fun b => (h.header b).next) 0 h.head blocks
  tiles : Lseg (blockEnd h.header) S.start blocks (S.start + S.size)
  aligned : ∀ b ∈ blocks, u ∣ (h.header b).size

theorem headerSize_eq : headerSize = 32 := by
  unfold headerSize alignUp
  rfl

theorem lt_blockEnd (header : ℕ → Header) (b : ℕ) : b < blockEnd header b := by
  simp only [blockEnd, headerSize_eq]
  omega

variable {u : ℕ} {S : Space} {h : Heap} {blocks : List ℕ}

theorem Tiled.bounds (t : Tiled u S h blocks) {b : ℕ} (hb : b ∈ blocks) :
    S.start ≤ b ∧ blockEnd h.header b ≤ S.start + S.size :=
  (t.tiles.bounds (fun c _ => lt_blockEnd _ c)).2 b hb

theorem Tiled.end_lt (t : Tiled u S h blocks) {b : ℕ} (hb : b ∈ blocks) :
    b + headerSize + (h.header b).size < 2 ^ 64 :=
  lt_of_le_of_lt (t.bounds hb).2 S.limit

theorem Tiled.block_pos (t : Tiled u S h blocks) {b : ℕ} (hb : b ∈ blocks) : 0 < b :=
  lt_of_lt_of_le (by decide) (S.start_ge.trans (t.bounds hb).1)

theorem Tiled.disjoint (t : Tiled u S h blocks) {b c : ℕ} (hb : b ∈ blocks) (hc : c ∈ blocks)
    (hne : b ≠ c) : blockEnd h.header b ≤ c ∨ blockEnd h.header c ≤ b :=
  t.tiles.cells_disjoint (fun d _ => lt_blockEnd _ d) hb hc hne

theorem aligned_of_lseg {header : ℕ → Header} {a b : ℕ} {l : List ℕ}
    (hl : Lseg (blockEnd header) a l b) (ha : 16 ∣ a) (hs : ∀ c ∈ l, 16 ∣ (header c).size) :
    ∀ c ∈ l, 16 ∣ c := by
  induction l generalizing a with
  | nil => simp
  | cons c l ih =>
    obtain ⟨rfl, ht⟩ := hl
    have hc := hs a List.mem_cons_self
    have hnext : 16 ∣ blockEnd header a := by simp only [blockEnd, headerSize_eq]; omega
    intro d hd
    rcases List.mem_cons.mp hd with rfl | hd
    · exact ha
    · exact ih ht hnext (fun e he => hs e (List.mem_cons_of_mem _ he)) d hd

theorem Tiled.block_aligned (t : Tiled 16 S h blocks) (hs : 16 ∣ S.start) {b : ℕ} (hb : b ∈ blocks) : 16 ∣ b :=
  aligned_of_lseg t.tiles hs t.aligned b hb

theorem Tiled.dvd_headerSize (t : Tiled u S h blocks) : u ∣ headerSize := by
  rw [headerSize_eq]
  exact t.unit_dvd.trans (by decide)

theorem Tiled.length_le (t : Tiled u S h blocks) : blocks.length ≤ S.size / 32 := by
  have key : ∀ (l : List ℕ) (a b : ℕ), Lseg (blockEnd h.header) a l b → a + 32 * l.length ≤ b := by
    intro l
    induction l with
    | nil => intro a b hl; simp only [lseg_nil] at hl; simp [hl]
    | cons c l ih =>
      rintro a b ⟨rfl, hl⟩
      have := ih _ _ hl
      simp only [blockEnd, headerSize_eq, List.length_cons] at this ⊢
      omega
  have := key blocks _ _ t.tiles
  omega

theorem Tiled.congr (t : Tiled u S h blocks) {h' : Heap} (hh : h'.head = h.head)
    (he : ∀ b ∈ blocks, (h'.header b).size = (h.header b).size ∧ (h'.header b).next = (h.header b).next) :
    Tiled u S h' blocks where
  unit_dvd := t.unit_dvd
  linked := by
    rw [hh]
    exact (linked_congr (fun b hb => (he b hb).2) _ _).mpr t.linked
  tiles := (lseg_congr (fun b hb => by simp only [blockEnd, (he b hb).1]) _ _).mpr t.tiles
  aligned b hb := by rw [(he b hb).1]; exact t.aligned b hb

theorem Tiled.split {pre post : List ℕ} {b n asize rest : ℕ} (t : Tiled u S h (pre ++ b :: post))
    {h' : Heap} (hh : h'.head = h.head) (hn : n = b + headerSize + asize)
    (hs : (h.header b).size = asize + headerSize + rest) (ha : u ∣ asize)
    (hb : (h'.header b).size = asize ∧ (h'.header b).next = n)
    (hnew : (h'.header n).size = rest ∧ (h'.header n).next = (h.header b).next)
    (hframe : ∀ c, c ≠ b → c ≠ n → h'.header c = h.header c) :
    Tiled u S h' (pre ++ b :: n :: post) := by
  have hmem : b ∈ pre ++ b :: post := by simp
  have hnd := t.linked.nodup
  have hother : ∀ c ∈ pre ++ post, c ≠ b ∧ c ≠ n := by
    intro c hc
    have hcb : c ≠ b := by
      rintro rfl
      rw [List.nodup_middle, List.nodup_cons] at hnd
      exact hnd.1 hc
    have hc' : c ∈ pre ++ b :: post := by
      simp only [List.mem_append, List.mem_cons] at hc ⊢
      tauto
    have hd := t.disjoint hc' hmem hcb
    have hlt := lt_blockEnd h.header c
    refine ⟨hcb, ?_⟩
    simp only [blockEnd, headerSize_eq] at hd hn hs hlt
    omega
  have hkeep : ∀ c ∈ pre ++ post, h'.header c = h.header c :=
    fun c hc => hframe c (hother c hc).1 (hother c hc).2
  have hpre : ∀ c ∈ pre, h'.header c = h.header c := fun c hc => hkeep c (by simp [hc])
  have hpost : ∀ c ∈ post, h'.header c = h.header c := fun c hc => hkeep c (by simp [hc])
  refine ⟨t.unit_dvd, ⟨?_, ?_⟩, ?_, ?_⟩
  · obtain ⟨d, h1, rfl, h2⟩ := (lseg_append ..).mp t.linked.1
    rw [hh]
    refine (lseg_append ..).mpr ⟨d, ?_, rfl, hb.2, ?_⟩
    · exact (lseg_congr (fun c hc => by simp only [hpre c hc]) _ _).mpr h1
    · change Lseg _ (h'.header n).next post 0
      rw [hnew.2]
      exact (lseg_congr (fun c hc => by simp only [hpost c hc]) _ _).mpr h2
  · have hn0 : n ≠ 0 := by have := t.block_pos hmem; omega
    have := t.linked.2
    simp only [List.mem_append, List.mem_cons, not_or] at this ⊢
    exact ⟨this.1, this.2.1, hn0.symm, this.2.2⟩
  · obtain ⟨d, h1, rfl, h2⟩ := (lseg_append ..).mp t.tiles
    refine (lseg_append ..).mpr ⟨d, ?_, rfl, ?_, ?_⟩
    · exact (lseg_congr (fun c hc => by simp only [blockEnd, hpre c hc]) _ _).mpr h1
    · simp only [blockEnd, hb.1, hn]
    · have he : blockEnd h'.header n = blockEnd h.header d := by
        unfold blockEnd
        rw [hnew.1, hs]
        omega
      rw [he]
      exact (lseg_congr (fun c hc => by simp only [blockEnd, hpost c hc]) _ _).mpr h2
  · have hr : u ∣ rest := by
      have := t.aligned b hmem
      rw [hs] at this
      exact (Nat.dvd_add_right (Nat.dvd_add ha t.dvd_headerSize)).mp this
    intro c hc
    simp only [List.mem_append, List.mem_cons] at hc
    rcases hc with hc | rfl | rfl | hc
    · rw [hpre c hc]; exact t.aligned c (by simp [hc])
    · rw [hb.1]; exact ha
    · rw [hnew.1]; exact hr
    · rw [hpost c hc]; exact t.aligned c (by simp [hc])

theorem Tiled.merge {pre post : List ℕ} {b n : ℕ} (t : Tiled u S h (pre ++ b :: n :: post))
    {h' : Heap} (hh : h'.head = h.head)
    (hb : (h'.header b).size = (h.header b).size + (headerSize + (h.header n).size) ∧
      (h'.header b).next = (h.header n).next)
    (hframe : ∀ c, c ≠ b → h'.header c = h.header c) : Tiled u S h' (pre ++ b :: post) := by
  have hnd := t.linked.nodup
  rw [List.nodup_middle, List.nodup_cons] at hnd
  have hpre : ∀ c ∈ pre, h'.header c = h.header c :=
    fun c hc => hframe c (fun e => hnd.1 (by simp [← e, hc]))
  have hpost : ∀ c ∈ post, h'.header c = h.header c :=
    fun c hc => hframe c (fun e => hnd.1 (by simp [← e, hc]))
  refine ⟨t.unit_dvd, ⟨?_, ?_⟩, ?_, ?_⟩
  · obtain ⟨d, h1, rfl, -, h2⟩ := (lseg_append ..).mp t.linked.1
    rw [hh]
    refine (lseg_append ..).mpr ⟨d, ?_, rfl, ?_⟩
    · exact (lseg_congr (fun c hc => by simp only [hpre c hc]) _ _).mpr h1
    · change Lseg _ (h'.header d).next post 0
      rw [hb.2]
      exact (lseg_congr (fun c hc => by simp only [hpost c hc]) _ _).mpr h2
  · have := t.linked.2
    simp only [List.mem_append, List.mem_cons, not_or] at this ⊢
    exact ⟨this.1, this.2.1, this.2.2.2⟩
  · obtain ⟨d, h1, rfl, hn, h2⟩ := (lseg_append ..).mp t.tiles
    refine (lseg_append ..).mpr ⟨d, ?_, rfl, ?_⟩
    · exact (lseg_congr (fun c hc => by simp only [blockEnd, hpre c hc]) _ _).mpr h1
    · have he : blockEnd h'.header d = blockEnd h.header n := by
        simp only [blockEnd] at hn ⊢
        rw [hb.1]
        omega
      rw [he]
      exact (lseg_congr (fun c hc => by simp only [blockEnd, hpost c hc]) _ _).mpr h2
  · intro c hc
    simp only [List.mem_append, List.mem_cons] at hc
    rcases hc with hc | rfl | hc
    · rw [hpre c hc]; exact t.aligned c (by simp [hc])
    · have h1 := t.aligned c (by simp)
      have h2 := t.aligned n (by simp)
      rw [hb.1]
      exact Nat.dvd_add h1 (Nat.dvd_add t.dvd_headerSize h2)
    · rw [hpost c hc]; exact t.aligned c (by simp [hc])

end DexOs.KernelHeap
