import DexOs.KernelHeapSafety
import DexOs.Lib.Pieces

/-! The heap as a list of used and free pieces: `kmalloc` takes the front of a free one, `kfree` frees one
and joins all free neighbours. -/

namespace DexOs.KernelHeap

open DexOs.Lib

variable {u : ℕ} {S : Space} {R : Region} {h h' : Heap} {blocks blocks' live : List ℕ}

def piece (h : Heap) (b : ℕ) : Piece := (headerSize + (h.header b).size, (h.header b).free)

def pieces (h : Heap) (blocks : List ℕ) : List Piece := blocks.map (piece h)

theorem pieces_congr (he : ∀ b ∈ blocks, (h'.header b).size = (h.header b).size ∧ (h'.header b).free = (h.header b).free) :
    pieces h' blocks = pieces h blocks := by
  apply List.map_congr_left
  intro b hb
  rw [piece, piece, (he b hb).1, (he b hb).2]

theorem piece_pos {x : Piece} (hx : x ∈ pieces h blocks) : 0 < x.1 := by
  obtain ⟨b, -, rfl⟩ := List.mem_map.mp hx
  rw [piece, headerSize_eq]
  dsimp only
  omega

theorem endOf_pieces {a e : ℕ} (hl : Lseg (blockEnd h.header) a blocks e) : endOf a (pieces h blocks) = e := by
  induction blocks generalizing a with
  | nil => exact hl
  | cons b blocks ih =>
    obtain ⟨rfl, hl⟩ := hl
    rw [blockEnd, Nat.add_assoc] at hl
    exact ih hl

theorem Tiled.endOf_eq (t : Tiled u S h blocks) : endOf S.start (pieces h blocks) = S.start + S.size := endOf_pieces t.tiles

theorem mem_usedFrom_pieces {a e c n : ℕ} (hl : Lseg (blockEnd h.header) a blocks e) :
    (c, n) ∈ usedFrom a (pieces h blocks) ↔
      c ∈ blocks ∧ (h.header c).free = false ∧ n = headerSize + (h.header c).size := by
  induction blocks generalizing a with
  | nil => simp [pieces, usedFrom]
  | cons b blocks ih =>
    obtain ⟨rfl, hl⟩ := hl
    have htail := ih hl
    rw [blockEnd, Nat.add_assoc] at htail
    rw [show pieces h (a :: blocks) = piece h a :: pieces h blocks from rfl, usedFrom]
    cases hf : (h.header a).free with
    | true =>
      rw [if_pos (show (piece h a).2 = true from hf), List.mem_cons]
      refine htail.trans (and_congr_left fun hc => ?_)
      rw [or_iff_right]
      rintro rfl
      rw [hf] at hc
      cases hc.1
    | false =>
      rw [if_neg (by simp [piece, hf]), List.mem_cons, List.mem_cons]
      refine (or_congr_right htail).trans ?_
      constructor
      · rintro (he | ⟨h1, h2⟩)
        · obtain ⟨rfl, rfl⟩ := Prod.mk.inj he
          exact ⟨.inl rfl, hf, rfl⟩
        · exact ⟨.inr h1, h2⟩
      · rintro ⟨rfl | h1, h2, rfl⟩
        · exact .inl rfl
        · exact .inr ⟨h1, h2, rfl⟩

theorem blocks_of_pieces {a e e' : ℕ} (hl : Lseg (blockEnd h.header) a blocks e)
    (hl' : Lseg (blockEnd h'.header) a blocks' e') (hp : pieces h' blocks' = pieces h blocks) : blocks' = blocks := by
  induction blocks generalizing a blocks' with
  | nil => exact List.map_eq_nil_iff.mp hp
  | cons b blocks ih =>
    cases blocks' with
    | nil => cases hp
    | cons b' blocks' =>
      obtain ⟨rfl, hl⟩ := hl
      obtain ⟨rfl, hl'⟩ := hl'
      obtain ⟨hb, hrest⟩ := List.cons.inj hp
      have hend : blockEnd h'.header a = blockEnd h.header a := by
        have := (Prod.mk.inj hb).1
        rw [blockEnd, blockEnd]
        omega
      rw [hend] at hl'
      rw [ih hl hl' hrest]

theorem pieces_cons (h : Heap) (b : ℕ) (l : List ℕ) : pieces h (b :: l) = piece h b :: pieces h l := rfl

theorem pieces_middle (h : Heap) (pre post : List ℕ) (b : ℕ) :
    pieces h (pre ++ b :: post) = pieces h pre ++ piece h b :: pieces h post := by
  rw [pieces, List.map_append, List.map_cons]
  rfl

theorem setFree_spec {pre post : List ℕ} {b : ℕ} (t : Tiled u S h (pre ++ b :: post)) (f : Bool) :
    Tiled u S (h.store b { h.header b with free := f }) (pre ++ b :: post) ∧
      pieces (h.store b { h.header b with free := f }) (pre ++ b :: post) =
        pieces h pre ++ ((piece h b).1, f) :: pieces h post := by
  have hnd := t.linked.nodup
  rw [List.nodup_middle, List.nodup_cons] at hnd
  have hkeep (l : List ℕ) (hl : b ∉ l) : pieces (h.store b { h.header b with free := f }) l = pieces h l := by
    apply pieces_congr
    intro c hc
    have hcb : c ≠ b := ne_of_mem_of_not_mem hc hl
    simp [hcb]
  constructor
  · exact t.setFree b f
  · rw [pieces_middle, hkeep pre fun hm => hnd.1 (List.mem_append_left _ hm),
      hkeep post fun hm => hnd.1 (List.mem_append_right _ hm)]
    simp [piece]

theorem kmalloc_pieces {fuel n p : ℕ} (t : Tiled u S h blocks) (hk : kmalloc fuel h n = some (p, h')) :
    (p = 0 ∧ h' = h) ∨ ∃ pre b post blocks' m rest, blocks = pre ++ b :: post ∧ p = b + headerSize ∧
      (h.header b).free = true ∧ Tiled u S h' blocks' ∧ h'.heapSize = h.heapSize ∧
      pieces h' blocks' = pieces h pre ++ (m, false) :: (rest ++ pieces h post) ∧
      (rest = [] ∧ m = (piece h b).1 ∨ ∃ r, rest = [(r, true)] ∧ m + r = (piece h b).1) := by
  rcases kmalloc_cases t hk with hnone | ⟨pre, b, post, rfl, ⟨hfree, hs⟩, rfl, rfl⟩
  · exact .inl hnone
  right
  rcases splitBlock_cases t hs (alignUp_dvd n 16) with he | ⟨k, rest, rfl, hsum, t', hk, hb, hnew, hframe⟩
  · rw [he]
    obtain ⟨t', hpieces⟩ := setFree_spec t false
    exact ⟨pre, b, post, _, (piece h b).1, [], rfl, rfl, hfree, t', rfl, hpieces, .inl ⟨rfl, rfl⟩⟩
  · obtain ⟨t'', hpieces⟩ := setFree_spec t' false
    have hkeep (l : List ℕ) (hl : ∀ c ∈ l, c ∈ pre ++ post) : pieces (splitBlock h b (alignUp n 16)) l = pieces h l := by
      apply pieces_congr
      intro c hc
      have hnd := t.linked.nodup
      rw [List.nodup_middle, List.nodup_cons] at hnd
      have hcb : c ≠ b := ne_of_mem_of_not_mem (hl c hc) hnd.1
      have hck : c ≠ b + headerSize + alignUp n 16 := by
        rintro rfl
        apply hk
        have := hl _ hc
        simp only [List.mem_append, List.mem_cons] at this ⊢
        tauto
      rw [hframe c hcb hck]
      exact ⟨rfl, rfl⟩
    rw [hkeep pre fun c hc => List.mem_append_left _ hc] at hpieces
    refine ⟨pre, b, post, _, (piece (splitBlock h b (alignUp n 16)) b).1, [(headerSize + rest, true)], rfl, rfl, hfree,
      t'', ?_, ?_, .inr ⟨_, rfl, ?_⟩⟩
    · unfold splitBlock
      dsimp only
      split <;> rfl
    · have hrest : piece (splitBlock h b (alignUp n 16)) (b + headerSize + alignUp n 16) = (headerSize + rest, true) := by
        rw [piece, hnew]
      rw [hpieces, pieces_cons, hkeep post fun c hc => List.mem_append_right _ hc, hrest]
      rfl
    · rw [piece, hb, piece, hsum]
      dsimp only
      omega

theorem absorb_pieces {cur n : ℕ} {pre post : List ℕ} (t : Tiled u S h (pre ++ cur :: n :: post)) :
    pieces (absorb h cur n) pre = pieces h pre ∧ pieces (absorb h cur n) post = pieces h post ∧
      piece (absorb h cur n) cur = ((piece h cur).1 + (piece h n).1, (h.header cur).free) := by
  have hnd := t.linked.nodup
  rw [List.nodup_middle, List.nodup_cons] at hnd
  have hkeep (l : List ℕ) (hl : cur ∉ l) : pieces (absorb h cur n) l = pieces h l := by
    apply pieces_congr
    intro c hc
    have hcb : c ≠ cur := ne_of_mem_of_not_mem hc hl
    simp [absorb, hcb]
  refine ⟨hkeep pre fun hm => hnd.1 (List.mem_append_left _ hm),
    hkeep post fun hm => hnd.1 (List.mem_append_right _ (List.mem_cons_of_mem _ hm)), ?_⟩
  simp only [piece, absorb, store_header, Function.update_self]
  rw [Nat.add_assoc]

theorem coalesce_pieces {fuel cur : ℕ} {pre post : List ℕ} (t : Tiled u S h (pre ++ cur :: post))
    (hk : coalesce fuel h cur = some h') :
    ∃ blocks', Tiled u S h' blocks' ∧ h'.heapSize = h.heapSize ∧
      pieces h' blocks' = pieces h pre ++ joinFrom (piece h cur) (pieces h post) := by
  induction fuel generalizing h cur pre post with
  | zero => simp [coalesce] at hk
  | succ f ih =>
    cases post with
    | nil =>
      rw [coalesce_last t] at hk
      obtain rfl := Option.some.inj hk
      exact ⟨_, t, rfl, pieces_middle h pre [] cur⟩
    | cons n post =>
      rw [coalesce_cons t] at hk
      rw [pieces_cons, joinFrom]
      split_ifs at hk with hm
      · obtain ⟨blocks', t', hsize, hpieces⟩ := ih (absorb_tiled t) hk
        obtain ⟨h1, h2, h3⟩ := absorb_pieces t
        rw [h1, h2, h3, hm.1] at hpieces
        refine ⟨blocks', t', hsize, ?_⟩
        rw [hpieces, if_pos (show ((piece h cur).2 && (piece h n).2) = true by simp [piece, hm.1, hm.2])]
      · have t' : Tiled u S h ((pre ++ [cur]) ++ n :: post) := by simpa using t
        obtain ⟨blocks', t'', hsize, hpieces⟩ := ih t' hk
        refine ⟨blocks', t'', hsize, ?_⟩
        rw [hpieces, if_neg (show ¬ ((piece h cur).2 && (piece h n).2) = true by simpa [piece] using hm),
          pieces, List.map_append, List.append_assoc]
        rfl

theorem kfree_pieces {fuel b : ℕ} {pre post : List ℕ} (t : Tiled u S h (pre ++ b :: post))
    (hk : kfree fuel h (b + headerSize) = some h') :
    ∃ blocks' x l, Tiled u S h' blocks' ∧ h'.heapSize = h.heapSize ∧
      pieces h pre ++ ((piece h b).1, true) :: pieces h post = x :: l ∧ pieces h' blocks' = joinFrom x l := by
  have hb : b ∈ pre ++ b :: post := by simp
  obtain ⟨t', hpieces⟩ := setFree_spec t true
  rw [kfree_eq t hb] at hk
  obtain ⟨d, ds, hd⟩ : ∃ d ds, pre ++ b :: post = d :: ds := List.exists_cons_of_ne_nil (by simp)
  rw [hd] at t' hpieces
  have hhead : h.head = d := t'.linked.1.1
  rw [hhead] at hk
  rw [← List.nil_append (d :: ds)] at t'
  obtain ⟨blocks', t'', hsize, hjoin⟩ := coalesce_pieces t' hk
  exact ⟨blocks', _, _, t'', hsize, hpieces.symm, hjoin⟩

section Invariant

/-- The list from the head visits `blocks`, which tile the region, and no two free ones are neighbours. -/
structure Tidy (u : ℕ) (S : Space) (h : Heap) (blocks : List ℕ) : Prop extends Tiled u S h blocks where
  settled : (pieces h blocks).IsChain Settled

def used (S : Space) (h : Heap) (blocks : List ℕ) : List (ℕ × ℕ) := usedFrom S.start (pieces h blocks)

theorem Tiled.mem_used (t : Tiled u S h blocks) {c n : ℕ} :
    (c, n) ∈ used S h blocks ↔ c ∈ blocks ∧ (h.header c).free = false ∧ n = headerSize + (h.header c).size :=
  mem_usedFrom_pieces t.tiles

theorem Tiled.endOf_pre {pre post : List ℕ} {b : ℕ} (t : Tiled u S h (pre ++ b :: post)) :
    endOf S.start (pieces h pre) = b := by
  obtain ⟨d, hpre, rfl, -⟩ := (lseg_append ..).mp t.tiles
  exact endOf_pieces hpre

theorem kmalloc_used {fuel n p : ℕ} (t : Tidy u S h blocks) (hk : kmalloc fuel h n = some (p, h')) :
    (p = 0 ∧ h' = h) ∨ ∃ b m blocks', p = b + headerSize ∧ Tidy u S h' blocks' ∧ h'.heapSize = h.heapSize ∧
      (∀ k, (b, k) ∉ used S h blocks) ∧ ∀ q, q ∈ used S h' blocks' ↔ q = (b, m) ∨ q ∈ used S h blocks := by
  rcases kmalloc_pieces t.toTiled hk with hnone | ⟨pre, b, post, blocks', m, rest, rfl, rfl, hfree, t', hsize, hp, hrest⟩
  · exact .inl hnone
  · right
    have hb := t.toTiled.endOf_pre
    have hs := t.settled
    have hpb : piece h b = ((piece h b).1, true) := by
      rw [piece, hfree]
    rw [pieces_middle, hpb] at hs
    have hbefore : used S h (pre ++ b :: post) =
        usedFrom S.start (pieces h pre) ++ usedFrom (b + (piece h b).1) (pieces h post) := by
      rw [used, pieces_middle, hpb, usedFrom_free, hb]
    have hafter : used S h' blocks' =
        usedFrom S.start (pieces h pre) ++ (b, m) :: usedFrom (b + (piece h b).1) (pieces h post) := by
      rcases hrest with ⟨rfl, rfl⟩ | ⟨r, rfl, hsum⟩
      · rw [used, hp, List.nil_append, usedFrom_take_all, hb]
      · rw [used, hp, List.singleton_append, usedFrom_take _ _ _ hsum, hb]
    refine ⟨b, m, blocks', rfl, ⟨t', ?_⟩, hsize, fun k hin => ?_, fun q => ?_⟩
    · rcases hrest with ⟨rfl, rfl⟩ | ⟨r, rfl, hsum⟩
      · rw [hp]
        exact (settled_take hs (m := (piece h b).1) (r := 0)).1
      · rw [hp]
        exact (settled_take hs).2
    · obtain ⟨-, hf, -⟩ := t.toTiled.mem_used.mp hin
      rw [hfree] at hf
      cases hf
    · rw [hafter, hbefore]
      simp only [List.mem_append, List.mem_cons]
      tauto

theorem kfree_used {fuel b : ℕ} (t : Tidy u S h blocks) (hb : b ∈ blocks) (hf : (h.header b).free = false)
    (hk : kfree fuel h (b + headerSize) = some h') :
    ∃ blocks', Tidy u S h' blocks' ∧ h'.heapSize = h.heapSize ∧
      ∀ q, q ∈ used S h' blocks' ↔ q ∈ used S h blocks ∧ q.1 ≠ b := by
  obtain ⟨pre, post, rfl⟩ := List.append_of_mem hb
  obtain ⟨blocks', x, l, t', hsize, hx, hjoin⟩ := kfree_pieces t.toTiled hk
  have hend := t.toTiled.endOf_pre
  have hpb : piece h b = ((piece h b).1, false) := by
    rw [piece, hf]
  have hpos : 0 < (piece h b).1 := piece_pos (h := h) (List.mem_map_of_mem hb)
  refine ⟨blocks', ⟨t', by rw [hjoin]; exact joinFrom_settled x l⟩, hsize, fun q => ?_⟩
  rw [used, hjoin, usedFrom_joinFrom, ← hx, usedFrom_free, used, pieces_middle, hpb, usedFrom_take_all, hend]
  simp only [List.mem_append, List.mem_cons]
  have hlow (h1 : q ∈ usedFrom S.start (pieces h pre)) : q.1 < b := by
    have := lt_endOf_of_mem (fun x hx => piece_pos hx) h1
    rwa [hend] at this
  have hhigh (h2 : q ∈ usedFrom (b + (piece h b).1) (pieces h post)) : b < q.1 := by
    have := le_of_mem_usedFrom h2
    omega
  constructor
  · rintro (h1 | h2)
    · exact ⟨.inl h1, (hlow h1).ne⟩
    · exact ⟨.inr (.inr h2), (hhigh h2).ne'⟩
  · rintro ⟨h1 | rfl | h2, hne⟩
    · exact .inl h1
    · exact absurd rfl hne
    · exact .inr h2

theorem init_tidy (R : Region) (header : ℕ → Header) : Tidy 16 R.toSpace (kmallocInit header R.start R.size) [R.start] :=
  ⟨init_tiled R header, .singleton _⟩

theorem Reach.tidy (hr : Reach R h live) :
    ∃ blocks, Tidy 16 R.toSpace h blocks ∧ ∀ b n, (b, n) ∈ used R.toSpace h blocks → b + headerSize ∈ live := by
  induction hr with
  | init header =>
    refine ⟨_, init_tidy R header, fun b n hb => ?_⟩
    obtain ⟨hm, hf, -⟩ := (init_tiled R header).mem_used.mp hb
    rw [List.mem_singleton] at hm
    subst hm
    simp [kmallocInit] at hf
  | malloc _ _ hk ih =>
    obtain ⟨blocks, t, hlive⟩ := ih
    rcases kmalloc_used t hk with ⟨rfl, rfl⟩ | ⟨b, m, blocks', rfl, t', -, -, hused⟩
    · exact ⟨blocks, t, by rwa [if_pos rfl]⟩
    · refine ⟨blocks', t', fun c k hc => ?_⟩
      rw [if_neg (by rw [headerSize_eq]; omega)]
      rcases (hused (c, k)).mp hc with he | hc
      · rw [(Prod.mk.inj he).1]
        exact List.mem_cons_self
      · exact List.mem_cons_of_mem _ (hlive c k hc)
  | @free h₁ h₂ live fuel p hr hp hk ih =>
    obtain ⟨blocks, t, hlive⟩ := ih
    obtain ⟨blocks₁, t₁, o⟩ := hr.invariant
    obtain rfl := t₁.linked.unique t.linked
    obtain ⟨b, hb, rfl, hf⟩ := o.owner p hp
    obtain ⟨blocks', t', -, hused⟩ := kfree_used t hb hf hk
    refine ⟨blocks', t', fun c k hc => ?_⟩
    obtain ⟨hc, hne⟩ := (hused (c, k)).mp hc
    rw [List.Nodup.mem_erase_iff o.nodup]
    refine ⟨fun he => hne ?_, hlive c k hc⟩
    dsimp only
    omega

theorem Tidy.single (t : Tidy u R.toSpace h blocks) (hu : used R.toSpace h blocks = []) :
    blocks = [R.start] ∧ h.head = R.start ∧ h.header R.start = ⟨R.size - 32, true, 0⟩ := by
  have hne : pieces h blocks ≠ [] := by
    intro hnil
    have hend : endOf R.start (pieces h blocks) = R.start + R.size := t.toTiled.endOf_eq
    rw [hnil, endOf] at hend
    have := R.size_ge
    omega
  obtain ⟨n, hn⟩ := (usedFrom_eq_nil t.settled hu).resolve_left hne
  obtain ⟨b, rfl⟩ : ∃ b, blocks = [b] := by
    have hlen := congrArg List.length hn
    rw [pieces, List.length_map, List.length_singleton] at hlen
    exact List.length_eq_one_iff.mp hlen
  obtain rfl : R.start = b := t.tiles.1
  have hend : endOf R.start (pieces h [R.start]) = R.start + R.size := t.toTiled.endOf_eq
  have hhead : h.head = R.start := t.linked.1.1
  have hnext : (h.header R.start).next = 0 := t.linked.1.2
  have hpiece : piece h R.start = (n, true) := List.singleton_inj.mp hn
  rw [hn, endOf, endOf] at hend
  obtain ⟨hsize, hfree⟩ := Prod.mk.inj hpiece
  rw [headerSize_eq] at hsize
  refine ⟨rfl, hhead, ?_⟩
  cases hh : h.header R.start with
  | mk size free next =>
    rw [hh] at hnext hsize hfree
    dsimp only at hnext hsize hfree hend
    rw [hnext, hfree, show size = R.size - 32 by omega]

/-- After every run no two neighbours in the list are free, and when every pointer has been freed the heap is
the block that `kmalloc_init` made. No call hangs. -/
theorem coalescing_complete (R : Region) {h : Heap} {live : List ℕ} (hr : Reach R h live) :
    (∃ blocks, Linked (fun b => (h.header b).next) 0 h.head blocks ∧
      blocks.IsChain (fun b c => ¬ ((h.header b).free = true ∧ (h.header c).free = true)) ∧
      (live = [] → blocks = [R.start] ∧ h.head = R.start ∧ h.header R.start = ⟨R.size - 32, true, 0⟩)) ∧
    ∀ fuel > R.size / 32, (∀ n, (kmalloc fuel h n).isSome) ∧ ∀ p ∈ live, (kfree fuel h p).isSome := by
  obtain ⟨blocks, t, hlive⟩ := hr.tidy
  constructor
  · refine ⟨blocks, t.linked, ?_, fun hnil => t.single ?_⟩
    · have hs := t.settled
      rw [pieces, List.isChain_map] at hs
      exact hs
    · rw [List.eq_nil_iff_forall_not_mem]
      rintro ⟨b, n⟩ hb
      have := hlive b n hb
      rw [hnil] at this
      exact absurd this List.not_mem_nil
  · intro fuel hf
    refine ⟨kmalloc_isSome t.toTiled hf, fun p hp => ?_⟩
    obtain ⟨blocks₁, t₁, o⟩ := hr.invariant
    obtain ⟨b, hb, rfl, -⟩ := o.owner p hp
    exact kfree_isSome t₁ hf hb

theorem coalescing_complete_small :
    ∃ h, Reach smallRegion h [] ∧ h.header 4096 = ⟨224, true, 0⟩ := by
  obtain ⟨⟨p, h⟩, hk⟩ := Option.isSome_iff_exists.mp
    (kmalloc_isSome (init_tiled smallRegion fun _ => ⟨0, false, 0⟩) (show smallRegion.size / 32 < 9 by decide) 40)
  have hr := Reach.malloc (by decide) (Reach.init (R := smallRegion) (fun _ => ⟨0, false, 0⟩)) hk
  have hp : p ≠ 0 := by
    simp [kmalloc, findBlock, kmallocInit, smallRegion, alignUp, sub64, headerSize_eq] at hk
    omega
  rw [if_neg hp] at hr
  obtain ⟨h', hk'⟩ := Option.isSome_iff_exists.mp
    (((coalescing_complete smallRegion hr).2 9 (by decide)).2 p List.mem_cons_self)
  have hr' := Reach.free hr List.mem_cons_self hk'
  rw [List.erase_cons_head] at hr'
  obtain ⟨⟨blocks, -, -, hsingle⟩, -⟩ := coalescing_complete smallRegion hr'
  exact ⟨h', hr', (hsingle rfl).2.2⟩

end Invariant

end DexOs.KernelHeap
