import DexOs.ExfatGrowth

/-! The bytes of a file along its chain, and the copy loops of `exfat_read` and `exfat_write`. -/

namespace DexOs.Exfat

open DexOs.Lib

def bytes (v : Vol) (l : List ℕ) : List UInt8 := l.flatMap v.data

def Filled (v : Vol) (size : ℕ) (l : List ℕ) : Prop := ∀ c ∈ l, (v.data c).length = size

variable {v : Vol} {size : ℕ} {l : List ℕ}

theorem length_bytes (h : Filled v size l) : (bytes v l).length = size * l.length := length_flatMap_blocks h

theorem byteAt_bytes (h : Filled v size l) {i c off : ℕ} (hi : l[i]? = some c) (hoff : off < size) :
    byteAt (bytes v l) (size * i + off) = byteAt (v.data c) off := byteAt_flatMap h hi hoff

theorem bytes_congr {v' : Vol} (h : ∀ c ∈ l, v'.data c = v.data c) : bytes v' l = bytes v l := by
  rw [bytes, bytes, List.flatMap_def, List.flatMap_def, List.map_congr_left h]

theorem bytes_blocks_ext {b c : List UInt8} {n : ℕ} (hb : b.length = size * n) (hc : c.length = size * n)
    (h : ∀ i < n, ∀ off < size, byteAt b (size * i + off) = byteAt c (size * i + off)) : b = c := by
  refine bytes_ext (by omega) fun p hp => ?_
  rw [hb] at hp
  have hsize : 0 < size := Nat.pos_of_ne_zero fun h0 => by simp [h0] at hp
  have hq : p / size < n := Nat.div_lt_of_lt_mul hp
  have := h (p / size) hq (p % size) (Nat.mod_lt _ hsize)
  rwa [Nat.div_add_mod] at this

theorem bytes_setData (h : Filled v size l) (hn : l.Nodup) {i c skip : ℕ} (hi : l[i]? = some c)
    {chunk : List UInt8} (hfit : skip + chunk.length ≤ size) :
    bytes (v.setData c (overlay (v.data c) skip chunk)) l = overlay (bytes v l) (size * i + skip) chunk := by
  have hc := h c (List.mem_of_getElem? hi)
  have hilt := (List.getElem?_eq_some_iff.mp hi).1
  have hfill : Filled (v.setData c (overlay (v.data c) skip chunk)) size l := by
    intro d hd
    by_cases hdc : d = c
    · subst hdc
      simpa [Vol.setData] using hc
    · simpa [Vol.setData, hdc] using h d hd
  refine bytes_blocks_ext (length_bytes hfill) (by rw [length_overlay, length_bytes h]) fun j hj off hoff => ?_
  have hd : l[j]? = some l[j] := List.getElem?_eq_getElem hj
  have hpos : size * j + off < (bytes v l).length := by
    rw [length_bytes h]
    calc size * j + off < size * j + size := by omega
      _ = size * (j + 1) := (Nat.mul_succ _ _).symm
      _ ≤ size * l.length := Nat.mul_le_mul_left _ hj
  rw [byteAt_bytes hfill hd hoff, byteAt_overlay hpos, byteAt_bytes h hd hoff]
  by_cases hji : j = i
  · subst hji
    obtain rfl : l[j] = c := Option.some.inj (hd.symm.trans hi)
    have hiff : (size * j + skip ≤ size * j + off ∧ size * j + off < size * j + skip + chunk.length) ↔
        (skip ≤ off ∧ off < skip + chunk.length) := by omega
    simp only [Vol.setData, Function.update_self, byteAt_overlay (show off < (v.data l[j]).length by omega), hiff,
      show size * j + off - (size * j + skip) = off - skip by omega]
  · have hne : l[j] ≠ c := fun e => hji ((List.Nodup.getElem_inj_iff hn).mp
      (e.trans (List.getElem?_eq_some_iff.mp hi).2.symm))
    have hout : ¬ (size * i + skip ≤ size * j + off ∧ size * j + off < size * i + skip + chunk.length) := by
      rcases Nat.lt_or_gt_of_ne hji with hlt | hlt
      · have := Nat.mul_le_mul_left size (Nat.succ_le_of_lt hlt)
        rw [Nat.mul_succ] at this
        omega
      · have := Nat.mul_le_mul_left size (Nat.succ_le_of_lt hlt)
        rw [Nat.mul_succ] at this
        omega
    rw [if_neg hout]
    simp only [Vol.setData, Function.update_of_ne hne]

variable {σ H : Type} [KernelAlloc H] {D : Disk σ} {w : World σ H} {f : ℕ}

omit [KernelAlloc H] in
theorem IsChain.filled {fat : ℕ → ℕ} (h : IsChain D fat f l) (w : World σ H) :
    Filled (D.vol w) D.fs.clusterSize l := fun c hc => Disk.data_length w (h.valid c hc)

/-- What the copy loop of `exfat_write` leaves behind when every allocation succeeds and the chain is
long enough: the bytes are in place and nothing else has changed. -/
structure Stored (v v' : Vol) (l : List ℕ) (pos : ℕ) (buf : List UInt8) : Prop where
  fat : v'.fat = v.fat
  data : ∀ c, c ∉ l → v'.data c = v.data c
  bytes : bytes v' l = overlay (bytes v l) pos buf

theorem Stored.nil (v : Vol) (l : List ℕ) (pos : ℕ) : Stored v v l pos [] := by
  refine ⟨rfl, fun _ _ => rfl, ?_⟩
  rw [overlay_nil]

theorem Stored.append {v₁ v₂ : Vol} {pos : ℕ} {a b : List UInt8} (h : Stored v v₁ l pos a)
    (h' : Stored v₁ v₂ l (pos + a.length) b) : Stored v v₂ l pos (a ++ b) := by
  refine ⟨h'.fat.trans h.fat, fun c hc => (h'.data c hc).trans (h.data c hc), ?_⟩
  rw [h'.bytes, h.bytes, overlay_overlay]

theorem stored_setData (h : Filled v size l) (hn : l.Nodup) {i c skip : ℕ} (hi : l[i]? = some c)
    {chunk : List UInt8} (hfit : skip + chunk.length ≤ size) :
    Stored v (v.setData c (overlay (v.data c) skip chunk)) l (size * i + skip) chunk := by
  refine ⟨rfl, fun d hd => ?_, bytes_setData h hn hi hfit⟩
  exact Function.update_of_ne (ne_of_mem_of_not_mem (List.mem_of_getElem? hi) hd).symm _ _

theorem touched_setData (hc : IsChain D v.fat f l) {c : ℕ} (hm : c ∈ l) (buf : List UInt8) :
    Touched D v (v.setData c buf) f l l where
  chain := hc
  grows := ⟨[], by simp, by simp⟩
  fat _ _ _ := rfl
  data d _ hd := by
    have hne : d ≠ c := fun e => hd (e ▸ hm)
    exact Function.update_of_ne hne _ _

theorem next_block_lt {i n skip len : ℕ} (hmore : size - skip < len) (hfit : size * i + skip + len ≤ size * n) :
    i + 1 < n := by
  by_contra hge
  have hle := Nat.mul_le_mul_left size (Nat.le_of_not_lt hge)
  rw [Nat.mul_succ] at hle
  omega

theorem writeLoop_spec {n i cl skip : ℕ} {rest : List UInt8} (hc : IsChain D (D.vol w).fat f l)
    (hi : l[i]? = some cl) (hskip : skip < D.fs.clusterSize) (hn : rest.length ≤ n)
    (hroot : (D.vol w).fat D.fs.rootDirCluster ≠ 0) :
    Wp (writeLoop D.fs n cl skip rest) w fun r w' => ∃ l', Touched D (D.vol w) (D.vol w') f l l' ∧
      (AllocOk H → (∀ c ∈ l, D.On c) → D.fs.clusterSize * i + skip + rest.length ≤ D.fs.clusterSize * l.length →
        r = true ∧ l' = l ∧ Stored (D.vol w) (D.vol w') l (D.fs.clusterSize * i + skip) rest) := by
  induction n generalizing i cl skip rest w l with
  | zero =>
    obtain rfl := List.length_eq_zero_iff.mp (Nat.le_zero.mp hn)
    exact wp_pure ⟨l, (Grown.refl hc).toTouched, fun _ _ _ => ⟨rfl, rfl, .nil _ _ _⟩⟩
  | succ n ih =>
    rw [writeLoop]
    by_cases hnil : rest = []
    · rw [if_pos hnil, hnil]
      exact wp_pure ⟨l, (Grown.refl hc).toTouched, fun _ _ _ => ⟨rfl, rfl, .nil _ _ _⟩⟩
    have hmem := List.mem_of_getElem? hi
    have hvalid := hc.valid cl hmem
    have hs := clusterSize_pos D (by omega)
    rw [if_neg hnil]
    refine wp_bind (kmalloc_spec D _) ?_
    rintro (_ | p) w1 ⟨hv1, -, hok⟩
    · exact wp_pure ⟨l, hv1 ▸ (Grown.refl hc).toTouched, fun ha => absurd rfl (hok ha (by omega))⟩
    refine wp_bind (Disk.readCluster_spec hvalid hs) ?_
    rintro _ w1 ⟨rfl, rfl⟩
    by_cases hon : D.On cl
    · rw [if_pos hon]
      dsimp only
      generalize htake : min rest.length (D.fs.clusterSize - skip) = take
      have hlen : (rest.take take).length = take := by rw [List.length_take]; omega
      have hdata := Disk.data_length w1 hvalid
      refine wp_bind (Disk.writeCluster_spec hvalid hs (by rw [length_overlay, hdata])) ?_
      intro rc w2 hw2
      rw [if_pos hon] at hw2
      obtain ⟨rfl, hv2⟩ := hw2
      refine wp_bind (kfree_spec D p) ?_
      intro _ w3 hv3
      rw [if_neg (by simp)]
      rw [hv1] at hv2
      have hv3' : D.vol w3 = (D.vol w).setData cl (overlay ((D.vol w).data cl) skip (rest.take take)) := hv3.trans hv2
      have htouch : Touched D (D.vol w) (D.vol w3) f l l := hv3' ▸ touched_setData hc hmem _
      have hchunk : Stored (D.vol w) (D.vol w3) l (D.fs.clusterSize * i + skip) (rest.take take) := by
        rw [hv3']
        exact stored_setData (hc.filled w) hc.linked.nodup hi (by omega)
      split_ifs with hdone
      · rw [List.take_of_length_le (by omega)] at hchunk
        exact wp_pure ⟨l, htouch, fun _ _ _ => ⟨rfl, rfl, hchunk⟩⟩
      · refine wp_bind (nextOrAppend_spec htouch.chain hi (htouch.fat_ne_zero hroot)) ?_
        rintro r w4 ⟨l4, hg, hr, hlong⟩
        have hroot4 := (htouch.trans hg.toTouched).fat_ne_zero hroot
        have hmore : D.fs.clusterSize * i + skip + rest.length ≤ D.fs.clusterSize * l.length → i + 1 < l.length :=
          next_block_lt (by omega)
        rcases hr with rfl | ⟨hr, hr4⟩
        · rw [if_pos rfl]
          exact wp_pure ⟨l4, htouch.trans hg.toTouched, fun _ _ hfit => absurd rfl (hlong (hmore hfit)).1⟩
        · rw [if_neg hr]
          refine (ih hg.chain hr4 (by omega) (by rw [List.length_drop]; omega) hroot4).mono ?_
          rintro r' w5 ⟨l5, ht5, hstored⟩
          refine ⟨l5, htouch.trans (hg.toTouched.trans ht5), fun ha hall hfit => ?_⟩
          obtain ⟨-, rfl, rfl⟩ := hlong (hmore hfit)
          have hpos : D.fs.clusterSize * (i + 1) + 0 = D.fs.clusterSize * i + skip + (rest.take take).length := by
            rw [Nat.mul_succ]
            omega
          obtain ⟨h1, h2, h3⟩ := hstored ha hall (by rw [hpos, List.length_drop]; omega)
          rw [hpos] at h3
          have happend := hchunk.append h3
          rw [List.take_append_drop] at happend
          exact ⟨h1, h2, happend⟩
    · rw [if_neg hon]
      refine wp_bind (kfree_spec D p) ?_
      intro _ w3 hv3
      refine wp_pure ⟨l, ?_, fun _ hall => absurd (hall cl hmem) hon⟩
      rw [hv3, hv1]
      exact (Grown.refl hc).toTouched

section Read

omit [KernelAlloc H] in
theorem readSkip_spec {k i cl : ℕ} (hc : IsChain D (D.vol w).fat f l) (hi : l[i]? = some cl) :
    Wp (readSkip D.fs k cl) w fun r w' => l[min (i + k) (l.length - 1)]? = some r ∧ w' = w := by
  have hlt := (List.getElem?_eq_some_iff.mp hi).1
  induction k generalizing i cl with
  | zero =>
    refine wp_pure ⟨?_, rfl⟩
    rwa [Nat.add_zero, Nat.min_eq_left (by omega)]
  | succ k ih =>
    have hvalid := hc.valid cl (List.mem_of_getElem? hi)
    have hnext := hc.linked.next_eq hi
    rw [readSkip]
    refine wp_bind (Disk.fatGet_spec hvalid.2) ?_
    rintro _ _ ⟨rfl, rfl⟩
    rw [hnext]
    cases hn : l[i + 1]? with
    | none =>
      have hlast := List.getElem?_eq_none_iff.mp hn
      rw [Option.getD_none, if_pos (.inl rfl)]
      refine wp_pure ⟨?_, rfl⟩
      rwa [show min (i + (k + 1)) (l.length - 1) = i by omega]
    | some d =>
      have hd := hc.valid d (List.mem_of_getElem? hn)
      have hd2 := hd.1
      rw [Option.getD_some, if_neg (by rintro (h | h); exact hd.ne_eoc h; omega),
        show i + (k + 1) = i + 1 + k by omega]
      exact ih hn (List.getElem?_eq_some_iff.mp hn).1

def readFrom (D : Disk σ) (data : ℕ → List UInt8) : List ℕ → ℕ → ℕ → List UInt8
  | [], _, _ => []
  | c :: cs, skip, len =>
    if D.On c then ((data c).drop skip).take len ++ readFrom D data cs 0 (len - ((data c).length - skip)) else []

theorem readFrom_zero (data : ℕ → List UInt8) (cs : List ℕ) (skip : ℕ) : readFrom D data cs skip 0 = [] := by
  induction cs generalizing skip with
  | nil => rfl
  | cons c cs ih => simp [readFrom, ih]

theorem readFrom_congr {data data' : ℕ → List UInt8} {cs : List ℕ} (h : ∀ c ∈ cs, data' c = data c) (skip len : ℕ) :
    readFrom D data' cs skip len = readFrom D data cs skip len := by
  induction cs generalizing skip len with
  | nil => rfl
  | cons c cs ih =>
    rw [readFrom, readFrom, h c List.mem_cons_self, ih fun d hd => h d (List.mem_cons_of_mem _ hd)]

theorem readFrom_eq_take {data : ℕ → List UInt8} {cs : List ℕ} (hon : ∀ c ∈ cs, D.On c) (len : ℕ) :
    readFrom D data cs 0 len = (cs.flatMap data).take len := by
  induction cs generalizing len with
  | nil => simp [readFrom]
  | cons c cs ih =>
    rw [readFrom, if_pos (hon c List.mem_cons_self), ih fun d hd => hon d (List.mem_cons_of_mem _ hd),
      List.flatMap_cons, List.take_append, List.drop_zero, Nat.sub_zero]

theorem readLoop_spec {n i cl skip len : ℕ} (ha : AllocOk H) (hc : IsChain D (D.vol w).fat f l)
    (hi : l[i]? = some cl) (hskip : skip < D.fs.clusterSize) (hn : len ≤ n) :
    Wp (readLoop D.fs n cl skip len) w fun r w' => D.vol w' = D.vol w ∧
      r = readFrom D (D.vol w).data (l.drop i) skip len := by
  induction n generalizing i cl skip len w with
  | zero =>
    obtain rfl := Nat.le_zero.mp hn
    exact wp_pure ⟨rfl, (readFrom_zero _ _ _).symm⟩
  | succ n ih =>
    obtain ⟨hlt, hget⟩ := List.getElem?_eq_some_iff.mp hi
    have hvalid := hc.valid cl (List.mem_of_getElem? hi)
    have hcl := hvalid.1
    have hs := clusterSize_pos D (by omega)
    have hlen := Disk.data_length w hvalid
    have hnext := hc.linked.next_eq hi
    rw [readLoop]
    by_cases hz : len = 0
    · rw [if_pos (.inl hz), hz]
      exact wp_pure ⟨rfl, (readFrom_zero _ _ _).symm⟩
    rw [if_neg (by omega)]
    refine wp_bind (kmalloc_spec D _) ?_
    rintro (_ | p) w1 ⟨hv1, -, hok⟩
    · exact absurd rfl (hok ha (by omega))
    refine wp_bind (Disk.readCluster_spec hvalid hs) ?_
    rintro _ w1 ⟨rfl, rfl⟩
    rw [List.drop_eq_getElem_cons hlt, hget, readFrom, hv1]
    by_cases hon : D.On cl
    · rw [if_pos hon, if_pos hon]
      dsimp only
      refine wp_bind (kfree_spec D p) ?_
      intro _ w2 hv2
      rw [hv1] at hv2
      have hchunk : (((D.vol w).data cl).drop skip).length = D.fs.clusterSize - skip := by
        rw [List.length_drop, hlen]
      rw [hlen]
      generalize ((D.vol w).data cl).drop skip = chunk at hchunk
      split_ifs with hdone
      · refine wp_pure ⟨hv2, ?_⟩
        rw [show len - (D.fs.clusterSize - skip) = 0 by omega, readFrom_zero, List.append_nil,
          show min len (D.fs.clusterSize - skip) = len by omega]
      · rw [show min len (D.fs.clusterSize - skip) = chunk.length by omega, List.take_length,
          List.take_of_length_le (by omega)]
        rw [← hv2] at hnext
        refine wp_bind (Disk.fatGet_spec hvalid.2) ?_
        rintro _ w2 ⟨rfl, rfl⟩
        rw [hnext]
        cases hd : l[i + 1]? with
        | none =>
          rw [Option.getD_none, if_pos (.inr rfl), List.drop_of_length_le (List.getElem?_eq_none_iff.mp hd), readFrom,
            List.append_nil]
          exact wp_pure ⟨hv2, rfl⟩
        | some d =>
          have hdv := hc.valid d (List.mem_of_getElem? hd)
          have hd2 := hdv.1
          rw [Option.getD_some, if_neg (by rintro (h | h); omega; exact hdv.ne_eoc h)]
          refine wp_bind (ih (hv2 ▸ hc) hd (by omega) (by omega)) ?_
          rintro _ w3 ⟨hv3, rfl⟩
          refine wp_pure ⟨hv3.trans hv2, ?_⟩
          rw [hv2, hchunk]
    · rw [if_neg hon, if_neg hon]
      refine wp_bind (kfree_spec D p) ?_
      intro _ w2 hv2
      exact wp_pure ⟨hv2.trans hv1, rfl⟩

def readFile (D : Disk σ) (data : ℕ → List UInt8) (l : List ℕ) (size off len : ℕ) : List UInt8 :=
  if size ≤ off then []
  else readFrom D data (l.drop (min (off / D.fs.clusterSize) (l.length - 1))) (off % D.fs.clusterSize)
    (min len (size - off))

theorem readFile_congr {data data' : ℕ → List UInt8} (h : ∀ c ∈ l, data' c = data c) (size off len : ℕ) :
    readFile D data' l size off len = readFile D data l size off len := by
  rw [readFile, readFile, readFrom_congr fun c hc => h c (List.mem_of_mem_drop hc)]

theorem exfatRead_spec (node : Node) {off len : ℕ} (ha : AllocOk H) (hs : 0 < D.fs.clusterSize)
    (hc : IsChain D (D.vol w).fat node.firstCluster l) (hfile : node.isDir = false) :
    Wp (exfatRead D.fs node off len) w fun r _ =>
      r = (toInt (readFile D (D.vol w).data l node.size off len).length,
        readFile D (D.vol w).data l node.size off len) := by
  unfold exfatRead readFile
  rw [hfile, if_neg (by decide)]
  by_cases hoff : node.size ≤ off
  · rw [if_pos hoff, if_pos hoff]
    exact wp_pure rfl
  rw [if_neg hoff, if_neg hoff, if_neg (by omega)]
  dsimp only
  refine wp_bind (readSkip_spec hc hc.head) ?_
  rintro cl w ⟨hcl, rfl⟩
  rw [Nat.zero_add] at hcl
  refine wp_bind (readLoop_spec ha hc hcl (Nat.mod_lt _ hs) (le_refl _)) ?_
  rintro _ w' ⟨-, rfl⟩
  exact wp_pure rfl

theorem bytes_drop_blocks (h : Filled v size l) (i : ℕ) : (bytes v l).drop (size * i) = bytes v (l.drop i) := by
  induction i generalizing l with
  | zero => rfl
  | succ i ih =>
    cases l with
    | nil => simp [bytes]
    | cons c l =>
      have hc := h c List.mem_cons_self
      rw [List.drop_succ_cons, ← ih fun d hd => h d (List.mem_cons_of_mem _ hd), Nat.mul_succ, Nat.add_comm,
        ← List.drop_drop]
      congr 1
      rw [bytes, List.flatMap_cons, ← hc, List.drop_left]
      rfl

omit [KernelAlloc H] in
theorem readFile_eq (off len : ℕ) {size : ℕ} (hc : IsChain D (D.vol w).fat f l) (hon : ∀ c ∈ l, D.On c)
    (hsize : size ≤ D.fs.clusterSize * l.length) :
    readFile D (D.vol w).data l size off len = (((bytes (D.vol w) l).take size).drop off).take len := by
  unfold readFile
  by_cases hoff : size ≤ off
  · rw [if_pos hoff, List.drop_of_length_le (by rw [List.length_take]; omega), List.take_nil]
  have hpos : 0 < D.fs.clusterSize := by
    rcases Nat.eq_zero_or_pos D.fs.clusterSize with h0 | h0
    · rw [h0] at hsize
      omega
    · exact h0
  have hblock : off / D.fs.clusterSize < l.length := Nat.div_lt_of_lt_mul (by omega)
  have hcl := (hc.filled w) _ (List.getElem_mem hblock)
  have hmod := Nat.mod_lt off hpos
  have hdrop : ((bytes (D.vol w) l).drop off) = ((D.vol w).data l[off / D.fs.clusterSize]).drop
      (off % D.fs.clusterSize) ++ bytes (D.vol w) (l.drop (off / D.fs.clusterSize + 1)) := by
    conv_lhs => rw [← Nat.div_add_mod off D.fs.clusterSize, ← List.drop_drop, bytes_drop_blocks (hc.filled w)]
    rw [List.drop_eq_getElem_cons hblock, bytes, List.flatMap_cons, List.drop_append_of_le_length (by omega)]
    rfl
  rw [if_neg hoff, Nat.min_eq_left (by omega), List.drop_eq_getElem_cons hblock, readFrom,
    if_pos (hon _ (List.getElem_mem hblock)), readFrom_eq_take fun c hc => hon c (List.mem_of_mem_drop hc),
    List.drop_take, List.take_take, hdrop, List.take_append, List.length_drop]
  rfl

end Read

end DexOs.Exfat
