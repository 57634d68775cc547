import DexOs.DevfsBytes
import DexOs.ExfatReturns

/-! The `fill` command of `shell.c`: it writes a file in blocks of 512 bytes. -/

namespace DexOs.Shell

open DexOs.Lib DexOs.Exfat

variable {σ H : Type}

inductive File (σ : Type)
  | exfat (fs : Fs σ) (node : Exfat.Node)
  | device (node : Devfs.Node σ)

inductive FillEnd
  | writeError
  | left (off : ℕ)

section Fill

variable [KernelAlloc H]

def vfsWrite (fuel : ℕ) (file : File σ) (off : ℕ) (buf : List UInt8) : Io σ H (ℤ × File σ) :=
  match file with
  | .exfat fs node => do
    let r ← exfatWrite fuel fs node off buf
    pure (r.1, .exfat fs r.2)
  | .device node => do
    let rc ← Devfs.devfsWrite fuel node off buf
    pure (rc, .device node)

def fillTurn (fuel sz : ℕ) (ch : UInt8) (off : ℕ) (file : File σ) : Io σ H (Option (ℕ × File σ)) := do
  let r ← vfsWrite fuel file off (List.replicate (min (sz - off) 512) ch)
  pure (if r.1 < 0 then none else some ((off + r.1.toNat) % 2 ^ 64, r.2))

def fillLoop (fuel sz : ℕ) (ch : UInt8) : ℕ → ℕ → File σ → Io σ H FillEnd
  | 0, _, _ => stop .fuel
  | n + 1, off, file => do
    if sz ≤ off then pure (.left off)
    else
      match ← fillTurn fuel sz ch off file with
      | none => pure .writeError
      | some (off, file) => fillLoop fuel sz ch n off file

structure Filling (σ H : Type) where
  off : ℕ
  file : File σ
  world : World σ H

variable {sz : ℕ} {ch : UInt8} {c c' : Filling σ H}

/-- The loop stops after finitely many calls, with the offset equal to the size or with an error message. -/
def FillStops (sz : ℕ) (ch : UInt8) (c : Filling σ H) : Prop :=
  ∃ fuel n, Wp (fillLoop fuel sz ch n c.off c.file) c.world fun r _ => r = .writeError ∨ r = .left sz

def Turns (sz : ℕ) (ch : UInt8) (c c' : Filling σ H) : Prop :=
  c.off < sz ∧ ∃ fuel, fillTurn fuel sz ch c.off c.file c.world = .ok (some (c'.off, c'.file), c'.world)

def Answers (sz : ℕ) (ch : UInt8) (c : Filling σ H) : Prop :=
  ∃ fuel, Wp (vfsWrite fuel c.file c.off (List.replicate (min (sz - c.off) 512) ch)) c.world fun _ _ => True

def Writable (node : Devfs.Node σ) : Prop := node.isDir = false ∧ ∃ b, node.bdev = some b ∧ b.write.isSome

def AtEnd (c : Filling σ H) : Prop :=
  match c.file with
  | .exfat _ _ => False
  | .device node => Writable node ∧ node.size ≤ c.off

end Fill

section Fuel

/-! More fuel does not change what a call returns. -/

variable {fs : Fs σ} {fuel fuel' : ℕ}

theorem chainEnd_extends (h : fuel ≤ fuel') (cur count : ℕ) :
    Extends (chainEnd fs fuel cur count : Io σ H _) (chainEnd fs fuel' cur count) := by
  induction fuel generalizing fuel' cur count with
  | zero =>
    intro w r hrun
    cases hrun
  | succ fuel ih =>
    obtain ⟨n, rfl⟩ := Nat.exists_eq_add_of_lt (Nat.lt_of_lt_of_le (Nat.lt_succ_self fuel) h)
    apply extends_bind (.refl _)
    intro next
    split
    · exact .refl _
    · exact ih (by omega) next (count + 1)

theorem writeMiddle_extends (b : BlockDevice σ) (buf : List UInt8) (h : fuel ≤ fuel') (c : Devfs.Cursor) :
    Extends (Devfs.writeMiddle b buf fuel c : Io σ H _) (Devfs.writeMiddle b buf fuel' c) := by
  induction fuel generalizing fuel' c with
  | zero =>
    intro w r hrun
    cases hrun
  | succ fuel ih =>
    obtain ⟨n, rfl⟩ := Nat.exists_eq_add_of_lt (Nat.lt_of_lt_of_le (Nat.lt_succ_self fuel) h)
    unfold Devfs.writeMiddle
    split
    · exact .refl _
    · apply extends_bind (.refl _)
      intro rc
      split
      · exact .refl _
      · exact ih (by omega) _

variable [KernelAlloc H]

theorem exfatWrite_extends (h : fuel ≤ fuel') (node : Exfat.Node) (off : ℕ) (buf : List UInt8) :
    Extends (exfatWrite fuel fs node off buf : Io σ H _) (exfatWrite fuel' fs node off buf) := by
  have hensure (first needed : ℕ) :
      Extends (ensureChainLength fuel fs first needed : Io σ H _) (ensureChainLength fuel' fs first needed) := by
    apply extends_bind (.refl _)
    intro first'
    split
    · exact .refl _
    · apply extends_bind (chainEnd_extends h _ _)
      intro r
      exact .refl _
  unfold exfatWrite
  split
  · exact .refl _
  split
  · exact .refl _
  split
  · exact .refl _
  apply extends_bind (hensure _ _)
  intro r
  exact .refl _

theorem devfsWrite_extends (h : fuel ≤ fuel') (node : Devfs.Node σ) (off : ℕ) (buf : List UInt8) :
    Extends (Devfs.devfsWrite fuel node off buf : Io σ H _) (Devfs.devfsWrite fuel' node off buf) := by
  unfold Devfs.devfsWrite
  split
  · exact .refl _
  split
  · exact .refl _
  split
  · exact .refl _
  split
  · exact .refl _
  split
  · exact .refl _
  apply extends_bind (.refl _)
  intro head
  split
  · exact .refl _
  apply extends_bind (writeMiddle_extends _ buf h _)
  intro middle
  exact .refl _

theorem vfsWrite_extends (h : fuel ≤ fuel') (file : File σ) (off : ℕ) (buf : List UInt8) :
    Extends (vfsWrite fuel file off buf : Io σ H _) (vfsWrite fuel' file off buf) := by
  cases file with
  | exfat fs node => exact extends_bind (exfatWrite_extends h node off buf) fun _ => .refl _
  | device node => exact extends_bind (devfsWrite_extends h node off buf) fun _ => .refl _

theorem fillTurn_extends (h : fuel ≤ fuel') (sz : ℕ) (ch : UInt8) (off : ℕ) (file : File σ) :
    Extends (fillTurn fuel sz ch off file : Io σ H _) (fillTurn fuel' sz ch off file) :=
  extends_bind (vfsWrite_extends h file off _) fun _ => .refl _

theorem fillLoop_extends (h : fuel ≤ fuel') (sz : ℕ) (ch : UInt8) (n off : ℕ) (file : File σ) :
    Extends (fillLoop fuel sz ch n off file : Io σ H _) (fillLoop fuel' sz ch n off file) := by
  induction n generalizing off file with
  | zero => exact .refl _
  | succ n ih =>
    unfold fillLoop
    split
    · exact .refl _
    · apply extends_bind (fillTurn_extends h sz ch off file)
      intro r
      split
      · exact .refl _
      · exact ih _ _

end Fuel

section Counts

/-! What the two file systems return: an error, or the count of the bytes up to the end of the file. -/

variable {b : BlockDevice σ} {w : World σ H}

theorem writeMiddle_count (buf : List UInt8) (fuel : ℕ) (c : Devfs.Cursor) :
    Ends (Devfs.writeMiddle b buf fuel c) w (fun _ => True) fun r _ =>
      ∀ c', r = some c' → c'.pos + c'.remaining = c.pos + c.remaining ∧ c'.remaining < b.sectorSize := by
  induction fuel generalizing c w with
  | zero => trivial
  | succ fuel ih =>
    unfold Devfs.writeMiddle
    split
    case isTrue hlt =>
      intro c' hc
      obtain rfl := Option.some.inj hc
      exact ⟨rfl, hlt⟩
    case isFalse hge =>
      apply ends_bind (ends_true _ _)
      intro rc w1 _
      split
      · intro c' hc
        cases hc
      · apply (ih _).mono fun _ h => h
        intro r w2 h c' hc
        obtain ⟨hsum, hlt⟩ := h c' hc
        refine ⟨hsum.trans ?_, hlt⟩
        have hturn : c.turn b.sectorSize * b.sectorSize ≤ c.remaining := by
          have hdiv : c.turn b.sectorSize ≤ c.remaining / b.sectorSize :=
            (Nat.min_le_left _ _).trans (Nat.mod_le _ _)
          exact (Nat.mul_le_mul_right _ hdiv).trans (Nat.div_mul_le_self _ _)
        change c.pos + c.turn b.sectorSize * b.sectorSize + (c.remaining - c.turn b.sectorSize * b.sectorSize) = _
        omega

variable [KernelAlloc H]

theorem writePart_count (headOff : ℕ) (buf : List UInt8) (c : Devfs.Cursor) :
    Ends (Devfs.writePart b headOff buf c) w (fun _ => True) fun r _ =>
      ∀ c', r = some c' → c'.pos + c'.remaining = c.pos + c.remaining ∧
        c'.remaining = c.remaining - min (b.sectorSize - headOff) c.remaining := by
  unfold Devfs.writePart
  apply ends_bind (ends_true _ _)
  intro r w1 _
  cases r with
  | none =>
    intro c' hc
    cases hc
  | some r =>
    dsimp only
    apply ends_bind (ends_true _ _)
    intro rc w2 _
    apply ends_bind (ends_true _ _)
    intro _ w3 _ c' hc
    split at hc
    · obtain rfl := Option.some.inj hc
      refine ⟨?_, rfl⟩
      change c.pos + min (b.sectorSize - headOff) c.remaining +
        (c.remaining - min (b.sectorSize - headOff) c.remaining) = _
      omega
    · cases hc

theorem writeHead_count (headOff : ℕ) (buf : List UInt8) (c : Devfs.Cursor) :
    Ends (if headOff ≠ 0 then Devfs.writePart b headOff buf c else pure (some c)) w (fun _ => True) fun r _ =>
      ∀ c', r = some c' → c'.pos + c'.remaining = c.pos + c.remaining := by
  split
  · apply (writePart_count headOff buf c).mono fun _ h => h
    intro r w' h c' hc
    exact (h c' hc).1
  · intro c' hc
    obtain rfl := Option.some.inj hc
    rfl

theorem writeTail_count (buf : List UInt8) {c : Devfs.Cursor} (hlt : c.remaining < b.sectorSize) :
    Ends (if 0 < c.remaining then Devfs.writePart b 0 buf c else pure (some c)) w (fun _ => True) fun r _ =>
      ∀ c', r = some c' → c'.pos = c.pos + c.remaining := by
  split
  · apply (writePart_count 0 buf c).mono fun _ h => h
    intro r w' h c' hc
    obtain ⟨hsum, hrest⟩ := h c' hc
    omega
  · intro c' hc
    obtain rfl := Option.some.inj hc
    omega

theorem devfsWrite_count (fuel : ℕ) (node : Devfs.Node σ) {off : ℕ} {buf : List UInt8} (hlen : off + buf.length < 2 ^ 64) :
    Ends (Devfs.devfsWrite fuel node off buf) w (fun _ => True) fun rc _ =>
      rc = -1 ∨ Writable node ∧ rc = toInt (min (off + buf.length) node.size - off) := by
  unfold Devfs.devfsWrite
  split
  · exact .inl rfl
  next hdir =>
  split
  · trivial
  case h_2 b hb =>
    split
    · exact .inl rfl
    have hwrite : Writable node := ⟨Bool.eq_false_of_not_eq_true hdir, b, hb, by
      rw [Option.isSome_iff_ne_none, ne_eq, ← Option.isNone_iff_eq_none]
      assumption⟩
    unfold Devfs.cursor
    dsimp only
    rw [Nat.mod_eq_of_lt hlen]
    by_cases hend : min (off + buf.length) node.size ≤ off
    · rw [if_pos hend]
      refine .inr ⟨hwrite, ?_⟩
      rw [Nat.sub_eq_zero_of_le hend]
      rfl
    rw [if_neg hend]
    dsimp only
    split
    · trivial
    generalize min (off + buf.length) node.size - off = len
    -- `pos + remaining` is the length in each of the three parts, and nothing remains at the end
    apply ends_bind (writeHead_count (off % b.sectorSize) buf ⟨off / b.sectorSize, 0, len⟩)
    intro head w1 hhead
    cases head with
    | none => exact .inl rfl
    | some c1 =>
      dsimp only
      apply ends_bind (writeMiddle_count buf fuel c1)
      intro middle w2 hmiddle
      cases middle with
      | none => exact .inl rfl
      | some c2 =>
        obtain ⟨hsum, hlt⟩ := hmiddle c2 rfl
        dsimp only
        apply ends_bind (writeTail_count buf hlt)
        intro tail w3 htail
        cases tail with
        | none => exact .inl rfl
        | some c3 =>
          have hpos : c3.pos = len := (htail c3 rfl).trans (hsum.trans ((hhead c1 rfl).trans (Nat.zero_add len)))
          exact .inr ⟨hwrite, congrArg toInt hpos⟩

def taken (file : File σ) (off len : ℕ) : ℕ :=
  match file with
  | .exfat _ _ => len
  | .device node => min (off + len) node.size - off

def SameFile : File σ → File σ → Prop
  | .exfat fs _, file => ∃ node, file = .exfat fs node
  | .device node, file => file = .device node

theorem vfsWrite_count (fuel : ℕ) (file : File σ) {off : ℕ} {buf : List UInt8} (hlen : off + buf.length < 2 ^ 64) :
    Ends (vfsWrite fuel file off buf) w (fun _ => True) fun r _ => SameFile file r.2 ∧
      (r.1 = -1 ∨ (∀ node, file = .device node → Writable node) ∧ r.1 = toInt (taken file off buf.length)) := by
  cases file with
  | exfat fs node =>
    apply ends_bind (exfatWrite_count fuel fs node off buf w)
    intro r w' hr
    refine ⟨⟨_, rfl⟩, hr.imp_right fun h => ⟨?_, h⟩⟩
    intro node h
    cases h
  | device node =>
    apply ends_bind (devfsWrite_count fuel node hlen)
    intro r w' hr
    refine ⟨rfl, hr.imp_right fun h => ⟨?_, h.2⟩⟩
    rintro node ⟨⟩
    exact h.1

end Counts

section Turns

variable [KernelAlloc H] {sz : ℕ} {ch : UInt8} {c c' : Filling σ H}

theorem toInt_small {n : ℕ} (h : n ≤ 512) : toInt n = n := by
  unfold toInt
  rw [if_pos (by omega)]
  omega

theorem Turns.off_eq (hsz : sz < 2 ^ 64) (h : Turns sz ch c c') : SameFile c.file c'.file ∧
    (∀ node, c.file = .device node → Writable node) ∧
      c'.off = c.off + taken c.file c.off (min (sz - c.off) 512) := by
  obtain ⟨hlt, fuel, hrun⟩ := h
  have htake : taken c.file c.off (min (sz - c.off) 512) ≤ min (sz - c.off) 512 := by
    unfold taken
    split
    · exact le_rfl
    · omega
  have hlen : (List.replicate (min (sz - c.off) 512) ch).length = min (sz - c.off) 512 := List.length_replicate
  have hturn : Ends (fillTurn fuel sz ch c.off c.file) c.world (fun _ => True) fun r _ => ∀ off file,
      r = some (off, file) → SameFile c.file file ∧ (∀ node, c.file = .device node → Writable node) ∧
        off = c.off + taken c.file c.off (min (sz - c.off) 512) := by
    apply ends_bind (vfsWrite_count fuel c.file (by rw [hlen]; omega))
    rintro r w' ⟨hsame, hcount⟩ off file heq
    rw [hlen, toInt_small (htake.trans (Nat.min_le_right _ _))] at hcount
    split at heq
    · cases heq
    case isFalse hpos =>
      obtain ⟨hwrite, hrc⟩ := hcount.resolve_left (by omega)
      obtain ⟨rfl, rfl⟩ := Prod.mk.inj (Option.some.inj heq)
      refine ⟨hsame, hwrite, ?_⟩
      rw [hrc, Int.toNat_natCast]
      apply Nat.mod_eq_of_lt
      omega
  exact hturn.post hrun _ _ rfl

theorem Turns.off_lt (hsz : sz < 2 ^ 64) (h : Turns sz ch c c') (hend : ¬ AtEnd c) : c.off < c'.off := by
  obtain ⟨-, hwrite, hoff⟩ := h.off_eq hsz
  have hlt := h.1
  rw [hoff]
  unfold AtEnd at hend
  unfold taken
  cases hfile : c.file with
  | exfat fs node =>
    dsimp only
    omega
  | device node =>
    rw [hfile] at hend
    have hsize : c.off < node.size := by
      by_contra hle
      exact hend ⟨hwrite node hfile, Nat.le_of_not_lt hle⟩
    dsimp only
    omega

theorem Turns.off_le (hsz : sz < 2 ^ 64) (h : Turns sz ch c c') : c'.off ≤ sz := by
  obtain ⟨-, -, hoff⟩ := h.off_eq hsz
  have hlt := h.1
  rw [hoff]
  unfold taken
  split
  · omega
  · omega

theorem devfsWrite_end {node : Devfs.Node σ} {off : ℕ} {buf : List UInt8} (hwrite : Writable node) (hend : node.size ≤ off)
    (fuel : ℕ) (w : World σ H) : Devfs.devfsWrite fuel node off buf w = .ok (0, w) := by
  obtain ⟨hdir, b, hb, hsome⟩ := hwrite
  have hnone : ¬ b.write.isNone = true := by
    rw [Option.isNone_iff_eq_none, ← ne_eq, ← Option.isSome_iff_ne_none]
    exact hsome
  unfold Devfs.devfsWrite Devfs.cursor
  dsimp only
  rw [hdir, hb, if_neg (by decide)]
  dsimp only
  rw [if_neg hnone, if_pos ((Nat.min_le_right _ _).trans hend)]
  rfl

theorem fillTurn_end (hsz : sz < 2 ^ 64) (hlt : c.off < sz) (hend : AtEnd c) (fuel : ℕ) :
    fillTurn fuel sz ch c.off c.file c.world = .ok (some (c.off, c.file), c.world) := by
  unfold AtEnd at hend
  cases hfile : c.file with
  | exfat fs node =>
    rw [hfile] at hend
    exact hend.elim
  | device node =>
    rw [hfile] at hend
    have hcall : vfsWrite fuel (.device node) c.off (List.replicate (min (sz - c.off) 512) ch) c.world =
        .ok ((0, .device node), c.world) := bind_run (devfsWrite_end hend.1 hend.2 fuel c.world)
    unfold fillTurn
    rw [bind_run hcall, if_neg (lt_irrefl 0)]
    change Except.ok (some ((c.off + 0) % 2 ^ 64, File.device node), c.world) = _
    rw [Nat.add_zero, Nat.mod_eq_of_lt (by omega)]

theorem not_stops_of_end (hsz : sz < 2 ^ 64) (hlt : c.off < sz) (hend : AtEnd c) : ¬ FillStops sz ch c := by
  rintro ⟨fuel, n, r, w, hrun, -⟩
  induction n with
  | zero => cases hrun
  | succ n ih =>
    rw [fillLoop, if_neg (by omega), bind_run (fillTurn_end hsz hlt hend fuel)] at hrun
    exact ih hrun

theorem Turns.stops_iff (h : Turns sz ch c c') : FillStops sz ch c ↔ FillStops sz ch c' := by
  obtain ⟨hlt, fuel, hturn⟩ := h
  have hloop {fuel' : ℕ} (hle : fuel ≤ fuel') (n : ℕ) :
      fillLoop fuel' sz ch (n + 1) c.off c.file c.world = fillLoop fuel' sz ch n c'.off c'.file c'.world := by
    rw [fillLoop, if_neg (by omega), bind_run (fillTurn_extends hle sz ch _ _ _ _ hturn)]
  constructor
  · rintro ⟨fuel', n, hstops⟩
    cases n with
    | zero =>
      obtain ⟨r, w, hrun, -⟩ := hstops
      cases hrun
    | succ n =>
      refine ⟨max fuel fuel', n, ?_⟩
      have hmore := (fillLoop_extends (Nat.le_max_right fuel fuel') sz ch (n + 1) c.off c.file).wp hstops
      unfold Wp at hmore ⊢
      rw [hloop (Nat.le_max_left _ _)] at hmore
      exact hmore
  · rintro ⟨fuel', n, hstops⟩
    refine ⟨max fuel fuel', n + 1, ?_⟩
    have hmore := (fillLoop_extends (Nat.le_max_right fuel fuel') sz ch n c'.off c'.file).wp hstops
    unfold Wp at hmore ⊢
    rw [hloop (Nat.le_max_left _ _)]
    exact hmore

def Reached (sz : ℕ) (ch : UInt8) : Filling σ H → Filling σ H → Prop := Relation.ReflTransGen (Turns sz ch)

theorem Reached.stops_iff (h : Reached sz ch c c') : FillStops sz ch c ↔ FillStops sz ch c' := by
  induction h with
  | refl => rfl
  | tail _ hturn ih => exact ih.trans hturn.stops_iff

theorem FillStops.answers (h : FillStops sz ch c) (hlt : c.off < sz) : Answers sz ch c := by
  obtain ⟨fuel, n, r, w, hrun, -⟩ := h
  cases n with
  | zero => cases hrun
  | succ n =>
    rw [fillLoop, if_neg (by omega)] at hrun
    obtain ⟨_, _, hturn, -⟩ := bind_ok hrun
    obtain ⟨a, w', hcall, -⟩ := bind_ok hturn
    exact ⟨fuel, a, w', hcall, trivial⟩

theorem stops_or_turns (h : Answers sz ch c) (hlt : c.off < sz) : FillStops sz ch c ∨ ∃ c', Turns sz ch c c' := by
  obtain ⟨fuel, r, w', hcall, -⟩ := h
  have hturn : fillTurn fuel sz ch c.off c.file c.world =
      .ok (if r.1 < 0 then none else some ((c.off + r.1.toNat) % 2 ^ 64, r.2), w') := bind_run hcall
  by_cases hneg : r.1 < 0
  · left
    rw [if_pos hneg] at hturn
    refine ⟨fuel, 1, .writeError, w', ?_, .inl rfl⟩
    rw [fillLoop, if_neg (by omega), bind_run hturn]
    rfl
  · right
    rw [if_neg hneg] at hturn
    exact ⟨⟨_, _, w'⟩, hlt, fuel, hturn⟩

theorem stops_iff_turns (hsz : sz < 2 ^ 64) (hle : c.off ≤ sz) : FillStops sz ch c ↔
    ∀ c', Reached sz ch c c' → c'.off < sz → Answers sz ch c' ∧ ¬ AtEnd c' := by
  constructor
  · intro h c' hreach hlt
    have hstops := hreach.stops_iff.mp h
    exact ⟨hstops.answers hlt, fun hend => not_stops_of_end hsz hlt hend hstops⟩
  · intro h
    induction hn : sz - c.off using Nat.strong_induction_on generalizing c with
    | _ n ih =>
      subst hn
      by_cases hdone : sz ≤ c.off
      · have hoff : c.off = sz := by omega
        refine ⟨0, 1, .left c.off, c.world, ?_, .inr (congrArg _ hoff)⟩
        rw [fillLoop, if_pos hdone]
        rfl
      · have hlt : c.off < sz := by omega
        obtain ⟨hanswers, hend⟩ := h c .refl hlt
        rcases stops_or_turns hanswers hlt with hstops | ⟨c', hturn⟩
        · exact hstops
        · have hmore := hturn.off_lt hsz hend
          apply hturn.stops_iff.mpr
          exact ih _ (by omega) (hturn.off_le hsz) (fun c'' hreach => h c'' (.head hturn hreach)) rfl

end Turns

section Files

/-- A file on a volume with sectors of 512 bytes and clusters that are not empty, whatever the volume holds and whether
or not its device is read-only, or on a device that can be read and written. -/
def Served : File σ → Prop
  | .exfat fs _ => ∃ D : SectorDevice σ, OnSectors D fs
  | .device node => node.isDir = true ∨ Devfs.Usable node

/-- What a turn needs: an exFAT file whose chain comes to an end, or a device file that does not end here. For a
directory and for a device without a write function the turn fails. -/
def Moves (c : Filling σ H) : Prop :=
  match c.file with
  | .exfat fs node => node.isDir = true ∨ node.firstCluster < 2 ∨ ChainStops fs node.firstCluster c.world
  | .device node => Writable node → c.off < node.size

theorem SameFile.served {file file' : File σ} (h : SameFile file file') (hs : Served file) : Served file' := by
  cases file with
  | exfat fs node =>
    obtain ⟨node', rfl⟩ := h
    exact hs
  | device node =>
    obtain rfl := h
    exact hs

variable [KernelAlloc H] {sz : ℕ} {ch : UInt8} {c c' : Filling σ H}

theorem Reached.served (hsz : sz < 2 ^ 64) (h : Reached sz ch c c') (hs : Served c.file) : Served c'.file := by
  induction h with
  | refl => exact hs
  | tail _ hturn ih => exact (hturn.off_eq hsz).1.served ih

theorem Reached.device {node : Devfs.Node σ} (hsz : sz < 2 ^ 64) (h : Reached sz ch c c') (hc : c.file = .device node) :
    c'.file = .device node := by
  induction h with
  | refl => exact hc
  | tail _ hturn ih =>
    have hsame := (hturn.off_eq hsz).1
    rw [ih] at hsame
    exact hsame

theorem device_answers {node : Devfs.Node σ} (hs : Served (.device node)) (off : ℕ) {buf : List UInt8}
    (hlen : buf.length < 2 ^ 32) (w : World σ H) :
    Wp (Devfs.devfsWrite (buf.length + 1) node off buf) w fun _ _ => True := by
  by_cases hdir : node.isDir = true
  · rw [Devfs.devfsWrite, if_pos hdir]
    exact wp_pure trivial
  · have husable : Devfs.Usable node := hs.resolve_left hdir
    exact wp_of_neutral (Devfs.devfsWrite_neutral noLedger (fun h => h husable) (by omega) off)

theorem answers_iff (hlt : c.off < sz) (hs : Served c.file) : Answers sz ch c ∧ ¬ AtEnd c ↔ Moves c := by
  have hlen : (List.replicate (min (sz - c.off) 512) ch).length = min (sz - c.off) 512 := List.length_replicate
  obtain ⟨off, file, w⟩ := c
  dsimp only at hlt hs hlen
  cases file with
  | exfat fs node =>
    obtain ⟨D, hv⟩ := hs
    have hnil : List.replicate (min (sz - off) 512) ch ≠ [] := List.ne_nil_of_length_pos (by omega)
    have hcall := exfatWrite_answers_iff hv (w := w) node off (List.replicate (min (sz - off) 512) ch)
    rw [or_iff_right hnil] at hcall
    change (_ ∧ ¬ False) ↔ _
    rw [and_iff_left not_false]
    refine Iff.trans ?_ hcall
    apply exists_congr
    intro fuel
    constructor
    · rintro ⟨r, w', hrun, -⟩
      obtain ⟨a, w1, hrun', -⟩ := bind_ok hrun
      exact ⟨a, w1, hrun', trivial⟩
    · intro h
      apply wp_bind h
      rintro r w' -
      exact wp_pure trivial
  | device node =>
    have hanswers : Answers sz ch (⟨off, .device node, w⟩ : Filling σ H) := by
      refine ⟨_, wp_bind (device_answers hs off (hlen.trans_lt (by omega)) w) ?_⟩
      rintro r w' -
      exact wp_pure trivial
    rw [and_iff_right hanswers]
    change ¬ (Writable node ∧ node.size ≤ off) ↔ (Writable node → off < node.size)
    rw [not_and, Nat.not_le]

theorem mount_served {D : SectorDevice σ} {vbr : ℕ → UInt8} {w w₁ : World σ H} {fs : Fs σ} (hdev : Presents vbr D.dev w.dev)
    (hvbr : Signed vbr → bpsShift vbr = 9 ∧ spcByte vbr ≠ 0) (hrun : exfatMount D.dev w = .ok (some fs, w₁))
    (node : Exfat.Node) : Served (.exfat fs node) := by
  obtain ⟨h512, hfs⟩ := (exfatMount_ends hdev).post hrun fs rfl
  rcases hfs with rfl | ⟨hsig, -, rfl⟩
  · exact ⟨D, rfl, hdev.1, rfl, rfl, Nat.one_pos, (by decide : 1 < 256)⟩
  · obtain ⟨h9, hspc⟩ := hvbr hsig
    have hs := signedFs_fs512 h512 h9
    exact ⟨D, rfl, hdev.1, hs.bytes_eq, hs.cluster_eq, Nat.pos_of_ne_zero hspc, spcByte_lt vbr⟩

/-- The loop of `fill` on a served file stops if and only if none of its calls follows a chain without an end, and none
is made at the end of a device file that can be written. -/
theorem fill_stops_iff (hsz : sz < 2 ^ 64) (ch : UInt8) {file : File σ} (hs : Served file) (w : World σ H) :
    FillStops sz ch ⟨0, file, w⟩ ↔ ∀ c, Reached sz ch ⟨0, file, w⟩ c → c.off < sz → Moves c := by
  have hturns : FillStops sz ch ⟨0, file, w⟩ ↔
      ∀ c, Reached sz ch ⟨0, file, w⟩ c → c.off < sz → Answers sz ch c ∧ ¬ AtEnd c :=
    stops_iff_turns hsz (Nat.zero_le sz)
  rw [hturns]
  apply forall_congr'
  intro c
  constructor
  · intro h hreach hlt
    exact (answers_iff hlt (hreach.served hsz hs)).mp (h hreach hlt)
  · intro h hreach hlt
    exact (answers_iff hlt (hreach.served hsz hs)).mpr (h hreach hlt)

end Files

section Devices

variable {H : Type} [KernelAlloc H] {room : H → Prop} {b : BlockDevice Memory} {base sz : ℕ}

theorem fill_device_stops_iff (hb : Devfs.Backed b base) (hroom : Devfs.HasRoom room b.sectorSize)
    (hsize : b.sectorCount * b.sectorSize < 2 ^ 31) (hsz : sz < 2 ^ 64) (ch : UInt8) {off : ℕ} {w : World Memory H}
    (hoff : off ≤ sz) (hin : off ≤ b.sectorCount * b.sectorSize) (hw : room w.heap) :
    FillStops sz ch ⟨off, .device (Devfs.deviceFile b), w⟩ ↔ sz ≤ b.sectorCount * b.sectorSize := by
  have hwrite : Writable (Devfs.deviceFile b) := by
    obtain ⟨write, hsome, -⟩ := hb.write
    exact ⟨rfl, b, rfl, by rw [hsome]; rfl⟩
  have hnode : (Devfs.deviceFile b).size = b.sectorCount * b.sectorSize := Nat.mod_eq_of_lt (by omega)
  induction hn : b.sectorCount * b.sectorSize - off using Nat.strong_induction_on generalizing off w with
  | _ n ih =>
    subst hn
    by_cases hdone : sz ≤ off
    · refine iff_of_true ⟨0, 1, .left off, w, ?_, .inr (congrArg _ (by omega))⟩ (hdone.trans hin)
      rw [fillLoop, if_pos hdone]
      rfl
    by_cases hend : b.sectorCount * b.sectorSize ≤ off
    · apply iff_of_false
      · exact not_stops_of_end hsz (Nat.lt_of_not_le hdone) ⟨hwrite, hnode.le.trans hend⟩
      · omega
    have hlen : (List.replicate (min (sz - off) 512) ch).length = min (sz - off) 512 := List.length_replicate
    have hcall : Wp (Devfs.devfsWrite _ (Devfs.deviceFile b) off (List.replicate (min (sz - off) 512) ch)) w _ :=
      Devfs.devfsWrite_backed hb hroom hsize (by rw [hlen]; omega) (Nat.lt_succ_self _) hw
    obtain ⟨rc, w', hrun, n, hcount, rfl, -, hroom'⟩ := hcall
    rw [hlen] at hcount
    have hvfs : vfsWrite (b.sectorCount * b.sectorSize).succ (.device (Devfs.deviceFile b)) off
        (List.replicate (min (sz - off) 512) ch) w = .ok (((n : ℤ), .device (Devfs.deviceFile b)), w') := bind_run hrun
    have hturn : Turns sz ch ⟨off, .device (Devfs.deviceFile b), w⟩ ⟨off + n, .device (Devfs.deviceFile b), w'⟩ := by
      refine ⟨Nat.lt_of_not_le hdone, (b.sectorCount * b.sectorSize).succ, ?_⟩
      unfold fillTurn
      rw [bind_run hvfs, if_neg (Int.not_lt.mpr (Int.natCast_nonneg n))]
      change Except.ok (some ((off + n) % 2 ^ 64, File.device (Devfs.deviceFile b)), w') = _
      rw [Nat.mod_eq_of_lt (by omega)]
    rw [hturn.stops_iff]
    exact ih _ (by omega) (by omega) (by omega) hroom' rfl

def oneSector : BlockDevice Memory := ramdiskDevice [0x72] ⟨4096, 512⟩

theorem oneSector_backed : Devfs.Backed oneSector 4096 := Devfs.ramdisk_backed [0x72] (by decide) (by decide)

theorem unit_room : Devfs.HasRoom (fun _ : Unit => True) oneSector.sectorSize := fun h _ => ⟨16, h, rfl, trivial⟩

theorem fill_stops_iff_device :
    FillStops 512 0x41 ⟨0, .device (Devfs.deviceFile oneSector), (⟨fun _ => 0, ()⟩ : World Memory Unit)⟩ := by
  have hserved : Served (.device (Devfs.deviceFile oneSector)) := .inr ⟨oneSector, rfl, ramdisk_proper _ _, by decide⟩
  apply (fill_stops_iff (by decide) 0x41 hserved _).mpr
  intro c hreach hlt
  unfold Moves
  rw [hreach.device (by decide) rfl]
  exact fun _ => hlt

/-- 1024 bytes on a device of 512: the second call returns 0, and so does every call after it. -/
theorem fill_behind_end_hangs :
    ¬ FillStops 1024 0x41 ⟨0, .device (Devfs.deviceFile oneSector), (⟨fun _ => 0, ()⟩ : World Memory Unit)⟩ := by
  rw [fill_device_stops_iff oneSector_backed unit_room (by decide) (by decide) 0x41 (by decide) (by decide) trivial]
  decide

end Devices

end DexOs.Shell
