import DexOs.Lib.Accesses
import DexOs.Lib.Loops
import DexOs.Lib.Words
import Mathlib.Data.Nat.Bitwise

/-! The pattern test of `memtest.c`, against a memory that may answer a read with any value. -/

namespace DexOs.MemoryTest

open DexOs.Lib

inductive ConsoleCall
  | progress (label : String) (done total : ℕ)
  | putc (ch : Char)
  | write (s : String)
  | writeHex64 (v : ℕ)

structure World where
  history : List (Access ℕ ℕ)
  output : List ConsoleCall

/-- What a read of the 64 bits at an address returns. It may depend on everything that has happened. -/
abbrev Behaviour := World → ℕ → ℕ

structure Run where
  errors : ℕ
  world : World

namespace Run

def history (r : Run) : List (Access ℕ ℕ) := r.world.history

def print (r : Run) (call : ConsoleCall) : Run :=
  { r with world := { r.world with output := call :: r.world.output } }

def write64 (r : Run) (addr val : ℕ) : Run :=
  { r with world := { r.world with history := .write addr val :: r.world.history } }

def read64 (mem : Behaviour) (r : Run) (addr : ℕ) : ℕ × Run :=
  let v := mem r.world addr % 2 ^ 64
  (v, { r with world := { r.world with history := .read addr v :: r.world.history } })

end Run

def patterns : List ℕ := [
  0x0000000000000000,
  0xFFFFFFFFFFFFFFFF,
  0xAAAAAAAAAAAAAAAA,
  0x5555555555555555,
  0x0123456789ABCDEF,
  0xFEDCBA9876543210]

def addressLoop (start len : ℕ) (label : String) (body : ℕ → Run → Run) (fuel : ℕ) (r : Run) : Option Run :=
  let last := (start + len) % 2 ^ 64
  (whileLoop (fun t : ℕ × ℕ × Run => (t.1 + 8) % 2 ^ 64 ≤ last)
    (fun t =>
      let r := body t.1 t.2.2
      let r := if t.2.1 &&& 0xFFFF = 0 then r.print (.progress label (sub64 t.1 start) len) else r
      some ((t.1 + 8) % 2 ^ 64, (t.2.1 + 1) % 2 ^ 64, r)) fuel (start, 0, r)).map fun t => t.2.2

def verifyWord (mem : Behaviour) (pat addr : ℕ) (r : Run) : Run :=
  let (v, r) := r.read64 mem addr
  if v ≠ pat then
    let r := if r.errors < 5 then
        ((((((r.print (.write "\nMISMATCH at 0x")).print (.writeHex64 addr)).print (.write " read=0x")).print
          (.writeHex64 v)).print (.write " expected=0x")).print (.writeHex64 pat)).print (.write "\n")
      else r
    { r with errors := (r.errors + 1) % 2 ^ 64 }
  else r

def testPattern (mem : Behaviour) (start len fuel : ℕ) (writeLabel verifyLabel : String) (pat : ℕ) (r : Run) :
    Option Run := do
  let r ← addressLoop start len writeLabel (fun addr r => r.write64 addr pat) fuel r
  let r := (r.print (.progress writeLabel len len)).print (.putc '\r')
  let r ← addressLoop start len verifyLabel (verifyWord mem pat) fuel r
  some ((r.print (.progress verifyLabel len len)).print (.write "\n"))

def runPatterns (mem : Behaviour) (start len fuel : ℕ) (w : World) : Option Run := do
  let r ← patterns.foldlM (fun r pat => testPattern mem start len fuel "Write pat" "Verify pat" pat r) ⟨0, w⟩
  let r ← (List.range 64).foldlM (fun r bit =>
    testPattern mem start len fuel "Walk1 write" "Walk1 verify" (1 <<< bit) r) r
  (List.range 64).foldlM (fun r bit =>
    testPattern mem start len fuel "Walk0 write" "Walk0 verify" (2 ^ 64 - 1 - 1 <<< bit) r) r

variable {mem : Behaviour} {start len fuel pat : ℕ} {r r' r'' : Run}

@[simp] theorem Run.print_history (r : Run) (call : ConsoleCall) : (r.print call).history = r.history := rfl

@[simp] theorem Run.print_errors (r : Run) (call : ConsoleCall) : (r.print call).errors = r.errors := rfl

section Words

theorem addressLoop_turns (hend : start + len + 8 < 2 ^ 64) {label : String} {body : ℕ → Run → Run}
    (I : ℕ → Run → Prop) (h0 : I 0 r) (hbody : ∀ k r, k < len / 8 → I k r → I (k + 1) (body (start + 8 * k) r))
    (hprint : ∀ k r call, I k r → I k (r.print call)) (hfuel : len / 8 < fuel) :
    ∃ r', addressLoop start len label body fuel r = some r' ∧ I (len / 8) r' := by
  have hlast : (start + len) % 2 ^ 64 = start + len := Nat.mod_eq_of_lt (by omega)
  obtain ⟨t, hrun, -, -, ht⟩ := whileLoop_turns (n := len / 8)
    (fun t : ℕ × ℕ × Run => (t.1 + 8) % 2 ^ 64 ≤ (start + len) % 2 ^ 64)
    (fun t =>
      let r := body t.1 t.2.2
      let r := if t.2.1 &&& 0xFFFF = 0 then r.print (.progress label (sub64 t.1 start) len) else r
      some ((t.1 + 8) % 2 ^ 64, (t.2.1 + 1) % 2 ^ 64, r))
    (fun k t => t.1 = start + 8 * k ∧ k ≤ len / 8 ∧ I k t.2.2) (s := (start, 0, r))
    ⟨rfl, Nat.zero_le _, h0⟩ (by
      rintro k ⟨addr, i, r⟩ hk ⟨rfl, -, hr⟩
      dsimp only at hr ⊢
      rw [hlast, Nat.mod_eq_of_lt (by omega)]
      refine ⟨by omega, _, rfl, by dsimp only; omega, hk, ?_⟩
      dsimp only
      split_ifs
      · exact hprint _ _ _ (hbody k r hk hr)
      · exact hbody k r hk hr)
    (by
      rintro ⟨addr, i, r⟩ ⟨rfl, -, -⟩
      dsimp only
      rw [hlast, Nat.mod_eq_of_lt (by omega)]
      omega) hfuel
  exact ⟨t.2.2, by rw [addressLoop, hrun]; rfl, ht⟩

theorem writePass_spec (hend : start + len + 8 < 2 ^ 64) (label : String) (pat : ℕ) (r : Run)
    (hfuel : len / 8 < fuel) :
    ∃ r', addressLoop start len label (fun addr r => r.write64 addr pat) fuel r = some r' ∧ r'.errors = r.errors ∧
      r.history <:+ r'.history ∧ (Consistent r.history → Consistent r'.history) ∧
      (∀ addr v, .read addr v ∈ r'.history → .read addr v ∈ r.history) ∧
      ∀ k < len / 8, lastWrite r'.history (start + 8 * k) = some pat := by
  apply addressLoop_turns hend
    (fun k t => t.errors = r.errors ∧ r.history <:+ t.history ∧ (Consistent r.history → Consistent t.history) ∧
      (∀ addr v, .read addr v ∈ t.history → .read addr v ∈ r.history) ∧
      ∀ j < k, lastWrite t.history (start + 8 * j) = some pat) _ _ _ hfuel
  · exact ⟨rfl, List.suffix_refl _, id, fun _ _ h => h, fun j hj => absurd hj (Nat.not_lt_zero j)⟩
  · rintro k t - ⟨herr, hsuf, hcons, hreads, hlast⟩
    refine ⟨herr, hsuf.trans (List.suffix_cons _ _), hcons, ?_, ?_⟩
    · intro addr v hread
      exact hreads addr v ((List.mem_cons.mp hread).resolve_left (by simp))
    intro j hj
    by_cases hjk : j = k
    · rw [hjk]
      exact lastWrite_write_self
    · exact (lastWrite_write_ne (by omega)).trans (hlast j (by omega))
  · exact fun _ _ _ h => h

def Keeps (mem : Behaviour) (pats : List ℕ) : Prop :=
  ∀ w addr, ∀ pat ∈ pats, lastWrite w.history addr = some pat → mem w addr % 2 ^ 64 = pat

/-- What passes with these patterns over `n` words come to: a memory that keeps what is written passes them, and a bit
that is never read as in one of the patterns is counted. -/
structure Passed (mem : Behaviour) (start n : ℕ) (pats : List ℕ) (r r' : Run) : Prop where
  history : r.history <:+ r'.history
  grows : r.errors ≤ r'.errors
  bound : r'.errors ≤ r.errors + pats.length * n
  clean : Consistent r'.history → r'.errors = r.errors
  kept : Keeps mem pats → Consistent r.history → Consistent r'.history
  answers : ∀ addr v, .read addr v ∈ r'.history → .read addr v ∈ r.history ∨ ∃ w, v = mem w addr % 2 ^ 64
  caught : ∀ k < n, ∀ pat ∈ pats, ∀ b, (∀ v, .read (start + 8 * k) v ∈ r'.history → v.testBit b ≠ pat.testBit b) →
    r.errors < r'.errors

theorem verifyWord_history (mem : Behaviour) (pat addr : ℕ) (r : Run) :
    ∃ v, (verifyWord mem pat addr r).history = .read addr v :: r.history ∧ v = mem r.world addr % 2 ^ 64 := by
  refine ⟨_, ?_, rfl⟩
  unfold verifyWord Run.read64
  dsimp only
  split_ifs <;> rfl

theorem verifyWord_cases (mem : Behaviour) (pat addr : ℕ) (r : Run) (hmax : r.errors + 1 < 2 ^ 64) :
    ∃ v, (verifyWord mem pat addr r).history = .read addr v :: r.history ∧ v = mem r.world addr % 2 ^ 64 ∧
      (verifyWord mem pat addr r).errors = if v = pat then r.errors else r.errors + 1 := by
  obtain ⟨v, hhist, rfl⟩ := verifyWord_history mem pat addr r
  refine ⟨_, hhist, rfl, ?_⟩
  unfold verifyWord Run.read64
  dsimp only
  by_cases hv : mem r.world addr % 2 ^ 64 = pat
  · rw [if_neg (not_not.mpr hv), if_pos hv]
  · rw [if_pos hv, if_neg hv]
    dsimp only
    split_ifs
    · exact Nat.mod_eq_of_lt hmax
    · exact Nat.mod_eq_of_lt hmax

theorem Passed.word {t : Run} {k : ℕ} (hp : Passed mem start k [pat] r t)
    (hlast : lastWrite t.history (start + 8 * k) = some pat) (hmax : r.errors + k + 1 < 2 ^ 64) :
    Passed mem start (k + 1) [pat] r (verifyWord mem pat (start + 8 * k) t) := by
  have hgrows := hp.grows
  have hbound : t.errors ≤ r.errors + 1 * k := hp.bound
  obtain ⟨v, hhist, hv, herr⟩ := verifyWord_cases mem pat (start + 8 * k) t (by omega)
  have hsuf : t.history <:+ (verifyWord mem pat (start + 8 * k) t).history := by
    rw [hhist]
    exact List.suffix_cons _ _
  refine ⟨hp.history.trans hsuf, ?_, ?_, ?_, ?_, ?_, ?_⟩
  · rw [herr]
    split_ifs <;> omega
  · change _ ≤ r.errors + 1 * (k + 1)
    rw [herr]
    split_ifs <;> omega
  · intro hc
    have hclean := hp.clean (hc.suffix hsuf)
    rw [hhist] at hc
    rw [herr, if_pos (hc.read_eq hlast), hclean]
  · intro hkeeps hc
    rw [hhist]
    refine ⟨fun u hu => ?_, hp.kept hkeeps hc⟩
    obtain rfl : u = pat := Option.some.inj (hu.symm.trans hlast)
    exact hv.trans (hkeeps t.world _ u List.mem_cons_self hlast)
  · intro addr x hx
    rw [hhist] at hx
    rcases List.mem_cons.mp hx with heq | hx
    · obtain ⟨rfl, rfl⟩ := Access.read.inj heq
      exact .inr ⟨t.world, hv⟩
    · exact hp.answers addr x hx
  · intro j hj pat' hpat b hb
    obtain rfl := List.mem_singleton.mp hpat
    rw [herr]
    by_cases hjk : j = k
    · have hne : v ≠ pat' := by
        intro heq
        refine hb v ?_ (congrArg (Nat.testBit · b) heq)
        rw [hhist, hjk]
        exact List.mem_cons_self
      rw [if_neg hne]
      omega
    · have hbefore : r.errors < t.errors := hp.caught j (by omega) pat' hpat b fun x hx => hb x (hsuf.subset hx)
      split_ifs <;> omega

theorem verifyPass_spec (mem : Behaviour) (hend : start + len + 8 < 2 ^ 64) (label : String)
    (hmax : r.errors + len / 8 < 2 ^ 64)
    (hwritten : ∀ k < len / 8, lastWrite r.history (start + 8 * k) = some pat) (hfuel : len / 8 < fuel) :
    ∃ r', addressLoop start len label (verifyWord mem pat) fuel r = some r' ∧ Passed mem start (len / 8) [pat] r r' := by
  have key : ∃ r', addressLoop start len label (verifyWord mem pat) fuel r = some r' ∧
      Passed mem start (len / 8) [pat] r r' ∧ ∀ j < len / 8, lastWrite r'.history (start + 8 * j) = some pat := by
    apply addressLoop_turns hend
      (fun k t => Passed mem start k [pat] r t ∧ ∀ j < len / 8, lastWrite t.history (start + 8 * j) = some pat) _ _ _ hfuel
    · refine ⟨⟨List.suffix_refl _, le_refl _, le_refl _, fun _ => rfl, fun _ => id, fun _ _ => .inl, ?_⟩, hwritten⟩
      intro k hk
      exact absurd hk (Nat.not_lt_zero k)
    · rintro k t hk ⟨hp, hlast⟩
      refine ⟨hp.word (hlast k hk) (by omega), ?_⟩
      intro j hj
      obtain ⟨v, hhist, -⟩ := verifyWord_history mem pat (start + 8 * k) t
      rw [hhist]
      exact hlast j hj
    · rintro k t call ⟨hp, hlast⟩
      exact ⟨⟨hp.history, hp.grows, hp.bound, hp.clean, hp.kept, hp.answers, hp.caught⟩, hlast⟩
  obtain ⟨r', hrun, hpassed, -⟩ := key
  exact ⟨r', hrun, hpassed⟩

theorem testPattern_spec (mem : Behaviour) (hend : start + len + 8 < 2 ^ 64) (writeLabel verifyLabel : String) (pat : ℕ)
    (hmax : r.errors + len / 8 < 2 ^ 64) (hfuel : len / 8 < fuel) :
    ∃ r', testPattern mem start len fuel writeLabel verifyLabel pat r = some r' ∧
      Passed mem start (len / 8) [pat] r r' := by
  obtain ⟨r₁, hwrite, herr, hsuf, hcons, hreads, hlast⟩ := writePass_spec hend writeLabel pat r hfuel
  let r₂ := (r₁.print (.progress writeLabel len len)).print (.putc '\r')
  have herr₂ : r₂.errors = r.errors := herr
  obtain ⟨r₃, hverify, hp⟩ := verifyPass_spec mem (r := r₂) hend verifyLabel (by rwa [herr₂]) hlast hfuel
  refine ⟨(r₃.print (.progress verifyLabel len len)).print (.write "\n"), ?_, ?_⟩
  · rw [testPattern, hwrite]
    dsimp only [Option.bind_eq_bind, Option.bind_some]
    rw [hverify]
    rfl
  · refine ⟨hsuf.trans hp.history, ?_, ?_, ?_, ?_, ?_, ?_⟩
    · exact herr₂ ▸ hp.grows
    · exact herr₂ ▸ hp.bound
    · exact fun hc => (hp.clean hc).trans herr₂
    · exact fun hkeeps hc => hp.kept hkeeps (hcons hc)
    · exact fun addr v hv => (hp.answers addr v hv).imp_left (hreads addr v)
    · exact fun k hk pat' hpat b hb => herr₂ ▸ hp.caught k hk pat' hpat b hb

end Words

section Passes

variable {n : ℕ} {ps qs : List ℕ}

theorem Passed.refl (mem : Behaviour) (start n : ℕ) (r : Run) : Passed mem start n [] r r where
  history := List.suffix_refl _
  grows := le_refl _
  bound := Nat.le_add_right _ _
  clean _ := rfl
  kept _ := id
  answers _ _ := .inl
  caught _ _ _ hpat := absurd hpat List.not_mem_nil

theorem Passed.append (h : Passed mem start n ps r r') (h' : Passed mem start n qs r' r'') :
    Passed mem start n (ps ++ qs) r r'' where
  history := h.history.trans h'.history
  grows := h.grows.trans h'.grows
  bound := by
    have hb := h.bound
    have hb' := h'.bound
    rw [List.length_append, Nat.add_mul]
    omega
  clean hc := (h'.clean hc).trans (h.clean (hc.suffix h'.history))
  kept hkeeps hc :=
    h'.kept (fun w addr pat hpat => hkeeps w addr pat (List.mem_append_right ps hpat))
      (h.kept (fun w addr pat hpat => hkeeps w addr pat (List.mem_append_left qs hpat)) hc)
  answers addr v hv := by
    rcases h'.answers addr v hv with hv | hv
    · exact h.answers addr v hv
    · exact .inr hv
  caught k hk pat hpat b hb := by
    rcases List.mem_append.mp hpat with hpat | hpat
    · exact (h.caught k hk pat hpat b fun v hv => hb v (h'.history.subset hv)).trans_le h'.grows
    · exact h.grows.trans_lt (h'.caught k hk pat hpat b hb)

theorem passes_spec {β : Type} (mem : Behaviour) (hend : start + len + 8 < 2 ^ 64) (writeLabel verifyLabel : String)
    (pat : β → ℕ) (l : List β) (hmax : r.errors + l.length * (len / 8) < 2 ^ 64) (hfuel : len / 8 < fuel) :
    ∃ r', l.foldlM (fun r b => testPattern mem start len fuel writeLabel verifyLabel (pat b) r) r = some r' ∧
      Passed mem start (len / 8) (l.map pat) r r' := by
  induction l generalizing r with
  | nil => exact ⟨r, rfl, .refl _ _ _ r⟩
  | cons b l ih =>
    rw [List.length_cons, Nat.succ_mul] at hmax
    obtain ⟨r₁, hpass, h₁⟩ := testPattern_spec mem hend writeLabel verifyLabel (pat b) (by omega) hfuel (r := r)
    have hbound : r₁.errors ≤ r.errors + 1 * (len / 8) := h₁.bound
    obtain ⟨r', hrest, h'⟩ := ih (r := r₁) (by omega)
    refine ⟨r', ?_, h₁.append h'⟩
    rw [List.foldlM_cons, hpass]
    exact hrest

end Passes

def allPatterns : List ℕ :=
  patterns ++ (List.range 64).map (fun bit => 1 <<< bit) ++ (List.range 64).map fun bit => 2 ^ 64 - 1 - 1 <<< bit

theorem length_patterns : patterns.length = 6 := rfl

theorem zero_mem_allPatterns : 0 ∈ allPatterns :=
  List.mem_append_left _ (List.mem_append_left _ List.mem_cons_self)

theorem ones_mem_allPatterns : 2 ^ 64 - 1 ∈ allPatterns :=
  List.mem_append_left _ (List.mem_append_left _ (List.mem_cons_of_mem _ List.mem_cons_self))

theorem runPatterns_spec (mem : Behaviour) (hlen : len < 2 ^ 56) (hend : start + len + 8 < 2 ^ 64) (w : World)
    (hfuel : len / 8 < fuel) :
    ∃ r, runPatterns mem start len fuel w = some r ∧ Passed mem start (len / 8) allPatterns ⟨0, w⟩ r := by
  have hmax₁ : (⟨0, w⟩ : Run).errors + patterns.length * (len / 8) < 2 ^ 64 := by
    rw [length_patterns]
    dsimp only
    omega
  obtain ⟨r₁, hrun₁, h₁⟩ := passes_spec mem hend "Write pat" "Verify pat" (fun pat => pat) patterns hmax₁ hfuel
  rw [List.map_id'] at h₁
  have hb₁ := h₁.bound
  rw [length_patterns] at hb₁
  dsimp only at hb₁
  have hmax₂ : r₁.errors + (List.range 64).length * (len / 8) < 2 ^ 64 := by
    rw [List.length_range]
    omega
  obtain ⟨r₂, hrun₂, h₂⟩ :=
    passes_spec mem hend "Walk1 write" "Walk1 verify" (fun bit => 1 <<< bit) (List.range 64) hmax₂ hfuel
  have hb₂ := h₂.bound
  rw [List.length_map, List.length_range] at hb₂
  have hmax₃ : r₂.errors + (List.range 64).length * (len / 8) < 2 ^ 64 := by
    rw [List.length_range]
    omega
  obtain ⟨r₃, hrun₃, h₃⟩ :=
    passes_spec mem hend "Walk0 write" "Walk0 verify" (fun bit => 2 ^ 64 - 1 - 1 <<< bit) (List.range 64) hmax₃ hfuel
  refine ⟨r₃, ?_, (h₁.append h₂).append h₃⟩
  unfold runPatterns
  rw [hrun₁, Option.bind_eq_bind, Option.bind_some, hrun₂, Option.bind_some]
  exact hrun₃

theorem allPatterns_lt : ∀ pat ∈ allPatterns, pat < 2 ^ 64 := by
  intro pat hpat
  have hall : (allPatterns.all fun pat => decide (pat < 2 ^ 64)) = true := by decide +kernel
  exact of_decide_eq_true (List.all_eq_true.mp hall pat hpat)

/-- A memory that answers every read of a written address with the value last written there. -/
def Sound (mem : Behaviour) : Prop := ∀ w addr v, lastWrite w.history addr = some v → mem w addr = v

theorem Sound.keeps (h : Sound mem) : Keeps mem allPatterns := by
  intro w addr pat hpat hlast
  rw [h w addr pat hlast, Nat.mod_eq_of_lt (allPatterns_lt pat hpat)]

/-- The bit of the word at the address reads as `stuck` whatever has been written. -/
def Stuck (mem : Behaviour) (addr b : ℕ) (stuck : Bool) : Prop := ∀ w, (mem w addr % 2 ^ 64).testBit b = stuck

/-- The test ends. It finds no errors when each read has returned the value last written, as on a sound memory, and one
when a bit of a whole word of the region has always read with the same value, as on a memory where it is stuck. -/
theorem runPatterns_verdict (mem : Behaviour) (hlen : len < 2 ^ 56) (hend : start + len + 8 < 2 ^ 64)
    (output : List ConsoleCall) (hfuel : len / 8 < fuel) :
    ∃ r, runPatterns mem start len fuel ⟨[], output⟩ = some r ∧ (Sound mem ∨ Consistent r.history → r.errors = 0) ∧
      ∀ k < len / 8, ∀ b < 64, ∀ stuck : Bool, (Stuck mem (start + 8 * k) b stuck ∨
        ∀ v, .read (start + 8 * k) v ∈ r.history → v.testBit b = stuck) → 1 ≤ r.errors := by
  obtain ⟨r, hrun, hp⟩ := runPatterns_spec mem hlen hend ⟨[], output⟩ hfuel
  refine ⟨r, hrun, ?_, ?_⟩
  · rintro (hsound | hc)
    · exact hp.clean (hp.kept hsound.keeps trivial)
    · exact hp.clean hc
  intro k hk b hb stuck h
  have hstuck : ∀ v, .read (start + 8 * k) v ∈ r.history → v.testBit b = stuck := by
    rcases h with hmem | hreads
    · intro v hv
      obtain ⟨w, rfl⟩ := (hp.answers _ v hv).resolve_left List.not_mem_nil
      exact hmem w
    · exact hreads
  -- the first two patterns have every bit clear and every bit set
  cases stuck with
  | false =>
    apply hp.caught k hk (2 ^ 64 - 1) ones_mem_allPatterns b
    intro v hv
    rw [hstuck v hv, Nat.testBit_two_pow_sub_one, decide_eq_true hb]
    exact Bool.false_ne_true
  | true =>
    apply hp.caught k hk 0 zero_mem_allPatterns b
    intro v hv
    rw [hstuck v hv, Nat.zero_testBit]
    exact Bool.false_ne_true.symm

def soundMemory : Behaviour := fun w addr => (lastWrite w.history addr).getD 0

theorem soundMemory_sound : Sound soundMemory := by
  intro w addr v hlast
  rw [soundMemory, hlast, Option.getD_some]

def stuckMemory : Behaviour := fun w addr => if addr = 0x1001000 then 1 else soundMemory w addr

theorem runPatterns_verdict_quick :
    (∃ r, runPatterns soundMemory 0x1000000 0x1000000 (2 ^ 22) ⟨[], []⟩ = some r ∧ r.errors = 0) ∧
    ∃ r, runPatterns stuckMemory 0x1000000 0x1000000 (2 ^ 22) ⟨[], []⟩ = some r ∧ 1 ≤ r.errors := by
  have hlen : 0x1000000 < 2 ^ 56 := by decide
  have hend : 0x1000000 + 0x1000000 + 8 < 2 ^ 64 := by decide
  have hfuel : 0x1000000 / 8 < 2 ^ 22 := by decide
  constructor
  · obtain ⟨r, hrun, hclean, -⟩ := runPatterns_verdict soundMemory hlen hend [] hfuel
    exact ⟨r, hrun, hclean (.inl soundMemory_sound)⟩
  · obtain ⟨r, hrun, -, hcaught⟩ := runPatterns_verdict stuckMemory hlen hend [] hfuel
    refine ⟨r, hrun, hcaught 512 (by decide) 0 (by decide) true (.inl fun w => ?_)⟩
    rw [stuckMemory, if_pos (by decide)]
    decide

end DexOs.MemoryTest
