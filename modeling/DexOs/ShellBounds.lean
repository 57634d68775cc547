import DexOs.ShellPaths

/-! The writes of `resolve_path` into its buffers. -/

namespace DexOs.Shell

/-- A write of `resolve_path`. A write behind the end of an array changes memory that the function does not own; the
writes after the first such write are those of a run in which it did no harm. -/
inductive Write
  | tmp (i : ℕ)
  | norm (i : ℕ)
  | comp (i : ℕ)
  | comps (si k : ℕ)
  | out (i : ℕ) (c : UInt8)

def Write.InRange (outn : ℕ) : Write → Prop
  | tmp i => i < 160
  | norm i => i < 192
  | comp i => i < 64
  | comps si k => si < 16 ∧ k < 64
  | out i _ => i < outn

def pushWrites (f : ℕ → Write) (n : ℕ) (buf : List UInt8) : List UInt8 → List Write
  | [] => []
  | c :: s => if buf.length < n - 1 then f buf.length :: pushWrites f n (buf ++ [c]) s else []

def pushAll (f : ℕ → Write) (n : ℕ) (buf : List UInt8) : List (List UInt8) → List UInt8 × List Write
  | [] => (buf, [])
  | s :: ss =>
    let r := pushAll f n (push n buf s) ss
    (r.1, pushWrites f n buf s ++ r.2)

def tmpParts (cwd : Cwd) (input : List UInt8) : List (List UInt8) :=
  if input.head? = some 47 then [cwd.mnt, [58], input.tail] else [cwd.mnt, [58], cwd.path, [47], input]

def tmpWrites (cwd : Cwd) (input : List UInt8) (outn : ℕ) : List Write :=
  let r := pushAll .tmp outn [] (tmpParts cwd input)
  r.2 ++ [.tmp r.1.length]

def compWrites (comp : List UInt8) : List Write :=
  if comp = [] then [] else (List.range (comp.take 63).length).map .comp ++ [.comp (comp.take 63).length]

def stackWrites (comps : List (List UInt8)) (comp : List UInt8) : List Write :=
  let comp := comp.take 63
  if comp = [] ∨ comp = [46] then []
  else if comp = [46, 46] then []
  else if comps.length < 16 then
    (List.range 64).map (.comps comps.length) ++ (List.range comp.length).map (.comps comps.length)
  else []

def componentWrites : List (List UInt8) → List (List UInt8) → List Write
  | _, [] => []
  | comps, c :: cs => compWrites c ++ stackWrites comps c ++ componentWrites (pushComp comps c) cs

def normParts (tmp : List UInt8) : List (List UInt8) :=
  let rest := (tmp.dropWhile (· ≠ 58)).drop 1
  [tmp.takeWhile (· ≠ 58), (tmp.dropWhile (· ≠ 58)).take 1] ++ (if rest.head? = some 47 then [] else [[47]]) ++
    ((rest.splitOn 47).foldl pushComp []).flatMap fun comp => [[47], comp]

def normWrites (outn : ℕ) (tmp : List UInt8) : List Write :=
  let rest := (tmp.dropWhile (· ≠ 58)).drop 1
  let r := pushAll .norm outn [] (normParts tmp)
  let last := if r.1 = [] ∨ r.1.getLast? = some 58 then pushAll .norm outn r.1 [[47]] else (r.1, [])
  componentWrites [] (rest.splitOn 47) ++ r.2 ++ last.2 ++ [.norm last.1.length]

def copyWrites (outn : ℕ) (s : List UInt8) : List Write :=
  (strCopy outn s).zipIdx.map (fun x => .out x.2 x.1) ++ [.out (strCopy outn s).length 0]

def resolveWrites (cwd : Cwd) (input : List UInt8) (outn : ℕ) : List Write :=
  if 58 ∈ input then copyWrites outn input
  else if cwd.mnt = [] then [.out 0 0]
  else
    let tmp := tmpPath cwd input outn
    tmpWrites cwd input outn ++ normWrites outn tmp ++ copyWrites outn (normalize outn tmp)

def Terminated (outn : ℕ) (ws : List Write) : Prop := ∃ ws' i, ws = ws' ++ [.out i 0] ∧ i < outn

section Pushes

variable {n : ℕ} {f : ℕ → Write}

theorem push_length_le (n : ℕ) (buf s : List UInt8) : (push n buf s).length ≤ n - 1 := List.length_take_le ..

theorem push_cons (n : ℕ) (buf : List UInt8) (c : UInt8) (s : List UInt8) :
    push n buf (c :: s) = push n (buf ++ [c]) s := by
  unfold push
  rw [List.append_assoc, List.singleton_append]

theorem mem_pushWrites {buf s : List UInt8} (hbuf : buf.length ≤ n - 1) {w : Write} :
    w ∈ pushWrites f n buf s ↔ ∃ i, w = f i ∧ buf.length ≤ i ∧ i < (push n buf s).length := by
  induction s generalizing buf with
  | nil =>
    have hfull : (push n buf []).length = buf.length := by
      unfold push
      rw [List.append_nil, List.length_take]
      omega
    rw [hfull, pushWrites]
    refine iff_of_false List.not_mem_nil ?_
    rintro ⟨i, -, hle, hlt⟩
    omega
  | cons c s ih =>
    rw [pushWrites]
    by_cases hroom : buf.length < n - 1
    · have hnext : (buf ++ [c]).length = buf.length + 1 := by rw [List.length_append, List.length_singleton]
      have hgrow : buf.length < (push n (buf ++ [c]) s).length := by
        unfold push
        rw [List.length_take, List.length_append]
        omega
      rw [if_pos hroom, List.mem_cons, ih (by omega), push_cons, hnext]
      constructor
      · rintro (rfl | ⟨i, rfl, hle, hlt⟩)
        · exact ⟨buf.length, rfl, le_rfl, hgrow⟩
        · exact ⟨i, rfl, by omega, hlt⟩
      · rintro ⟨i, rfl, hle, hlt⟩
        by_cases hi : i = buf.length
        · left
          rw [hi]
        · exact .inr ⟨i, rfl, by omega, hlt⟩
    · rw [if_neg hroom]
      refine iff_of_false List.not_mem_nil ?_
      rintro ⟨i, -, hle, hlt⟩
      have hfull := push_length_le n buf (c :: s)
      omega

theorem pushAll_fst (buf : List UInt8) (ss : List (List UInt8)) : (pushAll f n buf ss).1 = ss.foldl (push n) buf := by
  induction ss generalizing buf with
  | nil => rfl
  | cons s ss ih => exact ih (push n buf s)

theorem push_length_ge {buf : List UInt8} (hbuf : buf.length ≤ n - 1) (s : List UInt8) :
    buf.length ≤ (push n buf s).length := by
  unfold push
  rw [List.length_take, List.length_append]
  omega

theorem pushAll_length_ge {buf : List UInt8} (hbuf : buf.length ≤ n - 1) (ss : List (List UInt8)) :
    buf.length ≤ (pushAll f n buf ss).1.length ∧ (pushAll f n buf ss).1.length ≤ n - 1 := by
  induction ss generalizing buf with
  | nil => exact ⟨le_rfl, hbuf⟩
  | cons s ss ih =>
    have hrest := ih (push_length_le n buf s)
    exact ⟨(push_length_ge hbuf s).trans hrest.1, hrest.2⟩

theorem mem_pushAll {buf : List UInt8} (hbuf : buf.length ≤ n - 1) (ss : List (List UInt8)) {w : Write} :
    w ∈ (pushAll f n buf ss).2 ↔ ∃ i, w = f i ∧ buf.length ≤ i ∧ i < (pushAll f n buf ss).1.length := by
  induction ss generalizing buf with
  | nil =>
    refine iff_of_false List.not_mem_nil ?_
    rintro ⟨i, -, hle, hlt⟩
    exact Nat.not_lt_of_le hle hlt
  | cons s ss ih =>
    have hle := push_length_le n buf s
    have hge := push_length_ge hbuf s
    have hrest := (pushAll_length_ge (f := f) hle ss).1
    rw [pushAll, List.mem_append, mem_pushWrites hbuf, ih hle]
    constructor
    · rintro (⟨i, rfl, hi, hlt⟩ | ⟨i, rfl, hi, hlt⟩)
      · exact ⟨i, rfl, hi, hlt.trans_le hrest⟩
      · exact ⟨i, rfl, hge.trans hi, hlt⟩
    · rintro ⟨i, rfl, hi, hlt⟩
      by_cases hin : i < (push n buf s).length
      · exact .inl ⟨i, rfl, hi, hin⟩
      · exact .inr ⟨i, rfl, by omega, hlt⟩

end Pushes

section Buffers

variable {cwd : Cwd} {input : List UInt8} {outn : ℕ}

theorem tmpParts_eq (cwd : Cwd) (input : List UInt8) (outn : ℕ) :
    (pushAll .tmp outn [] (tmpParts cwd input)).1 = tmpPath cwd input outn := by
  rw [pushAll_fst, tmpParts, tmpPath]
  split <;> rfl

theorem normParts_eq (outn : ℕ) (tmp : List UInt8) :
    let r := pushAll .norm outn [] (normParts tmp)
    (if r.1 = [] ∨ r.1.getLast? = some 58 then pushAll .norm outn r.1 [[47]] else (r.1, [])).1 = normalize outn tmp := by
  have hcomps (buf : List UInt8) (comps : List (List UInt8)) :
      (comps.flatMap fun comp => [[47], comp]).foldl (push outn) buf =
        comps.foldl (fun norm comp => push outn (push outn norm [47]) comp) buf := by
    induction comps generalizing buf with
    | nil => rfl
    | cons c comps ih => exact ih _
  have hfill : (pushAll .norm outn [] (normParts tmp)).1 =
      (((((tmp.dropWhile (· ≠ 58)).drop 1).splitOn 47).foldl pushComp []).foldl
        (fun norm comp => push outn (push outn norm [47]) comp)
        (if ((tmp.dropWhile (· ≠ 58)).drop 1).head? = some 47 then
          push outn (push outn [] (tmp.takeWhile (· ≠ 58))) ((tmp.dropWhile (· ≠ 58)).take 1)
        else push outn (push outn (push outn [] (tmp.takeWhile (· ≠ 58))) ((tmp.dropWhile (· ≠ 58)).take 1)) [47])) := by
    rw [pushAll_fst, normParts, List.foldl_append, hcomps]
    split <;> rfl
  unfold normalize
  dsimp only
  rw [← hfill]
  split <;> rfl

theorem tmpWrites_in_iff (cwd : Cwd) (input : List UInt8) (outn : ℕ) :
    (∀ w ∈ tmpWrites cwd input outn, w.InRange outn) ↔ (tmpPath cwd input outn).length < 160 := by
  rw [tmpWrites, ← tmpParts_eq]
  constructor
  · intro h
    exact h _ (List.mem_append_right _ (List.mem_singleton_self _))
  · intro hlt w hw
    rcases List.mem_append.mp hw with hw | hw
    · obtain ⟨i, rfl, -, hi⟩ := (mem_pushAll (Nat.zero_le _) _).mp hw
      exact hi.trans hlt
    · rw [List.mem_singleton.mp hw]
      exact hlt

theorem compWrites_in (comp : List UInt8) : ∀ w ∈ compWrites comp, w.InRange outn := by
  have hle : (comp.take 63).length ≤ 63 := List.length_take_le ..
  intro w hw
  rw [compWrites] at hw
  split at hw
  · exact absurd hw List.not_mem_nil
  · rcases List.mem_append.mp hw with hw | hw
    · obtain ⟨i, hi, rfl⟩ := List.mem_map.mp hw
      rw [List.mem_range] at hi
      change i < 64
      omega
    · rw [List.mem_singleton.mp hw]
      exact Nat.lt_succ_of_le hle

theorem stackWrites_in (comps : List (List UInt8)) (comp : List UInt8) : ∀ w ∈ stackWrites comps comp, w.InRange outn := by
  have hle : (comp.take 63).length ≤ 63 := List.length_take_le ..
  have hrow {n : ℕ} (hn : n ≤ 64) (hroom : comps.length < 16) :
      ∀ w ∈ (List.range n).map (Write.comps comps.length), w.InRange outn := by
    intro w hw
    obtain ⟨k, hk, rfl⟩ := List.mem_map.mp hw
    rw [List.mem_range] at hk
    exact ⟨hroom, by omega⟩
  intro w hw
  unfold stackWrites at hw
  dsimp only at hw
  split_ifs at hw with hskip hup hroom
  · exact absurd hw List.not_mem_nil
  · exact absurd hw List.not_mem_nil
  · rcases List.mem_append.mp hw with hw | hw
    · exact hrow le_rfl hroom w hw
    · exact hrow (by omega) hroom w hw
  · exact absurd hw List.not_mem_nil

theorem componentWrites_in (comps cs : List (List UInt8)) : ∀ w ∈ componentWrites comps cs, w.InRange outn := by
  induction cs generalizing comps with
  | nil => exact fun w hw => absurd hw List.not_mem_nil
  | cons c cs ih =>
    intro w hw
    rw [componentWrites, List.mem_append, List.mem_append] at hw
    rcases hw with (hw | hw) | hw
    · exact compWrites_in c w hw
    · exact stackWrites_in comps c w hw
    · exact ih _ w hw

theorem normWrites_in (tmp : List UInt8) (h0 : 0 < outn) (hn : outn ≤ 192) : ∀ w ∈ normWrites outn tmp, w.InRange outn := by
  have hfill : (pushAll .norm outn [] (normParts tmp)).1.length ≤ outn - 1 := (pushAll_length_ge (Nat.zero_le _) _).2
  have hpush {buf : List UInt8} (hbuf : buf.length ≤ outn - 1) (ss : List (List UInt8)) :
      ∀ w ∈ (pushAll .norm outn buf ss).2, w.InRange outn := by
    intro w hw
    obtain ⟨i, rfl, -, hi⟩ := (mem_pushAll hbuf ss).mp hw
    have hle := (pushAll_length_ge (f := Write.norm) hbuf ss).2
    change i < 192
    omega
  intro w hw
  unfold normWrites at hw
  dsimp only at hw
  rw [List.mem_append, List.mem_append, List.mem_append] at hw
  rcases hw with ((hw | hw) | hw) | hw
  · exact componentWrites_in _ _ w hw
  · exact hpush (Nat.zero_le _) _ w hw
  · split at hw
    · exact hpush hfill _ w hw
    · exact absurd hw List.not_mem_nil
  · rw [List.mem_singleton.mp hw]
    change _ < 192
    split
    · have hlast := (pushAll_length_ge (f := Write.norm) hfill [[47]]).2
      omega
    · dsimp only
      omega

theorem copyWrites_in (s : List UInt8) (h0 : 0 < outn) : ∀ w ∈ copyWrites outn s, w.InRange outn := by
  have hle : (strCopy outn s).length ≤ outn - 1 := List.length_take_le ..
  intro w hw
  rcases List.mem_append.mp hw with hw | hw
  · obtain ⟨⟨c, i⟩, hx, rfl⟩ := List.mem_map.mp hw
    have hi := List.snd_lt_of_mem_zipIdx hx
    change i < outn
    omega
  · rw [List.mem_singleton.mp hw]
    change _ < outn
    omega

theorem copyWrites_terminated (ws : List Write) (s : List UInt8) (h0 : 0 < outn) :
    Terminated outn (ws ++ copyWrites outn s) := by
  have hle : (strCopy outn s).length ≤ outn - 1 := List.length_take_le ..
  exact ⟨_, _, (List.append_assoc ..).symm, by omega⟩

theorem resolveWrites_terminated (cwd : Cwd) (input : List UInt8) (h0 : 0 < outn) :
    Terminated outn (resolveWrites cwd input outn) := by
  unfold resolveWrites
  split
  · exact copyWrites_terminated [] input h0
  · split
    · exact ⟨[], 0, rfl, h0⟩
    · exact copyWrites_terminated _ _ h0

theorem resolveWrites_in_iff (cwd : Cwd) (input : List UInt8) (h0 : 0 < outn) (hn : outn ≤ 192) :
    (∀ w ∈ resolveWrites cwd input outn, w.InRange outn) ↔
      (58 ∉ input → cwd.mnt ≠ [] → (tmpPath cwd input outn).length < 160) := by
  unfold resolveWrites
  by_cases hc : 58 ∈ input
  · rw [if_pos hc]
    exact iff_of_true (copyWrites_in input h0) fun h => absurd hc h
  rw [if_neg hc]
  by_cases hm : cwd.mnt = []
  · rw [if_pos hm]
    refine iff_of_true ?_ fun _ h => absurd hm h
    intro w hw
    rw [List.mem_singleton.mp hw]
    exact h0
  rw [if_neg hm]
  dsimp only
  rw [← tmpWrites_in_iff]
  constructor
  · intro h _ _ w hw
    exact h w (List.mem_append_left _ (List.mem_append_left _ hw))
  · intro h w hw
    rw [List.mem_append, List.mem_append] at hw
    rcases hw with (hw | hw) | hw
    · exact h hc hm w hw
    · exact normWrites_in _ h0 hn w hw
    · exact copyWrites_in _ h0 w hw

end Buffers

section Bounds

variable {cwd : Cwd} {input : List UInt8}

theorem length_tmpPath (cwd : Cwd) (input : List UInt8) : (tmpPath cwd input 192).length =
    min (if input.head? = some 47 then cwd.mnt.length + input.length
      else cwd.mnt.length + cwd.path.length + input.length + 2) 191 := by
  unfold tmpPath
  dsimp only
  split
  case isTrue h =>
    obtain ⟨s, rfl⟩ := List.head?_eq_some_iff.mp h
    rw [push_push, push_push, push, List.nil_append, List.length_take]
    simp only [List.length_append, List.length_cons, List.length_nil, List.tail_cons]
    omega
  case isFalse =>
    rw [push_push, push_push, push_push, push_push, push, List.nil_append, List.length_take]
    simp only [List.length_append, List.length_cons, List.length_nil]
    omega

/-- The inputs that `tmp` has room for. -/
def FitsTmp (cwd : Cwd) (input : List UInt8) : Prop :=
  58 ∈ input ∨ cwd.mnt = [] ∨ input.head? = some 47 ∨ cwd.mnt.length + cwd.path.length + input.length + 2 < 160

/-- `resolve_path` stays inside its buffers if and only if `tmp` has room for the current directory, the input and
three more characters. The output is terminated in any case. -/
theorem resolve_in_bounds_iff (cwd : Cwd) (input : List UInt8) (hlen : input.length ≤ 127) :
    ((∀ w ∈ resolveWrites cwd input 192, w.InRange 192) ∧ Terminated 192 (resolveWrites cwd input 192)) ↔
      FitsTmp cwd input := by
  have hm := cwd.mnt_le
  rw [and_iff_left (resolveWrites_terminated cwd input (by decide)), resolveWrites_in_iff cwd input (by decide) le_rfl,
    length_tmpPath, FitsTmp]
  by_cases hc : 58 ∈ input
  · exact iff_of_true (fun h => absurd hc h) (.inl hc)
  by_cases hnil : cwd.mnt = []
  · exact iff_of_true (fun _ h => absurd hnil h) (.inr (.inl hnil))
  by_cases hslash : input.head? = some 47
  · rw [if_pos hslash]
    exact iff_of_true (fun _ _ => by omega) (.inr (.inr (.inl hslash)))
  · rw [if_neg hslash]
    constructor
    · intro h
      have hlt := h hc hnil
      right; right; right
      omega
    · rintro (h | h | h | h)
      · exact absurd h hc
      · exact absurd h hnil
      · exact absurd h hslash
      · exact fun _ _ => by omega

theorem resolve_in_bounds_iff_root : (∀ w ∈ resolveWrites rootCwd [97] 192, w.InRange 192) ∧
    Terminated 192 (resolveWrites rootCwd [97] 192) :=
  (resolve_in_bounds_iff rootCwd [97] (by decide)).mpr (.inr (.inr (.inr (by decide))))

def deepCwd : Cwd := ⟨rootName, List.replicate 120 97, rootCwd.mnt_le, by decide, rootCwd.mnt_colon⟩

theorem tmp_overflows : Write.tmp 160 ∈ resolveWrites deepCwd (List.replicate 34 97) 192 ∧
    ¬ (Write.tmp 160).InRange 192 := by
  constructor
  · have hlen : (tmpPath deepCwd (List.replicate 34 97) 192).length = 160 := by decide +kernel
    rw [resolveWrites, if_neg (by decide +kernel), if_neg (by decide)]
    dsimp only
    rw [tmpWrites, tmpParts_eq, hlen]
    exact List.mem_append_left _ (List.mem_append_left _ (List.mem_append_right _ (List.mem_singleton_self _)))
  · exact Nat.lt_irrefl 160

end Bounds

end DexOs.Shell
