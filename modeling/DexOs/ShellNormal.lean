import DexOs.ShellBounds

/-! The normal form of a relative path, and when `resolve_path` produces it. -/

namespace DexOs.Shell

open DexOs.Lib DexOs.Vfs

section Stack

/-! The stack of components holds 16 of them and cuts them to 63 characters; the directory that is reached has no
such bounds. -/

def Settles (cs : List (List UInt8)) : Prop :=
  ∃ a b, cs = a ++ b ∧ a.foldl (visit 46) [] = [] ∧ ∀ b', b' <+: b → (b'.foldl (visit 46) []).length ≤ 16

theorem settles_concat (cs : List (List UInt8)) (c : List UInt8) : Settles (cs ++ [c]) ↔
    (cs ++ [c]).foldl (visit 46) [] = [] ∨ Settles cs ∧ ((cs ++ [c]).foldl (visit 46) []).length ≤ 16 := by
  constructor
  · rintro ⟨a, b, hcs, ha, hb⟩
    induction b using List.reverseRecOn with
    | nil =>
      rw [List.append_nil] at hcs
      left
      rw [hcs, ha]
    | append_singleton b x _ =>
      rw [← List.append_assoc] at hcs
      obtain ⟨rfl, hx⟩ := List.append_inj' hcs rfl
      obtain rfl := (List.cons.inj hx).1
      right
      refine ⟨⟨a, b, rfl, ha, fun b' hb' => hb b' (hb'.trans (List.prefix_append _ _))⟩, ?_⟩
      have hlast := hb (b ++ [c]) List.prefix_rfl
      rw [List.append_assoc, List.foldl_append, ha]
      exact hlast
  · rintro (hroot | ⟨⟨a, b, rfl, ha, hb⟩, hlen⟩)
    · refine ⟨cs ++ [c], [], (List.append_nil _).symm, hroot, fun b' hb' => ?_⟩
      rw [List.prefix_nil.mp hb']
      exact Nat.zero_le _
    · refine ⟨a, b ++ [c], List.append_assoc .., ha, fun b' hb' => ?_⟩
      rcases List.prefix_concat_iff.mp hb' with rfl | hb'
      · rw [List.append_assoc, List.foldl_append, ha] at hlen
        exact hlen
      · exact hb b' hb'

theorem take_eq_short {c s : List UInt8} (hs : s.length < 63) : c.take 63 = s ↔ c = s := by
  constructor
  · intro h
    have hlen := congrArg List.length h
    rw [List.length_take] at hlen
    rw [← h, List.take_of_length_le (by omega)]
  · rintro rfl
    exact List.take_of_length_le hs.le

theorem pushComp_cases (k : List (List UInt8)) (c : List UInt8) : pushComp k c =
    if c = [] ∨ c = [46] then k
    else if c = [46, 46] then k.dropLast
    else if k.length < 16 then k ++ [c.take 63]
    else k := by
  have h0 : c.take 63 = [] ↔ c = [] := take_eq_short (by decide)
  have h1 : c.take 63 = [46] ↔ c = [46] := take_eq_short (by decide)
  have h2 : c.take 63 = [46, 46] ↔ c = [46, 46] := take_eq_short (by decide)
  unfold pushComp
  simp only [h0, h1, h2]

/-- The stack `k` beside the directory `t`: it is behind by some components, or it is the directory, cut. -/
structure Follows (k t : List (List UInt8)) (settled : Prop) : Prop where
  cap : k.length ≤ 16
  le : k.length ≤ t.length
  level_iff : k.length = t.length ↔ settled
  same : k.length = t.length → k = t.map fun c => c.take 63

section Follows

variable {k t : List (List UInt8)} {d : Prop}

theorem Follows.up (h : Follows k t d) : Follows k.dropLast t.dropLast (t.dropLast = [] ∨ d ∧ t.dropLast.length ≤ 16) := by
  obtain ⟨hcap, hle, hiff, hsame⟩ := h
  constructor
  case cap =>
    rw [List.length_dropLast]
    omega
  case le =>
    rw [List.length_dropLast, List.length_dropLast]
    omega
  case level_iff =>
    rw [← hiff, ← List.length_eq_zero_iff, List.length_dropLast, List.length_dropLast]
    omega
  case same =>
    rw [List.length_dropLast, List.length_dropLast]
    intro hlen
    by_cases hroot : t.length ≤ 1
    · have ht : t.dropLast = [] := List.length_eq_zero_iff.mp (by rw [List.length_dropLast]; omega)
      have hk : k.dropLast = [] := List.length_eq_zero_iff.mp (by rw [List.length_dropLast]; omega)
      rw [ht, hk]
      rfl
    · rw [hsame (by omega), List.map_dropLast]

theorem Follows.down (h : Follows k t d) (c : List UInt8) :
    Follows (if k.length < 16 then k ++ [c.take 63] else k) (t ++ [c]) (t ++ [c] = [] ∨ d ∧ (t ++ [c]).length ≤ 16) := by
  obtain ⟨hcap, hle, hiff, hsame⟩ := h
  have hpush : (t ++ [c]).length = t.length + 1 := by rw [List.length_append, List.length_singleton]
  by_cases hroom : k.length < 16
  · have hpush' : (k ++ [c.take 63]).length = k.length + 1 := by rw [List.length_append, List.length_singleton]
    rw [if_pos hroom]
    constructor
    case cap => omega
    case le => omega
    case level_iff =>
      rw [← hiff, ← List.length_eq_zero_iff]
      omega
    case same =>
      intro hlen
      rw [hsame (by omega), List.map_append]
      rfl
  · rw [if_neg hroom]
    constructor
    case cap => exact hcap
    case le => omega
    case level_iff =>
      rw [← hiff, ← List.length_eq_zero_iff]
      omega
    case same =>
      intro hlen
      omega

theorem follows_visit (h : Follows k t d) (c : List UInt8) :
    Follows (pushComp k c) (visit 46 t c) (visit 46 t c = [] ∨ d ∧ (visit 46 t c).length ≤ 16) := by
  rw [pushComp_cases, visit]
  by_cases hskip : c = [] ∨ c = [46]
  · obtain ⟨hcap, hle, hiff, hsame⟩ := h
    rw [if_pos hskip, if_pos hskip]
    refine ⟨hcap, hle, ?_, hsame⟩
    rw [← hiff, ← List.length_eq_zero_iff]
    omega
  rw [if_neg hskip, if_neg hskip]
  by_cases hup : c = [46, 46]
  · rw [if_pos hup, if_pos hup]
    exact h.up
  · rw [if_neg hup, if_neg hup]
    exact h.down c

end Follows

theorem stack_follows (cs : List (List UInt8)) :
    Follows (cs.foldl pushComp []) (cs.foldl (visit 46) []) (Settles cs) := by
  induction cs using List.reverseRecOn with
  | nil =>
    refine ⟨Nat.zero_le _, le_rfl, iff_of_true rfl ?_, fun _ => rfl⟩
    refine ⟨[], [], rfl, rfl, fun b' hb' => ?_⟩
    rw [List.prefix_nil.mp hb']
    exact Nat.zero_le _
  | append_singleton cs c ih =>
    have hnext := follows_visit ih c
    have hfold (f : List (List UInt8) → List UInt8 → List (List UInt8)) : (cs ++ [c]).foldl f [] = f (cs.foldl f []) c := by
      rw [List.foldl_append]
      rfl
    rw [settles_concat, hfold, hfold]
    exact hnext

theorem mem_stack {c : List UInt8} {cs : List (List UInt8)} (hc : c ∈ cs.foldl pushComp []) :
    ∃ x ∈ cs, c = x.take 63 ∧ ¬ (x = [] ∨ x = [46]) ∧ x ≠ [46, 46] := by
  induction cs using List.reverseRecOn with
  | nil => exact absurd hc List.not_mem_nil
  | append_singleton cs x ih =>
    have hrest (h : c ∈ cs.foldl pushComp []) :
        ∃ y ∈ cs ++ [x], c = y.take 63 ∧ ¬ (y = [] ∨ y = [46]) ∧ y ≠ [46, 46] := by
      obtain ⟨y, hy, hpushed⟩ := ih h
      exact ⟨y, List.mem_append_left _ hy, hpushed⟩
    rw [List.foldl_append, List.foldl_cons, List.foldl_nil, pushComp_cases] at hc
    split_ifs at hc with hskip hup hroom
    · exact hrest hc
    · exact hrest ((List.dropLast_sublist _).subset hc)
    · rcases List.mem_append.mp hc with hc | hc
      · exact hrest hc
      · exact ⟨x, List.mem_append_right _ (List.mem_singleton_self x), List.mem_singleton.mp hc, hskip, hup⟩
    · exact hrest hc

theorem stack_names {cs : List (List UInt8)} (hsep : ∀ c ∈ cs, 47 ∉ c) : ∀ c ∈ cs.foldl pushComp [], IsName 47 46 c := by
  intro c hc
  obtain ⟨x, hx, rfl, hskip, hup⟩ := mem_stack hc
  constructor
  case ne_nil => exact fun h => hskip (.inl ((take_eq_short (by decide)).mp h))
  case ne_dot => exact fun h => hskip (.inr ((take_eq_short (by decide)).mp h))
  case ne_dots => exact fun h => hup ((take_eq_short (by decide)).mp h)
  case no_sep => exact fun h => hsep x hx (List.mem_of_mem_take h)

theorem stack_letters_le (cs : List (List UInt8)) : (cs.foldl pushComp []).flatten.length ≤ cs.flatten.length := by
  induction cs using List.reverseRecOn with
  | nil => exact Nat.le_refl _
  | append_singleton cs x ih =>
    have hcut : (x.take 63).length ≤ x.length := List.length_take_le' ..
    rw [List.foldl_append, List.foldl_cons, List.foldl_nil, pushComp_cases, List.flatten_concat, List.length_append]
    split_ifs
    · omega
    · obtain ⟨last, hlast⟩ := List.dropLast_prefix (cs.foldl pushComp [])
      have hlen := congrArg (fun l => l.flatten.length) hlast
      rw [List.flatten_append, List.length_append] at hlen
      omega
    · rw [List.flatten_concat, List.length_append]
      omega
    · omega

end Stack

section Render

variable {rest : List UInt8}

def body (rest : List UInt8) : List UInt8 :=
  let s := lead rest ++ ((rest.splitOn 47).foldl pushComp []).flatMap (47 :: ·)
  if s = [] ∨ s.getLast? = some 58 then s ++ [47] else s

theorem length_stack_le (rest : List UInt8) :
    (((rest.splitOn 47).foldl pushComp []).flatMap (47 :: ·)).length ≤ rest.length + 16 := by
  have hcap := (stack_follows (rest.splitOn 47)).cap
  have hletters := stack_letters_le (rest.splitOn 47)
  have hfilter : (rest.filter (· ≠ 47)).length ≤ rest.length := List.length_filter_le ..
  rw [flatten_splitOn] at hletters
  rw [length_flatMap_cons]
  omega

theorem normalize_body {m : List UInt8} (hm : 58 ∉ m) (hlen : m.length + rest.length ≤ 160) :
    strCopy 192 (normalize 192 (m ++ 58 :: rest)) = m ++ 58 :: body rest := by
  have hstack := length_stack_le rest
  have hlead := length_lead_le rest
  have hcopy {s : List UInt8} (hs : m.length + s.length ≤ 189) : strCopy 192 (m ++ 58 :: s) = m ++ 58 :: s := by
    apply List.take_of_length_le
    rw [List.length_append, List.length_cons]
    omega
  rw [normalize_written hm, push_nil (by simp only [List.length_append, List.length_cons]; omega), body]
  dsimp only
  generalize hs : lead rest ++ ((rest.splitOn 47).foldl pushComp []).flatMap (47 :: ·) = s
  have hslen : s.length ≤ rest.length + 17 := by
    rw [← hs, List.length_append]
    omega
  have hlast : (m ++ 58 :: s = [] ∨ (m ++ 58 :: s).getLast? = some 58) ↔ (s = [] ∨ s.getLast? = some 58) := by
    rw [List.append_eq_nil_iff, List.getLast?_append]
    by_cases hnil : s = []
    · rw [hnil]
      exact iff_of_true (.inr rfl) (.inl rfl)
    · rw [List.getLast?_cons, List.getLast?_eq_some_getLast hnil]
      simp [hnil]
  by_cases hend : s = [] ∨ s.getLast? = some 58
  · rw [if_pos (hlast.mpr hend), if_pos hend, push_eq (by simp; omega), List.append_assoc]
    exact hcopy (by simp; omega)
  · rw [if_neg (hlast.not.mpr hend), if_neg hend]
    exact hcopy (by omega)

theorem walk_body (rest : List UInt8) : walk 47 46 [] (body rest) = (rest.splitOn 47).foldl pushComp [] := by
  have hnames := stack_names fun c (hc : c ∈ rest.splitOn 47) => mem_splitOn hc
  have hwalk : walk 47 46 [] (lead rest ++ ((rest.splitOn 47).foldl pushComp []).flatMap (47 :: ·)) =
      (rest.splitOn 47).foldl pushComp [] := by
    rw [walk_lead]
    exact walk_written hnames
  unfold body
  dsimp only
  split
  case isTrue => rw [walk_append, walk_nil, hwalk]
  case isFalse => exact hwalk

theorem intercalate_slash {t : List (List UInt8)} (ht : t ≠ []) : 47 :: [47].intercalate t = t.flatMap (47 :: ·) := by
  induction t with
  | nil => exact absurd rfl ht
  | cons c t ih =>
    cases t with
    | nil => simp
    | cons c' t =>
      rw [List.flatMap_cons, ← ih (List.cons_ne_nil _ _)]
      simp

theorem walk_intercalate {t : List (List UInt8)} (ht : ∀ c ∈ t, IsName 47 46 c) :
    walk 47 46 [] (47 :: [47].intercalate t) = t := by
  by_cases hnil : t = []
  · rw [hnil]
    rfl
  · rw [intercalate_slash hnil]
    exact walk_written ht

theorem body_eq_iff (hshort : ∀ c ∈ walk 47 46 [] rest, c.length ≤ 63) :
    body rest = 47 :: [47].intercalate (walk 47 46 [] rest) ↔
      Settles (rest.splitOn 47) ∧ (walk 47 46 [] rest = [] ∨ rest.head? = some 47) ∧
        ([47].intercalate (walk 47 46 [] rest)).getLast? ≠ some 58 := by
  have hnames : ∀ c ∈ walk 47 46 [] rest, IsName 47 46 c := walk_names (fun d hd => absurd hd List.not_mem_nil) rest
  have hfollows := stack_follows (rest.splitOn 47)
  have hbody : (rest.splitOn 47).foldl pushComp [] = walk 47 46 [] rest →
      (body rest = 47 :: [47].intercalate (walk 47 46 [] rest) ↔ (walk 47 46 [] rest = [] ∨ rest.head? = some 47) ∧
        ([47].intercalate (walk 47 46 [] rest)).getLast? ≠ some 58) := by
    intro hstack
    unfold body
    rw [hstack]
    by_cases hroot : walk 47 46 [] rest = []
    · rw [hroot]
      refine iff_of_true ?_ ⟨.inl rfl, by decide⟩
      unfold lead
      split <;> rfl
    · rw [← intercalate_slash hroot, or_iff_right hroot]
      generalize [47].intercalate (walk 47 46 [] rest) = names
      have hends : (lead rest ++ 47 :: names = [] ∨ (lead rest ++ 47 :: names).getLast? = some 58) ↔
          names.getLast? = some 58 := by
        rw [or_iff_right (by simp), List.getLast?_append, List.getLast?_cons]
        cases names.getLast? <;> simp
      by_cases hslash : rest.head? = some 47
      · rw [lead, if_pos hslash, List.nil_append] at hends ⊢
        rw [and_iff_right hslash, ne_eq, ← hends]
        dsimp only
        split
        case isTrue hcolon => exact iff_of_false (fun h => absurd (congrArg List.length h) (by simp)) (not_not.mpr hcolon)
        case isFalse hcolon => exact iff_of_true rfl hcolon
      · refine iff_of_false (fun h => ?_) fun h => hslash h.1
        rw [lead, if_neg hslash] at h
        dsimp only at h
        have hlen := congrArg List.length h
        split at hlen
        · simp only [List.length_append, List.length_cons, List.length_nil] at hlen
          omega
        · simp at hlen
  constructor
  · intro h
    have hstack : (rest.splitOn 47).foldl pushComp [] = walk 47 46 [] rest := by
      rw [← walk_body, h, walk_intercalate hnames]
    exact ⟨hfollows.level_iff.mp (congrArg List.length hstack), (hbody hstack).mp h⟩
  · rintro ⟨hsettles, hrest⟩
    apply (hbody _).mpr hrest
    rw [hfollows.same (hfollows.level_iff.mpr hsettles)]
    exact (List.map_congr_left fun c hc => List.take_of_length_le (hshort c hc)).trans (List.map_id' _)

end Render

section Normal

variable {σ ν : Type} {cwd : Cwd} {input : List UInt8}

def target (cwd : Cwd) (input : List UInt8) : List (List UInt8) := walk 47 46 [] (cwd.path ++ 47 :: input)

/-- `mount:/` and the components, with single slashes between them. -/
def normalForm (cwd : Cwd) (input : List UInt8) : List UInt8 :=
  cwd.mnt ++ 58 :: 47 :: [47].intercalate (target cwd input)

structure Fits (cwd : Cwd) (input : List UInt8) : Prop where
  depth_le : (target cwd input).length ≤ 16
  comps_le : ∀ c ∈ target cwd input, c.length ≤ 63

def Normalizes (cwd : Cwd) (input : List UInt8) : Prop := resolvePath cwd input 192 = .ok (normalForm cwd input)

inductive Spelling (v : Table σ ν) (cwd : Cwd) (s : List UInt8) : List UInt8 → Prop
  | colon : Spelling v cwd s (cwd.mnt ++ 58 :: 47 :: s)
  | mount (h : Mounted v cwd.mnt) : Spelling v cwd s (47 :: (cwd.mnt ++ 47 :: s))
  | slash (h : targetMnt v cwd = some cwd.mnt) (hfirst : ¬ Mounted v (firstComp s)) (hs : s = [] → cwd.mnt = rootName) :
    Spelling v cwd s (47 :: s)

def Coincides (v : Table σ ν) (cwd : Cwd) (input : List UInt8) : Prop :=
  ∀ path, Spelling v cwd (skipSlash (joinPath cwd.path input)) path →
    translateUnixPath v cwd path 192 = resolvePath cwd input 192

structure Regular (cwd : Cwd) (input : List UInt8) : Prop where
  mount : cwd.mnt ≠ []
  room : cwd.mnt.length + cwd.path.length + input.length + 2 < 160
  settles : Settles ((cwd.path ++ 47 :: input).splitOn 47)
  slash : target cwd input = [] ∨ cwd.path = [] ∨ cwd.path.head? = some 47
  colon : ([47].intercalate (target cwd input)).getLast? ≠ some 58

/-- Nothing of the path is dropped: absolute paths are not normalized. -/
def Reduced (s : List UInt8) : Prop := s = [] ∨ ∀ c ∈ s.splitOn 47, IsName 47 46 c

theorem mem_takeWhile_take {s : List UInt8} {n : ℕ} {c : UInt8} (h : c ∈ (s.take n).takeWhile (· ≠ 58)) :
    c ∈ s.takeWhile (· ≠ 58) := by
  induction s generalizing n with
  | nil => simp at h
  | cons x s ih =>
    cases n with
    | zero => simp at h
    | succ n =>
      rw [List.take_succ_cons, List.takeWhile_cons] at h
      rw [List.takeWhile_cons]
      split at h
      case isTrue hx =>
        rw [if_pos hx]
        exact List.mem_cons.mpr ((List.mem_cons.mp h).imp_right ih)
      case isFalse => exact absurd h List.not_mem_nil

theorem mount_slash {m : List UInt8} (hm : 47 ∉ m) (n : ℕ) (sub : List UInt8) :
    47 ∉ (push n [] (m ++ 58 :: sub)).takeWhile (· ≠ 58) := by
  intro h
  have hmem := mem_takeWhile_take h
  rw [List.nil_append, takeWhile_colon] at hmem
  exact hm ((List.takeWhile_sublist _).subset hmem)

theorem translateUnixPath_mount {v : Table σ ν} (h : 47 ∉ cwd.mnt) {path full : List UInt8} {n : ℕ}
    (hpath : path.head? = some 47) (hfull : translateUnixPath v cwd path n = .ok full) :
    47 ∉ full.takeWhile (· ≠ 58) := by
  have hroot : 47 ∉ rootName := by decide
  unfold translateUnixPath at hfull
  rw [if_pos hpath] at hfull
  dsimp only at hfull
  split_ifs at hfull
  · rw [← Except.ok.inj hfull]
    exact mount_slash hroot n [47]
  · rw [← Except.ok.inj hfull, push_push, push_push, push_push]
    refine mount_slash ?_ n _
    intro hmem
    simpa using List.mem_takeWhile_imp (List.mem_of_mem_take hmem)
  · cases ht : targetMnt v cwd with
    | none =>
      rw [ht] at hfull
      exact absurd hfull (by simp)
    | some m =>
      have hm : 47 ∉ m := by
        unfold targetMnt at ht
        split_ifs at ht
        · rwa [← Option.some.inj ht]
        · rwa [← Option.some.inj ht]
      rw [ht] at hfull
      dsimp only at hfull
      rw [← Except.ok.inj hfull, push_push, push_push]
      exact mount_slash hm n _

theorem cd_mount (v : Table σ ν) (h : 47 ∉ cwd.mnt) (args : List UInt8) : 47 ∉ (cd v cwd args).mnt := by
  have hset {full : List UInt8} (hfull : 47 ∉ full.takeWhile (· ≠ 58)) : 47 ∉ (setCwdFromPath cwd full).mnt := by
    unfold setCwdFromPath
    split
    · exact fun hmem => hfull (List.mem_of_mem_take hmem)
    · exact h
  have hunix : (if args.head? = some 47 then strCopy 192 args else unixPath cwd args).head? = some 47 := by
    split
    case isTrue hslash =>
      obtain ⟨s, rfl⟩ := List.head?_eq_some_iff.mp hslash
      rfl
    case isFalse =>
      obtain ⟨s, hs⟩ : ∃ s, currentUnix cwd = 47 :: s := by
        unfold currentUnix
        split_ifs <;> exact ⟨_, rfl⟩
      rw [unixPath, hs]
      split <;> rfl
  unfold cd
  dsimp only
  generalize (if args.head? = some 47 then strCopy 192 args else unixPath cwd args) = path at hunix ⊢
  split_ifs with hnil hroot hplain
  · exact h
  · decide
  · dsimp only
    rw [if_neg (by simp)]
    apply hset
    intro hmem
    rw [takeWhile_colon] at hmem
    exact hplain.1 (List.mem_of_mem_take ((List.takeWhile_sublist _).subset hmem))
  · cases htrans : translateUnixPath v cwd path 192 with
    | error => exact h
    | ok full =>
      dsimp only
      split
      · exact h
      · exact hset (translateUnixPath_mount h hunix htrans)

theorem resolve_relative (hm : cwd.mnt ≠ []) (hinput : 58 ∉ input) (hslash : input.head? ≠ some 47)
    (hroom : cwd.mnt.length + cwd.path.length + input.length + 2 < 160) :
    resolvePath cwd input 192 = .ok (cwd.mnt ++ 58 :: body (cwd.path ++ 47 :: input)) := by
  rw [resolvePath, if_neg hinput, if_neg hm, tmpPath_eq hslash (by omega)]
  dsimp only
  rw [if_neg (by simp; omega), normalize_body cwd.mnt_colon (by simp; omega)]

theorem translate_spelling {v : Table σ ν} (hne : cwd.mnt ≠ []) (hm : 47 ∉ cwd.mnt) {s path : List UInt8}
    (hlen : s.length ≤ 160) (h : Spelling v cwd s path) :
    translateUnixPath v cwd path 192 = .ok (cwd.mnt ++ 58 :: 47 :: s) := by
  have hmnt := cwd.mnt_le
  cases h with
  | colon =>
    have hhead : (cwd.mnt ++ 58 :: 47 :: s).head? ≠ some 47 := by
      obtain ⟨c, m, hcm⟩ := List.exists_cons_of_ne_nil hne
      rw [hcm] at hm ⊢
      intro h
      exact hm (Option.some.inj h ▸ List.mem_cons_self)
    have hroot : cwd.mnt ++ 58 :: 47 :: s ≠ [47] := by
      intro h
      rw [h] at hhead
      exact hhead rfl
    rw [translateUnixPath, if_neg (by decide), if_neg hroot, if_neg hhead, resolvePath, if_pos (by simp), strCopy,
      List.take_of_length_le (by simp; omega)]
  | mount hmounted =>
    have hfirst : firstComp (cwd.mnt ++ 47 :: s) = cwd.mnt := by
      have hself : cwd.mnt.takeWhile (· ≠ 47) = cwd.mnt := by
        rw [List.takeWhile_eq_self_iff]
        intro c hc
        simpa using ne_of_mem_of_not_mem hc hm
      rw [firstComp, List.takeWhile_append, hself, if_pos rfl, List.takeWhile_cons_of_neg (by simp), List.append_nil,
        List.take_of_length_le (by omega)]
    rw [translateUnixPath, if_neg (by decide), if_neg (by simp), if_pos List.head?_cons, List.tail_cons]
    dsimp only
    rw [hfirst, if_pos ⟨hne, vfsHasMount_iff.mpr ⟨hne, hmounted⟩⟩, List.drop_left, push_push, push_push, push_push,
      push_nil (by rw [skipSlash, if_pos List.head?_cons, List.tail_cons]; simp; omega)]
    rfl
  | slash htarget hfirst hs =>
    by_cases hnil : s = []
    · rw [translateUnixPath, if_neg (by decide), hnil, if_pos rfl, hs hnil]
      rfl
    · rw [translateUnixPath, if_neg (by decide), if_neg fun h => hnil (List.cons.inj h).2, if_pos List.head?_cons,
        List.tail_cons]
      dsimp only
      rw [if_neg fun h => hfirst (vfsHasMount_iff.mp h.2).2, htarget]
      dsimp only
      rw [push_push, push_push, push_nil (by simp; omega)]
      rfl

theorem Normalizes.mount (h : Normalizes cwd input) (hinput : 58 ∉ input) : cwd.mnt ≠ [] := by
  intro hm
  rw [Normalizes, resolvePath, if_neg hinput, if_pos hm, normalForm, hm] at h
  exact absurd (Except.ok.inj h) (by simp)

theorem Normalizes.room (h : Normalizes cwd input) (hinput : 58 ∉ input) (hslash : input.head? ≠ some 47) :
    cwd.mnt.length + cwd.path.length + input.length + 2 < 160 := by
  by_contra hfull
  have hmnt := h.mount hinput
  have hlen : 160 ≤ (tmpPath cwd input 192).length := by
    rw [length_tmpPath, if_neg hslash]
    omega
  rw [Normalizes, resolvePath, if_neg hinput, if_neg hmnt] at h
  dsimp only at h
  rw [if_pos hlen] at h
  exact absurd h (by simp)

theorem normal_iff (hmnt : cwd.mnt ≠ []) (hinput : 58 ∉ input) (hslash : input.head? ≠ some 47)
    (hroom : cwd.mnt.length + cwd.path.length + input.length + 2 < 160) (hfits : Fits cwd input) :
    Normalizes cwd input ↔ Settles ((cwd.path ++ 47 :: input).splitOn 47) ∧
      (target cwd input = [] ∨ (cwd.path ++ 47 :: input).head? = some 47) ∧
        ([47].intercalate (target cwd input)).getLast? ≠ some 58 := by
  have hbody := body_eq_iff hfits.comps_le
  rw [Normalizes, resolve_relative hmnt hinput hslash hroom, normalForm, target, ← hbody, Except.ok.injEq,
    List.append_cancel_left_eq, List.cons.injEq, and_iff_right rfl]

theorem normalizes_iff (hinput : 58 ∉ input) (hslash : input.head? ≠ some 47) (hfits : Fits cwd input) :
    Normalizes cwd input ↔ Regular cwd input := by
  have hhead : (cwd.path ++ 47 :: input).head? = some 47 ↔ cwd.path = [] ∨ cwd.path.head? = some 47 := by
    cases cwd.path <;> simp
  constructor
  · intro h
    have hmnt := h.mount hinput
    have hroom := h.room hinput hslash
    rw [normal_iff hmnt hinput hslash hroom hfits, hhead] at h
    exact ⟨hmnt, hroom, h.1, h.2.1, h.2.2⟩
  · rintro ⟨hmnt, hroom, hsettles, hslashes, hcolon⟩
    rw [normal_iff hmnt hinput hslash hroom hfits, hhead]
    exact ⟨hsettles, hslashes, hcolon⟩

theorem coincides_iff (v : Table σ ν) (hm : 47 ∉ cwd.mnt) (hregular : Regular cwd input) (h : Normalizes cwd input) :
    Coincides v cwd input ↔ Reduced (skipSlash (joinPath cwd.path input)) := by
  have htarget : walk 47 46 [] (skipSlash (joinPath cwd.path input)) = target cwd input := by
    rw [walk_skipSlash, walk_joinPath]
    rfl
  have hlen : (skipSlash (joinPath cwd.path input)).length ≤ 160 := by
    have hskip := skipSlash_length_le (joinPath cwd.path input)
    have hjoin := length_joinPath_le cwd.path input
    have hroom := hregular.room
    omega
  rw [Reduced, ← intercalate_walk_iff, htarget, Coincides, h]
  generalize skipSlash (joinPath cwd.path input) = s at hlen
  have hsame : (Except.ok (cwd.mnt ++ 58 :: 47 :: s) : Except Failure (List UInt8)) = .ok (normalForm cwd input) ↔
      [47].intercalate (target cwd input) = s := by
    rw [normalForm, Except.ok.injEq, List.append_cancel_left_eq, List.cons.injEq, List.cons.injEq, and_iff_right rfl,
      and_iff_right rfl, eq_comm]
  rw [← hsame]
  constructor
  · intro hall
    rw [← hall _ .colon, translate_spelling hregular.mount hm hlen .colon]
  · intro heq path hpath
    rw [translate_spelling hregular.mount hm hlen hpath, heq]

/-- The components are joined by single slashes if and only if `tmp` has room, the stack follows the path, no component
ends in a colon, and the path is the root of the mount or the path of the current directory is empty or begins with a
slash: otherwise the prefix and the joiner both add a slash behind the colon. The absolute path gives the same string if
and only if there is nothing in it to normalize. -/
theorem resolve_normal_iff (v : Table σ ν) (hm : 47 ∉ cwd.mnt) (hinput : 58 ∉ input) (hslash : input.head? ≠ some 47)
    (hfits : Fits cwd input) :
    (Normalizes cwd input ↔ Regular cwd input) ∧
      (Normalizes cwd input ∧ Coincides v cwd input ↔
        Regular cwd input ∧ Reduced (skipSlash (joinPath cwd.path input))) := by
  have hnormal := normalizes_iff hinput hslash hfits
  refine ⟨hnormal, ?_⟩
  constructor
  · rintro ⟨h, hsame⟩
    exact ⟨hnormal.mp h, (coincides_iff v hm (hnormal.mp h) h).mp hsame⟩
  · rintro ⟨hregular, hreduced⟩
    have h := hnormal.mpr hregular
    exact ⟨h, (coincides_iff v hm hregular h).mpr hreduced⟩

theorem resolve_normal_iff_root : Normalizes rootCwd [97, 47, 98] ∧ Coincides sampleTable rootCwd [97, 47, 98] := by
  have hfits : Fits rootCwd [97, 47, 98] := ⟨by decide, by decide⟩
  apply (resolve_normal_iff sampleTable (by decide) (by decide) (by decide) hfits).2.mpr
  have hnames : ∀ c ∈ [97, 47, 98].splitOn (47 : UInt8), IsName 47 46 c := by
    have hsplit : [97, 47, 98].splitOn (47 : UInt8) = [[97], [98]] := by decide
    rw [hsplit]
    intro c hc
    rcases List.mem_cons.mp hc with rfl | hc
    · exact ⟨by decide, by decide, by decide, by decide⟩
    · rw [List.mem_singleton.mp hc]
      exact ⟨by decide, by decide, by decide, by decide⟩
  refine ⟨⟨by decide, by decide, (stack_follows _).level_iff.mp (by decide), .inr (.inl rfl), by decide⟩, .inr hnames⟩

def aCwd : Cwd := ⟨rootName, [97], rootCwd.mnt_le, by decide, rootCwd.mnt_colon⟩

theorem resolve_doubles_slash : Fits aCwd [98] ∧
    resolvePath aCwd [98] 192 = .ok (rootName ++ [58, 47, 47, 97, 47, 98]) ∧
    normalForm aCwd [98] = rootName ++ [58, 47, 97, 47, 98] ∧ ¬ Normalizes aCwd [98] := by
  have hnormal : normalForm aCwd [98] = rootName ++ [58, 47, 97, 47, 98] := by decide
  have hresult : resolvePath aCwd [98] 192 = .ok (rootName ++ [58, 47, 47, 97, 47, 98]) := rfl
  refine ⟨⟨by decide, by decide⟩, hresult, hnormal, fun h => ?_⟩
  rw [Normalizes, hresult, hnormal] at h
  exact absurd (Except.ok.inj h) (by decide)

end Normal

end DexOs.Shell
