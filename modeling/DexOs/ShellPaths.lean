import DexOs.Shell
import DexOs.VfsMounts
import DexOs.Lib.Paths
import Mathlib.Data.List.Induction

/-! Where `cd` leads and where `ls` looks. -/

namespace DexOs.Shell

open DexOs.Lib DexOs.Vfs

variable {σ ν : Type} {v : Table σ ν} {cwd : Cwd}

section Mounts

def Mounted (v : Table σ ν) (name : List UInt8) : Prop := name ∈ v.mounts.map Mount.mname

instance (v : Table σ ν) (name : List UInt8) : Decidable (Mounted v name) := inferInstanceAs (Decidable (_ ∈ _))

def Named (v : Table σ ν) : Prop := ∀ name, Mounted v name → name ≠ [] ∧ name.length ≤ 7

theorem vfsHasMount_iff {name : List UInt8} : vfsHasMount v name ≠ 0 ↔ name ≠ [] ∧ Mounted v name := by
  have hany : (v.mounts.any fun mt => strEq mt.mname name) = true ↔ Mounted v name := by
    simp [Mounted, strEq_iff]
  unfold vfsHasMount
  by_cases hne : name = []
  · simp [hne]
  · rw [if_neg hne]
    by_cases hm : Mounted v name
    · rw [if_pos (hany.mpr hm)]
      simp [hne, hm]
    · rw [if_neg fun h => hm (hany.mp h)]
      simp [hm]

/-- The directory behind a path: the mount, and the way from its root. -/
def opened (v : Table σ ν) (path : List UInt8) : Option (List UInt8 × List (List UInt8)) :=
  (parseMountAndSub v path).map fun r => (r.1.mname, walk 47 46 [] r.2)

theorem opened_eq {path m sub : List UInt8} (h : splitPath path = some (m, sub)) :
    opened v path = if Mounted v m then some (m, walk 47 46 [] sub) else none := by
  unfold opened parseMountAndSub
  rw [h, Option.bind_some]
  cases hf : findMount v.mounts m with
  | none =>
    rw [if_neg (show ¬ Mounted v m from findMount_none.mp hf)]
    rfl
  | some mt =>
    have hname : mt.mname = m := by simpa [strEq_iff] using List.find?_some hf
    have hmem : Mounted v m := List.mem_map.mpr ⟨mt, List.mem_of_find?_eq_some hf, hname⟩
    rw [if_pos hmem, ← hname]
    rfl

theorem splitPath_mount {m : List UInt8} (hc : 58 ∉ m) (hl : m.length ≤ 7) (sub : List UInt8) :
    splitPath (m ++ 58 :: sub) = some (m, sub) := by
  obtain ⟨rest, hsplit, hrest⟩ := splitPath_colon m sub
  rw [hsplit, hrest hc, parsed_eq_of_plain hc hl]

theorem takeWhile_of_not_mem {m : List UInt8} (hc : 58 ∉ m) : m.takeWhile (· ≠ 58) = m := by
  rw [List.takeWhile_eq_self_iff]
  intro c hm
  simpa using ne_of_mem_of_not_mem hm hc

theorem takeWhile_mount {m : List UInt8} (hc : 58 ∉ m) (sub : List UInt8) :
    (m ++ 58 :: sub).takeWhile (· ≠ 58) = m := by
  rw [takeWhile_colon, takeWhile_of_not_mem hc]

theorem dropWhile_mount {m : List UInt8} (hc : 58 ∉ m) (sub : List UInt8) :
    (m ++ 58 :: sub).dropWhile (· ≠ 58) = 58 :: sub := by
  have hnil : m.dropWhile (· ≠ 58) = [] := by
    rw [List.dropWhile_eq_nil_iff]
    intro c hm
    simpa using ne_of_mem_of_not_mem hm hc
  rw [dropWhile_colon, hnil, List.nil_append]

theorem splitPath_some {path m sub : List UInt8} (h : splitPath path = some (m, sub)) :
    58 ∈ path ∧ m = (path.takeWhile (· ≠ 58)).take 7 ∧ sub = (path.dropWhile (· ≠ 58)).tail := by
  unfold splitPath at h
  split at h
  case h_1 => exact absurd h (by simp)
  case h_2 c rest hd =>
    obtain ⟨rfl, rfl⟩ : (path.takeWhile (· ≠ 58)).take 7 = m ∧ rest = sub := by simpa using h
    refine ⟨?_, rfl, by rw [hd]; rfl⟩
    by_contra hc
    have hall : path.dropWhile (· ≠ 58) = [] := by
      rw [List.dropWhile_eq_nil_iff]
      intro c hc'
      simpa using ne_of_mem_of_not_mem hc' hc
    rw [hall] at hd
    exact absurd hd (by simp)

theorem length_sub_lt {path m sub : List UInt8} (h : splitPath path = some (m, sub)) : sub.length < path.length := by
  obtain ⟨hc, -, rfl⟩ := splitPath_some h
  have hle : (path.dropWhile (· ≠ 58)).length ≤ path.length := (List.dropWhile_sublist _).length_le
  have hpos : 0 < path.length := List.length_pos_of_mem hc
  rw [List.length_tail]
  omega

end Mounts

section Buffers

theorem push_eq {n : ℕ} {buf s : List UInt8} (h : buf.length + s.length < n) : push n buf s = buf ++ s :=
  List.take_of_length_le (by rw [List.length_append]; omega)

theorem push_push (n : ℕ) (buf s t : List UInt8) : push n (push n buf s) t = push n buf (s ++ t) := by
  unfold push
  rw [← List.append_assoc]
  by_cases h : (buf ++ s).length ≤ n - 1
  · rw [List.take_of_length_le h]
  · have hfull : ((buf ++ s).take (n - 1)).length = n - 1 := by
      rw [List.length_take]
      omega
    rw [List.take_left' hfull]
    exact (List.take_append_of_le_length (by omega)).symm

theorem push_nil {n : ℕ} {s : List UInt8} (h : s.length < n) : push n [] s = s := push_eq (by simpa using h)

theorem skipSlash_length_le (s : List UInt8) : (skipSlash s).length ≤ s.length := by
  unfold skipSlash
  split
  · rw [List.length_tail]
    omega
  · exact le_rfl

theorem walk_skipSlash (dirs : List (List UInt8)) (s : List UInt8) :
    walk 47 46 dirs (skipSlash s) = walk 47 46 dirs s := by
  unfold skipSlash
  split
  case isTrue h =>
    obtain ⟨t, rfl⟩ : ∃ t, s = 47 :: t := List.head?_eq_some_iff.mp h
    exact (walk_sep t).symm
  case isFalse => rfl

theorem ls_cwd (v : Table σ ν) {cwd : Cwd} (h : cwd.mnt ≠ []) : ls v cwd [] = .opens (cwd.mnt ++ 58 :: 47 :: cwd.path) := by
  have hm := cwd.mnt_le
  have hp := cwd.path_le
  rw [ls, if_pos rfl, if_neg h, push_push, push_push, push_push, push_nil (by simp; omega)]
  rfl

theorem ls_setCwdFromPath (v : Table σ ν) (cwd : Cwd) {full m sub : List UInt8} (h : splitPath full = some (m, sub)) (hm : m ≠ [])
    (hlen : (skipSlash sub).length ≤ 127) :
    ∃ path, ls v (setCwdFromPath cwd full) [] = .opens path ∧ opened v path = opened v full := by
  obtain ⟨hc, hmnt, hsub⟩ := splitPath_some h
  have hset : (setCwdFromPath cwd full).mnt = m ∧ (setCwdFromPath cwd full).path = skipSlash sub := by
    rw [setCwdFromPath, if_pos hc, hmnt, hsub]
    rw [hsub] at hlen
    exact ⟨rfl, List.take_of_length_le hlen⟩
  have hne : (setCwdFromPath cwd full).mnt ≠ [] := by
    rw [hset.1]
    exact hm
  refine ⟨_, ls_cwd v hne, ?_⟩
  rw [opened_eq (splitPath_mount (setCwdFromPath cwd full).mnt_colon (setCwdFromPath cwd full).mnt_le _), opened_eq h,
    hset.1, hset.2, walk_sep, walk_skipSlash]

end Buffers

section Absolute

structure Argument where
  text : List UInt8
  length_le : text.length ≤ 124
  mixed : 47 ∈ text ∨ 58 ∈ text

namespace Argument

variable (arg : Argument)

theorem ne_nil : arg.text ≠ [] := by
  intro h
  have hm := arg.mixed
  rw [h] at hm
  simp at hm

theorem strCopy_eq : strCopy 192 arg.text = arg.text := List.take_of_length_le (by have := arg.length_le; omega)

end Argument

def absolute (v : Table σ ν) (cwd : Cwd) (p : List UInt8) : Option (List UInt8) :=
  if Mounted v (firstComp p) then some (firstComp p ++ 58 :: 47 :: skipSlash (p.drop (firstComp p).length))
  else (targetMnt v cwd).map (· ++ 58 :: 47 :: p)

theorem targetMnt_short {m : List UInt8} (h : targetMnt v cwd = some m) : m.length ≤ 7 ∧ 58 ∉ m := by
  unfold targetMnt at h
  split_ifs at h
  · rw [← Option.some.inj h]
    decide
  · rw [← Option.some.inj h]
    exact ⟨cwd.mnt_le, cwd.mnt_colon⟩

theorem firstComp_length_le (p : List UInt8) : (firstComp p).length ≤ p.length :=
  ((List.take_sublist _ _).trans (List.takeWhile_sublist _)).length_le

theorem translateUnixPath_absolute (hv : Named v) {p : List UInt8} (hp : p ≠ []) (hlen : p.length ≤ 180) :
    translateUnixPath v cwd (47 :: p) 192 = (absolute v cwd p).elim (.error .unresolved) .ok := by
  have hne : 47 :: p ≠ [47] := fun h => hp (List.cons.inj h).2
  have hfirst := firstComp_length_le p
  have hskip : (skipSlash (p.drop (firstComp p).length)).length ≤ p.length - (firstComp p).length := by
    rw [← List.length_drop]
    exact skipSlash_length_le _
  have hmounted : (firstComp p ≠ [] ∧ vfsHasMount v (firstComp p) ≠ 0) ↔ Mounted v (firstComp p) := by
    rw [vfsHasMount_iff]
    exact ⟨fun h => h.2.2, fun h => ⟨(hv _ h).1, (hv _ h).1, h⟩⟩
  rw [translateUnixPath, if_neg (by decide), if_neg hne, if_pos List.head?_cons, List.tail_cons, absolute]
  dsimp only
  by_cases hm : Mounted v (firstComp p)
  · rw [if_pos (hmounted.mpr hm), if_pos hm, push_push, push_push, push_push, push_nil (by simp; omega)]
    rfl
  · rw [if_neg fun h => hm (hmounted.mp h), if_neg hm]
    cases ht : targetMnt v cwd with
    | none => rfl
    | some m =>
      have hshort := (targetMnt_short ht).1
      dsimp only
      rw [push_push, push_push, push_nil (by simp; omega)]
      rfl

def Listing.dir (v : Table σ ν) : Listing → Option (List UInt8 × List (List UInt8))
  | .opens path => opened v path
  | .mounts => none
  | .message => none
  | .overflow => none

/-- `ls` opens the directory that `ls arg` would have opened before `cd arg`, and none where that would have opened
none. -/
def Agrees (v : Table σ ν) (cwd : Cwd) (args : List UInt8) : Prop :=
  ls v cwd args ≠ .overflow ∧ (ls v (cd v cwd args) []).dir v = (ls v cwd args).dir v

theorem ls_cwd_dir (hv : Named v) (cwd : Cwd) :
    (ls v cwd []).dir v = if Mounted v cwd.mnt then some (cwd.mnt, walk 47 46 [] cwd.path) else none := by
  by_cases h : cwd.mnt = []
  · have hno : ¬ Mounted v [] := fun hm => (hv [] hm).1 rfl
    rw [ls, if_pos rfl, if_pos h, h, if_neg hno]
    rfl
  · rw [ls_cwd v h, Listing.dir, opened_eq (splitPath_mount cwd.mnt_colon cwd.mnt_le _), walk_sep]

theorem cd_eq (hv : Named v) (arg : Argument) (hroot : arg.text ≠ [47]) {q : List UInt8} (hq : q ≠ [])
    (hlen : q.length ≤ 180)
    (hpath : (if arg.text.head? = some 47 then strCopy 192 arg.text else unixPath cwd arg.text) = 47 :: q) :
    cd v cwd arg.text = (absolute v cwd q).elim cwd (setCwdFromPath cwd) := by
  have hmixed : ¬ (47 ∉ arg.text ∧ 58 ∉ arg.text) := by
    have := arg.mixed
    tauto
  have hfull : ∀ full, absolute v cwd q = some full → full ≠ [] := by
    intro full h he
    unfold absolute at h
    split_ifs at h
    · rw [he] at h
      simp at h
    · rw [he] at h
      simp at h
  rw [cd, if_neg arg.ne_nil, if_neg hroot, if_neg hmixed, hpath, translateUnixPath_absolute hv hq hlen]
  cases ha : absolute v cwd q with
  | none => rfl
  | some full => exact if_neg (hfull full ha)

theorem absolute_sub_le {q full m sub : List UInt8} (h : absolute v cwd q = some full)
    (hsplit : splitPath full = some (m, sub)) : (skipSlash sub).length ≤ q.length + 1 := by
  unfold absolute at h
  split_ifs at h with hm
  · have hfull : full.length ≤ q.length + 2 := by
      have hfirst := firstComp_length_le q
      have hskip := skipSlash_length_le (q.drop (firstComp q).length)
      rw [List.length_drop] at hskip
      rw [← Option.some.inj h, List.length_append, List.length_cons, List.length_cons]
      omega
    have hlt := length_sub_lt hsplit
    have hle := skipSlash_length_le sub
    omega
  · obtain ⟨t, ht, rfl⟩ := Option.map_eq_some_iff.mp h
    obtain ⟨hshort, hcolon⟩ := targetMnt_short ht
    rw [splitPath_mount hcolon hshort] at hsplit
    obtain ⟨rfl, rfl⟩ : t = m ∧ 47 :: q = sub := by simpa using hsplit
    exact Nat.le_succ _

theorem mem_absolute {q full : List UInt8} (h : absolute v cwd q = some full) : 58 ∈ full := by
  unfold absolute at h
  split_ifs at h
  · rw [← Option.some.inj h]
    simp
  · obtain ⟨t, -, rfl⟩ := Option.map_eq_some_iff.mp h
    simp

theorem mnt_of_absolute_none {q : List UInt8} (h : absolute v cwd q = none) : cwd.mnt = [] := by
  unfold absolute at h
  split_ifs at h
  rw [Option.map_eq_none_iff, targetMnt] at h
  split_ifs at h with hroot hm
  exact not_not.mp hm

theorem splitPath_parsed {path : List UInt8} (h : 58 ∈ path) :
    ∃ a sub, path = a ++ 58 :: sub ∧ splitPath path = some (parsed path, sub) := by
  obtain ⟨a, sub, rfl, ha⟩ := List.eq_append_cons_of_mem h
  refine ⟨a, sub, rfl, ?_⟩
  rw [splitPath, dropWhile_mount ha, parsed]

theorem ls_absolute (hv : Named v) {q full : List UInt8} (h : absolute v cwd q = some full) (hlen : q.length ≤ 126) :
    (ls v (setCwdFromPath cwd full) []).dir v = opened v full := by
  obtain ⟨-, sub, -, hsplit⟩ := splitPath_parsed (mem_absolute h)
  have hsub := absolute_sub_le h hsplit
  by_cases hm : parsed full = []
  · have hno : ¬ Mounted v [] := fun hm => (hv [] hm).1 rfl
    have hmnt : (setCwdFromPath cwd full).mnt = [] := by
      rw [setCwdFromPath, if_pos (mem_absolute h)]
      exact hm
    rw [ls_cwd_dir hv, hmnt, if_neg hno, opened_eq hsplit, hm, if_neg hno]
  · obtain ⟨path, hls, hopened⟩ := ls_setCwdFromPath v cwd hsplit hm (by omega)
    rw [hls, ← hopened]
    rfl

theorem agrees_of_absolute (hv : Named v) (arg : Argument) (h : arg.text.head? = some 47) (hroot : arg.text ≠ [47]) :
    Agrees v cwd arg.text := by
  obtain ⟨p, hp⟩ := List.head?_eq_some_iff.mp h
  have hlen := arg.length_le
  have hne : p ≠ [] := by
    rintro rfl
    exact hroot hp
  have hplen : p.length ≤ 124 := by
    rw [hp, List.length_cons] at hlen
    omega
  have hls : ls v cwd arg.text = (absolute v cwd p).elim .message .opens := by
    rw [ls, if_neg arg.ne_nil, arg.strCopy_eq, if_neg hroot, hp, translateUnixPath_absolute hv hne (by omega)]
    cases absolute v cwd p <;> rfl
  have hpath : (if arg.text.head? = some 47 then strCopy 192 arg.text else unixPath cwd arg.text) = 47 :: p := by
    rw [if_pos h, arg.strCopy_eq, hp]
  have hcd := cd_eq hv arg hroot hne (by omega) hpath
  rw [Agrees, hls, hcd]
  cases ha : absolute v cwd p with
  | none =>
    refine ⟨Listing.noConfusion, ?_⟩
    change (ls v cwd []).dir v = none
    rw [ls, if_pos rfl, if_pos (mnt_of_absolute_none ha)]
    rfl
  | some full => exact ⟨Listing.noConfusion, ls_absolute hv ha (by omega)⟩

theorem agrees_slash (hv : Named v) (arg : Argument) (h : arg.text = [47]) :
    Agrees v cwd arg.text ↔ ¬ Mounted v rootName := by
  have hls : ls v cwd arg.text = .mounts := by rw [ls, if_neg arg.ne_nil, arg.strCopy_eq, if_pos h]
  have hcd : cd v cwd arg.text = rootCwd := by rw [cd, if_neg arg.ne_nil, if_pos h]
  have hmnt : rootCwd.mnt = rootName := rfl
  have hok : Listing.mounts ≠ .overflow := Listing.noConfusion
  rw [Agrees, hls, hcd, ls_cwd_dir hv, hmnt, and_iff_right hok]
  by_cases hm : Mounted v rootName
  · rw [if_pos hm]
    exact iff_of_false (Option.some_ne_none _) (not_not.mpr hm)
  · rw [if_neg hm]
    exact iff_of_true rfl hm

end Absolute

section Relative

/-- A path without a component of more than 63 characters, on which the walk is never deeper than 16 directories. -/
structure Storable (s : List UInt8) : Prop where
  comps_le : ∀ c ∈ s.splitOn 47, c.length ≤ 63
  depth_le : ∀ cs, cs <+: s.splitOn 47 → (cs.foldl (visit 46) []).length ≤ 16

theorem pushComp_eq {comps : List (List UInt8)} {comp : List UInt8} (hlen : comp.length ≤ 63)
    (hdepth : (visit 46 comps comp).length ≤ 16) : pushComp comps comp = visit 46 comps comp := by
  unfold pushComp
  unfold visit at hdepth ⊢
  rw [List.take_of_length_le hlen]
  dsimp only
  split_ifs at hdepth ⊢ with hskip hup hfull
  · rfl
  · rfl
  · rfl
  · rw [List.length_append, List.length_singleton] at hdepth
    omega

theorem Storable.stack {s : List UInt8} (h : Storable s) : (s.splitOn 47).foldl pushComp [] = walk 47 46 [] s := by
  obtain ⟨hlen, hdepth⟩ := h
  unfold walk
  generalize s.splitOn 47 = cs at hlen hdepth ⊢
  induction cs using List.reverseRecOn with
  | nil => rfl
  | append_singleton cs c ih =>
    have hlast := hdepth (cs ++ [c]) List.prefix_rfl
    rw [List.foldl_append] at hlast ⊢
    rw [List.foldl_append, ih (fun c hc => hlen c (List.mem_append_left _ hc))
      fun cs' hp => hdepth cs' (hp.trans (List.prefix_append _ _))]
    exact pushComp_eq (hlen c (List.mem_append_right _ (List.mem_singleton_self c))) hlast

theorem write_comps (n : ℕ) (buf s : List UInt8) (comps : List (List UInt8)) :
    comps.foldl (fun norm comp => push n (push n norm [47]) comp) (push n buf s) =
      push n buf (s ++ comps.flatMap (47 :: ·)) := by
  induction comps generalizing s with
  | nil => rw [List.foldl_nil, List.flatMap_nil, List.append_nil]
  | cons c comps ih =>
    rw [List.foldl_cons, push_push, push_push, ih, List.flatMap_cons]
    congr 1
    simp

theorem written_length_le {s : List UInt8} (h : Storable s) :
    ((walk 47 46 [] s).flatMap (47 :: ·)).length ≤ s.length + 16 := by
  have hdepth : (walk 47 46 [] s).length ≤ 16 := h.depth_le _ List.prefix_rfl
  have hletters : (walk 47 46 [] s).flatten.length ≤ 0 + (s.filter (· ≠ 47)).length := walk_letters_le s
  have hfilter : (s.filter (· ≠ 47)).length ≤ s.length := List.length_filter_le ..
  rw [length_flatMap_cons]
  omega

def lead (rest : List UInt8) : List UInt8 := if rest.head? = some 47 then [] else [47]

theorem walk_lead (s rest : List UInt8) : walk 47 46 [] (lead rest ++ s) = walk 47 46 [] s := by
  unfold lead
  split
  · rfl
  · exact walk_sep s

theorem length_lead_le (rest : List UInt8) : (lead rest).length ≤ 1 := by
  unfold lead
  split <;> simp

theorem normalize_written {m : List UInt8} (hm : 58 ∉ m) (rest : List UInt8) :
    normalize 192 (m ++ 58 :: rest) =
      (let norm := push 192 [] (m ++ 58 :: (lead rest ++ ((rest.splitOn 47).foldl pushComp []).flatMap (47 :: ·)))
      if norm = [] ∨ norm.getLast? = some 58 then push 192 norm [47] else norm) := by
  have hlead : (if rest.head? = some 47 then push 192 [] (m ++ [58]) else push 192 (push 192 [] (m ++ [58])) [47]) =
      push 192 [] (m ++ [58] ++ lead rest) := by
    unfold lead
    split
    · rw [List.append_nil]
    · rw [push_push]
  have hassoc (s t : List UInt8) : m ++ [58] ++ s ++ t = m ++ 58 :: (s ++ t) := by simp
  unfold normalize
  dsimp only
  rw [takeWhile_mount hm, dropWhile_mount hm, push_push, List.drop_one, List.tail_cons,
    show List.take 1 (58 :: rest) = [58] from rfl, hlead, write_comps, hassoc]

theorem normalize_eq {m rest : List UInt8} (hm : 58 ∉ m) (hrest : Storable rest) (hlen : m.length + rest.length ≤ 160) :
    ∃ sub, normalize 192 (m ++ 58 :: rest) = m ++ 58 :: sub ∧ m.length + sub.length < 191 ∧
      walk 47 46 [] sub = walk 47 46 [] rest := by
  have hnames : ∀ c ∈ walk 47 46 [] rest, IsName 47 46 c := walk_names (fun d hd => absurd hd List.not_mem_nil) rest
  have hsize := written_length_le hrest
  have hlead := length_lead_le rest
  have hwalk : walk 47 46 [] (lead rest ++ (walk 47 46 [] rest).flatMap (47 :: ·)) = walk 47 46 [] rest := by
    rw [walk_lead]
    exact walk_written hnames
  rw [normalize_written hm, hrest.stack, push_nil (by simp only [List.length_append, List.length_cons]; omega)]
  dsimp only
  split
  · refine ⟨lead rest ++ (walk 47 46 [] rest).flatMap (47 :: ·) ++ [47], ?_, ?_, ?_⟩
    · rw [push_eq (by simp only [List.length_append, List.length_cons, List.length_nil]; omega), List.append_assoc]
      rfl
    · simp only [List.length_append, List.length_cons, List.length_nil]
      omega
    · rw [walk_append, walk_nil, hwalk]
  · refine ⟨_, rfl, ?_, hwalk⟩
    rw [List.length_append]
    omega

theorem normalize_mount {m : List UInt8} (hm : 58 ∉ m) (hlen : m.length ≤ 7) (rest : List UInt8) :
    ∃ sub, strCopy 192 (normalize 192 (m ++ 58 :: rest)) = m ++ 58 :: sub := by
  have hkeep (s : List UInt8) : (m ++ 58 :: s).take 191 = m ++ 58 :: s.take (190 - m.length) := by
    rw [List.take_append, List.take_of_length_le (by omega), show 191 - m.length = (190 - m.length) + 1 by omega]
    rfl
  rw [normalize_written hm, push, List.nil_append, hkeep, strCopy]
  dsimp only
  split
  · rw [push, List.append_assoc, List.cons_append, hkeep, hkeep]
    exact ⟨_, rfl⟩
  · rw [hkeep]
    exact ⟨_, rfl⟩

def joinPath (d args : List UInt8) : List UInt8 :=
  if d = [] then args else if d.getLast? = some 47 then d ++ args else d ++ 47 :: args

theorem walk_joinPath (dirs : List (List UInt8)) (d args : List UInt8) :
    walk 47 46 dirs (joinPath d args) = walk 47 46 dirs (d ++ 47 :: args) := by
  unfold joinPath
  split_ifs with hd hend
  · rw [hd, List.nil_append, walk_sep]
  · obtain ⟨d', rfl⟩ := List.getLast?_eq_some_iff.mp hend
    rw [List.append_assoc, List.singleton_append, walk_append, walk_append, walk_append, walk_nil]
  · rfl

theorem length_joinPath_ge (d args : List UInt8) : d.length + args.length ≤ (joinPath d args).length := by
  unfold joinPath
  split_ifs with hd hend
  · rw [hd, List.length_nil]
    omega
  · rw [List.length_append]
  · rw [List.length_append, List.length_cons]
    omega

theorem length_joinPath_le (d args : List UInt8) : (joinPath d args).length ≤ d.length + args.length + 1 := by
  unfold joinPath
  split_ifs
  · omega
  · rw [List.length_append]
    omega
  · rw [List.length_append, List.length_cons]
    omega

def unixTail (cwd : Cwd) (args : List UInt8) : List UInt8 :=
  if cwd.mnt = [] then args
  else if cwd.mnt = devName then devName ++ 47 :: joinPath cwd.path args
  else joinPath cwd.path args

theorem length_unixTail_ge (cwd : Cwd) (args : List UInt8) : args.length ≤ (unixTail cwd args).length := by
  have hge := length_joinPath_ge cwd.path args
  unfold unixTail
  split_ifs
  · exact le_refl _
  · rw [List.length_append, List.length_cons]
    omega
  · omega

theorem length_unixTail_le (cwd : Cwd) (args : List UInt8) :
    (unixTail cwd args).length ≤ (joinPath cwd.path args).length + 4 := by
  have hge := length_joinPath_ge cwd.path args
  have hdev : devName.length = 3 := rfl
  unfold unixTail
  split_ifs
  · omega
  · rw [List.length_append, List.length_cons]
    omega
  · omega

theorem currentUnix_eq (cwd : Cwd) : currentUnix cwd =
    if cwd.mnt = [] then [47]
    else if cwd.mnt = devName then if cwd.path = [] then 47 :: devName else 47 :: devName ++ 47 :: cwd.path
    else 47 :: cwd.path := by
  have hcopy {n : ℕ} (hn : 127 < n) : strCopy n cwd.path = cwd.path :=
    List.take_of_length_le (by have := cwd.path_le; omega)
  unfold currentUnix
  split_ifs with hm hdev hd hd
  · rfl
  · rfl
  · rw [hcopy (by omega)]
  · rw [hd]
  · rw [hcopy (by omega)]

theorem length_currentUnix_le (cwd : Cwd) : (currentUnix cwd).length ≤ 132 := by
  have hp := cwd.path_le
  have hdev : devName.length = 3 := rfl
  rw [currentUnix_eq]
  split_ifs
  · exact Nat.le_add_left 1 131
  · rw [List.length_cons]
    omega
  · rw [List.length_append, List.length_cons, List.length_cons]
    omega
  · rw [List.length_cons]
    omega

theorem close_join (pre : List UInt8) {d args : List UInt8} (hd : d ≠ []) :
    (if (pre ++ d).getLast? = some 47 then pre ++ d else pre ++ d ++ [47]) ++ args = pre ++ joinPath d args := by
  have hlast : (pre ++ d).getLast? = d.getLast? := by
    rw [List.getLast?_append, List.getLast?_eq_some_getLast hd]
    rfl
  rw [hlast, joinPath, if_neg hd]
  split
  · rw [List.append_assoc]
  · rw [List.append_assoc, List.append_assoc]
    rfl

theorem join_currentUnix (cwd : Cwd) (args : List UInt8) :
    (if (currentUnix cwd).getLast? = some 47 then currentUnix cwd else currentUnix cwd ++ [47]) ++ args =
      47 :: unixTail cwd args := by
  rw [currentUnix_eq]
  unfold unixTail
  by_cases hm : cwd.mnt = []
  · rw [if_pos hm, if_pos hm]
    rfl
  rw [if_neg hm, if_neg hm]
  by_cases hdev : cwd.mnt = devName
  · rw [if_pos hdev, if_pos hdev]
    by_cases hd : cwd.path = []
    · rw [if_pos hd, hd, joinPath, if_pos rfl]
      rfl
    · have hcur : 47 :: devName ++ 47 :: cwd.path = (47 :: devName ++ [47]) ++ cwd.path := by rw [List.append_assoc]; rfl
      rw [if_neg hd, hcur, close_join _ hd, List.append_assoc]
      rfl
  · rw [if_neg hdev, if_neg hdev]
    by_cases hd : cwd.path = []
    · rw [hd, joinPath, if_pos rfl]
      rfl
    · exact close_join [47] hd

theorem unixPath_eq (cwd : Cwd) (args : List UInt8) : unixPath cwd args = 47 :: (unixTail cwd args).take 190 := by
  have hbase : (if (currentUnix cwd).getLast? = some 47 then currentUnix cwd else currentUnix cwd ++ [47]).length ≤ 133 := by
    have hlen := length_currentUnix_le cwd
    split
    · omega
    · rw [List.length_append, List.length_singleton]
      omega
  have hcut : unixPath cwd args = (47 :: unixTail cwd args).take 191 := by
    rw [← join_currentUnix, List.take_append, List.take_of_length_le (by omega), unixPath, strCopy, Nat.sub_right_comm]
  exact hcut

theorem firstComp_take {n : ℕ} (hn : 15 ≤ n) (q : List UInt8) : firstComp (q.take n) = firstComp q := by
  have hcut (n : ℕ) : (q.take n).takeWhile (· ≠ 47) = (q.takeWhile (· ≠ 47)).take n := by
    induction q generalizing n with
    | nil => simp
    | cons c q ih =>
      cases n with
      | zero => rfl
      | succ n =>
        rw [List.take_succ_cons, List.takeWhile_cons, List.takeWhile_cons]
        split
        · rw [ih, List.take_succ_cons]
        · rfl
  rw [firstComp, firstComp, hcut, List.take_take, min_eq_left hn]

theorem ls_eq_resolve (arg : Argument) (hslash : arg.text.head? ≠ some 47) {full : List UInt8}
    (h : resolvePath cwd arg.text 192 = .ok full) : ls v cwd arg.text = .opens full := by
  have hne : arg.text ≠ [47] := by
    intro he
    rw [he] at hslash
    exact hslash rfl
  rw [ls, if_neg arg.ne_nil, arg.strCopy_eq, if_neg hne, translateUnixPath, if_neg (by decide), if_neg hne,
    if_neg hslash, h]

theorem tmpPath_eq {args : List UInt8} (hslash : args.head? ≠ some 47)
    (hlen : cwd.mnt.length + cwd.path.length + args.length + 2 < 192) :
    tmpPath cwd args 192 = cwd.mnt ++ 58 :: (cwd.path ++ 47 :: args) := by
  rw [tmpPath, if_neg hslash, push_push, push_push, push_push, push_push, push_nil (by simp; omega)]
  simp

theorem ls_relative (arg : Argument) (hcolon : 58 ∉ arg.text) (hslash : arg.text.head? ≠ some 47) (hm : cwd.mnt ≠ [])
    (hlen : (joinPath cwd.path arg.text).length ≤ 127) (hs : Storable (cwd.path ++ 47 :: arg.text)) :
    ∃ sub, ls v cwd arg.text = .opens (cwd.mnt ++ 58 :: sub) ∧
      walk 47 46 [] sub = walk 47 46 [] (joinPath cwd.path arg.text) := by
  have hge := length_joinPath_ge cwd.path arg.text
  have hmnt := cwd.mnt_le
  obtain ⟨sub, hnorm, hsub, hwalk⟩ := normalize_eq cwd.mnt_colon hs (by simp; omega)
  have hcopy : strCopy 192 (cwd.mnt ++ 58 :: sub) = cwd.mnt ++ 58 :: sub := by
    apply List.take_of_length_le
    rw [List.length_append, List.length_cons]
    omega
  refine ⟨sub, ls_eq_resolve arg hslash ?_, hwalk.trans (walk_joinPath [] _ _).symm⟩
  rw [resolvePath, if_neg hcolon, if_neg hm, tmpPath_eq hslash (by omega)]
  dsimp only
  rw [if_neg (by simp; omega), hnorm, hcopy]

def lsMount (cwd : Cwd) (args : List UInt8) : List UInt8 := if 58 ∈ args then parsed args else cwd.mnt

def Overflows (cwd : Cwd) (args : List UInt8) : Prop :=
  58 ∉ args ∧ cwd.mnt ≠ [] ∧ 160 ≤ cwd.mnt.length + cwd.path.length + args.length + 2

theorem opened_of_unmounted {path m sub : List UInt8} (h : splitPath path = some (m, sub)) (hm : ¬ Mounted v m) :
    opened v path = none := by
  rw [opened_eq h, if_neg hm]

theorem ls_unmounted (arg : Argument) (hslash : arg.text.head? ≠ some 47) (hover : ¬ Overflows cwd arg.text)
    (hm : ¬ Mounted v (lsMount cwd arg.text)) : ls v cwd arg.text ≠ .overflow ∧ (ls v cwd arg.text).dir v = none := by
  have hopens (full : List UInt8) (hres : resolvePath cwd arg.text 192 = .ok full) (hnone : opened v full = none) :
      ls v cwd arg.text ≠ .overflow ∧ (ls v cwd arg.text).dir v = none := by
    rw [ls_eq_resolve arg hslash hres]
    exact ⟨Listing.noConfusion, hnone⟩
  by_cases hcolon : 58 ∈ arg.text
  · obtain ⟨-, sub, -, hsplit⟩ := splitPath_parsed hcolon
    rw [lsMount, if_pos hcolon] at hm
    apply hopens arg.text
    · rw [resolvePath, if_pos hcolon, arg.strCopy_eq]
    · exact opened_of_unmounted hsplit hm
  · rw [lsMount, if_neg hcolon] at hm
    by_cases hnil : cwd.mnt = []
    · apply hopens []
      · rw [resolvePath, if_neg hcolon, if_pos hnil]
      · rfl
    · have hlen : cwd.mnt.length + cwd.path.length + arg.text.length + 2 < 160 := by
        by_contra hge
        exact hover ⟨hcolon, hnil, by omega⟩
      obtain ⟨sub, hsub⟩ := normalize_mount cwd.mnt_colon cwd.mnt_le (cwd.path ++ 47 :: arg.text)
      apply hopens (cwd.mnt ++ 58 :: sub)
      · rw [resolvePath, if_neg hcolon, if_neg hnil, tmpPath_eq hslash (by omega)]
        dsimp only
        rw [if_neg (by simp; omega), hsub]
      · exact opened_of_unmounted (splitPath_mount cwd.mnt_colon cwd.mnt_le sub) hm

def cdMount (v : Table σ ν) (cwd : Cwd) (args : List UInt8) : List UInt8 :=
  let first := firstComp (unixTail cwd args)
  if Mounted v first then first.takeWhile (· ≠ 58) else (targetMnt v cwd).getD []

theorem setCwdFromPath_mnt {a : List UInt8} (ha : a.length ≤ 7) (rest : List UInt8) :
    (setCwdFromPath cwd (a ++ 58 :: rest)).mnt = a.takeWhile (· ≠ 58) := by
  have hle : (a.takeWhile (· ≠ 58)).length ≤ 7 := ((List.takeWhile_sublist _).length_le).trans ha
  rw [setCwdFromPath, if_pos (by simp)]
  dsimp only
  rw [takeWhile_colon, List.take_of_length_le hle]

theorem cd_mnt (hv : Named v) (arg : Argument) (hslash : arg.text.head? ≠ some 47) :
    (cd v cwd arg.text).mnt = cdMount v cwd arg.text := by
  have hroot : arg.text ≠ [47] := by
    intro he
    rw [he] at hslash
    exact hslash rfl
  have hmixed : ¬ (47 ∉ arg.text ∧ 58 ∉ arg.text) := by
    have := arg.mixed
    tauto
  have hfirst : firstComp ((unixTail cwd arg.text).take 190) = firstComp (unixTail cwd arg.text) := firstComp_take (by decide) _
  have hne : 47 :: (unixTail cwd arg.text).take 190 ≠ [47] := by
    intro he
    have hnil := (List.cons.inj he).2
    rw [List.take_eq_nil_iff] at hnil
    have hge := length_unixTail_ge cwd arg.text
    rw [hnil.resolve_left (by decide), List.length_nil, Nat.le_zero] at hge
    exact arg.ne_nil (List.length_eq_zero_iff.mp hge)
  have hq := unixPath_eq cwd arg.text
  rw [cdMount, ← hfirst]
  generalize (unixTail cwd arg.text).take 190 = q at *
  have hcut {a : List UInt8} (ha : a.length ≤ 7) (s : List UInt8) : ∃ rest, push 192 [] (a ++ 58 :: s) = a ++ 58 :: rest := by
    refine ⟨s.take (190 - a.length), ?_⟩
    rw [push, List.nil_append, List.take_append, List.take_of_length_le (by omega),
      show 192 - 1 - a.length = (190 - a.length) + 1 by omega]
    rfl
  have hmounted : (firstComp q ≠ [] ∧ vfsHasMount v (firstComp q) ≠ 0) ↔ Mounted v (firstComp q) := by
    rw [vfsHasMount_iff]
    exact ⟨fun h => h.2.2, fun h => ⟨(hv _ h).1, (hv _ h).1, h⟩⟩
  rw [cd, if_neg arg.ne_nil, if_neg hroot, if_neg hmixed, if_neg hslash, hq, translateUnixPath, if_neg (by decide),
    if_neg hne, if_pos List.head?_cons, List.tail_cons]
  dsimp only
  by_cases hm : Mounted v (firstComp q)
  · obtain ⟨rest, hrest⟩ := hcut (hv _ hm).2 (47 :: skipSlash (q.drop (firstComp q).length))
    rw [if_pos (hmounted.mpr hm), if_pos hm, push_push, push_push, push_push, List.singleton_append,
      List.singleton_append, hrest]
    dsimp only
    rw [if_neg (by simp), setCwdFromPath_mnt (hv _ hm).2]
  · rw [if_neg fun h => hm (hmounted.mp h), if_neg hm]
    cases ht : targetMnt v cwd with
    | none =>
      rw [targetMnt] at ht
      split_ifs at ht with hr hmnt
      exact not_not.mp hmnt
    | some m =>
      obtain ⟨hshort, hcolon⟩ := targetMnt_short ht
      obtain ⟨rest, hrest⟩ := hcut hshort (47 :: q)
      dsimp only
      rw [push_push, push_push, List.singleton_append, hrest]
      rw [if_neg (by simp), setCwdFromPath_mnt hshort]
      exact takeWhile_of_not_mem hcolon

theorem agrees_of_unmounted (hv : Named v) (arg : Argument) (hslash : arg.text.head? ≠ some 47)
    (hover : ¬ Overflows cwd arg.text) (hm : ¬ Mounted v (lsMount cwd arg.text)) :
    Agrees v cwd arg.text ↔ ¬ Mounted v (cdMount v cwd arg.text) := by
  obtain ⟨hok, hnone⟩ := ls_unmounted arg hslash hover hm
  rw [Agrees, hnone, and_iff_right hok, ls_cwd_dir hv, cd_mnt hv arg hslash]
  by_cases hcd : Mounted v (cdMount v cwd arg.text)
  · rw [if_pos hcd]
    exact iff_of_false (Option.some_ne_none _) (not_not.mpr hcd)
  · rw [if_neg hcd]
    exact iff_of_true rfl hcd

/-- The Unix path of the current directory leads back to it. -/
def Returns (v : Table σ ν) (cwd : Cwd) (args : List UInt8) : Prop :=
  cwd.mnt = devName ∨
    ¬ Mounted v (firstComp (joinPath cwd.path args)) ∧ (cwd.mnt = rootName ∨ ¬ Mounted v rootName)

theorem cd_relative (hv : Named v) (arg : Argument) (hslash : arg.text.head? ≠ some 47)
    (hlen : (joinPath cwd.path arg.text).length ≤ 127) :
    cd v cwd arg.text = (absolute v cwd (unixTail cwd arg.text)).elim cwd (setCwdFromPath cwd) := by
  have hroot : arg.text ≠ [47] := by
    intro he
    rw [he] at hslash
    exact hslash rfl
  have hpos : 0 < arg.text.length := List.length_pos_iff.mpr arg.ne_nil
  have hne : unixTail cwd arg.text ≠ [] := List.length_pos_iff.mp (hpos.trans_le (length_unixTail_ge cwd arg.text))
  have htail := length_unixTail_le cwd arg.text
  apply cd_eq hv arg hroot hne (by omega)
  rw [if_neg hslash, unixPath_eq, List.take_of_length_le (by omega)]

theorem absolute_of_returns {args : List UInt8} (hm : Mounted v cwd.mnt) (hne : cwd.mnt ≠ []) (hret : Returns v cwd args) :
    absolute v cwd (unixTail cwd args) = some (cwd.mnt ++ 58 :: 47 :: joinPath cwd.path args) := by
  unfold absolute unixTail
  rw [if_neg hne]
  by_cases hdev : cwd.mnt = devName
  · have hfirst : firstComp (devName ++ 47 :: joinPath cwd.path args) = devName := rfl
    rw [if_pos hdev, hfirst, ← hdev, if_pos hm, hdev]
    rfl
  · obtain ⟨hfirst, hroot⟩ := hret.resolve_left hdev
    have htarget : targetMnt v cwd = some cwd.mnt := by
      unfold targetMnt
      by_cases hr : Mounted v rootName
      · rw [if_pos (vfsHasMount_iff.mpr ⟨by decide, hr⟩), hroot.resolve_right fun h => h hr]
      · rw [if_neg fun h => hr (vfsHasMount_iff.mp h).2, if_pos hne]
    rw [if_neg hdev, if_neg hfirst, htarget]
    rfl

theorem agrees_of_returns (hv : Named v) (arg : Argument) (hcolon : 58 ∉ arg.text) (hslash : arg.text.head? ≠ some 47)
    (hm : Mounted v cwd.mnt) (hret : Returns v cwd arg.text) (hlen : (joinPath cwd.path arg.text).length ≤ 127)
    (hs : Storable (cwd.path ++ 47 :: arg.text)) : Agrees v cwd arg.text := by
  have hne := (hv _ hm).1
  obtain ⟨sub, hls, hwalk⟩ := ls_relative (v := v) arg hcolon hslash hne hlen hs
  have hcd := cd_relative hv arg hslash hlen
  have hsplit := splitPath_mount cwd.mnt_colon cwd.mnt_le (47 :: joinPath cwd.path arg.text)
  obtain ⟨path, hafter, hopened⟩ := ls_setCwdFromPath v cwd hsplit hne hlen
  rw [Agrees, hls, hcd, absolute_of_returns hm hne hret]
  refine ⟨Listing.noConfusion, ?_⟩
  change (ls v (setCwdFromPath cwd (cwd.mnt ++ 58 :: 47 :: joinPath cwd.path arg.text)) []).dir v = opened v _
  rw [hafter, opened_eq (splitPath_mount cwd.mnt_colon cwd.mnt_le sub), hwalk]
  change opened v path = _
  rw [hopened, opened_eq hsplit, walk_sep]

end Relative

end DexOs.Shell
