import DexOs.ShellPaths

/-! When `cd` leads to the directory that the other commands see. -/

namespace DexOs.Shell

open DexOs.Lib DexOs.Vfs

variable {σ ν : Type} {v : Table σ ν} {cwd : Cwd}

structure Simple (cwd : Cwd) (args : List UInt8) : Prop where
  length_le : cwd.path.length + args.length ≤ 121
  storable : Storable (cwd.path ++ 47 :: args)
  straight : Straight 47 46 (cwd.path ++ 47 :: args)

section Letters

def letters (s : List UInt8) : ℕ := (s.filter (· ≠ 47)).length

theorem letters_append (s t : List UInt8) : letters (s ++ t) = letters s + letters t := by
  rw [letters, List.filter_append, List.length_append]
  rfl

theorem letters_cons (c : UInt8) (s : List UInt8) : letters (c :: s) = (if c = 47 then 0 else 1) + letters s := by
  unfold letters
  by_cases h : c = 47
  · rw [if_pos h, List.filter_cons_of_neg (by simpa using h), Nat.zero_add]
  · rw [if_neg h, List.filter_cons_of_pos (by simpa using h), List.length_cons, Nat.add_comm]

theorem letters_eq_length {s : List UInt8} (h : 47 ∉ s) : letters s = s.length := by
  rw [letters, List.filter_eq_self.mpr]
  intro c hc
  simpa using ne_of_mem_of_not_mem hc h

theorem letters_joinPath (d args : List UInt8) : letters (joinPath d args) = letters d + letters args := by
  unfold joinPath
  split_ifs with hd hend
  · rw [hd]
    exact (Nat.zero_add _).symm
  · exact letters_append d args
  · rw [letters_append, letters_cons, if_pos rfl, Nat.zero_add]

theorem straight_joinPath {d args : List UInt8} (h : Straight 47 46 (d ++ 47 :: args)) : Straight 47 46 (joinPath d args) := by
  obtain ⟨hd, hargs⟩ := (straight_append d args).mp h
  unfold joinPath
  split_ifs with hnil hend
  · exact hargs
  · obtain ⟨d', rfl⟩ := List.getLast?_eq_some_iff.mp hend
    have hd' := ((straight_append d' []).mp hd).1
    rw [List.append_assoc]
    exact (straight_append d' args).mpr ⟨hd', hargs⟩
  · exact h

theorem letters_walk {s : List UInt8} (h : Straight 47 46 s) : (walk 47 46 [] s).flatten.length = letters s := by
  rw [h.letters]
  rfl

theorem straight_unixTail {args : List UInt8} (h : Simple cwd args) : Straight 47 46 (unixTail cwd args) := by
  have hjoin := straight_joinPath h.straight
  unfold unixTail
  split_ifs
  · exact ((straight_append _ _).mp h.straight).2
  · exact (straight_append _ _).mpr ⟨straight_of_not_mem (by decide) (by decide) (by decide), hjoin⟩
  · exact hjoin

theorem letters_unixTail_ge (cwd : Cwd) (args : List UInt8) : letters args ≤ letters (unixTail cwd args) := by
  unfold unixTail
  split_ifs
  · exact le_rfl
  · rw [letters_append, letters_cons, letters_joinPath]
    omega
  · rw [letters_joinPath]
    omega

theorem joinPath_length_le {args : List UInt8} (h : Simple cwd args) : (joinPath cwd.path args).length ≤ 127 := by
  have hle := h.length_le
  have hjoin := length_joinPath_le cwd.path args
  omega

theorem unixTail_length_le {args : List UInt8} (h : Simple cwd args) : (unixTail cwd args).length ≤ 126 := by
  have hle := h.length_le
  have hjoin := length_joinPath_le cwd.path args
  have htail := length_unixTail_le cwd args
  omega

end Letters

section Opened

theorem firstComp_split (hv : Named v) {q : List UInt8} (h : Mounted v (firstComp q)) :
    47 ∉ firstComp q ∧ (Straight 47 46 q → Straight 47 46 (skipSlash (q.drop (firstComp q).length))) ∧
      letters q = (firstComp q).length + letters (skipSlash (q.drop (firstComp q).length)) := by
  have hshort := (hv _ h).2
  have hfirst : firstComp q = q.takeWhile (· ≠ 47) := by
    apply List.take_of_length_le
    rw [firstComp, List.length_take] at hshort
    omega
  have hnot : 47 ∉ q.takeWhile (· ≠ 47) := fun hm => by simpa using List.mem_takeWhile_imp hm
  have hq : q.takeWhile (· ≠ 47) ++ q.dropWhile (· ≠ 47) = q := List.takeWhile_append_dropWhile
  have hdrop : q.drop (q.takeWhile (· ≠ 47)).length = q.dropWhile (· ≠ 47) := by
    nth_rewrite 2 [← hq]
    exact List.drop_left
  rw [hfirst, hdrop]
  refine ⟨hnot, ?_⟩
  cases hd : q.dropWhile (· ≠ 47) with
  | nil =>
    rw [hd, List.append_nil] at hq
    refine ⟨fun _ => straight_of_not_mem List.not_mem_nil (by decide) (by decide), ?_⟩
    rw [hq] at hnot
    rw [hq, letters_eq_length hnot]
    rfl
  | cons c rest =>
    obtain rfl : c = 47 := by
      have hhead := List.head?_dropWhile_not (fun x : UInt8 => decide (x ≠ 47)) q
      rw [hd] at hhead
      simpa using hhead
    have hskip : skipSlash (47 :: rest) = rest := rfl
    rw [hd] at hq
    rw [hskip, ← letters_eq_length hnot]
    constructor
    · intro hs
      rw [← hq] at hs
      exact ((straight_append _ _).mp hs).2
    · nth_rewrite 1 [← hq]
      rw [letters_append, letters_cons, if_pos rfl, Nat.zero_add]

theorem letters_behind_colon {b rest : List UInt8} (hb : 47 ∉ b) (hrest : Straight 47 46 rest) :
    (walk 47 46 [] (b ++ [58] ++ 47 :: rest)).flatten.length = b.length + 1 + letters rest := by
  have hname : 47 ∉ b ++ [58] := by
    intro hm
    rcases List.mem_append.mp hm with hm | hm
    · exact hb hm
    · exact absurd (List.mem_singleton.mp hm) (by decide)
  have hcolon {d : List UInt8} (hd : 58 ∉ d) : b ++ [58] ≠ d := fun he =>
    hd (he ▸ List.mem_append_right b (List.mem_singleton_self 58))
  have hs : Straight 47 46 (b ++ [58] ++ 47 :: rest) :=
    (straight_append _ _).mpr ⟨straight_of_not_mem hname (hcolon (by decide)) (hcolon (by decide)), hrest⟩
  rw [letters_walk hs, letters_append, letters_eq_length hname, letters_cons, if_pos rfl, List.length_append,
    List.length_singleton, Nat.zero_add]

theorem absolute_letters (hv : Named v) {q full : List UInt8} (hq : Straight 47 46 q) (h : absolute v cwd q = some full)
    {m : List UInt8} {dirs : List (List UInt8)} (hdir : opened v full = some (m, dirs)) :
    (Mounted v (firstComp q) ∧ 47 ∉ m ∧ m ≠ [] ∧ dirs.flatten.length + m.length = letters q) ∨
      (¬ Mounted v (firstComp q) ∧ targetMnt v cwd = some m ∧ dirs.flatten.length = letters q) := by
  have hopened {m' sub : List UInt8} (hsplit : splitPath full = some (m', sub)) :
      Mounted v m ∧ m' = m ∧ walk 47 46 [] sub = dirs := by
    rw [opened_eq hsplit] at hdir
    split at hdir
    case isTrue hm =>
      obtain ⟨rfl, rfl⟩ : m' = m ∧ walk 47 46 [] sub = dirs := by simpa using hdir
      exact ⟨hm, rfl, rfl⟩
    case isFalse => exact absurd hdir (by simp)
  unfold absolute at h
  by_cases hfirst : Mounted v (firstComp q)
  · left
    rw [if_pos hfirst] at h
    obtain ⟨hnot, hrest, hletters⟩ := firstComp_split hv hfirst
    obtain ⟨hne, hshort⟩ := hv _ hfirst
    refine ⟨hfirst, ?_⟩
    generalize skipSlash (q.drop (firstComp q).length) = rest at *
    generalize firstComp q = first at *
    obtain rfl := Option.some.inj h
    by_cases hcolon : 58 ∈ first
    · -- `set_cwd_from_path` and `vfs_open` take the mount name up to its first colon.
      obtain ⟨a, b, rfl, ha⟩ := List.eq_append_cons_of_mem hcolon
      have hb : 47 ∉ b := fun hm => hnot (List.mem_append_right _ (List.mem_cons_of_mem _ hm))
      have hfull : a ++ 58 :: b ++ 58 :: 47 :: rest = a ++ 58 :: ((b ++ [58]) ++ 47 :: rest) := by simp
      rw [List.length_append, List.length_cons] at hshort hletters
      rw [hfull] at hopened
      obtain ⟨hm, rfl, rfl⟩ := hopened (splitPath_mount ha (by omega) _)
      refine ⟨fun hm => hnot (List.mem_append_left _ hm), (hv _ hm).1, ?_⟩
      rw [letters_behind_colon hb (hrest hq), hletters]
      omega
    · obtain ⟨-, rfl, rfl⟩ := hopened (splitPath_mount hcolon hshort _)
      refine ⟨hnot, hne, ?_⟩
      rw [walk_sep, letters_walk (hrest hq), hletters]
      omega
  · right
    rw [if_neg hfirst] at h
    obtain ⟨t, ht, rfl⟩ := Option.map_eq_some_iff.mp h
    obtain ⟨hshort, hcolon⟩ := targetMnt_short ht
    obtain ⟨-, rfl, rfl⟩ := hopened (splitPath_mount hcolon hshort _)
    refine ⟨hfirst, ht, ?_⟩
    rw [walk_sep]
    exact letters_walk hq

end Opened

section Agreement

/-- The condition: the path is absolute and not `/`; or `ls` has no mount to look in, and neither has `cd`; or the path is
relative to a directory whose Unix path leads back to it, and nothing of it is cut. -/
def Holds (v : Table σ ν) (cwd : Cwd) (args : List UInt8) : Prop :=
  (args.head? = some 47 ∧ (args = [47] → ¬ Mounted v rootName)) ∨
    (args.head? ≠ some 47 ∧ ¬ Overflows cwd args ∧ ¬ Mounted v (lsMount cwd args) ∧ ¬ Mounted v (cdMount v cwd args)) ∨
    (args.head? ≠ some 47 ∧ 58 ∉ args ∧ Mounted v cwd.mnt ∧ Returns v cwd args ∧ (joinPath cwd.path args).length ≤ 127 ∧
      Storable (cwd.path ++ 47 :: args))

theorem agrees_iff_of_absolute (hv : Named v) (arg : Argument) (h : arg.text.head? = some 47) :
    Agrees v cwd arg.text ↔ (arg.text = [47] → ¬ Mounted v rootName) := by
  by_cases hroot : arg.text = [47]
  · rw [agrees_slash hv arg hroot, forall_prop_of_true hroot]
  · exact iff_of_true (agrees_of_absolute hv arg h hroot) fun he => absurd he hroot

theorem agrees_of_holds (hv : Named v) (arg : Argument) (h : Holds v cwd arg.text) : Agrees v cwd arg.text := by
  rcases h with ⟨hslash, hroot⟩ | ⟨hslash, hover, hls, hcd⟩ | ⟨hslash, hcolon, hm, hret, hlen, hs⟩
  · exact (agrees_iff_of_absolute hv arg hslash).mpr hroot
  · exact (agrees_of_unmounted hv arg hslash hover hls).mpr hcd
  · exact agrees_of_returns hv arg hcolon hslash hm hret hlen hs

theorem cd_opens (hv : Named v) (arg : Argument) (hslash : arg.text.head? ≠ some 47) (hs : Simple cwd arg.text)
    (h : Agrees v cwd arg.text) {path : List UInt8} (hls : ls v cwd arg.text = .opens path)
    {dir : List UInt8 × List (List UInt8)} (hdir : opened v path = some dir) :
    ∃ full, absolute v cwd (unixTail cwd arg.text) = some full ∧ opened v full = some dir := by
  have hlen := unixTail_length_le hs
  have hafter : (ls v (cd v cwd arg.text) []).dir v = some dir := by
    rw [h.2, hls]
    exact hdir
  rw [cd_relative hv arg hslash (joinPath_length_le hs)] at hafter
  cases ha : absolute v cwd (unixTail cwd arg.text) with
  | none =>
    rw [ha] at hafter
    change (ls v cwd []).dir v = some dir at hafter
    rw [ls, if_pos rfl, if_pos (mnt_of_absolute_none ha)] at hafter
    exact absurd hafter (Option.some_ne_none dir).symm
  | some full =>
    rw [ha] at hafter
    refine ⟨full, rfl, ?_⟩
    rw [← ls_absolute hv ha hlen]
    exact hafter

theorem returns_of_agrees (hv : Named v) (arg : Argument) (hcolon : 58 ∉ arg.text) (hslash : arg.text.head? ≠ some 47)
    (hm : Mounted v cwd.mnt) (hs : Simple cwd arg.text) (h : Agrees v cwd arg.text) : Returns v cwd arg.text := by
  have hne := (hv _ hm).1
  have hstraight := straight_joinPath hs.straight
  by_cases hdev : cwd.mnt = devName
  · exact .inl hdev
  have htail : unixTail cwd arg.text = joinPath cwd.path arg.text := by rw [unixTail, if_neg hne, if_neg hdev]
  obtain ⟨sub, hls, hwalk⟩ := ls_relative (v := v) arg hcolon hslash hne (joinPath_length_le hs) hs.storable
  have hdir : opened v (cwd.mnt ++ 58 :: sub) = some (cwd.mnt, walk 47 46 [] (joinPath cwd.path arg.text)) := by
    rw [opened_eq (splitPath_mount cwd.mnt_colon cwd.mnt_le sub), if_pos hm, hwalk]
  obtain ⟨full, habs, hfull⟩ := cd_opens hv arg hslash hs h hls hdir
  rw [htail] at habs
  rcases absolute_letters hv hstraight habs hfull with ⟨-, -, -, hsum⟩ | ⟨hfirst, htarget, -⟩
  · rw [letters_walk hstraight] at hsum
    exact absurd (List.length_eq_zero_iff.mp (show cwd.mnt.length = 0 by omega)) hne
  · refine .inr ⟨hfirst, ?_⟩
    by_cases hr : Mounted v rootName
    · left
      rw [targetMnt, if_pos (vfsHasMount_iff.mpr ⟨by decide, hr⟩)] at htarget
      exact (Option.some.inj htarget).symm
    · exact .inr hr

theorem not_agrees_of_colon (hv : Named v) (arg : Argument) (hcolon : 58 ∈ arg.text) (hslash : arg.text.head? ≠ some 47)
    (hm : Mounted v (parsed arg.text)) (hs : Simple cwd arg.text) : ¬ Agrees v cwd arg.text := by
  intro h
  obtain ⟨a, sub, harg, hsplit⟩ := splitPath_parsed hcolon
  have hls : ls v cwd arg.text = .opens arg.text := by
    apply ls_eq_resolve arg hslash
    rw [resolvePath, if_pos hcolon, arg.strCopy_eq]
  have hdir : opened v arg.text = some (parsed arg.text, walk 47 46 [] sub) := by rw [opened_eq hsplit, if_pos hm]
  obtain ⟨full, habs, hfull⟩ := cd_opens hv arg hslash hs h hls hdir
  have hletters : letters arg.text = letters a + (1 + letters sub) := by
    rw [harg, letters_append, letters_cons, if_neg (by decide)]
  have htail := letters_unixTail_ge cwd arg.text
  have hsub : (walk 47 46 [] sub).flatten.length ≤ 0 + letters sub := walk_letters_le sub
  rcases absolute_letters hv (straight_unixTail hs) habs hfull with ⟨-, hnot, -, hsum⟩ | ⟨-, -, hsame⟩
  · have hparsed : (parsed arg.text).length ≤ letters a := by
      rw [← letters_eq_length hnot, harg, parsed, takeWhile_colon]
      exact (((List.take_sublist _ _).trans (List.takeWhile_sublist _)).filter _).length_le
    omega
  · omega

theorem not_agrees_of_overflow (arg : Argument) (hslash : arg.text.head? ≠ some 47) (h : Overflows cwd arg.text) :
    ¬ Agrees v cwd arg.text := by
  intro hagrees
  obtain ⟨hcolon, hm, hlen⟩ := h
  have hne : arg.text ≠ [47] := by
    intro he
    rw [he] at hslash
    exact hslash rfl
  have htmp : 160 ≤ (tmpPath cwd arg.text 192).length := by
    rw [tmpPath, if_neg hslash, push_push, push_push, push_push, push_push, push, List.length_take]
    simp only [List.length_append, List.length_cons, List.length_nil]
    omega
  have hres : resolvePath cwd arg.text 192 = .error .overflow := by
    rw [resolvePath, if_neg hcolon, if_neg hm]
    exact if_pos htmp
  apply hagrees.1
  rw [ls, if_neg arg.ne_nil, arg.strCopy_eq, if_neg hne, translateUnixPath, if_neg (by decide), if_neg hne, if_neg hslash,
    hres]

/-- `cd` and `ls` agree under the condition. It is also necessary for every absolute path, for every path with no mount to
look in, and for simple paths. Otherwise a path can climb out of a wrong directory with `..`, and of a text that was cut
the rest can be the same directory by accident. -/
theorem cd_agrees_with_ls (hv : Named v) (cwd : Cwd) (arg : Argument) :
    (Holds v cwd arg.text → Agrees v cwd arg.text) ∧
      (arg.text.head? = some 47 ∨ ¬ Mounted v (lsMount cwd arg.text) ∨ Overflows cwd arg.text ∨ Simple cwd arg.text →
        Agrees v cwd arg.text → Holds v cwd arg.text) := by
  refine ⟨agrees_of_holds hv arg, ?_⟩
  intro hcase h
  by_cases hslash : arg.text.head? = some 47
  · exact .inl ⟨hslash, (agrees_iff_of_absolute hv arg hslash).mp h⟩
  right
  have hover : ¬ Overflows cwd arg.text := fun ho => not_agrees_of_overflow arg hslash ho h
  by_cases hm : Mounted v (lsMount cwd arg.text)
  · have hs : Simple cwd arg.text :=
      ((hcase.resolve_left hslash).resolve_left (not_not.mpr hm)).resolve_left hover
    right
    by_cases hcolon : 58 ∈ arg.text
    · rw [lsMount, if_pos hcolon] at hm
      exact absurd h (not_agrees_of_colon hv arg hcolon hslash hm hs)
    · rw [lsMount, if_neg hcolon] at hm
      exact ⟨hslash, hcolon, hm, returns_of_agrees hv arg hcolon hslash hm hs h, joinPath_length_le hs, hs.storable⟩
  · exact .inl ⟨hslash, hover, hm, (agrees_of_unmounted hv arg hslash hover hm).mp h⟩

def twoMounts : Table Unit ℕ :=
  { sampleTable with mounts := [⟨rootName, sampleOps, 1⟩, ⟨[114, 97, 109], sampleOps, 1⟩] }

theorem twoMounts_named : Named twoMounts := by
  intro name h
  have hname : name = rootName ∨ name = [114, 97, 109] := by simpa [Mounted, twoMounts] using h
  rcases hname with rfl | rfl
  · decide
  · decide

theorem cd_agrees_with_ls_absolute : Agrees twoMounts rootCwd [47, 114, 97, 109, 47, 97] :=
  (cd_agrees_with_ls twoMounts_named rootCwd ⟨[47, 114, 97, 109, 47, 97], by decide, by decide⟩).1 (.inl ⟨rfl, by decide⟩)

theorem cd_mount_path_disagrees : ¬ ∀ (cwd : Cwd) (arg : Argument), Agrees twoMounts cwd arg.text := by
  intro h
  have hagree := h rootCwd ⟨[114, 97, 109, 58, 47, 97], by decide, by decide⟩
  have hbefore : (ls twoMounts rootCwd [114, 97, 109, 58, 47, 97]).dir twoMounts = some ([114, 97, 109], [[97]]) := by
    decide +kernel
  have hafter : (ls twoMounts (cd twoMounts rootCwd [114, 97, 109, 58, 47, 97]) []).dir twoMounts =
      some ([114, 111, 111, 116], [[114, 97, 109, 58], [97]]) := by decide +kernel
  exact absurd (hafter.symm.trans (hagree.2.trans hbefore)) (by decide)

end Agreement

end DexOs.Shell
