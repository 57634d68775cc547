import DexOs.ShellFiles

/-! The file commands on a volume that is mounted as `root`, and what they print to a user who knows the volume as a
store of files. -/

namespace DexOs.Shell

open DexOs.Lib DexOs.Exfat

inductive Verb
  | cat
  | stat
  | touch
  | rm
deriving DecidableEq

inductive Command
  | onPath (verb : Verb) (path : List UInt8)
  | write (path buf : List UInt8)

def Verb.word : Verb → List UInt8
  | cat => text "cat"
  | stat => text "stat"
  | touch => text "touch"
  | rm => text "rm"

namespace Command

def word : Command → List UInt8
  | onPath verb _ => verb.word
  | write _ _ => text "write"

def path : Command → List UInt8
  | onPath _ path => path
  | write path _ => path

def Blank (l : List UInt8) : Prop := ∀ c ∈ l, isWs c = true

def Args : Command → List UInt8 → Prop
  | onPath _ path, args => args = path
  | write path buf, args => ∃ gap, args = path ++ (gap ++ buf) ∧ Blank gap ∧ (∀ c ∈ path, isWs c = false) ∧
      (∀ c ∈ buf.head?, isWs c = false) ∧ (buf ≠ [] → gap ≠ [])

/-- The command as it stands in the buffer `line` of `shell_main`. -/
structure Typed (line : List UInt8) (c : Command) : Prop where
  short : line.length ≤ 127
  absolute : c.path.head? = some 47
  parts : ∃ lead gap args, (cstr line).1 = lead ++ (c.word ++ (gap ++ args)) ∧ Blank lead ∧ Blank gap ∧ gap ≠ [] ∧
    c.Args args

end Command

def rootPath (path : List UInt8) : CString :=
  cstr (if firstComp path.tail = rootName then 47 :: skipSlash (path.tail.drop 4) else path)

def contents (s : FileStore) (path : CString) : Option (List UInt8) :=
  if pathIsRoot path then some []
  else (s.find (fileName path)).bind fun i => (s.files[i]?).map StoredFile.bytes

def refusal (reply : Reply) (message : List UInt8) : List UInt8 := if reply = .code 0 then [] else message

def made (s : FileStore) (path : CString) : Reply × FileStore :=
  if contents s path = none then s.serve (.create path) else (.code 0, s)

/-- The commands for a user of the store. -/
def answer (s : FileStore) : Command → List UInt8 × FileStore
  | .onPath .cat path =>
    (match contents s (rootPath path) with
      | none => text "cat: open failed\n"
      | some b => b ++ text "\n", s)
  | .onPath .stat path =>
    (match contents s (rootPath path) with
      | none => text "stat: not found\n"
      | some b =>
        (if pathIsRoot (rootPath path) then text "dir" else text "file") ++ text " size=0x" ++ hex64 b.length ++ text "\n", s)
  | .onPath .touch path =>
    let r := s.serve (.create (rootPath path))
    (refusal r.1 (text "touch failed\n"), r.2)
  | .onPath .rm path =>
    let r := s.serve (.remove (rootPath path))
    (refusal r.1 (text "rm failed\n"), r.2)
  | .write path buf =>
    let m := made s (rootPath path)
    let r := m.2.serve (.put (rootPath path) 0 buf)
    (refusal m.1 (text "write: create failed\n") ++
      (if r.1 = .file none then text "write: open failed\n"
        else if r.1 = .code buf.length then text "ok\n" else text "write failed\n"), r.2)

def answers : List Command → FileStore → List (List UInt8) × FileStore
  | [], s => ([], s)
  | c :: cs, s =>
    let first := answer s c
    let rest := answers cs first.2
    (first.1 :: rest.1, rest.2)

variable {σ H : Type} {D : Disk σ} {t : Mounts σ} {cwd : Cwd} {s : FileStore} {path line : List UInt8} {c : Command}

section Lines

variable {l r : List UInt8}

theorem dropWhile_blank (hl : Command.Blank l) (hr : ∀ c ∈ r.head?, isWs c = false) : (l ++ r).dropWhile isWs = r := by
  rw [List.dropWhile_append_of_pos hl]
  cases r with
  | nil => rfl
  | cons c r => simp [hr c (by simp)]

theorem word_split (hl : ∀ c ∈ l, isWs c = false) (hr : ∀ c ∈ r.head?, isWs c = true) :
    (l ++ r).takeWhile (fun c => !isWs c) = l ∧ (l ++ r).dropWhile (fun c => !isWs c) = r := by
  have hl' : ∀ c ∈ l, (!isWs c) = true := fun c hc => by simp [hl c hc]
  rw [List.takeWhile_append_of_pos hl', List.dropWhile_append_of_pos hl']
  cases r with
  | nil => simp
  | cons c r => simp [hr c (by simp)]

theorem plain_of_all (h : l.all (fun b => !isWs b) = true) : ∀ b ∈ l, isWs b = false := by
  simpa using h

theorem word_plain (c : Command) : c.word ≠ [] ∧ ∀ b ∈ c.word, isWs b = false := by
  have hverb (v : Verb) : v.word ≠ [] ∧ ∀ b ∈ v.word, isWs b = false := by
    cases v <;> exact ⟨by decide, plain_of_all (by decide)⟩
  cases c with
  | onPath verb _ => exact hverb verb
  | write _ _ => exact ⟨show text "write" ≠ [] by decide, plain_of_all (l := text "write") (by decide)⟩

theorem args_head {args : List UInt8} (h : c.Args args) (habs : c.path.head? = some 47) : args.head? = some 47 := by
  cases c with
  | onPath verb path => exact h ▸ habs
  | write path buf =>
    obtain ⟨gap, rfl, -⟩ := h
    obtain ⟨p, rfl⟩ := List.head?_eq_some_iff.mp habs
    rfl

theorem Command.Typed.command (h : c.Typed line) :
    ∃ args, command (cstr line).1 = (c.word, args) ∧ c.Args args ∧ args.length ≤ 127 := by
  obtain ⟨lead, gap, args, hline, hlead, hgap, hne, hargs⟩ := h.parts
  obtain ⟨hword, hplain⟩ := word_plain c
  obtain ⟨w, ws, hw⟩ := List.exists_cons_of_ne_nil hword
  obtain ⟨g, gs, rfl⟩ := List.exists_cons_of_ne_nil hne
  have hhead := args_head hargs h.absolute
  have hlead' : (cstr line).1.dropWhile isWs = c.word ++ (g :: gs ++ args) := by
    rw [hline]
    apply dropWhile_blank hlead
    intro b hb
    apply hplain b
    rw [hw] at hb ⊢
    exact List.mem_of_mem_head? hb
  obtain ⟨htake, hdrop⟩ := word_split (r := g :: gs ++ args) hplain (by simpa using hgap g (by simp))
  refine ⟨args, ?_, hargs, ?_⟩
  · simp only [Shell.command]
    rw [hlead', htake, hdrop, List.cons_append, List.drop_succ_cons, List.drop_zero, dropWhile_blank]
    · exact fun b hb => hgap b (List.mem_cons_of_mem _ hb)
    · rw [hhead]
      simp [isWs]
  · have hlen := congrArg List.length hline
    have hcstr : (cstr line).1.length ≤ line.length := (List.takeWhile_sublist _).length_le
    have hshort := h.short
    simp only [List.length_append] at hlen
    omega

theorem write_length {args buf : List UInt8} (h : (Command.write path buf).Args args) :
    path.length + buf.length ≤ args.length := by
  obtain ⟨gap, rfl, -⟩ := h
  simp only [List.length_append]
  omega

theorem write_split {args buf : List UInt8} (h : (Command.write path buf).Args args) (hlen : path.length ≤ 127) :
    (args.takeWhile fun c => !isWs c).take 191 = path ∧ (args.drop path.length).dropWhile isWs = buf := by
  obtain ⟨gap, rfl, hgap, hplain, hbuf, hne⟩ := h
  have hhead : ∀ c ∈ (gap ++ buf).head?, isWs c = true := by
    cases gap with
    | nil => simp [not_imp_not.mp hne rfl]
    | cons g gs => simpa using hgap g (by simp)
  constructor
  · rw [(word_split hplain hhead).1, List.take_of_length_le (hlen.trans (by decide))]
  · rw [List.drop_left, dropWhile_blank hgap hbuf]

end Lines

section Paths

/-- The volume that is mounted as `root`. -/
def RootIs (t : Mounts σ) (fs : Fs σ) : Prop :=
  t.points.find? (fun m => strEq m.mname rootName) = some ⟨rootName, .exfat fs⟩

/-- An absolute path whose first component names no mount besides `root`. -/
structure OnRoot (t : Mounts σ) (path : List UInt8) : Prop where
  absolute : path.head? = some 47
  short : path.length ≤ 127
  mount : firstComp path.tail ∈ t.points.map MountPoint.mname → firstComp path.tail = rootName

theorem mounted_names {name : List UInt8} : Mounted t.names name ↔ name ∈ t.points.map MountPoint.mname := by
  simp [Mounted, Mounts.names]

theorem RootIs.hasMount {fs : Fs σ} (h : RootIs t fs) : Vfs.vfsHasMount t.names rootName ≠ 0 := by
  rw [vfsHasMount_iff, mounted_names]
  exact ⟨by decide, List.mem_map.mpr ⟨_, List.mem_of_find?_eq_some h, rfl⟩⟩

theorem RootIs.parse {fs : Fs σ} (h : RootIs t fs) (sub : List UInt8) :
    t.parse (rootName ++ 58 :: sub) = some (.exfat fs, cstr sub) := by
  rw [Mounts.parse, splitPath_mount (by decide) (by decide), Option.bind_some, h]
  rfl

theorem fullPath_root {fs : Fs σ} (cwd : Cwd) (h : RootIs t fs) (hp : OnRoot t path) :
    ∃ full, fullPath t cwd path = .ok full ∧ t.parse full = some (.exfat fs, rootPath path) := by
  obtain ⟨habs, hlen, hmount⟩ := hp
  have hfull : ∃ sub, translateUnixPath t.names cwd path 192 = .ok (rootName ++ 58 :: sub) ∧ cstr sub = rootPath path := by
    unfold translateUnixPath rootPath
    rw [if_neg (by decide)]
    by_cases hp : path = [47]
    · exact ⟨[47], by rw [if_pos hp]; rfl, by rw [hp, if_neg (by decide)]⟩
    · rw [if_neg hp, if_pos habs]
      dsimp only
      have hdrop : (path.tail.drop 4).length ≤ path.length := by simp
      have hrest := (skipSlash_length_le (path.tail.drop 4)).trans hdrop
      by_cases hfirst : firstComp path.tail = rootName
      · rw [if_pos ⟨by rw [hfirst]; decide, by rw [hfirst]; exact h.hasMount⟩, if_pos hfirst, hfirst]
        refine ⟨47 :: skipSlash (path.tail.drop 4), ?_, rfl⟩
        simp only [push_push]
        rw [push_nil]
        · rfl
        · rw [List.length_append, List.length_append, List.length_append]
          change 4 + 1 + 1 + (skipSlash (path.tail.drop 4)).length < 192
          omega
      · rw [if_neg fun hm => hfirst (hmount (mounted_names.mp (vfsHasMount_iff.mp hm.2).2)), if_neg hfirst]
        refine ⟨path, ?_, rfl⟩
        rw [targetMnt, if_pos h.hasMount]
        simp only [push_push]
        rw [push_nil]
        · rfl
        · rw [List.length_append, List.length_append]
          change 4 + 1 + path.length < 192
          omega
  obtain ⟨sub, htrans, hsub⟩ := hfull
  refine ⟨rootName ++ 58 :: sub, ?_, ?_⟩
  · rw [fullPath, htrans]
  · rw [h.parse, hsub]

theorem Command.Typed.onRoot (h : c.Typed line)
    (hmount : Mounted t.names (firstComp c.path.tail) → firstComp c.path.tail = rootName) (hlen : c.path.length ≤ 127) :
    OnRoot t c.path := ⟨h.absolute, hlen, fun hm => hmount (mounted_names.mpr hm)⟩

end Paths

section Handles

variable [KernelAlloc H] {w : World σ H} {v : Vol} {p : CString} {node : Exfat.Node} {b : List UInt8} {fuel : ℕ}

omit [KernelAlloc H] in
theorem contents_missing (h : pathIsRoot p = false ∧ s.find (fileName p) = none) : contents s p = none := by
  simp [contents, h.1, h.2]

def Reads (H : Type) [KernelAlloc H] (D : Disk σ) (v : Vol) (node : Exfat.Node) (b : List UInt8) : Prop :=
  ∀ (w : World σ H), D.vol w = v → ∀ off len, len < 2 ^ 31 → Wp (exfatRead D.fs node off len) w fun r w' =>
    r.1.toNat = ((b.drop off).take len).length ∧ r.2 = (b.drop off).take len ∧ D.vol w' = v

theorem handle_reads (ha : AllocOk H) (hpos : 0 < D.fs.clusterSize) (hs : Exfat.Holds D v s) (h : Handle D v s p node) :
    ∃ b, contents s p = some b ∧ b.length ≤ D.fs.entries * D.fs.clusterSize ∧ b.length < 2 ^ 48 ∧ Reads H D v node b := by
  cases h with
  | root hp =>
    refine ⟨[], if_pos hp, by simp, by simp, fun w hw off len _ => ?_⟩
    rw [exfatRead, if_pos rfl]
    exact wp_pure ⟨by simp, by simp, hw⟩
  | @file ch i x f hp ho hfiles hi hf hx hrep =>
    have hchain := ho.chain _ (List.mem_map_of_mem (List.mem_of_getElem? hx))
    have hroom := hrep.backed.room
    have hlen := hchain.length_lt
    have hsize := hrep.size
    refine ⟨f.bytes, ?_, ?_, ?_, fun w hw off len hlen => ?_⟩
    · rw [contents, if_neg (by simp [hp]), hi, Option.bind_some, hf]
      rfl
    · rw [← hsize, Nat.mul_comm]
      exact hroom.trans (Nat.mul_le_mul_left _ hlen.le)
    · rw [← hsize]
      exact hchain.byte_lt hroom
    · subst hw
      have hreads := handleReads_of_backed ha hpos hchain hs.on hrep.backed hrep.isFile off len hlen
      apply (hreads.and (exfatRead_vol ha hpos x.node hchain)).mono
      rintro _ w' ⟨rfl, hv⟩
      rw [hrep.bytes]
      exact ⟨Int.toNat_natCast _, rfl, hv⟩

theorem catLoop_prints (h : Reads H D v node b) (hb : b.length < 2 ^ 48) {n off : ℕ} (hn : b.length < n + off)
    (hoff : off ≤ b.length) (hw : D.vol w = v) :
    Wp (catLoop fuel (.exfat D.fs node) n off) w fun out w' => out = b.drop off ∧ D.vol w' = v := by
  induction n generalizing off w with
  | zero => omega
  | succ n ih =>
    rw [catLoop]
    apply wp_bind (h w hw off 256 (by decide))
    rintro ⟨rc, out⟩ w1 ⟨hrc, rfl, hw1⟩
    dsimp only at hrc ⊢
    by_cases hstop : rc ≤ 0
    · rw [if_pos hstop]
      refine wp_pure ⟨?_, hw1⟩
      rw [List.length_take, List.length_drop] at hrc
      exact (List.drop_eq_nil_of_le (by omega)).symm
    · rw [if_neg hstop, hrc]
      have hpart : ((b.drop off).take 256).length = min 256 (b.length - off) := by simp
      rw [Nat.mod_eq_of_lt (by omega)]
      apply wp_bind (ih (by omega) (by omega) hw1)
      rintro _ w2 ⟨rfl, hw2⟩
      refine wp_pure ⟨?_, hw2⟩
      rw [List.take_length, ← List.drop_drop, hpart, ← List.length_drop]
      have htake : (b.drop off).take 256 = (b.drop off).take (min 256 (b.drop off).length) := by
        rw [← List.take_take, List.take_length]
      rw [htake, List.take_append_drop]

end Handles

section Answers

variable [KernelAlloc H] {w : World σ H} {p : CString} {fuel : ℕ} {full : List UInt8}

theorem exfatStat_holds (ha : AllocOk H) (hpos : 0 < D.fs.clusterSize) (hfuel : D.fs.entries ≤ fuel)
    (hs : Exfat.Holds D (D.vol w) s) (p : CString) :
    Wp (exfatStat D.fs p) w fun r w' =>
      r = (contents s p).map (fun b => (b.length, pathIsRoot p)) ∧ Exfat.Holds D (D.vol w') s := by
  have hserve : s.serve (.stat p) = (.info ((contents s p).map fun b => (b.length, pathIsRoot p)), s) := by
    rw [FileStore.serve, contents]
    cases pathIsRoot p with
    | true => rfl
    | false => cases s.find (fileName p) <;> simp [Function.comp_def]
  have hwp := serve_holds ha hpos hfuel hs (.stat p) trivial
  rw [hserve] at hwp
  apply (wp_of_bind hwp).mono
  rintro r w' ⟨_, _, ⟨⟩, hr, hs'⟩
  exact ⟨Reply.info.inj hr, hs'⟩

theorem exfatRemove_holds (ha : AllocOk H) (hpos : 0 < D.fs.clusterSize) (hfuel : D.fs.entries ≤ fuel)
    (hs : Exfat.Holds D (D.vol w) s) (p : CString) :
    Wp (exfatUnlink fuel D.fs p) w fun r w' =>
      (s.serve (.remove p)).1 = .code r ∧ Exfat.Holds D (D.vol w') (s.serve (.remove p)).2 := by
  apply (wp_of_bind (serve_holds ha hpos hfuel hs (.remove p) trivial)).mono
  rintro r w' ⟨_, _, ⟨⟩, hr, hs'⟩
  exact ⟨hr.symm, hs'⟩

theorem refusal_code (rc : ℤ) (message : List UInt8) :
    refusal (.code rc) message = if rc ≠ 0 then message else [] := by
  by_cases h : rc = 0 <;> simp [refusal, h]

theorem serve_missing (buf : List UInt8) (h : contents s p = none) : s.serve (.put p 0 buf) = (.file none, s) := by
  have hroot : pathIsRoot p = false := by
    cases hp : pathIsRoot p with
    | true => simp [contents, hp] at h
    | false => rfl
  rw [contents, if_neg (by simp [hroot])] at h
  rw [FileStore.serve, if_neg (by simp [hroot]), FileStore.onFile]
  cases hi : s.find (fileName p) with
  | none => rfl
  | some i =>
    rw [hi, Option.bind_some, Option.map_eq_none_iff] at h
    simp [h]

def Writes (D : Disk σ) (s : FileStore) (p : CString) (fuel : ℕ) (buf : List UInt8) (file : File σ) (w : World σ H) : Prop :=
  Wp (vfsWrite fuel file 0 buf) w fun r w' =>
    (s.serve (.put p 0 buf)).1 = .code r.1 ∧ Exfat.Holds D (D.vol w') (s.serve (.put p 0 buf)).2

theorem vfsOpen_writes {buf : List UInt8} (ha : AllocOk H) (hpos : 0 < D.fs.clusterSize) (hfuel : D.fs.entries ≤ fuel)
    (hs : Exfat.Holds D (D.vol w) s) (hparse : t.parse full = some (.exfat D.fs, p)) (hshort : buf.length < 2 ^ 31) :
    Wp (vfsOpen t full) w fun n w1 => Exfat.Holds D (D.vol w1) s ∧ (n = none → contents s p = none) ∧
      ∀ file ∈ n, contents s p ≠ none ∧ Writes D s p fuel buf file w1 := by
  have hput := wp_of_bind (serve_holds ha hpos hfuel hs (.put p 0 buf) hshort)
  rw [vfsOpen, hparse]
  apply wp_bind ((exfatOpen_handle ha hpos hs p).and hput)
  rintro n w1 ⟨⟨hv, hnone, hsome⟩, hrest⟩
  refine wp_pure ⟨hv ▸ hs, fun hn => contents_missing (hnone (Option.map_eq_none_iff.mp hn)), ?_⟩
  rintro _ hfile
  obtain ⟨node, rfl, rfl⟩ := Option.map_eq_some_iff.mp hfile
  obtain ⟨b, hb, -⟩ := handle_reads (H := H) ha hpos hs (hsome node rfl)
  refine ⟨by simp [hb], ?_⟩
  apply wp_bind (wp_of_bind hrest)
  rintro r w' ⟨_, _, ⟨⟩, hr, hs'⟩
  exact wp_pure ⟨hr.symm, hs'⟩

theorem put_code {buf : List UInt8} {rc : ℤ} (h : (s.serve (.put p 0 buf)).1 = .code rc) : rc = buf.length ∨ rc = -1 := by
  rw [FileStore.serve] at h
  split_ifs at h
  · exact .inr (Reply.code.inj h).symm
  · unfold FileStore.onFile at h
    split at h
    · cases h
    · split at h
      · cases h
      · unfold FileStore.put at h
        dsimp only at h
        split_ifs at h with hbuf
        · exact .inl (by rw [hbuf]; exact (Reply.code.inj h).symm)
        · exact .inl (Reply.code.inj h).symm
        · exact .inr (Reply.code.inj h).symm

omit [KernelAlloc H] in
theorem withPath_root (cwd : Cwd) (h : RootIs t D.fs) (hp : OnRoot t path) (usage : List UInt8) :
    ∃ full, t.parse full = some (.exfat D.fs, rootPath path) ∧
      ∀ run : List UInt8 → Io σ H (List UInt8), withPath t cwd usage path run = run full := by
  obtain ⟨full, hfull, hparse⟩ := fullPath_root cwd h hp
  refine ⟨full, hparse, fun run => ?_⟩
  rw [withPath, if_neg (by rintro rfl; cases hp.absolute), hfull]

def Prints (D : Disk σ) (s : FileStore) (c : Command) (w : World σ H) (x : Io σ H (List UInt8)) : Prop :=
  Wp x w fun out w' => out = (answer s c).1 ∧ Exfat.Holds D (D.vol w') (answer s c).2

theorem touch_prints (h : RootIs t D.fs) (hp : OnRoot t path) (ha : AllocOk H) (hpos : 0 < D.fs.clusterSize)
    (hs : Exfat.Holds D (D.vol w) s) : Prints D s (.onPath .touch path) w (touch t cwd path) := by
  obtain ⟨full, hparse, hrun⟩ := withPath_root (H := H) cwd h hp (text "usage: touch <path>\n")
  rw [Prints, touch, hrun, vfsCreate, hparse]
  apply wp_bind (exfatCreate_holds ha hs hpos)
  rintro rc w' ⟨hrc, hs'⟩
  refine wp_pure ⟨?_, hs'⟩
  rw [← refusal_code, ← hrc]
  rfl

theorem rm_prints (h : RootIs t D.fs) (hp : OnRoot t path) (ha : AllocOk H) (hpos : 0 < D.fs.clusterSize)
    (hfuel : D.fs.entries ≤ fuel) (hs : Exfat.Holds D (D.vol w) s) :
    Prints D s (.onPath .rm path) w (rm fuel t cwd path) := by
  obtain ⟨full, hparse, hrun⟩ := withPath_root (H := H) cwd h hp (text "usage: rm <path>\n")
  rw [Prints, rm, hrun, vfsUnlink, hparse]
  apply wp_bind (exfatRemove_holds ha hpos hfuel hs _)
  rintro rc w' ⟨hrc, hs'⟩
  refine wp_pure ⟨?_, hs'⟩
  rw [← refusal_code, ← hrc]
  rfl

theorem stat_prints (h : RootIs t D.fs) (hp : OnRoot t path) (ha : AllocOk H) (hpos : 0 < D.fs.clusterSize)
    (hs : Exfat.Holds D (D.vol w) s) : Prints D s (.onPath .stat path) w (stat t cwd path) := by
  obtain ⟨full, hparse, hrun⟩ := withPath_root (H := H) cwd h hp (text "usage: stat <path>\n")
  rw [Prints, stat, hrun, vfsStat, hparse]
  apply wp_bind (exfatStat_holds ha hpos le_rfl hs _)
  rintro _ w' ⟨rfl, hs'⟩
  cases hc : contents s (rootPath path) with
  | none => exact wp_pure ⟨by rw [answer, hc], hs'⟩
  | some b => exact wp_pure ⟨by rw [answer, hc], hs'⟩

theorem cat_prints (h : RootIs t D.fs) (hp : OnRoot t path) (ha : AllocOk H) (hpos : 0 < D.fs.clusterSize)
    (hfuel : D.fs.entries * D.fs.clusterSize < fuel) (hs : Exfat.Holds D (D.vol w) s) :
    Prints D s (.onPath .cat path) w (cat fuel t cwd path) := by
  obtain ⟨full, hparse, hrun⟩ := withPath_root (H := H) cwd h hp (text "usage: cat <path>\n")
  rw [Prints, cat, hrun, vfsOpen, hparse]
  apply wp_bind (R := fun r w' => (r = none → contents s (rootPath path) = none) ∧ D.vol w' = D.vol w ∧
    ∀ file ∈ r, ∃ node, file = .exfat D.fs node ∧ Handle D (D.vol w) s (rootPath path) node)
  · apply wp_bind (exfatOpen_handle ha hpos hs _)
    rintro n w1 ⟨hv, hnone, hsome⟩
    refine wp_pure ⟨fun hn => contents_missing (hnone (Option.map_eq_none_iff.mp hn)), hv, ?_⟩
    rintro _ hfile
    obtain ⟨node, hnode, rfl⟩ := Option.map_eq_some_iff.mp hfile
    exact ⟨node, rfl, hsome node hnode⟩
  · rintro (_ | file) w1 ⟨hnone, hv, hsome⟩
    · exact wp_pure ⟨by rw [answer, hnone rfl], hv ▸ hs⟩
    · obtain ⟨node, rfl, hhandle⟩ := hsome file rfl
      obtain ⟨b, hb, hroom, hsize, hreads⟩ := handle_reads (H := H) ha hpos hs hhandle
      apply wp_bind (catLoop_prints hreads hsize (by omega) (Nat.zero_le _) hv)
      rintro _ w2 ⟨rfl, hv2⟩
      exact wp_pure ⟨by rw [answer, hb], hv2 ▸ hs⟩

theorem openOrCreate_writes {buf : List UInt8} (ha : AllocOk H) (hpos : 0 < D.fs.clusterSize) (hfuel : D.fs.entries ≤ fuel)
    (hs : Exfat.Holds D (D.vol w) s) (hparse : t.parse full = some (.exfat D.fs, p)) (hshort : buf.length < 2 ^ 31) :
    Wp (openOrCreate t full) w fun r w1 => r.1 = refusal (made s p).1 (text "write: create failed\n") ∧
      Exfat.Holds D (D.vol w1) (made s p).2 ∧ (r.2 = none → contents (made s p).2 p = none) ∧
      ∀ file ∈ r.2, Writes D (made s p).2 p fuel buf file w1 := by
  rw [openOrCreate]
  apply wp_bind (vfsOpen_writes ha hpos hfuel hs hparse hshort)
  rintro (_ | file) w1 ⟨hs1, hnone, hsome⟩
  · rw [made, if_pos (hnone rfl), vfsCreate, hparse]
    apply wp_bind (exfatCreate_holds ha hs1 hpos)
    rintro rc w2 ⟨hrc, hs2⟩
    apply wp_bind (vfsOpen_writes ha hpos hfuel hs2 hparse hshort)
    rintro n w3 ⟨hs3, hnone3, hsome3⟩
    refine wp_pure ⟨?_, hs3, hnone3, fun file hfile => (hsome3 file hfile).2⟩
    rw [← refusal_code, ← hrc]
    rfl
  · obtain ⟨hthere, hwrites⟩ := hsome file rfl
    rw [made, if_neg hthere]
    refine wp_pure ⟨rfl, hs1, nofun, ?_⟩
    rintro _ ⟨⟩
    exact hwrites

theorem write_prints {args buf : List UInt8} (h : RootIs t D.fs) (hp : OnRoot t path) (ha : AllocOk H)
    (hpos : 0 < D.fs.clusterSize) (hfuel : D.fs.entries ≤ fuel) (hs : Exfat.Holds D (D.vol w) s)
    (hargs : (Command.write path buf).Args args) (hshort : buf.length < 2 ^ 31) :
    Prints D s (.write path buf) w (write fuel t cwd args) := by
  obtain ⟨hpath, hbuf⟩ := write_split hargs hp.short
  obtain ⟨full, hparse, hrun⟩ := withPath_root (H := H) cwd h hp (text "usage: write <path> <text>\n")
  rw [Prints, write, hpath, hbuf, hrun]
  apply wp_bind (openOrCreate_writes ha hpos hfuel hs hparse hshort)
  rintro ⟨out, _ | file⟩ w1 ⟨rfl, hs1, hnone, hsome⟩
  · have hmiss := serve_missing buf (hnone rfl)
    refine wp_pure ⟨?_, ?_⟩
    · simp only [answer, hmiss, if_true]
    · simp only [answer, hmiss]
      exact hs1
  · apply wp_bind (hsome file rfl)
    rintro r w2 ⟨hr, hs2⟩
    refine wp_pure ⟨?_, hs2⟩
    simp only [answer, hr]
    rcases put_code hr with hrc | hrc
    · simp [hrc]
    · simp [hrc]

end Answers

section Session

variable [KernelAlloc H] {w : World σ H} {fuel : ℕ}

def handleLines (fuel : ℕ) (t : Mounts σ) (cwd : Cwd) : List (List UInt8) → Io σ H (List (Option (List UInt8)))
  | [] => pure []
  | line :: lines => do
    let first ← (match handleLine fuel t cwd line with
      | none => pure none
      | some run => do
        let out ← run
        pure (some out))
    let rest ← handleLines fuel t cwd lines
    pure (first :: rest)

theorem handleLine_prints (cwd : Cwd) (h : RootIs t D.fs) (ha : AllocOk H) (hpos : 0 < D.fs.clusterSize)
    (hfuel : D.fs.entries * D.fs.clusterSize < fuel) (hs : Exfat.Holds D (D.vol w) s) (hline : c.Typed line)
    (hmount : Mounted t.names (firstComp c.path.tail) → firstComp c.path.tail = rootName) :
    ∃ run, handleLine fuel t cwd line = some run ∧ Prints D s c w run := by
  have hent : D.fs.entries ≤ fuel := (Nat.le_mul_of_pos_right _ hpos).trans hfuel.le
  obtain ⟨args, hcommand, hargs, hlen⟩ := hline.command
  have hon := hline.onRoot hmount
  rw [handleLine, hcommand]
  cases c with
  | onPath verb path =>
    obtain rfl : args = path := hargs
    have hp := hon hlen
    cases verb with
    | cat => exact ⟨_, rfl, cat_prints h hp ha hpos hfuel hs⟩
    | stat => exact ⟨_, rfl, stat_prints h hp ha hpos hs⟩
    | touch => exact ⟨_, rfl, touch_prints h hp ha hpos hs⟩
    | rm => exact ⟨_, rfl, rm_prints h hp ha hpos hent hs⟩
  | write path buf =>
    have hsum := write_length hargs
    exact ⟨_, rfl, write_prints h (hon (by simp only [Command.path]; omega)) ha hpos hent hs hargs (by omega)⟩

def TypedAll (t : Mounts σ) (lines : List (List UInt8)) (cs : List Command) : Prop :=
  List.Forall₂ (fun line c => c.Typed line ∧ (Mounted t.names (firstComp c.path.tail) → firstComp c.path.tail = rootName))
    lines cs

theorem handleLines_prints (h : RootIs t D.fs) (ha : AllocOk H) (hpos : 0 < D.fs.clusterSize)
    (hfuel : D.fs.entries * D.fs.clusterSize < fuel) {lines : List (List UInt8)} {cs : List Command}
    (hlines : TypedAll t lines cs) (hs : Exfat.Holds D (D.vol w) s) :
    Wp (handleLines fuel t cwd lines) w fun out w' =>
      out = (answers cs s).1.map some ∧ Exfat.Holds D (D.vol w') (answers cs s).2 := by
  induction hlines generalizing w s with
  | nil => exact wp_pure ⟨rfl, hs⟩
  | @cons line c _ _ hline _ ih =>
    obtain ⟨run, hrun, hprints⟩ := handleLine_prints cwd h ha hpos hfuel hs hline.1 hline.2
    rw [handleLines, hrun]
    apply wp_bind (R := fun r w1 => r = some (answer s c).1 ∧ Exfat.Holds D (D.vol w1) (answer s c).2)
    · apply wp_bind hprints
      rintro _ w1 ⟨rfl, hs1⟩
      exact wp_pure ⟨rfl, hs1⟩
    rintro _ w1 ⟨rfl, hs1⟩
    apply wp_bind (ih hs1)
    rintro _ w2 ⟨rfl, hs2⟩
    exact wp_pure ⟨rfl, hs2⟩

section Granted

/-! The same lines on a heap that may run out of room. -/

variable {T : Tie (World σ H) (World σ (Watched H))} {full args : List UInt8} {p : CString}

omit [KernelAlloc H] in
theorem withPath_matches {run : List UInt8 → Io σ H (List UInt8)} {run' : List UInt8 → Io σ (Watched H) (List UInt8)}
    (cwd : Cwd) (h : RootIs t D.fs) (hp : OnRoot t path) (usage : List UInt8)
    (hrun : ∀ full, t.parse full = some (.exfat D.fs, rootPath path) → Matches T (run full) (run' full)) :
    Matches T (withPath t cwd usage path run) (withPath t cwd usage path run') := by
  obtain ⟨full, hfull, hparse⟩ := fullPath_root cwd h hp
  have hne : path ≠ [] := by
    rintro rfl
    cases hp.absolute
  rw [withPath, withPath, if_neg hne, if_neg hne, hfull]
  exact hrun full hparse

theorem vfsOpen_simulates (hparse : t.parse full = some (.exfat D.fs, p)) : Simulates (Both Eq watch)
    (fun r s => r = s ∧ ∀ file ∈ s, ∃ node, file = .exfat D.fs node) (vfsOpen t full : Io σ H _) (vfsOpen t full) := by
  unfold vfsOpen
  rw [hparse]
  apply Simulates.bind (exfatOpen_matches (disk_sameAnswers D) (disk_sized D) sameRoom_watch p)
  rintro n _ rfl
  refine simulates_pure ⟨rfl, fun file hfile => ?_⟩
  obtain ⟨node, -, rfl⟩ := Option.map_eq_some_iff.mp hfile
  exact ⟨node, rfl⟩

theorem vfsCreate_matches (hparse : t.parse full = some (.exfat D.fs, p)) :
    Matches (Both Eq watch) (vfsCreate t full : Io σ H _) (vfsCreate t full) := by
  unfold vfsCreate
  rw [hparse]
  exact exfatCreate_matches (disk_sameAnswers D) (disk_sized D) sameRoom_watch p

theorem catLoop_matches (node : Exfat.Node) (n off : ℕ) : Matches (Both Eq watch)
    (catLoop fuel (.exfat D.fs node) n off : Io σ H _) (catLoop fuel (.exfat D.fs node) n off) := by
  induction n generalizing off with
  | zero => exact matches_stop _
  | succ n ih =>
    apply Matches.bind (exfatRead_matches (disk_sameAnswers D) (disk_sized D) sameRoom_watch node off 256)
    intro r
    split_ifs
    · exact matches_pure _
    · exact (ih _).bind fun _ => matches_pure _

theorem onPath_matches (fuel : ℕ) (cwd : Cwd) (h : RootIs t D.fs) (hp : OnRoot t path) :
    Matches (Both Eq watch) (touch t cwd path : Io σ H _) (touch t cwd path) ∧
      Matches (Both Eq watch) (rm fuel t cwd path : Io σ H _) (rm fuel t cwd path) ∧
      Matches (Both Eq watch) (stat t cwd path : Io σ H _) (stat t cwd path) ∧
      Matches (Both Eq watch) (cat fuel t cwd path : Io σ H _) (cat fuel t cwd path) := by
  refine ⟨?_, ?_, ?_, ?_⟩ <;> refine withPath_matches cwd h hp _ fun full hparse => ?_
  · exact (vfsCreate_matches hparse).bind fun _ => matches_pure _
  · rw [vfsUnlink, vfsUnlink, hparse]
    exact (exfatUnlink_matches (disk_sameAnswers D) (disk_sized D) sameRoom_watch fuel _).bind fun _ => matches_pure _
  · rw [vfsStat, vfsStat, hparse]
    apply (exfatStat_matches (disk_sameAnswers D) (disk_sized D) sameRoom_watch _).bind
    rintro (_ | ⟨sz, isdir⟩) <;> exact matches_pure _
  · apply (vfsOpen_simulates hparse).bind
    rintro r _ ⟨rfl, hfile⟩
    cases r with
    | none => exact matches_pure _
    | some file =>
      obtain ⟨node, rfl⟩ := hfile file rfl
      exact (catLoop_matches node fuel 0).bind fun _ => matches_pure _

theorem openOrCreate_simulates (hparse : t.parse full = some (.exfat D.fs, p)) : Simulates (Both Eq watch)
    (fun r s => r = s ∧ ∀ file ∈ s.2, ∃ node, file = .exfat D.fs node) (openOrCreate t full : Io σ H _)
    (openOrCreate t full) := by
  apply (vfsOpen_simulates hparse).bind
  rintro r _ ⟨rfl, hfile⟩
  cases r with
  | some file => exact simulates_pure ⟨rfl, hfile⟩
  | none =>
    apply Simulates.bind (vfsCreate_matches hparse)
    rintro rc _ rfl
    apply (vfsOpen_simulates hparse).bind
    rintro file _ ⟨rfl, hfile⟩
    exact simulates_pure ⟨rfl, hfile⟩

theorem write_matches (cwd : Cwd) (h : RootIs t D.fs) (hp : OnRoot t path)
    (hargs : (args.takeWhile fun c => !isWs c).take 191 = path) :
    Matches (Both Eq watch) (write fuel t cwd args : Io σ H _) (write fuel t cwd args) := by
  unfold write
  rw [hargs]
  refine withPath_matches cwd h hp _ fun full hparse => ?_
  apply (openOrCreate_simulates hparse).bind
  rintro ⟨out, file⟩ _ ⟨rfl, hfile⟩
  cases file with
  | none => exact matches_pure _
  | some file =>
    obtain ⟨node, rfl⟩ := hfile file rfl
    have hwrite : Matches (Both Eq watch)
        (vfsWrite fuel (.exfat D.fs node) 0 ((args.drop path.length).dropWhile isWs) : Io σ H _)
        (vfsWrite fuel (.exfat D.fs node) 0 ((args.drop path.length).dropWhile isWs)) := by
      apply Matches.bind (exfatWrite_matches (disk_sameAnswers D) (disk_sized D) sameRoom_watch fuel node 0 _)
      exact fun _ => matches_pure _
    exact hwrite.bind fun _ => matches_pure _

theorem handleLine_matches (fuel : ℕ) (cwd : Cwd) (h : RootIs t D.fs) (hline : c.Typed line)
    (hmount : Mounted t.names (firstComp c.path.tail) → firstComp c.path.tail = rootName) :
    ∃ (run : Io σ H (List UInt8)) (run' : Io σ (Watched H) (List UInt8)), handleLine fuel t cwd line = some run ∧
      handleLine fuel t cwd line = some run' ∧ Matches (Both Eq watch) run run' := by
  obtain ⟨args, hcommand, hargs, hlen⟩ := hline.command
  simp only [handleLine, hcommand]
  cases c with
  | onPath verb path =>
    obtain rfl : args = path := hargs
    obtain ⟨htouch, hrm, hstat, hcat⟩ := onPath_matches (H := H) fuel cwd h (hline.onRoot hmount hlen)
    cases verb with
    | cat => exact ⟨_, _, rfl, rfl, hcat⟩
    | stat => exact ⟨_, _, rfl, rfl, hstat⟩
    | touch => exact ⟨_, _, rfl, rfl, htouch⟩
    | rm => exact ⟨_, _, rfl, rfl, hrm⟩
  | write path buf =>
    have hsum := write_length hargs
    have hpath : path.length ≤ 127 := by omega
    exact ⟨_, _, rfl, rfl, write_matches cwd h (hline.onRoot hmount hpath) (write_split hargs hpath).1⟩

theorem handleLines_matches (fuel : ℕ) (cwd : Cwd) (h : RootIs t D.fs) {lines : List (List UInt8)} {cs : List Command}
    (hlines : TypedAll t lines cs) :
    Matches (Both Eq watch) (handleLines fuel t cwd lines : Io σ H _) (handleLines fuel t cwd lines) := by
  induction hlines with
  | nil => exact matches_pure _
  | @cons line c _ _ hline _ ih =>
    obtain ⟨run, run', hrun, hrun', hmatches⟩ := handleLine_matches (H := H) fuel cwd h hline.1 hline.2
    rw [handleLines, handleLines, hrun, hrun']
    apply Matches.bind (hmatches.bind fun _ => matches_pure _)
    intro first
    exact ih.bind fun _ => matches_pure _

end Granted

def ram0Mounts : Mounts Memory := ⟨[⟨devName, .devfs⟩, ⟨rootName, .exfat ram0Volume.fs⟩], []⟩

def threeLines : List (List UInt8) := [text "write /a  hi", text " cat\t/root/a", text "rm /a"]

def threeCommands : List Command :=
  [.write (text "/a") (text "hi"), .onPath .cat (text "/root/a"), .onPath .rm (text "/a")]

theorem threeLines_typed : TypedAll ram0Mounts threeLines threeCommands := by
  have hnone : Command.Blank [] := by simp [Command.Blank]
  have hone : Command.Blank [32] ∧ Command.Blank [9] ∧ Command.Blank [32, 32] := by simp [Command.Blank, isWs]
  have hwrite : (Command.write (text "/a") (text "hi")).Args (text "/a  hi") :=
    ⟨[32, 32], by decide, hone.2.2, plain_of_all (by decide), fun c hc => Option.some.inj hc ▸ rfl, by decide⟩
  refine .cons ⟨⟨by decide, rfl, [], [32], _, by decide, hnone, hone.1, by decide, hwrite⟩, by decide⟩ ?_
  refine .cons ⟨⟨by decide, rfl, [32], [9], _, by decide, hone.1, hone.2.1, by decide, rfl⟩, by decide⟩ ?_
  exact .cons ⟨⟨by decide, rfl, [], [32], _, by decide, hnone, hone.1, by decide, rfl⟩, by decide⟩ .nil

end Session

end DexOs.Shell
