import DexOs.Vfs
import Mathlib.Data.List.TakeWhile

/-! The mount table as a map from names to file systems. -/

namespace DexOs.Vfs

variable {σ ν α : Type} {v : Table σ ν} {m n : List UInt8} {mounts : List (Mount σ ν)}

section Names

theorem strEq_iff (a b : List UInt8) : strEq a b = true ↔ a = b := by
  induction a generalizing b with
  | nil => cases b <;> simp [strEq]
  | cons x a ih => cases b <;> simp [strEq, ih]

theorem strEq_eq (a b : List UInt8) : strEq a b = decide (a = b) := by
  rw [Bool.eq_iff_iff, strEq_iff, decide_eq_true_iff]

def parsed (m : List UInt8) : List UInt8 := (m.takeWhile (· ≠ 58)).take 7

theorem takeWhile_colon (m sub : List UInt8) : (m ++ 58 :: sub).takeWhile (· ≠ 58) = m.takeWhile (· ≠ 58) := by
  induction m with
  | nil => rfl
  | cons c m ih =>
    rw [List.cons_append, List.takeWhile_cons, List.takeWhile_cons, ih]

theorem dropWhile_colon (m sub : List UInt8) :
    (m ++ 58 :: sub).dropWhile (· ≠ 58) = m.dropWhile (· ≠ 58) ++ 58 :: sub := by
  induction m with
  | nil => rfl
  | cons c m ih =>
    rw [List.cons_append, List.dropWhile_cons, List.dropWhile_cons, ih]
    split <;> rfl

theorem splitPath_colon (m sub : List UInt8) : ∃ rest, splitPath (m ++ 58 :: sub) = some (parsed m, rest) ∧
    (58 ∉ m → rest = sub) := by
  rw [splitPath, dropWhile_colon, takeWhile_colon]
  cases h : m.dropWhile (· ≠ 58) with
  | nil => exact ⟨sub, rfl, fun _ => rfl⟩
  | cons c rest =>
    refine ⟨rest ++ 58 :: sub, rfl, fun hm => absurd h ?_⟩
    have hall : m.dropWhile (· ≠ 58) = [] := by
      rw [List.dropWhile_eq_nil_iff]
      intro c hc
      simpa using ne_of_mem_of_not_mem hc hm
    rw [hall]
    simp

/-- A name that a path can name: not empty, without a colon, and at most 7 bytes long. -/
def Plain (n : List UInt8) : Prop := n ≠ [] ∧ 58 ∉ n ∧ n.length ≤ 7

instance (n : List UInt8) : Decidable (Plain n) := inferInstanceAs (Decidable (_ ∧ _))

theorem Plain.strCpy_eq (h : Plain n) : strCpy 8 n = n := List.take_of_length_le h.2.2

theorem parsed_eq_of_plain (h : 58 ∉ n) (hl : n.length ≤ 7) : parsed n = n := by
  have hall : n.takeWhile (· ≠ 58) = n := by
    rw [List.takeWhile_eq_self_iff]
    intro c hc
    simpa using ne_of_mem_of_not_mem hc h
  rw [parsed, hall, List.take_of_length_le hl]

theorem parsed_eq_iff : parsed n = n ↔ 58 ∉ n ∧ n.length ≤ 7 := by
  constructor
  · intro h
    constructor
    · intro hm
      rw [← h] at hm
      have := List.mem_takeWhile_imp (List.mem_of_mem_take hm)
      simp at this
    · rw [← h]
      exact List.length_take_le ..
  · rintro ⟨h, hl⟩
    exact parsed_eq_of_plain h hl

end Names

section Map

abbrev Target (σ ν : Type) := FsOps σ ν × ℕ

inductive Event (σ ν : Type)
  | mounted (name : List UInt8) (target : Target σ ν)
  | unmounted (name : List UInt8)

def events (v : Table σ ν) : Call σ ν → List (Event σ ν)
  | .mount fsName mountName bdevName =>
    match (mountFs v fsName mountName bdevName).1 with
    | .ok target => [.mounted mountName target]
    | .error _ => []
  | .umount name => [.unmounted name]
  | _ => []

/-- The target of the most recent mount of exactly the name `m`, unless `m` has been unmounted since; the
latest event comes first. -/
def lastMount (m : List UInt8) : List (Event σ ν) → Option (Target σ ν)
  | [] => none
  | .mounted n target :: h => if n = m then some target else lastMount m h
  | .unmounted n :: h => if n = m then none else lastMount m h

def run (v : Table σ ν) (h : List (Event σ ν)) : List (Call σ ν) → Table σ ν × List (Event σ ν)
  | [] => (v, h)
  | c :: cs => run (step v c) (events v c ++ h) cs

/-- A mount that is accepted has a plain name that is not mounted yet. -/
def Fit (v : Table σ ν) : Call σ ν → Prop
  | .mount fsName mountName bdevName => ∀ target, (mountFs v fsName mountName bdevName).1 = .ok target →
    Plain mountName ∧ findMount v.mounts mountName = none
  | _ => True

def Orderly (v : Table σ ν) : List (Call σ ν) → Prop
  | [] => True
  | c :: cs => Fit v c ∧ Orderly (step v c) cs

def deliver (target : Option (Target σ ν)) (bad : α) (op : FsOps σ ν → Option (σ → ℕ → List UInt8 → α × σ))
    (sub : List UInt8) (w : σ) : α × σ :=
  match target with
  | none => (bad, w)
  | some t =>
    match op t.1 with
    | none => (bad, w)
    | some f => f w t.2 sub

structure Refines (v : Table σ ν) (h : List (Event σ ν)) (m : List UInt8) : Prop where
  target : ∀ sub, (parseMountAndSub v (m ++ 58 :: sub)).map (fun r => ((r.1.ops, r.1.fsPriv), r.2)) =
    (lastMount m h).map (·, sub)
  opened : ∀ sub, vfsOpen v (m ++ 58 :: sub) = deliver (lastMount m h) none FsOps.openPath sub v.world
  stat : ∀ sub, vfsStat v (m ++ 58 :: sub) = deliver (lastMount m h) (-1, none) FsOps.stat sub v.world
  create : ∀ sub size, vfsCreate v (m ++ 58 :: sub) size =
    deliver (lastMount m h) (-1) (fun ops => ops.create.map fun f w priv sub => f w priv sub size) sub v.world
  unlink : ∀ sub, vfsUnlink v (m ++ 58 :: sub) = deliver (lastMount m h) (-1) FsOps.unlink sub v.world
  hasMount : vfsHasMount v m = if (lastMount m h).isSome then 1 else 0

structure Inv (v : Table σ ν) (h : List (Event σ ν)) : Prop where
  plain : ∀ mt ∈ v.mounts, Plain mt.mname
  nodup : (v.mounts.map Mount.mname).Nodup
  lookup : ∀ n, (findMount v.mounts n).map (fun mt => (mt.ops, mt.fsPriv)) = lastMount n h

theorem findMount_eq (mounts : List (Mount σ ν)) (n : List UInt8) :
    findMount mounts n = mounts.find? fun mt => decide (mt.mname = n) := by
  simp only [findMount, strEq_eq]

theorem findMount_none : findMount mounts n = none ↔ n ∉ mounts.map Mount.mname := by
  rw [findMount_eq, List.find?_eq_none]
  simp

theorem findMount_append (mounts : List (Mount σ ν)) (mt : Mount σ ν) (n : List UInt8) :
    findMount (mounts ++ [mt]) n = (findMount mounts n).or (if mt.mname = n then some mt else none) := by
  rw [findMount_eq, findMount_eq, List.find?_append, List.find?_singleton]
  simp

theorem findMount_eraseP_of_ne (mounts : List (Mount σ ν)) (h : m ≠ n) :
    findMount (mounts.eraseP fun mt => strEq mt.mname n) m = findMount mounts m := by
  simp only [findMount_eq, strEq_eq]
  induction mounts with
  | nil => rfl
  | cons mt mounts ih =>
    rw [List.eraseP_cons]
    by_cases he : mt.mname = n
    · simp [he, Ne.symm h]
    · simp [he, List.find?_cons, ih]

theorem findMount_eraseP_self (h : (mounts.map Mount.mname).Nodup) :
    findMount (mounts.eraseP fun mt => strEq mt.mname n) n = none := by
  rw [findMount_none]
  simp only [strEq_eq]
  induction mounts with
  | nil => exact List.not_mem_nil
  | cons mt mounts ih =>
    obtain ⟨hnot, hn⟩ := List.nodup_cons.mp h
    rw [List.eraseP_cons]
    by_cases he : mt.mname = n
    · subst he
      simpa using hnot
    · rw [decide_eq_false he, cond_false, List.map_cons, List.mem_cons, not_or]
      exact ⟨Ne.symm he, ih hn⟩

theorem Inv.of_mounts {v' : Table σ ν} {h : List (Event σ ν)} (hi : Inv v h) (he : v'.mounts = v.mounts) : Inv v' h := by
  obtain ⟨hplain, hnodup, hlook⟩ := hi
  exact ⟨by rwa [he], by rwa [he], by rwa [he]⟩

theorem mount_inv {h : List (Event σ ν)} {f b : List UInt8} (hi : Inv v h) (hf : Fit v (.mount f n b)) :
    Inv (step v (.mount f n b)) (events v (.mount f n b) ++ h) := by
  have hstep : step v (.mount f n b) = (vfsMount v f n b).2 := rfl
  rw [events, hstep, vfsMount]
  cases hr : mountFs v f n b with
  | mk r w =>
    cases r with
    | error rc => exact hi.of_mounts rfl
    | ok target =>
      obtain ⟨hplain, hfree⟩ := hf target (by rw [hr])
      constructor
      case plain =>
        intro mt hmt
        rcases List.mem_append.mp hmt with hmt | hmt
        · exact hi.plain mt hmt
        · obtain rfl := List.mem_singleton.mp hmt
          dsimp only
          rwa [hplain.strCpy_eq]
      case nodup =>
        dsimp only
        rw [List.map_append, List.nodup_append, List.map_singleton, hplain.strCpy_eq]
        refine ⟨hi.nodup, by simp, fun a ha b hb => ?_⟩
        rw [List.mem_singleton.mp hb]
        exact ne_of_mem_of_not_mem ha (findMount_none.mp hfree)
      case lookup =>
        intro k
        dsimp only
        rw [List.singleton_append, lastMount, findMount_append, hplain.strCpy_eq, ← hi.lookup k]
        split
        case isTrue he => rw [← he, hfree]; rfl
        case isFalse => rw [Option.or_none]

theorem umount_inv {h : List (Event σ ν)} (hi : Inv v h) : Inv (step v (.umount n)) (events v (.umount n) ++ h) := by
  have hmounts : (step v (.umount n)).mounts = v.mounts.eraseP fun mt => strEq mt.mname n := by
    rw [step, vfsUmount]
    cases hfind : findMount v.mounts n with
    | some mt => rfl
    | none =>
      refine (List.eraseP_of_forall_not fun mt hmt => ?_).symm
      exact List.find?_eq_none.mp hfind mt hmt
  have hsub : (step v (.umount n)).mounts.Sublist v.mounts := by
    rw [hmounts]
    exact List.eraseP_sublist
  constructor
  case plain =>
    intro mt hmt
    exact hi.plain mt (hsub.subset hmt)
  case nodup => exact hi.nodup.sublist (hsub.map _)
  case lookup =>
    intro k
    rw [events, List.singleton_append, lastMount, hmounts]
    split
    case isTrue he => rw [← he, findMount_eraseP_self hi.nodup]; rfl
    case isFalse he => rw [findMount_eraseP_of_ne _ (Ne.symm he), hi.lookup k]

theorem step_inv {h : List (Event σ ν)} {c : Call σ ν} (hi : Inv v h) (hf : Fit v c) : Inv (step v c) (events v c ++ h) := by
  cases c with
  | register name ops =>
    apply hi.of_mounts
    rw [step, vfsRegisterFs]
    split <;> rfl
  | mount f n b => exact mount_inv hi hf
  | umount n => exact umount_inv hi
  | use devices world => exact hi.of_mounts rfl

theorem run_inv {h : List (Event σ ν)} {calls : List (Call σ ν)} (hi : Inv v h) (ho : Orderly v calls) :
    Inv (run v h calls).1 (run v h calls).2 := by
  induction calls generalizing v h with
  | nil => exact hi
  | cons c calls ih => exact ih (step_inv hi ho.1) ho.2

end Map

section Paths

variable {h : List (Event σ ν)}

theorem Inv.mounted_plain (hi : Inv v h) (hm : lastMount m h ≠ none) : Plain m := by
  rw [← hi.lookup m, ne_eq, Option.map_eq_none_iff, findMount_none, not_not] at hm
  obtain ⟨mt, hmt, rfl⟩ := List.mem_map.mp hm
  exact hi.plain mt hmt

theorem onPath_eq {target : Option (Target σ ν)} {path sub : List UInt8} (bad : α)
    (op : FsOps σ ν → Option (σ → ℕ → List UInt8 → α × σ))
    (ht : (parseMountAndSub v path).map (fun r => ((r.1.ops, r.1.fsPriv), r.2)) = target.map (·, sub)) :
    onPath v bad op path = deliver target bad op sub v.world := by
  rw [onPath]
  cases hp : parseMountAndSub v path with
  | none =>
    rw [hp, Option.map_none] at ht
    rw [Option.map_eq_none_iff.mp ht.symm]
    rfl
  | some r =>
    rw [hp, Option.map_some] at ht
    obtain ⟨t, rfl, heq⟩ := Option.map_eq_some_iff.mp ht.symm
    rw [Prod.mk.injEq] at heq
    obtain ⟨rfl, rfl⟩ := heq
    rfl

theorem refines_of_target (hi : Inv v h)
    (ht : ∀ sub, (parseMountAndSub v (m ++ 58 :: sub)).map (fun r => ((r.1.ops, r.1.fsPriv), r.2)) =
      (lastMount m h).map (·, sub)) : Refines v h m where
  target := ht
  opened sub := onPath_eq none _ (ht sub)
  stat sub := onPath_eq (-1, none) _ (ht sub)
  create sub size := onPath_eq (-1) _ (ht sub)
  unlink sub := onPath_eq (-1) _ (ht sub)
  hasMount := by
    have hany : (v.mounts.any fun mt => strEq mt.mname m) = (lastMount m h).isSome := by
      rw [← hi.lookup m, Option.isSome_map, findMount, List.isSome_find?]
    rw [vfsHasMount, hany]
    split
    case isTrue he =>
      rw [if_neg]
      intro hs
      exact (hi.mounted_plain (Option.isSome_iff_ne_none.mp hs)).1 he
    case isFalse => rfl

theorem parse_colon (m sub : List UInt8) : ∃ rest, (58 ∉ m → rest = sub) ∧
    parseMountAndSub v (m ++ 58 :: sub) = (findMount v.mounts (parsed m)).map (·, rest) := by
  obtain ⟨rest, hsplit, hrest⟩ := splitPath_colon m sub
  exact ⟨rest, hrest, by rw [parseMountAndSub, hsplit, Option.bind_some]⟩

theorem refines_iff (hi : Inv v h) : Refines v h m ↔ parsed m = m ∨ lastMount (parsed m) h = none := by
  constructor
  · intro hr
    by_contra! hbad
    obtain ⟨hne, hmounted⟩ := hbad
    have hnot : lastMount m h = none := by
      by_contra hm
      obtain ⟨-, hcolon, hlen⟩ := hi.mounted_plain hm
      exact hne (parsed_eq_of_plain hcolon hlen)
    have ht := hr.target []
    obtain ⟨rest, -, hparse⟩ := parse_colon (v := v) m []
    rw [hnot, hparse, Option.map_none, Option.map_eq_none_iff, Option.map_eq_none_iff] at ht
    rw [← hi.lookup, ht] at hmounted
    exact hmounted rfl
  · intro hc
    apply refines_of_target hi
    intro sub
    obtain ⟨rest, hrest, hparse⟩ := parse_colon (v := v) m sub
    by_cases hm : parsed m = m
    · obtain ⟨hcolon, -⟩ := parsed_eq_iff.mp hm
      rw [hparse, hrest hcolon, hm, ← hi.lookup, Option.map_map, Option.map_map]
      rfl
    · have hnone := hc.resolve_left hm
      have hnot : lastMount m h = none := by
        by_contra hl
        obtain ⟨-, hcolon, hlen⟩ := hi.mounted_plain hl
        exact hm (parsed_eq_of_plain hcolon hlen)
      rw [← hi.lookup, Option.map_eq_none_iff] at hnone
      rw [hparse, hnone, hnot]
      rfl

theorem mountFs_error {f b : List UInt8} {rc : ℤ} (h : (mountFs v f n b).1 = .error rc) : rc ≠ 0 := by
  rw [mountFs] at h
  split at h
  · cases h
    decide
  · split at h
    · cases h
      decide
    · split at h
      · cases h
        decide
      · split at h
        · cases h
        · dsimp only at h
          split at h
          case isTrue hne => cases h; exact hne
          case isFalse => cases h

theorem vfsMount_fails (v : Table σ ν) (f n b : List UInt8) :
    ((vfsMount v f n b).1 = 0 ↔ ∃ target, (mountFs v f n b).1 = .ok target) ∧
      ((vfsMount v f n b).1 ≠ 0 → (vfsMount v f n b).2.mounts = v.mounts) := by
  rw [vfsMount]
  cases hr : mountFs v f n b with
  | mk r w =>
    cases r with
    | error rc =>
      have herr : (mountFs v f n b).1 = .error rc := by rw [hr]
      have hne := mountFs_error herr
      refine ⟨iff_of_false hne ?_, fun _ => rfl⟩
      rintro ⟨target, ht⟩
      cases ht
    | ok target => exact ⟨iff_of_true rfl ⟨target, rfl⟩, fun hne => absurd rfl hne⟩

theorem empty_inv (fs : List (List UInt8 × FsOps σ ν)) (devices : List (BlockDevice σ)) (w : σ) :
    Inv ⟨fs, [], devices, w⟩ [] where
  plain _ hmt := absurd hmt List.not_mem_nil
  nodup := List.nodup_nil
  lookup _ := rfl

/-- After every run in which accepted mounts have plain new names, the table behaves as the map of the
last mounts on exactly those names that the path parser gives back unchanged, or under whose parsed form
nothing is mounted. -/
theorem mount_table_is_map (fs : List (List UInt8 × FsOps σ ν)) (devices : List (BlockDevice σ)) (w : σ)
    (calls : List (Call σ ν)) (ho : Orderly ⟨fs, [], devices, w⟩ calls) :
    (∀ m, Refines (run ⟨fs, [], devices, w⟩ [] calls).1 (run ⟨fs, [], devices, w⟩ [] calls).2 m ↔
      parsed m = m ∨ lastMount (parsed m) (run ⟨fs, [], devices, w⟩ [] calls).2 = none) ∧
      ∀ f n b, (vfsMount (run ⟨fs, [], devices, w⟩ [] calls).1 f n b).1 ≠ 0 →
        (vfsMount (run ⟨fs, [], devices, w⟩ [] calls).1 f n b).2.mounts =
          (run ⟨fs, [], devices, w⟩ [] calls).1.mounts :=
  ⟨fun _ => refines_iff (run_inv (empty_inv fs devices w) ho), fun f n b => (vfsMount_fails _ f n b).2⟩

def sampleDevice (name : List UInt8) (n : ℕ) : BlockDevice Unit := ⟨name, 512, n, none, none⟩

def sampleOps : FsOps Unit ℕ where
  mount := some fun w dev _ => ((0, (dev.map BlockDevice.sectorCount).getD 0), w)
  umount := none
  openPath := some fun w priv _ => (some priv, w)
  stat := none
  create := none
  unlink := none

def sampleTable : Table Unit ℕ :=
  ⟨[([101, 120, 102, 97, 116], sampleOps)], [], [sampleDevice [114, 97, 109, 48] 7, sampleDevice [104, 100, 112, 49] 9], ()⟩

def mountRoot (dev : List UInt8) : Call Unit ℕ := .mount [101, 120, 102, 97, 116] [114, 111, 111, 116] dev

theorem mountRoot_fit (dev : List UInt8) : Fit sampleTable (mountRoot dev) := fun _ _ => ⟨by decide, rfl⟩

theorem mount_table_is_map_root :
    lastMount [114, 111, 111, 116] (run sampleTable [] [mountRoot [114, 97, 109, 48]]).2 = some (sampleOps, 7) ∧
      (vfsOpen (run sampleTable [] [mountRoot [114, 97, 109, 48]]).1 [114, 111, 111, 116, 58, 120]).1 = some 7 ∧
      Refines (run sampleTable [] [mountRoot [114, 97, 109, 48]]).1 (run sampleTable [] [mountRoot [114, 97, 109, 48]]).2
        [114, 111, 111, 116] :=
  ⟨rfl, rfl, ((mount_table_is_map _ _ _ [mountRoot [114, 97, 109, 48]] ⟨mountRoot_fit _, trivial⟩).1 _).mpr (.inl rfl)⟩

theorem second_root_is_hidden :
    lastMount [114, 111, 111, 116] (run sampleTable [] [mountRoot [114, 97, 109, 48], mountRoot [104, 100, 112, 49]]).2 =
        some (sampleOps, 9) ∧
      (vfsOpen (run sampleTable [] [mountRoot [114, 97, 109, 48], mountRoot [104, 100, 112, 49]]).1
        [114, 111, 111, 116, 58, 120]).1 = some 7 ∧
      ¬ Refines (run sampleTable [] [mountRoot [114, 97, 109, 48], mountRoot [104, 100, 112, 49]]).1
        (run sampleTable [] [mountRoot [114, 97, 109, 48], mountRoot [104, 100, 112, 49]]).2 [114, 111, 111, 116] := by
  refine ⟨rfl, rfl, fun hr => ?_⟩
  have ht := congrArg (Option.map fun r => r.1.2) (hr.target [])
  exact absurd ht (by decide)

end Paths

end DexOs.Vfs
