import DexOs.Lib.Tokens
import DexOs.RamdiskCreate
import Mathlib.Data.List.Sigma

/-! How `shell_handle_line` cuts the arguments of `mount`, `mkram`, `mkexfat` and `mkfs` out of a line. A line is a
list of characters of any kind with a byte in each: with its place in the line beside each byte, the arguments tell
from which token they come. -/

namespace DexOs.Shell

open DexOs.Lib

def isWs (c : UInt8) : Bool := c = 32 || c = 9

def exfatName : List UInt8 := [101, 120, 102, 97, 116]

variable {α : Type} (byte : α → UInt8)

def mountArgs (args : List α) : Option (List (List α)) :=
  let (fs, a) := nextField (isWs ∘ byte) 7 args
  let (mnt, a) := nextField (isWs ∘ byte) 7 a
  let (dev, _) := nextField (isWs ∘ byte) 15 a
  if fs = [] ∨ mnt = [] then none else some [fs, mnt, dev]

def mkramArgs (args : List α) : Option (List (List α)) :=
  let (name, a) := nextField (isWs ∘ byte) 15 args
  let a := a.dropWhile (isWs ∘ byte)
  let sz := mkramSize 0 (a.map byte)
  if name = [] ∨ sz = 0 then none else some [name, a.takeWhile fun c => (hexDigit (byte c)).isSome]

def mkexfatArgs (args : List α) : Option (List (List α)) :=
  let (dev, a) := nextField (isWs ∘ byte) 15 args
  let (label, _) := nextField (isWs ∘ byte) 15 a
  if dev = [] then none else some [dev, label]

def mkfsArgs (args : List α) : Option (List (List α)) :=
  let (fs, a) := nextField (isWs ∘ byte) 7 args
  let (dev, a) := nextField (isWs ∘ byte) 15 a
  let (label, _) := nextField (isWs ∘ byte) 15 a
  if fs = [] ∨ dev = [] then none
  else if fs.map byte = exfatName then some [fs, dev, label]
  else none

def placedTokens (line : List UInt8) : List (List (UInt8 × ℕ)) := tokens (isWs ∘ Prod.fst) line.zipIdx

/-- Unless the command refuses the line, its arguments are the tokens, each in its place and cut by `expected`. -/
def Separates (command : List (UInt8 × ℕ) → Option (List (List (UInt8 × ℕ))))
    (expected : List (List (UInt8 × ℕ)) → Option (List (List (UInt8 × ℕ)))) (line : List UInt8) : Prop :=
  ∀ args, command line.zipIdx = some args → expected (placedTokens line) = some args

def mkramInPlace : List (List α) → Option (List (List α))
  | [] => some [[], []]
  | [t] => some [t.take 15, []]
  | [t, size] => some [t.take 15, size]
  | _ => none

def isHex (c : UInt8) : Bool := (hexDigit c).isSome

def sizeText (ts : List (List α)) : List α := (afterField 15 ts).headD []

section Commands

variable {byte} {args : List α} {ts : List (List α)}

theorem mountArgs_eq (args : List α) :
    mountArgs byte args =
      let ts := tokens (isWs ∘ byte) args
      if firstField 7 ts = [] ∨ firstField 7 (afterField 7 ts) = [] then none else some (fields [7, 7, 15] ts) := by
  obtain ⟨h1, t1⟩ := nextField_tokens (isWs ∘ byte) 7 args
  obtain ⟨h2, t2⟩ := nextField_tokens (isWs ∘ byte) 7 (nextField (isWs ∘ byte) 7 args).2
  obtain ⟨h3, -⟩ := nextField_tokens (isWs ∘ byte) 15 (nextField (isWs ∘ byte) 7 (nextField (isWs ∘ byte) 7 args).2).2
  unfold mountArgs
  dsimp only
  rw [h3, t2, h2, t1, h1]
  rfl

theorem mkexfatArgs_eq (args : List α) :
    mkexfatArgs byte args =
      let ts := tokens (isWs ∘ byte) args
      if firstField 15 ts = [] then none else some (fields [15, 15] ts) := by
  obtain ⟨h1, t1⟩ := nextField_tokens (isWs ∘ byte) 15 args
  obtain ⟨h2, -⟩ := nextField_tokens (isWs ∘ byte) 15 (nextField (isWs ∘ byte) 15 args).2
  unfold mkexfatArgs
  dsimp only
  rw [h2, t1, h1]
  rfl

theorem mkfsArgs_eq (args : List α) :
    mkfsArgs byte args =
      let ts := tokens (isWs ∘ byte) args
      if (firstField 7 ts = [] ∨ firstField 15 (afterField 7 ts) = []) ∨ (firstField 7 ts).map byte ≠ exfatName then none
      else some (fields [7, 15, 15] ts) := by
  obtain ⟨h1, t1⟩ := nextField_tokens (isWs ∘ byte) 7 args
  obtain ⟨h2, t2⟩ := nextField_tokens (isWs ∘ byte) 15 (nextField (isWs ∘ byte) 7 args).2
  obtain ⟨h3, -⟩ := nextField_tokens (isWs ∘ byte) 15 (nextField (isWs ∘ byte) 15 (nextField (isWs ∘ byte) 7 args).2).2
  unfold mkfsArgs
  dsimp only
  rw [h3, t2, h2, t1, h1]
  split_ifs <;> first | rfl | tauto

theorem isHex_of_isWs (c : UInt8) (h : isWs c) : isHex c = false := by
  rcases Bool.or_eq_true _ _ ▸ h with h | h
  · rw [of_decide_eq_true h]
    rfl
  · rw [of_decide_eq_true h]
    rfl

theorem mkramSize_takeWhile (sz : ℕ) (cs : List UInt8) : mkramSize sz (cs.takeWhile isHex) = mkramSize sz cs := by
  induction cs generalizing sz with
  | nil => rfl
  | cons c cs ih =>
    cases hc : hexDigit c with
    | none => rw [List.takeWhile_cons_of_neg (by rw [isHex, hc]; decide), mkramSize, mkramSize, hc]
    | some v =>
      rw [List.takeWhile_cons_of_pos (by rw [isHex, hc]; rfl), mkramSize, mkramSize, hc]
      exact ih _

theorem mkramArgs_eq (args : List α) :
    mkramArgs byte args =
      let ts := tokens (isWs ∘ byte) args
      if firstField 15 ts = [] ∨ mkramSize 0 ((sizeText ts).map byte) = 0 then none
      else some [firstField 15 ts, (sizeText ts).takeWhile (isHex ∘ byte)] := by
  obtain ⟨h1, t1⟩ := nextField_tokens (isWs ∘ byte) 15 args
  have hdigits : ((nextField (isWs ∘ byte) 15 args).2.dropWhile (isWs ∘ byte)).takeWhile (isHex ∘ byte) =
      ((tokens (isWs ∘ byte) (nextField (isWs ∘ byte) 15 args).2).headD []).takeWhile (isHex ∘ byte) :=
    takeWhile_firstToken (fun c => isHex_of_isWs (byte c)) _
  rw [t1] at hdigits
  have hsize : mkramSize 0 (((nextField (isWs ∘ byte) 15 args).2.dropWhile (isWs ∘ byte)).map byte) =
      mkramSize 0 ((sizeText (tokens (isWs ∘ byte) args)).map byte) := by
    rw [← mkramSize_takeWhile, List.takeWhile_map, ← mkramSize_takeWhile 0 (List.map byte (sizeText _)), List.takeWhile_map]
    exact congrArg (fun cs => mkramSize 0 (cs.map byte)) hdigits
  unfold mkramArgs
  dsimp only
  rw [h1, hsize]
  split_ifs
  · rfl
  · exact congrArg (fun cs => some [_, cs]) hdigits

theorem map_sizeText {β : Type} (f : β → α) (ts : List (List β)) : sizeText (ts.map (List.map f)) = (sizeText ts).map f := by
  rw [sizeText, sizeText, afterField_map]
  cases afterField 15 ts <;> rfl

theorem args_placed (line : List UInt8) :
    mountArgs id line = (mountArgs Prod.fst line.zipIdx).map (List.map (List.map Prod.fst)) ∧
    mkramArgs id line = (mkramArgs Prod.fst line.zipIdx).map (List.map (List.map Prod.fst)) ∧
    mkexfatArgs id line = (mkexfatArgs Prod.fst line.zipIdx).map (List.map (List.map Prod.fst)) ∧
    mkfsArgs id line = (mkfsArgs Prod.fst line.zipIdx).map (List.map (List.map Prod.fst)) := by
  have hts : tokens (isWs ∘ id) line = (tokens (isWs ∘ Prod.fst) line.zipIdx).map (List.map Prod.fst) := by
    rw [← tokens_map, List.zipIdx_map_fst, Function.comp_id]
  rw [mountArgs_eq, mountArgs_eq, mkramArgs_eq, mkramArgs_eq, mkexfatArgs_eq, mkexfatArgs_eq, mkfsArgs_eq, mkfsArgs_eq]
  simp only [hts, firstField_map, afterField_map, fields_map, map_sizeText, List.map_eq_nil_iff, List.map_id]
  refine ⟨?_, ?_, ?_, ?_⟩
  · split_ifs <;> rfl
  · split_ifs
    · rfl
    · rw [List.takeWhile_map]
      rfl
  · split_ifs <;> rfl
  · split_ifs <;> rfl

end Commands

section Places

variable {caps : List ℕ} {cap : ℕ} {ts : List (List α)}

theorem placedTokens_nodup (line : List UInt8) : (placedTokens line).flatten.Nodup := by
  rw [placedTokens, flatten_tokens]
  exact (List.Nodup.of_map _ (List.nodup_zipIdx_map_snd line)).filter _

theorem map_placedTokens (line : List UInt8) : (placedTokens line).map (List.map Prod.fst) = tokens isWs line := by
  rw [placedTokens, ← tokens_map, List.zipIdx_map_fst]

theorem fits_placedTokens (line : List UInt8) : Lib.Fits caps (placedTokens line) ↔ Lib.Fits caps (tokens isWs line) := by
  rw [← map_placedTokens, fits_map]

theorem firstField_eq_nil (hcap : 0 < cap) (hne : ∀ t ∈ ts, t ≠ []) (h : firstField cap ts = []) : ts = [] := by
  cases ts with
  | nil => rfl
  | cons t ts =>
    rcases List.take_eq_nil_iff.mp h with h | h
    · exact absurd h hcap.ne'
    · exact absurd h (hne t List.mem_cons_self)

theorem fits_of_firstField_eq_nil (hcap : 0 < cap) (hne : ∀ t ∈ ts, t ≠ []) (h : firstField cap ts = []) :
    Lib.Fits caps ts := by
  rw [firstField_eq_nil hcap hne h]
  exact fits_nil _

theorem afterField_ne_nil (hne : ∀ t ∈ ts, t ≠ []) : ∀ t ∈ afterField cap ts, t ≠ [] := by
  cases ts with
  | nil => exact hne
  | cons t ts =>
    have hrest : ∀ t ∈ ts, t ≠ [] := fun t' ht => hne t' (List.mem_cons_of_mem t ht)
    rw [afterField]
    split_ifs with hcap
    · exact hrest
    · rw [List.forall_mem_cons, Ne, List.drop_eq_nil_iff]
      exact ⟨hcap, hrest⟩

theorem fits_of_afterField_eq_nil {cap' : ℕ} (h : afterField cap ts = []) : Lib.Fits (cap :: cap' :: caps) ts := by
  cases ts with
  | nil => exact fits_nil _
  | cons t ts =>
    rw [afterField] at h
    split_ifs at h with hcap
    exact fits_cons.mpr ⟨hcap, h ▸ fits_nil _⟩

theorem copies_iff {R : Prop} [Decidable R] (hR : R → Lib.Fits caps ts) (hpos : ∀ cap ∈ caps, 0 < cap)
    (hnodup : ts.flatten.Nodup) :
    (∀ args, (if R then none else some (fields caps ts)) = some args → inPlace caps ts = some args) ↔ Lib.Fits caps ts := by
  by_cases h : R
  · rw [if_pos h]
    exact iff_of_true nofun (hR h)
  · rw [if_neg h, ← fields_inPlace_iff hpos hnodup]
    exact ⟨fun hall => hall _ rfl, fun heq args hargs => heq.trans hargs⟩

theorem mount_separates_iff (line : List UInt8) :
    Separates (mountArgs Prod.fst) (inPlace [7, 7, 15]) line ↔ Lib.Fits [7, 7, 15] (tokens isWs line) := by
  rw [Separates, mountArgs_eq, ← fits_placedTokens]
  have hne : ∀ t ∈ placedTokens line, t ≠ [] := fun t => ne_nil_of_mem_tokens
  refine copies_iff ?_ (by decide) (placedTokens_nodup line)
  rintro (h | h)
  · exact fits_of_firstField_eq_nil (by decide) hne h
  · exact fits_of_afterField_eq_nil (firstField_eq_nil (by decide) (afterField_ne_nil hne) h)

theorem mkexfat_separates_iff (line : List UInt8) :
    Separates (mkexfatArgs Prod.fst) (inPlace [15, 15]) line ↔ Lib.Fits [15, 15] (tokens isWs line) := by
  rw [Separates, mkexfatArgs_eq, ← fits_placedTokens]
  refine copies_iff ?_ (by decide) (placedTokens_nodup line)
  exact fits_of_firstField_eq_nil (by decide) fun t => ne_nil_of_mem_tokens

theorem exfatName_iff (ts : List (List (UInt8 × ℕ))) :
    (firstField 7 ts).map Prod.fst = exfatName ↔ (ts.map (List.map Prod.fst)).head? = some exfatName := by
  cases ts with
  | nil => exact iff_of_false (by decide) nofun
  | cons t ts =>
    rw [firstField, List.headD_cons, List.map_cons, List.head?_cons, Option.some_inj, List.map_take]
    constructor
    · intro h
      have hlen := congrArg List.length h
      rw [List.length_take] at hlen
      have hshort : (t.map Prod.fst).length ≤ 7 := by
        have hfive : min 7 (t.map Prod.fst).length = 5 := hlen
        omega
      rwa [List.take_of_length_le hshort] at h
    · intro h
      rw [h]
      rfl

theorem mkfs_separates_iff (line : List UInt8) :
    Separates (mkfsArgs Prod.fst) (inPlace [7, 15, 15]) line ↔
      ((tokens isWs line).head? = some exfatName → Lib.Fits [7, 15, 15] (tokens isWs line)) := by
  rw [Separates, mkfsArgs_eq, ← fits_placedTokens, ← map_placedTokens, ← exfatName_iff]
  have hne : ∀ t ∈ placedTokens line, t ≠ [] := fun t => ne_nil_of_mem_tokens
  change (∀ args, (if (firstField 7 (placedTokens line) = [] ∨ firstField 15 (afterField 7 (placedTokens line)) = []) ∨
    (firstField 7 (placedTokens line)).map Prod.fst ≠ exfatName then none else some _) = some args → _) ↔ _
  by_cases hname : (firstField 7 (placedTokens line)).map Prod.fst = exfatName
  · rw [imp_iff_right hname]
    refine copies_iff ?_ (by decide) (placedTokens_nodup line)
    rintro ((h | h) | h)
    · exact fits_of_firstField_eq_nil (by decide) hne h
    · exact fits_of_afterField_eq_nil (firstField_eq_nil (by decide) (afterField_ne_nil hne) h)
    · exact absurd hname h
  · rw [if_pos (.inr hname)]
    exact iff_of_true nofun fun h => absurd h hname

/-- The whole of the second token is a number, and there is no third. -/
def SizeFits (ts : List (List UInt8)) : Prop :=
  ts.length ≤ 2 ∧ (∀ t ∈ ts.take 1, t.length ≤ 15) ∧ ∀ t ∈ ts.drop 1, ∀ c ∈ t, isHex c

theorem digits_ne_nil {text : List (UInt8 × ℕ)} (h : mkramSize 0 (text.map Prod.fst) ≠ 0) :
    text.takeWhile (isHex ∘ Prod.fst) ≠ [] := by
  intro hnil
  rw [← mkramSize_takeWhile, List.takeWhile_map, hnil] at h
  exact h rfl

theorem mkram_inPlace_iff {ts : List (List (UInt8 × ℕ))} (hnodup : ts.flatten.Nodup)
    (hsize : mkramSize 0 ((sizeText ts).map Prod.fst) ≠ 0) :
    mkramInPlace ts = some [firstField 15 ts, (sizeText ts).takeWhile (isHex ∘ Prod.fst)] ↔
      SizeFits (ts.map (List.map Prod.fst)) := by
  have hdigits := digits_ne_nil hsize
  rcases ts with _ | ⟨t, _ | ⟨size, _ | ⟨extra, rest⟩⟩⟩
  · exact absurd rfl hsize
  · by_cases hcap : t.length ≤ 15
    · rw [sizeText, afterField, if_pos hcap] at hsize
      exact absurd rfl hsize
    · refine iff_of_false ?_ ?_
      · intro h
        exact hdigits (List.cons.inj (List.cons.inj (Option.some.inj h)).2).1.symm
      · rintro ⟨-, hname, -⟩
        rw [List.map_singleton, List.take_one] at hname
        exact hcap ((List.length_map Prod.fst).symm.trans_le (hname _ (by simp)))
  · by_cases hcap : t.length ≤ 15
    · have htext : sizeText [t, size] = size := by rw [sizeText, afterField, if_pos hcap, List.headD_cons]
      rw [htext]
      simp only [mkramInPlace, firstField, SizeFits]
      simp [hcap, List.takeWhile_eq_self_iff, eq_comm (a := size)]
    · have htext : sizeText [t, size] = t.drop 15 := by rw [sizeText, afterField, if_neg hcap, List.headD_cons]
      refine iff_of_false ?_ ?_
      · -- the size is a part of the name, so it is not the second token
        intro h
        have heq := (List.cons.inj (List.cons.inj (Option.some.inj h)).2).1
        obtain ⟨c, hc⟩ := List.exists_mem_of_ne_nil _ hdigits
        have hct : c ∈ t := by
          rw [htext] at hc
          exact List.mem_of_mem_drop (List.takeWhile_subset _ hc)
        rw [← heq] at hc
        exact (List.nodup_append'.mp hnodup).2.2 hct (List.mem_append_left _ hc)
      · rintro ⟨-, hname, -⟩
        exact hcap ((List.length_map Prod.fst).symm.trans_le (hname _ List.mem_cons_self))
  · refine iff_of_false (Option.some_ne_none _).symm ?_
    rintro ⟨hlen, -⟩
    simp only [List.map_cons, List.length_cons] at hlen
    omega

theorem mkram_separates_iff (line : List UInt8) :
    Separates (mkramArgs Prod.fst) mkramInPlace line ↔
      mkramSize 0 (sizeText (tokens isWs line)) = 0 ∨ SizeFits (tokens isWs line) := by
  rw [Separates, mkramArgs_eq, ← map_placedTokens, map_sizeText]
  change (∀ args, (if firstField 15 (placedTokens line) = [] ∨ mkramSize 0 ((sizeText (placedTokens line)).map Prod.fst) = 0
    then none else some _) = some args → _) ↔ _
  by_cases hsize : mkramSize 0 ((sizeText (placedTokens line)).map Prod.fst) = 0
  · rw [if_pos (.inr hsize)]
    exact iff_of_true nofun (.inl hsize)
  · have hname : firstField 15 (placedTokens line) ≠ [] := by
      intro h
      have hnone : placedTokens line = [] := firstField_eq_nil (by decide) (fun t => ne_nil_of_mem_tokens) h
      rw [hnone] at hsize
      exact hsize rfl
    rw [if_neg (not_or.mpr ⟨hname, hsize⟩), or_iff_right hsize, ← mkram_inPlace_iff (placedTokens_nodup line) hsize]
    exact ⟨fun hall => hall _ rfl, fun heq args hargs => heq.trans hargs⟩

/-- The arguments are the tokens, each in its place, if and only if no token before the last place is longer than its
place holds and there are not more tokens than places. `mkram` also reads its size only as far as the digits go. -/
theorem tokens_separated_iff (line : List UInt8) :
    (Separates (mountArgs Prod.fst) (inPlace [7, 7, 15]) line ↔ Lib.Fits [7, 7, 15] (tokens isWs line)) ∧
    (Separates (mkramArgs Prod.fst) mkramInPlace line ↔
      mkramSize 0 (sizeText (tokens isWs line)) = 0 ∨ SizeFits (tokens isWs line)) ∧
    (Separates (mkexfatArgs Prod.fst) (inPlace [15, 15]) line ↔ Lib.Fits [15, 15] (tokens isWs line)) ∧
    (Separates (mkfsArgs Prod.fst) (inPlace [7, 15, 15]) line ↔
      ((tokens isWs line).head? = some exfatName → Lib.Fits [7, 15, 15] (tokens isWs line))) :=
  ⟨mount_separates_iff line, mkram_separates_iff line, mkexfat_separates_iff line, mkfs_separates_iff line⟩

def longNameLine : List UInt8 :=
  [97, 98, 99, 100, 101, 102, 103, 104, 105, 106, 107, 108, 109, 110, 111, 49, 32, 49, 48, 48]

theorem longName_split :
    mkramArgs id longNameLine = some [longNameLine.take 15, [49]] ∧
      ¬ Separates (mkramArgs Prod.fst) mkramInPlace longNameLine := by
  refine ⟨by decide, ?_⟩
  intro h
  exact absurd (h [longNameLine.zipIdx.take 15, [(49, 15)]] (by decide)) (by decide)

end Places

end DexOs.Shell
