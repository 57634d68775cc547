import Mathlib.Data.List.Nodup
import Mathlib.Data.List.TakeWhile

/-! The tokens of a text, and fields of bounded size that are copied from it one after the other. -/

namespace DexOs.Lib

variable {α β : Type*} {sep : α → Bool} {cap : ℕ} {caps : List ℕ} {a t r : List α} {ts : List (List α)}

def tokens (sep : α → Bool) (a : List α) : List (List α) := (a.splitOnP sep).filter (! ·.isEmpty)

def copyField (sep : α → Bool) : ℕ → List α → List α × List α
  | _, [] => ([], [])
  | 0, a => ([], a)
  | cap + 1, c :: a =>
    if sep c then ([], c :: a)
    else
      let (field, a) := copyField sep cap a
      (c :: field, a)

def nextField (sep : α → Bool) (cap : ℕ) (a : List α) : List α × List α := copyField sep cap (a.dropWhile sep)

section Split

theorem splitOnP_map (f : β → α) (b : List β) : (b.map f).splitOnP sep = (b.splitOnP (sep ∘ f)).map (List.map f) := by
  induction b with
  | nil => rfl
  | cons c b ih =>
    rw [List.map_cons, List.splitOnP_cons_eq_if_modifyHead, List.splitOnP_cons_eq_if_modifyHead, ih, Function.comp_apply]
    split_ifs
    · rfl
    · obtain ⟨t, ts, hts⟩ := List.exists_cons_of_ne_nil (List.splitOnP_ne_nil (sep ∘ f) b)
      rw [hts]
      rfl

theorem tokens_map (f : β → α) (b : List β) : tokens sep (b.map f) = (tokens (sep ∘ f) b).map (List.map f) := by
  rw [tokens, tokens, splitOnP_map, List.filter_map]
  congr 2
  funext t
  rw [Function.comp_apply, List.isEmpty_map]

theorem flatten_splitOnP (a : List α) : (a.splitOnP sep).flatten = a.filter (! sep ·) := by
  induction a with
  | nil => rfl
  | cons c a ih =>
    obtain ⟨t, ts, hts⟩ := List.exists_cons_of_ne_nil (List.splitOnP_ne_nil sep a)
    rw [List.splitOnP_cons_eq_if_modifyHead]
    by_cases hc : sep c
    · rw [if_pos hc, List.filter_cons_of_neg (by simpa using hc), List.flatten_cons, List.nil_append, ih]
    · rw [if_neg hc, List.filter_cons_of_pos (by simpa using hc), ← ih, hts]
      rfl

theorem flatten_tokens (a : List α) : (tokens sep a).flatten = a.filter (! sep ·) := by
  rw [tokens, List.flatten_filter_not_isEmpty, flatten_splitOnP]

theorem ne_nil_of_mem_tokens (h : t ∈ tokens sep a) : t ≠ [] := by
  rintro rfl
  exact absurd (List.mem_filter.mp h).2 Bool.false_ne_true

theorem tokens_cons_of_sep {c : α} (hc : sep c) (a : List α) : tokens sep (c :: a) = tokens sep a := by
  rw [tokens, tokens, List.splitOnP_cons_eq_if_modifyHead, if_pos hc, List.filter_cons_of_neg Bool.false_ne_true]

theorem tokens_dropWhile (a : List α) : tokens sep (a.dropWhile sep) = tokens sep a := by
  induction a with
  | nil => rfl
  | cons c a ih =>
    by_cases hc : sep c
    · rw [List.dropWhile_cons_of_pos hc, ih, tokens_cons_of_sep hc]
    · rw [List.dropWhile_cons_of_neg hc]

def TokenEnd (sep : α → Bool) (r : List α) : Prop := ∀ c ∈ r.head?, sep c

theorem tokens_append (hne : t ≠ []) (ht : ∀ c ∈ t, sep c = false) (hr : TokenEnd sep r) :
    tokens sep (t ++ r) = t :: tokens sep r := by
  have hkeep (rest : List (List α)) : (t :: rest).filter (! ·.isEmpty) = t :: rest.filter (! ·.isEmpty) :=
    List.filter_cons_of_pos (by rwa [Bool.not_eq_true', List.isEmpty_eq_false_iff])
  cases r with
  | nil =>
    rw [List.append_nil, tokens, List.splitOnP_eq_singleton ht, hkeep]
    rfl
  | cons c r =>
    have hc : sep c := hr c rfl
    rw [tokens_cons_of_sep hc, tokens, List.splitOnP_append_cons_of_forall_mem ht c hc, hkeep]
    rfl

theorem dropWhile_cases (sep : α → Bool) (a : List α) :
    a.dropWhile sep = [] ∧ tokens sep a = [] ∨
      ∃ t r, a.dropWhile sep = t ++ r ∧ t ≠ [] ∧ (∀ c ∈ t, sep c = false) ∧ TokenEnd sep r ∧
        tokens sep a = t :: tokens sep r := by
  rw [← tokens_dropWhile a]
  have hhead := List.head?_dropWhile_not sep a
  cases hb : a.dropWhile sep with
  | nil => exact .inl ⟨rfl, rfl⟩
  | cons c b =>
    rw [hb] at hhead
    have hc : sep c = false := hhead
    have hsplit : (c :: b).takeWhile (! sep ·) ++ (c :: b).dropWhile (! sep ·) = c :: b :=
      List.takeWhile_append_dropWhile
    have hne : (c :: b).takeWhile (! sep ·) ≠ [] := by
      rw [List.takeWhile_cons_of_pos (by rw [hc]; rfl)]
      exact List.cons_ne_nil _ _
    have hnone : ∀ x ∈ (c :: b).takeWhile (! sep ·), sep x = false := by
      intro x hx
      simpa using List.mem_takeWhile_imp hx
    have hends : TokenEnd sep ((c :: b).dropWhile (! sep ·)) := by
      intro x hx
      have hstop := List.head?_dropWhile_not (! sep ·) (c :: b)
      rw [Option.mem_def.mp hx] at hstop
      simpa using hstop
    refine .inr ⟨_, _, hsplit.symm, hne, hnone, hends, ?_⟩
    rw [← tokens_append hne hnone hends, hsplit]

end Split

section Fields

theorem takeWhile_firstToken {P : α → Bool} (hP : ∀ c, sep c → P c = false) (a : List α) :
    (a.dropWhile sep).takeWhile P = ((tokens sep a).headD []).takeWhile P := by
  rcases dropWhile_cases sep a with ⟨ha, hts⟩ | ⟨t, r, ha, -, -, hr, hts⟩
  · rw [ha, hts]
    rfl
  · have hstop : r.takeWhile P = [] := by
      cases r with
      | nil => rfl
      | cons c r => exact List.takeWhile_cons_of_neg (Bool.eq_false_iff.mp (hP c (hr c rfl)))
    rw [ha, hts, List.headD_cons, List.takeWhile_append, hstop, List.append_nil]
    split_ifs with hall
    · exact ((List.takeWhile_prefix P).eq_of_length hall).symm
    · rfl

theorem copyField_append (cap : ℕ) (ht : ∀ c ∈ t, sep c = false) (hr : TokenEnd sep r) :
    copyField sep cap (t ++ r) = (t.take cap, t.drop cap ++ r) := by
  induction t generalizing cap with
  | nil =>
    cases r with
    | nil => cases cap <;> rfl
    | cons c r =>
      have hc : sep c := hr c rfl
      cases cap with
      | zero => rfl
      | succ cap => rw [List.nil_append, copyField, if_pos hc]; rfl
  | cons c t ih =>
    cases cap with
    | zero => rfl
    | succ cap =>
      have hc : ¬ sep c := by simpa using ht c List.mem_cons_self
      rw [List.cons_append, copyField, if_neg hc, ih cap fun x hx => ht x (List.mem_cons_of_mem c hx)]
      rfl

def firstField (cap : ℕ) (ts : List (List α)) : List α := (ts.headD []).take cap

def afterField (cap : ℕ) : List (List α) → List (List α)
  | [] => []
  | t :: ts => if t.length ≤ cap then ts else t.drop cap :: ts

theorem nextField_tokens (sep : α → Bool) (cap : ℕ) (a : List α) :
    (nextField sep cap a).1 = firstField cap (tokens sep a) ∧
      tokens sep (nextField sep cap a).2 = afterField cap (tokens sep a) := by
  rcases dropWhile_cases sep a with ⟨ha, hts⟩ | ⟨t, r, ha, hne, ht, hr, hts⟩
  · rw [nextField, ha, hts]
    cases cap <;> exact ⟨rfl, rfl⟩
  · rw [nextField, ha, hts, copyField_append cap ht hr]
    refine ⟨rfl, ?_⟩
    dsimp only [afterField]
    split_ifs with hcap
    · rw [List.drop_eq_nil_of_le hcap, List.nil_append]
    · have hrest : t.drop cap ≠ [] := by
        rw [Ne, List.drop_eq_nil_iff]
        exact hcap
      exact tokens_append hrest (fun c hc => ht c (List.mem_of_mem_drop hc)) hr

def fields : List ℕ → List (List α) → List (List α)
  | [], _ => []
  | cap :: caps, ts => firstField cap ts :: fields caps (afterField cap ts)

def inPlace : List ℕ → List (List α) → Option (List (List α))
  | [], [] => some []
  | [], _ :: _ => none
  | cap :: caps, ts => (inPlace caps ts.tail).map (firstField cap ts :: ·)

theorem firstField_map (f : β → α) (cap : ℕ) (ts : List (List β)) :
    firstField cap (ts.map (List.map f)) = (firstField cap ts).map f := by
  cases ts with
  | nil => rw [firstField, firstField, List.map_nil, List.headD_nil, List.headD_nil, List.map_take, List.map_nil]
  | cons t ts => exact List.map_take.symm

theorem afterField_map (f : β → α) (cap : ℕ) (ts : List (List β)) :
    afterField cap (ts.map (List.map f)) = (afterField cap ts).map (List.map f) := by
  cases ts with
  | nil => rfl
  | cons t ts =>
    rw [List.map_cons, afterField, afterField, List.length_map]
    split_ifs
    · rfl
    · rw [List.map_cons, List.map_drop]

theorem fields_map (f : β → α) (caps : List ℕ) (ts : List (List β)) :
    fields caps (ts.map (List.map f)) = (fields caps ts).map (List.map f) := by
  induction caps generalizing ts with
  | nil => rfl
  | cons cap caps ih => rw [fields, fields, firstField_map, afterField_map, ih, List.map_cons]

/-- There are places for all tokens, and each token but the one in the last place is within its bound. -/
def Fits (caps : List ℕ) (ts : List (List α)) : Prop :=
  ts.length ≤ caps.length ∧ ∀ p ∈ ts.zip caps.dropLast, p.1.length ≤ p.2

theorem fits_nil (caps : List ℕ) : Fits (α := α) caps [] :=
  ⟨Nat.zero_le _, fun _ hp => absurd hp List.not_mem_nil⟩

theorem fits_single : Fits [cap] (t :: ts) ↔ ts = [] := by
  constructor
  · rintro ⟨hlen, -⟩
    exact List.length_eq_zero_iff.mp (Nat.le_zero.mp (Nat.le_of_succ_le_succ hlen))
  · rintro rfl
    exact ⟨le_refl 1, fun _ hp => absurd hp List.not_mem_nil⟩

theorem fits_cons {cap' : ℕ} : Fits (cap :: cap' :: caps) (t :: ts) ↔ t.length ≤ cap ∧ Fits (cap' :: caps) ts := by
  rw [Fits, Fits, List.dropLast_cons_cons, List.zip_cons_cons, List.forall_mem_cons, List.length_cons,
    List.length_cons (a := cap), Nat.add_le_add_iff_right]
  exact and_left_comm

theorem fits_map (f : β → α) {caps : List ℕ} {ts : List (List β)} : Fits caps (ts.map (List.map f)) ↔ Fits caps ts := by
  unfold Fits
  rw [List.length_map, List.zip_map_left, List.forall_mem_map]
  simp only [Prod.map_fst, Prod.map_snd, List.length_map, id]

theorem inPlace_cons (cap : ℕ) (caps : List ℕ) (ts : List (List α)) :
    inPlace (cap :: caps) ts = some (fields (cap :: caps) ts) ↔
      inPlace caps ts.tail = some (fields caps (afterField cap ts)) := by
  rw [inPlace, fields, Option.map_eq_some_iff]
  constructor
  · rintro ⟨args, hargs, heq⟩
    rw [hargs, (List.cons.inj heq).2]
  · exact fun h => ⟨_, h, rfl⟩

theorem firstField_drop_ne {cap' : ℕ} (hcap : cap < t.length) (hpos : 0 < cap') (hdisjoint : List.Disjoint t ts.flatten) :
    firstField cap' ts ≠ firstField cap' (t.drop cap :: ts) := by
  intro hfirst
  obtain ⟨c, rest, hdrop⟩ := List.exists_cons_of_length_pos (l := t.drop cap) (by rw [List.length_drop]; omega)
  have hc : c ∈ firstField cap' ts := by
    rw [hfirst, firstField, List.headD_cons, hdrop]
    obtain ⟨n, rfl⟩ := Nat.exists_eq_succ_of_ne_zero hpos.ne'
    exact List.mem_cons_self
  have hct : c ∈ t := List.mem_of_mem_drop (hdrop ▸ List.mem_cons_self)
  refine hdisjoint hct ?_
  cases ts with
  | nil => exact absurd (List.mem_of_mem_take hc) List.not_mem_nil
  | cons t' ts => exact List.mem_append_left _ (List.mem_of_mem_take hc)

theorem fields_inPlace_iff (hpos : ∀ cap ∈ caps, 0 < cap) (hnodup : ts.flatten.Nodup) :
    inPlace caps ts = some (fields caps ts) ↔ Fits caps ts := by
  induction caps generalizing ts with
  | nil =>
    cases ts with
    | nil => exact iff_of_true rfl (fits_nil [])
    | cons t ts => exact iff_of_false nofun fun h => absurd h.1 (Nat.not_succ_le_zero _)
  | cons cap caps ih =>
    rw [inPlace_cons]
    have hpos' : ∀ cap ∈ caps, 0 < cap := fun c hc => hpos c (List.mem_cons_of_mem cap hc)
    cases ts with
    | nil => exact iff_of_true ((@ih [] hpos' List.nodup_nil).mpr (fits_nil caps)) (fits_nil _)
    | cons t ts =>
      obtain ⟨-, hrest, hdisjoint⟩ := List.nodup_append'.mp hnodup
      cases caps with
      | nil =>
        rw [fits_single]
        cases ts with
        | nil => exact iff_of_true rfl rfl
        | cons t' ts => exact iff_of_false nofun nofun
      | cons cap' caps =>
        rw [fits_cons]
        by_cases hcap : t.length ≤ cap
        · rw [afterField, if_pos hcap, and_iff_right hcap]
          exact ih hpos' hrest
        · refine iff_of_false ?_ fun h => hcap h.1
          rw [afterField, if_neg hcap, inPlace, fields, Option.map_eq_some_iff]
          rintro ⟨args, -, heq⟩
          exact firstField_drop_ne (Nat.lt_of_not_le hcap) (hpos' cap' List.mem_cons_self) hdisjoint (List.cons.inj heq).1

end Fields

end DexOs.Lib
