import Mathlib.Data.List.Chain
import Mathlib.Algebra.Order.Ring.Nat
import Mathlib.Tactic.Common

/-! An interval cut into pieces, each of them free or used. -/

namespace DexOs.Lib

abbrev Piece := ℕ × Bool

variable {a e : ℕ} {x y : Piece} {l l' : List Piece}

def Settled (x y : Piece) : Prop := ¬ (x.2 = true ∧ y.2 = true)

def usedFrom (a : ℕ) : List Piece → List (ℕ × ℕ)
  | [] => []
  | x :: l => if x.2 then usedFrom (a + x.1) l else (a, x.1) :: usedFrom (a + x.1) l

def endOf (a : ℕ) : List Piece → ℕ
  | [] => a
  | x :: l => endOf (a + x.1) l

def joinFrom (x : Piece) : List Piece → List Piece
  | [] => [x]
  | y :: l => if x.2 && y.2 then joinFrom (x.1 + y.1, true) l else x :: joinFrom y l

theorem le_of_mem_usedFrom {p : ℕ × ℕ} (h : p ∈ usedFrom a l) : a ≤ p.1 := by
  induction l generalizing a with
  | nil => exact absurd h List.not_mem_nil
  | cons x l ih =>
    rw [usedFrom] at h
    split at h
    · exact (Nat.le_add_right ..).trans (ih h)
    · rcases List.mem_cons.mp h with rfl | h
      · exact le_refl _
      · exact (Nat.le_add_right ..).trans (ih h)

theorem le_endOf (a : ℕ) (l : List Piece) : a ≤ endOf a l := by
  induction l generalizing a with
  | nil => exact le_refl _
  | cons x l ih => exact (Nat.le_add_right ..).trans (ih _)

theorem usedFrom_append (a : ℕ) (l l' : List Piece) :
    usedFrom a (l ++ l') = usedFrom a l ++ usedFrom (endOf a l) l' := by
  induction l generalizing a with
  | nil => rfl
  | cons x l ih =>
    rw [List.cons_append, usedFrom, usedFrom, endOf, ih]
    split <;> rfl

theorem usedFrom_join (a n m : ℕ) (l : List Piece) :
    usedFrom a ((n + m, true) :: l) = usedFrom a ((n, true) :: (m, true) :: l) := by
  rw [usedFrom, usedFrom, usedFrom]
  simp [Nat.add_assoc]

theorem usedFrom_joinFrom (a : ℕ) (x : Piece) (l : List Piece) : usedFrom a (joinFrom x l) = usedFrom a (x :: l) := by
  induction l generalizing a x with
  | nil => rfl
  | cons y l ih =>
    rw [joinFrom]
    split
    case isTrue h =>
      obtain ⟨hx, hy⟩ := Bool.and_eq_true_iff.mp h
      rw [ih, usedFrom_join]
      obtain ⟨n, f⟩ := x
      obtain ⟨m, g⟩ := y
      cases hx
      cases hy
      rfl
    case isFalse =>
      rw [usedFrom, usedFrom, ih]

theorem joinFrom_head (x : Piece) (l : List Piece) : ∃ n l', joinFrom x l = (n, x.2) :: l' := by
  induction l generalizing x with
  | nil => exact ⟨x.1, [], rfl⟩
  | cons y l ih =>
    rw [joinFrom]
    split
    case isTrue h =>
      obtain ⟨n, l', hl⟩ := ih (x.1 + y.1, true)
      exact ⟨n, l', by rw [hl, (Bool.and_eq_true_iff.mp h).1]⟩
    case isFalse => exact ⟨x.1, joinFrom y l, rfl⟩

theorem joinFrom_settled (x : Piece) (l : List Piece) : (joinFrom x l).IsChain Settled := by
  induction l generalizing x with
  | nil => exact .singleton x
  | cons y l ih =>
    rw [joinFrom]
    split
    case isTrue => exact ih _
    case isFalse h =>
      obtain ⟨n, l', hl⟩ := joinFrom_head y l
      have hchain := ih y
      rw [hl] at hchain ⊢
      refine .cons_cons (fun hboth => h ?_) hchain
      rw [hboth.1]
      exact hboth.2

theorem used_of_settled {n : ℕ} (h : Settled (n, true) y) : y.2 = false := by
  cases hf : y.2 with
  | false => rfl
  | true => exact absurd ⟨rfl, hf⟩ h

theorem usedFrom_eq_nil (h : l.IsChain Settled) (hu : usedFrom a l = []) : l = [] ∨ ∃ n, l = [(n, true)] := by
  cases l with
  | nil => exact .inl rfl
  | cons x l =>
    right
    obtain ⟨n, f⟩ := x
    cases f with
    | false =>
      rw [usedFrom, if_neg (by simp)] at hu
      cases hu
    | true =>
      cases l with
      | nil => exact ⟨n, rfl⟩
      | cons y l =>
        have hy := used_of_settled (List.isChain_cons_cons.mp h).1
        rw [usedFrom, if_pos rfl, usedFrom, if_neg (by simp [hy])] at hu
        cases hu

theorem free_head_le {n m : ℕ} (h : ((n, true) :: l).IsChain Settled)
    (hend : endOf a ((n, true) :: l) = endOf a ((m, true) :: l'))
    (hu : ∀ p, p ∈ usedFrom a ((n, true) :: l) ↔ p ∈ usedFrom a ((m, true) :: l')) : m ≤ n := by
  cases l with
  | nil =>
    have hle := le_endOf (a + m) l'
    rw [endOf, endOf, endOf] at hend
    dsimp only at hend
    omega
  | cons y l =>
    have hy := used_of_settled (List.isChain_cons_cons.mp h).1
    have hmem : (a + n, y.1) ∈ usedFrom a ((n, true) :: y :: l) := by
      rw [usedFrom, if_pos rfl, usedFrom, if_neg (by simp [hy])]
      exact List.mem_cons_self
    rw [hu, usedFrom, if_pos rfl] at hmem
    have := le_of_mem_usedFrom hmem
    dsimp only at this
    omega

theorem mem_usedFrom_tail {p : ℕ × ℕ} (hx : 0 < x.1) :
    p ∈ usedFrom (a + x.1) l ↔ p ∈ usedFrom a (x :: l) ∧ a < p.1 := by
  have hlt (h : p ∈ usedFrom (a + x.1) l) : a < p.1 := by
    have := le_of_mem_usedFrom h
    omega
  rw [usedFrom]
  split
  case isTrue => exact (and_iff_left_of_imp hlt).symm
  case isFalse =>
    rw [List.mem_cons]
    constructor
    · intro h
      exact ⟨.inr h, hlt h⟩
    · rintro ⟨rfl | h, h'⟩
      · exact absurd h' (lt_irrefl _)
      · exact h

theorem head_unique (hx : 0 < x.1) (hy : 0 < y.1) (hs : (x :: l).IsChain Settled) (hs' : (y :: l').IsChain Settled)
    (hend : endOf a (x :: l) = endOf a (y :: l')) (hu : ∀ p, p ∈ usedFrom a (x :: l) ↔ p ∈ usedFrom a (y :: l')) :
    x = y := by
  obtain ⟨n, f⟩ := x
  obtain ⟨m, g⟩ := y
  have habsent {k : ℕ} {k' : ℕ} {t : List Piece} (hk : 0 < k) : (a, k') ∉ usedFrom a ((k, true) :: t) := by
    rw [usedFrom, if_pos rfl]
    intro h
    have := le_of_mem_usedFrom h
    dsimp only at this
    omega
  have hpresent {k : ℕ} {t : List Piece} : (a, k) ∈ usedFrom a ((k, false) :: t) := by
    rw [usedFrom, if_neg (by simp)]
    exact List.mem_cons_self
  cases f with
  | true =>
    cases g with
    | true =>
      have h1 := free_head_le hs hend hu
      have h2 := free_head_le hs' hend.symm fun p => (hu p).symm
      rw [le_antisymm h2 h1]
    | false => exact absurd ((hu _).mpr hpresent) (habsent hx)
  | false =>
    cases g with
    | true => exact absurd ((hu _).mp hpresent) (habsent hy)
    | false =>
      have hmem := (hu (a, n)).mp hpresent
      rw [usedFrom, if_neg (by simp)] at hmem
      rcases List.mem_cons.mp hmem with h | h
      · rw [(Prod.mk.inj h).2]
      · have := le_of_mem_usedFrom h
        dsimp only at this hy
        omega

theorem settled_unique (hl : ∀ x ∈ l, 0 < x.1) (hl' : ∀ x ∈ l', 0 < x.1) (hs : l.IsChain Settled)
    (hs' : l'.IsChain Settled) (hend : endOf a l = endOf a l') (hu : ∀ p, p ∈ usedFrom a l ↔ p ∈ usedFrom a l') :
    l = l' := by
  induction l generalizing a l' with
  | nil =>
    cases l' with
    | nil => rfl
    | cons y l' =>
      have h1 := hl' y List.mem_cons_self
      have h2 := le_endOf (a + y.1) l'
      rw [endOf, endOf] at hend
      omega
  | cons x l ih =>
    have hx := hl x List.mem_cons_self
    cases l' with
    | nil =>
      have h2 := le_endOf (a + x.1) l
      rw [endOf, endOf] at hend
      omega
    | cons y l' =>
      obtain rfl := head_unique hx (hl' y List.mem_cons_self) hs hs' hend hu
      have htail (p : ℕ × ℕ) : p ∈ usedFrom (a + x.1) l ↔ p ∈ usedFrom (a + x.1) l' := by
        rw [mem_usedFrom_tail hx, mem_usedFrom_tail hx, hu p]
      rw [ih (fun z hz => hl z (List.mem_cons_of_mem _ hz)) (fun z hz => hl' z (List.mem_cons_of_mem _ hz))
        hs.tail hs'.tail hend htail]

section Edits

variable {pre post : List Piece} {n m r : ℕ}

theorem settled_used (x : Piece) : Settled (m, false) x ∧ Settled x (m, false) := by
  constructor
  · rintro ⟨h, -⟩
    cases h
  · rintro ⟨-, h⟩
    cases h

theorem settled_append_cons (h : (pre ++ x :: post).IsChain Settled) :
    pre.IsChain Settled ∧ (x :: post).IsChain Settled := ⟨h.left_of_append, h.right_of_append⟩

theorem settled_insert (h : pre.IsChain Settled) (h' : post.IsChain Settled) :
    (pre ++ (m, false) :: post).IsChain Settled := by
  rw [List.isChain_append]
  refine ⟨h, ?_, fun y _ z hz => ?_⟩
  · cases post with
    | nil => exact .singleton _
    | cons z post => exact .cons_cons (settled_used z).1 h'
  · rw [List.head?_cons, Option.mem_some_iff] at hz
    exact hz ▸ (settled_used y).2

theorem settled_take (h : (pre ++ (n, true) :: post).IsChain Settled) :
    (pre ++ (m, false) :: post).IsChain Settled ∧ (pre ++ (m, false) :: (r, true) :: post).IsChain Settled := by
  obtain ⟨h1, h2⟩ := settled_append_cons h
  refine ⟨settled_insert h1 h2.tail, settled_insert h1 ?_⟩
  cases post with
  | nil => exact .singleton _
  | cons y post =>
    obtain ⟨hy, hpost⟩ := List.isChain_cons_cons.mp h2
    exact .cons_cons hy hpost

theorem usedFrom_take (a : ℕ) (pre post : List Piece) (hr : m + r = n) :
    usedFrom a (pre ++ (m, false) :: (r, true) :: post) =
      usedFrom a pre ++ (endOf a pre, m) :: usedFrom (endOf a pre + n) post := by
  rw [usedFrom_append, usedFrom, if_neg (by simp), usedFrom, if_pos rfl, Nat.add_assoc, hr]

theorem usedFrom_take_all (a : ℕ) (pre post : List Piece) :
    usedFrom a (pre ++ (n, false) :: post) = usedFrom a pre ++ (endOf a pre, n) :: usedFrom (endOf a pre + n) post := by
  rw [usedFrom_append, usedFrom, if_neg (by simp)]

theorem usedFrom_free (a : ℕ) (pre post : List Piece) :
    usedFrom a (pre ++ (n, true) :: post) = usedFrom a pre ++ usedFrom (endOf a pre + n) post := by
  rw [usedFrom_append, usedFrom, if_pos rfl]

theorem lt_endOf_of_mem {p : ℕ × ℕ} (hl : ∀ x ∈ l, 0 < x.1) (h : p ∈ usedFrom a l) : p.1 < endOf a l := by
  induction l generalizing a with
  | nil => exact absurd h List.not_mem_nil
  | cons x l ih =>
    have hx := hl x List.mem_cons_self
    rw [usedFrom] at h
    split at h
    · exact ih (fun z hz => hl z (List.mem_cons_of_mem _ hz)) h
    · rcases List.mem_cons.mp h with rfl | h
      · have := le_endOf (a + x.1) l
        rw [endOf]
        dsimp only
        omega
      · exact ih (fun z hz => hl z (List.mem_cons_of_mem _ hz)) h

end Edits

end DexOs.Lib
