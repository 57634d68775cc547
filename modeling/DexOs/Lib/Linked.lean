import Mathlib.Order.Nat
import Mathlib.Data.List.Pairwise
import Mathlib.Data.List.Nodup
import Mathlib.Tactic.Common

/-! List segments threaded through a successor function, in the style of separation logic. -/

namespace DexOs.Lib

variable {α : Type*}

/-- Following `next` from `a` visits exactly the members of the list and arrives at `b`. -/
def Lseg (next : α → α) : α → List α → α → Prop
  | a, [], b => a = b
  | a, c :: cs, b => a = c ∧ Lseg next (next c) cs b

/-- A finite chain from `a` that ends at the terminator `stop`. -/
def Linked (next : α → α) (stop a : α) (l : List α) : Prop :=
  Lseg next a l stop ∧ stop ∉ l

@[simp] theorem lseg_nil (next : α → α) (a b : α) : Lseg next a [] b ↔ a = b := Iff.rfl

@[simp] theorem lseg_cons (next : α → α) (a c b : α) (cs : List α) :
    Lseg next a (c :: cs) b ↔ a = c ∧ Lseg next (next c) cs b := Iff.rfl

theorem lseg_append (next : α → α) (l m : List α) (a b : α) :
    Lseg next a (l ++ m) b ↔ ∃ c, Lseg next a l c ∧ Lseg next c m b := by
  induction l generalizing a with
  | nil => simp
  | cons x l ih => simp only [List.cons_append, lseg_cons, ih, and_assoc, exists_and_left]

theorem lseg_congr {next next' : α → α} {l : List α} (h : ∀ c ∈ l, next' c = next c) (a b : α) :
    Lseg next' a l b ↔ Lseg next a l b := by
  induction l generalizing a with
  | nil => rfl
  | cons x l ih =>
    simp only [lseg_cons, h x List.mem_cons_self]
    rw [ih (fun c hc => h c (List.mem_cons_of_mem _ hc))]

theorem Lseg.update [DecidableEq α] {next : α → α} {l : List α} {a b : α} (h : Lseg next a l b)
    {x : α} (hx : x ∉ l) (y : α) : Lseg (Function.update next x y) a l b :=
  (lseg_congr (fun _ hc => Function.update_of_ne (ne_of_mem_of_not_mem hc hx) _ _) a b).mpr h

theorem Lseg.next_unique {f g : α → α} {a a' e : α} {l : List α} (hf : Lseg f a l e) (hg : Lseg g a' l e) :
    ∀ b ∈ l, f b = g b := by
  induction l generalizing a a' with
  | nil => exact fun b hb => absurd hb List.not_mem_nil
  | cons c l ih =>
    obtain ⟨rfl, hf⟩ := hf
    obtain ⟨rfl, hg⟩ := hg
    intro b hb
    rcases List.mem_cons.mp hb with rfl | hb
    · cases l with
      | nil => exact hf.trans hg.symm
      | cons d l => exact hf.1.trans hg.1.symm
    · exact ih hf hg b hb

theorem linked_nil (next : α → α) (stop a : α) : Linked next stop a [] ↔ a = stop := by
  simp [Linked]

theorem linked_cons (next : α → α) (stop a c : α) (cs : List α) :
    Linked next stop a (c :: cs) ↔ a = c ∧ c ≠ stop ∧ Linked next stop (next c) cs := by
  simp only [Linked, lseg_cons, List.mem_cons, not_or]
  constructor
  · rintro ⟨⟨rfl, h⟩, hn, hs⟩
    exact ⟨rfl, Ne.symm hn, h, hs⟩
  · rintro ⟨rfl, hn, h, hs⟩
    exact ⟨⟨rfl, h⟩, Ne.symm hn, hs⟩

theorem linked_congr {next next' : α → α} {l : List α} (h : ∀ c ∈ l, next' c = next c)
    (stop a : α) : Linked next' stop a l ↔ Linked next stop a l :=
  and_congr_left' (lseg_congr h a stop)

theorem Linked.unique {next : α → α} {stop a : α} {l m : List α}
    (hl : Linked next stop a l) (hm : Linked next stop a m) : l = m := by
  induction l generalizing a m with
  | nil =>
    rw [linked_nil] at hl
    cases m with
    | nil => rfl
    | cons c m => exact absurd ((linked_cons ..).mp hm) (by rintro ⟨rfl, hn, -⟩; exact hn hl)
  | cons c l ih =>
    obtain ⟨rfl, hn, ht⟩ := (linked_cons ..).mp hl
    cases m with
    | nil => exact absurd ((linked_nil ..).mp hm) hn
    | cons d m =>
      obtain ⟨rfl, -, ht'⟩ := (linked_cons ..).mp hm
      rw [ih ht ht']

theorem Linked.suffix {next : α → α} {stop a : α} {l m : List α} {c : α}
    (h : Linked next stop a (l ++ c :: m)) : Linked next stop (next c) m := by
  induction l generalizing a with
  | nil => exact ((linked_cons ..).mp h).2.2
  | cons x l ih => exact ih ((linked_cons ..).mp h).2.2

theorem Linked.next_eq {next : α → α} {stop a : α} {l : List α} (h : Linked next stop a l) {i : ℕ} {c : α}
    (hc : l[i]? = some c) : next c = (l[i + 1]?).getD stop := by
  induction l generalizing a i with
  | nil => simp at hc
  | cons x l ih =>
    obtain ⟨-, -, ht⟩ := (linked_cons ..).mp h
    cases i with
    | succ i => exact ih ht (by simpa using hc)
    | zero =>
      obtain rfl : x = c := by simpa using hc
      cases l with
      | nil => simpa using (linked_nil ..).mp ht
      | cons y l => simpa using ((linked_cons ..).mp ht).1

theorem Linked.nodup {next : α → α} {stop a : α} {l : List α} (h : Linked next stop a l) :
    l.Nodup := by
  induction l generalizing a with
  | nil => exact List.nodup_nil
  | cons c l ih =>
    obtain ⟨-, -, ht⟩ := (linked_cons ..).mp h
    refine List.nodup_cons.mpr ⟨fun hc => ?_, ih ht⟩
    obtain ⟨p, q, rfl⟩ := List.append_of_mem hc
    have he := congrArg List.length (ht.unique ht.suffix)
    simp at he
    omega

theorem Linked.snoc [DecidableEq α] {next : α → α} {stop a : α} {l : List α} {c d : α}
    (h : Linked next stop a (l ++ [c])) (hd : d ∉ l ++ [c]) (hs : d ≠ stop) (he : next d = stop) :
    Linked (Function.update next c d) stop a (l ++ [c] ++ [d]) := by
  have hn := h.nodup
  have hc : c ∉ l := fun hc => by
    simpa using (List.nodup_append.mp hn).2.2 c hc c (by simp)
  have hdc : d ≠ c := fun e => hd (by simp [e])
  obtain ⟨⟨e, hl, rfl, -⟩, hm⟩ := (and_congr_left' (lseg_append ..)).mp h
  refine ⟨(lseg_append ..).mpr ⟨d, (lseg_append ..).mpr ⟨e, hl.update hc d, rfl, ?_⟩, ?_⟩, ?_⟩
  · simp
  · simp [Function.update_of_ne hdc, he]
  · simp only [List.mem_append, List.mem_singleton, not_or] at hm ⊢
    exact ⟨hm, Ne.symm hs⟩

section Order

variable {next : ℕ → ℕ} {a b : ℕ} {l : List ℕ}

theorem Lseg.bounds (h : Lseg next a l b) (hn : ∀ c ∈ l, c < next c) :
    a ≤ b ∧ ∀ c ∈ l, a ≤ c ∧ next c ≤ b := by
  induction l generalizing a with
  | nil => exact ⟨le_of_eq h, by simp⟩
  | cons c l ih =>
    obtain ⟨rfl, ht⟩ := h
    obtain ⟨hle, hall⟩ := ih ht (fun d hd => hn d (List.mem_cons_of_mem _ hd))
    have hc := hn a List.mem_cons_self
    refine ⟨by omega, fun d hd => ?_⟩
    rcases List.mem_cons.mp hd with rfl | hd
    · exact ⟨le_refl _, hle⟩
    · have := hall d hd
      omega

theorem Lseg.pairwise (h : Lseg next a l b) (hn : ∀ c ∈ l, c < next c) :
    l.Pairwise (fun c d => next c ≤ d) := by
  induction l generalizing a with
  | nil => exact List.Pairwise.nil
  | cons c l ih =>
    obtain ⟨rfl, ht⟩ := h
    have hn' : ∀ d ∈ l, d < next d := fun d hd => hn d (List.mem_cons_of_mem _ hd)
    exact List.pairwise_cons.mpr ⟨fun d hd => ((ht.bounds hn').2 d hd).1, ih ht hn'⟩

theorem Lseg.cells_disjoint (h : Lseg next a l b) (hn : ∀ c ∈ l, c < next c) {c d : ℕ}
    (hc : c ∈ l) (hd : d ∈ l) (hne : c ≠ d) : next c ≤ d ∨ next d ≤ c := by
  have hs : l.Pairwise (fun c d => next c ≤ d ∨ next d ≤ c) := (h.pairwise hn).imp Or.inl
  have : Std.Symm (fun c d => next c ≤ d ∨ next d ≤ c) := ⟨fun _ _ => Or.symm⟩
  exact hs.forall hc hd hne

end Order

end DexOs.Lib
