import DexOs.Lib.Tokens
import Mathlib.Tactic.Common

/-! Paths over an alphabet with a separator and a dot: the directory that is reached by walking along a path, where
empty and `.` components stay and `..` components go up. -/

namespace DexOs.Lib

variable {α : Type} [DecidableEq α]

def visit (dot : α) (dirs : List (List α)) (c : List α) : List (List α) :=
  if c = [] ∨ c = [dot] then dirs else if c = [dot, dot] then dirs.dropLast else dirs ++ [c]

def walk (sep dot : α) (dirs : List (List α)) (s : List α) : List (List α) := (s.splitOn sep).foldl (visit dot) dirs

structure IsName (sep dot : α) (c : List α) : Prop where
  ne_nil : c ≠ []
  ne_dot : c ≠ [dot]
  ne_dots : c ≠ [dot, dot]
  no_sep : sep ∉ c

variable {sep dot : α} {dirs : List (List α)} {c s : List α}

omit [DecidableEq α] in
theorem length_flatMap_cons (a : α) (k : List (List α)) :
    (k.flatMap (a :: ·)).length = k.flatten.length + k.length := by
  induction k with
  | nil => rfl
  | cons c k ih =>
    simp only [List.flatMap_cons, List.flatten_cons, List.length_append, List.length_cons, ih]
    omega

theorem visit_name (h : IsName sep dot c) : visit dot dirs c = dirs ++ [c] := by
  rw [visit, if_neg (not_or.mpr ⟨h.ne_nil, h.ne_dot⟩), if_neg h.ne_dots]

theorem walk_append (a b : List α) : walk sep dot dirs (a ++ sep :: b) = walk sep dot (walk sep dot dirs a) b := by
  rw [walk, List.splitOn_append_cons_self, List.foldl_append]
  rfl

theorem walk_nil : walk sep dot dirs [] = dirs := by
  rw [walk, List.splitOn_nil]
  rfl

theorem walk_sep (s : List α) : walk sep dot dirs (sep :: s) = walk sep dot dirs s := by
  rw [← List.nil_append (sep :: s), walk_append, walk_nil]

theorem walk_name (h : IsName sep dot c) : walk sep dot dirs c = dirs ++ [c] := by
  rw [walk, List.splitOn_eq_singleton h.no_sep]
  exact visit_name h

theorem walk_written {names : List (List α)} (h : ∀ c ∈ names, IsName sep dot c) :
    walk sep dot dirs (names.flatMap (sep :: ·)) = dirs ++ names := by
  induction names generalizing dirs with
  | nil =>
    rw [List.flatMap_nil, walk_nil, List.append_nil]
  | cons c names ih =>
    have hc := h c List.mem_cons_self
    have hrest : ∀ c ∈ names, IsName sep dot c := fun c hc => h c (List.mem_cons_of_mem _ hc)
    rw [List.flatMap_cons, List.cons_append, walk_sep]
    cases names with
    | nil =>
      rw [List.flatMap_nil, List.append_nil, walk_name hc]
    | cons c' names =>
      have hnext : walk sep dot (dirs ++ [c]) ((c' :: names).flatMap (sep :: ·)) = dirs ++ [c] ++ c' :: names := ih hrest
      rw [List.flatMap_cons, List.cons_append, walk_sep] at hnext
      rw [List.flatMap_cons, List.cons_append, walk_append, walk_name hc, hnext, List.append_assoc]
      rfl

theorem mem_splitOn (h : c ∈ s.splitOn sep) : sep ∉ c := by
  induction s generalizing c with
  | nil =>
    rw [List.splitOn_nil, List.mem_singleton] at h
    rw [h]
    exact List.not_mem_nil
  | cons x s ih =>
    rw [List.splitOn_cons_eq_if_modifyHead] at h
    split at h
    · rcases List.mem_cons.mp h with rfl | h
      · exact List.not_mem_nil
      · exact ih h
    case isFalse hx =>
      obtain ⟨c', rest, hs⟩ := List.exists_cons_of_ne_nil (List.splitOn_ne_nil sep s)
      rw [hs, List.modifyHead_cons] at h
      rcases List.mem_cons.mp h with rfl | h
      · rw [List.mem_cons, not_or]
        constructor
        · intro he
          exact hx (beq_iff_eq.mpr he.symm)
        · exact ih (by rw [hs]; exact List.mem_cons_self)
      · exact ih (by rw [hs]; exact List.mem_cons_of_mem _ h)

theorem visit_names (hdirs : ∀ d ∈ dirs, IsName sep dot d) (hc : sep ∉ c) :
    ∀ d ∈ visit dot dirs c, IsName sep dot d := by
  unfold visit
  split_ifs with hskip hup
  · exact hdirs
  · exact fun d hd => hdirs d ((List.dropLast_sublist dirs).subset hd)
  · intro d hd
    rcases List.mem_append.mp hd with hd | hd
    · exact hdirs d hd
    · rw [List.mem_singleton.mp hd]
      exact ⟨fun h => hskip (.inl h), fun h => hskip (.inr h), hup, hc⟩

theorem walk_names (hdirs : ∀ d ∈ dirs, IsName sep dot d) (s : List α) : ∀ d ∈ walk sep dot dirs s, IsName sep dot d := by
  have hall : ∀ c ∈ s.splitOn sep, sep ∉ c := fun c hc => mem_splitOn hc
  unfold walk
  generalize s.splitOn sep = cs at hall ⊢
  induction cs generalizing dirs with
  | nil => exact hdirs
  | cons c cs ih =>
    exact ih (visit_names hdirs (hall c List.mem_cons_self)) fun c hc => hall c (List.mem_cons_of_mem _ hc)

theorem walk_nil_of_names (h : ∀ c ∈ s.splitOn sep, IsName sep dot c) : walk sep dot [] s = s.splitOn sep := by
  have hfold {dirs cs : List (List α)} (hcs : ∀ c ∈ cs, IsName sep dot c) : cs.foldl (visit dot) dirs = dirs ++ cs := by
    induction cs generalizing dirs with
    | nil => exact (List.append_nil dirs).symm
    | cons c cs ih =>
      rw [List.foldl_cons, visit_name (hcs c List.mem_cons_self), ih fun c hc => hcs c (List.mem_cons_of_mem _ hc),
        List.append_assoc]
      rfl
  exact hfold h

theorem intercalate_walk_iff (s : List α) :
    [sep].intercalate (walk sep dot [] s) = s ↔ s = [] ∨ ∀ c ∈ s.splitOn sep, IsName sep dot c := by
  have hnames : ∀ c ∈ walk sep dot [] s, IsName sep dot c := walk_names (fun d hd => absurd hd List.not_mem_nil) s
  constructor
  · intro h
    by_cases hroot : walk sep dot [] s = []
    · left
      rw [← h, hroot]
      rfl
    · right
      rw [← h, List.splitOn_intercalate sep (fun c hc => (hnames c hc).no_sep) hroot]
      exact hnames
  · rintro (rfl | hs)
    · rw [walk_nil]
      rfl
    · rw [walk_nil_of_names hs, List.intercalate_splitOn]

section Letters

/-! The letters of a path and of the directory it leads to. -/

theorem flatten_splitOn (s : List α) : (s.splitOn sep).flatten = s.filter (· ≠ sep) := by
  rw [List.splitOn, flatten_splitOnP]
  congr 1
  funext x
  rw [decide_not, beq_eq_decide]

theorem visit_letters_le (dot : α) (dirs : List (List α)) (c : List α) :
    (visit dot dirs c).flatten.length ≤ dirs.flatten.length + c.length := by
  unfold visit
  split_ifs
  · exact Nat.le_add_right _ _
  · obtain ⟨last, hlast⟩ := List.dropLast_prefix dirs
    have hlen := congrArg (fun l => l.flatten.length) hlast
    rw [List.flatten_append, List.length_append] at hlen
    omega
  · apply Nat.le_of_eq
    rw [List.flatten_concat, List.length_append]

theorem walk_letters_le (s : List α) :
    (walk sep dot dirs s).flatten.length ≤ dirs.flatten.length + (s.filter (· ≠ sep)).length := by
  rw [← flatten_splitOn]
  unfold walk
  induction s.splitOn sep generalizing dirs with
  | nil => exact Nat.le_refl _
  | cons c cs ih =>
    have hc := visit_letters_le dot dirs c
    have hcs : (cs.foldl (visit dot) (visit dot dirs c)).flatten.length ≤ _ + cs.flatten.length := ih
    rw [List.flatten_cons, List.length_append, List.foldl_cons]
    omega

def Straight (sep dot : α) (s : List α) : Prop := ∀ c ∈ s.splitOn sep, c ≠ [dot] ∧ c ≠ [dot, dot]

theorem Straight.letters (h : Straight sep dot s) : (walk sep dot dirs s).flatten = dirs.flatten ++ s.filter (· ≠ sep) := by
  rw [← flatten_splitOn]
  unfold Straight at h
  unfold walk
  generalize s.splitOn sep = cs at h ⊢
  induction cs generalizing dirs with
  | nil => exact (List.append_nil _).symm
  | cons c cs ih =>
    have hc := h c List.mem_cons_self
    have hvisit : (visit dot dirs c).flatten = dirs.flatten ++ c := by
      unfold visit
      rw [if_neg hc.2]
      split
      case isTrue hskip =>
        rcases hskip with rfl | hskip
        · exact (List.append_nil _).symm
        · exact absurd hskip hc.1
      case isFalse => exact List.flatten_concat
    rw [List.foldl_cons, ih fun c hc => h c (List.mem_cons_of_mem _ hc), hvisit, List.flatten_cons, List.append_assoc]

theorem straight_of_not_mem (h : sep ∉ s) (hdot : s ≠ [dot]) (hdots : s ≠ [dot, dot]) : Straight sep dot s := by
  intro c hc
  rw [List.splitOn_eq_singleton h, List.mem_singleton] at hc
  rw [hc]
  exact ⟨hdot, hdots⟩

theorem straight_append (a b : List α) : Straight sep dot (a ++ sep :: b) ↔ Straight sep dot a ∧ Straight sep dot b := by
  unfold Straight
  rw [List.splitOn_append_cons_self]
  exact List.forall_mem_append

end Letters

end DexOs.Lib
