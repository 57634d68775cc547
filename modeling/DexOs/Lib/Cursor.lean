import Mathlib.Data.List.Induction

/-! Text with a cursor as a pair of lists, and an array whose tail is shifted by one place. -/

namespace DexOs.Lib

variable {α : Type*}

structure Cursor (α : Type*) where
  before : List α
  after : List α

namespace Cursor

def text (z : Cursor α) : List α := z.before.reverse ++ z.after

def insert (z : Cursor α) (a : α) : Cursor α := ⟨a :: z.before, z.after⟩

def deleteBefore : Cursor α → Cursor α
  | ⟨_ :: before, after⟩ => ⟨before, after⟩
  | z => z

def deleteAt : Cursor α → Cursor α
  | ⟨before, _ :: after⟩ => ⟨before, after⟩
  | z => z

def left : Cursor α → Cursor α
  | ⟨a :: before, after⟩ => ⟨before, a :: after⟩
  | z => z

def right : Cursor α → Cursor α
  | ⟨before, a :: after⟩ => ⟨a :: before, after⟩
  | z => z

def home (z : Cursor α) : Cursor α := ⟨[], z.text⟩

def last (z : Cursor α) : Cursor α := ⟨z.text.reverse, []⟩

theorem length_text (z : Cursor α) : z.text.length = z.before.length + z.after.length := by
  rw [text, List.length_append, List.length_reverse]

theorem text_insert (z : Cursor α) (a : α) : (z.insert a).text = z.before.reverse ++ a :: z.after := by
  rw [text, insert, List.reverse_cons, List.append_assoc, List.singleton_append]

theorem text_home (z : Cursor α) : z.home.text = z.text := List.nil_append _

theorem text_last (z : Cursor α) : z.last.text = z.text := by
  rw [last, text, List.reverse_reverse, List.append_nil]

theorem text_left (a : α) (before after : List α) :
    (⟨a :: before, after⟩ : Cursor α).text = (⟨before, a :: after⟩ : Cursor α).text := text_insert ⟨before, after⟩ a

end Cursor

section Arrays

def store (buf : List α) (i : ℕ) (a : α) : Option (List α) :=
  if i < buf.length then some (buf.set i a) else none

def shiftDown (buf : List α) (i : ℕ) : ℕ → Option (List α)
  | 0 => some buf
  | n + 1 => do
    let a ← buf[i + 1]?
    let buf ← store buf i a
    shiftDown buf (i + 1) n

def shiftUp (buf : List α) (i : ℕ) : ℕ → Option (List α)
  | 0 => some buf
  | n + 1 => do
    let a ← buf[i - 1]?
    let buf ← store buf i a
    shiftUp buf (i - 1) n

def readFrom (buf : List α) (i : ℕ) : ℕ → Option (List α)
  | 0 => some []
  | n + 1 => do
    let a ← buf[i]?
    let as ← readFrom buf (i + 1) n
    return a :: as

theorem getElem?_append_cons (l : List α) (a : α) (r : List α) : (l ++ a :: r)[l.length]? = some a := by
  rw [List.getElem?_append_right (Nat.le_refl _), Nat.sub_self]
  rfl

theorem store_append (l : List α) (x : α) (r : List α) (a : α) : store (l ++ x :: r) l.length a = some (l ++ a :: r) := by
  have hlt : l.length < (l ++ x :: r).length := by
    rw [List.length_append, List.length_cons]
    omega
  rw [store, if_pos hlt, List.set_append_right _ _ (Nat.le_refl _), Nat.sub_self]
  rfl

theorem shiftDown_append (l : List α) (x : α) (m r : List α) :
    ∃ y, shiftDown (l ++ x :: (m ++ r)) l.length m.length = some (l ++ (m ++ y :: r)) := by
  induction m generalizing l x with
  | nil => exact ⟨x, rfl⟩
  | cons a m ih =>
    obtain ⟨y, hy⟩ := ih (l ++ [a]) a
    refine ⟨y, ?_⟩
    have hnext : (l ++ x :: (a :: m ++ r))[l.length + 1]? = some a := by
      have hget := getElem?_append_cons (l ++ [x]) a (m ++ r)
      rw [List.append_assoc, List.length_append] at hget
      exact hget
    rw [List.length_append, List.append_assoc, List.append_assoc] at hy
    rw [List.length_cons, shiftDown, hnext, Option.bind_eq_bind, Option.bind_some, store_append, Option.bind_eq_bind,
      Option.bind_some]
    exact hy

theorem shiftUp_append (l m : List α) (y : α) (r : List α) :
    ∃ z, shiftUp (l ++ (m ++ y :: r)) (l.length + m.length) m.length = some (l ++ z :: (m ++ r)) := by
  induction m using List.reverseRecOn generalizing y r with
  | nil => exact ⟨y, rfl⟩
  | append_singleton m a ih =>
    obtain ⟨z, hz⟩ := ih a (a :: r)
    refine ⟨z, ?_⟩
    have hsplit (b : α) : l ++ (m ++ [a] ++ b :: r) = l ++ m ++ [a] ++ b :: r := by simp only [List.append_assoc]
    have hlen : l.length + (m.length + 1) = (l ++ m ++ [a]).length := by
      simp only [List.length_append, List.length_singleton]
      omega
    have hprev : (l ++ m ++ [a] ++ y :: r)[l.length + (m.length + 1) - 1]? = some a := by
      have hget := getElem?_append_cons (l ++ m) a (y :: r)
      rw [List.length_append] at hget
      rw [List.append_assoc (l ++ m)]
      exact hget
    have hstore := store_append (l ++ m ++ [a]) y r a
    rw [← hlen] at hstore
    rw [List.length_append, List.length_singleton, hsplit, shiftUp, hprev, Option.bind_eq_bind, Option.bind_some, hstore,
      Option.bind_eq_bind, Option.bind_some, ← hsplit, List.append_assoc m, List.append_assoc m]
    exact hz

theorem readFrom_append (l m r : List α) : readFrom (l ++ (m ++ r)) l.length m.length = some m := by
  induction m generalizing l with
  | nil => rfl
  | cons a m ih =>
    have hrest := ih (l ++ [a])
    rw [List.length_append, List.append_assoc] at hrest
    rw [List.length_cons, readFrom, List.cons_append, getElem?_append_cons, Option.bind_eq_bind, Option.bind_some]
    change (readFrom (l ++ a :: (m ++ r)) (l.length + 1) m.length >>= fun as => some (a :: as)) = some (a :: m)
    rw [show readFrom (l ++ a :: (m ++ r)) (l.length + 1) m.length = some m from hrest]
    rfl

end Arrays

end DexOs.Lib
