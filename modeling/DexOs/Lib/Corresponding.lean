import Mathlib.Data.List.Forall2

/-! Two lists that correspond place by place: searches, and replacements at one place. -/

namespace DexOs.Lib

variable {α β : Type} {R S : α → β → Prop} {l l' : List α} {m m' : List β}

theorem forall₂_iff_getElem? : List.Forall₂ R l m ↔
    l.length = m.length ∧ ∀ (i : ℕ) a b, l[i]? = some a → m[i]? = some b → R a b := by
  rw [List.forall₂_iff_get]
  apply and_congr_right
  intro _
  constructor
  · intro h i a b ha hb
    obtain ⟨hi, rfl⟩ := List.getElem?_eq_some_iff.mp ha
    obtain ⟨hj, rfl⟩ := List.getElem?_eq_some_iff.mp hb
    exact h i hi hj
  · intro h i hi hj
    exact h i _ _ (List.getElem?_eq_getElem hi) (List.getElem?_eq_getElem hj)

theorem exists_of_forall₂ (h : List.Forall₂ R l m) {i : ℕ} {b : β} (hb : m[i]? = some b) :
    ∃ a, l[i]? = some a ∧ R a b := by
  obtain ⟨hlen, hall⟩ := forall₂_iff_getElem?.mp h
  obtain ⟨hi, -⟩ := List.getElem?_eq_some_iff.mp hb
  have ha : l[i]? = some l[i] := List.getElem?_eq_getElem (hlen ▸ hi)
  exact ⟨_, ha, hall i _ b ha hb⟩

theorem forall₂_imp_mem (h : List.Forall₂ R l m) (himp : ∀ a ∈ l, ∀ b, R a b → S a b) : List.Forall₂ S l m := by
  obtain ⟨hlen, hall⟩ := forall₂_iff_getElem?.mp h
  apply forall₂_iff_getElem?.mpr
  refine ⟨hlen, ?_⟩
  intro i a b ha hb
  exact himp a (List.mem_of_getElem? ha) b (hall i a b ha hb)

theorem findIdx?_of_forall₂ {p : α → Bool} {q : β → Bool} (h : List.Forall₂ R l m) (hpq : ∀ a b, R a b → p a = q b) :
    l.findIdx? p = m.findIdx? q := by
  induction h with
  | nil => rfl
  | cons hab _ ih => rw [List.findIdx?_cons, List.findIdx?_cons, hpq _ _ hab, ih]

theorem forall₂_set (h : List.Forall₂ R l m) {i : ℕ} {b : β} (hlen : l'.length = l.length)
    (hself : ∀ a, l[i]? = some a → ∃ a', l'[i]? = some a' ∧ S a' b)
    (hother : ∀ (j : ℕ) a c, j ≠ i → l[j]? = some a → R a c → ∃ a', l'[j]? = some a' ∧ S a' c) :
    List.Forall₂ S l' (m.set i b) := by
  obtain ⟨hsame, hall⟩ := forall₂_iff_getElem?.mp h
  apply forall₂_iff_getElem?.mpr
  refine ⟨by rw [hlen, hsame, List.length_set], ?_⟩
  intro j a' c ha' hc
  have hj : j < l.length := hlen ▸ (List.getElem?_eq_some_iff.mp ha').1
  have ha := List.getElem?_eq_getElem hj
  by_cases hji : j = i
  · subst hji
    rw [List.getElem?_set_self (hsame ▸ hj)] at hc
    obtain ⟨a'', ha'', hs⟩ := hself _ ha
    rw [ha'] at ha''
    obtain rfl := Option.some.inj ha''
    obtain rfl := Option.some.inj hc
    exact hs
  · rw [List.getElem?_set_ne (Ne.symm hji)] at hc
    obtain ⟨a'', ha'', hs⟩ := hother j _ c hji ha (hall j _ c ha hc)
    rw [ha'] at ha''
    obtain rfl := Option.some.inj ha''
    exact hs

theorem find?_of_findIdx? {p : α → Bool} {i : ℕ} (h : l.findIdx? p = some i) : l.find? p = l[i]? := by
  rw [List.find?_eq_bind_findIdx?_getElem?, h]
  rfl

theorem lt_of_findIdx? {p : α → Bool} {i : ℕ} (h : l.findIdx? p = some i) : i < l.length :=
  (List.findIdx?_eq_some_iff_getElem.mp h).1

end DexOs.Lib
