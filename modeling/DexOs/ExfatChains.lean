import DexOs.ExfatVolume
import DexOs.Lib.Linked
import Mathlib.Data.Finset.Card
import Mathlib.Order.Interval.Finset.Nat

/-! FAT chains, who owns which cluster, and how a chain grows. -/

namespace DexOs.Exfat

open DexOs.Lib

variable {σ : Type} {D : Disk σ}

/-- The clusters of a file: the chain from `f` ends, is not empty, and avoids the root directory. -/
structure IsChain (D : Disk σ) (fat : ℕ → ℕ) (f : ℕ) (l : List ℕ) : Prop where
  linked : Linked fat eoc f l
  nonempty : l ≠ []
  valid : ∀ c ∈ l, D.Valid c
  no_root : D.fs.rootDirCluster ∉ l

/-- The files with these first clusters have chains `ch`, pairwise disjoint. -/
structure Owns (D : Disk σ) (fat : ℕ → ℕ) (firsts : List ℕ) (ch : ℕ → List ℕ) : Prop where
  chain : ∀ f ∈ firsts, IsChain D fat f (ch f)
  disjoint : firsts.Pairwise fun f g => (ch f).Disjoint (ch g)

theorem Disk.Valid.ne_eoc {c : ℕ} (h : D.Valid c) : c ≠ eoc := by
  have := Disk.entries_lt (D := D)
  have := h.2
  rw [eoc]
  omega

namespace IsChain

variable {fat fat' : ℕ → ℕ} {f : ℕ} {l : List ℕ}

theorem head (h : IsChain D fat f l) : l[0]? = some f := by
  cases l with
  | nil => exact absurd rfl h.nonempty
  | cons x l => simp [((linked_cons ..).mp h.linked).1]

theorem first_mem (h : IsChain D fat f l) : f ∈ l := List.mem_of_getElem? h.head

theorem fat_ne_zero (h : IsChain D fat f l) {c : ℕ} (hc : c ∈ l) : fat c ≠ 0 := by
  obtain ⟨i, hi⟩ := List.getElem?_of_mem hc
  rw [h.linked.next_eq hi]
  cases hn : l[i + 1]? with
  | none => exact (by decide : eoc ≠ 0)
  | some d =>
    have := (h.valid d (List.mem_of_getElem? hn)).1
    simp only [Option.getD_some]
    omega

theorem congr (h : IsChain D fat f l) (hf : ∀ c ∈ l, fat' c = fat c) : IsChain D fat' f l :=
  ⟨(linked_congr hf eoc f).mpr h.linked, h.nonempty, h.valid, h.no_root⟩

theorem length_lt (h : IsChain D fat f l) : l.length < D.fs.entries := by
  have hcard : l.toFinset.card = l.length := List.toFinset_card_of_nodup h.linked.nodup
  have hsub : l.toFinset ⊆ Finset.Ico 2 D.fs.entries := by
    intro c hc
    rw [List.mem_toFinset] at hc
    exact Finset.mem_Ico.mpr (h.valid c hc)
  have hle := Finset.card_le_card hsub
  rw [Nat.card_Ico, hcard] at hle
  have := (h.valid f h.first_mem).2
  omega

end IsChain

theorem Owns.nodup {fat : ℕ → ℕ} {firsts : List ℕ} {ch : ℕ → List ℕ} (h : Owns D fat firsts ch) : firsts.Nodup := by
  refine h.disjoint.imp_of_mem fun {f g} hf _ hd hfg => ?_
  subst hfg
  exact hd (h.chain f hf).first_mem (h.chain f hf).first_mem

theorem Owns.apart {fat : ℕ → ℕ} {firsts : List ℕ} {ch : ℕ → List ℕ} (h : Owns D fat firsts ch) {f g : ℕ}
    (hf : f ∈ firsts) (hg : g ∈ firsts) (hne : f ≠ g) : (ch f).Disjoint (ch g) := by
  have hsymm : Std.Symm fun a b => (ch a).Disjoint (ch b) := ⟨fun _ _ h => h.symm⟩
  exact h.disjoint.forall hf hg hne

structure Kept (v v' : Vol) : Prop where
  fat : ∀ c, v.fat c ≠ 0 → v'.fat c = v.fat c
  data : ∀ c, v.fat c ≠ 0 → v'.data c = v.data c

theorem Kept.refl (v : Vol) : Kept v v := ⟨fun _ _ => rfl, fun _ _ => rfl⟩

theorem Kept.chain {v v' : Vol} (h : Kept v v') {f : ℕ} {l : List ℕ} (hc : IsChain D v.fat f l) :
    IsChain D v'.fat f l := hc.congr fun c hm => h.fat c (hc.fat_ne_zero hm)

theorem Kept.owns {v v' : Vol} (h : Kept v v') {firsts : List ℕ} {ch : ℕ → List ℕ}
    (ho : Owns D v.fat firsts ch) : Owns D v'.fat firsts ch :=
  ⟨fun f hf => h.chain (ho.chain f hf), ho.disjoint⟩

structure Took (D : Disk σ) (v v' : Vol) (r : ℕ) : Prop extends Kept v v' where
  valid : D.Valid r
  free : v.fat r = 0
  lowest : ∀ c, 2 ≤ c → c < r → v.fat c ≠ 0
  marked : v'.fat r = eoc
  zeroed : D.On r → v'.data r = List.replicate D.fs.clusterSize 0

/-- The chain `l` from `f` has become `l'`: new members were free, and other chains and data stay. -/
structure Touched (D : Disk σ) (v v' : Vol) (f : ℕ) (l l' : List ℕ) : Prop where
  chain : IsChain D v'.fat f l'
  grows : ∃ ext, l' = l ++ ext ∧ ∀ c ∈ ext, v.fat c = 0
  fat : ∀ c, v.fat c ≠ 0 → c ∉ l → v'.fat c = v.fat c
  data : ∀ c, v.fat c ≠ 0 → c ∉ l → v'.data c = v.data c

structure Grown (D : Disk σ) (v v' : Vol) (f : ℕ) (l l' : List ℕ) : Prop extends Touched D v v' f l l' where
  data_all : ∀ c, v.fat c ≠ 0 → v'.data c = v.data c
  zeros : ∀ c ∈ l', v.fat c = 0 → D.On c → v'.data c = List.replicate D.fs.clusterSize 0

variable {v v' v'' : Vol} {f : ℕ} {l l' l'' : List ℕ}

theorem Kept.grown (h : Kept v v') (hc : IsChain D v.fat f l) : Grown D v v' f l l where
  chain := h.chain hc
  grows := ⟨[], by simp, by simp⟩
  fat c hz _ := h.fat c hz
  data c hz _ := h.data c hz
  data_all := h.data
  zeros c hm hz := absurd hz (hc.fat_ne_zero hm)

theorem Grown.refl (hc : IsChain D v.fat f l) : Grown D v v f l l := (Kept.refl v).grown hc

theorem Touched.fat_ne_zero (h : Touched D v v' f l l') {c : ℕ} (hz : v.fat c ≠ 0) : v'.fat c ≠ 0 := by
  obtain ⟨ext, rfl, -⟩ := h.grows
  by_cases hc : c ∈ l
  · exact h.chain.fat_ne_zero (List.mem_append_left _ hc)
  · rwa [h.fat c hz hc]

theorem Touched.not_mem (h : Touched D v v' f l l') {c : ℕ} (hz : v.fat c ≠ 0) (hc : c ∉ l) : c ∉ l' := by
  obtain ⟨ext, rfl, hext⟩ := h.grows
  rw [List.mem_append, not_or]
  exact ⟨hc, fun hm => hz (hext c hm)⟩

theorem Touched.trans (h : Touched D v v' f l l') (h' : Touched D v' v'' f l' l'') : Touched D v v'' f l l'' where
  chain := h'.chain
  grows := by
    obtain ⟨ext, rfl, hext⟩ := h.grows
    obtain ⟨ext', rfl, hext'⟩ := h'.grows
    refine ⟨ext ++ ext', List.append_assoc _ _ _, fun c hc => ?_⟩
    rcases List.mem_append.mp hc with hc | hc
    · exact hext c hc
    · by_contra hz
      exact h.fat_ne_zero hz (hext' c hc)
  fat c hz hc := by rw [h'.fat c (h.fat_ne_zero hz) (h.not_mem hz hc), h.fat c hz hc]
  data c hz hc := by rw [h'.data c (h.fat_ne_zero hz) (h.not_mem hz hc), h.data c hz hc]

theorem Grown.trans (h : Grown D v v' f l l') (h' : Grown D v' v'' f l' l'') : Grown D v v'' f l l'' where
  toTouched := h.toTouched.trans h'.toTouched
  data_all c hz := by rw [h'.data_all c (h.fat_ne_zero hz), h.data_all c hz]
  zeros c hm hz hon := by
    by_cases hz' : v'.fat c = 0
    · exact h'.zeros c hm hz' hon
    · rw [h'.data_all c hz']
      refine h.zeros c ?_ hz hon
      obtain ⟨ext, rfl, hext⟩ := h'.grows
      rcases List.mem_append.mp hm with hm | hm
      · exact hm
      · exact absurd (hext c hm) hz'

theorem Touched.owns (h : Touched D v v' f l l') {firsts : List ℕ} {ch : ℕ → List ℕ}
    (ho : Owns D v.fat firsts ch) (hf : f ∈ firsts) (hl : ch f = l) :
    Owns D v'.fat firsts (Function.update ch f l') := by
  subst hl
  obtain ⟨ext, hl', hext⟩ := h.grows
  have hother : ∀ g ∈ firsts, g ≠ f → (ch f).Disjoint (ch g) := fun g hg hne => ho.apart hf hg hne.symm
  refine ⟨fun g hg => ?_, ?_⟩
  · by_cases hgf : g = f
    · subst hgf
      rw [Function.update_self]
      exact h.chain
    · rw [Function.update_of_ne hgf]
      refine (ho.chain g hg).congr fun c hc => h.fat c ((ho.chain g hg).fat_ne_zero hc) fun hcf => ?_
      exact hother g hg hgf hcf hc
  · -- a new member was free, so it is in no old chain
    have hnew : ∀ g ∈ firsts, g ≠ f → l'.Disjoint (ch g) := by
      intro g hg hne c hc hcg
      rw [hl', List.mem_append] at hc
      rcases hc with hc | hc
      · exact hother g hg hne hc hcg
      · exact (ho.chain g hg).fat_ne_zero hcg (hext c hc)
    refine (ho.nodup.and ho.disjoint).imp_of_mem fun {a b} ha hb ⟨hab, hd⟩ => ?_
    by_cases haf : a = f
    · subst haf
      rw [Function.update_self, Function.update_of_ne (Ne.symm hab)]
      exact hnew b hb (Ne.symm hab)
    · by_cases hbf : b = f
      · subst hbf
        rw [Function.update_self, Function.update_of_ne haf]
        exact (hnew a ha haf).symm
      · rwa [Function.update_of_ne haf, Function.update_of_ne hbf]

theorem Took.alone {r : ℕ} (h : Took D v v' r) (hroot : v.fat D.fs.rootDirCluster ≠ 0) : IsChain D v'.fat r [r] := by
  refine ⟨(linked_cons ..).mpr ⟨rfl, h.valid.ne_eoc, (linked_nil ..).mpr h.marked⟩, by simp, ?_, ?_⟩
  · simpa using h.valid
  · rw [List.mem_singleton]
    intro e
    exact hroot (e ▸ h.free)

theorem Took.owns {r : ℕ} (h : Took D v v' r) {firsts : List ℕ} {ch : ℕ → List ℕ}
    (ho : Owns D v.fat firsts ch) (hroot : v.fat D.fs.rootDirCluster ≠ 0) :
    Owns D v'.fat (firsts ++ [r]) (Function.update ch r [r]) := by
  have hr : r ∉ firsts := fun hm => (ho.chain r hm).fat_ne_zero (ho.chain r hm).first_mem h.free
  have hne : ∀ g ∈ firsts, g ≠ r := fun g hg e => hr (e ▸ hg)
  have hold := h.toKept.owns ho
  refine ⟨fun g hg => ?_, List.pairwise_append.mpr ⟨?_, List.pairwise_singleton _ _, fun a ha b hb => ?_⟩⟩
  · rcases List.mem_append.mp hg with hg | hg
    · rw [Function.update_of_ne (hne g hg)]
      exact hold.chain g hg
    · obtain rfl := List.mem_singleton.mp hg
      rw [Function.update_self]
      exact h.alone hroot
  · refine hold.disjoint.imp_of_mem fun {a b} ha hb hd => ?_
    rwa [Function.update_of_ne (hne a ha), Function.update_of_ne (hne b hb)]
  · obtain rfl := List.mem_singleton.mp hb
    rw [Function.update_self, Function.update_of_ne (hne a ha)]
    intro c hc hcr
    obtain rfl := List.mem_singleton.mp hcr
    exact (ho.chain a ha).fat_ne_zero hc h.free

theorem Took.link {r cur : ℕ} (h : Took D v v' r) (hc : IsChain D v.fat f (l ++ [cur]))
    (hroot : v.fat D.fs.rootDirCluster ≠ 0) :
    Grown D v ((v'.setFat cur r).setFat r eoc) f (l ++ [cur]) (l ++ [cur] ++ [r]) := by
  have hr : r ∉ l ++ [cur] := fun hm => hc.fat_ne_zero hm h.free
  have hcur : cur ≠ r := fun e => hr (by simp [e])
  have hfat : ((v'.setFat cur r).setFat r eoc).fat = Function.update v'.fat cur r := by
    simp only [Vol.setFat]
    rw [Function.update_eq_self_iff, Function.update_of_ne (Ne.symm hcur), h.marked]
  have hold : ∀ c, v.fat c ≠ 0 → c ∉ l ++ [cur] → Function.update v'.fat cur r c = v.fat c := by
    intro c hz hm
    rw [Function.update_of_ne (fun e => hm (by simp [e])), h.fat c hz]
  refine ⟨⟨?_, ⟨[r], rfl, by simpa using h.free⟩, fun c hz hm => by rw [hfat]; exact hold c hz hm,
    fun c hz _ => h.data c hz⟩, h.data, fun c hm hz hon => ?_⟩
  · rw [hfat]
    refine ⟨(h.chain hc).linked.snoc hr h.valid.ne_eoc h.marked, by simp, fun c hm => ?_, fun hm => ?_⟩
    · rcases List.mem_append.mp hm with hm | hm
      · exact hc.valid c hm
      · rw [List.mem_singleton.mp hm]
        exact h.valid
    · rcases List.mem_append.mp hm with hm | hm
      · exact hc.no_root hm
      · rw [List.mem_singleton] at hm
        exact hroot (hm ▸ h.free)
  · rcases List.mem_append.mp hm with hm | hm
    · exact absurd hz (hc.fat_ne_zero hm)
    · obtain rfl := List.mem_singleton.mp hm
      exact h.zeroed hon

end DexOs.Exfat
