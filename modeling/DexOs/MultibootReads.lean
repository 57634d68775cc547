import DexOs.Multiboot
import Mathlib.Logic.Relation

/-! The reads of `parse_mb2`: when the parser ends and stays inside the information block. -/

namespace DexOs.Mb2

open DexOs.Lib

abbrev Read := ℕ × ℕ

/-- `for (t = tag; t < base + total_size && t->type != MB2_TAG_END; t = mb2_next_tag(t)) if (t->type == tag)`: each of the
three loops of `parse_mb2`, with what it does at its tag and whether it leaves the loop there. -/
def tagLoopReads {γ : Type} (m : Memory) (limit tag : ℕ) (leave : Bool) (join : Option γ → γ → γ)
    (content : ℕ → Option (γ × List Read)) : ℕ → ℕ → Option γ → Option (Option γ × List Read)
  | 0, _, _ => none
  | fuel + 1, t, acc =>
    if t < limit then
      if tagType m t = tagEnd then some (acc, [(t, 4)])
      else if tagType m t = tag then do
        let (g, rs) ← content t
        if leave then some (some (join acc g), (t, 4) :: (t, 4) :: rs)
        else do
          let r ← tagLoopReads m limit tag leave join content fuel (mb2NextTag m t) (some (join acc g))
          some (r.1, (t, 4) :: (t, 4) :: rs ++ (t + 4, 4) :: r.2)
      else do
        let r ← tagLoopReads m limit tag leave join content fuel (mb2NextTag m t) acc
        some (r.1, (t, 4) :: (t, 4) :: (t + 4, 4) :: r.2)
    else some (acc, [])

def efiDescReads (m : Memory) (d : ℕ) : List Read :=
  (d + 24, 8) :: (d, 4) :: if leNat m 4 d = 7 then [(d + 8, 8), (d + 8, 8)] else []

def efiDesc (m : Memory) (t i : ℕ) : ℕ := t + 16 + i * leNat m 4 (t + 8) % 2 ^ 32

def efiReads (m : Memory) (t : ℕ) : List Read :=
  [(t + 8, 4), (t + 8, 4)] ++ (if leNat m 4 (t + 8) = 0 then [] else [(t + 4, 4), (t + 8, 4)]) ++
    (List.range (mb2EfiDescCount m t)).flatMap fun i => efiDescReads m (efiDesc m t i)

def mmapEntryReads (m : Memory) (e : ℕ) : List Read :=
  (e + 16, 4) :: if leNat m 4 (e + 16) = 1 then [(e, 8), (e + 8, 8), (e, 8)] else []

def mmapLoopReads (m : Memory) (t : ℕ) : ℕ → ℕ → Option (List MapEntry × List Read)
  | 0, _ => none
  | fuel + 1, offset =>
    let next := (offset + leNat m 4 (t + 8)) % 2 ^ 32
    if next ≤ tagSize m t then do
      let r ← mmapLoopReads m t fuel next
      some (mmapEntry m (t + offset) :: r.1, (t + 4, 4) :: mmapEntryReads m (t + offset) ++ r.2)
    else some ([], [(t + 4, 4)])

def efiLoop (fuel : ℕ) (m : Memory) (info : ℕ) : Option (Option (List MapEntry) × List Read) :=
  tagLoopReads m (info + totalSize m info) tagEfiMmap true (fun _ es => es)
    (fun t => some (efiEntries m t, efiReads m t)) fuel (mb2FirstTag info) none

def mmapLoop (fuel : ℕ) (m : Memory) (info : ℕ) : Option (Option (List MapEntry) × List Read) :=
  tagLoopReads m (info + totalSize m info) tagMmap false (fun acc es => acc.getD [] ++ es)
    (fun t => (mmapLoopReads m t fuel 16).map fun r => (r.1, (t + 8, 4) :: r.2)) fuel (mb2FirstTag info) none

def basicLoop (fuel : ℕ) (m : Memory) (info : ℕ) : Option (Option ℕ × List Read) :=
  tagLoopReads m (info + totalSize m info) tagBasicMeminfo true (fun _ upper => upper)
    (fun t => some (leNat m 4 (t + 12), [(t + 8, 4), (t + 12, 4)])) fuel (mb2FirstTag info) none

def parseMb2 (fuel : ℕ) (m : Memory) (info : ℕ) (fromUefi : Bool) : Option (MemoryMap × List Read) :=
  if info = 0 then some (.missing, [])
  else do
    let (efi, r) ← (if fromUefi then efiLoop fuel m info else some (none, []))
    let r := (info, 4) :: r
    match efi with
    | some es => some (.efi es, r)
    | none =>
      let (mmap, r') ← mmapLoop fuel m info
      match mmap with
      | some es => some (.mmap es, r ++ r')
      | none =>
        let (basic, r'') ← basicLoop fuel m info
        match basic with
        | some upper => some (.basic upper, r ++ r' ++ r'')
        | none => some (.missing, r ++ r' ++ r'')

section Map

variable {γ : Type} {m : Memory} {limit tag : ℕ}

theorem tagLoopReads_fst (leave : Bool) (join : Option γ → γ → γ) (content : ℕ → Option (γ × List Read)) (fuel t : ℕ)
    (acc : Option γ) :
    (tagLoopReads m limit tag leave join content fuel t acc).map Prod.fst =
      tagLoop m limit (fun t acc => if tagType m t = tag then
        ((content t).map Prod.fst).map fun g => (some (join acc g), leave) else some (acc, false)) fuel t acc := by
  induction fuel generalizing t acc with
  | zero => rfl
  | succ fuel ih =>
    rw [tagLoopReads, tagLoop]
    by_cases ht : t < limit
    · by_cases hend : tagType m t = tagEnd
      · rw [if_pos ht, if_pos hend, if_neg fun h => h.2 hend]
        rfl
      · rw [if_pos ht, if_neg hend, if_pos (And.intro ht hend)]
        by_cases htag : tagType m t = tag
        · simp only [if_pos htag]
          cases content t with
          | none => rfl
          | some c =>
            cases leave with
            | true => rfl
            | false =>
              dsimp only [Option.map_some, Option.bind_eq_bind, Option.bind_some]
              rw [← ih]
              cases tagLoopReads m limit tag false join content fuel (mb2NextTag m t) (some (join acc c.1)) <;> rfl
        · simp only [if_neg htag]
          rw [← ih]
          cases tagLoopReads m limit tag leave join content fuel (mb2NextTag m t) acc <;> rfl
    · rw [if_neg ht, if_neg fun h => ht h.1]
      rfl

theorem mmapLoopReads_fst (m : Memory) (t fuel offset : ℕ) :
    (mmapLoopReads m t fuel offset).map Prod.fst = mmapEntries m t fuel offset := by
  induction fuel generalizing offset with
  | zero => rfl
  | succ fuel ih =>
    rw [mmapLoopReads, mmapEntries]
    split_ifs
    · rw [← ih]
      cases mmapLoopReads m t fuel ((offset + leNat m 4 (t + 8)) % 2 ^ 32) <;> rfl
    · rfl

theorem parseMb2_fst (fuel : ℕ) (m : Memory) (info : ℕ) (fromUefi : Bool) :
    (parseMb2 fuel m info fromUefi).map Prod.fst = readMemoryMap fuel m info fromUefi := by
  have hefi : (efiLoop fuel m info).map Prod.fst = findEfi fuel m info := tagLoopReads_fst ..
  have hbasic : (basicLoop fuel m info).map Prod.fst = findBasic fuel m info := tagLoopReads_fst ..
  have hmmap : (mmapLoop fuel m info).map Prod.fst = collectMmap fuel m info := by
    rw [mmapLoop, tagLoopReads_fst, collectMmap]
    congr 1
    funext t acc
    rw [← mmapLoopReads_fst, Option.map_map, Option.map_map, Option.map_map]
    rfl
  have hfirst : (if fromUefi then findEfi fuel m info else some none) =
      (if fromUefi then efiLoop fuel m info else some (none, [])).map Prod.fst := by
    rw [← hefi]
    split_ifs <;> rfl
  unfold parseMb2 readMemoryMap
  rw [hfirst, ← hmmap, ← hbasic]
  by_cases hinfo : info = 0
  · rw [if_pos hinfo, if_pos hinfo]
    rfl
  · rw [if_neg hinfo, if_neg hinfo]
    generalize (if fromUefi then efiLoop fuel m info else some (none, [])) = efi
    rcases efi with _ | ⟨_ | es, r⟩
    · rfl
    · rcases mmapLoop fuel m info with _ | ⟨_ | es, r'⟩
      · rfl
      · rcases basicLoop fuel m info with _ | ⟨_ | upper, r''⟩ <;> rfl
      · rfl
    · rfl

end Map

def Inside (lo hi : ℕ) (reads : List Read) : Prop := ∀ r ∈ reads, lo ≤ r.1 ∧ r.1 + r.2 ≤ hi

def TagStep (m : Memory) (hi tag : ℕ) (leave : Bool) (t u : ℕ) : Prop :=
  t < hi ∧ tagType m t ≠ tagEnd ∧ ¬ (leave ∧ tagType m t = tag) ∧ u = mb2NextTag m t

def Visited (m : Memory) (hi tag : ℕ) (leave : Bool) : ℕ → ℕ → Prop :=
  Relation.ReflTransGen (TagStep m hi tag leave)

/-- A tag that the loop can pass. Of the end tag only the type is read. -/
structure TagOk (m : Memory) (lo hi tag : ℕ) (leave : Bool) (content : ℕ → Prop) (t : ℕ) : Prop where
  type : lo ≤ t ∧ t + 4 ≤ hi
  content : tagType m t ≠ tagEnd → tagType m t = tag → content t
  size : tagType m t ≠ tagEnd → ¬ (leave ∧ tagType m t = tag) → t + 8 ≤ hi
  moves : tagType m t ≠ tagEnd → ¬ (leave ∧ tagType m t = tag) → mb2NextTag m t ≠ t

section Inside

variable {lo hi : ℕ} {rs rs' : List Read} {r : Read}

theorem inside_nil : Inside lo hi [] := fun _ h => absurd h List.not_mem_nil

theorem inside_cons : Inside lo hi (r :: rs) ↔ (lo ≤ r.1 ∧ r.1 + r.2 ≤ hi) ∧ Inside lo hi rs := List.forall_mem_cons

theorem inside_append : Inside lo hi (rs ++ rs') ↔ Inside lo hi rs ∧ Inside lo hi rs' := List.forall_mem_append

end Inside

section Loops

variable {γ : Type} {m : Memory} {lo hi tag : ℕ} {leave : Bool} {join : Option γ → γ → γ}
  {content : ℕ → Option (γ × List Read)} {ok : ℕ → Prop} {fuel t u : ℕ} {acc : Option γ} {r : Option γ × List Read}

theorem visited_cases (h : Visited m hi tag leave t u) :
    t = u ∨ TagStep m hi tag leave t (mb2NextTag m t) ∧ Visited m hi tag leave (mb2NextTag m t) u := by
  rcases Relation.ReflTransGen.cases_head h with rfl | ⟨v, hstep, hrest⟩
  · exact .inl rfl
  · obtain rfl := hstep.2.2.2
    exact .inr ⟨hstep, hrest⟩

theorem tagLoopReads_step (h : tagLoopReads m hi tag leave join content (fuel + 1) t acc = some r) :
    (hi ≤ t ∧ r = (acc, [])) ∨
    (t < hi ∧ tagType m t = tagEnd ∧ r = (acc, [(t, 4)])) ∨
    (t < hi ∧ tagType m t ≠ tagEnd ∧ tagType m t = tag ∧ leave = true ∧
      ∃ c, content t = some c ∧ r = (some (join acc c.1), (t, 4) :: (t, 4) :: c.2)) ∨
    (t < hi ∧ tagType m t ≠ tagEnd ∧ ¬ (leave ∧ tagType m t = tag) ∧
      ∃ acc' rs r', tagLoopReads m hi tag leave join content fuel (mb2NextTag m t) acc' = some r' ∧
        r = (r'.1, (t, 4) :: (t, 4) :: rs ++ (t + 4, 4) :: r'.2) ∧
        (tagType m t = tag ∧ (∃ c, content t = some c ∧ acc' = some (join acc c.1) ∧ rs = c.2) ∨
          tagType m t ≠ tag ∧ acc' = acc ∧ rs = [])) := by
  rw [tagLoopReads] at h
  by_cases ht : t < hi
  · rw [if_pos ht] at h
    by_cases hend : tagType m t = tagEnd
    · rw [if_pos hend] at h
      exact .inr (.inl ⟨ht, hend, (Option.some.inj h).symm⟩)
    · rw [if_neg hend] at h
      by_cases htag : tagType m t = tag
      · rw [if_pos htag] at h
        obtain ⟨c, hc, h⟩ := Option.bind_eq_some_iff.mp h
        dsimp only at h
        cases leave with
        | true =>
          rw [if_pos rfl] at h
          exact .inr (.inr (.inl ⟨ht, hend, htag, rfl, c, hc, (Option.some.inj h).symm⟩))
        | false =>
          obtain ⟨r', hr', h⟩ := Option.bind_eq_some_iff.mp h
          exact .inr (.inr (.inr ⟨ht, hend, fun hl => Bool.false_ne_true hl.1, _, c.2, r', hr', (Option.some.inj h).symm,
            .inl ⟨htag, c, hc, rfl, rfl⟩⟩))
      · rw [if_neg htag] at h
        obtain ⟨r', hr', h⟩ := Option.bind_eq_some_iff.mp h
        exact .inr (.inr (.inr ⟨ht, hend, fun hl => htag hl.2, acc, [], r', hr', (Option.some.inj h).symm,
          .inr ⟨htag, rfl, rfl⟩⟩))
  · rw [if_neg ht] at h
    exact .inl ⟨Nat.le_of_not_lt ht, (Option.some.inj h).symm⟩

theorem tagLoopReads_sound (hcontent : ∀ t c, content t = some c → Inside lo hi c.2 → ok t)
    (h : tagLoopReads m hi tag leave join content fuel t acc = some r) (hin : Inside lo hi r.2)
    (hu : Visited m hi tag leave t u) (hlt : u < hi) : TagOk m lo hi tag leave ok u := by
  induction fuel generalizing t acc r u with
  | zero => cases h
  | succ fuel ih =>
    rcases tagLoopReads_step h with ⟨hend, -⟩ | ⟨ht, hend, rfl⟩ | ⟨ht, hend, htag, hleave, c, hc, rfl⟩ |
      ⟨ht, hend, hstay, acc', rs, r', hrest, rfl, hcase⟩
    · rcases visited_cases hu with rfl | ⟨hstep, -⟩
      · omega
      · have ht := hstep.1
        omega
    · rcases visited_cases hu with rfl | ⟨hstep, -⟩
      · exact ⟨(inside_cons.mp hin).1, fun h => absurd hend h, fun h => absurd hend h, fun h => absurd hend h⟩
      · exact absurd hend hstep.2.1
    · rcases visited_cases hu with rfl | ⟨hstep, -⟩
      · obtain ⟨htype, hreads⟩ := inside_cons.mp hin
        exact ⟨htype, fun _ _ => hcontent t c hc (inside_cons.mp hreads).2, fun _ h => absurd ⟨hleave, htag⟩ h,
          fun _ h => absurd ⟨hleave, htag⟩ h⟩
      · exact absurd ⟨hleave, htag⟩ hstep.2.2.1
    · obtain ⟨hfront, hback⟩ := inside_append.mp hin
      obtain ⟨hsize, hlater⟩ := inside_cons.mp hback
      rcases visited_cases hu with rfl | ⟨-, hrestVisited⟩
      · obtain ⟨htype, hfront⟩ := inside_cons.mp hfront
        refine ⟨htype, ?_, fun _ _ => hsize.2, ?_⟩
        · intro _ htag
          rcases hcase with ⟨-, c, hc, -, rfl⟩ | ⟨hne, -⟩
          · exact hcontent t c hc (inside_cons.mp hfront).2
          · exact absurd htag hne
        · intro _ _ hnext
          have hself := ih hrest hlater .refl (hnext.trans_lt ht)
          rw [hnext] at hself
          exact hself.moves hend hstay hnext
      · exact ih hrest hlater hrestVisited hlt

theorem tagSize_lt (m : Memory) (t : ℕ) : tagSize m t < 2 ^ 32 := leNat_lt m 4 (t + 4)

theorem lt_mb2NextTag (hblock : hi ≤ lo + 2 ^ 31) (hhi : hi < 2 ^ 64) (hstep : TagStep m hi tag leave t (mb2NextTag m t))
    (ht : TagOk m lo hi tag leave ok t) (hnext : mb2NextTag m t < hi → lo ≤ mb2NextTag m t) : t < mb2NextTag m t := by
  have hne := ht.moves hstep.2.1 hstep.2.2.1
  have hsize := tagSize_lt m t
  have hlt := hstep.1
  have htype := ht.type
  rcases Nat.lt_or_ge (t + tagSize m t + (8 - 1)) (2 ^ 64) with hfit | hwrap
  · have hle := le_alignUp (by decide : 0 < 8) hfit
    unfold mb2NextTag at hne ⊢
    omega
  · have hle : mb2NextTag m t ≤ _ := alignUp_le_of_wrap hwrap (by omega)
    have hlo := hnext (by omega)
    omega

theorem tagLoopReads_complete (hblock : hi ≤ lo + 2 ^ 31) (hhi : hi < 2 ^ 64)
    (hcontent : ∀ t, lo ≤ t → ok t → ∃ c, content t = some c ∧ Inside lo hi c.2)
    (htags : ∀ u, Visited m hi tag leave t u → u < hi → TagOk m lo hi tag leave ok u) (hfuel : hi - t < fuel) :
    ∃ r, tagLoopReads m hi tag leave join content fuel t acc = some r ∧ Inside lo hi r.2 := by
  induction fuel generalizing t acc with
  | zero => exact absurd hfuel (Nat.not_lt_zero _)
  | succ fuel ih =>
    rw [tagLoopReads]
    by_cases ht : t < hi
    · have htag := htags t .refl ht
      rw [if_pos ht]
      by_cases hend : tagType m t = tagEnd
      · rw [if_pos hend]
        exact ⟨_, rfl, inside_cons.mpr ⟨htag.type, inside_nil⟩⟩
      rw [if_neg hend]
      have hrest (hstay : ¬ (leave ∧ tagType m t = tag)) (acc' : Option γ) :
          ∃ r, tagLoopReads m hi tag leave join content fuel (mb2NextTag m t) acc' = some r ∧
            Inside lo hi ((t + 4, 4) :: r.2) := by
        have hstep : TagStep m hi tag leave t (mb2NextTag m t) := ⟨ht, hend, hstay, rfl⟩
        have htags' : ∀ u, Visited m hi tag leave (mb2NextTag m t) u → u < hi → TagOk m lo hi tag leave ok u :=
          fun u hu => htags u (.head hstep hu)
        have hlt := lt_mb2NextTag hblock hhi hstep htag fun h => (htags' _ .refl h).type.1
        obtain ⟨r, hr, hin⟩ := @ih (mb2NextTag m t) acc' htags' (by omega)
        refine ⟨r, hr, inside_cons.mpr ⟨?_, hin⟩⟩
        have htype := htag.type
        have hsize := htag.size hend hstay
        dsimp only
        omega
      by_cases hkind : tagType m t = tag
      · rw [if_pos hkind]
        obtain ⟨c, hc, hin⟩ := hcontent t htag.type.1 (htag.content hend hkind)
        rw [hc]
        cases leave with
        | true => exact ⟨_, rfl, inside_cons.mpr ⟨htag.type, inside_cons.mpr ⟨htag.type, hin⟩⟩⟩
        | false =>
          obtain ⟨r, hr, hlater⟩ := hrest (fun h => Bool.false_ne_true h.1) (some (join acc c.1))
          refine ⟨(r.1, (t, 4) :: (t, 4) :: c.2 ++ (t + 4, 4) :: r.2), ?_, ?_⟩
          · rw [Option.bind_eq_bind, Option.bind_some]
            dsimp only
            rw [if_neg Bool.false_ne_true, hr]
            rfl
          · exact inside_append.mpr ⟨inside_cons.mpr ⟨htag.type, inside_cons.mpr ⟨htag.type, hin⟩⟩, hlater⟩
      · rw [if_neg hkind]
        obtain ⟨r, hr, hin⟩ := hrest (fun h => hkind h.2) acc
        rw [hr]
        exact ⟨_, rfl, inside_cons.mpr ⟨htag.type, inside_cons.mpr ⟨htag.type, hin⟩⟩⟩
    · rw [if_neg ht]
      exact ⟨_, rfl, inside_nil⟩

theorem tagLoopReads_found (htag : tag ≠ tagEnd)
    (h : tagLoopReads m hi tag leave join content fuel t acc = some r) :
    r.1.isSome ↔ acc.isSome ∨ ∃ u, Visited m hi tag leave t u ∧ u < hi ∧ tagType m u = tag := by
  induction fuel generalizing t acc r with
  | zero => cases h
  | succ fuel ih =>
    have hnone (hstop : ∀ u, Visited m hi tag leave t u → t = u) (hother : ¬ (t < hi ∧ tagType m t = tag)) :
        acc.isSome ↔ acc.isSome ∨ ∃ u, Visited m hi tag leave t u ∧ u < hi ∧ tagType m u = tag := by
      refine (or_iff_left ?_).symm
      rintro ⟨u, hu, hlt, hkind⟩
      rw [← hstop u hu] at hlt hkind
      exact hother ⟨hlt, hkind⟩
    rcases tagLoopReads_step h with ⟨hend, rfl⟩ | ⟨ht, hend, rfl⟩ | ⟨ht, hend, hkind, -, c, -, rfl⟩ |
      ⟨ht, hend, hstay, acc', rs, r', hrest, rfl, hcase⟩
    · refine hnone (fun u hu => (visited_cases hu).resolve_right fun hs => ?_) fun h => ?_
      · exact absurd hs.1.1 (Nat.not_lt.mpr hend)
      · exact absurd h.1 (Nat.not_lt.mpr hend)
    · refine hnone (fun u hu => (visited_cases hu).resolve_right fun hs => hs.1.2.1 hend) fun h => ?_
      exact htag (h.2.symm.trans hend)
    · exact iff_of_true rfl (.inr ⟨t, .refl, ht, hkind⟩)
    · have hstep : TagStep m hi tag leave t (mb2NextTag m t) := ⟨ht, hend, hstay, rfl⟩
      rw [ih hrest]
      rcases hcase with ⟨hkind, c, -, rfl, -⟩ | ⟨hkind, rfl, -⟩
      · exact iff_of_true (.inl rfl) (.inr ⟨t, .refl, ht, hkind⟩)
      · refine or_congr_right ⟨?_, ?_⟩
        · rintro ⟨u, hu, hfound⟩
          exact ⟨u, .head hstep hu, hfound⟩
        · rintro ⟨u, hu, hlt, hfound⟩
          rcases visited_cases hu with rfl | ⟨-, hu⟩
          · exact absurd hfound hkind
          · exact ⟨u, hu, hlt, hfound⟩

end Loops

section Contents

variable {m : Memory} {lo hi t fuel o : ℕ} {r : List MapEntry × List Read}

def EfiOk (m : Memory) (hi t : ℕ) : Prop := t + 12 ≤ hi ∧ ∀ i < mb2EfiDescCount m t, efiDesc m t i + 32 ≤ hi

theorem efiReads_sound (h : Inside lo hi (efiReads m t)) : EfiOk m hi t := by
  refine ⟨?_, ?_⟩
  · exact (h (t + 8, 4) (List.mem_append_left _ (List.mem_append_left _ List.mem_cons_self))).2
  · intro i hi'
    have hmem : (efiDesc m t i + 24, 8) ∈ efiReads m t :=
      List.mem_append_right _ (List.mem_flatMap.mpr ⟨i, List.mem_range.mpr hi', List.mem_cons_self⟩)
    exact (h _ hmem).2

theorem efiReads_complete (hlo : lo ≤ t) (h : EfiOk m hi t) : Inside lo hi (efiReads m t) := by
  obtain ⟨hhead, hdescs⟩ := h
  refine inside_append.mpr ⟨inside_append.mpr ⟨?_, ?_⟩, ?_⟩
  · simp only [inside_cons, inside_nil, and_true]
    omega
  · split_ifs
    · exact inside_nil
    · simp only [inside_cons, inside_nil, and_true]
      omega
  · intro r hr
    obtain ⟨i, hi', hr⟩ := List.mem_flatMap.mp hr
    have hdesc := hdescs i (List.mem_range.mp hi')
    have hle : t ≤ efiDesc m t i := (Nat.le_add_right t 16).trans (Nat.le_add_right _ _)
    unfold efiDescReads at hr
    split_ifs at hr <;> simp only [List.mem_cons, List.not_mem_nil, or_false] at hr
    · rcases hr with rfl | rfl | rfl | rfl <;> dsimp only <;> omega
    · rcases hr with rfl | rfl <;> dsimp only <;> omega

def entryOffset (m : Memory) (t o n : ℕ) : ℕ := (o + n * leNat m 4 (t + 8)) % 2 ^ 32

theorem entryOffset_succ (m : Memory) (t o n : ℕ) : entryOffset m t (entryOffset m t o 1) n = entryOffset m t o (n + 1) := by
  unfold entryOffset
  rw [Nat.mod_add_mod]
  congr 1
  rw [Nat.add_mul]
  omega

theorem entryOffset_zero (m : Memory) (t : ℕ) (ho : o < 2 ^ 32) : entryOffset m t o 0 = o := by
  unfold entryOffset
  rw [Nat.zero_mul, Nat.add_zero, Nat.mod_eq_of_lt ho]

def EntriesOk (m : Memory) (hi t o : ℕ) : Prop :=
  ∀ n, (∀ j ≤ n, entryOffset m t o (j + 1) ≤ tagSize m t) → t + entryOffset m t o n + 20 ≤ hi

/-- Entries of size 0 are passed only where the tag is too small for its own header. -/
def MmapOk (m : Memory) (hi t : ℕ) : Prop :=
  t + 12 ≤ hi ∧ (leNat m 4 (t + 8) = 0 → tagSize m t < 16) ∧ EntriesOk m hi t 16

theorem entryOffset_lt (m : Memory) (t o n : ℕ) : entryOffset m t o n < 2 ^ 32 := Nat.mod_lt _ (Nat.two_pow_pos 32)

theorem mmapLoopReads_succ (m : Memory) (t fuel o : ℕ) :
    mmapLoopReads m t (fuel + 1) o = if entryOffset m t o 1 ≤ tagSize m t then
      (mmapLoopReads m t fuel (entryOffset m t o 1)).map fun r =>
        (mmapEntry m (t + o) :: r.1, (t + 4, 4) :: mmapEntryReads m (t + o) ++ r.2)
    else some ([], [(t + 4, 4)]) := by
  rw [mmapLoopReads, entryOffset, Nat.one_mul]
  split_ifs
  · cases mmapLoopReads m t fuel ((o + leNat m 4 (t + 8)) % 2 ^ 32) <;> rfl
  · rfl

theorem mmapLoopReads_sound (ho : o < 2 ^ 32) (h : mmapLoopReads m t fuel o = some r) (hin : Inside lo hi r.2) :
    EntriesOk m hi t o := by
  induction fuel generalizing o r with
  | zero => cases h
  | succ fuel ih =>
    rw [mmapLoopReads_succ] at h
    intro n hn
    rw [if_pos (hn 0 (Nat.zero_le n))] at h
    obtain ⟨r', hr', rfl⟩ := Option.map_eq_some_iff.mp h
    obtain ⟨hfront, hback⟩ := inside_append.mp hin
    cases n with
    | zero =>
      have htype := (inside_cons.mp (inside_cons.mp hfront).2).1.2
      rw [entryOffset_zero m t ho]
      dsimp only at htype
      omega
    | succ n =>
      rw [← entryOffset_succ]
      refine ih (entryOffset_lt m t o 1) hr' hback n ?_
      intro j hj
      rw [entryOffset_succ]
      exact hn (j + 1) (Nat.succ_le_succ hj)

theorem mmapLoopReads_zero (hzero : leNat m 4 (t + 8) = 0) (ho : o < 2 ^ 32) (hroom : o ≤ tagSize m t) (fuel : ℕ) :
    mmapLoopReads m t fuel o = none := by
  have hstay : entryOffset m t o 1 = o := by
    rw [entryOffset, hzero, Nat.mul_zero, Nat.add_zero, Nat.mod_eq_of_lt ho]
  induction fuel with
  | zero => rfl
  | succ fuel ih =>
    rw [mmapLoopReads_succ, hstay, if_pos hroom, ih]
    rfl

theorem mmapLoopReads_complete {μ : ℕ → ℕ} (hμ : ∀ o < 2 ^ 31, μ (entryOffset m t o 1) < μ o) (hblock : hi ≤ lo + 2 ^ 31)
    (hlo : lo ≤ t) (hhead : t + 12 ≤ hi) (ho : o < 2 ^ 32) (hok : EntriesOk m hi t o) (hfuel : μ o < fuel) :
    ∃ r, mmapLoopReads m t fuel o = some r ∧ Inside lo hi r.2 := by
  have hsize : lo ≤ t + 4 ∧ t + 4 + 4 ≤ hi := by omega
  induction fuel generalizing o with
  | zero => exact absurd hfuel (Nat.not_lt_zero _)
  | succ fuel ih =>
    rw [mmapLoopReads_succ]
    by_cases hmore : entryOffset m t o 1 ≤ tagSize m t
    · have hentry := hok 0 fun j hj => by rwa [Nat.le_zero.mp hj]
      rw [entryOffset_zero m t ho] at hentry
      have hok' : EntriesOk m hi t (entryOffset m t o 1) := by
        intro n hn
        rw [entryOffset_succ]
        apply hok
        intro j hj
        cases j with
        | zero => exact hmore
        | succ j =>
          rw [← entryOffset_succ]
          exact hn j (Nat.le_of_succ_le_succ hj)
      have hless := hμ o (by omega)
      obtain ⟨r, hr, hin⟩ := ih (entryOffset_lt m t o 1) hok' (by omega)
      rw [if_pos hmore, hr]
      refine ⟨_, rfl, inside_append.mpr ⟨inside_cons.mpr ⟨hsize, ?_⟩, hin⟩⟩
      unfold mmapEntryReads
      split_ifs <;> simp only [inside_cons, inside_nil, and_true] <;> omega
    · rw [if_neg hmore]
      exact ⟨_, rfl, inside_cons.mpr ⟨hsize, inside_nil⟩⟩

theorem exists_measure (hpos : 0 < leNat m 4 (t + 8)) :
    ∃ μ : ℕ → ℕ, (∀ o, μ o ≤ 2 ^ 31) ∧ ∀ o < 2 ^ 31, μ (entryOffset m t o 1) < μ o := by
  have hes : leNat m 4 (t + 8) < 2 ^ 32 := leNat_lt m 4 (t + 8)
  rcases Nat.lt_or_ge (leNat m 4 (t + 8)) (2 ^ 31) with hsmall | hlarge
  · refine ⟨fun o => 2 ^ 31 - o, fun o => Nat.sub_le _ _, ?_⟩
    intro o ho
    dsimp only [entryOffset]
    omega
  · refine ⟨fun o => if o < 2 ^ 31 then o + 1 else 0, ?_, ?_⟩
    · intro o
      dsimp only
      split_ifs <;> omega
    · intro o ho
      dsimp only [entryOffset]
      split_ifs <;> omega

def mmapContent (fuel : ℕ) (m : Memory) (t : ℕ) : Option (List MapEntry × List Read) :=
  (mmapLoopReads m t fuel 16).map fun r => (r.1, (t + 8, 4) :: r.2)

theorem mmapContent_sound {c : List MapEntry × List Read} (h : mmapContent fuel m t = some c) (hin : Inside lo hi c.2) :
    MmapOk m hi t := by
  obtain ⟨r, hr, rfl⟩ := Option.map_eq_some_iff.mp h
  obtain ⟨hhead, hin⟩ := inside_cons.mp hin
  refine ⟨hhead.2, ?_, mmapLoopReads_sound (by decide) hr hin⟩
  intro hzero
  by_contra hroom
  rw [mmapLoopReads_zero hzero (by decide) (Nat.le_of_not_lt hroom)] at hr
  cases hr

theorem mmapContent_complete (hblock : hi ≤ lo + 2 ^ 31) (hfuel : 2 ^ 31 < fuel) (hlo : lo ≤ t) (h : MmapOk m hi t) :
    ∃ c, mmapContent fuel m t = some c ∧ Inside lo hi c.2 := by
  obtain ⟨hhead, hzero, hentries⟩ := h
  have hrun : ∃ r, mmapLoopReads m t fuel 16 = some r ∧ Inside lo hi r.2 := by
    rcases Nat.eq_zero_or_pos (leNat m 4 (t + 8)) with hes | hes
    · have hsmall := hzero hes
      obtain ⟨fuel, rfl⟩ := Nat.exists_eq_succ_of_ne_zero (Nat.ne_zero_of_lt hfuel)
      have hstop : ¬ entryOffset m t 16 1 ≤ tagSize m t := by
        rw [entryOffset, hes]
        omega
      rw [Nat.succ_eq_add_one, mmapLoopReads_succ, if_neg hstop]
      exact ⟨_, rfl, inside_cons.mpr ⟨by dsimp only; omega, inside_nil⟩⟩
    · obtain ⟨μ, hμle, hμ⟩ := exists_measure hes
      exact mmapLoopReads_complete hμ hblock hlo hhead (by decide) hentries ((hμle 16).trans_lt hfuel)
  obtain ⟨r, hr, hin⟩ := hrun
  have hread : lo ≤ t + 8 ∧ t + 8 + 4 ≤ hi := by omega
  refine ⟨(r.1, (t + 8, 4) :: r.2), ?_, inside_cons.mpr ⟨hread, hin⟩⟩
  rw [mmapContent, hr, Option.map_some]

end Contents

section Parse

variable {m : Memory} {info fuel : ℕ}

def WalkOk (m : Memory) (info tag : ℕ) (leave : Bool) (content : ℕ → Prop) : Prop :=
  ∀ t, Visited m (info + totalSize m info) tag leave (mb2FirstTag info) t → t < info + totalSize m info →
    TagOk m info (info + totalSize m info) tag leave content t

def Occurs (m : Memory) (info tag : ℕ) (leave : Bool) : Prop :=
  ∃ t, Visited m (info + totalSize m info) tag leave (mb2FirstTag info) t ∧ t < info + totalSize m info ∧ tagType m t = tag

/-- The loops that `parse_mb2` runs can pass what they come to. -/
def Readable (m : Memory) (info : ℕ) (fromUefi : Bool) : Prop :=
  (fromUefi → WalkOk m info tagEfiMmap true (EfiOk m (info + totalSize m info))) ∧
    (¬ (fromUefi ∧ Occurs m info tagEfiMmap true) →
      WalkOk m info tagMmap false (MmapOk m (info + totalSize m info)) ∧
        (¬ Occurs m info tagMmap false →
          WalkOk m info tagBasicMeminfo true fun t => t + 16 ≤ info + totalSize m info))

section Walks

variable {γ : Type} {tag : ℕ} {leave : Bool} {join : Option γ → γ → γ} {content : ℕ → Option (γ × List Read)}
  {ok : ℕ → Prop}

theorem walk_sound (hcontent : ∀ t c, content t = some c → Inside info (info + totalSize m info) c.2 → ok t)
    {r : Option γ × List Read}
    (h : tagLoopReads m (info + totalSize m info) tag leave join content fuel (mb2FirstTag info) none = some r)
    (hin : Inside info (info + totalSize m info) r.2) : WalkOk m info tag leave ok :=
  fun _ ht hlt => tagLoopReads_sound hcontent h hin ht hlt

theorem walk_complete (hblock : totalSize m info ≤ 2 ^ 31) (hend : info + totalSize m info < 2 ^ 64)
    (hcontent : ∀ t, info ≤ t → ok t → ∃ c, content t = some c ∧ Inside info (info + totalSize m info) c.2)
    (hfuel : 2 ^ 31 < fuel) (h : WalkOk m info tag leave ok) :
    ∃ r, tagLoopReads m (info + totalSize m info) tag leave join content fuel (mb2FirstTag info) none = some r ∧
      Inside info (info + totalSize m info) r.2 := by
  refine tagLoopReads_complete (Nat.add_le_add_left hblock info) hend hcontent h ?_
  unfold mb2FirstTag
  omega

theorem walk_found (htag : tag ≠ tagEnd) {r : Option γ × List Read}
    (h : tagLoopReads m (info + totalSize m info) tag leave join content fuel (mb2FirstTag info) none = some r) :
    r.1.isSome ↔ Occurs m info tag leave := by
  refine (tagLoopReads_found htag h).trans (or_iff_right ?_)
  exact Bool.false_ne_true

end Walks

theorem parseMb2_cases {fromUefi : Bool} {r : MemoryMap × List Read} (hinfo : info ≠ 0)
    (h : parseMb2 fuel m info fromUefi = some r) :
    ∃ efi reads, (if fromUefi then efiLoop fuel m info else some (none, [])) = some (efi, reads) ∧ reads ⊆ r.2 ∧
      (efi = none → ∃ mmap reads', mmapLoop fuel m info = some (mmap, reads') ∧ reads' ⊆ r.2 ∧
        (mmap = none → ∃ basic reads'', basicLoop fuel m info = some (basic, reads'') ∧ reads'' ⊆ r.2)) := by
  rw [parseMb2, if_neg hinfo] at h
  obtain ⟨⟨efi, reads⟩, hefi, h⟩ := Option.bind_eq_some_iff.mp h
  refine ⟨efi, reads, hefi, ?_⟩
  cases efi with
  | some es =>
    obtain rfl := Option.some.inj h
    exact ⟨List.subset_cons_self _ _, nofun⟩
  | none =>
    obtain ⟨⟨mmap, reads'⟩, hmmap, h⟩ := Option.bind_eq_some_iff.mp h
    cases mmap with
    | some es =>
      obtain rfl := Option.some.inj h
      refine ⟨fun x hx => List.mem_append_left _ (List.mem_cons_of_mem _ hx), fun _ => ⟨_, reads', hmmap, ?_, nofun⟩⟩
      exact List.subset_append_right _ _
    | none =>
      obtain ⟨⟨basic, reads''⟩, hbasic, h⟩ := Option.bind_eq_some_iff.mp h
      have hr : r.2 = (info, 4) :: reads ++ reads' ++ reads'' := by
        cases basic <;> exact (congrArg Prod.snd (Option.some.inj h)).symm
      rw [hr]
      refine ⟨?_, fun _ => ⟨_, reads', hmmap, ?_, fun _ => ⟨_, reads'', hbasic, List.subset_append_right _ _⟩⟩⟩
      · exact fun x hx => List.mem_append_left _ (List.mem_append_left _ (List.mem_cons_of_mem _ hx))
      · exact fun x hx => List.mem_append_left _ (List.mem_append_right _ hx)

theorem parseMb2_sound {fromUefi : Bool} {r : MemoryMap × List Read} (hinfo : info ≠ 0)
    (h : parseMb2 fuel m info fromUefi = some r) (hin : Inside info (info + totalSize m info) r.2) :
    Readable m info fromUefi := by
  obtain ⟨efi, reads, hefi, hsub, hmore⟩ := parseMb2_cases hinfo h
  refine ⟨?_, ?_⟩
  · rintro rfl
    rw [if_pos rfl] at hefi
    refine walk_sound ?_ hefi fun x hx => hin x (hsub hx)
    rintro t c hc hcin
    exact efiReads_sound (Option.some.inj hc ▸ hcin)
  · intro hno
    have hnone : efi = none := by
      cases fromUefi with
      | false => exact (congrArg Prod.fst (Option.some.inj hefi)).symm
      | true => exact Option.not_isSome_iff_eq_none.mp fun hs => hno ⟨rfl, (walk_found (by decide) hefi).mp hs⟩
    obtain ⟨mmap, reads', hmmap, hsub', hmore⟩ := hmore hnone
    refine ⟨walk_sound (fun t c => mmapContent_sound) hmmap fun x hx => hin x (hsub' hx), ?_⟩
    intro hno'
    have hnone' : mmap = none :=
      Option.not_isSome_iff_eq_none.mp fun hs => hno' ((walk_found (by decide) hmmap).mp hs)
    obtain ⟨basic, reads'', hbasic, hsub''⟩ := hmore hnone'
    refine walk_sound ?_ hbasic fun x hx => hin x (hsub'' hx)
    rintro t c hc hcin
    obtain rfl := Option.some.inj hc
    exact (inside_cons.mp (inside_cons.mp hcin).2).1.2

theorem parseMb2_complete {fromUefi : Bool} (hsize : 8 ≤ totalSize m info) (hblock : totalSize m info ≤ 2 ^ 31)
    (hend : info + totalSize m info < 2 ^ 64) (hfuel : 2 ^ 31 < fuel) (hinfo : info ≠ 0) (h : Readable m info fromUefi) :
    ∃ r, parseMb2 fuel m info fromUefi = some r ∧ Inside info (info + totalSize m info) r.2 := by
  have hheader : info ≤ info ∧ info + 4 ≤ info + totalSize m info := by omega
  have hefi : ∃ r, (if fromUefi then efiLoop fuel m info else some (none, [])) = some r ∧
      Inside info (info + totalSize m info) r.2 ∧ (r.1 = none → ¬ (fromUefi ∧ Occurs m info tagEfiMmap true)) := by
    cases fromUefi with
    | false => exact ⟨_, rfl, inside_nil, fun _ hu => Bool.false_ne_true hu.1⟩
    | true =>
      obtain ⟨r, hr, hin⟩ : ∃ r, efiLoop fuel m info = some r ∧ Inside info (info + totalSize m info) r.2 :=
        walk_complete hblock hend (fun t hlo ht => ⟨_, rfl, efiReads_complete hlo ht⟩) hfuel (h.1 rfl)
      refine ⟨r, hr, hin, ?_⟩
      rintro hnone ⟨-, hoccurs⟩
      have hsome := (walk_found (by decide) hr).mpr hoccurs
      rw [hnone] at hsome
      exact Bool.false_ne_true hsome
  obtain ⟨⟨efi, reads⟩, hefi, hin, hnone⟩ := hefi
  rw [parseMb2, if_neg hinfo, hefi, Option.bind_eq_bind, Option.bind_some]
  cases efi with
  | some es => exact ⟨_, rfl, inside_cons.mpr ⟨hheader, hin⟩⟩
  | none =>
    obtain ⟨hmmapOk, hbasicOk⟩ := h.2 (hnone rfl)
    obtain ⟨⟨mmap, reads'⟩, hmmap, hin'⟩ : ∃ r, mmapLoop fuel m info = some r ∧ Inside info (info + totalSize m info) r.2 :=
      walk_complete hblock hend (fun t => mmapContent_complete (Nat.add_le_add_left hblock info) hfuel) hfuel hmmapOk
    have hreads : Inside info (info + totalSize m info) ((info, 4) :: reads ++ reads') :=
      inside_append.mpr ⟨inside_cons.mpr ⟨hheader, hin⟩, hin'⟩
    dsimp only
    rw [hmmap, Option.bind_some]
    cases mmap with
    | some es => exact ⟨_, rfl, hreads⟩
    | none =>
      have hno : ¬ Occurs m info tagMmap false := fun ho => Bool.false_ne_true ((walk_found (by decide) hmmap).mpr ho)
      obtain ⟨⟨basic, reads''⟩, hbasic, hin''⟩ :
          ∃ r, basicLoop fuel m info = some r ∧ Inside info (info + totalSize m info) r.2 := by
        refine walk_complete hblock hend (fun t hlo ht => ⟨_, rfl, ?_⟩) hfuel (hbasicOk hno)
        simp only [inside_cons, inside_nil, and_true]
        omega
      dsimp only
      rw [hbasic, Option.bind_eq_bind, Option.bind_some]
      cases basic with
      | some upper => exact ⟨_, rfl, inside_append.mpr ⟨hreads, hin''⟩⟩
      | none => exact ⟨_, rfl, inside_append.mpr ⟨hreads, hin''⟩⟩

/-- `parse_mb2` ends and stays inside the block if and only if there is no block, or its loops can pass every tag that
they come to. -/
theorem parseMb2_robust_iff (m : Memory) (info : ℕ) (fromUefi : Bool) (hsize : 8 ≤ totalSize m info)
    (hblock : totalSize m info ≤ 2 ^ 31) (hend : info + totalSize m info < 2 ^ 64) :
    (∃ fuel r, parseMb2 fuel m info fromUefi = some r ∧ Inside info (info + totalSize m info) r.2) ↔
      info = 0 ∨ Readable m info fromUefi := by
  by_cases hinfo : info = 0
  · refine iff_of_true ⟨0, (.missing, []), ?_, inside_nil⟩ (.inl hinfo)
    rw [parseMb2, if_pos hinfo]
  · rw [or_iff_right hinfo]
    constructor
    · rintro ⟨fuel, r, hr, hin⟩
      exact parseMb2_sound hinfo hr hin
    · intro h
      exact ⟨2 ^ 31 + 1, parseMb2_complete hsize hblock hend (Nat.lt_succ_self _) hinfo h⟩

def mapBlock : Memory
  | 0x1000 => 56
  | 0x1008 => 6
  | 0x100c => 40
  | 0x1010 => 24
  | 0x101a => 16
  | 0x1022 => 1
  | 0x1028 => 1
  | 0x1034 => 8
  | _ => 0

theorem parseMb2_robust_iff_mapBlock : Readable mapBlock 0x1000 true := by
  have hrun : (parseMb2 3 mapBlock 0x1000 true).any (fun r =>
      decide (r.1 = .mmap [⟨0x100000, 0x10000, 1⟩] ∧ ∀ x ∈ r.2, 0x1000 ≤ x.1 ∧ x.1 + x.2 ≤ 0x1038)) = true := by
    decide +kernel
  obtain ⟨r, hr, hin⟩ := (Option.any_eq_true _ _).mp hrun
  have hiff := parseMb2_robust_iff mapBlock 0x1000 true (by decide) (by decide) (by decide)
  exact (hiff.mp ⟨3, r, hr, (of_decide_eq_true hin).2⟩).resolve_left (by decide)

def stuckBlock : Memory := fun a => if a = 0x1000 then 16 else if a = 0x1008 then 1 else 0

theorem stuckBlock_unreadable : 8 ≤ totalSize stuckBlock 0x1000 ∧ totalSize stuckBlock 0x1000 ≤ 2 ^ 31 ∧
    ∀ fromUefi, ¬ ∃ fuel r, parseMb2 fuel stuckBlock 0x1000 fromUefi = some r ∧
      Inside 0x1000 (0x1000 + totalSize stuckBlock 0x1000) r.2 := by
  refine ⟨by decide, by decide, ?_⟩
  rintro fromUefi ⟨fuel, r, hr, hin⟩
  have hend : tagType stuckBlock 0x1008 ≠ tagEnd := by decide
  have hstay : mb2NextTag stuckBlock 0x1008 = 0x1008 := by
    unfold mb2NextTag alignUp
    decide
  have hwalk := parseMb2_sound (by decide) hr hin
  cases fromUefi with
  | true =>
    have htag := hwalk.1 rfl 0x1008 .refl (by decide)
    exact htag.moves hend (by decide) hstay
  | false =>
    have htag := (hwalk.2 fun h => Bool.false_ne_true h.1).1 0x1008 .refl (by decide)
    exact htag.moves hend (by decide) hstay

end Parse

end DexOs.Mb2
