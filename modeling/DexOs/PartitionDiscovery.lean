import DexOs.Lib.Linked
import DexOs.PartitionConfinement
import DexOs.VfsMounts

/-! The list of registered block devices and the partition scan over it, with the pointers that `block.c` follows:
the scan walks the list and puts new devices in front of it. -/

namespace DexOs

open DexOs.Lib

variable {σ H : Type}

/-- The memory behind a `block_device_t` pointer. `priv` is the `part_priv_t` of a partition: the address of its
parent, `lba_base` and `lba_count`. -/
structure Record (σ : Type) where
  dev : BlockDevice σ
  priv : Option (ℕ × ℕ × ℕ)

/-- `g_head` and the memory that it leads to; 0 is the null pointer. -/
structure Registry (σ : Type) where
  head : ℕ
  next : ℕ → ℕ
  record : ℕ → Record σ

def blockRegister (g : Registry σ) (dev : ℕ) (x : Record σ) : Registry σ where
  head := dev
  next := Function.update g.next dev g.head
  record := Function.update g.record dev x

def blockFindFrom (g : Registry σ) (name : List UInt8) : ℕ → ℕ → Option (Option ℕ)
  | 0, _ => none
  | fuel + 1, d =>
    if d = 0 then some none
    else if strEq name (g.record d).dev.name then some (some d)
    else blockFindFrom g name fuel (g.next d)

section Scan

def bootRecord (d : BlockDevice σ) (s : σ) : Option (List UInt8) × σ :=
  match d.read with
  | none => (none, s)
  | some read =>
    if d.sectorSize ≠ 512 then (none, s)
    else
      let r := read s 0 1
      if r.1.1 ≠ 1 then (none, r.2)
      else if byteAt r.1.2 510 ≠ 0x55 ∨ byteAt r.1.2 511 ≠ 0xAA then (none, r.2)
      else (some r.1.2, r.2)

def childRecord (d : ℕ) (parent : BlockDevice σ) (i : ℕ) (e : MbrEntry) : Record σ where
  dev := (Partition.mk (partitionName parent.name i) parent e.start e.count).toDevice
  priv := some (d, e.start, e.count)

variable [KernelAlloc H]

def scanEntryAt (d : ℕ) (mbr : List UInt8) (r : Registry σ × H) (i : ℕ) : Registry σ × H :=
  let e := mbrEntry mbr i
  if e.type = 0 ∨ e.count = 0 then r
  else match KernelAlloc.kmalloc r.2 56 with -- sizeof(block_device_t)
    | (none, h) => (r.1, h)
    | (some pd, h) => match KernelAlloc.kmalloc h 24 with -- sizeof(part_priv_t)
      | (none, h) => (r.1, h)
      | (some _, h) => (blockRegister r.1 pd (childRecord d (r.1.record d).dev i e), h)

def scanDeviceAt (d : ℕ) (g : Registry σ) (s : σ) (h : H) : Registry σ × σ × H :=
  match bootRecord (g.record d).dev s with
  | (none, s) => (g, s, h)
  | (some mbr, s) =>
    let r := [0, 1, 2, 3].foldl (scanEntryAt d mbr) (g, h)
    (r.1, s, r.2)

def scanFrom : ℕ → ℕ → Registry σ → σ → H → Option (Registry σ × σ × H)
  | 0, _, _, _, _ => none
  | fuel + 1, d, g, s, h =>
    if d = 0 then some (g, s, h)
    else
      let r := scanDeviceAt d g s h
      scanFrom fuel (r.1.next d) r.1 r.2.1 r.2.2

def scanRegistry (fuel : ℕ) (g : Registry σ) (s : σ) (h : H) : Option (Registry σ × σ × H) :=
  scanFrom fuel g.head g s h

end Scan

section Chain

variable {g : Registry σ} {l : List ℕ}

def Registry.Chain (g : Registry σ) (l : List ℕ) : Prop := Linked g.next 0 g.head l

theorem blockRegister_chain (hl : g.Chain l) {p : ℕ} (h0 : p ≠ 0) (hp : p ∉ l) (x : Record σ) :
    (blockRegister g p x).Chain (p :: l) := by
  refine (linked_cons ..).mpr ⟨rfl, h0, ?_⟩
  change Linked (Function.update g.next p g.head) 0 (Function.update g.next p g.head p) l
  rw [Function.update_self]
  refine (linked_congr ?_ 0 g.head).mpr hl
  intro c hc
  exact Function.update_of_ne (ne_of_mem_of_not_mem hc hp) _ _

theorem blockFindFrom_eq (name : List UInt8) {d fuel : ℕ} (hl : Linked g.next 0 d l) (hf : l.length < fuel) :
    blockFindFrom g name fuel d = some (l.find? fun p => name = (g.record p).dev.name) := by
  induction l generalizing d fuel with
  | nil =>
    obtain ⟨fuel, rfl⟩ := Nat.exists_eq_add_of_lt hf
    rw [blockFindFrom, if_pos ((linked_nil ..).mp hl)]
    rfl
  | cons p l ih =>
    obtain ⟨rfl, h0, ht⟩ := (linked_cons ..).mp hl
    obtain ⟨fuel, rfl⟩ : ∃ n, fuel = n + 1 := ⟨fuel - 1, by omega⟩
    rw [blockFindFrom, if_neg h0, Vfs.strEq_eq, List.find?_cons]
    by_cases hname : name = (g.record d).dev.name
    · rw [decide_eq_true hname]
      rfl
    · rw [decide_eq_false hname]
      exact ih ht (by simpa using hf)

theorem blockFindFrom_name {name : List UInt8} {fuel d p : ℕ} (h : blockFindFrom g name fuel d = some (some p)) :
    name = (g.record p).dev.name := by
  induction fuel generalizing d with
  | zero => cases h
  | succ fuel ih =>
    rw [blockFindFrom] at h
    split_ifs at h with h0 heq
    · cases h
    · obtain rfl := Option.some.inj (Option.some.inj h)
      exact (Vfs.strEq_iff _ _).mp heq
    · exact ih h

end Chain

section Grow

variable [KernelAlloc H] {used : H → ℕ → Prop}

/-- `kmalloc` succeeds, with an address that is not in use. -/
structure Supplies (used : H → ℕ → Prop) : Prop where
  gives : ∀ h n, 0 < n → ∃ p, (KernelAlloc.kmalloc h n).1 = some p ∧ p ≠ 0 ∧ ¬ used h p ∧
    ∀ q, used (KernelAlloc.kmalloc h n).2 q ↔ q = p ∨ used h q

def entryRecord (d : ℕ) (parent : BlockDevice σ) (mbr : List UInt8) (i : ℕ) : Option (Record σ) :=
  if (mbrEntry mbr i).type = 0 ∨ (mbrEntry mbr i).count = 0 then none else some (childRecord d parent i (mbrEntry mbr i))

structure Grown (used : H → ℕ → Prop) (g₀ : Registry σ) (old : List ℕ) (xs : List (Record σ)) (new : List ℕ)
    (g : Registry σ) (h : H) : Prop where
  chain : g.Chain (new ++ old)
  records : new.map g.record = xs.reverse
  kept : ∀ d ∈ old, g.record d = g₀.record d
  inUse : ∀ p ∈ new ++ old, used h p

variable {g₀ g : Registry σ} {old new : List ℕ} {xs : List (Record σ)} {h : H}

omit [KernelAlloc H] in
theorem Grown.register (hg : Grown used g₀ old xs new g h) {p : ℕ} {h' : H} (h0 : p ≠ 0) (hp : ¬ used h p)
    (huse : ∀ q, q = p ∨ used h q → used h' q) (x : Record σ) :
    Grown used g₀ old (xs ++ [x]) (p :: new) (blockRegister g p x) h' := by
  have hfresh : p ∉ new ++ old := fun hmem => hp (hg.inUse p hmem)
  have hother {q : ℕ} (hq : q ∈ new ++ old) : (blockRegister g p x).record q = g.record q :=
    Function.update_of_ne (ne_of_mem_of_not_mem hq hfresh) _ _
  constructor
  case chain => exact blockRegister_chain hg.chain h0 hfresh x
  case records =>
    have hnew : new.map (blockRegister g p x).record = new.map g.record :=
      List.map_congr_left fun q hq => hother (List.mem_append_left _ hq)
    have hself : (blockRegister g p x).record p = x := by simp [blockRegister]
    rw [List.map_cons, hnew, hself, hg.records, List.reverse_append]
    rfl
  case kept =>
    intro d hd
    rw [hother (List.mem_append_right _ hd), hg.kept d hd]
  case inUse =>
    intro q hq
    apply huse
    rcases List.mem_cons.mp hq with rfl | hq
    · exact .inl rfl
    · exact .inr (hg.inUse q hq)

theorem scanEntryAt_grown (S : Supplies used) (hg : Grown used g₀ old xs new g h) {d : ℕ} (hd : d ∈ old)
    (mbr : List UInt8) (i : ℕ) :
    ∃ new', Grown used g₀ old (xs ++ (entryRecord d (g₀.record d).dev mbr i).toList) new'
      (scanEntryAt d mbr (g, h) i).1 (scanEntryAt d mbr (g, h) i).2 := by
  obtain ⟨p, hp, h0, hfree, huse⟩ := S.gives h 56 (by decide)
  obtain ⟨q, hq, -, -, huse'⟩ := S.gives (KernelAlloc.kmalloc h 56).2 24 (by decide)
  unfold scanEntryAt entryRecord
  dsimp only
  split
  · refine ⟨new, ?_⟩
    rw [Option.toList_none, List.append_nil]
    exact hg
  · rw [← Prod.eta (KernelAlloc.kmalloc h 56), hp]
    dsimp only
    rw [← Prod.eta (KernelAlloc.kmalloc (KernelAlloc.kmalloc h 56).2 24), hq]
    dsimp only
    rw [← hg.kept d hd, Option.toList_some]
    refine ⟨p :: new, hg.register h0 hfree ?_ _⟩
    intro x hx
    exact (huse' x).mpr (.inr ((huse x).mpr hx))

theorem scanEntries_grown (S : Supplies used) {d : ℕ} (hd : d ∈ old) (mbr : List UInt8) (is : List ℕ)
    (hg : Grown used g₀ old xs new g h) :
    ∃ new', Grown used g₀ old (xs ++ is.filterMap (entryRecord d (g₀.record d).dev mbr)) new'
      (is.foldl (scanEntryAt d mbr) (g, h)).1 (is.foldl (scanEntryAt d mbr) (g, h)).2 := by
  induction is generalizing xs new g h with
  | nil =>
    rw [List.filterMap_nil, List.append_nil]
    exact ⟨new, hg⟩
  | cons i is ih =>
    obtain ⟨new', hg'⟩ := scanEntryAt_grown S hg hd mbr i
    obtain ⟨new'', hg''⟩ := ih hg'
    refine ⟨new'', ?_⟩
    rw [List.filterMap_cons, List.append_assoc] at *
    cases he : entryRecord d (g₀.record d).dev mbr i with
    | none =>
      rw [he] at hg''
      exact hg''
    | some x =>
      rw [he] at hg''
      exact hg''

def signedDevices (g : Registry σ) : List ℕ → σ → List (ℕ × List UInt8)
  | [], _ => []
  | d :: ds, s =>
    let r := bootRecord (g.record d).dev s
    (r.1.map (d, ·)).toList ++ signedDevices g ds r.2

def partitionRecords (g : Registry σ) (x : ℕ × List UInt8) : List (Record σ) :=
  [0, 1, 2, 3].filterMap (entryRecord x.1 (g.record x.1).dev x.2)

theorem scanDeviceAt_grown (S : Supplies used) (hg : Grown used g₀ old xs new g h) {d : ℕ} (hd : d ∈ old) (s : σ) :
    (scanDeviceAt d g s h).2.1 = (bootRecord (g₀.record d).dev s).2 ∧
      ∃ new', Grown used g₀ old
        (xs ++ ((bootRecord (g₀.record d).dev s).1.map (d, ·)).toList.flatMap (partitionRecords g₀)) new'
        (scanDeviceAt d g s h).1 (scanDeviceAt d g s h).2.2 := by
  unfold scanDeviceAt
  rw [hg.kept d hd]
  cases hb : bootRecord (g₀.record d).dev s with
  | mk mbr s' =>
    cases mbr with
    | none =>
      refine ⟨rfl, new, ?_⟩
      rw [Option.map_none, Option.toList_none, List.flatMap_nil, List.append_nil]
      exact hg
    | some mbr =>
      refine ⟨rfl, ?_⟩
      rw [Option.map_some, Option.toList_some, List.flatMap_singleton]
      exact scanEntries_grown S hd mbr [0, 1, 2, 3] hg

theorem scanFrom_grown (S : Supplies used) {done rest : List ℕ} (hold : old = done ++ rest) {d : ℕ}
    (hd : Linked g.next 0 d rest) (hg : Grown used g₀ old xs new g h) (s : σ) :
    ∃ g' s' h' new', (∀ fuel, rest.length < fuel → scanFrom fuel d g s h = some (g', s', h')) ∧
      Grown used g₀ old (xs ++ (signedDevices g₀ rest s).flatMap (partitionRecords g₀)) new' g' h' := by
  induction rest generalizing done d xs new g h s with
  | nil =>
    refine ⟨g, s, h, new, ?_, ?_⟩
    · intro fuel hfuel
      obtain ⟨n, rfl⟩ : ∃ n, fuel = n + 1 := ⟨fuel - 1, by omega⟩
      rw [scanFrom, if_pos ((linked_nil ..).mp hd)]
    · rw [signedDevices, List.flatMap_nil, List.append_nil]
      exact hg
  | cons c rest ih =>
    obtain ⟨rfl, h0, -⟩ := (linked_cons ..).mp hd
    have hmem : d ∈ old := by
      rw [hold]
      exact List.mem_append_right _ List.mem_cons_self
    obtain ⟨hs, new', hg'⟩ := scanDeviceAt_grown S hg hmem s
    have hnext : Linked (scanDeviceAt d g s h).1.next 0 ((scanDeviceAt d g s h).1.next d) rest := by
      have hchain := hg'.chain
      rw [hold, ← List.append_assoc] at hchain
      exact Linked.suffix hchain
    have hold' : old = (done ++ [d]) ++ rest := by
      rw [hold, List.append_assoc]
      rfl
    obtain ⟨g', s', h', new'', hrun, hg''⟩ := ih hold' hnext hg' (scanDeviceAt d g s h).2.1
    refine ⟨g', s', h', new'', ?_, ?_⟩
    · intro fuel hfuel
      obtain ⟨n, rfl⟩ : ∃ n, fuel = n + 1 := ⟨fuel - 1, by omega⟩
      rw [scanFrom, if_neg h0]
      exact hrun n (by simpa using hfuel)
    · rw [hs, List.append_assoc] at hg''
      rw [signedDevices, List.flatMap_append]
      exact hg''

section Abstraction

/-! The devices registered here are the partitions of `blockScanPartitions`. -/

theorem scanEntry_supplied (S : Supplies used) (d : ℕ) (parent : BlockDevice σ) (mbr : List UInt8) (h : H) (i : ℕ) :
    (scanEntry parent mbr h i).1.map Partition.toDevice = (entryRecord d parent mbr i).map Record.dev := by
  obtain ⟨p, hp, -⟩ := S.gives h 56 (by decide)
  obtain ⟨q, hq, -⟩ := S.gives (KernelAlloc.kmalloc h 56).2 24 (by decide)
  unfold scanEntry entryRecord
  dsimp only
  split
  · rfl
  · rw [← Prod.eta (KernelAlloc.kmalloc h 56), hp]
    dsimp only
    rw [← Prod.eta (KernelAlloc.kmalloc (KernelAlloc.kmalloc h 56).2 24), hq]
    rfl

theorem scanEntries_supplied (S : Supplies used) (d : ℕ) (parent : BlockDevice σ) (mbr : List UInt8) (h : H)
    (is : List ℕ) :
    (scanEntries parent mbr h is).1.map Partition.toDevice = (is.filterMap (entryRecord d parent mbr)).map Record.dev := by
  induction is generalizing h with
  | nil => rfl
  | cons i is ih =>
    have hi := scanEntry_supplied S d parent mbr h i
    rw [scanEntries, List.map_append, ih, List.filterMap_cons]
    cases he : entryRecord d parent mbr i with
    | none =>
      rw [he, Option.map_none, Option.map_eq_none_iff] at hi
      rw [hi]
      rfl
    | some x =>
      rw [he] at hi
      obtain ⟨p, hp, hx⟩ := Option.map_eq_some_iff.mp hi
      rw [hp, List.map_cons, ← hx]
      rfl

theorem scanDevice_eq (d : BlockDevice σ) (s : σ) (h : H) :
    scanDevice d s h = match bootRecord d s with
      | (none, s) => ([], s, h)
      | (some mbr, s) => ((scanEntries d mbr h [0, 1, 2, 3]).1, s, (scanEntries d mbr h [0, 1, 2, 3]).2) := by
  unfold scanDevice bootRecord
  cases d.read with
  | none => rfl
  | some read =>
    dsimp only
    split_ifs <;> rfl

theorem newRecords_eq_scan (S : Supplies used) (g : Registry σ) (old : List ℕ) (s : σ) (h : H) :
    ((signedDevices g old s).flatMap (partitionRecords g)).map Record.dev =
      (blockScanPartitions (old.map fun d => (g.record d).dev) s h).1.map Partition.toDevice := by
  induction old generalizing s h with
  | nil => rfl
  | cons d old ih =>
    rw [signedDevices, List.map_cons, blockScanPartitions, scanDevice_eq]
    cases hb : bootRecord (g.record d).dev s with
    | mk mbr s' =>
      cases mbr with
      | none => exact ih s' h
      | some mbr =>
        dsimp only
        rw [List.flatMap_append, List.map_append, List.map_append, scanEntries_supplied S d, ← ih,
          Option.map_some, Option.toList_some, List.flatMap_singleton]
        rfl

end Abstraction

end Grow

section Discovery

def Registry.Lists (g : Registry σ) (p : ℕ) : Prop := ∃ l, g.Chain l ∧ p ∈ l

def Registry.Finds (g : Registry σ) (name : List UInt8) (p : ℕ) : Prop :=
  ∃ fuel, blockFindFrom g name fuel g.head = some (some p)

def childName (parent : List UInt8) (i : ℕ) : List UInt8 := parent ++ [112, UInt8.ofNat (49 + i)]

def UsedEntry (g : Registry σ) (old : List ℕ) (s : σ) (d i : ℕ) (e : MbrEntry) : Prop :=
  ∃ mbr, (d, mbr) ∈ signedDevices g old s ∧ i < 4 ∧ e = mbrEntry mbr i ∧ e.type ≠ 0 ∧ e.count ≠ 0

/-- One of the new devices has the name of the entry, is the one found under it, and is the partition that the
entry describes; the partition lies on the parent. -/
structure Discovered (g g' : Registry σ) (d i : ℕ) (e : MbrEntry) : Prop where
  registered : ∃ p, g'.Lists p ∧ ¬ g.Lists p ∧ g'.Finds (childName (g.record d).dev.name i) p ∧
    (g'.record p).priv = some (d, e.start, e.count) ∧
    ∀ q, g'.Lists q → ¬ g.Lists q → (g'.record q).dev.name = childName (g.record d).dev.name i → q = p
  inside : e.start + e.count ≤ (g.record d).dev.sectorCount

theorem Registry.Chain.lists_iff {g : Registry σ} {l : List ℕ} (hl : g.Chain l) (p : ℕ) : g.Lists p ↔ p ∈ l := by
  constructor
  · rintro ⟨m, hm, hp⟩
    rwa [hl.unique hm]
  · intro hp
    exact ⟨l, hl, hp⟩

theorem childName_inj {a b : List UInt8} {i j : ℕ} (hi : i < 4) (hj : j < 4) (h : childName a i = childName b j) :
    a = b ∧ i = j := by
  obtain ⟨hab, hd⟩ := List.append_inj' h rfl
  refine ⟨hab, ?_⟩
  have hdigit : UInt8.ofNat (49 + i) = UInt8.ofNat (49 + j) := by simpa using hd
  have hnat := congrArg UInt8.toNat hdigit
  rw [UInt8.toNat_ofNat_of_lt' (by simp [UInt8.size]; omega), UInt8.toNat_ofNat_of_lt' (by simp [UInt8.size]; omega)] at hnat
  omega

theorem partitionName_eq {name : List UInt8} (h : name.length ≤ 12) (i : ℕ) : partitionName name i = childName name i := by
  rw [partitionName, List.take_of_length_le (by omega : name.length ≤ 15), List.take_of_length_le h]
  rfl

theorem length_partitionName (name : List UInt8) (i : ℕ) : (partitionName name i).length ≤ 14 := by
  rw [partitionName, List.length_append, List.length_take, List.length_take]
  simp only [List.length_cons, List.length_nil]
  omega

variable {g : Registry σ} {old : List ℕ} {s : σ}

theorem mem_partitionRecords {x : ℕ × List UInt8} {r : Record σ} :
    r ∈ partitionRecords g x ↔ ∃ i < 4, (mbrEntry x.2 i).type ≠ 0 ∧ (mbrEntry x.2 i).count ≠ 0 ∧
      r = childRecord x.1 (g.record x.1).dev i (mbrEntry x.2 i) := by
  unfold partitionRecords entryRecord
  rw [List.mem_filterMap]
  constructor
  · rintro ⟨i, hi, hr⟩
    have hi4 : i < 4 := by
      simp only [List.mem_cons, List.not_mem_nil, or_false] at hi
      omega
    split_ifs at hr with hz
    obtain ⟨ht, hc⟩ := not_or.mp hz
    exact ⟨i, hi4, ht, hc, (Option.some.inj hr).symm⟩
  · rintro ⟨i, hi, ht, hc, rfl⟩
    refine ⟨i, ?_, if_neg (not_or.mpr ⟨ht, hc⟩)⟩
    simp only [List.mem_cons, List.not_mem_nil, or_false]
    omega

theorem mem_newRecords {r : Record σ} :
    r ∈ (signedDevices g old s).flatMap (partitionRecords g) ↔
      ∃ d i e, UsedEntry g old s d i e ∧ r = childRecord d (g.record d).dev i e := by
  rw [List.mem_flatMap]
  constructor
  · rintro ⟨⟨d, mbr⟩, hx, hr⟩
    obtain ⟨i, hi, ht, hc, rfl⟩ := mem_partitionRecords.mp hr
    exact ⟨d, i, _, ⟨mbr, hx, hi, rfl, ht, hc⟩, rfl⟩
  · rintro ⟨d, i, e, ⟨mbr, hx, hi, rfl, ht, hc⟩, rfl⟩
    exact ⟨(d, mbr), hx, mem_partitionRecords.mpr ⟨i, hi, ht, hc, rfl⟩⟩

theorem signedDevices_sublist (g : Registry σ) (old : List ℕ) (s : σ) :
    ((signedDevices g old s).map Prod.fst).Sublist old := by
  induction old generalizing s with
  | nil => exact List.Sublist.refl _
  | cons d old ih =>
    rw [signedDevices]
    cases (bootRecord (g.record d).dev s).1 with
    | none => exact (ih _).cons d
    | some mbr => exact (ih _).cons_cons d

theorem newNames_nodup (hnames : (old.map fun d => (g.record d).dev.name).Nodup)
    (hshort : ∀ d i e, UsedEntry g old s d i e → (g.record d).dev.name.length ≤ 12) :
    (((signedDevices g old s).flatMap (partitionRecords g)).map fun r => r.dev.name).Nodup := by
  have hname {x : ℕ × List UInt8} (hx : x ∈ signedDevices g old s) {i : ℕ} (hi : i < 4) {n : List UInt8}
      (hn : n ∈ (entryRecord x.1 (g.record x.1).dev x.2 i).map fun r => r.dev.name) :
      n = childName (g.record x.1).dev.name i := by
    unfold entryRecord at hn
    split_ifs at hn with hz
    · cases hn
    · obtain ⟨ht, hc⟩ := not_or.mp hz
      obtain rfl := Option.some.inj hn
      exact partitionName_eq (hshort x.1 i _ ⟨x.2, hx, hi, rfl, ht, hc⟩) i
  have hlt : ∀ i ∈ [0, 1, 2, 3], i < 4 := by decide
  have hdigits : [0, 1, 2, 3].Pairwise fun i j => i ≠ j ∧ i < 4 ∧ j < 4 := by decide
  rw [List.map_flatMap, List.nodup_flatMap]
  constructor
  · intro x hx
    rw [partitionRecords, List.map_filterMap]
    refine hdigits.filterMap _ ?_
    rintro i j ⟨hij, hi, hj⟩ n hn n' hn' rfl
    have he := (hname hx hi hn).symm.trans (hname hx hj hn')
    exact hij (childName_inj hi hj he).2
  · have hparents : (signedDevices g old s).Pairwise fun x y => (g.record x.1).dev.name ≠ (g.record y.1).dev.name := by
      have hsub := (signedDevices_sublist g old s).map fun d => (g.record d).dev.name
      have := hnames.sublist hsub
      rw [List.map_map] at this
      exact List.pairwise_map.mp this
    apply hparents.imp_of_mem
    intro x y hx hy hxy n hn hn'
    change n ∈ (partitionRecords g x).map _ at hn
    change n ∈ (partitionRecords g y).map _ at hn'
    rw [partitionRecords, List.map_filterMap] at hn hn'
    obtain ⟨i, hi, hn⟩ := List.mem_filterMap.mp hn
    obtain ⟨j, hj, hn'⟩ := List.mem_filterMap.mp hn'
    have hi4 : i < 4 := by simpa using hlt i hi
    have hj4 : j < 4 := by simpa using hlt j hj
    have he := (hname hx hi4 hn).symm.trans (hname hy hj4 hn')
    exact hxy (childName_inj hi4 hj4 he).1

section Outcome

variable {used : H → ℕ → Prop} {h : H} {g' : Registry σ} {new : List ℕ}
  (hg : Grown used g old ((signedDevices g old s).flatMap (partitionRecords g)) new g' h)

include hg

theorem Grown.mem_new_iff (hold : g.Chain old) (p : ℕ) : g'.Lists p ∧ ¬ g.Lists p ↔ p ∈ new := by
  rw [hg.chain.lists_iff, hold.lists_iff, List.mem_append]
  have hdis := List.disjoint_of_nodup_append (Linked.nodup hg.chain)
  constructor
  · rintro ⟨hp | hp, hno⟩
    · exact hp
    · exact absurd hp hno
  · intro hp
    exact ⟨.inl hp, hdis hp⟩

theorem Grown.used_of_new {p : ℕ} (hp : p ∈ new) :
    ∃ d i e, UsedEntry g old s d i e ∧ g'.record p = childRecord d (g.record d).dev i e := by
  apply mem_newRecords.mp
  rw [← List.mem_reverse, ← hg.records]
  exact List.mem_map_of_mem hp

theorem Grown.new_of_used {d i : ℕ} {e : MbrEntry} (he : UsedEntry g old s d i e) :
    ∃ p ∈ new, g'.record p = childRecord d (g.record d).dev i e := by
  have hmem := mem_newRecords.mpr ⟨d, i, e, he, rfl⟩
  rw [← List.mem_reverse, ← hg.records] at hmem
  exact List.mem_map.mp hmem

theorem Grown.short_of_discovered (hold : g.Chain old) {d i : ℕ} {e : MbrEntry} (hd : Discovered g g' d i e) :
    (g.record d).dev.name.length ≤ 12 := by
  obtain ⟨p, hp, hno, ⟨fuel, hfind⟩, -⟩ := hd.registered
  obtain ⟨d', i', e', -, hx⟩ := hg.used_of_new ((hg.mem_new_iff hold p).mp ⟨hp, hno⟩)
  have hname := blockFindFrom_name hfind
  have hlen := length_partitionName (g.record d').dev.name i'
  rw [hx] at hname
  change _ = partitionName _ _ at hname
  rw [← hname, childName, List.length_append] at hlen
  simpa using hlen

theorem Grown.discovers (hold : g.Chain old) (hnames : (old.map fun d => (g.record d).dev.name).Nodup)
    (hshort : ∀ d i e, UsedEntry g old s d i e → (g.record d).dev.name.length ≤ 12) {d i : ℕ} {e : MbrEntry}
    (he : UsedEntry g old s d i e) (hin : e.start + e.count ≤ (g.record d).dev.sectorCount) : Discovered g g' d i e := by
  have hnodup : (new.map fun p => (g'.record p).dev.name).Nodup := by
    have hxs := newNames_nodup hnames hshort
    rw [← List.nodup_reverse, ← List.map_reverse, ← hg.records, List.map_map] at hxs
    exact hxs
  obtain ⟨p, hp, hx⟩ := hg.new_of_used he
  have hpname : (g'.record p).dev.name = childName (g.record d).dev.name i := by
    rw [hx]
    exact partitionName_eq (hshort d i e he) i
  have huniq {q : ℕ} (hq : q ∈ new) (hqname : (g'.record q).dev.name = childName (g.record d).dev.name i) : q = p :=
    List.inj_on_of_nodup_map hnodup hq hp (hqname.trans hpname.symm)
  obtain ⟨hlists, hno⟩ := (hg.mem_new_iff hold p).mpr hp
  refine ⟨⟨p, hlists, hno, ⟨(new ++ old).length + 1, ?_⟩, ?_, ?_⟩, hin⟩
  · -- the new devices are looked at first, and only `p` among them has the name
    rw [blockFindFrom_eq _ hg.chain (Nat.lt_succ_self _), List.find?_append]
    cases hfind : new.find? fun p => childName (g.record d).dev.name i = (g'.record p).dev.name with
    | none => exact absurd hpname.symm (by simpa using List.find?_eq_none.mp hfind p hp)
    | some q =>
      have hq := List.find?_some hfind
      rw [huniq (List.mem_of_find?_eq_some hfind) (of_decide_eq_true hq).symm]
      rfl
  · rw [hx]
    rfl
  · intro q hq hqno
    exact huniq ((hg.mem_new_iff hold q).mp ⟨hq, hqno⟩)

end Outcome

/-- The scan ends on every registry. It discovers every used entry, if and only if the parents of used entries have
names of at most 12 characters and the entries end on their devices. -/
theorem partitions_discovered_iff [KernelAlloc H] {used : H → ℕ → Prop} {h : H} (S : Supplies used)
    (hold : g.Chain old) (huse : ∀ p ∈ old, used h p) (hnames : (old.map fun d => (g.record d).dev.name).Nodup) (s : σ) :
    ∃ g' s' h', (∀ fuel, old.length < fuel → scanRegistry fuel g s h = some (g', s', h')) ∧
      ((∀ d i e, UsedEntry g old s d i e → Discovered g g' d i e) ↔
        ∀ d i e, UsedEntry g old s d i e → (g.record d).dev.name.length ≤ 12 ∧
          e.start + e.count ≤ (g.record d).dev.sectorCount) := by
  have hstart : Grown used g old [] [] g h := ⟨hold, rfl, fun _ _ => rfl, huse⟩
  obtain ⟨g', s', h', new, hrun, hg⟩ := scanFrom_grown S (List.nil_append old).symm hold hstart s
  rw [List.nil_append] at hg
  refine ⟨g', s', h', hrun, ?_⟩
  constructor
  · intro hall d i e he
    exact ⟨hg.short_of_discovered hold (hall d i e he), (hall d i e he).inside⟩
  · intro hok d i e he
    exact hg.discovers hold hnames (fun d i e he => (hok d i e he).1) he (hok d i e he).2

end Discovery

section Sample

structure Bump where
  top : ℕ

instance : KernelAlloc Bump where
  kmalloc h n := if n = 0 then (none, h) else (some (h.top + 1), ⟨h.top + 1⟩)
  kfree h _ := h
  kmalloc_zero _ := rfl

theorem bump_supplies : Supplies fun (h : Bump) (p : ℕ) => p ≤ h.top := by
  constructor
  intro h n hn
  have hrun : KernelAlloc.kmalloc h n = (some (h.top + 1), ⟨h.top + 1⟩) := if_neg hn.ne'
  rw [hrun]
  refine ⟨h.top + 1, rfl, Nat.succ_ne_zero _, by simp, ?_⟩
  intro q
  change q ≤ h.top + 1 ↔ _
  omega

def oneDisk : Registry Memory where
  head := 8
  next _ := 0
  record _ := ⟨ramdiskDevice [114, 97, 109, 48] ⟨4096, 2048⟩, none⟩

theorem oneDisk_chain : oneDisk.Chain [8] :=
  (linked_cons ..).mpr ⟨rfl, by decide, (linked_nil ..).mpr rfl⟩

def oneEntry (count : UInt8) : Memory := fun a =>
  if a = 4096 + 510 then 0x55 else if a = 4096 + 511 then 0xAA else if a = 4096 + 450 then 7
  else if a = 4096 + 454 then 1 else if a = 4096 + 458 then count else 0

theorem oneDisk_read (m : Memory) : rdRead ⟨4096, 2048⟩ 512 m 0 1 = ((1, peek m 4096 512), m) := by
  unfold rdRead rdRange
  simp

theorem bootRecord_of_read {d : BlockDevice σ} {s s' : σ} {mbr : List UInt8} {read : σ → ℕ → ℕ → (ℤ × List UInt8) × σ}
    (hread : d.read = some read) (h512 : d.sectorSize = 512) (hrun : read s 0 1 = ((1, mbr), s'))
    (hsig : byteAt mbr 510 = 0x55 ∧ byteAt mbr 511 = 0xAA) : bootRecord d s = (some mbr, s') := by
  unfold bootRecord
  rw [hread]
  dsimp only
  rw [if_neg (not_not.mpr h512), hrun]
  dsimp only
  rw [if_neg (by simp), if_neg (by simp [hsig])]

theorem oneDisk_bootRecord (count : UInt8) :
    bootRecord (oneDisk.record 8).dev (oneEntry count) = (some (peek (oneEntry count) 4096 512), oneEntry count) := by
  refine bootRecord_of_read rfl rfl (oneDisk_read _) ?_
  rw [byteAt_peek _ _ (by decide), byteAt_peek _ _ (by decide)]
  simp [oneEntry]

theorem oneDisk_entry (count : UInt8) (i : ℕ) (hi : i < 4) : mbrEntry (peek (oneEntry count) 4096 512) i =
    if i = 0 then ⟨7, 1, count.toNat⟩ else ⟨0, 0, 0⟩ := by
  unfold mbrEntry
  rw [leNat_peek _ _ (by omega), leNat_peek _ _ (by omega), leNat_peek _ _ (by omega)]
  interval_cases i <;> simp [leNat, oneEntry]

theorem oneDisk_used (count : UInt8) (d i : ℕ) (e : MbrEntry) :
    UsedEntry oneDisk [8] (oneEntry count) d i e ↔ count ≠ 0 ∧ d = 8 ∧ i = 0 ∧ e = ⟨7, 1, count.toNat⟩ := by
  have hs : signedDevices oneDisk [8] (oneEntry count) = [(8, peek (oneEntry count) 4096 512)] := by
    rw [signedDevices, oneDisk_bootRecord]
    rfl
  unfold UsedEntry
  rw [hs]
  constructor
  · rintro ⟨mbr, hm, hi, rfl, ht, hc⟩
    obtain ⟨hd, hmbr⟩ := Prod.mk.inj (List.mem_singleton.mp hm)
    rw [hmbr, oneDisk_entry count i hi] at ht hc
    rw [hmbr, oneDisk_entry count i hi]
    by_cases h0 : i = 0
    · rw [if_pos h0] at hc ⊢
      exact ⟨fun hz => hc (by rw [hz]; rfl), hd, h0, rfl⟩
    · rw [if_neg h0] at ht
      exact absurd rfl ht
  · rintro ⟨hc, rfl, rfl, rfl⟩
    refine ⟨_, List.mem_singleton_self _, by decide, ?_, by simp, ?_⟩
    · rw [oneDisk_entry count 0 (by decide), if_pos rfl]
    · intro hz
      exact hc (UInt8.toNat_inj.mp hz)

theorem entry_beyond_disk : ∃ g' s' h', scanRegistry 2 oneDisk (oneEntry 8) (⟨8⟩ : Bump) = some (g', s', h') ∧
    UsedEntry oneDisk [8] (oneEntry 8) 8 0 ⟨7, 1, 8⟩ ∧ ¬ Discovered oneDisk g' 8 0 ⟨7, 1, 8⟩ := by
  have hstart : Grown (fun (h : Bump) p => p ≤ h.top) oneDisk [8] [] [] oneDisk ⟨8⟩ :=
    ⟨oneDisk_chain, rfl, fun _ _ => rfl, fun p hp => (List.mem_singleton.mp hp).le⟩
  obtain ⟨g', s', h', new, hrun, -⟩ := scanFrom_grown bump_supplies (List.nil_append [8]).symm oneDisk_chain hstart
    (oneEntry 8)
  refine ⟨g', s', h', hrun 2 (by decide), (oneDisk_used 8 8 0 _).mpr ⟨by decide, rfl, rfl, rfl⟩, ?_⟩
  intro hd
  have hin : 1 + 8 ≤ 2048 / 512 := hd.inside
  omega

theorem partitions_discovered_iff_oneDisk : ∃ g' s' h',
    (∀ fuel, 1 < fuel → scanRegistry fuel oneDisk (oneEntry 3) (⟨8⟩ : Bump) = some (g', s', h')) ∧
      Discovered oneDisk g' 8 0 ⟨7, 1, 3⟩ := by
  obtain ⟨g', s', h', hrun, hiff⟩ := partitions_discovered_iff (h := ⟨8⟩) bump_supplies oneDisk_chain
    (fun p hp => (List.mem_singleton.mp hp).le) (List.nodup_singleton _) (oneEntry 3)
  refine ⟨g', s', h', hrun, hiff.mpr ?_ 8 0 _ ((oneDisk_used 3 8 0 _).mpr ⟨by decide, rfl, rfl, rfl⟩)⟩
  intro d i e he
  obtain ⟨-, rfl, rfl, rfl⟩ := (oneDisk_used 3 d i e).mp he
  exact ⟨by decide, by decide⟩

end Sample

end DexOs
