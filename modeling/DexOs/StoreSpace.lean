import DexOs.ExfatStore

/-! Where the clusters of a volume are after any requests. -/

namespace DexOs.Exfat

open DexOs.Lib

namespace FileStore

variable (s : FileStore)

def held : ℕ := s.free + (s.files.map StoredFile.clusters).sum

def lost : Request → ℕ
  | .remove path =>
    if fileName path = [] then 0
    else
      match s.files.findIdx? (·.name = fileName path) with
      | none => 0
      | some i => ((s.files.drop (i + 1)).map StoredFile.clusters).sum
  | _ => 0

def lostAll : List Request → FileStore → ℕ
  | [], _ => 0
  | r :: rs, s => s.lost r + lostAll rs (s.serve r).2

/-- Every file that is removed is the last one of the directory. -/
def RemovesLast : List Request → FileStore → Prop
  | [], _ => True
  | r :: rs, s => (∀ path i, r = .remove path → fileName path ≠ [] →
      s.files.findIdx? (·.name = fileName path) = some i → i + 1 = s.files.length) ∧ RemovesLast rs (s.serve r).2

variable {s}

theorem sum_set_clusters {i : ℕ} {f : StoredFile} (hf : s.files[i]? = some f) (f' : StoredFile) :
    ((s.files.set i f').map StoredFile.clusters).sum + f.clusters =
      (s.files.map StoredFile.clusters).sum + f'.clusters := by
  obtain ⟨hi, rfl⟩ := List.getElem?_eq_some_iff.mp hf
  have hold := List.take_append_drop i s.files
  rw [List.drop_eq_getElem_cons hi] at hold
  have hsum := congrArg (fun l : List StoredFile => (l.map StoredFile.clusters).sum) hold
  simp only [List.map_append, List.map_cons, List.sum_append, List.sum_cons] at hsum
  rw [List.set_eq_take_append_cons_drop, if_pos hi]
  simp only [List.map_append, List.map_cons, List.sum_append, List.sum_cons]
  omega

theorem create_held (name : List UInt8) : (s.create name).2.held = s.held := by
  rw [create]
  split_ifs with h
  · rfl
  · obtain ⟨-, h⟩ := not_or.mp h
    have hfree := (not_or.mp h).2
    simp only [held, List.map_append, List.map_cons, List.map_nil, List.sum_append, List.sum_cons, List.sum_nil]
    omega

theorem put_held {i off : ℕ} {f : StoredFile} {buf : List UInt8} (hf : s.files[i]? = some f) :
    (s.put i f off buf).2.held = s.held := by
  rw [put]
  split_ifs with hbuf
  · rfl
  · dsimp only
    split_ifs with hle
    · have hsum := sum_set_clusters hf
        { f with bytes := writeAt f.bytes off buf, clusters := f.clusters + s.needs f (off + buf.length) }
      simp only [held] at hsum ⊢
      omega
    · have hsum := sum_set_clusters hf { f with clusters := f.clusters + s.free }
      simp only [held] at hsum ⊢
      omega

theorem onFile_keeps {P : FileStore → Prop} {path : CString} {op : ℕ → StoredFile → Reply × FileStore} (h : P s)
    (hop : ∀ i f, s.files[i]? = some f → P (op i f).2) : P (s.onFile path op).2 := by
  unfold onFile
  split
  · exact h
  · split
    · exact h
    · exact hop _ _ ‹_›

theorem serve_held (r : Request) : (s.serve r).2.held + s.lost r = s.held := by
  cases r with
  | create path => exact create_held _
  | put path off buf =>
    rw [serve]
    split_ifs
    · rfl
    · exact onFile_keeps (P := fun s' => s'.held + 0 = s.held) rfl fun i f hf => put_held hf
  | get path off len =>
    rw [serve]
    split_ifs
    · rfl
    · exact onFile_keeps (P := fun s' => s'.held + 0 = s.held) rfl fun i f hf => rfl
  | stat path =>
    rw [serve]
    split_ifs <;> rfl
  | remove path =>
    rw [serve, lost]
    split_ifs
    · rfl
    · rw [remove]
      cases hi : s.files.findIdx? (·.name = fileName path) with
      | none => rfl
      | some i =>
        have hlt := lt_of_findIdx? hi
        have hold := List.take_append_drop i s.files
        rw [List.drop_eq_getElem_cons hlt] at hold
        have hsum := congrArg (fun l : List StoredFile => (l.map StoredFile.clusters).sum) hold
        simp only [List.map_append, List.map_cons, List.sum_append, List.sum_cons] at hsum
        simp only [held, List.getElem?_eq_getElem hlt, Option.map_some, Option.getD_some]
        omega

theorem serveAll_held (rs : List Request) (s : FileStore) : (serveAll rs s).2.held + lostAll rs s = s.held := by
  induction rs generalizing s with
  | nil => rfl
  | cons r rs ih =>
    have hrest := ih (s.serve r).2
    have hfirst := s.serve_held r
    rw [serveAll, lostAll]
    dsimp only
    omega

def Occupied (s : FileStore) : Prop := ∀ f ∈ s.files, 0 < f.clusters

theorem put_occupied {i off : ℕ} {f : StoredFile} {buf : List UInt8} (h : s.Occupied) (hf : s.files[i]? = some f) :
    (s.put i f off buf).2.Occupied := by
  have hpos := h f (List.mem_of_getElem? hf)
  rw [put]
  split_ifs
  · exact h
  · dsimp only
    split_ifs <;>
    · intro g hg
      rcases List.mem_or_eq_of_mem_set hg with hg | rfl
      · exact h g hg
      · exact Nat.lt_add_right _ hpos

theorem serve_occupied (r : Request) (h : s.Occupied) : (s.serve r).2.Occupied := by
  cases r with
  | create path =>
    rw [serve, create]
    split_ifs
    · exact h
    · intro f hf
      rcases List.mem_append.mp hf with hf | hf
      · exact h f hf
      · rw [List.mem_singleton.mp hf]
        exact Nat.one_pos
  | put path off buf =>
    rw [serve]
    split_ifs
    · exact h
    · exact onFile_keeps h fun i f hf => put_occupied h hf
  | get path off len =>
    rw [serve]
    split_ifs
    · exact h
    · exact onFile_keeps h fun i f hf => h
  | stat path =>
    rw [serve]
    split_ifs <;> exact h
  | remove path =>
    rw [serve]
    split_ifs
    · exact h
    · rw [remove]
      split
      · exact h
      · exact fun f hf => h f (List.mem_of_mem_take hf)

theorem lost_eq_zero_iff (h : s.Occupied) (r : Request) : s.lost r = 0 ↔
    ∀ path i, r = .remove path → fileName path ≠ [] →
      s.files.findIdx? (·.name = fileName path) = some i → i + 1 = s.files.length := by
  cases r with
  | remove path =>
    rw [lost]
    constructor
    · rintro hzero _ i ⟨⟩ hname hi
      have hlt := lt_of_findIdx? hi
      rw [if_neg hname, hi] at hzero
      by_contra hne
      have hmem : s.files[i + 1] ∈ s.files.drop (i + 1) := by
        rw [List.drop_eq_getElem_cons (by omega)]
        exact List.mem_cons_self
      have hpos := h _ (List.mem_of_mem_drop hmem)
      have hnone := List.sum_eq_zero_iff_forall_eq_nat.mp hzero _ (List.mem_map_of_mem hmem)
      omega
    · intro hlast
      split_ifs with hname
      · rfl
      · split
        · rfl
        · rename_i i hi
          rw [hlast path i rfl hname hi, List.drop_length]
          rfl
  | _ => simp [lost]

theorem lostAll_eq_zero_iff (rs : List Request) (h : s.Occupied) : lostAll rs s = 0 ↔ RemovesLast rs s := by
  induction rs generalizing s with
  | nil => simp [lostAll, RemovesLast]
  | cons r rs ih =>
    rw [lostAll, RemovesLast, Nat.add_eq_zero_iff, lost_eq_zero_iff h, ih (serve_occupied r h)]

end FileStore

variable {σ H : Type} {D : Disk σ} {v : Vol} {s : FileStore} [KernelAlloc H] {w : World σ H}

omit [KernelAlloc H] in
theorem Holds.held (hs : Holds D v s) : ∃ ch, Owns D v.fat (D.firsts v) ch ∧
    (D.free v).length + ((D.firsts v).map fun f => (ch f).length).sum = s.held := by
  obtain ⟨ch, ho, hfiles⟩ := hs.files
  refine ⟨ch, ho, ?_⟩
  have hclusters : (D.firsts v).map (fun f => (ch f).length) = s.files.map StoredFile.clusters := by
    rw [Disk.firsts, List.map_map]
    rw [← List.forall₂_eq_eq_eq, List.forall₂_map_left_iff, List.forall₂_map_right_iff]
    exact hfiles.imp fun x f hrep => hrep.clusters
  rw [hclusters, hs.free, FileStore.held]

end DexOs.Exfat
