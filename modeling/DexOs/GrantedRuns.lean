import DexOs.ExfatSimulation
import DexOs.ExfatVolume

/-! Runs in which no `kmalloc` is refused, on a heap that may run out of room. -/

namespace DexOs.Exfat

open DexOs.Lib

variable {σ H α : Type}

/-- The heap of a run, until a request is refused. From there on there is room for everything, so that the run goes on
and the refusal stays on record. -/
inductive Watched (H : Type)
  | live (h : H)
  | refused

namespace Watched

def isLive : Watched H → Bool
  | .live _ => true
  | .refused => false

variable [KernelAlloc H]

def answer (n : ℕ) : Option ℕ × H → Option ℕ × Watched H
  | (some p, h) => (some p, .live h)
  | (none, h) => if n = 0 then (none, .live h) else (some 0, .refused)

def kmalloc : Watched H → ℕ → Option ℕ × Watched H
  | .live h, n => answer n (KernelAlloc.kmalloc h n)
  | .refused, n => (if n = 0 then none else some 0, .refused)

def kfree : Watched H → ℕ → Watched H
  | .live h, p => .live (KernelAlloc.kfree h p)
  | .refused, _ => .refused

instance : KernelAlloc (Watched H) where
  kmalloc := kmalloc
  kfree := kfree
  kmalloc_zero := by
    rintro (h | _)
    · have hzero := KernelAlloc.kmalloc_zero h
      rw [kmalloc]
      generalize KernelAlloc.kmalloc h 0 = r at hzero
      obtain ⟨_, h'⟩ := r
      obtain rfl := hzero
      rfl
    · rfl

end Watched

section Heaps

variable [KernelAlloc H]

theorem allocOk_watched : AllocOk (Watched H) := by
  rintro (h | _) n hn
  · change (Watched.answer n (KernelAlloc.kmalloc h n)).1 ≠ none
    obtain ⟨_ | p, h'⟩ := KernelAlloc.kmalloc h n
    · rw [Watched.answer, if_neg hn.ne']
      exact nofun
    · exact nofun
  · change (if n = 0 then none else some 0) ≠ none
    rw [if_neg hn.ne']
    exact nofun

def watch : Tie H (Watched H) where
  rel h g := g = .live h
  broken g := g = .refused

theorem sameRoom_watch : SameRoom (watch (H := H)) Eq where
  kmalloc := by
    rintro h _ n rfl
    change (Watched.answer n (KernelAlloc.kmalloc h n)).2 = .refused ∨
      Option.Rel Eq (KernelAlloc.kmalloc h n).1 (Watched.answer n (KernelAlloc.kmalloc h n)).1 ∧
        (Watched.answer n (KernelAlloc.kmalloc h n)).2 = .live (KernelAlloc.kmalloc h n).2
    obtain ⟨_ | p, h'⟩ := KernelAlloc.kmalloc h n
    · rw [Watched.answer]
      by_cases hn : n = 0
      · rw [if_pos hn]
        exact .inr ⟨.none, rfl⟩
      · rw [if_neg hn]
        exact .inl rfl
    · exact .inr ⟨.some rfl, rfl⟩
  kfree := by
    rintro h _ p _ rfl rfl
    rfl
  kmalloc_broken := by
    rintro _ n rfl
    rfl
  kfree_broken := by
    rintro _ q rfl
    rfl
  partner q := ⟨q, rfl⟩

end Heaps

/-- No `kmalloc` of the run is refused. -/
def NoRefusal (y : Io σ (Watched H) α) (w : World σ H) : Prop :=
  ∀ a v, y ⟨w.dev, .live w.heap⟩ = .ok (a, v) → v.heap ≠ .refused

theorem wp_of_noRefusal {x : Io σ H α} {y : Io σ (Watched H) α} {w : World σ H} {Q : α → σ → Prop}
    (hxy : Matches (Both Eq watch) x y) (hno : NoRefusal y w)
    (hy : Wp y ⟨w.dev, .live w.heap⟩ fun a v => Q a v.dev) : Wp x w fun a w' => Q a w'.dev := by
  obtain ⟨a, v, hrun, hq⟩ := hy
  have hstart : (Both Eq watch).rel w ⟨w.dev, .live w.heap⟩ := ⟨rfl, rfl⟩
  obtain ⟨_, w', hrun', rfl, hdev, -⟩ := hxy.back hstart hrun (hno a v hrun)
  refine ⟨_, w', hrun', ?_⟩
  change Q _ w'.dev
  rw [show w'.dev = v.dev from hdev]
  exact hq

theorem noRefusal_of_test {y : Io σ (Watched H) α} {w : World σ H}
    (h : test y ⟨w.dev, .live w.heap⟩ (fun _ v => v.heap.isLive) = true) : NoRefusal y w := by
  intro a v hrun hrefused
  have hlive : v.heap.isLive = true := (wp_of_test h).post hrun
  rw [hrefused] at hlive
  cases hlive

section Volumes

theorem sameAnswers_self (D : SectorDevice σ) : SameAnswers Eq D.dev D.dev where
  sector := rfl
  read := ⟨_, _, D.read_eq, D.read_eq, by rintro s _ lba count rfl - - -; exact ⟨rfl, rfl⟩⟩
  write := ⟨_, _, D.write_eq, D.write_eq, by rintro s _ lba buf count rfl - - -; exact ⟨rfl, rfl⟩⟩

theorem disk_sameAnswers (D : Disk σ) : SameAnswers Eq D.fs.bdev D.fs.bdev := by
  rw [D.bdev_eq]
  exact sameAnswers_self D.toSectorDevice

theorem disk_sized (D : Disk σ) : Sized D.fs := by
  have hspc := D.spc_lt
  have hsize := D.size_eq
  constructor
  · omega
  · omega

end Volumes

end DexOs.Exfat
