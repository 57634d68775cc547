import DexOs.BlockDevice
import DexOs.Lib.Words

/-! The Multiboot2 information block: tags, and the memory map that `parse_mb2` reads from it. -/

namespace DexOs.Mb2

open DexOs.Lib

def tagEnd : ℕ := 0
def tagModule : ℕ := 3
def tagBasicMeminfo : ℕ := 4
def tagMmap : ℕ := 6
def tagEfiMmap : ℕ := 17

def tagType (m : Memory) (t : ℕ) : ℕ := leNat m 4 t
def tagSize (m : Memory) (t : ℕ) : ℕ := leNat m 4 (t + 4)
def totalSize (m : Memory) (info : ℕ) : ℕ := leNat m 4 info

def mb2FirstTag (info : ℕ) : ℕ := info + 8
def mb2NextTag (m : Memory) (t : ℕ) : ℕ := alignUp (t + tagSize m t) 8

/-- The loop over the tags below `limit`. The body may fail to end, and may leave the loop with
`true`; `none` means that the loop has not ended within `fuel` tags. -/
def tagLoop {β : Type} (m : Memory) (limit : ℕ) (body : ℕ → β → Option (β × Bool)) :
    ℕ → ℕ → β → Option β
  | 0, _, _ => none
  | fuel + 1, t, acc =>
    if t < limit ∧ tagType m t ≠ tagEnd then
      match body t acc with
      | none => none
      | some (acc, true) => some acc
      | some (acc, false) => tagLoop m limit body fuel (mb2NextTag m t) acc
    else some acc

theorem tagLoop_inv {β : Type} {m : Memory} {limit : ℕ} {body : ℕ → β → Option (β × Bool)} {P : β → Prop}
    (hbody : ∀ t acc acc' stop, P acc → body t acc = some (acc', stop) → P acc')
    {fuel t : ℕ} {acc r : β} (h₀ : P acc) (hr : tagLoop m limit body fuel t acc = some r) : P r := by
  induction fuel generalizing t acc with
  | zero => simp [tagLoop] at hr
  | succ fuel ih =>
    rw [tagLoop] at hr
    split_ifs at hr
    · split at hr
      · simp at hr
      · next hb => exact Option.some.inj hr ▸ hbody _ _ _ _ h₀ hb
      · next hb => exact ih (hbody _ _ _ _ h₀ hb) hr
    · exact Option.some.inj hr ▸ h₀

structure MapEntry where
  base : ℕ
  length : ℕ
  type : ℕ
  deriving DecidableEq

def mb2EfiDescCount (m : Memory) (t : ℕ) : ℕ :=
  let descSize := leNat m 4 (t + 8)
  if descSize = 0 then 0 else (tagSize m t + 2 ^ 32 - 16) % 2 ^ 32 / descSize

def efiEntries (m : Memory) (t : ℕ) : List MapEntry :=
  (List.range (mb2EfiDescCount m t)).map fun i =>
    let d := t + 16 + i * leNat m 4 (t + 8) % 2 ^ 32
    ⟨leNat m 8 (d + 8), leNat m 8 (d + 24) * 4096 % 2 ^ 64, leNat m 4 d⟩

def mmapEntry (m : Memory) (e : ℕ) : MapEntry := ⟨leNat m 8 e, leNat m 8 (e + 8), leNat m 4 (e + 16)⟩

def mmapEntries (m : Memory) (t : ℕ) : ℕ → ℕ → Option (List MapEntry)
  | 0, _ => none
  | fuel + 1, offset =>
    let next := (offset + leNat m 4 (t + 8)) % 2 ^ 32
    if next ≤ tagSize m t then (mmapEntries m t fuel next).map (mmapEntry m (t + offset) :: ·)
    else some []

inductive MemoryMap
  | efi (entries : List MapEntry)
  | mmap (entries : List MapEntry)
  | basic (memUpper : ℕ)
  | missing
  deriving DecidableEq

def findEfi (fuel : ℕ) (m : Memory) (info : ℕ) : Option (Option (List MapEntry)) :=
  tagLoop m (info + totalSize m info) (fun t acc =>
    if tagType m t = tagEfiMmap then some (some (efiEntries m t), true) else some (acc, false))
    fuel (mb2FirstTag info) none

def collectMmap (fuel : ℕ) (m : Memory) (info : ℕ) : Option (Option (List MapEntry)) :=
  tagLoop m (info + totalSize m info) (fun t acc =>
    if tagType m t = tagMmap then
      (mmapEntries m t fuel 16).map fun es => (some (acc.getD [] ++ es), false)
    else some (acc, false))
    fuel (mb2FirstTag info) none

def findBasic (fuel : ℕ) (m : Memory) (info : ℕ) : Option (Option ℕ) :=
  tagLoop m (info + totalSize m info) (fun t acc =>
    if tagType m t = tagBasicMeminfo then some (some (leNat m 4 (t + 12)), true) else some (acc, false))
    fuel (mb2FirstTag info) none

def readMemoryMap (fuel : ℕ) (m : Memory) (info : ℕ) (fromUefi : Bool) : Option MemoryMap :=
  if info = 0 then some .missing
  else do
    let efi ← (if fromUefi then findEfi fuel m info else some none)
    match efi with
    | some es => some (.efi es)
    | none => match ← collectMmap fuel m info with
      | some es => some (.mmap es)
      | none => match ← findBasic fuel m info with
        | some upper => some (.basic upper)
        | none => some .missing

end DexOs.Mb2
