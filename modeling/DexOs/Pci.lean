import DexOs.Lib.Bytes
import DexOs.Lib.Loops
import Mathlib.Data.Nat.Bitwise

/-! The enumeration of PCI functions in `pci.c`, over the ports `0xCF8` and `0xCFC`. -/

namespace DexOs.Pci

open DexOs.Lib

abbrev ConfigSpace := ℕ → ℕ → ℕ → ℕ → UInt8

def cfgAddr (bus dev func offset : ℕ) : ℕ :=
  1 <<< 31 ||| bus <<< 16 ||| dev <<< 11 ||| func <<< 8 ||| (offset &&& 0xFC)

/-- What the host bridge answers at `0xCFC` when `address` has been written to `0xCF8`: the four bytes of the register
that it selects, and all ones when bit 31 is clear. -/
def configData (cfg : ConfigSpace) (address : ℕ) : ℕ :=
  if address.testBit 31 then
    leNat (cfg (address / 2 ^ 16 % 256) (address / 2 ^ 11 % 32) (address / 2 ^ 8 % 8)) 4 (address % 256 / 4 * 4)
  else 2 ^ 32 - 1

def pciCfgRead32 (cfg : ConfigSpace) (bus dev func offset : ℕ) : ℕ := configData cfg (cfgAddr bus dev func offset)

def pciCfgRead16 (cfg : ConfigSpace) (bus dev func offset : ℕ) : ℕ :=
  let v := pciCfgRead32 cfg bus dev func (offset &&& 0xFC)
  let sh := if offset &&& 2 ≠ 0 then 16 else 0
  v >>> sh &&& 0xFFFF

def pciCfgRead8 (cfg : ConfigSpace) (bus dev func offset : ℕ) : ℕ :=
  let v := pciCfgRead32 cfg bus dev func (offset &&& 0xFC)
  let sh := (offset &&& 3) * 8
  v >>> sh &&& 0xFF

structure Device where
  bus : ℕ
  dev : ℕ
  func : ℕ
  vendorId : ℕ
  deviceId : ℕ
  classCode : ℕ
  subclass : ℕ
  progIf : ℕ
  deriving DecidableEq

def forU8 {β : Type} (last : ℕ) (body : ℕ → β → Option β) (fuel : ℕ) (s : β) : Option β :=
  (whileLoop (fun t : ℕ × β => t.1 < last)
    (fun t => (body t.1 t.2).map fun s => ((t.1 + 1) % 256, s)) fuel (0, s)).map Prod.snd

def visitFunction (cfg : ConfigSpace) (bus dev func : ℕ) (calls : List Device) : Option (List Device) :=
  let vid := pciCfgRead16 cfg bus dev func 0x00
  if vid = 0xFFFF then some calls
  else some (calls ++ [{
    bus := bus
    dev := dev
    func := func
    vendorId := vid
    deviceId := pciCfgRead16 cfg bus dev func 0x02
    classCode := pciCfgRead8 cfg bus dev func 0x0B
    subclass := pciCfgRead8 cfg bus dev func 0x0A
    progIf := pciCfgRead8 cfg bus dev func 0x09 }])

def visitDevice (fuel : ℕ) (cfg : ConfigSpace) (bus dev : ℕ) (calls : List Device) : Option (List Device) :=
  let vid0 := pciCfgRead16 cfg bus dev 0 0x00
  if vid0 = 0xFFFF then some calls
  else
    let hdr := pciCfgRead8 cfg bus dev 0 0x0E
    let funcs := if hdr &&& 0x80 ≠ 0 then 8 else 1
    forU8 funcs (visitFunction cfg bus dev) fuel calls

def pciEnumerate (fuel : ℕ) (cfg : ConfigSpace) : Option (List Device) :=
  forU8 255 (fun bus => forU8 32 (visitDevice fuel cfg bus) fuel) fuel []

variable {cfg : ConfigSpace} {bus dev func offset : ℕ}

section Registers

theorem lor_eq_add {x y i : ℕ} (hx : 2 ^ i ∣ x) (hy : y < 2 ^ i) : x ||| y = x + y := by
  obtain ⟨q, rfl⟩ := hx
  rw [Nat.mul_comm, ← Nat.shiftLeft_eq, Nat.shiftLeft_add_eq_or_of_lt hy]

theorem dword_mask (h : offset < 256) : offset &&& 0xFC = offset / 4 * 4 := by
  have hall : ∀ o : Fin 256, o.val &&& 0xFC = o.val / 4 * 4 := by decide +kernel
  exact hall ⟨offset, h⟩

theorem cfgAddr_eq (hbus : bus < 256) (hdev : dev < 32) (hfunc : func < 8) (hoff : offset < 256) :
    cfgAddr bus dev func offset = 2 ^ 31 + bus * 2 ^ 16 + dev * 2 ^ 11 + func * 2 ^ 8 + offset / 4 * 4 := by
  rw [cfgAddr, dword_mask hoff]
  simp only [Nat.shiftLeft_eq, Nat.one_mul]
  rw [lor_eq_add (y := bus * 2 ^ 16) (i := 24) (by decide) (by omega),
    lor_eq_add (y := dev * 2 ^ 11) (i := 16) (by omega) (by omega),
    lor_eq_add (y := func * 2 ^ 8) (i := 11) (by omega) (by omega),
    lor_eq_add (y := offset / 4 * 4) (i := 8) (by omega) (by omega)]

theorem pciCfgRead32_eq (hbus : bus < 256) (hdev : dev < 32) (hfunc : func < 8) (hoff : offset < 256) :
    pciCfgRead32 cfg bus dev func offset = leNat (cfg bus dev func) 4 (offset / 4 * 4) := by
  have haddr := cfgAddr_eq hbus hdev hfunc hoff
  have henable : (cfgAddr bus dev func offset).testBit 31 = true := by
    rw [Nat.testBit_eq_decide_div_mod_eq, decide_eq_true_iff]
    omega
  have hb : cfgAddr bus dev func offset / 2 ^ 16 % 256 = bus := by omega
  have hd : cfgAddr bus dev func offset / 2 ^ 11 % 32 = dev := by omega
  have hf : cfgAddr bus dev func offset / 2 ^ 8 % 8 = func := by omega
  have hr : cfgAddr bus dev func offset % 256 / 4 * 4 = offset / 4 * 4 := by omega
  rw [pciCfgRead32, configData, if_pos henable, hb, hd, hf, hr]

theorem pciCfgRead16_eq (hbus : bus < 256) (hdev : dev < 32) (hfunc : func < 8) (hoff : offset < 256) (heven : 2 ∣ offset) :
    pciCfgRead16 cfg bus dev func offset = leNat (cfg bus dev func) 2 offset := by
  have hbit : offset &&& 2 = if offset % 4 = 2 then 2 else 0 := by
    have htwo := Nat.and_two_pow offset 1
    rw [Nat.pow_one, Nat.testBit_eq_decide_div_mod_eq] at htwo
    rw [htwo]
    by_cases h : offset % 4 = 2
    · rw [if_pos h, decide_eq_true (by omega)]
      rfl
    · rw [if_neg h, decide_eq_false (by omega)]
      rfl
  have hreg : offset / 4 * 4 / 4 * 4 = offset / 4 * 4 := by omega
  rw [pciCfgRead16, dword_mask hoff, pciCfgRead32_eq hbus hdev hfunc (by omega), hreg, hbit]
  rw [show 0xFFFF = 2 ^ 16 - 1 by rfl, Nat.and_two_pow_sub_one_eq_mod, Nat.shiftRight_eq_div_pow]
  by_cases h : offset % 4 = 2
  · have hextract := leNat_extract (cfg bus dev func) (show 2 + 2 ≤ 4 by decide) (offset / 4 * 4)
    rw [show offset / 4 * 4 + 2 = offset by omega] at hextract
    simpa [h] using hextract
  · have hextract := leNat_extract (cfg bus dev func) (show 0 + 2 ≤ 4 by decide) (offset / 4 * 4)
    rw [show offset / 4 * 4 + 0 = offset by omega] at hextract
    simpa [h] using hextract

theorem pciCfgRead8_eq (hbus : bus < 256) (hdev : dev < 32) (hfunc : func < 8) (hoff : offset < 256) :
    pciCfgRead8 cfg bus dev func offset = (cfg bus dev func offset).toNat := by
  have hbits : offset &&& 3 = offset % 4 := Nat.and_two_pow_sub_one_eq_mod offset 2
  have hreg : offset / 4 * 4 / 4 * 4 = offset / 4 * 4 := by omega
  have hextract := leNat_extract (cfg bus dev func) (show offset % 4 + 1 ≤ 4 by omega) (offset / 4 * 4)
  rw [show offset / 4 * 4 + offset % 4 = offset by omega] at hextract
  rw [pciCfgRead8, dword_mask hoff, pciCfgRead32_eq hbus hdev hfunc (by omega), hreg, hbits]
  rw [show 0xFF = 2 ^ 8 - 1 by rfl, Nat.and_two_pow_sub_one_eq_mod, Nat.shiftRight_eq_div_pow,
    Nat.mul_comm (offset % 4) 8, Nat.pow_mul]
  simpa [leNat] using hextract

end Registers

section Spec

def vendor (cfg : ConfigSpace) (bus dev func : ℕ) : ℕ := leNat (cfg bus dev func) 2 0x00

def multiFunction (cfg : ConfigSpace) (bus dev : ℕ) : Prop := (cfg bus dev 0 0x0E).toNat.testBit 7 = true

instance (cfg : ConfigSpace) (bus dev : ℕ) : Decidable (multiFunction cfg bus dev) := inferInstanceAs (Decidable (_ = _))

def Present (cfg : ConfigSpace) (bus dev func : ℕ) : Prop :=
  vendor cfg bus dev 0 ≠ 0xFFFF ∧ vendor cfg bus dev func ≠ 0xFFFF ∧ (func = 0 ∨ multiFunction cfg bus dev)

def deviceAt (cfg : ConfigSpace) (bus dev func : ℕ) : Device where
  bus := bus
  dev := dev
  func := func
  vendorId := vendor cfg bus dev func
  deviceId := leNat (cfg bus dev func) 2 0x02
  classCode := (cfg bus dev func 0x0B).toNat
  subclass := (cfg bus dev func 0x0A).toNat
  progIf := (cfg bus dev func 0x09).toNat

def Before (x y : Device) : Prop :=
  x.bus < y.bus ∨ x.bus = y.bus ∧ (x.dev < y.dev ∨ x.dev = y.dev ∧ x.func < y.func)

/-- One call for each function on the first `buses` buses, in the order of the addresses. -/
structure Enumerates (cfg : ConfigSpace) (buses : ℕ) (calls : List Device) : Prop where
  ordered : calls.Pairwise Before
  mem_iff : ∀ x, x ∈ calls ↔
    ∃ bus dev func, bus < buses ∧ dev < 32 ∧ func < 8 ∧ Present cfg bus dev func ∧ x = deviceAt cfg bus dev func

end Spec

section Calls

def functionCalls (cfg : ConfigSpace) (bus dev func : ℕ) : List Device :=
  if vendor cfg bus dev func = 0xFFFF then [] else [deviceAt cfg bus dev func]

def deviceCalls (cfg : ConfigSpace) (bus dev : ℕ) : List Device :=
  if vendor cfg bus dev 0 = 0xFFFF then []
  else (List.range (if multiFunction cfg bus dev then 8 else 1)).flatMap (functionCalls cfg bus dev)

def busCalls (cfg : ConfigSpace) (bus : ℕ) : List Device := (List.range 32).flatMap (deviceCalls cfg bus)

theorem mem_functionCalls {x : Device} : x ∈ functionCalls cfg bus dev func ↔
    vendor cfg bus dev func ≠ 0xFFFF ∧ x = deviceAt cfg bus dev func := by
  unfold functionCalls
  split_ifs with h <;> simp [h]

theorem mem_deviceCalls {x : Device} : x ∈ deviceCalls cfg bus dev ↔
    ∃ func < 8, Present cfg bus dev func ∧ x = deviceAt cfg bus dev func := by
  unfold deviceCalls Present
  by_cases h0 : vendor cfg bus dev 0 = 0xFFFF
  · simp [h0]
  rw [if_neg h0]
  simp only [List.mem_flatMap, List.mem_range, mem_functionCalls]
  by_cases hm : multiFunction cfg bus dev
  · simp [hm, h0]
  · rw [if_neg hm]
    constructor
    · rintro ⟨func, hlt, hv, rfl⟩
      obtain rfl : func = 0 := by omega
      exact ⟨0, by decide, ⟨h0, hv, .inl rfl⟩, rfl⟩
    · rintro ⟨func, -, ⟨-, hv, hf⟩, rfl⟩
      obtain rfl := hf.resolve_right hm
      exact ⟨0, by decide, hv, rfl⟩

theorem functionCalls_ordered (cfg : ConfigSpace) (bus dev func : ℕ) : (functionCalls cfg bus dev func).Pairwise Before := by
  unfold functionCalls
  split_ifs
  · exact List.Pairwise.nil
  · exact List.pairwise_singleton _ _

theorem deviceCalls_ordered (cfg : ConfigSpace) (bus dev : ℕ) : (deviceCalls cfg bus dev).Pairwise Before := by
  unfold deviceCalls
  split_ifs
  · exact List.Pairwise.nil
  all_goals
    rw [List.pairwise_flatMap]
    refine ⟨fun func _ => functionCalls_ordered cfg bus dev func, List.pairwise_lt_range.imp ?_⟩
    intro func func' hlt x hx y hy
    rw [(mem_functionCalls.mp hx).2, (mem_functionCalls.mp hy).2]
    exact .inr ⟨rfl, .inr ⟨rfl, hlt⟩⟩

theorem busCalls_ordered (cfg : ConfigSpace) (bus : ℕ) : (busCalls cfg bus).Pairwise Before := by
  unfold busCalls
  rw [List.pairwise_flatMap]
  refine ⟨fun dev _ => deviceCalls_ordered cfg bus dev, List.pairwise_lt_range.imp ?_⟩
  intro dev dev' hlt x hx y hy
  obtain ⟨-, -, -, rfl⟩ := mem_deviceCalls.mp hx
  obtain ⟨-, -, -, rfl⟩ := mem_deviceCalls.mp hy
  exact .inr ⟨rfl, .inl hlt⟩

theorem mem_busCalls {x : Device} : x ∈ busCalls cfg bus ↔
    ∃ dev func, dev < 32 ∧ func < 8 ∧ Present cfg bus dev func ∧ x = deviceAt cfg bus dev func := by
  simp only [busCalls, List.mem_flatMap, List.mem_range, mem_deviceCalls]
  constructor
  · rintro ⟨dev, hdev, func, hfunc, hp, rfl⟩
    exact ⟨dev, func, hdev, hfunc, hp, rfl⟩
  · rintro ⟨dev, func, hdev, hfunc, hp, rfl⟩
    exact ⟨dev, hdev, func, hfunc, hp, rfl⟩

theorem buses_enumerate (cfg : ConfigSpace) (buses : ℕ) :
    Enumerates cfg buses ((List.range buses).flatMap (busCalls cfg)) where
  ordered := by
    rw [List.pairwise_flatMap]
    refine ⟨fun bus _ => busCalls_ordered cfg bus, List.pairwise_lt_range.imp ?_⟩
    intro bus bus' hlt x hx y hy
    obtain ⟨-, -, -, -, -, rfl⟩ := mem_busCalls.mp hx
    obtain ⟨-, -, -, -, -, rfl⟩ := mem_busCalls.mp hy
    exact .inl hlt
  mem_iff x := by
    simp only [List.mem_flatMap, List.mem_range, mem_busCalls]
    constructor
    · rintro ⟨bus, hbus, dev, func, hdev, hfunc, hp, rfl⟩
      exact ⟨bus, dev, func, hbus, hdev, hfunc, hp, rfl⟩
    · rintro ⟨bus, dev, func, hbus, hdev, hfunc, hp, rfl⟩
      exact ⟨bus, hbus, dev, func, hdev, hfunc, hp, rfl⟩

end Calls

section Loops

variable {β : Type} {fuel : ℕ}

theorem forU8_append {last : ℕ} {body : ℕ → List β → Option (List β)} {f : ℕ → List β} (hlast : last < 256)
    (hbody : ∀ i < last, ∀ calls, body i calls = some (calls ++ f i)) (hfuel : last < fuel) (calls : List β) :
    forU8 last body fuel calls = some (calls ++ (List.range last).flatMap f) := by
  let I (k : ℕ) (t : ℕ × List β) : Prop := t = (k, calls ++ (List.range k).flatMap f)
  have h0 : I 0 (0, calls) := by simp [I]
  obtain ⟨t, hrun, rfl⟩ := whileLoop_turns (fun t : ℕ × List β => t.1 < last)
    (fun t => (body t.1 t.2).map fun s => ((t.1 + 1) % 256, s)) I h0 (by
      rintro k t hk rfl
      refine ⟨hk, _, by rw [hbody k hk, Option.map_some], ?_⟩
      dsimp only [I]
      rw [Nat.mod_eq_of_lt (by omega), List.range_succ, List.flatMap_append, List.flatMap_singleton, List.append_assoc])
    (by
      rintro t rfl
      exact Nat.lt_irrefl last) hfuel
  rw [forU8, hrun]
  rfl

theorem visitFunction_eq (hbus : bus < 256) (hdev : dev < 32) (hfunc : func < 8) (calls : List Device) :
    visitFunction cfg bus dev func calls = some (calls ++ functionCalls cfg bus dev func) := by
  rw [visitFunction, pciCfgRead16_eq hbus hdev hfunc (by decide) (by decide),
    pciCfgRead16_eq hbus hdev hfunc (by decide) (by decide), pciCfgRead8_eq hbus hdev hfunc (by decide),
    pciCfgRead8_eq hbus hdev hfunc (by decide), pciCfgRead8_eq hbus hdev hfunc (by decide), functionCalls]
  change (if vendor cfg bus dev func = 0xFFFF then some calls else some (calls ++ [deviceAt cfg bus dev func])) = _
  split_ifs
  · rw [List.append_nil]
  · rfl

theorem visitDevice_eq (hbus : bus < 256) (hdev : dev < 32) (hfuel : 8 < fuel) (calls : List Device) :
    visitDevice fuel cfg bus dev calls = some (calls ++ deviceCalls cfg bus dev) := by
  have hbit : (cfg bus dev 0 0x0E).toNat &&& 0x80 ≠ 0 ↔ multiFunction cfg bus dev := by
    have hpow := Nat.and_two_pow (cfg bus dev 0 0x0E).toNat 7
    rw [show 0x80 = 2 ^ 7 by rfl, hpow, multiFunction]
    cases (cfg bus dev 0 0x0E).toNat.testBit 7 <;> decide
  have hfuncs : (if multiFunction cfg bus dev then 8 else 1) ≤ 8 := by split_ifs <;> decide
  rw [visitDevice, pciCfgRead16_eq hbus hdev (by decide) (by decide) (by decide),
    pciCfgRead8_eq hbus hdev (by decide) (by decide), deviceCalls]
  simp only [hbit]
  change (if vendor cfg bus dev 0 = 0xFFFF then some calls else _) = _
  split_ifs
  · rw [List.append_nil]
  all_goals exact forU8_append (by decide) (fun func hlt => visitFunction_eq hbus hdev (by omega)) (by omega) calls

theorem pciEnumerate_eq (cfg : ConfigSpace) (hfuel : 255 < fuel) :
    pciEnumerate fuel cfg = some ((List.range 255).flatMap (busCalls cfg)) := by
  rw [pciEnumerate, forU8_append (f := busCalls cfg) (by decide) ?_ hfuel, List.nil_append]
  intro bus hbus calls
  exact forU8_append (by decide) (fun dev hdev => visitDevice_eq (by omega) hdev (by omega)) (by omega) calls

end Loops

theorem complete_iff_unused (cfg : ConfigSpace) : Enumerates cfg 256 ((List.range 255).flatMap (busCalls cfg)) ↔
    ∀ dev < 32, vendor cfg 255 dev 0 = 0xFFFF := by
  have hpart := buses_enumerate cfg 255
  constructor
  · intro hall dev hdev
    by_contra hpresent
    obtain ⟨bus, dev', func, hbus, -, -, -, heq⟩ := (hpart.mem_iff _).mp
      ((hall.mem_iff _).mpr ⟨255, dev, 0, by decide, hdev, by decide, ⟨hpresent, hpresent, .inl rfl⟩, rfl⟩)
    have hsame : 255 = bus := congrArg Device.bus heq
    omega
  · intro hnone
    refine ⟨hpart.ordered, fun x => (hpart.mem_iff x).trans ?_⟩
    constructor
    · rintro ⟨bus, dev, func, hbus, hrest⟩
      exact ⟨bus, dev, func, by omega, hrest⟩
    · rintro ⟨bus, dev, func, hbus, hdev, hfunc, hp, rfl⟩
      have hne : bus ≠ 255 := by
        rintro rfl
        exact hp.1 (hnone dev hdev)
      exact ⟨bus, dev, func, by omega, hdev, hfunc, hp, rfl⟩

/-- The enumeration ends, and it is complete if and only if no device answers on bus 255. -/
theorem enumeration_complete_iff (cfg : ConfigSpace) :
    ∃ calls, (∀ fuel > 255, pciEnumerate fuel cfg = some calls) ∧
      (Enumerates cfg 256 calls ↔ ∀ dev < 32, vendor cfg 255 dev 0 = 0xFFFF) :=
  ⟨_, fun _ hfuel => pciEnumerate_eq cfg hfuel, complete_iff_unused cfg⟩

def lastBusSpace : ConfigSpace := fun bus dev func _ => if bus = 255 ∧ dev = 0 ∧ func = 0 then 0 else 0xFF

theorem lastBus_missed : vendor lastBusSpace 255 0 0 = 0 ∧
    ∃ calls, (∀ fuel > 255, pciEnumerate fuel lastBusSpace = some calls) ∧ ¬ Enumerates lastBusSpace 256 calls := by
  have hzero : vendor lastBusSpace 255 0 0 = 0 := by simp [vendor, lastBusSpace, leNat]
  refine ⟨hzero, _, fun _ hfuel => pciEnumerate_eq lastBusSpace hfuel, ?_⟩
  intro hall
  have hnone := (complete_iff_unused lastBusSpace).mp hall 0 (by decide)
  omega

end DexOs.Pci
