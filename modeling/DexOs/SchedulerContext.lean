import DexOs.SchedulerQueue

/-! `sched_context_switch` and the threads that call `sched_yield`, at the level of registers and
stacks. -/

namespace DexOs.Sched

inductive Reg
  | rax | rbx | rcx | rdx | rsi | rdi | rbp | rsp
  | r8 | r9 | r10 | r11 | r12 | r13 | r14 | r15
deriving DecidableEq

def calleeSaved : List Reg := [.rbx, .rbp, .r12, .r13, .r14, .r15]

/-- The compiled scheduler: the registers that the prologue of `sched_yield` pushes, the address behind
its call of `sched_context_switch`, the address behind that of `thread_trampoline`, and the address of
`thread_trampoline`. -/
structure Code where
  frame : List Reg
  resume : ℕ
  leave : ℕ
  trampoline : ℕ
  frame_saved : ∀ r ∈ frame, r ∈ calleeSaved
  frame_nodup : frame.Nodup
  apart : trampoline ≠ resume

structure Cpu where
  regs : Reg → ℕ
  rip : ℕ
  mem : ℕ → ℕ

/-- `calls` records, for a thread that waits in `sched_yield`, the registers at its call. -/
structure Machine where
  g : Globals
  cpu : Cpu
  calls : Tid → Option (Reg → ℕ)

namespace Cpu

def setReg (c : Cpu) (r : Reg) (v : ℕ) : Cpu := { c with regs := Function.update c.regs r v }

def push (c : Cpu) (v : ℕ) : Cpu :=
  { c.setReg .rsp (c.regs .rsp - 8) with mem := Function.update c.mem (c.regs .rsp - 8) v }

def pop (c : Cpu) (r : Reg) : Cpu := (c.setReg r (c.mem (c.regs .rsp))).setReg .rsp (c.regs .rsp + 8)

def ret (c : Cpu) : Cpu := { c.setReg .rsp (c.regs .rsp + 8) with rip := c.mem (c.regs .rsp) }

def pushAll (c : Cpu) : List Reg → Cpu
  | [] => c
  | r :: rs => (c.push (c.regs r)).pushAll rs

def popAll (c : Cpu) : List Reg → Cpu
  | [] => c
  | r :: rs => (c.popAll rs).pop r

end Cpu

def schedContextSwitch (g : Globals) (c : Cpu) (save : Option Tid) : Globals × Cpu :=
  let g := match save with
    | none => g
    | some t => g.store t { g.threads t with rsp := c.regs .rsp }
  let c := c.setReg .rsp (c.regs .rsi)
  (g, c.ret)

def epilogue (K : Code) (c : Cpu) : Cpu := (c.popAll K.frame).ret

def land (K : Code) (c : Cpu) : Cpu := if c.rip = K.resume then epilogue K c else c

def switchTo (K : Code) (g : Globals) (c : Cpu) (back : ℕ) (save : Option Tid) (load : Tid) : Globals × Cpu :=
  let c := (c.setReg .rsi (g.threads load).rsp).push back
  let r := schedContextSwitch g c save
  (r.1, land K r.2)

def clobber (K : Code) (scratch : Reg → ℕ) (c : Cpu) : Cpu :=
  { c with regs := fun r => if r = .rsp ∨ r ∈ calleeSaved ∧ r ∉ K.frame then c.regs r else scratch r }

/-- What a thread, or the boot code before `sched_start`, does next. -/
inductive Op
  | compute (regs : Reg → ℕ) (stores : List (ℕ × ℕ))
  | create (entry arg : ℕ)
  | start
  | yield (ra : ℕ) (scratch : Reg → ℕ)
  | finish

def storeAll (mem : ℕ → ℕ) (stores : List (ℕ × ℕ)) : ℕ → ℕ :=
  stores.foldl (fun f w => Function.update f w.1 w.2) mem

def arrive (calls : Tid → Option (Reg → ℕ)) (t : Tid) : Tid → Option (Reg → ℕ) := Function.update calls t none

def mstep (K : Code) (m : Machine) : Op → Option Machine
  | .compute regs stores => some { m with cpu := ⟨regs, m.cpu.rip, storeAll m.cpu.mem stores⟩ }
  | .create entry arg =>
    match schedCreate m.g entry arg with
    | none => none
    | some (r, g) =>
      let mem := if r = 0 then Function.update m.cpu.mem (firstRsp m.g.stackBase m.g.count) K.trampoline else m.cpu.mem
      some { m with g := g, cpu := { m.cpu with mem := mem } }
  | .start =>
    match schedStart m.g with
    | (g, .switch save load) =>
      let r := switchTo K g m.cpu K.leave save load
      some ⟨r.1, r.2, arrive m.calls load⟩
    | (g, _) => some { m with g := g }
  | .yield ra scratch =>
    let c := clobber K scratch ((m.cpu.push ra).pushAll K.frame)
    match schedYield m.g with
    | some (g, .ret) => some { m with g := g, cpu := epilogue K c }
    | some (g, .switch (some cur) load) =>
      let r := switchTo K g c K.resume (some cur) load
      some ⟨r.1, r.2, arrive (Function.update m.calls cur (some m.cpu.regs)) load⟩
    | _ => none
  | .finish =>
    match m.g.current with
    | none => none
    | some t =>
      match threadReturn m.g t with
      | (g, .switch save load) =>
        let r := switchTo K g m.cpu K.leave save load
        some ⟨r.1, r.2, arrive m.calls load⟩
      | _ => none

def stackStart (g : Globals) (t : Tid) : ℕ := g.stackBase + 16384 * t.val

def OnStack (g : Globals) (t : Tid) (a : ℕ) : Prop := stackStart g t ≤ a ∧ a < stackStart g t + 16384

def Roomy (K : Code) (g : Globals) (t : Tid) (a : ℕ) : Prop :=
  stackStart g t + 8 * (K.frame.length + 2) ≤ a ∧ a ≤ stackStart g t + 16384 ∧ 16 ∣ a

instance (K : Code) (g : Globals) (t : Tid) (a : ℕ) : Decidable (Roomy K g t a) := inferInstanceAs (Decidable (_ ∧ _))

instance (g : Globals) (t : Tid) (a : ℕ) : Decidable (OnStack g t a) := inferInstanceAs (Decidable (_ ∧ _))

/-- Threads change registers as they like, but keep their stack pointer on their own stack and store to
no other. The boot code has a stack of its own. -/
def Allowed (K : Code) (m : Machine) : Op → Prop
  | .compute regs stores =>
    (∀ t, m.g.current = some t → Roomy K m.g t (regs .rsp)) ∧
      ∀ w ∈ stores, 8 ∣ w.1 ∧ ∀ t, OnStack m.g t w.1 → m.g.current = some t
  | .start => m.g.current = none → ∀ t, ¬ OnStack m.g t (m.cpu.regs .rsp - 8)
  | .yield _ _ => m.g.current ≠ none
  | _ => True

instance (K : Code) (m : Machine) (op : Op) : Decidable (Allowed K m op) :=
  match op with
  | .compute _ _ => inferInstanceAs (Decidable (_ ∧ _))
  | .create _ _ => inferInstanceAs (Decidable True)
  | .start => inferInstanceAs (Decidable (_ → _))
  | .yield _ _ => inferInstanceAs (Decidable (_ ≠ _))
  | .finish => inferInstanceAs (Decidable True)

inductive Run (K : Code) : List (Machine × Op) → Machine → Prop
  | init (stackBase : ℕ) (h : 16 ∣ stackBase) (cpu : Cpu) : Run K [] ⟨initial stackBase, cpu, fun _ => none⟩
  | step {steps : List (Machine × Op)} {m m' : Machine} {op : Op} :
    Run K steps m → Allowed K m op → mstep K m op = some m' → Run K ((m, op) :: steps) m'

def returned (m m' : Machine) : Op → Option (Reg → ℕ)
  | .yield _ _ => m'.g.current.bind fun t => if m.g.current = some t then some m.cpu.regs else m.calls t
  | .start => m'.g.current.bind m.calls
  | .finish => m'.g.current.bind m.calls
  | _ => none

def upcoming (m : Machine) : Op → Option Tid
  | .yield _ _ => m.g.runq
  | .finish => m.g.runq
  | .start => if m.g.current = none then m.g.runq else none
  | _ => none

/-- A call of `sched_yield` that returns in this step finds its registers as they were. -/
def Preserves (K : Code) (m : Machine) (op : Op) : Prop :=
  ∀ m' R, mstep K m op = some m' → returned m m' op = some R → ∀ r ∈ .rsp :: calleeSaved, m'.cpu.regs r = R r

/-- The registers that `sched_yield` does not push are those of the last call of the thread whose turn it
is. -/
def Undisturbed (K : Code) (m : Machine) (op : Op) : Prop :=
  ∀ R, (upcoming m op).bind m.calls = some R → ∀ r ∈ calleeSaved, r ∉ K.frame → m.cpu.regs r = R r

instance (K : Code) (m : Machine) (op : Op) : Decidable (Undisturbed K m op) :=
  match h : (upcoming m op).bind m.calls with
  | none => isTrue fun _ hR => (nomatch h.symm.trans hR)
  | some R => decidable_of_iff (∀ r ∈ calleeSaved, r ∉ K.frame → m.cpu.regs r = R r)
      ⟨fun hu _ hR => Option.some_inj.mp (h.symm.trans hR) ▸ hu, fun hu => hu R h⟩

section Frames

variable {c : Cpu} {mem mem' : ℕ → ℕ} {top : ℕ} {rs : List Reg} {R : Reg → ℕ} {r : Reg}

def Stored (mem : ℕ → ℕ) (top : ℕ) : List Reg → (Reg → ℕ) → Prop
  | [], _ => True
  | r :: rs, R => mem (top - 8) = R r ∧ Stored mem (top - 8) rs R

theorem Stored.congr (h : Stored mem top rs R)
    (hm : ∀ a, a < top → top ≤ a + 8 * rs.length → mem' a = mem a) (hroom : 8 * rs.length ≤ top) :
    Stored mem' top rs R := by
  induction rs generalizing top with
  | nil => trivial
  | cons r rs ih =>
    rw [List.length_cons] at hm hroom
    constructor
    · rw [hm (top - 8) (by omega) (by omega)]
      exact h.1
    · apply ih h.2
      · intro a h1 h2
        exact hm a (by omega) (by omega)
      · omega

theorem stored_regs {R' : Reg → ℕ} (h : Stored mem top rs R) (he : ∀ r ∈ rs, R r = R' r) : Stored mem top rs R' := by
  induction rs generalizing top with
  | nil => trivial
  | cons r rs ih =>
    constructor
    · rw [h.1, he r List.mem_cons_self]
    · apply ih h.2
      intro s hs
      exact he s (List.mem_cons_of_mem _ hs)

theorem push_regs (c : Cpu) (v : ℕ) (h : r ≠ .rsp) : (c.push v).regs r = c.regs r := Function.update_of_ne h ..

theorem push_rsp (c : Cpu) (v : ℕ) : (c.push v).regs .rsp = c.regs .rsp - 8 := by
  simp [Cpu.push, Cpu.setReg]

theorem push_mem (c : Cpu) (v : ℕ) : (c.push v).mem (c.regs .rsp - 8) = v := Function.update_self ..

theorem push_mem_of_ne (c : Cpu) (v : ℕ) {a : ℕ} (h : a ≠ c.regs .rsp - 8) : (c.push v).mem a = c.mem a :=
  Function.update_of_ne h ..

theorem pushAll_rsp (c : Cpu) (rs : List Reg) : (c.pushAll rs).regs .rsp = c.regs .rsp - 8 * rs.length := by
  induction rs generalizing c with
  | nil => rfl
  | cons r rs ih =>
    rw [Cpu.pushAll, ih, push_rsp, List.length_cons]
    omega

theorem pushAll_regs (c : Cpu) (rs : List Reg) (h : r ≠ .rsp) : (c.pushAll rs).regs r = c.regs r := by
  induction rs generalizing c with
  | nil => rfl
  | cons s rs ih => rw [Cpu.pushAll, ih, push_regs c _ h]

theorem pushAll_mem (c : Cpu) (rs : List Reg) {a : ℕ} (h : c.regs .rsp ≤ a ∨ a + 8 * rs.length < c.regs .rsp)
    (hroom : 8 * rs.length ≤ c.regs .rsp) : (c.pushAll rs).mem a = c.mem a := by
  induction rs generalizing c with
  | nil => rfl
  | cons s rs ih =>
    rw [List.length_cons] at h hroom
    rw [Cpu.pushAll, ih (c.push (c.regs s)) (by rw [push_rsp]; omega) (by rw [push_rsp]; omega),
      push_mem_of_ne c _ (by omega)]

theorem pushAll_stored (c : Cpu) (rs : List Reg) (hrs : .rsp ∉ rs) (hroom : 8 * rs.length ≤ c.regs .rsp) :
    Stored (c.pushAll rs).mem (c.regs .rsp) rs c.regs := by
  induction rs generalizing c with
  | nil => trivial
  | cons s rs ih =>
    rw [List.length_cons] at hroom
    obtain ⟨hs, hrs⟩ := not_or.mp (List.mem_cons.not.mp hrs)
    have hroom' : 8 * rs.length ≤ (c.push (c.regs s)).regs .rsp := by
      rw [push_rsp]
      omega
    have hrest := ih (c.push (c.regs s)) hrs hroom'
    rw [push_rsp] at hrest
    constructor
    · rw [Cpu.pushAll, pushAll_mem _ rs (by rw [push_rsp]; omega) hroom', push_mem]
    · rw [Cpu.pushAll]
      exact stored_regs hrest fun q hq => push_regs c _ (ne_of_mem_of_not_mem hq hrs)

theorem popAll_mem (c : Cpu) (rs : List Reg) : (c.popAll rs).mem = c.mem := by
  induction rs with
  | nil => rfl
  | cons r rs ih => exact ih

theorem pop_regs (c : Cpu) {s : Reg} (h : r ≠ .rsp) (hs : r ≠ s) : (c.pop s).regs r = c.regs r := by
  simp [Cpu.pop, Cpu.setReg, h, hs]

theorem pop_self (c : Cpu) (h : r ≠ .rsp) : (c.pop r).regs r = c.mem (c.regs .rsp) := by
  simp [Cpu.pop, Cpu.setReg, h]

theorem pop_rsp (c : Cpu) (r : Reg) : (c.pop r).regs .rsp = c.regs .rsp + 8 := by
  simp [Cpu.pop, Cpu.setReg]

theorem popAll_regs (c : Cpu) {rs : List Reg} (h : r ≠ .rsp) (hr : r ∉ rs) : (c.popAll rs).regs r = c.regs r := by
  induction rs with
  | nil => rfl
  | cons s rs ih =>
    obtain ⟨hs, hrs⟩ := not_or.mp (List.mem_cons.not.mp hr)
    rw [Cpu.popAll, pop_regs _ h hs, ih hrs]

theorem popAll_stored (hst : Stored c.mem top rs R) (hrs : .rsp ∉ rs) (hn : rs.Nodup)
    (htop : c.regs .rsp + 8 * rs.length = top) :
    (c.popAll rs).regs .rsp = top ∧ ∀ r ∈ rs, (c.popAll rs).regs r = R r := by
  induction rs generalizing top with
  | nil => exact ⟨htop, fun _ h => absurd h List.not_mem_nil⟩
  | cons s rs ih =>
    rw [List.length_cons] at htop
    obtain ⟨hs, hrs⟩ := not_or.mp (List.mem_cons.not.mp hrs)
    obtain ⟨hsn, hn⟩ := List.nodup_cons.mp hn
    obtain ⟨hsp, hregs⟩ := ih hst.2 hrs hn (by omega)
    constructor
    · rw [Cpu.popAll, pop_rsp, hsp]
      omega
    · intro r hr
      rw [Cpu.popAll]
      rcases List.mem_cons.mp hr with rfl | hr
      · rw [pop_self _ (Ne.symm hs), hsp, popAll_mem]
        exact hst.1
      · rw [pop_regs _ (ne_of_mem_of_not_mem hr hrs) (ne_of_mem_of_not_mem hr hsn)]
        exact hregs r hr

end Frames

section Yield

variable {K : Code} {g g' : Globals} {c : Cpu} {mem mem' : ℕ → ℕ} {R : Reg → ℕ} {r : Reg} {t u : Tid} {q : List Tid}

theorem rsp_not_saved : .rsp ∉ calleeSaved := by decide

theorem rsi_not_saved : .rsi ∉ calleeSaved := by decide

theorem Code.rsp_not_mem (K : Code) : .rsp ∉ K.frame := fun h => rsp_not_saved (K.frame_saved _ h)

theorem Code.frame_length (K : Code) : K.frame.length ≤ 6 :=
  (List.Nodup.subperm K.frame_nodup K.frame_saved).length_le

theorem epilogue_spec (hst : Stored c.mem (R .rsp - 8) K.frame R)
    (hsp : c.regs .rsp + 8 * (K.frame.length + 1) = R .rsp) :
    (epilogue K c).mem = c.mem ∧ (epilogue K c).regs .rsp = R .rsp ∧
      (∀ r ∈ K.frame, (epilogue K c).regs r = R r) ∧
      ∀ r, r ≠ .rsp → r ∉ K.frame → (epilogue K c).regs r = c.regs r := by
  obtain ⟨hpop, hregs⟩ := popAll_stored hst K.rsp_not_mem K.frame_nodup (by omega)
  have hret (r : Reg) (h : r ≠ .rsp) : (epilogue K c).regs r = (c.popAll K.frame).regs r := by
    simp [epilogue, Cpu.ret, Cpu.setReg, h]
  refine ⟨popAll_mem c K.frame, ?_, fun r hr => ?_, fun r h hr => ?_⟩
  · rw [show (epilogue K c).regs .rsp = (c.popAll K.frame).regs .rsp + 8 by
      simp [epilogue, Cpu.ret, Cpu.setReg], hpop]
    omega
  · rw [hret r (ne_of_mem_of_not_mem hr K.rsp_not_mem), hregs r hr]
  · rw [hret r h, popAll_regs c h hr]

def body (K : Code) (c : Cpu) (ra : ℕ) (scratch : Reg → ℕ) : Cpu := clobber K scratch ((c.push ra).pushAll K.frame)

theorem body_rsp (c : Cpu) (ra : ℕ) (scratch : Reg → ℕ) :
    (body K c ra scratch).regs .rsp = c.regs .rsp - 8 * (K.frame.length + 1) := by
  rw [body, clobber]
  dsimp only
  rw [if_pos (.inl rfl), pushAll_rsp, push_rsp]
  omega

theorem body_regs (c : Cpu) (ra : ℕ) (scratch : Reg → ℕ) (h : r ∈ calleeSaved) (hr : r ∉ K.frame) :
    (body K c ra scratch).regs r = c.regs r := by
  have hne : r ≠ .rsp := ne_of_mem_of_not_mem h rsp_not_saved
  rw [body, clobber]
  dsimp only
  rw [if_pos (.inr ⟨h, hr⟩), pushAll_regs _ _ hne, push_regs c ra hne]

theorem body_stored (c : Cpu) (ra : ℕ) (scratch : Reg → ℕ) (h : 8 * (K.frame.length + 1) ≤ c.regs .rsp) :
    Stored (body K c ra scratch).mem (c.regs .rsp - 8) K.frame c.regs := by
  have hst := pushAll_stored (c.push ra) K.frame K.rsp_not_mem (by rw [push_rsp]; omega)
  rw [push_rsp] at hst
  exact stored_regs hst fun r hr => push_regs c ra (ne_of_mem_of_not_mem hr K.rsp_not_mem)

theorem body_mem (c : Cpu) (ra : ℕ) (scratch : Reg → ℕ) (h : 8 * (K.frame.length + 1) ≤ c.regs .rsp) {a : ℕ}
    (ha : c.regs .rsp ≤ a ∨ a + 8 * (K.frame.length + 1) < c.regs .rsp) :
    (body K c ra scratch).mem a = c.mem a := by
  have hpush := pushAll_mem (a := a) (c.push ra) K.frame (by rw [push_rsp]; omega) (by rw [push_rsp]; omega)
  exact hpush.trans (push_mem_of_ne c ra (by omega))

def Waiting (K : Code) (g : Globals) (mem : ℕ → ℕ) (t : Tid) : Option (Reg → ℕ) → Prop
  | none => (g.threads t).rsp = stackStart g t + 16376 ∧ mem (stackStart g t + 16376) = K.trampoline
  | some R => Roomy K g t (R .rsp) ∧ (g.threads t).rsp + 8 * (K.frame.length + 2) = R .rsp ∧
    mem (g.threads t).rsp = K.resume ∧ Stored mem (R .rsp - 8) K.frame R

theorem Waiting.congr {call : Option (Reg → ℕ)} (h : Waiting K g mem t call) (hb : g'.stackBase = g.stackBase)
    (hrsp : (g'.threads t).rsp = (g.threads t).rsp) (hm : ∀ a, OnStack g t a → mem' a = mem a) :
    Waiting K g' mem' t call := by
  have hstart : stackStart g' t = stackStart g t := by rw [stackStart, stackStart, hb]
  cases call with
  | none =>
    obtain ⟨h1, h2⟩ := h
    constructor
    · rw [hrsp, h1, hstart]
    · rw [hstart, hm _ ⟨by omega, by omega⟩, h2]
  | some R =>
    obtain ⟨hroomy, hsp, hres, hst⟩ := h
    obtain ⟨h1, h2, -⟩ := id hroomy
    refine ⟨by rwa [Roomy, hstart], by rwa [hrsp], ?_, ?_⟩
    · rw [hrsp, hm _ ⟨by omega, by omega⟩, hres]
    · apply hst.congr
      · intro a ha hb
        exact hm a ⟨by omega, by omega⟩
      · omega

theorem stackStart_aligned (h : 16 ∣ g.stackBase) (t : Tid) : 16 ∣ stackStart g t := by
  rw [stackStart]
  omega

theorem onStack_unique {a : ℕ} (ht : OnStack g t a) (hu : OnStack g u a) : t = u := by
  obtain ⟨h1, h2⟩ := ht
  obtain ⟨h3, h4⟩ := hu
  rw [stackStart] at h1 h2 h3 h4
  exact Fin.ext (by omega)

def saveRsp (g : Globals) (save : Option Tid) (v : ℕ) : Globals :=
  match save with
  | none => g
  | some t => g.store t { g.threads t with rsp := v }

theorem saveRsp_rsp (g : Globals) {save : Option Tid} (v : ℕ) (h : save ≠ some t) :
    ((saveRsp g save v).threads t).rsp = (g.threads t).rsp := by
  cases save with
  | none => rfl
  | some u =>
    rw [saveRsp, store_threads, if_neg]
    rintro rfl
    exact h rfl

theorem saveRsp_self (g : Globals) (t : Tid) (v : ℕ) : ((saveRsp g (some t) v).threads t).rsp = v := by
  rw [saveRsp, store_threads, if_pos rfl]

theorem saveRsp_fields (g : Globals) (save : Option Tid) (v : ℕ) :
    (saveRsp g save v).runq = g.runq ∧ (saveRsp g save v).current = g.current ∧
      (saveRsp g save v).count = g.count ∧ (saveRsp g save v).stackBase = g.stackBase ∧
      ∀ t, ((saveRsp g save v).threads t).next = (g.threads t).next ∧
        ((saveRsp g save v).threads t).state = (g.threads t).state := by
  cases save with
  | none => exact ⟨rfl, rfl, rfl, rfl, fun _ => ⟨rfl, rfl⟩⟩
  | some u =>
    refine ⟨rfl, rfl, rfl, rfl, fun t => ?_⟩
    rw [saveRsp, store_threads]
    split
    case isTrue h => rw [h]; exact ⟨rfl, rfl⟩
    case isFalse => exact ⟨rfl, rfl⟩

theorem saveRsp_inv (h : Inv g q false) (save : Option Tid) (v : ℕ) : Inv (saveRsp g save v) q false := by
  obtain ⟨hrunq, hcur, hcount, -, hth⟩ := saveRsp_fields g save v
  constructor
  case chain =>
    rw [hrunq]
    exact h.chain.congr fun u _ => (hth u).1
  case queued =>
    intro t
    rw [hcount, (hth t).2]
    exact h.queued t
  case current =>
    intro t ht
    rw [hcount, (hth t).2]
    exact h.current t (hcur ▸ ht)
  case running =>
    intro t ht
    rw [hcur]
    exact h.running t ((hth t).2 ▸ ht)
  case fresh =>
    intro t ht
    rw [(hth t).2]
    exact h.fresh t (hcount ▸ ht)
  case stopped => intro he; cases he

theorem switchTo_fst (g : Globals) (c : Cpu) (back : ℕ) (save : Option Tid) (load : Tid) :
    (switchTo K g c back save load).1 = saveRsp g save (c.regs .rsp - 8) := by
  cases save with
  | none => rfl
  | some t =>
    rw [switchTo, schedContextSwitch, saveRsp]
    simp [Cpu.setReg, push_rsp]

theorem switchTo_snd (g : Globals) (c : Cpu) (back : ℕ) (save : Option Tid) (load : Tid) :
    ∃ c', (switchTo K g c back save load).2 = land K c' ∧ c'.mem = (c.push back).mem ∧
      c'.rip = (c.push back).mem (g.threads load).rsp ∧ c'.regs .rsp = (g.threads load).rsp + 8 ∧
      ∀ r ∈ calleeSaved, c'.regs r = c.regs r := by
  refine ⟨_, rfl, ?_, ?_, ?_, fun r hr => ?_⟩
  · simp [schedContextSwitch, Cpu.ret, Cpu.setReg, Cpu.push]
  · simp [schedContextSwitch, Cpu.ret, Cpu.setReg, Cpu.push]
  · simp [schedContextSwitch, Cpu.ret, Cpu.setReg, Cpu.push]
  · have h1 : r ≠ .rsp := ne_of_mem_of_not_mem hr rsp_not_saved
    have h2 : r ≠ .rsi := ne_of_mem_of_not_mem hr rsi_not_saved
    simp [schedContextSwitch, Cpu.ret, Cpu.setReg, Cpu.push, h1, h2]

structure Landed (K : Code) (g : Globals) (load : Tid) (call : Option (Reg → ℕ)) (old : Reg → ℕ) (c : Cpu) : Prop where
  roomy : Roomy K g load (c.regs .rsp)
  rsp : ∀ R, call = some R → c.regs .rsp = R .rsp
  pushed : ∀ R, call = some R → ∀ r ∈ K.frame, c.regs r = R r
  kept : ∀ R, call = some R → ∀ r ∈ calleeSaved, r ∉ K.frame → c.regs r = old r

theorem switchTo_landed {load : Tid} {call : Option (Reg → ℕ)} (c : Cpu) (back : ℕ) (save : Option Tid)
    (hb : 16 ∣ g.stackBase) (hw : Waiting K g (c.push back).mem load call) :
    (switchTo K g c back save load).2.mem = (c.push back).mem ∧
      Landed K g load call c.regs (switchTo K g c back save load).2 := by
  obtain ⟨c', hsnd, hmem, hrip, hsp, hregs⟩ := switchTo_snd (K := K) g c back save load
  rw [hsnd]
  cases call with
  | none =>
    obtain ⟨h1, h2⟩ := hw
    rw [h1, h2] at hrip
    rw [land, if_neg (by rw [hrip]; exact K.apart)]
    refine ⟨hmem, ?_, fun R h => (nomatch h), fun R h => (nomatch h), fun R h => (nomatch h)⟩
    rw [hsp, h1, Roomy]
    have hlen := K.frame_length
    have hal := stackStart_aligned hb load
    omega
  | some R =>
    obtain ⟨hroomy, h1, h2, hst⟩ := hw
    rw [land, if_pos (by rw [hrip, h2])]
    rw [← hmem] at hst
    obtain ⟨hm, hrsp, hpushed, hkept⟩ := epilogue_spec (c := c') hst (by omega)
    refine ⟨hm.trans hmem, by rwa [hrsp], fun R' h => ?_, fun R' h r hr => ?_, fun R' h r hr hf => ?_⟩
    · cases h
      exact hrsp
    · cases h
      exact hpushed r hr
    · rw [hkept r (ne_of_mem_of_not_mem hr rsp_not_saved) hf, hregs r hr]

end Yield

end DexOs.Sched
