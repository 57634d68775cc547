import DexOs.SchedulerContext

/-! Threads that yield to each other: when does a call of `sched_yield` find its registers again? -/

namespace DexOs.Sched

section Machine

variable {K : Code} {m m' : Machine} {g' : Globals} {c : Cpu} {R : Reg → ℕ} {t next : Tid} {q q' : List Tid}

structure MInv (K : Code) (m : Machine) (q : List Tid) : Prop where
  inv : Inv m.g q false
  aligned : 16 ∣ m.g.stackBase
  waiting : ∀ t ∈ q, Waiting K m.g m.cpu.mem t (m.calls t)
  awake : ∀ t, t ∉ q → m.calls t = none
  roomy : ∀ t, m.g.current = some t → Roomy K m.g t (m.cpu.regs .rsp)

theorem MInv.current_not_mem (h : MInv K m q) (hc : m.g.current = some t) : t ∉ q := by
  intro hq
  have hr := (h.inv.cur_running hc).2
  rw [((h.inv.queued t).mp hq).2] at hr
  cases hr

theorem switch_spec {rest : List Tid} (back : ℕ) (save : Option Tid) {calls' : Tid → Option (Reg → ℕ)}
    (h : MInv K m (next :: rest)) (hinv : Inv g' q' false) (hturn : Turn m.g g' next)
    (hmem : ∀ t ∈ next :: rest, ∀ a, OnStack m.g t a → (c.push back).mem a = m.cpu.mem a)
    (hsave : ∀ t ∈ next :: rest, save ≠ some t ∧ calls' t = m.calls t)
    (hq : ∀ t ∈ q', t ∈ rest ∨ Waiting K (saveRsp g' save (c.regs .rsp - 8)) (c.push back).mem t (calls' t))
    (hawake : ∀ t, t ∉ q' → t ≠ next → calls' t = none) :
    MInv K ⟨(switchTo K g' c back save next).1, (switchTo K g' c back save next).2, arrive calls' next⟩ q' ∧
      Landed K g' next (m.calls next) c.regs (switchTo K g' c back save next).2 := by
  have hrsp (t : Tid) : (g'.threads t).rsp = (m.g.threads t).rsp := by
    obtain ⟨n, s, hu⟩ := hturn.threads t
    rw [hu]
  have hnext : next ∉ q' := by
    intro hm
    have hr := (hinv.cur_running hturn.now).2
    rw [((hinv.queued next).mp hm).2] at hr
    cases hr
  have hmn := List.mem_cons_self (a := next) (l := rest)
  have hw : Waiting K g' (c.push back).mem next (m.calls next) :=
    (h.waiting next hmn).congr hturn.stackBase (hrsp next) (hmem next hmn)
  obtain ⟨-, hcur, -, hbase, -⟩ := saveRsp_fields g' save (c.regs .rsp - 8)
  obtain ⟨hm, hland⟩ := switchTo_landed c back save (by rw [hturn.stackBase]; exact h.aligned) hw
  refine ⟨?_, hland⟩
  constructor
  case inv =>
    dsimp only
    rw [switchTo_fst]
    exact saveRsp_inv hinv save _
  case aligned =>
    dsimp only
    rw [switchTo_fst, hbase, hturn.stackBase]
    exact h.aligned
  case waiting =>
    intro t ht
    have hne : t ≠ next := ne_of_mem_of_not_mem ht hnext
    dsimp only
    rw [switchTo_fst, hm, arrive, Function.update_of_ne hne]
    rcases hq t ht with hr | hw
    · obtain ⟨hs, hcalls⟩ := hsave t (List.mem_cons_of_mem _ hr)
      rw [hcalls]
      refine (h.waiting t (List.mem_cons_of_mem _ hr)).congr (hbase.trans hturn.stackBase) ?_
        (hmem t (List.mem_cons_of_mem _ hr))
      rw [saveRsp_rsp g' _ hs, hrsp]
    · exact hw
  case awake =>
    intro t ht
    dsimp only
    rw [arrive, Function.update_apply]
    split
    case isTrue => rfl
    case isFalse hne => exact hawake t ht hne
  case roomy =>
    intro t ht
    dsimp only at ht ⊢
    rw [switchTo_fst, hcur, hturn.now, Option.some_inj] at ht
    subst ht
    have hroomy := hland.roomy
    rwa [switchTo_fst, Roomy, stackStart, hbase]

theorem preserves_iff {op : Op} {old : Reg → ℕ} (hstep : mstep K m op = some m')
    (hret : returned m m' op = m.calls next) (hup : upcoming m op = some next)
    (hland : Landed K g' next (m.calls next) old m'.cpu)
    (hold : ∀ r ∈ calleeSaved, r ∉ K.frame → old r = m.cpu.regs r) : Preserves K m op ↔ Undisturbed K m op := by
  constructor
  · intro hp R hR r hr hf
    rw [hup, Option.bind_some] at hR
    rw [← hold r hr hf, ← hland.kept R hR r hr hf]
    exact hp m' R hstep (hret.trans hR) r (List.mem_cons_of_mem _ hr)
  · intro hu m'' R hm hR r hr
    obtain rfl : m' = m'' := Option.some_inj.mp (hstep.symm.trans hm)
    rw [hret] at hR
    rcases List.mem_cons.mp hr with rfl | hr
    · exact hland.rsp R hR
    · by_cases hf : r ∈ K.frame
      · exact hland.pushed R hR r hf
      · rw [hland.kept R hR r hr hf, hold r hr hf]
        exact hu R (by rw [hup, Option.bind_some, hR]) r hr hf

theorem preserves_iff_of_none {op : Op} (hstep : mstep K m op = some m') (hret : returned m m' op = none)
    (hup : upcoming m op = none) : Preserves K m op ↔ Undisturbed K m op := by
  refine iff_of_true (fun m'' R hm hR => ?_) fun R hR => ?_
  · obtain rfl : m' = m'' := Option.some_inj.mp (hstep.symm.trans hm)
    rw [hret] at hR
    cases hR
  · rw [hup] at hR
    cases hR

theorem storeAll_of_not_mem (mem : ℕ → ℕ) (stores : List (ℕ × ℕ)) {a : ℕ} (h : ∀ w ∈ stores, w.1 ≠ a) :
    storeAll mem stores a = mem a := by
  induction stores generalizing mem with
  | nil => rfl
  | cons w stores ih =>
    rw [storeAll, List.foldl_cons, ← storeAll, ih _ fun w hw => h w (List.mem_cons_of_mem _ hw)]
    exact Function.update_of_ne (Ne.symm (h w List.mem_cons_self)) ..

theorem compute_inv {regs : Reg → ℕ} {stores : List (ℕ × ℕ)} (h : MInv K m q) (ha : Allowed K m (.compute regs stores)) :
    MInv K { m with cpu := ⟨regs, m.cpu.rip, storeAll m.cpu.mem stores⟩ } q := by
  obtain ⟨hroomy, hstores⟩ := ha
  refine { h with waiting := fun t ht => ?_, roomy := hroomy }
  apply (h.waiting t ht).congr rfl rfl
  intro a hon
  apply storeAll_of_not_mem
  rintro w hw rfl
  exact h.current_not_mem ((hstores w hw).2 t hon) ht

theorem firstRsp_eq (h : 16 ∣ m.g.stackBase) (ht : t.val = m.g.count) :
    firstRsp m.g.stackBase m.g.count = stackStart m.g t + 16376 := by
  rw [firstRsp, stackStart, ht]
  omega

theorem create_inv (h : MInv K m q) {new : Tid} (hnew : new.val = m.g.count) (hmade : Created m.g g' new)
    (hinv : Inv g' (q ++ [new]) false) :
    MInv K { m with
      g := g'
      cpu := { m.cpu with
        mem := Function.update m.cpu.mem (firstRsp m.g.stackBase m.g.count) K.trampoline } } (q ++ [new]) := by
  have hfirst := firstRsp_eq h.aligned hnew
  have hstart (t : Tid) : stackStart g' t = stackStart m.g t := by rw [stackStart, stackStart, hmade.stackBase]
  have hon : OnStack m.g new (firstRsp m.g.stackBase m.g.count) := by
    rw [hfirst]
    exact ⟨by omega, by omega⟩
  have hcount (t : Tid) (ht : t ∈ q) : t ≠ new := by
    rintro rfl
    have := ((h.inv.queued t).mp ht).1
    omega
  have hcalls : m.calls new = none := by
    apply h.awake
    intro hm
    exact hcount new hm rfl
  constructor
  case inv => exact hinv
  case aligned =>
    rw [hmade.stackBase]
    exact h.aligned
  case waiting =>
    intro t ht
    dsimp only
    rcases List.mem_append.mp ht with ht | ht
    · have hne := hcount t ht
      apply (h.waiting t ht).congr hmade.stackBase
      · rw [hmade.rsp, if_neg hne]
      · intro a ha
        apply Function.update_of_ne
        rintro rfl
        exact hne (onStack_unique ha hon)
    · obtain rfl := List.mem_singleton.mp ht
      rw [hcalls]
      constructor
      · rw [hmade.rsp, if_pos rfl, hfirst, hstart]
      · rw [hstart, ← hfirst, Function.update_self]
  case awake =>
    intro t ht
    exact h.awake t fun hm => ht (List.mem_append_left _ hm)
  case roomy =>
    intro t ht
    dsimp only at ht ⊢
    rw [Roomy, hstart]
    exact h.roomy t (hmade.current ▸ ht)

def StepOk (K : Code) (m : Machine) (op : Op) (m' : Machine) : Prop :=
  (∃ q', MInv K m' q') ∧ (Preserves K m op ↔ Undisturbed K m op)

theorem start_ok (h : MInv K m q) (ha : Allowed K m .start) (hstep : mstep K m .start = some m') :
    StepOk K m .start m' := by
  have hrun := hstep
  rw [mstep] at hrun
  cases hc : m.g.current with
  | some cur =>
    have hret : schedStart m.g = (m.g, .ret) := by rw [schedStart, hc]
    rw [hret] at hrun
    obtain rfl : m = m' := Option.some_inj.mp hrun
    refine ⟨⟨q, h⟩, preserves_iff_of_none hstep ?_ ?_⟩
    · rw [returned, hc, Option.bind_some]
      exact h.awake cur (h.current_not_mem hc)
    · rw [upcoming, hc, if_neg (by simp)]
  | none =>
    cases q with
    | nil =>
      have hret : schedStart m.g = (m.g, .ret) := by
        rw [schedStart, hc]
        dsimp only
        rw [dequeue_nil h.inv.chain]
      rw [hret] at hrun
      obtain rfl : m = m' := Option.some_inj.mp hrun
      refine ⟨⟨[], h⟩, preserves_iff_of_none hstep ?_ ?_⟩
      · rw [returned, hc, Option.bind_none]
      · rw [upcoming, if_pos hc, chain_nil.mp h.inv.chain]
    | cons next rest =>
      obtain ⟨g', hst, hinv, hturn⟩ := start_spec h.inv hc
      have hnone (t : Tid) (hm : t ∉ rest) (hne : t ≠ next) : m.calls t = none := by
        apply h.awake
        simp [hm, hne]
      have hmem (t : Tid) (a : ℕ) (hon : OnStack m.g t a) : (m.cpu.push K.leave).mem a = m.cpu.mem a := by
        apply push_mem_of_ne
        rintro rfl
        exact ha hc t hon
      obtain ⟨hm, hland⟩ := switch_spec K.leave none h hinv hturn (fun t _ => hmem t)
        (fun t _ => ⟨by simp, rfl⟩) (fun t ht => .inl ht) hnone
      rw [hst] at hrun
      obtain rfl := Option.some_inj.mp hrun
      refine ⟨⟨rest, hm⟩, preserves_iff hstep ?_ ?_ hland fun _ _ _ => rfl⟩
      · rw [returned]
        dsimp only
        rw [switchTo_fst, (saveRsp_fields ..).2.1, hturn.now, Option.bind_some]
      · rw [upcoming, if_pos hc]
        exact (chain_cons.mp h.inv.chain).1

theorem Roomy.below {cur : Tid} {a n : ℕ} (h : Roomy K m.g cur a) (hn : 0 < n) (hle : n ≤ K.frame.length + 2) :
    OnStack m.g cur (a - 8 * n) := by
  obtain ⟨h1, h2, -⟩ := h
  exact ⟨by omega, by omega⟩

theorem finish_ok (h : MInv K m q) (hstep : mstep K m .finish = some m') : StepOk K m .finish m' := by
  have hrun := hstep
  rw [mstep] at hrun
  cases hc : m.g.current with
  | none =>
    rw [hc] at hrun
    cases hrun
  | some cur =>
    rw [hc] at hrun
    dsimp only at hrun
    cases q with
    | nil =>
      rw [(finish_last h.inv hc).1] at hrun
      cases hrun
    | cons next rest =>
      obtain ⟨g', hst, hinv, hturn, -⟩ := finish_spec h.inv hc
      have hcur := h.current_not_mem hc
      have hon := (h.roomy cur hc).below (n := 1) (by omega) (by omega)
      have hmem (t : Tid) (ht : t ∈ next :: rest) (a : ℕ) (ha : OnStack m.g t a) :
          (m.cpu.push K.leave).mem a = m.cpu.mem a := by
        apply push_mem_of_ne
        rintro rfl
        obtain rfl := onStack_unique ha hon
        exact hcur ht
      have hsave (t : Tid) (ht : t ∈ next :: rest) : some cur ≠ some t ∧ m.calls t = m.calls t := by
        refine ⟨?_, rfl⟩
        rintro ⟨rfl⟩
        exact hcur ht
      have hnone (t : Tid) (hm : t ∉ rest) (hne : t ≠ next) : m.calls t = none := by
        apply h.awake
        simp [hm, hne]
      obtain ⟨hm, hland⟩ := switch_spec K.leave (some cur) h hinv hturn hmem hsave (fun t ht => .inl ht) hnone
      rw [hst] at hrun
      obtain rfl := Option.some_inj.mp hrun
      refine ⟨⟨rest, hm⟩, preserves_iff hstep ?_ (chain_cons.mp h.inv.chain).1 hland fun _ _ _ => rfl⟩
      rw [returned]
      dsimp only
      rw [switchTo_fst, (saveRsp_fields ..).2.1, hturn.now, Option.bind_some]

theorem yield_alone {cur : Tid} {ra : ℕ} {scratch : Reg → ℕ} (h : MInv K m []) (hc : m.g.current = some cur)
    (hstep : mstep K m (.yield ra scratch) = some m') : StepOk K m (.yield ra scratch) m' := by
  have hrun := hstep
  rw [mstep] at hrun
  dsimp only at hrun
  rw [yield_ret h.inv (.inr rfl)] at hrun
  obtain rfl := Option.some_inj.mp hrun
  obtain ⟨h1, h2, -⟩ := h.roomy cur hc
  have hroom : 8 * (K.frame.length + 1) ≤ m.cpu.regs .rsp := by omega
  obtain ⟨-, hsp, hpushed, hkept⟩ := epilogue_spec (body_stored m.cpu ra scratch hroom)
    (by rw [body_rsp]; omega)
  constructor
  · refine ⟨[], { h with waiting := fun t ht => absurd ht List.not_mem_nil, roomy := fun t ht => ?_ }⟩
    have hroomy := h.roomy t ht
    dsimp only
    rw [← hsp] at hroomy
    exact hroomy
  · refine iff_of_true (fun m' R hm hR r hr => ?_) fun R hR => ?_
    · obtain rfl := Option.some_inj.mp (hstep.symm.trans hm)
      rw [returned] at hR
      dsimp only at hR
      rw [hc, Option.bind_some, if_pos rfl, Option.some_inj] at hR
      subst hR
      rcases List.mem_cons.mp hr with rfl | hr
      · exact hsp
      · by_cases hf : r ∈ K.frame
        · exact hpushed r hf
        · refine (hkept r (ne_of_mem_of_not_mem hr rsp_not_saved) hf).trans ?_
          exact body_regs m.cpu ra scratch hr hf
    · rw [upcoming, chain_nil.mp h.inv.chain, Option.bind_none] at hR
      cases hR

theorem yield_waiting {cur : Tid} {ra : ℕ} {scratch : Reg → ℕ} (hroomy : Roomy K m.g cur (m.cpu.regs .rsp))
    (hb : g'.stackBase = m.g.stackBase) :
    Waiting K (saveRsp g' (some cur) ((body K m.cpu ra scratch).regs .rsp - 8))
      ((body K m.cpu ra scratch).push K.resume).mem cur (some m.cpu.regs) := by
  obtain ⟨h1, h2, h3⟩ := hroomy
  have hrsp := body_rsp (K := K) m.cpu ra scratch
  have hbase : (saveRsp g' (some cur) ((body K m.cpu ra scratch).regs .rsp - 8)).stackBase = m.g.stackBase :=
    (saveRsp_fields ..).2.2.2.1.trans hb
  refine ⟨?_, ?_, ?_, ?_⟩
  · rw [Roomy, stackStart, hbase]
    exact ⟨h1, h2, h3⟩
  · rw [saveRsp_self, hrsp]
    omega
  · rw [saveRsp_self, push_mem]
  · apply (body_stored m.cpu ra scratch (by omega)).congr
    · intro a ha hle
      apply push_mem_of_ne
      rw [hrsp]
      omega
    · omega

theorem yield_ok {ra : ℕ} {scratch : Reg → ℕ} (h : MInv K m q) (ha : Allowed K m (.yield ra scratch))
    (hstep : mstep K m (.yield ra scratch) = some m') : StepOk K m (.yield ra scratch) m' := by
  obtain ⟨cur, hc⟩ := Option.ne_none_iff_exists'.mp ha
  cases q with
  | nil => exact yield_alone h hc hstep
  | cons next rest =>
    have hrun := hstep
    obtain ⟨g', hst, hinv, hturn, -⟩ := yield_spec h.inv hc
    have hcur := h.current_not_mem hc
    have hroomy := h.roomy cur hc
    obtain ⟨h1, h2, -⟩ := id hroomy
    have hroom : 8 * (K.frame.length + 1) ≤ m.cpu.regs .rsp := by omega
    have hmem (t : Tid) (ht : t ∈ next :: rest) (a : ℕ) (hon : OnStack m.g t a) :
        ((body K m.cpu ra scratch).push K.resume).mem a = m.cpu.mem a := by
      -- every address that the call writes to is on the stack of the current thread
      have hoff : m.cpu.regs .rsp ≤ a ∨ a + 8 * (K.frame.length + 2) < m.cpu.regs .rsp := by
        by_contra! hin
        have : t = cur := onStack_unique hon ⟨by omega, by omega⟩
        exact hcur (this ▸ ht)
      rw [push_mem_of_ne _ _ (by rw [body_rsp]; omega), body_mem m.cpu ra scratch hroom (by omega)]
    have hsave (t : Tid) (ht : t ∈ next :: rest) :
        some cur ≠ some t ∧ Function.update m.calls cur (some m.cpu.regs) t = m.calls t := by
      have hne : t ≠ cur := ne_of_mem_of_not_mem ht hcur
      exact ⟨fun he => hne (Option.some_inj.mp he).symm, Function.update_of_ne hne ..⟩
    have hqueue (t : Tid) (ht : t ∈ rest ++ [cur]) : t ∈ rest ∨
        Waiting K (saveRsp g' (some cur) ((body K m.cpu ra scratch).regs .rsp - 8))
          ((body K m.cpu ra scratch).push K.resume).mem t (Function.update m.calls cur (some m.cpu.regs) t) := by
      rcases List.mem_append.mp ht with ht | ht
      · exact .inl ht
      · obtain rfl := List.mem_singleton.mp ht
        rw [Function.update_self]
        exact .inr (yield_waiting hroomy hturn.stackBase)
    have hawake (t : Tid) (hm : t ∉ rest ++ [cur]) (hne : t ≠ next) :
        Function.update m.calls cur (some m.cpu.regs) t = none := by
      simp only [List.mem_append, List.mem_singleton, not_or] at hm
      rw [Function.update_of_ne hm.2]
      apply h.awake
      simp [hm.1, hne]
    obtain ⟨hm, hland⟩ := switch_spec K.resume (some cur) h hinv hturn hmem hsave hqueue hawake
    rw [mstep] at hrun
    dsimp only at hrun
    rw [hst] at hrun
    obtain rfl := Option.some_inj.mp hrun
    refine ⟨⟨_, hm⟩, preserves_iff hstep ?_ (chain_cons.mp h.inv.chain).1 hland
      fun r hr hf => body_regs m.cpu ra scratch hr hf⟩
    have hnext : m.g.current ≠ some next := by
      rw [hc]
      rintro ⟨rfl⟩
      exact hcur List.mem_cons_self
    rw [returned]
    dsimp only
    rw [switchTo_fst, (saveRsp_fields ..).2.1, hturn.now, Option.bind_some, if_neg hnext]

theorem step_ok {op : Op} (h : MInv K m q) (ha : Allowed K m op) (hstep : mstep K m op = some m') :
    StepOk K m op m' := by
  cases op with
  | compute regs stores =>
    have hrun := hstep
    rw [mstep, Option.some_inj] at hrun
    subst hrun
    exact ⟨⟨q, compute_inv h ha⟩, preserves_iff_of_none hstep rfl rfl⟩
  | create entry arg =>
    have hrun := hstep
    rw [mstep] at hrun
    refine ⟨?_, preserves_iff_of_none hstep rfl rfl⟩
    rcases create_spec h.inv entry arg with hc | ⟨new, g', hnew, hc, hmade, hinv⟩
    · rw [hc] at hrun
      obtain rfl := Option.some_inj.mp hrun
      exact ⟨q, h⟩
    · rw [hc] at hrun
      obtain rfl := Option.some_inj.mp hrun
      exact ⟨_, create_inv h hnew hmade hinv⟩
  | start => exact start_ok h ha hstep
  | yield ra scratch => exact yield_ok h ha hstep
  | finish => exact finish_ok h hstep

theorem initial_minv {stackBase : ℕ} (h : 16 ∣ stackBase) (cpu : Cpu) :
    MInv K ⟨initial stackBase, cpu, fun _ => none⟩ [] where
  inv := initial_inv stackBase
  aligned := h
  waiting t ht := absurd ht List.not_mem_nil
  awake _ _ := rfl
  roomy t ht := by cases ht

theorem run_ok {steps : List (Machine × Op)} (h : Run K steps m) :
    (∃ q, MInv K m q) ∧ ∀ s ∈ steps, Preserves K s.1 s.2 ↔ Undisturbed K s.1 s.2 := by
  induction h with
  | init stackBase h cpu => exact ⟨⟨[], initial_minv h cpu⟩, fun s hs => absurd hs List.not_mem_nil⟩
  | step _ ha hstep ih =>
    obtain ⟨⟨q, hq⟩, hsteps⟩ := ih
    obtain ⟨hinv, hiff⟩ := step_ok hq ha hstep
    refine ⟨hinv, fun s hs => ?_⟩
    rcases List.mem_cons.mp hs with rfl | hs
    · exact hiff
    · exact hsteps s hs

/-- In a run, all calls of `sched_yield` that return find `rsp` and the callee-saved registers as they
were if and only if every switch happens at a moment when the registers that `sched_yield` does not push
are those of the thread that it switches to. -/
theorem yields_preserve_iff {steps : List (Machine × Op)} (h : Run K steps m) :
    (∀ s ∈ steps, Preserves K s.1 s.2) ↔ ∀ s ∈ steps, Undisturbed K s.1 s.2 :=
  forall₂_congr (run_ok h).2

def replay (K : Code) (m : Machine) : List Op → List (Machine × Op) → Option (List (Machine × Op) × Machine)
  | [], steps => some (steps, m)
  | op :: ops, steps =>
    if Allowed K m op then (mstep K m op).bind fun m' => replay K m' ops ((m, op) :: steps) else none

theorem replay_run (ops : List Op) {steps steps' : List (Machine × Op)}
    (h : Run K steps m) (hr : replay K m ops steps = some (steps', m')) : Run K steps' m' := by
  induction ops generalizing m steps with
  | nil =>
    rw [replay, Option.some_inj, Prod.mk.injEq] at hr
    obtain ⟨rfl, rfl⟩ := hr
    exact h
  | cons op ops ih =>
    rw [replay] at hr
    split at hr
    case isTrue ha =>
      obtain ⟨m₁, hm, hr⟩ := Option.bind_eq_some_iff.mp hr
      exact ih (h.step ha hm) hr
    case isFalse => cases hr

theorem rbp_saved : ∀ r ∈ [Reg.rbp], r ∈ calleeSaved := by decide

theorem three_ne_one : 3 ≠ 1 := by decide

def frameCode : Code := ⟨[.rbp], 1, 2, 3, rbp_saved, List.nodup_singleton _, three_ne_one⟩

def callRegs (rsp rbx : ℕ) : Reg → ℕ
  | .rsp => rsp
  | .rbx => rbx
  | _ => 0

def booted : Machine := ⟨initial 65536, ⟨callRegs 32768 0, 0, fun _ => 0⟩, fun _ => none⟩

theorem booted_run : Run frameCode [] booted := .init 65536 (by decide) _

def twoYields (v : ℕ) : List Op :=
  [.create 0 0, .create 0 0, .start, .compute (callRegs 73728 1) [], .yield 4 (fun _ => 0),
    .compute (callRegs 90112 v) [], .yield 5 (fun _ => 0)]

theorem yields_preserve_iff_same_rbx :
    ∃ steps m, replay frameCode booted (twoYields 1) [] = some (steps, m) ∧ ∀ s ∈ steps, Preserves frameCode s.1 s.2 := by
  refine ⟨_, _, rfl, (yields_preserve_iff (replay_run (twoYields 1) booted_run rfl)).mpr ?_⟩
  decide +kernel

/-- The first thread called with 1 in `rbx`, and has the 2 of the other thread when its call returns. -/
theorem yield_loses_rbx :
    ∃ steps m, replay frameCode booted (twoYields 2) [] = some (steps, m) ∧ m.cpu.regs .rbx = 2 ∧
      ¬ ∀ s ∈ steps, Preserves frameCode s.1 s.2 := by
  refine ⟨_, _, rfl, by decide +kernel, ?_⟩
  rw [forall₂_congr (run_ok (replay_run (twoYields 2) booted_run rfl)).2]
  decide +kernel

end Machine

end DexOs.Sched
