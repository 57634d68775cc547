import DexOs.Scheduler
import Mathlib.Data.List.Rotate
import Mathlib.Data.Fintype.Card

/-! The run queue: who is in it, and in which order the threads get their turn. -/

namespace DexOs.Sched

open DexOs.Lib

variable {g g' : Globals} {q : List Tid} {t u : Tid} {th th' : Tid → Thread} {head : Option Tid}

section Chain

def link (th : Tid → Thread) (p : Option Tid) : Option Tid := p.bind fun t => (th t).next

def Chain (th : Tid → Thread) (head : Option Tid) (q : List Tid) : Prop := Linked (link th) none head (q.map some)

theorem Chain.nodup (h : Chain th head q) : q.Nodup := List.Nodup.of_map some (Linked.nodup h)

theorem Chain.congr (h : Chain th head q) (hn : ∀ u ∈ q, (th' u).next = (th u).next) : Chain th' head q := by
  apply (linked_congr _ _ _).mpr h
  intro p hp
  obtain ⟨u, hu, rfl⟩ := List.mem_map.mp hp
  exact hn u hu

theorem chain_nil : Chain th head [] ↔ head = none := linked_nil ..

theorem chain_cons : Chain th head (t :: q) ↔ head = some t ∧ Chain th (th t).next q := by
  rw [Chain, List.map_cons, linked_cons]
  exact and_congr_right fun _ => and_iff_right (by simp)

theorem Chain.length_le (h : Chain th head q) : q.length ≤ 8 := by
  have hcard := List.Nodup.length_le_card h.nodup
  rwa [Fintype.card_fin] at hcard

theorem Chain.head_eq (h : Chain th head q) (hq : q ≠ []) : ∃ p, head = some p := by
  obtain ⟨t, q, rfl⟩ := List.exists_cons_of_ne_nil hq
  exact ⟨t, (chain_cons.mp h).1⟩

theorem lastFrom_eq {fuel : ℕ} {p : Tid} (h : Chain g.threads (some p) (q ++ [t])) (hf : q.length < fuel) :
    lastFrom g fuel p = some t := by
  induction q generalizing p fuel with
  | nil =>
    obtain ⟨hp, hnil⟩ := chain_cons.mp h
    obtain rfl : p = t := Option.some_inj.mp hp
    obtain ⟨fuel, rfl⟩ : ∃ n, fuel = n + 1 := ⟨fuel - 1, by omega⟩
    rw [lastFrom, chain_nil.mp hnil]
  | cons u q ih =>
    obtain ⟨hp, hrest⟩ := chain_cons.mp h
    obtain rfl : p = u := Option.some_inj.mp hp
    rw [List.length_cons] at hf
    obtain ⟨fuel, rfl⟩ : ∃ n, fuel = n + 1 := ⟨fuel - 1, by omega⟩
    cases hnext : (g.threads p).next with
    | none =>
      rw [hnext] at hrest
      obtain ⟨v, hv⟩ := hrest.head_eq (by simp)
      cases hv
    | some v =>
      rw [lastFrom, hnext]
      rw [hnext] at hrest
      exact ih hrest (by omega)

theorem link_update (v : Thread) (t : Tid) :
    link (Function.update th t v) = Function.update (link th) (some t) v.next := by
  funext p
  cases p with
  | none => rfl
  | some u =>
    by_cases hu : u = t
    · subst hu
      simp [link]
    · simp [link, hu]

theorem Chain.snoc {last : Tid} (h : Chain th head (q ++ [last])) (ht : t ∉ q ++ [last]) (hn : (th t).next = none) :
    Chain (Function.update th last { th last with next := some t }) head (q ++ [last] ++ [t]) := by
  have hmap : (q ++ [last]).map some = q.map some ++ [some last] := by simp
  rw [Chain, hmap] at h
  have hnot : some t ∉ q.map some ++ [some last] := by
    rw [← hmap]
    simpa using ht
  rw [Chain, link_update, List.map_append, hmap]
  exact h.snoc hnot (by simp) hn

structure Requeued (g g' : Globals) : Prop where
  current : g'.current = g.current
  count : g'.count = g.count
  stackBase : g'.stackBase = g.stackBase
  threads : ∀ u, ∃ n, g'.threads u = { g.threads u with next := n }

theorem Requeued.state (h : Requeued g g') (u : Tid) : (g'.threads u).state = (g.threads u).state := by
  obtain ⟨n, hn⟩ := h.threads u
  rw [hn]

theorem store_threads (g : Globals) (t : Tid) (v : Thread) (u : Tid) :
    (g.store t v).threads u = if u = t then v else g.threads u := Function.update_apply ..

theorem requeued_setNext (g : Globals) (t : Tid) (n : Option Tid) : Requeued g (g.setNext t n) := by
  refine ⟨rfl, rfl, rfl, fun u => ?_⟩
  rw [Globals.setNext, store_threads]
  split
  case isTrue h => exact ⟨n, by rw [h]⟩
  case isFalse h => exact ⟨_, rfl⟩

theorem Requeued.trans {g'' : Globals} (h : Requeued g g') (h' : Requeued g' g'') : Requeued g g'' := by
  refine ⟨h'.current.trans h.current, h'.count.trans h.count, h'.stackBase.trans h.stackBase, fun u => ?_⟩
  obtain ⟨n, hn⟩ := h.threads u
  obtain ⟨n', hn'⟩ := h'.threads u
  exact ⟨n', by rw [hn', hn]⟩

theorem enqueue_spec (h : Chain g.threads g.runq q) (ht : t ∉ q) :
    ∃ g', enqueue g t = some g' ∧ Chain g'.threads g'.runq (q ++ [t]) ∧ Requeued g g' := by
  have hfirst := requeued_setNext g t none
  have hself : ((g.setNext t none).threads t).next = none := by
    rw [Globals.setNext, store_threads, if_pos rfl]
  have hchain : Chain (g.setNext t none).threads g.runq q := by
    apply h.congr
    intro u hu
    rw [Globals.setNext, store_threads, if_neg (ne_of_mem_of_not_mem hu ht)]
  rw [enqueue, show (g.setNext t none).runq = g.runq from rfl]
  rcases List.eq_nil_or_concat q with rfl | ⟨init, last, rfl⟩
  · rw [chain_nil.mp hchain]
    exact ⟨_, rfl, chain_cons.mpr ⟨rfl, chain_nil.mpr hself⟩, { hfirst with }⟩
  · rw [List.concat_eq_append] at hchain ht ⊢
    have hlen := hchain.length_le
    rw [List.length_append, List.length_singleton] at hlen
    obtain ⟨p, hp⟩ := hchain.head_eq (by simp)
    have hlast : lastFrom (g.setNext t none) 8 p = some last := lastFrom_eq (hp ▸ hchain) (by omega)
    rw [hp]
    dsimp only
    rw [hlast]
    refine ⟨_, rfl, ?_, hfirst.trans (requeued_setNext _ last (some t))⟩
    exact hchain.snoc ht hself

end Chain

section Invariant

/-- The queue holds exactly the created threads that are ready; until the processor halts, the current
thread is the only one that runs. -/
structure Inv (g : Globals) (q : List Tid) (halted : Bool) : Prop where
  chain : Chain g.threads g.runq q
  queued : ∀ t, t ∈ q ↔ t.val < g.count ∧ (g.threads t).state = .ready
  current : ∀ t, g.current = some t →
    t.val < g.count ∧ (g.threads t).state = if halted then .done else .running
  running : ∀ t, (g.threads t).state = .running → g.current = some t
  fresh : ∀ t : Tid, g.count ≤ t.val → (g.threads t).state = .ready
  stopped : halted = true → q = []

structure Handover (g : Globals) (next : Tid) (q : List Tid) : Prop where
  chain : Chain g.threads g.runq q
  taken : next ∉ q
  queued : ∀ t, t ∈ next :: q ↔ t.val < g.count ∧ (g.threads t).state = .ready
  idle : ∀ t, (g.threads t).state ≠ .running
  fresh : ∀ t : Tid, g.count ≤ t.val → (g.threads t).state = .ready

theorem Inv.cur_running {cur : Tid} (h : Inv g q false) (hc : g.current = some cur) :
    cur.val < g.count ∧ (g.threads cur).state = .running := h.current cur hc

theorem initial_inv (stackBase : ℕ) : Inv (initial stackBase) [] false where
  chain := chain_nil.mpr rfl
  queued t := by simp [initial]
  current t h := by cases h
  running t h := by cases h
  fresh t _ := rfl
  stopped h := by cases h

theorem setState_state (g : Globals) (t : Tid) (s : State) (u : Tid) :
    ((g.setState t s).threads u).state = if u = t then s else (g.threads u).state := by
  rw [Globals.setState, store_threads]
  split <;> rfl

theorem setState_next (g : Globals) (t : Tid) (s : State) (u : Tid) :
    ((g.setState t s).threads u).next = (g.threads u).next := by
  rw [Globals.setState, store_threads]
  split
  case isTrue h => rw [h]
  case isFalse => rfl

theorem Handover.dispatch {next : Tid} (h : Handover g next q) : Inv (dispatch g next) q false := by
  have hnext := (h.queued next).mp List.mem_cons_self
  have hstate (t : Tid) : ((Sched.dispatch g next).threads t).state =
      if t = next then .running else (g.threads t).state := setState_state _ next .running t
  constructor
  case chain =>
    apply h.chain.congr
    intro u _
    exact setState_next _ next .running u
  case queued =>
    intro t
    rw [hstate]
    by_cases ht : t = next
    · simp [ht, h.taken]
    · rw [if_neg ht]
      have hq := h.queued t
      rw [List.mem_cons, or_iff_right ht] at hq
      exact hq
  case current =>
    intro t ht
    obtain rfl : next = t := Option.some_inj.mp ht
    exact ⟨hnext.1, by rw [hstate, if_pos rfl]; rfl⟩
  case running =>
    intro t ht
    rw [hstate] at ht
    split at ht
    case isTrue he => rw [he]; rfl
    case isFalse => exact absurd ht (h.idle t)
  case fresh =>
    intro t ht
    change g.count ≤ t.val at ht
    rw [hstate, if_neg (by rintro rfl; omega)]
    exact h.fresh t ht
  case stopped => intro he; cases he

theorem dequeue_cons {next : Tid} (h : Chain g.threads g.runq (next :: q)) :
    dequeue g = (some next, { g with runq := (g.threads next).next }) ∧ Chain g.threads (g.threads next).next q ∧
      next ∉ q := by
  obtain ⟨hp, hrest⟩ := chain_cons.mp h
  rw [dequeue, hp]
  exact ⟨rfl, hrest, (List.nodup_cons.mp h.nodup).1⟩

theorem dequeue_nil (h : Chain g.threads g.runq []) : dequeue g = (none, g) := by
  rw [dequeue, chain_nil.mp h]

structure Created (g g' : Globals) (new : Tid) : Prop where
  current : g'.current = g.current
  stackBase : g'.stackBase = g.stackBase
  state : ∀ t, (g'.threads t).state = (g.threads t).state
  rsp : ∀ t, (g'.threads t).rsp = if t = new then firstRsp g.stackBase g.count else (g.threads t).rsp

theorem Requeued.rsp (h : Requeued g g') (u : Tid) : (g'.threads u).rsp = (g.threads u).rsp := by
  obtain ⟨n, hn⟩ := h.threads u
  rw [hn]

theorem create_spec (h : Inv g q false) (entry arg : ℕ) :
    schedCreate g entry arg = some (-1, g) ∨
      ∃ new : Tid, ∃ g', new.val = g.count ∧ schedCreate g entry arg = some (0, g') ∧ Created g g' new ∧
        Inv g' (q ++ [new]) false := by
  rw [schedCreate]
  split
  case isFalse => exact .inl rfl
  case isTrue hlt =>
    right
    dsimp only
    have hnew : (⟨g.count, hlt⟩ : Tid) ∉ q := by
      intro hq
      exact absurd ((h.queued _).mp hq).1 (lt_irrefl _)
    have hchain : Chain (g.store ⟨g.count, hlt⟩ ⟨none, firstRsp g.stackBase g.count, entry, arg, .ready, g.count⟩).threads
        g.runq q := by
      apply h.chain.congr
      intro u hu
      rw [store_threads, if_neg (ne_of_mem_of_not_mem hu hnew)]
    obtain ⟨g', hrun, hc, hre⟩ := enqueue_spec hchain hnew
    have hstate (t : Tid) : (g'.threads t).state = (g.threads t).state := by
      rw [hre.state, store_threads]
      split
      case isTrue he => rw [h.fresh t (by rw [he])]
      case isFalse => rfl
    have hrsp (t : Tid) : (g'.threads t).rsp =
        if t = ⟨g.count, hlt⟩ then firstRsp g.stackBase g.count else (g.threads t).rsp := by
      rw [hre.rsp, store_threads]
      split <;> rfl
    have hcount : g'.count = g.count := hre.count
    have hcur : g'.current = g.current := hre.current
    rw [hrun, Option.map_some]
    refine ⟨⟨g.count, hlt⟩, _, rfl, rfl, ⟨hcur, hre.stackBase, hstate, hrsp⟩, ?_⟩
    constructor
    case chain => exact hc
    case queued =>
      intro t
      change _ ↔ t.val < g'.count + 1 ∧ (g'.threads t).state = .ready
      rw [hstate, hcount, List.mem_append, List.mem_singleton, h.queued t]
      constructor
      · rintro (⟨h1, h2⟩ | rfl)
        · exact ⟨by omega, h2⟩
        · exact ⟨Nat.lt_succ_self _, h.fresh _ (le_refl _)⟩
      · rintro ⟨h1, h2⟩
        by_cases he : t.val = g.count
        · exact .inr (Fin.ext he)
        · exact .inl ⟨by omega, h2⟩
    case current =>
      intro t ht
      obtain ⟨h1, h2⟩ := h.current t (hcur ▸ ht)
      exact ⟨show t.val < g'.count + 1 by omega, (hstate t).trans h2⟩
    case running =>
      intro t ht
      exact hcur.trans (h.running t ((hstate t) ▸ ht))
    case fresh =>
      intro t ht
      change g'.count + 1 ≤ t.val at ht
      exact (hstate t).trans (h.fresh t (by omega))
    case stopped => intro he; cases he

structure Kept (g g' : Globals) : Prop where
  count : g'.count = g.count
  stackBase : g'.stackBase = g.stackBase
  threads : ∀ u, ∃ n s, g'.threads u = { g.threads u with next := n, state := s }

theorem Kept.refl (g : Globals) : Kept g g := ⟨rfl, rfl, fun u => ⟨(g.threads u).next, (g.threads u).state, rfl⟩⟩

theorem Kept.trans {g'' : Globals} (h : Kept g g') (h' : Kept g' g'') : Kept g g'' := by
  refine ⟨h'.count.trans h.count, h'.stackBase.trans h.stackBase, fun u => ?_⟩
  obtain ⟨n, s, hu⟩ := h.threads u
  obtain ⟨n', s', hu'⟩ := h'.threads u
  exact ⟨n', s', by rw [hu', hu]⟩

theorem Requeued.kept (h : Requeued g g') : Kept g g' := by
  refine ⟨h.count, h.stackBase, fun u => ?_⟩
  obtain ⟨n, hn⟩ := h.threads u
  exact ⟨n, _, hn⟩

theorem setState_kept (g : Globals) (t : Tid) (s : State) : Kept g (g.setState t s) := by
  refine ⟨rfl, rfl, fun u => ?_⟩
  rw [Globals.setState, store_threads]
  split
  case isTrue h => exact ⟨_, s, by rw [h]⟩
  case isFalse => exact ⟨_, _, rfl⟩

structure Turn (g g' : Globals) (next : Tid) : Prop extends Kept g g' where
  now : g'.current = some next
  others : ∀ t, t ≠ next → g.current ≠ some t → (g'.threads t).state = (g.threads t).state

theorem dispatch_turn {next : Tid} (hk : Kept g g')
    (ho : ∀ t, t ≠ next → g.current ≠ some t → (g'.threads t).state = (g.threads t).state) :
    Turn g (dispatch g' next) next := by
  have hd : Kept g' (dispatch g' next) := { setState_kept g' next .running with }
  refine { hk.trans hd with now := rfl, others := fun t h1 h2 => ?_ }
  rw [← ho t h1 h2]
  exact (setState_state _ next .running t).trans (if_neg h1)

theorem start_spec {next : Tid} (h : Inv g (next :: q) false) (hc : g.current = none) :
    ∃ g', schedStart g = (g', .switch none next) ∧ Inv g' q false ∧ Turn g g' next := by
  obtain ⟨hd, hchain, hnot⟩ := dequeue_cons h.chain
  have hidle (t : Tid) : (g.threads t).state ≠ .running := by
    intro ht
    rw [h.running t ht] at hc
    cases hc
  have hover : Handover { g with runq := (g.threads next).next } next q :=
    ⟨hchain, hnot, h.queued, hidle, h.fresh⟩
  rw [schedStart, hc]
  dsimp only
  rw [hd]
  exact ⟨_, rfl, hover.dispatch, dispatch_turn { Kept.refl g with } fun _ _ _ => rfl⟩

theorem finish_spec {next cur : Tid} (h : Inv g (next :: q) false) (hc : g.current = some cur) :
    ∃ g', threadReturn g cur = (g', .switch (some cur) next) ∧ Inv g' q false ∧ Turn g g' next ∧
      (g'.threads cur).state = .done := by
  obtain ⟨-, hcur⟩ := h.cur_running hc
  have hne : cur ≠ next := by
    rintro rfl
    have := (h.queued cur).mp List.mem_cons_self
    simp [hcur] at this
  have hchain' : Chain (g.setState cur .done).threads (g.setState cur .done).runq (next :: q) :=
    h.chain.congr fun u _ => setState_next g cur .done u
  obtain ⟨hd, hchain, hnot⟩ := dequeue_cons hchain'
  have hover : Handover { g.setState cur .done with runq := ((g.setState cur .done).threads next).next } next q := by
    refine ⟨hchain, hnot, fun t => ?_, fun t => ?_, fun t ht => ?_⟩
    · change _ ↔ t.val < g.count ∧ ((g.setState cur .done).threads t).state = .ready
      rw [setState_state, h.queued t]
      split
      case isTrue he => simp [he, hcur]
      case isFalse => rfl
    · change ((g.setState cur .done).threads t).state ≠ .running
      rw [setState_state]
      split
      case isTrue => simp
      case isFalse he =>
        intro hr
        exact he (Option.some_inj.mp (hc ▸ h.running t hr)).symm
    · change ((g.setState cur .done).threads t).state = .ready
      change g.count ≤ t.val at ht
      rw [setState_state, if_neg, h.fresh t ht]
      rintro rfl
      have := (h.current t hc).1
      omega
  rw [threadReturn, hd]
  refine ⟨_, rfl, hover.dispatch, dispatch_turn { setState_kept g cur .done with } fun t _ ht => ?_, ?_⟩
  · have hne' : t ≠ cur := by
      rintro rfl
      exact ht hc
    exact (setState_state g cur .done t).trans (if_neg hne')
  · refine (setState_state _ next .running cur).trans ((if_neg hne).trans ?_)
    exact (setState_state g cur .done cur).trans (if_pos rfl)

theorem finish_last {cur : Tid} (h : Inv g [] false) (hc : g.current = some cur) :
    threadReturn g cur = (g.setState cur .done, .halt) ∧ Inv (g.setState cur .done) [] true := by
  obtain ⟨hlt, hcur⟩ := h.cur_running hc
  have hchain : Chain (g.setState cur .done).threads (g.setState cur .done).runq [] :=
    h.chain.congr fun u _ => setState_next g cur .done u
  constructor
  · rw [threadReturn, dequeue_nil hchain]
  · constructor
    case chain => exact hchain
    case queued =>
      intro t
      change _ ↔ t.val < g.count ∧ ((g.setState cur .done).threads t).state = .ready
      rw [setState_state, h.queued t]
      split
      case isTrue he => simp [he, hcur]
      case isFalse => rfl
    case current =>
      intro t ht
      obtain rfl : cur = t := Option.some_inj.mp (hc.symm.trans ht)
      exact ⟨hlt, (setState_state ..).trans (if_pos rfl)⟩
    case running =>
      intro t ht
      rw [setState_state] at ht
      split at ht
      case isTrue => cases ht
      case isFalse => exact h.running t ht
    case fresh =>
      intro t ht
      change g.count ≤ t.val at ht
      rw [setState_state, if_neg, h.fresh t ht]
      rintro rfl
      omega
    case stopped => intro _; rfl

theorem yield_spec {next cur : Tid} (h : Inv g (next :: q) false) (hc : g.current = some cur) :
    ∃ g', schedYield g = some (g', .switch (some cur) next) ∧ Inv g' (q ++ [cur]) false ∧ Turn g g' next ∧
      (g'.threads cur).state = .ready := by
  obtain ⟨hlt, hcur⟩ := h.cur_running hc
  have hcurq : cur ∉ next :: q := by
    intro hm
    have := (h.queued cur).mp hm
    simp [hcur] at this
  obtain ⟨hne, hnotq⟩ := not_or.mp (List.mem_cons.not.mp hcurq)
  obtain ⟨hd, hchain, hnot⟩ := dequeue_cons h.chain
  have hchain' : Chain (({ g with runq := (g.threads next).next } : Globals).setState cur .ready).threads
      (g.threads next).next q := hchain.congr fun u _ => setState_next _ cur .ready u
  obtain ⟨g₁, hrun, hq, hre⟩ := enqueue_spec hchain' hnotq
  have hcount : g₁.count = g.count := hre.count
  have hstate (t : Tid) : (g₁.threads t).state = if t = cur then .ready else (g.threads t).state :=
    (hre.state t).trans (setState_state _ cur .ready t)
  have hover : Handover g₁ next (q ++ [cur]) := by
    refine ⟨hq, by simp [hnot, Ne.symm hne], fun t => ?_, fun t => ?_, fun t ht => ?_⟩
    · have hqt := h.queued t
      rw [hstate, hcount]
      by_cases he : t = cur
      · simp [he, hlt]
      · rw [if_neg he, ← hqt]
        simp [he]
    · rw [hstate]
      split
      case isTrue => simp
      case isFalse he =>
        intro hr
        exact he (Option.some_inj.mp (hc ▸ h.running t hr)).symm
    · rw [hcount] at ht
      rw [hstate]
      split
      case isTrue => rfl
      case isFalse => exact h.fresh t ht
  have hset : Kept g (({ g with runq := (g.threads next).next } : Globals).setState cur .ready) :=
    { setState_kept { g with runq := (g.threads next).next } cur .ready with }
  have hkept : Kept g g₁ := hset.trans hre.kept
  rw [schedYield, hc]
  dsimp only
  rw [hd]
  dsimp only
  rw [if_neg (Ne.symm hne), if_pos hcur, hrun, Option.map_some]
  refine ⟨_, rfl, hover.dispatch, dispatch_turn hkept fun t _ ht => ?_, ?_⟩
  · rw [hstate, if_neg]
    rintro rfl
    exact ht hc
  · exact (setState_state _ next .running cur).trans ((if_neg hne).trans ((hstate cur).trans (if_pos rfl)))

theorem yield_ret (h : Inv g q false) (hr : g.current = none ∨ q = []) : schedYield g = some (g, .ret) := by
  rw [schedYield]
  rcases hr with hr | rfl
  · rw [hr]
  · cases hc : g.current with
    | none => rfl
    | some cur =>
      dsimp only
      rw [dequeue_nil h.chain]

end Invariant

section Runs

def run (g : Globals) : List Event → Option (Globals × List Action)
  | [] => some (g, [])
  | e :: es =>
    match step g e with
    | none => none
    | some (g', a) =>
      if a = .halt then some (g', [a])
      else (run g' es).map fun r => (r.1, a :: r.2)

structure Stepped (g g' : Globals) (q : List Tid) (a : Action) : Prop where
  first : ∀ save t, a = .switch save t → q.head? = some t
  done : ∀ t, (g.threads t).state = .done → (g'.threads t).state = .done

theorem Turn.stepped {next : Tid} {save : Option Tid} (ht : Turn g g' next) (h : Inv g (next :: q) false) :
    Stepped g g' (next :: q) (.switch save next) := by
  refine ⟨fun s t he => ?_, fun t hd => ?_⟩
  · cases he
    rfl
  · have hnext : t ≠ next := by
      rintro rfl
      have := (h.queued t).mp List.mem_cons_self
      simp [hd] at this
    have hnow : g.current ≠ some t := by
      intro hc
      have := (h.cur_running hc).2
      simp [hd] at this
    rw [ht.others t hnext hnow, hd]

theorem stepped_ret (hs : ∀ t, (g'.threads t).state = (g.threads t).state) : Stepped g g' q .ret :=
  ⟨fun _ _ he => (nomatch he), fun t hd => (hs t).trans hd⟩

theorem step_spec (h : Inv g q false) (e : Event) :
    ∃ g' a q', step g e = some (g', a) ∧ Inv g' q' (decide (a = .halt)) ∧ Stepped g g' q a := by
  cases e with
  | create entry arg =>
    rcases create_spec h entry arg with hrun | ⟨new, g', -, hrun, hmade, hinv⟩
    · exact ⟨g, .ret, q, by rw [step, hrun, Option.map_some], h, stepped_ret fun _ => rfl⟩
    · exact ⟨g', .ret, q ++ [new], by rw [step, hrun, Option.map_some], hinv, stepped_ret hmade.state⟩
  | start =>
    rw [step]
    cases hc : g.current with
    | some cur =>
      have hret : schedStart g = (g, .ret) := by rw [schedStart, hc]
      exact ⟨g, .ret, q, by rw [hret], h, stepped_ret fun _ => rfl⟩
    | none =>
      cases q with
      | nil =>
        have hret : schedStart g = (g, .ret) := by
          rw [schedStart, hc]
          dsimp only
          rw [dequeue_nil h.chain]
        exact ⟨g, .ret, [], by rw [hret], h, stepped_ret fun _ => rfl⟩
      | cons next q =>
        obtain ⟨g', hrun, hinv, hturn⟩ := start_spec h hc
        exact ⟨g', .switch none next, q, by rw [hrun], hinv, hturn.stepped h⟩
  | yield =>
    rw [step]
    cases hc : g.current with
    | none => exact ⟨g, .ret, q, yield_ret h (.inl hc), h, stepped_ret fun _ => rfl⟩
    | some cur =>
      cases q with
      | nil => exact ⟨g, .ret, [], yield_ret h (.inr rfl), h, stepped_ret fun _ => rfl⟩
      | cons next q =>
        obtain ⟨g', hrun, hinv, hturn, -⟩ := yield_spec h hc
        exact ⟨g', .switch (some cur) next, q ++ [cur], hrun, hinv, hturn.stepped h⟩
  | finish =>
    rw [step]
    cases hc : g.current with
    | none => exact ⟨g, .ret, q, rfl, h, stepped_ret fun _ => rfl⟩
    | some cur =>
      cases q with
      | nil =>
        obtain ⟨hrun, hinv⟩ := finish_last h hc
        refine ⟨_, .halt, [], by dsimp only; rw [hrun], hinv, ⟨fun _ _ he => (nomatch he), fun t hd => ?_⟩⟩
        rw [setState_state]
        split
        case isTrue => rfl
        case isFalse => exact hd
      | cons next q =>
        obtain ⟨g', hrun, hinv, hturn, -⟩ := finish_spec h hc
        exact ⟨g', .switch (some cur) next, q, by dsimp only; rw [hrun], hinv, hturn.stepped h⟩

theorem run_spec (h : Inv g q false) (es : List Event) :
    ∃ g' as q', run g es = some (g', as) ∧ Inv g' q' (decide (.halt ∈ as)) ∧
      ∀ t, (g.threads t).state = .done → (g'.threads t).state = .done ∧ ∀ save, .switch save t ∉ as := by
  induction es generalizing g q with
  | nil => exact ⟨g, [], q, rfl, by simpa using h, fun t hd => ⟨hd, fun _ => List.not_mem_nil⟩⟩
  | cons e es ih =>
    obtain ⟨g₁, a, q₁, hstep, hinv, hs⟩ := step_spec h e
    have hload (t : Tid) (hd : (g.threads t).state = .done) (save : Option Tid) : a ≠ .switch save t := by
      intro ha
      have hmem : t ∈ q := List.mem_of_mem_head? (hs.first save t ha)
      have := (h.queued t).mp hmem
      simp [hd] at this
    rw [run, hstep]
    dsimp only
    by_cases ha : a = .halt
    · rw [if_pos ha]
      subst ha
      refine ⟨g₁, _, q₁, rfl, by simpa using hinv, fun t hd => ⟨hs.done t hd, fun save => ?_⟩⟩
      simp
    · rw [if_neg ha]
      rw [decide_eq_false ha] at hinv
      obtain ⟨g', as, q', hrun, hinv', hdone⟩ := ih hinv
      rw [hrun]
      have hhalt : (.halt ∈ a :: as) = (.halt ∈ as) := by simp [Ne.symm ha]
      refine ⟨g', a :: as, q', rfl, by simpa only [hhalt] using hinv', fun t hd => ?_⟩
      obtain ⟨hd', hnot⟩ := hdone t (hs.done t hd)
      refine ⟨hd', fun save hm => ?_⟩
      rcases List.mem_cons.mp hm with he | hm
      · exact hload t hd save he.symm
      · exact hnot save hm

theorem yields_rotate {cur : Tid} (h : Inv g q false) (hc : g.current = some cur) (n : ℕ) :
    ∃ g' as cur' q', run g (List.replicate n .yield) = some (g', as) ∧ cur' :: q' = (cur :: q).rotate n ∧
      Inv g' q' false ∧ g'.current = some cur' ∧
      ∀ t, t ∉ cur :: q → (g'.threads t).state = (g.threads t).state := by
  induction n generalizing g cur q with
  | zero => exact ⟨g, [], cur, q, rfl, by simp, h, hc, fun _ _ => rfl⟩
  | succ n ih =>
    rw [List.replicate_succ, run, step]
    cases q with
    | nil =>
      obtain ⟨g', as, cur', q', hrun, hrot, hinv, hcur, hsame⟩ := ih h hc
      rw [yield_ret h (.inr rfl)]
      dsimp only
      rw [if_neg (by simp), hrun]
      exact ⟨g', _, cur', q', rfl, by simpa using hrot, hinv, hcur, hsame⟩
    | cons next q =>
      obtain ⟨g₁, hstep, hinv₁, hturn, -⟩ := yield_spec h hc
      obtain ⟨g', as, cur', q', hrun, hrot, hinv, hcur, hsame⟩ := ih hinv₁ hturn.now
      rw [hstep]
      dsimp only
      rw [if_neg (by simp), hrun]
      refine ⟨g', _, cur', q', rfl, ?_, hinv, hcur, fun t ht => ?_⟩
      · rw [List.rotate_cons_succ]
        exact hrot
      · simp only [List.mem_cons, not_or] at ht
        rw [hsame t (by simp [ht]), hturn.others t ht.2.1]
        intro he
        exact ht.1 (Option.some_inj.mp (hc.symm.trans he)).symm

theorem yields_return (h : Inv g q false) :
    ∃ g' as, run g (List.replicate (q.length + 1) .yield) = some (g', as) ∧ g'.current = g.current ∧
      Chain g'.threads g'.runq q ∧ ∀ t, (g'.threads t).state = (g.threads t).state := by
  cases hc : g.current with
  | none =>
    have hidle (n : ℕ) : ∃ as, run g (List.replicate n .yield) = some (g, as) := by
      induction n with
      | zero => exact ⟨[], rfl⟩
      | succ n ih =>
        obtain ⟨as, hrun⟩ := ih
        rw [List.replicate_succ, run, step, yield_ret h (.inl hc)]
        dsimp only
        rw [if_neg (by simp), hrun]
        exact ⟨_, rfl⟩
    obtain ⟨as, hrun⟩ := hidle (q.length + 1)
    exact ⟨g, as, hrun, hc, h.chain, fun _ => rfl⟩
  | some cur =>
    obtain ⟨g', as, cur', q', hrun, hrot, hinv, hcur, hsame⟩ := yields_rotate h hc (q.length + 1)
    rw [← List.length_cons (a := cur), List.rotate_length, List.cons.injEq] at hrot
    obtain ⟨rfl, rfl⟩ := hrot
    refine ⟨g', as, hrun, hcur, hinv.chain, fun t => ?_⟩
    by_cases hm : t ∈ cur' :: q'
    · rcases List.mem_cons.mp hm with rfl | hq
      · rw [(hinv.cur_running hcur).2, (h.cur_running hc).2]
      · rw [((hinv.queued t).mp hq).2, ((h.queued t).mp hq).2]
    · exact hsame t hm

end Runs

end DexOs.Sched
