import DexOs.SchedulerQueue

/-! Who gets the processor next: the run queue is first-in first-out over whole runs. -/

namespace DexOs.Sched

variable {g g' : Globals} {q : List Tid} {t : Tid} {es : List Event} {as : List Action} {a : Action}

def loads : List Action → List Tid
  | [] => []
  | .switch _ t :: as => t :: loads as
  | .ret :: as => loads as
  | .halt :: as => loads as

/-- The thread that one call puts at the end of the queue: a new one, or the current one when it yields. -/
def arrival (g : Globals) : Event → Action → List Tid
  | .create _ _, _ => if h : g.count < 8 then [⟨g.count, h⟩] else []
  | .yield, .switch (some cur) _ => [cur]
  | _, _ => []

def arrivals (g : Globals) : List Event → List Tid
  | [] => []
  | e :: es =>
    match step g e with
    | none => []
    | some (g', a) => arrival g e a ++ if a = .halt then [] else arrivals g' es

theorem step_fifo (h : Inv g q false) (e : Event) :
    ∃ g' a q', step g e = some (g', a) ∧ Inv g' q' (decide (a = .halt)) ∧ q ++ arrival g e a = loads [a] ++ q' := by
  cases e with
  | create entry arg =>
    rcases create_spec h entry arg with hrun | ⟨new, g', hnew, hrun, -, hinv⟩
    · refine ⟨g, .ret, q, by rw [step, hrun, Option.map_some], h, ?_⟩
      have hfull : ¬ g.count < 8 := by
        intro hlt
        rw [schedCreate, dif_pos hlt] at hrun
        simp at hrun
      simp [arrival, hfull, loads]
    · refine ⟨g', .ret, q ++ [new], by rw [step, hrun, Option.map_some], hinv, ?_⟩
      have hlt : g.count < 8 := hnew ▸ new.isLt
      have hsame : (⟨g.count, hlt⟩ : Tid) = new := Fin.ext hnew.symm
      simp [arrival, hlt, hsame, loads]
  | start =>
    rw [step]
    cases hc : g.current with
    | some cur =>
      have hret : schedStart g = (g, .ret) := by rw [schedStart, hc]
      exact ⟨g, .ret, q, by rw [hret], h, by simp [arrival, loads]⟩
    | none =>
      cases q with
      | nil =>
        have hret : schedStart g = (g, .ret) := by
          rw [schedStart, hc]
          dsimp only
          rw [dequeue_nil h.chain]
        exact ⟨g, .ret, [], by rw [hret], h, by simp [arrival, loads]⟩
      | cons next q =>
        obtain ⟨g', hrun, hinv, -⟩ := start_spec h hc
        exact ⟨g', .switch none next, q, by rw [hrun], hinv, by simp [arrival, loads]⟩
  | yield =>
    rw [step]
    cases hc : g.current with
    | none => exact ⟨g, .ret, q, yield_ret h (.inl hc), h, by simp [arrival, loads]⟩
    | some cur =>
      cases q with
      | nil => exact ⟨g, .ret, [], yield_ret h (.inr rfl), h, by simp [arrival, loads]⟩
      | cons next q =>
        obtain ⟨g', hrun, hinv, -⟩ := yield_spec h hc
        exact ⟨g', .switch (some cur) next, q ++ [cur], hrun, hinv, by simp [arrival, loads]⟩
  | finish =>
    rw [step]
    cases hc : g.current with
    | none => exact ⟨g, .ret, q, rfl, h, by simp [arrival, loads]⟩
    | some cur =>
      cases q with
      | nil =>
        obtain ⟨hrun, hinv⟩ := finish_last h hc
        exact ⟨_, .halt, [], by dsimp only; rw [hrun], hinv, by simp [arrival, loads]⟩
      | cons next q =>
        obtain ⟨g', hrun, hinv, -⟩ := finish_spec h hc
        exact ⟨g', .switch (some cur) next, q, by dsimp only; rw [hrun], hinv, by simp [arrival, loads]⟩

theorem loads_cons (a : Action) (as : List Action) : loads (a :: as) = loads [a] ++ loads as := by
  cases a <;> rfl

theorem run_fifo (h : Inv g q false) (hrun : run g es = some (g', as)) :
    ∃ q', Inv g' q' (decide (.halt ∈ as)) ∧ q ++ arrivals g es = loads as ++ q' := by
  induction es generalizing g q as with
  | nil =>
    obtain ⟨rfl, rfl⟩ : g = g' ∧ [] = as := by simpa [run] using hrun
    exact ⟨q, by simpa using h, by simp [arrivals, loads]⟩
  | cons e es ih =>
    obtain ⟨g₁, a, q₁, hstep, hinv, hfifo⟩ := step_fifo h e
    rw [run, hstep] at hrun
    rw [arrivals, hstep]
    dsimp only at hrun ⊢
    by_cases ha : a = .halt
    · subst ha
      obtain ⟨rfl, rfl⟩ : g₁ = g' ∧ [.halt] = as := by simpa using hrun
      exact ⟨q₁, by simpa using hinv, by simpa using hfifo⟩
    · rw [if_neg ha] at hrun ⊢
      rw [decide_eq_false ha] at hinv
      obtain ⟨⟨g₂, rest⟩, hrest, heq⟩ := Option.map_eq_some_iff.mp hrun
      obtain ⟨rfl, rfl⟩ : g₂ = g' ∧ a :: rest = as := by simpa using heq
      obtain ⟨q', hinv', hfifo'⟩ := ih hinv hrest
      have hhalt : (.halt ∈ a :: rest) = (.halt ∈ rest) := by simp [Ne.symm ha]
      refine ⟨q', by simpa only [hhalt] using hinv', ?_⟩
      rw [← List.append_assoc, hfifo, List.append_assoc, hfifo', loads_cons a rest, List.append_assoc]

/-- Every sequence of calls returns and leaves a queue of exactly the ready threads. Until the
processor halts, the current thread is the only one that runs and is not queued; finished threads are
never dispatched again; whatever the threads do next, those queued now and those queued on the way are
dispatched in this order; and as many yields as there are threads in turn change nothing. -/
theorem scheduler_invariant (stackBase : ℕ) (es : List Event) :
    ∃ g as q, run (initial stackBase) es = some (g, as) ∧ Inv g q (decide (.halt ∈ as)) ∧ q.Nodup ∧
      (∀ t, g.current = some t → t ∉ q) ∧
      (.halt ∉ as →
        (∀ es', ∃ g' as' q', run g es' = some (g', as') ∧ Inv g' q' (decide (.halt ∈ as')) ∧
          q ++ arrivals g es' = loads as' ++ q' ∧ ∀ t, (g.threads t).state = .done →
            (g'.threads t).state = .done ∧ ∀ save, .switch save t ∉ as') ∧
        (∀ e g' save t, step g e = some (g', .switch save t) → q.head? = some t) ∧
        ∃ g' as', run g (List.replicate (q.length + 1) .yield) = some (g', as') ∧ g'.current = g.current ∧
          Chain g'.threads g'.runq q ∧ ∀ t, (g'.threads t).state = (g.threads t).state) := by
  obtain ⟨g, as, q, hrun, hinv, -⟩ := run_spec (initial_inv stackBase) es
  refine ⟨g, as, q, hrun, hinv, hinv.chain.nodup, fun t hc hq => ?_, fun hh => ?_⟩
  · have hstate := (hinv.current t hc).2
    rw [((hinv.queued t).mp hq).2] at hstate
    split at hstate <;> cases hstate
  · rw [decide_eq_false hh] at hinv
    refine ⟨fun es' => ?_, fun e g' save t hstep => ?_, yields_return hinv⟩
    · obtain ⟨g', as', -, hrun', -, hdone⟩ := run_spec hinv es'
      obtain ⟨q', hinv', hfifo⟩ := run_fifo hinv hrun'
      exact ⟨g', as', q', hrun', hinv', hfifo, hdone⟩
    · obtain ⟨g₁, a, q₁, hstep', -, hs⟩ := step_spec hinv e
      rw [hstep, Option.some_inj, Prod.mk.injEq] at hstep'
      exact hs.first save t hstep'.2.symm

theorem halted_current_is_done :
    ∃ g as, run (initial 0) [.create 0 0, .start, .finish] = some (g, as) ∧ g.current = some 0 ∧
      (g.threads 0).state ≠ .running := ⟨_, _, rfl, rfl, by decide⟩

theorem run_inv (h : Inv g q false) (hrun : run g es = some (g', as)) (hlive : .halt ∉ as) :
    ∃ q', Inv g' q' false := by
  obtain ⟨q', hinv, -⟩ := run_fifo h hrun
  rw [decide_eq_false hlive] at hinv
  exact ⟨q', hinv⟩

/-- No thread starves: however the threads go on, a ready one is dispatched by one of the next eight context
switches, and that place in their order is fixed already. -/
theorem ready_thread_dispatched (stackBase : ℕ) {es : List Event} {g : Globals} {as : List Action}
    (hrun : run (initial stackBase) es = some (g, as)) (hlive : .halt ∉ as) {t : Tid} (hcreated : t.val < g.count)
    (hready : (g.threads t).state = .ready) :
    ∃ i < 8, ∀ es' g' as', run g es' = some (g', as') → i < (loads as').length →
      (loads as')[i]? = some t ∧ ∀ j < i, (loads as')[j]? ≠ some t := by
  obtain ⟨q, hinv⟩ := run_inv (initial_inv stackBase) hrun hlive
  obtain ⟨i, hi, ht⟩ := List.getElem_of_mem ((hinv.queued t).mpr ⟨hcreated, hready⟩)
  refine ⟨i, hi.trans_le hinv.chain.length_le, ?_⟩
  intro es' g' as' hrun' hlong
  obtain ⟨q', -, hfifo⟩ := run_fifo hinv hrun'
  have hplace (j : ℕ) (hj : j ≤ i) : (loads as')[j]? = q[j]? := by
    rw [← List.getElem?_append_left (by omega : j < (loads as').length), ← hfifo, List.getElem?_append_left (by omega)]
  refine ⟨by rw [hplace i (le_refl i), List.getElem?_eq_getElem hi, ht], ?_⟩
  intro j hj heq
  rw [hplace j hj.le, ← ht, ← List.getElem?_eq_getElem hi] at heq
  have hsame := (List.getElem?_inj (by omega) hinv.chain.nodup).mp heq
  omega

theorem ready_thread_dispatched_third :
    ∃ g as, run (initial 0) [.create 0 0, .create 0 0, .create 0 0, .start] = some (g, as) ∧
      ∃ i < 8, ∀ es' g' as', run g es' = some (g', as') → i < (loads as').length →
        (loads as')[i]? = some 2 ∧ ∀ j < i, (loads as')[j]? ≠ some 2 := by
  have hrun : (run (initial 0) [.create 0 0, .create 0 0, .create 0 0, .start]).any (fun r =>
      decide (.halt ∉ r.2 ∧ (2 : Tid).val < r.1.count ∧ (r.1.threads 2).state = .ready)) = true := by decide
  obtain ⟨⟨g, as⟩, hsome, hready⟩ := (Option.any_eq_true _ _).mp hrun
  obtain ⟨hlive, hcreated, hstate⟩ := of_decide_eq_true hready
  exact ⟨g, as, hsome, ready_thread_dispatched 0 hsome hlive hcreated hstate⟩

end DexOs.Sched
