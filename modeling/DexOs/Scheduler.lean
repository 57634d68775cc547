import DexOs.Lib.Linked

/-! The cooperative scheduler of `sched.c`. -/

namespace DexOs.Sched

abbrev Tid := Fin 8

inductive State
  | ready
  | running
  | done
deriving DecidableEq

structure Thread where
  next : Option Tid
  rsp : ℕ
  entry : ℕ
  arg : ℕ
  state : State
  id : ℕ

structure Globals where
  runq : Option Tid
  current : Option Tid
  threads : Tid → Thread
  count : ℕ
  stackBase : ℕ

/-- What a scheduler call leaves to do: return to its caller, switch contexts, or halt. The context
switch saves the stack pointer in `save` (the dummy of `sched_start` for `none`) and loads that of
`load`. -/
inductive Action
  | ret
  | switch (save : Option Tid) (load : Tid)
  | halt
deriving DecidableEq

def Globals.store (g : Globals) (t : Tid) (v : Thread) : Globals :=
  { g with threads := Function.update g.threads t v }

def Globals.setNext (g : Globals) (t : Tid) (n : Option Tid) : Globals := g.store t { g.threads t with next := n }

def Globals.setState (g : Globals) (t : Tid) (s : State) : Globals := g.store t { g.threads t with state := s }

def lastFrom (g : Globals) : ℕ → Tid → Option Tid
  | 0, _ => none
  | fuel + 1, p =>
    match (g.threads p).next with
    | none => some p
    | some q => lastFrom g fuel q

def enqueue (g : Globals) (t : Tid) : Option Globals :=
  let g := g.setNext t none
  match g.runq with
  | none => some { g with runq := some t }
  | some p => (lastFrom g 8 p).map fun last => g.setNext last (some t)

def dequeue (g : Globals) : Option Tid × Globals :=
  match g.runq with
  | none => (none, g)
  | some t => (some t, { g with runq := (g.threads t).next })

def dispatch (g : Globals) (next : Tid) : Globals := { g with current := some next }.setState next .running

def threadReturn (g : Globals) (t : Tid) : Globals × Action :=
  let r := dequeue (g.setState t .done)
  match r.1 with
  | none => (r.2, .halt)
  | some next => (dispatch r.2 next, .switch (some t) next)

def firstRsp (stackBase i : ℕ) : ℕ := (stackBase + 16384 * i + 16384) / 16 * 16 - 8

def schedCreate (g : Globals) (entry arg : ℕ) : Option (ℤ × Globals) :=
  if h : g.count < 8 then
    let t : Tid := ⟨g.count, h⟩
    (enqueue (g.store t ⟨none, firstRsp g.stackBase g.count, entry, arg, .ready, g.count⟩) t).map fun g =>
      (0, { g with count := g.count + 1 })
  else some (-1, g)

def schedYield (g : Globals) : Option (Globals × Action) :=
  match g.current with
  | none => some (g, .ret)
  | some cur =>
    let r := dequeue g
    match r.1 with
    | none => some (r.2, .ret)
    | some next =>
      if next = cur then (enqueue r.2 next).map fun g => (g, .ret)
      else
        let queued := if (r.2.threads cur).state = .running then enqueue (r.2.setState cur .ready) cur
          else some r.2
        queued.map fun g => (dispatch g next, .switch (some cur) next)

def schedStart (g : Globals) : Globals × Action :=
  match g.current with
  | some _ => (g, .ret)
  | none =>
    let r := dequeue g
    match r.1 with
    | none => (r.2, .ret)
    | some next => (dispatch r.2 next, .switch none next)

def schedCurrentId (g : Globals) : ℤ :=
  match g.current with
  | none => -1
  | some t => (g.threads t).id

def initial (stackBase : ℕ) : Globals := ⟨none, none, fun _ => ⟨none, 0, 0, 0, .ready, 0⟩, 0, stackBase⟩

inductive Event
  | create (entry arg : ℕ)
  | start
  | yield
  | finish
deriving DecidableEq

/-- One call; `none` when it does not return. An entry function returns only while a thread is current. -/
def step (g : Globals) : Event → Option (Globals × Action)
  | .create entry arg => (schedCreate g entry arg).map fun r => (r.2, .ret)
  | .start => some (schedStart g)
  | .yield => schedYield g
  | .finish =>
    match g.current with
    | none => some (g, .ret)
    | some t => some (threadReturn g t)

end DexOs.Sched
