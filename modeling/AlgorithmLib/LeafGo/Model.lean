import AlgorithmLib.Library.Run

/-!
`go/go.go`: functions that run in goroutines of their own, with callbacks that the goroutine of the
`Go` executes when it takes them from `ChanCb`. The functions of a `LinearContext` wait for each
other. The schedule is the environment's; the goroutine of the `Go` is the one that makes the calls.
-/

set_option autoImplicit false

namespace AlgorithmLib.LeafGo

/-- A call of `Go`, which stands for its function and its callback. -/
abbrev Call := Nat

/-- `mutexExecution` says which goroutine has it. -/
structure LinearContext where
  linearGo : List Call
  mutexExecution : Option Nat
  deriving DecidableEq, Repr

/-- `NewLinearContext` -/
def LinearContext.new : LinearContext := { linearGo := [], mutexExecution := none }

inductive GoPc where
  /-- in `f`, with no context -/
  | running (call : Call)
  /-- before `g.ChanCb <- cb` -/
  | sending (call : Call)
  /-- before `c.mutexExecution.Lock()` -/
  | starting (j : Nat)
  /-- before `c.linearGo.Remove(c.linearGo.Front())` -/
  | locked (j : Nat)
  /-- in `e.f` -/
  | linearRunning (j : Nat) (e : Call)
  /-- before `c.g.ChanCb <- e.cb` -/
  | linearSending (j : Nat) (e : Call)
  /-- before `c.mutexExecution.Unlock()` -/
  | unlocking (j : Nat)
  | done
  deriving DecidableEq, Repr

/-- `spawning` is the context of a call that is in the list of the context already, and whose
goroutine is not there yet; `callbacks` have begun and not returned, the innermost one first. A
callback is known with the context of its call. -/
structure GoSys where
  pendingGo : Int
  chanCb : List (Option Nat × Call)
  callbacks : List (Option Nat × Call)
  len : Nat
  contexts : List LinearContext
  goroutines : List GoPc
  spawning : Option Nat
  made : Nat
  deriving DecidableEq, Repr

namespace GoSys

def new (l : Nat) : GoSys :=
  { pendingGo := 0, chanCb := [], callbacks := [], len := l, contexts := [], goroutines := []
    spawning := none, made := 0 }

def goto (s : GoSys) (t : Nat) (pc : GoPc) : GoSys :=
  { s with goroutines := s.goroutines.set t pc }

def setContext (s : GoSys) (j : Nat) (c : LinearContext) : GoSys :=
  { s with contexts := s.contexts.set j c }

end GoSys

inductive GoAct where
  | newLinearContext
  | go
  /-- `LinearContext.Go`, up to the end of its critical section -/
  | linearGo (j : Nat)
  /-- and the goroutine -/
  | spawn
  /-- the function returns or panics -/
  | ran (t : Nat)
  | send (t : Nat)
  /-- the goroutine of the `Go` takes the callback from the sender, as there is none buffered -/
  | handoff (t : Nat)
  | lock (t : Nat)
  | remove (t : Nat)
  | unlock (t : Nat)
  /-- `g.Cb(<-g.ChanCb)`, up to the call of the callback -/
  | cb
  /-- and from its return or panic on -/
  | cbReturn
  deriving DecidableEq, Repr

inductive GoMoment where
  | asked
  | started
  | finished
  | calledBack
  | returned
  deriving DecidableEq, Repr

structure GoEvent where
  moment : GoMoment
  ctx : Option Nat
  call : Call
  deriving DecidableEq, Repr

/-- What the goroutine is about to send, and where it goes on. -/
def GoPc.callback : GoPc → Option ((Option Nat × Call) × GoPc)
  | sending call => some ((none, call), .done)
  | linearSending j e => some ((some j, e), .unlocking j)
  | _ => none

def goStep' (s : GoSys) : GoAct → Option (GoSys × List GoEvent)
  | .newLinearContext =>
    some ({ s with contexts := s.contexts ++ [.new] }, [])
  | .go =>
    if s.spawning = none then
      some ({ s with
        pendingGo := s.pendingGo + 1, goroutines := s.goroutines ++ [.running s.made]
        made := s.made + 1 }, [⟨.asked, none, s.made⟩, ⟨.started, none, s.made⟩])
    else none
  | .linearGo j =>
    if s.spawning = none then
      (s.contexts[j]?).map fun c =>
        ({ s.setContext j { c with linearGo := c.linearGo ++ [s.made] } with
          pendingGo := s.pendingGo + 1, spawning := some j, made := s.made + 1 },
          [⟨.asked, some j, s.made⟩])
    else none
  | .spawn =>
    s.spawning.map fun j =>
      ({ s with goroutines := s.goroutines ++ [.starting j], spawning := none }, [])
  | .ran t =>
    match s.goroutines[t]? with
    | some (.running call) => some (s.goto t (.sending call), [⟨.finished, none, call⟩])
    | some (.linearRunning j e) => some (s.goto t (.linearSending j e), [⟨.finished, some j, e⟩])
    | _ => none
  | .send t =>
    match (s.goroutines[t]?).bind GoPc.callback with
    | some (cb, pc) =>
      if s.chanCb.length < s.len then some ({ s.goto t pc with chanCb := s.chanCb ++ [cb] }, [])
      else none
    | none => none
  | .handoff t =>
    match (s.goroutines[t]?).bind GoPc.callback with
    | some (cb, pc) =>
      if s.chanCb = [] ∧ s.spawning = none then
        some ({ s.goto t pc with callbacks := cb :: s.callbacks }, [⟨.calledBack, cb.1, cb.2⟩])
      else none
    | none => none
  | .lock t =>
    match s.goroutines[t]? with
    | some (.starting j) =>
      match s.contexts[j]? with
      | some c =>
        if c.mutexExecution = none then
          some ((s.setContext j { c with mutexExecution := some t }).goto t (.locked j), [])
        else none
      | none => none
    | _ => none
  | .remove t =>
    match s.goroutines[t]? with
    | some (.locked j) =>
      match s.contexts[j]? with
      | some c =>
        match c.linearGo with
        | e :: rest =>
          some ((s.setContext j { c with linearGo := rest }).goto t (.linearRunning j e),
            [⟨.started, some j, e⟩])
        | [] => none
      | none => none
    | _ => none
  | .unlock t =>
    match s.goroutines[t]? with
    | some (.unlocking j) =>
      (s.contexts[j]?).map fun c =>
        ((s.setContext j { c with mutexExecution := none }).goto t .done, [])
    | _ => none
  | .cb =>
    match s.chanCb with
    | cb :: rest =>
      if s.spawning = none then
        some ({ s with chanCb := rest, callbacks := cb :: s.callbacks },
          [⟨.calledBack, cb.1, cb.2⟩])
      else none
    | [] => none
  | .cbReturn =>
    match s.callbacks with
    | cb :: rest =>
      if s.spawning = none then
        some ({ s with callbacks := rest, pendingGo := s.pendingGo - 1 },
          [⟨.returned, cb.1, cb.2⟩])
      else none
    | [] => none

def goStep (s : GoSys) (a : GoAct) : Option GoSys := (goStep' s a).map Prod.fst

def goEvents (s : GoSys) (a : GoAct) : List GoEvent := ((goStep' s a).map Prod.snd).getD []

theorem goStep_eq_some {s t : GoSys} {a : GoAct} (h : goStep s a = some t) :
    goStep' s a = some (t, goEvents s a) := by
  obtain ⟨⟨t', evs⟩, hs, rfl⟩ := Option.map_eq_some_iff.mp h
  simp [goEvents, hs]

end AlgorithmLib.LeafGo
