import AlgorithmLib.Library.Keyed
import AlgorithmLib.Library.Run
import AlgorithmLib.Library.SortedMap
import AlgorithmLib.Library.Store
import Mathlib.Algebra.Order.Ring.Int

/-!
`mydelegate/mydelegate.h`: observers in a map that `add` and `remove` copy before they change it
when somebody else has a pointer to it, and `notifyAll` of several threads, or called by an observer.
What the mutex protects is one step, and the call of an observer is one. The overloads of
`notifyAll` differ in what they pass to the observers only.
-/

set_option autoImplicit false

namespace AlgorithmLib.Delegate

abbrev MapId := Nat

/-- Where a running `notifyAll` is. -/
inductive Pos where
  /-- `obs` is set -/
  | copied
  /-- before the test of the loop -/
  | loop (it : Option Int)
  /-- in the observer -/
  | calling (id : Int)
  deriving DecidableEq, Repr

/-- A running `notifyAll`; they are numbered in the order of their calls. -/
structure Notify where
  number : Nat
  thd : Nat
  obs : MapId
  pos : Pos
  deriving DecidableEq, Repr

def Notify.at (n : Notify) (pos : Pos) : Notify := { n with pos := pos }

/-- Of the running `notifyAll` of a thread the innermost one comes first. -/
structure MyDelegate (T : Type) where
  id : Int
  observers : MapId
  maps : Store (SortedMap Int T)
  running : List Notify
  notified : Nat

inductive Act (T : Type) where
  | add (thd : Nat) (func : T)
  | remove (thd : Nat) (id : Int)
  | notifyAll (thd : Nat)
  /-- `obs->begin()` -/
  | begin_ (thd : Nat)
  /-- an observer is called -/
  | invoke (thd : Nat)
  /-- the observer returns, and `it++` -/
  | back (thd : Nat)
  | ret (thd : Nat)
  deriving Repr

variable {T : Type}

namespace MyDelegate

def init : MyDelegate T :=
  { id := 0
    observers := 0
    maps := { get := fun _ => .empty, made := 1 }
    running := []
    notified := 0 }

/-- Change the observers, in a copy of the map when `observers.use_count()` is not one. -/
def change (s : MyDelegate T) (f : SortedMap Int T → SortedMap Int T) : MyDelegate T :=
  let (observers, maps) :=
    s.maps.own s.observers (s.running.map Notify.obs) (s.maps.get s.observers)
  { s with observers := observers, maps := maps.modify observers f }

def getId (s : MyDelegate T) : Int × MyDelegate T := (s.id + 1, { s with id := s.id + 1 })

def add (s : MyDelegate T) (func : T) : Int × MyDelegate T :=
  let (id, s) := s.getId
  (id, s.change fun m => m.insert id func)

def remove (s : MyDelegate T) (id : Int) : MyDelegate T := s.change fun m => m.erase id

def notifyAll (s : MyDelegate T) (thd : Nat) : MyDelegate T :=
  { s with
    running := ⟨s.notified, thd, s.observers, .copied⟩ :: s.running
    notified := s.notified + 1 }

/-- The innermost `notifyAll` of the thread. -/
def current (s : MyDelegate T) (thd : Nat) : Option Notify := Keyed.lookup Notify.thd thd s.running

/-- The thread is in no `notifyAll`, or in an observer. -/
def free (s : MyDelegate T) (thd : Nat) : Bool :=
  (s.current thd).all fun n =>
    match n.pos with
    | .calling _ => true
    | _ => false

def goto (s : MyDelegate T) (n : Notify) (pos : Pos) : MyDelegate T :=
  { s with running := Keyed.update Notify.number n.number (·.at pos) s.running }

def ret (s : MyDelegate T) (n : Notify) : MyDelegate T :=
  { s with running := s.running.filter fun n' => n'.number ≠ n.number }

/-- The observer that a `notifyAll` calls next. -/
def observer (s : MyDelegate T) (n : Notify) : Option (Int × T) :=
  match n.pos with
  | .loop (some id) => (s.maps.get n.obs).lookup id
  | _ => none

end MyDelegate

def step (s : MyDelegate T) : Act T → Option (MyDelegate T)
  | .add thd func => if s.free thd then some (s.add func).2 else none
  | .remove thd id => if s.free thd then some (s.remove id) else none
  | .notifyAll thd => if s.free thd then some (s.notifyAll thd) else none
  | .begin_ thd =>
    (s.current thd).bind fun n =>
      match n.pos with
      | .copied => some (s.goto n (.loop (s.maps.get n.obs).first))
      | _ => none
  | .invoke thd =>
    (s.current thd).bind fun n => (s.observer n).map fun e => s.goto n (.calling e.1)
  | .back thd =>
    (s.current thd).bind fun n =>
      match n.pos with
      | .calling id => some (s.goto n (.loop ((s.maps.get n.obs).next id)))
      | _ => none
  | .ret thd =>
    (s.current thd).bind fun n =>
      match n.pos with
      | .loop none => some (s.ret n)
      | _ => none

/-- The id a step returns to the caller of `add`. -/
def returned (s : MyDelegate T) : Act T → List Int
  | .add _ func => [(s.add func).1]
  | _ => []

/-- The observer that the `notifyAll` of this number calls in a step. -/
def invoked (k : Nat) (s : MyDelegate T) : Act T → List (Int × T)
  | .invoke thd => ((s.current thd).filter fun n => n.number = k).elim [] fun n =>
      (s.observer n).toList
  | _ => []

/-- The observers registered, as the calls of `add` and `remove` say: those added under the next id
and not removed. -/
def register (r : Int × SortedMap Int T) : Act T → Int × SortedMap Int T
  | .add _ func => (r.1 + 1, r.2.insert (r.1 + 1) func)
  | .remove _ id => (r.1, r.2.erase id)
  | _ => r

def registry (as : List (Act T)) : SortedMap Int T := (as.foldl register (0, .empty)).2

end AlgorithmLib.Delegate
