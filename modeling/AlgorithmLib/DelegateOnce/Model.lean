import AlgorithmLib.Library.Keyed
import AlgorithmLib.Library.Run
import AlgorithmLib.Library.SortedMap
import AlgorithmLib.Library.Store
import Mathlib.Algebra.Order.Ring.Int

/-!
`mydelegate_once/mydelegate.h`: observers that stay, under odd ids, and observers that are called
once, under even ids. `notifyAll` copies both pointers, calls the first kind as in `mydelegate` and
erases each of the second after its call; only the overload with one argument leaves an empty map
behind. What the mutex protects is one step, and the call of an observer is one.
-/

set_option autoImplicit false

namespace AlgorithmLib.DelegateOnce

abbrev MapId := Nat

/-- The overloads of `notifyAll`, by their arguments. -/
inductive Arguments where
  | zero | one | two
  deriving DecidableEq, Repr

/-- Where a running `notifyAll` is. -/
inductive Pos where
  /-- `obs` and `once_obs` are set -/
  | copied
  | loop (it : Option Int)
  | calling (id : Int)
  /-- before the test of the second loop -/
  | onceLoop (it : Option Int)
  | onceCalling (id : Int)
  deriving DecidableEq, Repr

/-- A running `notifyAll`; they are numbered in the order of their calls. -/
structure Notify where
  number : Nat
  thd : Nat
  obs : MapId
  onceObs : MapId
  pos : Pos
  deriving DecidableEq, Repr

def Notify.at (n : Notify) (pos : Pos) : Notify := { n with pos := pos }

/-- The two kinds of maps are numbered apart. -/
structure MyDelegate (T : Type) where
  id : Int
  observers : MapId
  onceObservers : MapId
  maps : Store (SortedMap Int T)
  onceMaps : Store (SortedMap Int T)
  running : List Notify
  notified : Nat

inductive Act (T : Type) where
  | add (thd : Nat) (func : T)
  | addonce (thd : Nat) (func : T)
  | remove (thd : Nat) (id : Int)
  | notifyAll (thd : Nat) (arguments : Arguments)
  | begin_ (thd : Nat)
  | invoke (thd : Nat)
  | back (thd : Nat)
  /-- `once_obs->begin()` -/
  | onceBegin (thd : Nat)
  | onceInvoke (thd : Nat)
  /-- the observer returns, and `once_obs->erase(it++)` -/
  | onceBack (thd : Nat)
  | ret (thd : Nat)
  deriving Repr

def singularId (id : Int) : Int := if (id + 1) % 2 ≠ 0 then id + 1 else id + 2

def dualId (id : Int) : Int := if (id + 1) % 2 ≠ 0 then id + 2 else id + 1

variable {T : Type}

namespace MyDelegate

def init : MyDelegate T :=
  { id := 0
    observers := 0
    onceObservers := 0
    maps := { get := fun _ => .empty, made := 1 }
    onceMaps := { get := fun _ => .empty, made := 1 }
    running := []
    notified := 0 }

/-- Change the observers, in a copy of the map when `observers.use_count()` is not one. -/
def change (s : MyDelegate T) (f : SortedMap Int T → SortedMap Int T) : MyDelegate T :=
  let (observers, maps) :=
    s.maps.own s.observers (s.running.map Notify.obs) (s.maps.get s.observers)
  { s with observers := observers, maps := maps.modify observers f }

/-- Change the once observers, in an empty map when `once_observers.use_count()` is not one. -/
def changeOnce (s : MyDelegate T) (f : SortedMap Int T → SortedMap Int T) : MyDelegate T :=
  let (onceObservers, onceMaps) :=
    s.onceMaps.own s.onceObservers (s.running.map Notify.onceObs) .empty
  { s with onceObservers := onceObservers, onceMaps := onceMaps.modify onceObservers f }

def getSingularId (s : MyDelegate T) : Int × MyDelegate T :=
  (singularId s.id, { s with id := singularId s.id })

def getDualId (s : MyDelegate T) : Int × MyDelegate T :=
  (dualId s.id, { s with id := dualId s.id })

def add (s : MyDelegate T) (func : T) : Int × MyDelegate T :=
  let (id, s) := s.getSingularId
  (id, s.change fun m => m.insert id func)

def addonce (s : MyDelegate T) (func : T) : Int × MyDelegate T :=
  let (id, s) := s.getDualId
  (id, s.changeOnce fun m => m.insert id func)

def remove (s : MyDelegate T) (id : Int) : MyDelegate T :=
  if id % 2 ≠ 0 then s.change fun m => m.erase id else s.changeOnce fun m => m.erase id

/-- `once_observers.reset(new std::map<int, T>())` -/
def resetOnce (s : MyDelegate T) : MyDelegate T :=
  let (onceObservers, onceMaps) := s.onceMaps.alloc .empty
  { s with onceObservers := onceObservers, onceMaps := onceMaps }

def copy (s : MyDelegate T) (thd : Nat) : MyDelegate T :=
  { s with
    running := ⟨s.notified, thd, s.observers, s.onceObservers, .copied⟩ :: s.running
    notified := s.notified + 1 }

def notifyAll (s : MyDelegate T) (thd : Nat) : Arguments → MyDelegate T
  | .zero => s.copy thd
  | .one => (s.copy thd).resetOnce
  | .two => s.copy thd

/-- The innermost `notifyAll` of the thread. -/
def current (s : MyDelegate T) (thd : Nat) : Option Notify := Keyed.lookup Notify.thd thd s.running

/-- The thread is in no `notifyAll`, or in an observer. -/
def free (s : MyDelegate T) (thd : Nat) : Bool :=
  (s.current thd).all fun n =>
    match n.pos with
    | .calling _ => true
    | .onceCalling _ => true
    | _ => false

def goto (s : MyDelegate T) (n : Notify) (pos : Pos) : MyDelegate T :=
  { s with running := Keyed.update Notify.number n.number (·.at pos) s.running }

def eraseOnce (s : MyDelegate T) (n : Notify) (id : Int) : MyDelegate T :=
  { s with onceMaps := s.onceMaps.modify n.onceObs fun m => m.erase id }

/-- `once_obs->erase(it++)` -/
def onceBack (s : MyDelegate T) (n : Notify) (id : Int) : MyDelegate T :=
  (s.eraseOnce n id).goto n (.onceLoop ((s.onceMaps.get n.onceObs).next id))

def ret (s : MyDelegate T) (n : Notify) : MyDelegate T :=
  { s with running := s.running.filter fun n' => n'.number ≠ n.number }

/-- The observer that a `notifyAll` calls next in its first loop. -/
def observer (s : MyDelegate T) (n : Notify) : Option (Int × T) :=
  match n.pos with
  | .loop (some id) => (s.maps.get n.obs).lookup id
  | _ => none

/-- The once observer that a `notifyAll` calls next. -/
def onceObserver (s : MyDelegate T) (n : Notify) : Option (Int × T) :=
  match n.pos with
  | .onceLoop (some id) => (s.onceMaps.get n.onceObs).lookup id
  | _ => none

/-- The id of the iterator that is to be erased; nothing is said of an iterator whose entry
somebody else has erased. -/
def called (s : MyDelegate T) (n : Notify) : Option Int :=
  match n.pos with
  | .onceCalling id => ((s.onceMaps.get n.onceObs).lookup id).map Prod.fst
  | _ => none

end MyDelegate

def step (s : MyDelegate T) : Act T → Option (MyDelegate T)
  | .add thd func => if s.free thd then some (s.add func).2 else none
  | .addonce thd func => if s.free thd then some (s.addonce func).2 else none
  | .remove thd id => if s.free thd then some (s.remove id) else none
  | .notifyAll thd arguments => if s.free thd then some (s.notifyAll thd arguments) else none
  | .begin_ thd =>
    (s.current thd).bind fun n =>
      match n.pos with
      | .copied => some (s.goto n (.loop (s.maps.get n.obs).first))
      | _ => none
  | .invoke thd =>
    (s.current thd).bind fun n => (s.observer n).map fun e => s.goto n (.calling e.1)
  | .back thd =>
    (s.current thd).bind fun n =>
      match n.pos with
      | .calling id => some (s.goto n (.loop ((s.maps.get n.obs).next id)))
      | _ => none
  | .onceBegin thd =>
    (s.current thd).bind fun n =>
      match n.pos with
      | .loop none => some (s.goto n (.onceLoop (s.onceMaps.get n.onceObs).first))
      | _ => none
  | .onceInvoke thd =>
    (s.current thd).bind fun n => (s.onceObserver n).map fun e => s.goto n (.onceCalling e.1)
  | .onceBack thd =>
    (s.current thd).bind fun n => (s.called n).map fun id => s.onceBack n id
  | .ret thd =>
    (s.current thd).bind fun n =>
      match n.pos with
      | .onceLoop none => some (s.ret n)
      | _ => none

/-- The id a step returns to the caller of `addonce`. -/
def returned (s : MyDelegate T) : Act T → List Int
  | .addonce _ func => [(s.addonce func).1]
  | _ => []

/-- The once observer called in a step, and by which `notifyAll`. -/
def onceInvoked (s : MyDelegate T) : Act T → Option (Notify × Int × T)
  | .onceInvoke thd => (s.current thd).bind fun n => (s.onceObserver n).map fun e => (n, e)
  | _ => none

/-- The ids of the once observers called in a step. -/
def invokedIds (s : MyDelegate T) (a : Act T) : List Int :=
  (onceInvoked s a).toList.map fun c => c.2.1

/-- The once observers that the `notifyAll` of this number calls in a step. -/
def invokedBy (k : Nat) (s : MyDelegate T) (a : Act T) : List (Int × T) :=
  ((onceInvoked s a).filter fun c => c.1.number = k).toList.map Prod.snd

/-- The once observers that wait for a `notifyAll`, as the calls say: registered under the next even
id, not removed and not taken by a `notifyAll` yet. -/
def register (r : Int × SortedMap Int T) : Act T → Int × SortedMap Int T
  | .add _ _ => (singularId r.1, r.2)
  | .addonce _ func => (dualId r.1, r.2.insert (dualId r.1) func)
  | .remove _ id => (r.1, r.2.erase id)
  | .notifyAll _ _ => (r.1, .empty)
  | _ => r

def registry (as : List (Act T)) : SortedMap Int T := (as.foldl register (0, .empty)).2

end AlgorithmLib.DelegateOnce
