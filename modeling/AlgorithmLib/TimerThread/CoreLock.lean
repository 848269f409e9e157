import AlgorithmLib.Library.Links
import AlgorithmLib.TimeWheel.Core

/-!
The lock of the core in `itimer_pool_thread/itimer_internal.c`: `itimer_internal_update` and the
callback of an event in the timer thread, and `itimer_node_destroy` in any thread, with a step for
each operation of the lock and for each access to the list head and the core of a node. There is one
core, so `node->core` is there or not; which bucket a node goes to, and which of them are cascaded
or due, is left to the label.
-/

set_option autoImplicit false

namespace AlgorithmLib.TimerThread

open TimeWheel (NodeId)

inductive Tid where
  | timer
  | other (k : Nat)
  deriving DecidableEq, Repr

/-- The lists of nodes: the buckets of the core, and the local lists of `itimer_internal_cascade`
and `itimer_internal_update`. -/
inductive NodeList where
  | bucket (i : Nat)
  | cascaded
  | queued
  deriving DecidableEq, Repr

/-- Where a thread is in `itimer_node_destroy`. -/
inductive DestroyPc where
  | testState (n : NodeId)
  /-- before the first `if(node->core != NULL)` -/
  | testCore (n : NodeId)
  /-- before `itimer_core_lock` reads its argument, and then waits for the lock -/
  | lockArg (n : NodeId)
  | lock (n : NodeId)
  | testHead (n : NodeId)
  /-- the branch of a node that is on a list -/
  | delHead (n : NodeId)
  | unlockArg (n : NodeId)
  | unlock (n : NodeId)
  | clearCore (n : NodeId)
  /-- before the second `if(node->core != NULL)` -/
  | testCoreAgain (n : NodeId)
  | unlockArgAgain (n : NodeId)
  | unlockAgain (n : NodeId)
  /-- before the fields of the node are cleared -/
  | finish (n : NodeId)
  /-- the lock, or the unlock, of a null core -/
  | lockedNull
  | unlockedNull
  deriving DecidableEq, Repr

inductive TimerPc where
  /-- before `itimer_core_lock` in the loop of `itimer_internal_update` -/
  | update
  /-- it holds the lock, before a cascade or `ilist_splice_init` -/
  | locked
  /-- before the test of the loop of `itimer_internal_cascade` -/
  | cascading
  | cascadeDel (n : NodeId)
  /-- before `itimer_internal_add` reads `node->core`, adds the node and sets its core -/
  | cascadeArg (n : NodeId)
  | cascadeTail (n : NodeId)
  | cascadeCore (n : NodeId)
  | unlockUpdate
  /-- before the test of the loop over the due nodes -/
  | draining
  | dispatchDel (n : NodeId) (fn : Bool)
  | dispatchClear (n : NodeId) (fn : Bool)
  /-- in `itimer_evt_cb` -/
  | callback (n : NodeId)
  /-- `itimer_node_add` of an event that is due again -/
  | addLock (n : NodeId)
  | addTest (n : NodeId)
  | addDel (n : NodeId)
  | addClear (n : NodeId)
  | addTail (n : NodeId)
  | addCore (n : NodeId)
  | addUnlock
  /-- `itimer_node_del` of an event that ends, and then `itimer_unset` -/
  | stopLock (n : NodeId)
  | stopTest (n : NodeId)
  | stopDel (n : NodeId)
  | stopClear (n : NodeId)
  | stopUnlock (n : NodeId)
  | unset
  /-- a null core was read -/
  | crashed
  deriving DecidableEq, Repr

structure LockSys where
  links : Links NodeId NodeList
  /-- `node->core` is not null -/
  core : NodeId → Bool
  /-- `node->state` is valid -/
  ok : NodeId → Bool
  lock : Option Tid
  destroyer : Tid → Option DestroyPc
  timer : TimerPc

namespace LockSys

/-- `itimer_evt_start` of a node that is not on a list. -/
def start (s : LockSys) (n : NodeId) (i : Nat) : LockSys :=
  { s with
    links := (s.links.unlink n).addTail n (.bucket i)
    core := Function.update s.core n true }

/-- Every node initialised, and some of them started. -/
def init (started : List (NodeId × Nat)) : LockSys :=
  started.foldl (fun s p => s.start p.1 p.2)
    { links := .empty, core := fun _ => false, ok := fun _ => true, lock := none
      destroyer := fun _ => none, timer := .update }

def linked (s : LockSys) (n : NodeId) : Bool := (s.links.head n).isSome

def goto (s : LockSys) (t : Tid) (pc : DestroyPc) : LockSys :=
  { s with destroyer := Function.update s.destroyer t (some pc) }

def ret (s : LockSys) (t : Tid) : LockSys :=
  { s with destroyer := Function.update s.destroyer t none }

def del (s : LockSys) (n : NodeId) : LockSys := { s with links := s.links.unlink n }

def setCore (s : LockSys) (n : NodeId) (core : Bool) : LockSys :=
  { s with core := Function.update s.core n core }

/-- The next step of `itimer_node_destroy`. -/
def destroy (s : LockSys) (t : Tid) : DestroyPc → Option LockSys
  | .testState n => some (if s.ok n then s.goto t (.testCore n) else s.ret t)
  | .testCore n => some (s.goto t (if s.core n then .lockArg n else .testHead n))
  | .lockArg n => some (s.goto t (if s.core n then .lock n else .lockedNull))
  | .lock n =>
    if s.lock.isNone then some { s.goto t (.testHead n) with lock := some t } else none
  | .testHead n => some (s.goto t (if s.linked n then .delHead n else .testCoreAgain n))
  | .delHead n => some ((s.del n).goto t (.unlockArg n))
  | .unlockArg n => some (s.goto t (if s.core n then .unlock n else .unlockedNull))
  | .unlock n => some { s.goto t (.clearCore n) with lock := none }
  | .clearCore n => some ((s.setCore n false).goto t (.testCoreAgain n))
  | .testCoreAgain n => some (s.goto t (if s.core n then .unlockArgAgain n else .finish n))
  | .unlockArgAgain n => some (s.goto t (if s.core n then .unlockAgain n else .unlockedNull))
  | .unlockAgain n => some { s.goto t (.finish n) with lock := none }
  | .finish n => some { (s.setCore n false).ret t with ok := Function.update s.ok n false }
  | .lockedNull => none
  | .unlockedNull => none

def at_ (s : LockSys) (pc : TimerPc) : LockSys := { s with timer := pc }

def lockFor (s : LockSys) (pc : TimerPc) : Option LockSys :=
  if s.lock.isNone then some { s.at_ pc with lock := some .timer } else none

def unlockFor (s : LockSys) (pc : TimerPc) : LockSys := { s.at_ pc with lock := none }

/-- The next step of the timer thread, where it has no choice. -/
def advance (s : LockSys) : Option LockSys :=
  match s.timer with
  | .update => s.lockFor .locked
  | .locked => none
  | .cascading =>
    match s.links.list .cascaded with
    | [] => some (s.at_ .locked)
    | n :: _ => some (s.at_ (.cascadeDel n))
  | .cascadeDel n => some ((s.del n).at_ (.cascadeArg n))
  | .cascadeArg n => some (s.at_ (if s.core n then .cascadeTail n else .crashed))
  | .cascadeTail _ => none
  | .cascadeCore n => some ((s.setCore n true).at_ .cascading)
  | .unlockUpdate => some (s.unlockFor .draining)
  | .draining =>
    match s.links.list .queued with
    | [] => some (s.at_ .update)
    | n :: _ => some (s.at_ (.dispatchDel n (s.ok n)))
  | .dispatchDel n fn => some ((s.del n).at_ (.dispatchClear n fn))
  | .dispatchClear n fn =>
    some ((s.setCore n false).at_ (if fn then .callback n else .draining))
  | .callback _ => none
  | .addLock n => s.lockFor (.addTest n)
  | .addTest n =>
    some (s.at_ (if s.ok n then (if s.linked n then .addDel n else .addTail n) else .addUnlock))
  | .addDel n => some ((s.del n).at_ (.addClear n))
  | .addClear n => some ((s.setCore n false).at_ (.addTail n))
  | .addTail _ => none
  | .addCore n => some ((s.setCore n true).at_ .addUnlock)
  | .addUnlock => some (s.unlockFor .draining)
  | .stopLock n => s.lockFor (.stopTest n)
  | .stopTest n => some (s.at_ (if s.ok n && s.linked n then .stopDel n else .stopUnlock n))
  | .stopDel n => some ((s.del n).at_ (.stopClear n))
  | .stopClear n => some ((s.setCore n false).at_ (.stopUnlock n))
  | .stopUnlock n => some ((s.unlockFor .unset).goto .timer (.testState n))
  | .unset => if (s.destroyer .timer).isNone then some (s.at_ .draining) else none
  | .crashed => none

end LockSys

inductive LockAct where
  /-- a thread calls `itimer_evt_destroy`, `itimer_unset` with the lock of the pool -/
  | call (k : Nat) (n : NodeId)
  /-- the next step of the thread in `itimer_node_destroy` -/
  | destroy (t : Tid)
  /-- the next step of the timer thread -/
  | timer
  /-- a bucket is cascaded -/
  | cascade (i : Nat)
  /-- a bucket is due -/
  | splice (i : Nat)
  /-- the node goes to this bucket -/
  | tail (i : Nat)
  /-- the event is due again, or it ends -/
  | again
  | end_
  deriving DecidableEq, Repr

def lockStep (s : LockSys) : LockAct → Option LockSys
  | .call k n =>
    if (s.destroyer (.other k)).isNone then some (s.goto (.other k) (.testState n)) else none
  | .destroy t => (s.destroyer t).bind (s.destroy t)
  | .timer => s.advance
  | .cascade i =>
    if s.timer = .locked then
      some ({ s with links := s.links.splice (.bucket i) .cascaded }.at_ .cascading)
    else none
  | .splice i =>
    if s.timer = .locked then
      some ({ s with links := s.links.splice (.bucket i) .queued }.at_ .unlockUpdate)
    else none
  | .tail i =>
    match s.timer with
    | .cascadeTail n =>
      some ({ s with links := s.links.addTail n (.bucket i) }.at_ (.cascadeCore n))
    | .addTail n => some ({ s with links := s.links.addTail n (.bucket i) }.at_ (.addCore n))
    | _ => none
  | .again =>
    match s.timer with
    | .callback n => some (s.at_ (.addLock n))
    | _ => none
  | .end_ =>
    match s.timer with
    | .callback n => some (s.at_ (.stopLock n))
    | _ => none

end AlgorithmLib.TimerThread
