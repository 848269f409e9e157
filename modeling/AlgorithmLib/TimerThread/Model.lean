import AlgorithmLib.Library.Pool
import AlgorithmLib.TimeWheel.Manager
import AlgorithmLib.TimerThread.Slots

/-!
`itimer_pool_thread`: one thread runs the wheel, and turns every expiry into a task on the queue
of the thread that set the timer; that thread runs its tasks in `itimer_update_timer`.

Every call of `itimer_set` and `itimer_unset` is a step. A callback of the wheel has two steps for
each run that is due: the timer thread takes a task from the pool and fills it, and then waits for
the lock of the queue with the task in hand. A call of `itimer_update_timer` has a step for each
task, and two to give it back. `GetTask` may have to wait for the lock of a queue on its way, which
another thread holds only while it drains the queue; what it looks at there does not change
meanwhile.
-/

set_option autoImplicit false

namespace AlgorithmLib.TimerThread

open TimeWheel (ItimerMgr)

def defItimerPoolAddSize : Nat := 20

def maxPoolBucket : Nat := 1024

/-- `itimer_evt` with the fields of the threaded version. -/
structure ItimerEvt extends TimeWheel.ItimerEvt where
  handle : Nat
  evtFree : Bool
  pushTask : Bool
  task : Int
  end_ : Bool
  deriving DecidableEq, Repr

structure ItimerTask where
  handle : Nat
  callback : Option Nat
  data : Nat
  user : Nat
  deriving DecidableEq, Repr

inductive EvtPlace where
  | free
  | bucket (i : Nat)
  deriving DecidableEq, Repr

/-- The lists of tasks; `taken` is the local list of `itimer_update_timer`. -/
inductive TaskPlace where
  | free
  | queue (k : Nat)
  | taken (tid : Nat)
  deriving DecidableEq, Repr

structure EvtPool where
  pool : Pool EvtPlace
  evt : Nat → ItimerEvt
  ghandle : Nat

structure TaskPool where
  pool : Pool TaskPlace
  task : Nat → ItimerTask

/-- Where a thread is in `itimer_update_timer`. -/
inductive Phase where
  /-- not in it -/
  | idle
  /-- before the next task of its queue -/
  | draining (k : Nat)
  /-- in the callback of a task -/
  | calling (k t : Nat)
  /-- before the next task of its local list, without the lock -/
  | releasing
  /-- in `itimer_task_pool_free` with the task -/
  | freeing (t : Nat)
  deriving DecidableEq, Repr

/-- Where the timer thread is in `itimer_run`. -/
inductive Ctrl where
  | sleeping
  /-- before the test of the loop of `itimer_mgr_run` -/
  | running (millisec : BitVec 32)
  /-- before the test of the outer loop of `itimer_internal_update` -/
  | updating (millisec jiffies : BitVec 32)
  /-- before the test of its loop over the due nodes -/
  | draining (millisec jiffies : BitVec 32)
  /-- in `itimer_evt_cb` of the record, before the test of its loop over the runs -/
  | firing (millisec jiffies : BitVec 32) (e count : Nat)
  /-- there in `push_task_to_q` with the task, before it has the lock of the queue -/
  | pushing (millisec jiffies : BitVec 32) (e count t key : Nat)
  deriving DecidableEq, Repr

inductive Event where
  /-- `itimer_set` in the thread has returned this handle -/
  | set (tid handle : Nat) (callback : Option Nat)
  /-- `itimer_unset` of the handle has returned in the thread -/
  | unset (tid handle : Nat)
  /-- a task was put on the queue -/
  | pushed (k : Nat) (task : ItimerTask)
  /-- a call of `itimer_update_timer` in the thread began -/
  | update (tid : Nat)
  /-- the callback of a task was called in the thread -/
  | ran (tid : Nat) (task : ItimerTask)
  deriving DecidableEq, Repr

structure Sys where
  mgr : ItimerMgr
  queue : Queues
  evts : EvtPool
  tasks : TaskPool
  key : Nat → Int
  phase : Nat → Phase
  ctrl : Ctrl
  log : List Event

/-- A record as `calloc` leaves it. -/
def zeroEvt : ItimerEvt :=
  { period := 0, slap := 0, repeat_ := 0, running := false, callback := none, data := 0, user := 0
    mgr := false, handle := 0, evtFree := false, pushTask := false, task := 0, end_ := false }

/-- `itimer_work_init`; a node that `calloc` leaves is in no valid state. -/
def Sys.init (millisec interval : BitVec 32) : Sys :=
  { mgr := TimeWheel.itimerMgrInit millisec interval
      (fun _ => { expires := 0, state := .bad, callback := none, data := 0 })
    queue := fun _ => { state := .unuse, tid := 0, lock := none }
    evts := { pool := .empty, evt := fun _ => zeroEvt, ghandle := 1 }
    tasks :=
      { pool := .empty
        task := fun _ => { handle := 0, callback := none, data := 0, user := 0 } }
    key := fun _ => 0
    phase := fun _ => .idle
    ctrl := .sleeping
    log := [] }

def itimerBucketHash (handle : Nat) : Nat := handle % maxPoolBucket

def EvtPool.itimerEvtBucketLookup (p : EvtPool) (handle : Nat) : Option Nat :=
  (p.pool.links.list (.bucket (itimerBucketHash handle))).find? (fun e => (p.evt e).handle = handle)

namespace Sys

/-- `itimer_set` in the thread; the handle it returns is the counter. -/
def itimerSet (s : Sys) (tid : Nat) (f : Option Nat) (data user : Nat) (timer : BitVec 32)
    (repeat_ : Int) : Option Sys :=
  match s.evts.pool.take .free defItimerPoolAddSize with
  | none => none
  | some (e, pool) =>
    let handle := s.evts.ghandle
    let (queue, task) := getTask s.queue tid (s.key tid)
    let (mgr, evt) := s.mgr.itimerEvtInit e f data user
    let (mgr, evt) := mgr.itimerEvtStart e evt timer repeat_
    some
      { s with
        mgr := mgr
        queue := queue
        key := Function.update s.key tid task
        evts :=
          { pool := pool.link e (.bucket (itimerBucketHash handle))
            evt := Function.update s.evts.evt e
              { s.evts.evt e with
                toItimerEvt := evt, handle := handle, evtFree := true, pushTask := true
                task := task }
            ghandle := (handle + 1) % 2 ^ 64 }
        log := .set tid handle f :: s.log }

def itimerUnset (s : Sys) (handle : Nat) : Sys :=
  if handle = 0 then s
  else
    match s.evts.itimerEvtBucketLookup handle with
    | none => s
    | some e =>
      let (mgr, evt) := s.mgr.itimerEvtDestroy e
      { s with
        mgr := mgr
        evts :=
          { s.evts with
            pool := s.evts.pool.give .free e
            evt := Function.update s.evts.evt e
              { s.evts.evt e with
                toItimerEvt := evt, end_ := false, evtFree := false, pushTask := false
                task := -1 } } }

/-- `itimer_push_task` up to its call of `push_task_to_q`. -/
def itimerPushTask (s : Sys) (millisec jiffies : BitVec 32) (e count : Nat) : Sys :=
  let evt := s.evts.evt e
  if evt.task < 0 then { s with ctrl := .firing millisec jiffies e count }
  else
    match s.tasks.pool.take .free defItimerPoolAddSize with
    | none => { s with ctrl := .firing millisec jiffies e count }
    | some (t, pool) =>
      { s with
        tasks :=
          { pool := pool
            task := Function.update s.tasks.task t
              { handle := evt.handle, callback := evt.callback, data := evt.data
                user := evt.user } }
        ctrl := .pushing millisec jiffies e count t evt.task.toNat }

/-- `push_task_to_q`, and the end of `itimer_push_task`; it waits while a thread drains the queue. -/
def pushTaskToQ (s : Sys) (millisec jiffies : BitVec 32) (e count t key : Nat) : Option Sys :=
  if (s.queue key).lock.isSome then none
  else if (s.queue key).state = .useed then
    some
      { s with
        tasks := { s.tasks with pool := s.tasks.pool.link t (.queue key) }
        ctrl := .firing millisec jiffies e count
        log := .pushed key (s.tasks.task t) :: s.log }
  else
    some
      { s with
        tasks := { s.tasks with pool := s.tasks.pool.give .free t }
        ctrl := .firing millisec jiffies e count }

/-- `itimer_evt_cb` up to its loop over the runs that are due. -/
def itimerEvtCb (s : Sys) (millisec jiffies : BitVec 32) (e : Nat) : Option Sys :=
  let evt := s.evts.evt e
  match s.mgr.itimerEvtExpire e evt.toItimerEvt with
  | none => none
  | some (mgr, evt', r) =>
    some
      { s with
        mgr := mgr
        evts :=
          { s.evts with
            evt := Function.update s.evts.evt e
              { evt with toItimerEvt := { evt' with running := true }
                         end_ := evt.end_ || r.stop } }
        ctrl := .firing millisec jiffies e r.count }

def fire (s : Sys) (millisec jiffies : BitVec 32) (e count : Nat) : Sys :=
  let evt := s.evts.evt e
  if evt.callback.isSome && evt.running then
    if evt.pushTask then s.itimerPushTask millisec jiffies e count
    else { s with ctrl := .firing millisec jiffies e count }
  else { s with ctrl := .firing millisec jiffies e 0 }

/-- `itimer_evt_cb` after that loop. -/
def fired (s : Sys) (millisec jiffies : BitVec 32) (e : Nat) : Sys :=
  let evt := s.evts.evt e
  let s :=
    { s with
      evts :=
        { s.evts with
          evt := Function.update s.evts.evt e
            { evt with toItimerEvt := { evt.toItimerEvt with running := false } } }
      ctrl := .draining millisec jiffies }
  if evt.end_ && evt.evtFree then s.itimerUnset evt.handle else s

/-- The next step of the timer thread. -/
def timer (s : Sys) : Option Sys :=
  match s.ctrl with
  | .sleeping => none
  | .running millisec =>
    if s.mgr.due millisec then some { s with ctrl := .updating millisec s.mgr.jiffies }
    else some { s with ctrl := .sleeping }
  | .updating millisec jiffies =>
    if (jiffies - s.mgr.core.timerJiffies).slt 0#32 then
      some { s with mgr := s.mgr.endTick, ctrl := .running millisec }
    else
      some
        { s with
          mgr := { s.mgr with core := s.mgr.core.beginTick }
          ctrl := .draining millisec jiffies }
  | .draining millisec jiffies =>
    match s.mgr.core.links.list .queued with
    | [] => some { s with ctrl := .updating millisec jiffies }
    | n :: _ =>
      let node := s.mgr.core.node n
      let s :=
        { s with
          mgr := { s.mgr with
            core := { s.mgr.core with links := s.mgr.core.links.unlink n } } }
      if node.callback.isSome then s.itimerEvtCb millisec jiffies node.data else some s
  | .firing millisec jiffies e (count + 1) => some (s.fire millisec jiffies e count)
  | .firing millisec jiffies e 0 => some (s.fired millisec jiffies e)
  | .pushing millisec jiffies e count t key => s.pushTaskToQ millisec jiffies e count t key

/-- A call of `itimer_update_timer` begins. -/
def update (s : Sys) (tid : Nat) : Option Sys :=
  let (queue, task) := getTask s.queue tid (s.key tid)
  let s := { s with queue := queue, key := Function.update s.key tid task
                    log := .update tid :: s.log }
  if task < 0 then some s
  else if (queue task.toNat).lock.isSome then none
  else
    some
      { s with
        queue := Function.update queue task.toNat { queue task.toNat with lock := some tid }
        phase := Function.update s.phase tid (.draining task.toNat) }

def takeTask (s : Sys) (tid k t : Nat) : Sys :=
  { s with
    tasks := { s.tasks with
      pool := { s.tasks.pool with
        links := (s.tasks.pool.links.unlink t).addTail t (.taken tid) } }
    phase := Function.update s.phase tid (.draining k) }

/-- The next step of a thread in `itimer_update_timer`. -/
def advance (s : Sys) (tid : Nat) : Option Sys :=
  match s.phase tid with
  | .idle => none
  | .draining k =>
    match s.tasks.pool.links.list (.queue k) with
    | [] =>
      some
        { s with
          queue := Function.update s.queue k { s.queue k with lock := none }
          phase := Function.update s.phase tid .releasing }
    | t :: _ =>
      if (s.tasks.task t).callback.isSome then
        some
          { s with
            phase := Function.update s.phase tid (.calling k t)
            log := .ran tid (s.tasks.task t) :: s.log }
      else some (s.takeTask tid k t)
  | .calling k t => some (s.takeTask tid k t)
  | .releasing =>
    match s.tasks.pool.links.list (.taken tid) with
    | [] => some { s with phase := Function.update s.phase tid .idle }
    | t :: _ =>
      some
        { s with
          tasks := { s.tasks with
            pool := { s.tasks.pool with links := s.tasks.pool.links.unlink t } }
          phase := Function.update s.phase tid (.freeing t) }
  | .freeing t =>
    some
      { s with
        tasks := { s.tasks with pool := s.tasks.pool.give .free t }
        phase := Function.update s.phase tid .releasing }

/-- The thread can call `itimer_set`: from a callback that `itimer_update_timer` runs only if
`GetTask` need not lock the queue again whose lock the thread holds. -/
def maySet (s : Sys) (tid : Nat) : Bool :=
  match s.phase tid with
  | .idle => true
  | .calling _ _ => s.key tid ≠ 0
  | _ => false

def mayUnset (s : Sys) (tid : Nat) : Bool :=
  match s.phase tid with
  | .idle => true
  | .calling _ _ => true
  | _ => false

end Sys

inductive Act where
  | set (tid : Nat) (f : Option Nat) (data user : Nat) (timer : BitVec 32) (repeat_ : Int)
  | unset (tid handle : Nat)
  | update (tid : Nat)
  | advance (tid : Nat)
  /-- the timer thread calls `itimer_run`, with this reading of the clock -/
  | wake (millisec : BitVec 32)
  | timer
  deriving DecidableEq, Repr

def step (s : Sys) : Act → Option Sys
  | .set tid f data user timer repeat_ =>
    if s.maySet tid then s.itimerSet tid f data user timer repeat_ else none
  | .unset tid handle =>
    if s.mayUnset tid then
      some { s.itimerUnset handle with log := .unset tid handle :: s.log }
    else none
  | .update tid => if s.phase tid = .idle then s.update tid else none
  | .advance tid => s.advance tid
  | .wake millisec =>
    if s.ctrl = .sleeping then
      some { s with mgr := s.mgr.resync millisec, ctrl := .running millisec }
    else none
  | .timer => s.timer

end AlgorithmLib.TimerThread
