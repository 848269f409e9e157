import AlgorithmLib.Library.Keyed

/-!
`dead_lock_stub.h`: the table of lock requests, one record per thread, the table of held
locks, one record per lock, and the three bookkeeping functions that the interception
macros call around the real lock and unlock.
-/

set_option autoImplicit false

namespace AlgorithmLib.DeadLock

open Keyed

structure CallSite where
  file : List UInt8
  line : Int
  funcname : List UInt8
  deriving DecidableEq, Repr

def CallSite.clip (file funcname : Nat) (c : CallSite) : CallSite :=
  { c with file := c.file.take (file - 1), funcname := c.funcname.take (funcname - 1) }

structure ThreadReqLock where
  valid : UInt8
  threadId : UInt64
  lockAddr : UInt64
  lockName : List UInt8
  site : CallSite
  deriving DecidableEq, Repr

/-- `thread_hold_lock_t`; the head of `pointList` is the innermost acquisition. -/
structure ThreadHoldLock where
  pointList : List CallSite
  count : Int
  threadId : UInt64
  lockAddr : UInt64
  lockName : List UInt8
  deriving DecidableEq, Repr

/-- `m_thread_apply_lock`, with one record per thread, and `m_lock_belong_thread`, with one
record per lock. -/
structure Tables where
  threadApplyLock : List ThreadReqLock
  lockBelongThread : List ThreadHoldLock
  threads : (threadApplyLock.map ThreadReqLock.threadId).Nodup
  locks : (lockBelongThread.map ThreadHoldLock.lockAddr).Nodup
  deriving DecidableEq, Repr

def threadReqLockLookup (t : List ThreadReqLock) (threadId : UInt64) : Option ThreadReqLock :=
  lookup ThreadReqLock.threadId threadId t

def threadHoldLockLookup (t : List ThreadHoldLock) (lockAddr : UInt64) : Option ThreadHoldLock :=
  lookup ThreadHoldLock.lockAddr lockAddr t

/-- A record fresh from `calloc`. -/
def threadReqLockAlloc (threadId : UInt64) : ThreadReqLock :=
  { valid := 0, threadId := threadId, lockAddr := 0, lockName := [], site := ⟨[], 0, []⟩ }

def threadHoldLockAlloc (lockAddr : UInt64) : ThreadHoldLock :=
  { pointList := [], count := 0, threadId := 0, lockAddr := lockAddr, lockName := [] }

def threadReqLockLookupOrAlloc (t : List ThreadReqLock) (threadId : UInt64) :
    List ThreadReqLock :=
  lookupOrAppend ThreadReqLock.threadId threadId (threadReqLockAlloc threadId) t

def threadHoldLockLookupOrAlloc (t : List ThreadHoldLock) (lockAddr : UInt64) :
    List ThreadHoldLock :=
  lookupOrAppend ThreadHoldLock.lockAddr lockAddr (threadHoldLockAlloc lockAddr) t

def ThreadReqLock.threadReqLockInit (l : ThreadReqLock) (threadId lockAddr : UInt64)
    (site : CallSite) (lockName : List UInt8) : ThreadReqLock :=
  { l with
    threadId := threadId
    lockAddr := lockAddr
    lockName := lockName.take 31
    site := site.clip 32 32 }

def ThreadHoldLock.threadHoldLockPushstack (h : ThreadHoldLock) (site : CallSite) :
    ThreadHoldLock :=
  { h with pointList := site.clip 20 32 :: h.pointList, count := h.count + 1 }

def ThreadHoldLock.threadHoldLockPopstack (h : ThreadHoldLock) : ThreadHoldLock :=
  match h.pointList with
  | [] => h
  | _ :: ps => { h with pointList := ps, count := h.count - 1 }

/-- What `deadlockcheck_before` does to the thread's record. -/
def ThreadReqLock.wait (threadId lockAddr : UInt64) (site : CallSite) (lockName : List UInt8)
    (l : ThreadReqLock) : ThreadReqLock :=
  { l.threadReqLockInit threadId lockAddr site lockName with valid := 1 }

/-- What `deadlockcheck_after` does to the thread's record. -/
def ThreadReqLock.done (l : ThreadReqLock) : ThreadReqLock := { l with valid := 0 }

/-- What `deadlockcheck_after` does to the lock's record. -/
def ThreadHoldLock.take (threadId : UInt64) (site : CallSite) (lockName : List UInt8)
    (h : ThreadHoldLock) : ThreadHoldLock :=
  ThreadHoldLock.threadHoldLockPushstack
    { h with threadId := threadId, lockName := lockName.take 31 } site

theorem ThreadReqLock.wait_key {threadId lockAddr : UInt64} {site : CallSite}
    {lockName : List UInt8} (l : ThreadReqLock) (_ : l.threadId = threadId) :
    (l.wait threadId lockAddr site lockName).threadId = threadId := rfl

theorem ThreadReqLock.done_key {threadId : UInt64} (l : ThreadReqLock)
    (h : l.threadId = threadId) : l.done.threadId = threadId := h

theorem ThreadHoldLock.take_key {threadId lockAddr : UInt64} {site : CallSite}
    {lockName : List UInt8} (h : ThreadHoldLock) (hk : h.lockAddr = lockAddr) :
    (h.take threadId site lockName).lockAddr = lockAddr := hk

theorem ThreadHoldLock.threadHoldLockPopstack_key {lockAddr : UInt64} (h : ThreadHoldLock)
    (hk : h.lockAddr = lockAddr) : h.threadHoldLockPopstack.lockAddr = lockAddr := by
  rw [← hk, threadHoldLockPopstack]
  split <;> rfl

theorem ThreadHoldLock.threadHoldLockPopstack_threadId (h : ThreadHoldLock) :
    h.threadHoldLockPopstack.threadId = h.threadId := by
  rw [threadHoldLockPopstack]
  split <;> rfl

namespace Tables

def empty : Tables := ⟨[], [], by simp, by simp⟩

def deadlockcheckBefore (t : Tables) (threadId lockAddr : UInt64) (site : CallSite)
    (lockName : List UInt8) : Tables where
  threadApplyLock :=
    update ThreadReqLock.threadId threadId (ThreadReqLock.wait threadId lockAddr site lockName)
      (threadReqLockLookupOrAlloc t.threadApplyLock threadId)
  lockBelongThread := t.lockBelongThread
  threads := by
    rw [update_keys ThreadReqLock.wait_key]
    exact lookupOrAppend_nodup rfl t.threads
  locks := t.locks

def deadlockcheckAfter (t : Tables) (threadId lockAddr : UInt64) (site : CallSite)
    (lockName : List UInt8) : Tables where
  threadApplyLock :=
    update ThreadReqLock.threadId threadId ThreadReqLock.done t.threadApplyLock
  lockBelongThread :=
    update ThreadHoldLock.lockAddr lockAddr (ThreadHoldLock.take threadId site lockName)
      (threadHoldLockLookupOrAlloc t.lockBelongThread lockAddr)
  threads := by
    rw [update_keys ThreadReqLock.done_key]
    exact t.threads
  locks := by
    rw [update_keys ThreadHoldLock.take_key]
    exact lookupOrAppend_nodup rfl t.locks

def deadlockcheckUnlockAfter (t : Tables) (_threadId lockAddr : UInt64) : Tables where
  threadApplyLock := t.threadApplyLock
  lockBelongThread :=
    update ThreadHoldLock.lockAddr lockAddr ThreadHoldLock.threadHoldLockPopstack
      (threadHoldLockLookupOrAlloc t.lockBelongThread lockAddr)
  threads := t.threads
  locks := by
    rw [update_keys ThreadHoldLock.threadHoldLockPopstack_key]
    exact lookupOrAppend_nodup rfl t.locks

def req (t : Tables) (threadId : UInt64) : Option ThreadReqLock :=
  threadReqLockLookup t.threadApplyLock threadId

def hold (t : Tables) (lockAddr : UInt64) : Option ThreadHoldLock :=
  threadHoldLockLookup t.lockBelongThread lockAddr

variable (t : Tables) (threadId threadId' lockAddr lockAddr' : UInt64) (site : CallSite)
  (lockName : List UInt8)

theorem deadlockcheckBefore_req :
    (t.deadlockcheckBefore threadId lockAddr site lockName).req threadId' =
      if threadId' = threadId then
        some (((t.req threadId).getD (threadReqLockAlloc threadId)).wait threadId lockAddr site
          lockName)
      else t.req threadId' := by
  have hnew : (threadReqLockAlloc threadId).threadId = threadId := rfl
  simp only [req, threadReqLockLookup, deadlockcheckBefore, threadReqLockLookupOrAlloc,
    lookup_update ThreadReqLock.wait_key, lookup_lookupOrAppend hnew, if_pos, Option.map_some]
  split <;> rfl

theorem deadlockcheckAfter_req :
    (t.deadlockcheckAfter threadId lockAddr site lockName).req threadId' =
      if threadId' = threadId then (t.req threadId).map ThreadReqLock.done
      else t.req threadId' :=
  lookup_update ThreadReqLock.done_key

theorem deadlockcheckAfter_hold :
    (t.deadlockcheckAfter threadId lockAddr site lockName).hold lockAddr' =
      if lockAddr' = lockAddr then
        some (((t.hold lockAddr).getD (threadHoldLockAlloc lockAddr)).take threadId site lockName)
      else t.hold lockAddr' := by
  have hnew : (threadHoldLockAlloc lockAddr).lockAddr = lockAddr := rfl
  simp only [hold, threadHoldLockLookup, deadlockcheckAfter, threadHoldLockLookupOrAlloc,
    lookup_update ThreadHoldLock.take_key, lookup_lookupOrAppend hnew, if_pos, Option.map_some]
  split <;> rfl

theorem deadlockcheckUnlockAfter_hold :
    (t.deadlockcheckUnlockAfter threadId lockAddr).hold lockAddr' =
      if lockAddr' = lockAddr then
        some ((t.hold lockAddr).getD (threadHoldLockAlloc lockAddr)).threadHoldLockPopstack
      else t.hold lockAddr' := by
  have hnew : (threadHoldLockAlloc lockAddr).lockAddr = lockAddr := rfl
  simp only [hold, threadHoldLockLookup, deadlockcheckUnlockAfter, threadHoldLockLookupOrAlloc,
    lookup_update ThreadHoldLock.threadHoldLockPopstack_key, lookup_lookupOrAppend hnew, if_pos,
    Option.map_some]
  split <;> rfl

def announced (t : Tables) (threadId : UInt64) : Option UInt64 :=
  ((t.req threadId).filter (fun l => l.valid ≠ 0)).map ThreadReqLock.lockAddr

def countOf (t : Tables) (lockAddr : UInt64) : Int :=
  ((t.hold lockAddr).map ThreadHoldLock.count).getD 0

/-- The acquisitions recorded for a lock, innermost first. -/
def pointsOf (t : Tables) (lockAddr : UInt64) : List CallSite :=
  ((t.hold lockAddr).map ThreadHoldLock.pointList).getD []

def recorded (t : Tables) (lockAddr : UInt64) : Option UInt64 :=
  (t.hold lockAddr).map ThreadHoldLock.threadId

theorem deadlockcheckBefore_announced :
    (t.deadlockcheckBefore threadId lockAddr site lockName).announced threadId' =
      if threadId' = threadId then some lockAddr else t.announced threadId' := by
  rw [announced, deadlockcheckBefore_req]
  split
  · rfl
  · rfl

theorem deadlockcheckAfter_announced :
    (t.deadlockcheckAfter threadId lockAddr site lockName).announced threadId' =
      if threadId' = threadId then none else t.announced threadId' := by
  rw [announced, deadlockcheckAfter_req]
  split
  · cases t.req threadId <;> rfl
  · rfl

theorem deadlockcheckAfter_countOf :
    (t.deadlockcheckAfter threadId lockAddr site lockName).countOf lockAddr' =
      t.countOf lockAddr' + if lockAddr' = lockAddr then 1 else 0 := by
  rw [countOf, deadlockcheckAfter_hold, countOf]
  split
  · rename_i h
    rw [h]
    cases t.hold lockAddr <;> rfl
  · rw [Int.add_zero]

theorem deadlockcheckAfter_pointsOf :
    (t.deadlockcheckAfter threadId lockAddr site lockName).pointsOf lockAddr' =
      if lockAddr' = lockAddr then site.clip 20 32 :: t.pointsOf lockAddr
      else t.pointsOf lockAddr' := by
  rw [pointsOf, deadlockcheckAfter_hold]
  split
  · rw [pointsOf]
    cases t.hold lockAddr <;> rfl
  · rfl

theorem deadlockcheckAfter_recorded :
    (t.deadlockcheckAfter threadId lockAddr site lockName).recorded lockAddr' =
      if lockAddr' = lockAddr then some threadId else t.recorded lockAddr' := by
  rw [recorded, deadlockcheckAfter_hold]
  split <;> rfl

theorem deadlockcheckUnlockAfter_pointsOf :
    (t.deadlockcheckUnlockAfter threadId lockAddr).pointsOf lockAddr' =
      if lockAddr' = lockAddr then (t.pointsOf lockAddr).tail else t.pointsOf lockAddr' := by
  rw [pointsOf, deadlockcheckUnlockAfter_hold]
  split
  · rw [pointsOf]
    cases t.hold lockAddr with
    | none => rfl
    | some h =>
      simp only [Option.map_some, Option.getD_some, ThreadHoldLock.threadHoldLockPopstack]
      split
      · rename_i hp
        rw [hp, List.tail_nil]
      · rename_i hp
        rw [hp, List.tail_cons]
  · rfl

/-- An entry is counted down only where there is one. -/
theorem deadlockcheckUnlockAfter_countOf :
    (t.deadlockcheckUnlockAfter threadId lockAddr).countOf lockAddr' =
      t.countOf lockAddr' - if lockAddr' = lockAddr ∧ t.pointsOf lockAddr ≠ [] then 1 else 0 := by
  rw [countOf, deadlockcheckUnlockAfter_hold, countOf, pointsOf]
  by_cases hl : lockAddr' = lockAddr
  · subst hl
    rw [if_pos rfl]
    cases t.hold lockAddr' with
    | none => simp [ThreadHoldLock.threadHoldLockPopstack, threadHoldLockAlloc]
    | some h =>
      simp only [Option.map_some, Option.getD_some, ThreadHoldLock.threadHoldLockPopstack]
      split
      · rename_i hp
        simp [hp]
      · rename_i hp
        simp [hp]
  · simp [hl]

theorem deadlockcheckUnlockAfter_recorded (h : t.recorded lockAddr ≠ none) :
    (t.deadlockcheckUnlockAfter threadId lockAddr).recorded lockAddr' =
      t.recorded lockAddr' := by
  rw [recorded, deadlockcheckUnlockAfter_hold]
  by_cases hl : lockAddr' = lockAddr
  · subst hl
    rw [if_pos rfl]
    rw [recorded] at h ⊢
    cases hh : t.hold lockAddr' with
    | none => exact absurd (by rw [hh]; rfl) h
    | some r =>
      rw [Option.map_some, Option.getD_some, Option.map_some,
        ThreadHoldLock.threadHoldLockPopstack_threadId]
  · rw [if_neg hl]
    rfl

theorem recorded_ne_none {t : Tables} {lockAddr : UInt64} (h : t.pointsOf lockAddr ≠ []) :
    t.recorded lockAddr ≠ none := by
  intro hnone
  rw [recorded, Option.map_eq_none_iff] at hnone
  rw [pointsOf, hnone] at h
  exact h rfl

end Tables

end AlgorithmLib.DeadLock
