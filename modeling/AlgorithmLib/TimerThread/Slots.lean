import Mathlib.Data.List.Basic
import Mathlib.Logic.Function.Basic

/-!
`GetTask` of `itimer_pool_thread/itimer.c`: every thread looks for a task queue of its own,
from its thread id on, and keeps the index in a thread-local variable, unless it is 0.
-/

set_option autoImplicit false

namespace AlgorithmLib.TimerThread

def maxThreadTask : Nat := 48

inductive TaskState where
  | useed
  | unuse
  deriving DecidableEq, Repr

/-- `itimer_task_q_t` without its list; the thread that holds the lock. -/
structure ItimerTaskQ where
  state : TaskState
  tid : Nat
  lock : Option Nat
  deriving DecidableEq, Repr

abbrev Queues := Nat → ItimerTaskQ

/-- The queue belongs to the thread. -/
def Owns (queue : Queues) (tid k : Nat) : Prop :=
  (queue k).state = .useed ∧ (queue k).tid = tid

/-- The loop of `GetTask` stops at this queue. -/
def stops (queue : Queues) (tid k : Nat) : Bool :=
  (queue k).state = .unuse || (queue k).tid = tid

/-- The loop of `GetTask`: the index it ends with, -1 when it comes back to the first one. -/
def probe (queue : Queues) (tid okey : Nat) : Nat → Nat → Int
  | 0, _ => -1
  | turns + 1, key =>
    if stops queue tid key then key
    else
      let key := if key + 1 ≥ maxThreadTask then 0 else key + 1
      if key = okey then -1 else probe queue tid okey turns key

/-- The index `GetTask` returns to a thread with this cached key. -/
def slot (queue : Queues) (tid : Nat) (key : Int) : Int :=
  if key ≠ 0 then key
  else probe queue tid (tid % maxThreadTask) maxThreadTask (tid % maxThreadTask)

def claimSlot (queue : Queues) (tid : Nat) (key : Int) : Queues :=
  if key < 0 then queue
  else if (queue key.toNat).state = .unuse then
    Function.update queue key.toNat { queue key.toNat with state := .useed, tid := tid }
  else queue

def getTask (queue : Queues) (tid : Nat) (key : Int) : Queues × Int :=
  if key ≠ 0 then (queue, key)
  else (claimSlot queue tid (slot queue tid key), slot queue tid key)

/-- What the queues and the cached keys say of each other: a queue is found by the thread it
belongs to, and a cached index is that of a queue of the thread. -/
structure Slots (queue : Queues) (key : Nat → Int) : Prop where
  found : ∀ tid k, Owns queue tid k → slot queue tid (key tid) = k
  cached : ∀ tid k, key tid = (k : Nat) → k ≠ 0 → Owns queue tid k

theorem stops_of_owns {queue : Queues} {tid k : Nat} (h : Owns queue tid k) :
    stops queue tid k = true := by
  simp [stops, h.2]

theorem owns_or_unuse {queue : Queues} {tid k : Nat} (h : stops queue tid k = true) :
    Owns queue tid k ∨ (queue k).state = .unuse := by
  cases hs : (queue k).state with
  | useed =>
    simp only [stops, hs, Bool.or_eq_true, decide_eq_true_eq, reduceCtorEq, false_or] at h
    exact Or.inl ⟨hs, h⟩
  | unuse => exact Or.inr rfl

theorem stops_probe {queue : Queues} {tid okey turns key k : Nat}
    (h : probe queue tid okey turns key = (k : Nat)) : stops queue tid k = true := by
  induction turns generalizing key with
  | zero => simp [probe] at h
  | succ turns ih =>
    simp only [probe] at h
    split at h
    · next hs =>
      obtain rfl : key = k := Int.ofNat.inj h
      exact hs
    · generalize (if key + 1 ≥ maxThreadTask then 0 else key + 1) = next at h
      split at h
      · omega
      · exact ih h

theorem probe_shrink {queue queue' : Queues} {tid okey turns key k : Nat}
    (hle : ∀ j, stops queue' tid j = true → stops queue tid j = true)
    (hk : stops queue' tid k = true) (h : probe queue tid okey turns key = (k : Nat)) :
    probe queue' tid okey turns key = (k : Nat) := by
  induction turns generalizing key with
  | zero => simp [probe] at h
  | succ turns ih =>
    simp only [probe] at h ⊢
    by_cases hs : stops queue tid key = true
    · rw [if_pos hs] at h
      obtain rfl : key = k := Int.ofNat.inj h
      rw [if_pos hk]
    · rw [if_neg hs] at h
      rw [if_neg (fun hs' => hs (hle key hs'))]
      generalize (if key + 1 ≥ maxThreadTask then 0 else key + 1) = next at h
      split at h
      · omega
      · next hne =>
        rw [if_neg hne]
        exact ih h

namespace Slots

variable {queue : Queues} {key : Nat → Int}

theorem init (queue : Queues) (h : ∀ k, (queue k).state = .unuse) : Slots queue (fun _ => 0) := by
  refine ⟨fun tid k hk => ?_, fun tid k hk hne => ?_⟩
  · rw [Owns, h k] at hk
    cases hk.1
  · exact absurd (Int.ofNat.inj hk).symm hne

theorem owns_inj (h : Slots queue key) {tid j k : Nat} (hj : Owns queue tid j)
    (hk : Owns queue tid k) : j = k :=
  Int.ofNat.inj ((h.found tid j hj).symm.trans (h.found tid k hk))

/-- `GetTask` changes the state of one queue at most, from unused to the thread's. -/
structure Gets (queue : Queues) (key : Nat → Int) (tid : Nat) (queue' : Queues) (k : Int) :
    Prop where
  slots : Slots queue' (Function.update key tid k)
  keeps : ∀ tid' j, Owns queue tid' j → Owns queue' tid' j
  only : ∀ tid' j, Owns queue' tid' j → Owns queue tid' j ∨ (queue j).state = .unuse
  owns : ∀ j : Nat, k = j → Owns queue' tid j
  lock : ∀ j, (queue' j).lock = (queue j).lock

theorem slot_idem (queue : Queues) (tid : Nat) (k : Int) :
    slot queue tid (slot queue tid k) = slot queue tid k := by
  by_cases hk : k = 0
  · by_cases hs : slot queue tid k = 0
    · rw [hs, ← hk, hs, hk]
    · rw [slot, if_pos hs]
  · have hs : slot queue tid k = k := if_pos hk
    rw [hs, hs]

theorem gets_same (h : Slots queue key) (tid : Nat)
    (howns : ∀ j : Nat, slot queue tid (key tid) = j → Owns queue tid j) :
    Gets queue key tid queue (slot queue tid (key tid)) := by
  refine ⟨⟨fun tid' i hi => ?_, fun tid' i hi hne => ?_⟩, fun _ _ hj => hj, fun _ _ hj => Or.inl hj,
    howns, fun _ => rfl⟩
  · by_cases ht : tid' = tid
    · subst ht
      rw [Function.update_self, slot_idem]
      exact h.found tid' i hi
    · rw [Function.update_of_ne ht]
      exact h.found tid' i hi
  · by_cases ht : tid' = tid
    · subst ht
      rw [Function.update_self] at hi
      exact howns i hi
    · rw [Function.update_of_ne ht] at hi
      exact h.cached tid' i hi hne

theorem gets_new (h : Slots queue key) {tid j : Nat} (hkey : key tid = 0)
    (hslot : slot queue tid (key tid) = (j : Nat)) (hj : (queue j).state = .unuse) :
    Gets queue key tid (Function.update queue j { queue j with state := .useed, tid := tid }) j := by
  generalize hq : Function.update queue j { queue j with state := .useed, tid := tid } = queue'
  have hself : queue' j = { queue j with state := .useed, tid := tid } := by
    rw [← hq, Function.update_self]
  have hother : ∀ i, i ≠ j → queue' i = queue i := by
    intro i hi
    rw [← hq, Function.update_of_ne hi]
  have howns : ∀ tid' i, Owns queue' tid' i ↔ i = j ∧ tid' = tid ∨ Owns queue tid' i := by
    intro tid' i
    by_cases hi : i = j
    · subst hi
      simp [Owns, hself, hj, eq_comm]
    · simp [Owns, hother i hi, hi]
  have hstops : ∀ tid' i, stops queue' tid' i = true → stops queue tid' i = true := by
    intro tid' i hs
    by_cases hi : i = j
    · subst hi
      simp [stops, hj]
    · rwa [stops, hother i hi] at hs
  have hprobe : ∀ tid' i, key tid' = 0 → slot queue tid' (key tid') = (i : Nat) →
      Owns queue' tid' i → slot queue' tid' 0 = (i : Nat) := by
    intro tid' i hk hs ho
    rw [slot, if_neg (by simp [hk])] at hs
    rw [slot, if_neg (by simp)]
    exact probe_shrink (hstops tid') (stops_of_owns ho) hs
  refine ⟨⟨fun tid' i hi => ?_, fun tid' i hi hne => ?_⟩, fun tid' i hi => ?_, fun tid' i hi => ?_,
    fun i hi => ?_, fun i => ?_⟩
  · by_cases ht : tid' = tid
    · subst ht
      have hij : i = j := by
        rcases (howns tid' i).mp hi with ⟨hij, -⟩ | hold
        · exact hij
        · exact Int.ofNat.inj ((h.found tid' i hold).symm.trans hslot)
      subst hij
      rw [Function.update_self]
      by_cases h0 : i = 0
      · subst h0
        exact hprobe tid' 0 hkey hslot hi
      · rw [slot, if_pos (by omega)]
    · rw [Function.update_of_ne ht]
      have hold : Owns queue tid' i := by
        rcases (howns tid' i).mp hi with ⟨-, ht'⟩ | hold
        · exact absurd ht' ht
        · exact hold
      have hs := h.found tid' i hold
      by_cases hk : key tid' = 0
      · rw [hk]
        exact hprobe tid' i hk hs hi
      · rw [slot, if_pos hk] at hs ⊢
        exact hs
  · rw [howns]
    by_cases ht : tid' = tid
    · subst ht
      rw [Function.update_self] at hi
      exact Or.inl ⟨(Int.ofNat.inj hi).symm, rfl⟩
    · rw [Function.update_of_ne ht] at hi
      exact Or.inr (h.cached tid' i hi hne)
  · exact (howns tid' i).mpr (Or.inr hi)
  · rcases (howns tid' i).mp hi with ⟨rfl, -⟩ | hold
    · exact Or.inr hj
    · exact Or.inl hold
  · exact (howns tid i).mpr (Or.inl ⟨(Int.ofNat.inj hi).symm, rfl⟩)
  · by_cases hi : i = j
    · rw [hi, hself]
    · rw [hother i hi]

theorem getTask (h : Slots queue key) (tid : Nat) :
    Gets queue key tid (getTask queue tid (key tid)).1 (getTask queue tid (key tid)).2 := by
  by_cases hkey : key tid = 0
  · have hprobe : slot queue tid (key tid) =
        probe queue tid (tid % maxThreadTask) maxThreadTask (tid % maxThreadTask) := by
      rw [slot, if_neg (by simp [hkey])]
    have hstop : ∀ j : Nat, slot queue tid (key tid) = j → stops queue tid j = true :=
      fun j hj => stops_probe (hprobe ▸ hj)
    rw [TimerThread.getTask, if_neg (by simp [hkey])]
    simp only [claimSlot]
    by_cases hneg : slot queue tid (key tid) < 0
    · rw [if_pos hneg]
      exact h.gets_same tid (fun j hj => by omega)
    · rw [if_neg hneg]
      obtain ⟨j, hj⟩ := Int.eq_ofNat_of_zero_le (Int.not_lt.mp hneg)
      by_cases hfree : (queue j).state = .unuse
      · have hnew := h.gets_new hkey hj hfree
        simp only [hj, Int.toNat_natCast, hfree, if_true]
        exact hnew
      · simp only [hj, Int.toNat_natCast, if_neg hfree]
        rw [← hj]
        refine h.gets_same tid (fun i hi => ?_)
        obtain rfl : i = j := Int.ofNat.inj (hi.symm.trans hj)
        exact (owns_or_unuse (hstop i hi)).resolve_right hfree
  · have hslot : slot queue tid (key tid) = key tid := if_pos hkey
    rw [TimerThread.getTask, if_pos hkey]
    have hsame := h.gets_same tid (fun j hj => h.cached tid j (hslot ▸ hj) (fun h0 => hkey ?_))
    · rwa [hslot] at hsame
    · rw [← hslot, hj, h0]
      rfl

end Slots

end AlgorithmLib.TimerThread
