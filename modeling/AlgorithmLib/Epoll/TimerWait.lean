import Mathlib.Algebra.Order.Ring.Int
import AlgorithmLib.Library.Run
import AlgorithmLib.Epoll.Scheduler

/-!
How long `epoll_wait` waits. The time that is left is computed from the expiry on top of the heap and
the low half of the clock, and handed on as an `int`: half of the differences are negative there, and
a negative timeout is one without end.
-/

set_option autoImplicit false

namespace AlgorithmLib.Epoll

/-- A heap, with the time at which each node is due. -/
structure Deadlines where
  heap : TimeHeap
  deadline : Nat → Nat

inductive HeapAct where
  /-- at this reading of the clock -/
  | add (now : Nat) (cb args : Option Nat) (timeout : BitVec 32)
  | del (n : Nat)
  | pop
  | tick (now : Nat)
  deriving DecidableEq, Repr

namespace Deadlines

def init : Deadlines := { heap := timeHeapInit, deadline := fun _ => 0 }

def step (s : Deadlines) : HeapAct → Option Deadlines
  | .add now cb args timeout =>
    some
      { heap := (s.heap.timeHeapAddTimer (BitVec.ofNat 64 now) cb args timeout).2
        deadline := Function.update s.deadline s.heap.made (now + timeout.toNat) }
  | .del n => some { s with heap := s.heap.timeHeapDelTimer n }
  | .pop => some { s with heap := s.heap.popTimer }
  | .tick now => some { s with heap := (s.heap.clTimeHeapTick (BitVec.ofNat 64 now)).1 }

/-- As a timeout of `epoll_wait`: at least a millisecond, and no node is due before it is over, or
the millisecond is. -/
def InTime (s : Deadlines) (now : Nat) (wait : BitVec 32) : Prop :=
  1 ≤ wait.toInt ∧ ∀ n ∈ s.heap.nodes, wait.toInt ≤ max 1 ((s.deadline n : Int) - now)

instance (s : Deadlines) (now : Nat) (wait : BitVec 32) : Decidable (s.InTime now wait) :=
  inferInstanceAs (Decidable (_ ∧ ∀ n ∈ s.heap.nodes, _))

/-- A node is due within 2^31 milliseconds; and once the clock has passed 2^32, at its low half plus
one at the latest. -/
def Near (s : Deadlines) (now : Nat) : Prop :=
  ∃ n ∈ s.heap.nodes, s.deadline n < now % 2 ^ 32 + 2 ^ 31 ∧
    (now < 2 ^ 32 ∨ s.deadline n ≤ now % 2 ^ 32 + 1)

instance (s : Deadlines) (now : Nat) : Decidable (s.Near now) :=
  inferInstanceAs (Decidable (∃ n ∈ s.heap.nodes, _))

structure Inv (s : Deadlines) : Prop where
  ok : s.heap.Ok
  ordered : Heap.Ordered s.heap.expire s.heap.nodes
  expire : ∀ n ∈ s.heap.nodes, s.heap.expire n = BitVec.ofNat 32 (s.deadline n)

theorem inv_init : Inv init where
  ok := TimeHeap.ok_init
  ordered := fun i p c _ hp => by simp [init, timeHeapInit] at hp
  expire := fun n hn => by simp [init, timeHeapInit] at hn

theorem Inv.popTimer {h : TimeHeap} {d : Nat → Nat} (hinv : Inv ⟨h, d⟩) : Inv ⟨h.popTimer, d⟩ := by
  cases hnodes : h.nodes with
  | nil =>
    have hsame : h.popTimer = h := by
      rw [TimeHeap.popTimer, hnodes]
      cases h
      simp only [Heap.pop] at hnodes ⊢
      rw [hnodes]
    rw [hsame]
    exact hinv
  | cons n ns =>
    have hpop : h.popTimer.nodes = Heap.pop h.expire (n :: ns) := by rw [TimeHeap.popTimer, hnodes]
    refine ⟨(hinv.ok.popTimer hnodes).1, ?_, fun m hm => hinv.expire m ?_⟩
    · rw [hpop]
      exact Heap.pop_ordered (hnodes ▸ hinv.ordered)
    · rw [hpop] at hm
      dsimp only
      rw [hnodes]
      exact List.mem_cons_of_mem _ ((Heap.pop_perm n ns).mem_iff.mp hm)

theorem Inv.tickLoop {h : TimeHeap} {d : Nat → Nat} (hinv : Inv ⟨h, d⟩) (cur : BitVec 32)
    (turns : Nat) : Inv ⟨(h.tickLoop cur turns).1, d⟩ := by
  induction turns generalizing h with
  | zero => exact hinv
  | succ turns ih =>
    rw [TimeHeap.tickLoop]
    cases h.nodes with
    | nil => exact hinv
    | cons n ns =>
      dsimp only
      split
      · exact hinv
      · cases (h.node n).args with
        | none => exact ih hinv.popTimer
        | some args => exact hinv.popTimer

theorem Inv.add {s : Deadlines} (hinv : Inv s) (now : Nat) (cb args : Option Nat)
    (timeout : BitVec 32) :
    Inv
      { heap := (s.heap.timeHeapAddTimer (BitVec.ofNat 64 now) cb args timeout).2
        deadline := Function.update s.deadline s.heap.made (now + timeout.toNat) } := by
  have hfresh : ∀ n ∈ s.heap.nodes, n ≠ s.heap.made := fun n hn =>
    Nat.ne_of_lt (hinv.ok.made n hn)
  refine ⟨(hinv.ok.addTimer _ cb args timeout).1, ?_, fun n hn => ?_⟩
  · refine Heap.insert_ordered (hinv.ordered.congr fun n hn => ?_)
    simp only [TimeHeap.expire, TimeHeap.timeHeapAddTimer, Function.update_of_ne (hfresh n hn)]
  · rcases List.mem_cons.mp ((Heap.insert_perm _ _ _).mem_iff.mp hn) with rfl | hn
    · simp only [TimeHeap.expire, TimeHeap.timeHeapAddTimer, Function.update_self]
      apply BitVec.eq_of_toNat_eq
      simp
    · have hsame := hinv.expire n hn
      simp only [TimeHeap.expire, TimeHeap.timeHeapAddTimer, Function.update_of_ne (hfresh n hn)]
      exact hsame

theorem Inv.step {s t : Deadlines} {a : HeapAct} (hinv : Inv s) (h : s.step a = some t) : Inv t := by
  cases a with
  | add now cb args timeout =>
    obtain rfl := Option.some.inj h
    exact hinv.add now cb args timeout
  | del n =>
    obtain rfl := Option.some.inj h
    have hkey : ∀ m, (s.heap.timeHeapDelTimer n).expire m = s.heap.expire m := by
      intro m
      by_cases hm : m = n
      · simp [TimeHeap.expire, TimeHeap.timeHeapDelTimer, hm]
      · simp [TimeHeap.expire, TimeHeap.timeHeapDelTimer, hm]
    refine ⟨(hinv.ok.delTimer n).1, hinv.ordered.congr fun m _ => (hkey m).symm, fun m hm => ?_⟩
    rw [hkey]
    exact hinv.expire m hm
  | pop =>
    obtain rfl := Option.some.inj h
    exact hinv.popTimer
  | tick now =>
    obtain rfl := Option.some.inj h
    exact hinv.tickLoop _ _

theorem Inv.inTime_iff {s : Deadlines} (hinv : Inv s) {now : Nat}
    (hwrap : ∀ n ∈ s.heap.nodes, s.deadline n < 2 ^ 32) {wait : BitVec 32}
    (h : s.heap.timeHeapTimeWait (BitVec.ofNat 64 now) = some wait) :
    s.InTime now wait ↔ s.Near now := by
  cases hnodes : s.heap.nodes with
  | nil => simp [TimeHeap.timeHeapTimeWait, hnodes] at h
  | cons n ns =>
    have hmem : n ∈ s.heap.nodes := by simp [hnodes]
    have hexpire : ∀ m ∈ s.heap.nodes, (s.heap.expire m).toNat = s.deadline m := by
      intro m hm
      have hlt := hwrap m hm
      rw [hinv.expire m hm, BitVec.toNat_ofNat]
      omega
    -- the node on top is the one that is due first
    have htop : ∀ m ∈ s.heap.nodes, s.deadline n ≤ s.deadline m := by
      intro m hm
      have hle := Heap.Ordered.head_le (hnodes ▸ hinv.ordered) m (hnodes ▸ hm)
      rw [BitVec.le_def, hexpire n hmem, hexpire m hm] at hle
      exact hle
    have hclock : ((BitVec.ofNat 64 now).setWidth 32).toNat = now % 2 ^ 32 := by
      simp only [BitVec.toNat_setWidth, BitVec.toNat_ofNat]
      omega
    have hn := hwrap n hmem
    have hexpn := hexpire n hmem
    simp only [TimeHeap.timeHeapTimeWait, hnodes, List.head?_cons, Option.map_some,
      Option.some.injEq] at h
    -- as an `int`, the time that is left is negative from 2^31 on
    have hwait : wait.toInt =
        if s.deadline n ≤ now % 2 ^ 32 then (1 : Int)
        else if s.deadline n - now % 2 ^ 32 < 2 ^ 31 then (s.deadline n : Int) - (now % 2 ^ 32 : Nat)
        else (s.deadline n : Int) - (now % 2 ^ 32 : Nat) - 2 ^ 32 := by
      rw [← h]
      split
      next hlater =>
        rw [gt_iff_lt, BitVec.lt_def, hclock] at hlater
        change _ < (s.heap.expire n).toNat at hlater
        change (s.heap.expire n - _).toInt = _
        rw [hexpn] at hlater
        have hdiff : (s.heap.expire n - (BitVec.ofNat 64 now).setWidth 32).toNat =
            s.deadline n - now % 2 ^ 32 := by
          rw [BitVec.toNat_sub, hclock, hexpn]
          omega
        rw [if_neg (by omega), BitVec.toInt_eq_toNat_cond, hdiff]
        split <;> split <;> omega
      next hdue =>
        rw [gt_iff_lt, BitVec.lt_def, hclock, Nat.not_lt] at hdue
        change (s.heap.expire n).toNat ≤ _ at hdue
        rw [hexpn] at hdue
        rw [if_pos hdue]
        rfl
    have hlow := Nat.mod_lt now (Nat.two_pow_pos 32)
    have hself : now < 2 ^ 32 → now % 2 ^ 32 = now := Nat.mod_eq_of_lt
    rw [InTime, Near, hwait]
    generalize now % 2 ^ 32 = t at *
    constructor
    · rintro ⟨hpos, hle⟩
      have htime := hle n hmem
      refine ⟨n, hmem, ?_⟩
      split at hpos
      · omega
      · split at hpos
        · rw [if_neg (by omega), if_pos (by omega)] at htime
          omega
        · omega
    · rintro ⟨m, hm, hnear, hpassed⟩
      have hfirst := htop m hm
      split
      · exact ⟨le_rfl, fun k _ => le_max_left _ _⟩
      · rw [if_pos (by omega)]
        refine ⟨by omega, fun k hk => ?_⟩
        have hk' := htop k hk
        omega

/-- What `time_heap_time_wait` stores, and with it the timeout of the `epoll_wait` that
`cl_thread_fetch` calls, where there is no timer as well. -/
theorem time_heap_wait_in_time (as : List HeapAct) (s : Deadlines) (m : Master) (now : Nat)
    (hrun : Run.run step init as = some s) (hheap : m.heap = s.heap)
    (hwrap : ∀ n ∈ s.heap.nodes, s.deadline n < 2 ^ 32) :
    (∀ wait, s.heap.timeHeapTimeWait (BitVec.ofNat 64 now) = some wait → s.InTime now wait) ∧
        s.InTime now (m.clThreadTimerWait (BitVec.ofNat 64 now)) ↔
      s.heap.nodes = [] ∨ s.Near now := by
  have hinv : Inv s := Run.run_invariant (fun _ _ _ hs hstep => hs.step hstep) inv_init hrun
  rw [Master.clThreadTimerWait, hheap]
  cases hnodes : s.heap.nodes with
  | nil =>
    have hnone : s.heap.timeHeapTimeWait (BitVec.ofNat 64 now) = none := by
      simp [TimeHeap.timeHeapTimeWait, hnodes]
    have hempty : s.InTime now 1#32 := ⟨by decide, by simp [hnodes]⟩
    simp [hnone, hempty]
  | cons n ns =>
    obtain ⟨wait, hwait⟩ : ∃ wait, s.heap.timeHeapTimeWait (BitVec.ofNat 64 now) = some wait := by
      simp [TimeHeap.timeHeapTimeWait, hnodes]
    have hiff := hinv.inTime_iff hwrap hwait
    simp [hwait, hiff]

/-- The later timer is added first, and the other one deleted: it is still the one to wait for. -/
theorem time_heap_wait_in_time_two :
    ∃ s, Run.run step init [.add 1000 none none 5000, .add 1500 none none 300, .del 1] = some s ∧
      s.InTime 1700 100#32 :=
  ⟨_, (Option.some_get (by decide +kernel)).symm,
    ((time_heap_wait_in_time _ _
      { clThreadInit with
        heap := ((Run.run step init
          [.add 1000 none none 5000, .add 1500 none none 300, .del 1]).get (by decide +kernel)).heap }
      1700 (Option.some_get (by decide +kernel)).symm rfl (by decide +kernel)).mpr
        (.inr (by decide +kernel))).1 100#32 (by decide +kernel)⟩

/-- A timer in 2^31 milliseconds: the timeout is negative. -/
theorem time_heap_wait_forever :
    ∃ s, Run.run step init [.add 0 none none 0x80000000#32] = some s ∧
      (∀ n ∈ s.heap.nodes, s.deadline n < 2 ^ 32) ∧
        ∃ wait, s.heap.timeHeapTimeWait 0#64 = some wait ∧ wait.toInt = -2 ^ 31 ∧
          ¬ s.InTime 0 wait := by
  refine ⟨_, (Option.some_get (by decide +kernel)).symm, by decide +kernel, 0x80000000#32, ?_⟩
  decide +kernel

end Deadlines

end AlgorithmLib.Epoll
