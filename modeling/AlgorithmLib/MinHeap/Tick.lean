import AlgorithmLib.MinHeap.Representation

/-!
The timers over time. The clock has 64 bits, the expiries have 32; `time_heap_tick` compares them
with the low half of its reading, and calls a callback before the node is popped. While the low
halves compare like the clock and the deadlines themselves, every timer fires once, in the first
tick that is late enough, and the timers fire in the order of their deadlines.
-/

set_option autoImplicit false

namespace AlgorithmLib.MinHeap

/-- Where a call of `time_heap_tick` with this reading of the clock is. -/
inductive Frame where
  /-- before the test of its loop -/
  | looping (cur : Nat)
  /-- in a callback -/
  | calling (cur : Nat)
  deriving DecidableEq, Repr

def Frame.cur : Frame → Nat
  | .looping cur => cur
  | .calling cur => cur

inductive TimerEvent where
  /-- a timer with this node, callback and deadline was added -/
  | added (n : Nat) (cb : Option Nat) (deadline : Nat)
  | deleted (n : Nat)
  /-- the callback of the node was called in the tick with this reading of the clock -/
  | fired (n cur : Nat)
  /-- the tick with this reading of the clock has returned -/
  | returned (cur : Nat)
  deriving DecidableEq, Repr

/-- The calls of `time_heap_tick` are the innermost first. -/
structure Timers where
  heap : TimeHeap
  frames : List Frame
  clock : Nat
  deadline : Nat → Nat
  log : List TimerEvent

def Timers.init : Timers :=
  { heap := timeHeapInit, frames := [], clock := 0, deadline := fun _ => 0, log := [] }

namespace Timers

def open_ (s : Timers) : Bool :=
  match s.frames with
  | [] => true
  | .calling _ :: _ => true
  | .looping _ :: _ => false

def add (s : Timers) (now : Nat) (cb : Option Nat) (args : Nat) (timeout : BitVec 32) :
    Option Timers :=
  (s.heap.timeHeapAddTimer (BitVec.ofNat 64 now) cb args timeout).map fun r =>
    { s with
      heap := r.2.1
      clock := now
      deadline := Function.update s.deadline r.1 (now + timeout.toNat)
      log := .added r.1 cb (now + timeout.toNat) :: s.log }

/-- The next step of the innermost call of `time_heap_tick`. -/
def advance (s : Timers) : Option Timers :=
  match s.frames with
  | [] => none
  | .looping cur :: frames =>
    match s.heap.timeHeapTop with
    | none => some { s with frames := frames, log := .returned cur :: s.log }
    | some n =>
      if s.heap.expire n > BitVec.ofNat 32 cur then
        some { s with frames := frames, log := .returned cur :: s.log }
      else if (s.heap.node n).cb.isSome then
        some { s with frames := .calling cur :: frames, log := .fired n cur :: s.log }
      else s.heap.popTimer.map fun r => { s with heap := r.1 }
  | .calling cur :: frames =>
    s.heap.popTimer.map fun r => { s with heap := r.1, frames := .looping cur :: frames }

end Timers

inductive TimerAct where
  | add (now : Nat) (cb : Option Nat) (args : Nat) (timeout : BitVec 32)
  | del (n : Nat)
  | tick (now : Nat)
  | advance
  deriving DecidableEq, Repr

/-- The clock does not go back; nodes are deleted before they are freed. -/
def timerStep (s : Timers) : TimerAct → Option Timers
  | .add now cb args timeout =>
    if s.open_ && s.clock ≤ now && now < 2 ^ 64 then s.add now cb args timeout else none
  | .del n =>
    if s.open_ && s.heap.contents.contains n then
      some { s with heap := s.heap.timeHeapDelTimer n, log := .deleted n :: s.log }
    else none
  | .tick now =>
    if s.open_ && s.clock ≤ now && now < 2 ^ 64 then
      some { s with frames := .looping now :: s.frames, clock := now }
    else none
  | .advance => s.advance

def armed (n : Nat) : List TimerEvent → Bool
  | [] => false
  | .added m cb _ :: log => if m = n then cb.isSome else armed n log
  | .deleted m :: log => m ≠ n && armed n log
  | .fired m _ :: log => m ≠ n && armed n log
  | .returned _ :: log => armed n log

def deadlineOf (n : Nat) : List TimerEvent → Option Nat
  | [] => none
  | .added m _ deadline :: log => if m = n then some deadline else deadlineOf n log
  | _ :: log => deadlineOf n log

/-- A timer fires at most once, not before its deadline, and not after one with a later deadline;
when a tick returns, no timer waits whose deadline it has reached. -/
def Punctual : List TimerEvent → Prop
  | [] => True
  | .fired n cur :: log =>
    (armed n log = true ∧ ∃ d, deadlineOf n log = some d ∧ d ≤ cur ∧
      ∀ m cur' d', .fired m cur' ∈ log → deadlineOf m log = some d' → d' ≤ d) ∧ Punctual log
  | .returned cur :: log =>
    (∀ n d, armed n log = true → deadlineOf n log = some d → cur < d) ∧ Punctual log
  | _ :: log => Punctual log

def Agrees (a b : Nat) : Prop :=
  (a % 2 ^ 32 ≤ b % 2 ^ 32 ↔ a ≤ b) ∧ (b % 2 ^ 32 ≤ a % 2 ^ 32 ↔ b ≤ a)

instance (a b : Nat) : Decidable (Agrees a b) := by
  unfold Agrees
  infer_instance

/-- The low half of a new deadline compares like the deadline with those in the heap and with the
reading of the tick that goes on; so does the low half of the reading of a new tick, which is not
called from a callback. -/
def comparable (s : Timers) : TimerAct → Prop
  | .add now _ _ timeout =>
    (∀ n ∈ s.heap.contents, Agrees (now + timeout.toNat) (s.deadline n)) ∧
      ∀ f ∈ s.frames, Agrees (now + timeout.toNat) f.cur
  | .tick now => s.frames = [] ∧ ∀ n ∈ s.heap.contents, Agrees (s.deadline n) now
  | _ => True

instance (s : Timers) : ∀ a, Decidable (comparable s a)
  | .add now _ _ timeout =>
    inferInstanceAs (Decidable ((∀ n ∈ s.heap.contents,
      Agrees (now + timeout.toNat) (s.deadline n)) ∧
        ∀ f ∈ s.frames, Agrees (now + timeout.toNat) f.cur))
  | .tick now => inferInstanceAs (Decidable (s.frames = [] ∧
      ∀ n ∈ s.heap.contents, Agrees (s.deadline n) now))
  | .del _ => .isTrue trivial
  | .advance => .isTrue trivial

def Timers.running (s : Timers) : Option Nat :=
  match s.frames with
  | .calling _ :: _ => s.heap.timeHeapTop
  | _ => none

structure TimersInv (s : Timers) (xs : List Nat) : Prop where
  rep : Rep s.heap xs
  expire : ∀ n ∈ xs, s.heap.expire n = BitVec.ofNat 32 (s.deadline n)
  agrees : ∀ m ∈ xs, ∀ n ∈ xs, Agrees (s.deadline m) (s.deadline n)
  single : s.frames.length ≤ 1
  ticking : ∀ f ∈ s.frames, f.cur ≤ s.clock ∧ ∀ n ∈ xs, Agrees (s.deadline n) f.cur
  due : ∀ cur, .calling cur ∈ s.frames → ∃ n, xs.head? = some n ∧ s.deadline n ≤ cur
  known : ∀ n ∈ xs, deadlineOf n s.log = some (s.deadline n)
  fresh : ∀ n, s.heap.made ≤ n → deadlineOf n s.log = none
  armed : ∀ n, armed n s.log = true ↔
    n ∈ xs ∧ (s.heap.node n).cb.isSome = true ∧ s.running ≠ some n
  past : ∀ m cur d, .fired m cur ∈ s.log → deadlineOf m s.log = some d →
    d ≤ s.clock ∧ ∀ n ∈ xs, d ≤ s.deadline n
  firedMade : ∀ m cur, .fired m cur ∈ s.log → m < s.heap.made
  punctual : Punctual s.log

theorem timers_inv_init : TimersInv Timers.init [] where
  rep := rep_init
  expire _ h := by cases h
  agrees _ h := by cases h
  single := Nat.zero_le _
  ticking _ h := by cases h
  due _ h := by cases h
  known _ h := by cases h
  fresh _ _ := rfl
  armed n := by simp [Timers.init, armed]
  past _ _ _ h := by cases h
  firedMade _ _ h := by cases h
  punctual := trivial

theorem ofNat_le_iff (a b : Nat) :
    BitVec.ofNat 32 a ≤ BitVec.ofNat 32 b ↔ a % 2 ^ 32 ≤ b % 2 ^ 32 := by
  rw [BitVec.le_def, BitVec.toNat_ofNat, BitVec.toNat_ofNat]

theorem minheapNodeInit_expire (now : Nat) (cb : Option Nat) (args : Nat) (timeout : BitVec 32) :
    (TimeHeap.minheapNodeInit (BitVec.ofNat 64 now) cb args timeout).expire =
      BitVec.ofNat 32 (now + timeout.toNat) := by
  apply BitVec.eq_of_toNat_eq
  simp only [TimeHeap.minheapNodeInit, BitVec.toNat_setWidth, BitVec.toNat_add,
    BitVec.toNat_ofNat]
  omega

namespace TimersInv

variable {s t : Timers} {xs : List Nat}

theorem head_le (h : TimersInv s xs) {n : Nat} (hn : xs.head? = some n) :
    ∀ m ∈ xs, s.deadline n ≤ s.deadline m := by
  intro m hm
  obtain ⟨ys, rfl⟩ := List.head?_eq_some_iff.mp hn
  have hle := h.rep.ordered.head_le m hm
  rw [h.expire n List.mem_cons_self, h.expire m hm, ofNat_le_iff] at hle
  exact (h.agrees n List.mem_cons_self m hm).1.mp hle

theorem contents (h : TimersInv s xs) : s.heap.contents = xs := h.rep.contents

theorem running_eq (h : TimersInv s xs) :
    s.running = match s.frames with
      | .calling _ :: _ => xs.head?
      | _ => none := by
  rw [Timers.running]
  split
  · exact h.rep.timeHeapTop
  · rfl

/-- There is no other call of `time_heap_tick`. -/
theorem frames_eq (h : TimersInv s xs) {f : Frame} (hf : f ∈ s.frames) : s.frames = [f] := by
  have hlen := h.single
  cases hs : s.frames with
  | nil => simp [hs] at hf
  | cons g gs =>
    cases gs with
    | nil =>
      simp only [hs, List.mem_singleton] at hf
      rw [hf]
    | cons g' gs => simp [hs] at hlen

theorem running_due (h : TimersInv s xs) {n : Nat} (hn : s.running = some n) :
    xs.head? = some n ∧ s.deadline n ≤ s.clock := by
  rw [h.running_eq] at hn
  split at hn
  · next cur frames hframes =>
    have hin : .calling cur ∈ s.frames := by rw [hframes]; exact List.mem_cons_self
    obtain ⟨m, hm, hle⟩ := h.due cur hin
    rw [hn, Option.some.injEq] at hm
    exact ⟨hn, hm ▸ Nat.le_trans hle (h.ticking _ hin).1⟩
  · cases hn

theorem add (h : TimersInv s xs) {now : Nat} {cb : Option Nat} {args : Nat} {timeout : BitVec 32}
    (hclock : s.clock ≤ now) (hc : comparable s (.add now cb args timeout))
    (hadd : s.add now cb args timeout = some t) : ∃ xs', TimersInv t xs' := by
  obtain ⟨hcomp, hframes⟩ := hc
  rw [h.contents] at hcomp
  obtain ⟨r, hr, rfl⟩ := Option.map_eq_some_iff.mp hadd
  obtain ⟨hn, hmade, hnode, -, xs', hrep, hperm, htop⟩ := h.rep.timeHeapAddTimer hr
  generalize hD : now + timeout.toNat = D at hcomp hframes
  have hfresh : s.heap.made ∉ xs := fun hin => Nat.lt_irrefl _ (h.rep.made _ hin)
  have hmem : ∀ n, n ∈ xs' ↔ n = s.heap.made ∨ n ∈ xs :=
    fun n => hperm.mem_iff.trans List.mem_cons
  have hne : ∀ n ∈ xs, n ≠ s.heap.made := by
    rintro n hin rfl
    exact hfresh hin
  have hnew : r.2.1.expire s.heap.made = BitVec.ofNat 32 D := by
    rw [TimeHeap.expire, hnode, Function.update_self, minheapNodeInit_expire, hD]
  have hold : ∀ n ∈ xs, r.2.1.expire n = s.heap.expire n := by
    intro n hin
    rw [TimeHeap.expire, hnode, Function.update_of_ne (hne n hin)]
    rfl
  have hdead : ∀ n ∈ xs, Function.update s.deadline r.1 D n = s.deadline n := by
    intro n hin
    rw [hn, Function.update_of_ne (hne n hin)]
  have hdeadNew : Function.update s.deadline r.1 D s.heap.made = D := by
    rw [hn, Function.update_self]
  -- the node on top stays there while its callback runs
  have hhead : ∀ n, s.running = some n → xs'.head? = some n := by
    intro n hrun
    obtain ⟨hin, hle⟩ := h.running_due hrun
    refine htop n hin ?_
    have hmem' : n ∈ xs := List.mem_of_mem_head? hin
    rw [hnew, h.expire n hmem', ofNat_le_iff]
    exact (hcomp n hmem').2.mpr (by omega)
  have hrunning : Timers.running { s with
      heap := r.2.1, clock := now, deadline := Function.update s.deadline r.1 D
      log := .added r.1 cb D :: s.log } = s.running := by
    have hrun := h.running_eq
    rw [Timers.running]
    dsimp only
    split
    · next cur frames hf =>
      rw [hf] at hrun
      dsimp only at hrun
      have hin : .calling cur ∈ s.frames := by rw [hf]; exact List.mem_cons_self
      obtain ⟨n, hxs, -⟩ := h.due cur hin
      rw [hxs] at hrun
      rw [hrun, hrep.timeHeapTop]
      exact hhead n hrun
    · next hno =>
      rw [hrun]
      split
      · next cur frames hf => exact absurd hf (hno cur frames)
      · rfl
  refine ⟨xs', hrep, fun n hin => ?_, fun m hm n hin => ?_, h.single, fun f hf => ?_,
    fun cur hcur => ?_, fun n hin => ?_, fun n hle => ?_, fun n => ?_, fun m cur d hm hd => ?_,
    fun m cur hm => ?_, h.punctual⟩
  · dsimp only
    rcases (hmem n).mp hin with rfl | hin
    · rw [hnew, hdeadNew]
    · rw [hold n hin, hdead n hin]
      exact h.expire n hin
  · dsimp only
    rcases (hmem m).mp hm with rfl | hm
    · rcases (hmem n).mp hin with rfl | hin
      · exact ⟨by simp, by simp⟩
      · rw [hdeadNew, hdead n hin]
        exact hcomp n hin
    · rcases (hmem n).mp hin with rfl | hin
      · rw [hdeadNew, hdead m hm]
        exact (hcomp m hm).symm
      · rw [hdead m hm, hdead n hin]
        exact h.agrees m hm n hin
  · obtain ⟨hle, hag⟩ := h.ticking f hf
    refine ⟨Nat.le_trans hle hclock, fun n hin => ?_⟩
    dsimp only
    rcases (hmem n).mp hin with rfl | hin
    · rw [hdeadNew]
      exact hframes f hf
    · rw [hdead n hin]
      exact hag n hin
  · obtain ⟨n, hxs, hle⟩ := h.due cur hcur
    have hin : n ∈ xs := List.mem_of_mem_head? hxs
    refine ⟨n, hhead n ?_, ?_⟩
    · rw [h.running_eq, h.frames_eq hcur]
      exact hxs
    · dsimp only
      rw [hdead n hin]
      exact hle
  · dsimp only
    rw [deadlineOf, hn]
    rcases (hmem n).mp hin with rfl | hin
    · rw [if_pos rfl, Function.update_self]
    · rw [if_neg (Ne.symm (hne n hin)), Function.update_of_ne (hne n hin)]
      exact h.known n hin
  · dsimp only at hle ⊢
    rw [hmade] at hle
    rw [deadlineOf, hn, if_neg (by omega)]
    exact h.fresh n (by omega)
  · rw [hrunning]
    dsimp only
    rw [MinHeap.armed, hn, hnode]
    by_cases hnm : s.heap.made = n
    · subst hnm
      rw [if_pos rfl, Function.update_self]
      have hrun : s.running ≠ some s.heap.made := fun he =>
        hfresh (List.mem_of_mem_head? (h.running_due he).1)
      simp [hmem, hrun, TimeHeap.minheapNodeInit]
    · rw [if_neg hnm, Function.update_of_ne (Ne.symm hnm), h.armed n]
      simp [hmem, Ne.symm hnm]
  · have hm' : .fired m cur ∈ s.log := by simpa using hm
    have hlt := h.firedMade m cur hm'
    dsimp only at hd ⊢
    rw [deadlineOf, hn, if_neg (by omega)] at hd
    obtain ⟨hle, hall⟩ := h.past m cur d hm' hd
    refine ⟨Nat.le_trans hle hclock, fun n hin => ?_⟩
    rcases (hmem n).mp hin with rfl | hin
    · rw [hdeadNew]
      omega
    · rw [hdead n hin]
      exact hall n hin
  · have hm' : .fired m cur ∈ s.log := by simpa using hm
    have hlt := h.firedMade m cur hm'
    dsimp only
    omega

theorem del (h : TimersInv s xs) {n : Nat} (hn : n ∈ xs) :
    TimersInv { s with heap := s.heap.timeHeapDelTimer n, log := .deleted n :: s.log } xs := by
  have hexpire : ∀ m, (s.heap.timeHeapDelTimer n).expire m = s.heap.expire m := by
    intro m
    simp only [TimeHeap.expire, TimeHeap.timeHeapDelTimer, Function.update_apply]
    split
    · next hm => rw [hm]
    · rfl
  have hrep := h.rep.timeHeapDelTimer n
  have hrunning : Timers.running { s with
      heap := s.heap.timeHeapDelTimer n, log := .deleted n :: s.log } = s.running := rfl
  refine ⟨hrep, fun m hm => (hexpire m).trans (h.expire m hm), h.agrees, h.single, h.ticking, h.due,
    h.known, h.fresh, fun m => ?_, fun m cur d hm hd => ?_, fun m cur hm => ?_, h.punctual⟩
  · rw [hrunning]
    simp only [MinHeap.armed, Bool.and_eq_true, decide_eq_true_eq, h.armed m]
    by_cases hmn : m = n
    · subst hmn
      simp [TimeHeap.timeHeapDelTimer]
    · simp [TimeHeap.timeHeapDelTimer, hmn, Ne.symm hmn]
  · exact h.past m cur d (by simpa using hm) hd
  · exact h.firedMade m cur (by simpa using hm)

theorem tick (h : TimersInv s xs) {now : Nat} (hclock : s.clock ≤ now)
    (hc : comparable s (.tick now)) :
    TimersInv { s with frames := .looping now :: s.frames, clock := now } xs := by
  obtain ⟨hframes, hcomp⟩ := hc
  rw [h.contents] at hcomp
  refine ⟨h.rep, h.expire, h.agrees, ?_, fun f hf => ?_, fun cur hcur => ?_, h.known, h.fresh,
    fun n => ?_, fun m cur d hm hd => ?_, h.firedMade, h.punctual⟩
  · rw [hframes]
    exact Nat.le_refl 1
  · rw [hframes, List.mem_singleton] at hf
    subst hf
    exact ⟨Nat.le_refl _, hcomp⟩
  · rw [hframes, List.mem_singleton] at hcur
    cases hcur
  · rw [h.armed n, Timers.running, hframes]
    exact Iff.rfl
  · obtain ⟨hle, hall⟩ := h.past m cur d hm hd
    exact ⟨Nat.le_trans hle hclock, hall⟩

theorem pop (h : TimersInv s xs) {f : Frame} (f' : Frame) (hf : s.frames = [f]) (hcur : f'.cur = f.cur)
    (hlooping : ∀ cur, f' ≠ .calling cur) {n : Nat} (hn : xs.head? = some n)
    (hdone : (s.heap.node n).cb = none ∨ s.running = some n) (hrun : ∀ m, s.running = some m → m = n)
    {r : TimeHeap × List Nat} (hpop : s.heap.popTimer = some r) :
    ∃ xs', TimersInv { s with heap := r.1, frames := [f'] } xs' := by
  obtain ⟨ys, rfl⟩ := List.head?_eq_some_iff.mp hn
  obtain ⟨h', seen, hpop', hrep, hnode, hmade, -⟩ := h.rep.popTimer
  rw [hpop', Option.some.injEq] at hpop
  subst hpop
  have hperm : (Heap.pop s.heap.expire (n :: ys)).Perm ys := Heap.pop_perm n ys
  have hnot := (List.nodup_cons.mp h.rep.nodup).1
  have hsub : ∀ m ∈ Heap.pop s.heap.expire (n :: ys), m ∈ n :: ys :=
    fun m hm => List.mem_cons_of_mem _ (hperm.mem_iff.mp hm)
  have hrunning : Timers.running { s with heap := h', frames := [f'] } = none := by
    rw [Timers.running]
    dsimp only
    split
    · next cur frames he =>
      cases he
      exact absurd rfl (hlooping cur)
    · rfl
  refine ⟨_, hrep, fun m hm => ?_, fun m hm k hk => h.agrees m (hsub m hm) k (hsub k hk),
    Nat.le_refl 1, fun g hg => ?_, fun cur hcalling => ?_, fun m hm => h.known m (hsub m hm),
    fun m hm => h.fresh m (hmade ▸ hm), fun m => ?_, fun m cur d hm hd => ?_,
    fun m cur hm => hmade ▸ h.firedMade m cur hm, h.punctual⟩
  · rw [TimeHeap.expire, hnode]
    exact h.expire m (hsub m hm)
  · rw [List.mem_singleton] at hg
    subst hg
    obtain ⟨hle, hag⟩ := h.ticking f (by rw [hf]; exact List.mem_cons_self)
    rw [hcur]
    exact ⟨hle, fun m hm => hag m (hsub m hm)⟩
  · rw [List.mem_singleton] at hcalling
    exact absurd hcalling.symm (hlooping cur)
  · rw [hrunning, h.armed m, hnode, hperm.mem_iff, List.mem_cons]
    constructor
    · rintro ⟨rfl | hm, hcb, hne⟩
      · rcases hdone with hcb' | hrun'
        · rw [hcb'] at hcb
          cases hcb
        · exact absurd hrun' hne
      · exact ⟨hm, hcb, by simp⟩
    · rintro ⟨hm, hcb, -⟩
      refine ⟨Or.inr hm, hcb, fun hr => ?_⟩
      rw [hrun m hr] at hm
      exact hnot hm
  · obtain ⟨hle, hall⟩ := h.past m cur d hm hd
    exact ⟨hle, fun k hk => hall k (hsub k hk)⟩

theorem done (h : TimersInv s xs) {cur : Nat} {frames : List Frame}
    (hf : s.frames = .looping cur :: frames)
    (hlate : ∀ n, xs.head? = some n → s.heap.expire n > BitVec.ofNat 32 cur) :
    TimersInv { s with frames := frames, log := .returned cur :: s.log } xs := by
  have hin : Frame.looping cur ∈ s.frames := by rw [hf]; exact List.mem_cons_self
  have hnil : frames = [] := by
    have heq := h.frames_eq hin
    rw [hf] at heq
    exact (List.cons.inj heq).2
  subst hnil
  have hidle : s.running = none := by rw [Timers.running, hf]
  have hafter : ∀ n ∈ xs, cur < s.deadline n := by
    intro n hn
    cases hxs : xs with
    | nil => simp [hxs] at hn
    | cons m ys =>
      have hm : xs.head? = some m := by rw [hxs, List.head?_cons]
      have hmem : m ∈ xs := List.mem_of_mem_head? hm
      have hgt := hlate m hm
      rw [gt_iff_lt, ← Std.not_le, h.expire m hmem, ofNat_le_iff] at hgt
      have hag := ((h.ticking _ hin).2 m hmem).1
      have hlt : ¬ s.deadline m ≤ cur := fun hle => hgt (hag.mpr hle)
      have := h.head_le hm n hn
      omega
  refine ⟨h.rep, h.expire, h.agrees, Nat.zero_le _, fun f hf => absurd hf List.not_mem_nil,
    fun cur hcur => absurd hcur List.not_mem_nil, h.known, h.fresh, fun n => ?_,
    fun m cur d hm hd => h.past m cur d (by simpa using hm) hd,
    fun m cur hm => h.firedMade m cur (by simpa using hm), fun n d ha hd => ?_, h.punctual⟩
  · rw [MinHeap.armed, h.armed n, hidle]
    exact Iff.rfl
  · have hn := ((h.armed n).mp ha).1
    rw [h.known n hn, Option.some.injEq] at hd
    exact hd ▸ hafter n hn

theorem fire (h : TimersInv s xs) {cur n : Nat} {frames : List Frame}
    (hf : s.frames = .looping cur :: frames) (hn : xs.head? = some n)
    (hdue : ¬ s.heap.expire n > BitVec.ofNat 32 cur) (hcb : (s.heap.node n).cb.isSome = true) :
    TimersInv { s with frames := .calling cur :: frames, log := .fired n cur :: s.log } xs := by
  have hin : Frame.looping cur ∈ s.frames := by rw [hf]; exact List.mem_cons_self
  have hnil : frames = [] := by
    have heq := h.frames_eq hin
    rw [hf] at heq
    exact (List.cons.inj heq).2
  subst hnil
  have hmem : n ∈ xs := List.mem_of_mem_head? hn
  have hidle : s.running = none := by rw [Timers.running, hf]
  obtain ⟨hclock, hag⟩ := h.ticking _ hin
  have hle : s.deadline n ≤ cur := by
    rw [gt_iff_lt, Std.not_lt, h.expire n hmem, ofNat_le_iff] at hdue
    exact (hag n hmem).1.mp hdue
  have hrunning : Timers.running { s with
      frames := [.calling cur], log := .fired n cur :: s.log } = some n :=
    h.rep.timeHeapTop.trans hn
  have harmed : MinHeap.armed n s.log = true := by
    rw [h.armed n, hidle]
    exact ⟨hmem, hcb, by simp⟩
  refine ⟨h.rep, h.expire, h.agrees, Nat.le_refl 1, fun f hf => ?_, fun c hc => ?_, h.known,
    h.fresh, fun m => ?_, fun m c d hm hd => ?_, fun m c hm => ?_,
    ⟨harmed, s.deadline n, h.known n hmem, hle, fun m c d hm hd => ?_⟩, h.punctual⟩
  · rw [List.mem_singleton] at hf
    subst hf
    exact ⟨hclock, hag⟩
  · rw [List.mem_singleton] at hc
    cases hc
    exact ⟨n, hn, hle⟩
  · rw [hrunning, MinHeap.armed, Bool.and_eq_true, decide_eq_true_eq, h.armed m, hidle]
    simp only [ne_eq, Option.some.injEq, reduceCtorEq, not_false_eq_true, and_true]
    exact ⟨fun ⟨hne, hm, hcb⟩ => ⟨hm, hcb, fun he => hne he⟩,
      fun ⟨hm, hcb, hne⟩ => ⟨fun he => hne he, hm, hcb⟩⟩
  · simp only [deadlineOf] at hd
    rcases List.mem_cons.mp hm with hm | hm
    · cases hm
      rw [h.known n hmem, Option.some.injEq] at hd
      subst hd
      exact ⟨Nat.le_trans hle hclock, h.head_le hn⟩
    · exact h.past m c d hm hd
  · rcases List.mem_cons.mp hm with hm | hm
    · cases hm
      exact h.rep.made n hmem
    · exact h.firedMade m c hm
  · exact (h.past m c d hm hd).2 n hmem

theorem advance (h : TimersInv s xs) (hstep : s.advance = some t) : ∃ xs', TimersInv t xs' := by
  rw [Timers.advance] at hstep
  split at hstep
  · cases hstep
  · next cur frames hf =>
    rw [h.rep.timeHeapTop] at hstep
    have hin : Frame.looping cur ∈ s.frames := by rw [hf]; exact List.mem_cons_self
    split at hstep
    · next hnone =>
      cases hstep
      exact ⟨xs, h.done hf (fun n hn => by rw [hnone] at hn; cases hn)⟩
    · next n hn =>
      split at hstep
      · next hlate =>
        cases hstep
        refine ⟨xs, h.done hf (fun m hm => ?_)⟩
        rw [hn, Option.some.injEq] at hm
        exact hm ▸ hlate
      · next hdue =>
        split at hstep
        · next hcb =>
          cases hstep
          exact ⟨xs, h.fire hf hn hdue hcb⟩
        · next hcb =>
          obtain ⟨r, hr, rfl⟩ := Option.map_eq_some_iff.mp hstep
          have hidle : s.running = none := by rw [Timers.running, hf]
          have hpop := h.pop (.looping cur) (h.frames_eq hin) rfl (by simp) hn
            (Or.inl (by simpa using hcb)) (fun m hm => by rw [hidle] at hm; cases hm) hr
          rwa [← h.frames_eq hin] at hpop
  · next cur frames hf =>
    obtain ⟨r, hr, rfl⟩ := Option.map_eq_some_iff.mp hstep
    have hin : Frame.calling cur ∈ s.frames := by rw [hf]; exact List.mem_cons_self
    have hnil : frames = [] := by
      have heq := h.frames_eq hin
      rw [hf] at heq
      exact (List.cons.inj heq).2
    subst hnil
    obtain ⟨n, hn, -⟩ := h.due cur hin
    have hrun : s.running = some n := by
      rw [h.running_eq, hf]
      exact hn
    exact h.pop (.looping cur) hf rfl (by simp) hn (Or.inr hrun)
      (fun m hm => by rw [hrun, Option.some.injEq] at hm; exact hm.symm) hr

theorem step (h : TimersInv s xs) {a : TimerAct} (hc : comparable s a)
    (hstep : timerStep s a = some t) : ∃ xs', TimersInv t xs' := by
  cases a with
  | add now cb args timeout =>
    simp only [timerStep, Option.ite_none_right_eq_some, Bool.and_eq_true, decide_eq_true_eq]
      at hstep
    exact h.add hstep.1.1.2 hc hstep.2
  | del n =>
    simp only [timerStep, Option.ite_none_right_eq_some, Bool.and_eq_true,
      List.contains_iff_mem, h.contents, Option.some.injEq] at hstep
    rw [← hstep.2]
    exact ⟨xs, h.del hstep.1.2⟩
  | tick now =>
    simp only [timerStep, Option.ite_none_right_eq_some, Bool.and_eq_true, decide_eq_true_eq,
      Option.some.injEq] at hstep
    rw [← hstep.2]
    exact ⟨xs, h.tick hstep.1.1.2 hc⟩
  | advance => exact h.advance hstep

/-- A call of `time_heap_tick` never uses a null pointer. -/
theorem advance_isSome (h : TimersInv s xs) (hf : s.frames ≠ []) : s.advance.isSome = true := by
  cases hframes : s.frames with
  | nil => exact absurd hframes hf
  | cons f frames =>
    cases hxs : xs with
    | nil =>
      cases f with
      | looping cur =>
        have htop := h.rep.timeHeapTop
        rw [hxs, List.head?_nil] at htop
        simp [Timers.advance, hframes, htop]
      | calling cur =>
        obtain ⟨n, hn, -⟩ := h.due cur (by rw [hframes]; exact List.mem_cons_self)
        simp [hxs] at hn
    | cons n ys =>
      subst hxs
      obtain ⟨h', seen, hpop, -⟩ := h.rep.popTimer
      cases f with
      | looping cur =>
        rw [Timers.advance, hframes, h.rep.timeHeapTop, List.head?_cons, hpop]
        dsimp only
        split
        · rfl
        · split <;> rfl
      | calling cur =>
        rw [Timers.advance, hframes, hpop]
        rfl

end TimersInv

theorem timers_inv_of_run {as : List TimerAct} {s : Timers}
    (hc : Run.Meets timerStep comparable Timers.init as)
    (h : Run.run timerStep Timers.init as = some s) : ∃ xs, TimersInv s xs :=
  Run.run_invariant_of_meets (p := fun s => ∃ xs, TimersInv s xs)
    (fun _ _ _ ⟨_, hs⟩ hc hstep => hs.step hc hstep) ⟨[], timers_inv_init⟩ hc h

/-- In every run in which the low halves of the deadlines and of the clock compare like the numbers
and no callback calls `time_heap_tick`, the timers are punctual. -/
theorem time_heap_punctual (as : List TimerAct) (s : Timers)
    (hc : Run.Meets timerStep comparable Timers.init as)
    (h : Run.run timerStep Timers.init as = some s) :
    Punctual s.log ∧ (s.frames ≠ [] → (timerStep s .advance).isSome = true) := by
  obtain ⟨xs, hinv⟩ := timers_inv_of_run hc h
  exact ⟨hinv.punctual, hinv.advance_isSome⟩

/-- Two timers past the first wrap of the expiry; the callback of the first adds a third. -/
def firingTimers : List TimerAct :=
  [.add (2 ^ 32 + 10) (some 1) 0 5#32, .add (2 ^ 32 + 10) (some 1) 0 9#32, .tick (2 ^ 32 + 16),
    .advance, .add (2 ^ 32 + 16) (some 1) 0 0#32, .advance, .advance, .advance, .advance,
    .tick (2 ^ 32 + 20), .advance, .advance, .advance]

theorem time_heap_punctual_fires :
    ∃ s, Run.run timerStep Timers.init firingTimers = some s ∧
      s.log.filter (fun e => e matches .fired ..) =
        [.fired 1 (2 ^ 32 + 20), .fired 2 (2 ^ 32 + 16), .fired 0 (2 ^ 32 + 16)] ∧
      Punctual s.log := by
  have hrun : (Run.run timerStep Timers.init firingTimers).map
      (fun s => s.log.filter (fun e => e matches .fired ..)) =
        some [.fired 1 (2 ^ 32 + 20), .fired 2 (2 ^ 32 + 16), .fired 0 (2 ^ 32 + 16)] := by
    decide +kernel
  obtain ⟨s, hs, hlog⟩ := Option.map_eq_some_iff.mp hrun
  exact ⟨s, hs, hlog, (time_heap_punctual _ s (by decide +kernel) hs).1⟩

/-- A deadline behind the wrap of the expiry is met a millisecond early. -/
theorem time_heap_wraps_early :
    ∃ s, Run.run timerStep Timers.init
        [.add (2 ^ 32 - 1) (some 1) 0 1#32, .tick (2 ^ 32 - 1), .advance] = some s ∧
      ¬ Punctual s.log := by
  have hrun : (Run.run timerStep Timers.init
      [.add (2 ^ 32 - 1) (some 1) 0 1#32, .tick (2 ^ 32 - 1), .advance]).map Timers.log =
      some [.fired 0 (2 ^ 32 - 1), .added 0 (some 1) (2 ^ 32)] := by
    decide +kernel
  obtain ⟨s, hs, hlog⟩ := Option.map_eq_some_iff.mp hrun
  refine ⟨s, hs, fun hp => ?_⟩
  rw [hlog] at hp
  obtain ⟨⟨-, d, hd, hle, -⟩, -⟩ := hp
  simp only [deadlineOf, if_true, Option.some.injEq] at hd
  omega

end AlgorithmLib.MinHeap
