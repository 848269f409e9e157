import AlgorithmLib.MinHeap.Tick

/-!
One call of `time_heap_tick` whose callbacks add and delete timers. A callback runs while its node
is on top of the heap; what it adds expires later than the reading of the clock at the start, so
the node stays on top until it is popped.
-/

set_option autoImplicit false

namespace AlgorithmLib.MinHeap

/-- What a call of `time_heap_tick` does, and its callbacks. -/
inductive TickEvent where
  /-- the loop has found the node on top, and due; whether it has a callback, which is called -/
  | turn (n : Nat) (called : Bool)
  | popped (n : Nat)
  | added (n : Nat)
  | deleted (n : Nat)
  deriving DecidableEq, Repr

/-- The nodes that `pop_timer` takes out of the heap. -/
def TimeHeap.taken (h : TimeHeap) : List Nat :=
  match h.popTimer with
  | none => []
  | some r => h.contents.filter (· ∉ r.1.contents)

def Timers.shows (s : Timers) : TimerAct → List TickEvent
  | .add .. => [.added s.heap.made]
  | .del n => [.deleted n]
  | .tick _ => []
  | .advance =>
    match s.frames with
    | [] => []
    | .looping cur :: _ =>
      match s.heap.timeHeapTop with
      | none => []
      | some n =>
        if s.heap.expire n > BitVec.ofNat 32 cur then []
        else if (s.heap.node n).cb.isSome then [.turn n true]
        else .turn n false :: s.heap.taken.map .popped
    | .calling _ :: _ => s.heap.taken.map .popped

def TickEvent.turnOf : TickEvent → Option Nat
  | .turn n _ => some n
  | _ => none

def TickEvent.poppedOf : TickEvent → Option Nat
  | .popped n => some n
  | _ => none

def TickEvent.addedOf : TickEvent → Option Nat
  | .added n => some n
  | _ => none

/-- The nodes whose turn it was, in order. -/
def turns (trace : List TickEvent) : List Nat := trace.filterMap TickEvent.turnOf

def popped (trace : List TickEvent) : List Nat := trace.filterMap TickEvent.poppedOf

def added (trace : List TickEvent) : List Nat := trace.filterMap TickEvent.addedOf

/-- A callback may add timers with a positive timeout whose expiry does not wrap after the reading
of the clock at the start, and delete any timer; it does not call `time_heap_tick`. -/
def callbackMay (start : Nat) : TimerAct → Prop
  | .add now _ _ timeout =>
    1 ≤ timeout.toNat ∧ (now + timeout.toNat) / 2 ^ 32 = start / 2 ^ 32
  | .tick _ => False
  | _ => True

instance (start : Nat) : ∀ a, Decidable (callbackMay start a)
  | .add now _ _ timeout => inferInstanceAs (Decidable
      (1 ≤ timeout.toNat ∧ (now + timeout.toNat) / 2 ^ 32 = start / 2 ^ 32))
  | .del _ => .isTrue trivial
  | .tick _ => .isFalse id
  | .advance => .isTrue trivial

/-- What a turn and a pop say about what was before: a node has a callback at its turn if it had one
at the start and was not deleted since, and what is popped is the node whose turn it is. -/
def InTurn (h : TimeHeap) (before : List TickEvent) : TickEvent → Prop
  | .turn n called => called = true ↔ (h.node n).cb.isSome = true ∧ .deleted n ∉ before
  | .popped n => turns before = popped before ++ [n]
  | _ => True

/-- The timers of the heap that are due at this reading of the clock. -/
def dueNodes (h : TimeHeap) (start : Nat) : List Nat :=
  h.contents.filter (fun n => h.expire n ≤ BitVec.ofNat 32 start)

/-- What a call of `time_heap_tick` has done to the heap it started with. -/
structure Ticked (h : TimeHeap) (start : Nat) (trace : List TickEvent) (t : Timers) : Prop where
  inTurn : Run.Traced (InTurn h) trace
  /-- only timers that are due get their turn, once, and in the order of their expiries -/
  due : ∀ n ∈ turns trace, n ∈ dueNodes h start
  once : (turns trace).Nodup
  sorted : (turns trace).Pairwise (fun m n => h.expire m ≤ h.expire n)
  /-- a timer that was added stays in the heap and gets no turn -/
  kept : ∀ n ∈ added trace, n ∈ t.heap.contents ∧ n ∉ turns trace
  /-- when the call has returned, all of them had their turn and left, and the others are there -/
  returned : t.frames = [] → (turns trace).Perm (dueNodes h start) ∧ popped trace = turns trace ∧
    t.heap.contents.Perm
      (h.contents.filter (fun n => ¬ h.expire n ≤ BitVec.ofNat 32 start) ++ added trace)

def cbAfter (h : TimeHeap) (shown : List TickEvent) (n : Nat) : Option Nat :=
  if .deleted n ∈ shown then none else (h.node n).cb

/-- In the middle of a call: `ys` is the heap, and `rest` what is left of the heap at the start. -/
structure Ticking (h : TimeHeap) (start : Nat) (s : Timers) (shown : List TickEvent)
    (ys rest : List Nat) : Prop where
  rep : Rep s.heap ys
  perm : ys.Perm (rest ++ added shown)
  split : (popped shown ++ rest).Perm h.contents
  clock : start ≤ s.clock
  made : h.made ≤ s.heap.made
  expire : ∀ n, n < h.made → s.heap.expire n = h.expire n
  cb : ∀ n, n < h.made → (s.heap.node n).cb = cbAfter h shown n
  later : ∀ n ∈ added shown, h.made ≤ n ∧ BitVec.ofNat 32 start < s.heap.expire n
  sorted : (popped shown).Pairwise (fun m n => h.expire m ≤ h.expire n)
  before : ∀ m ∈ popped shown, h.expire m ≤ BitVec.ofNat 32 start ∧
    ∀ n ∈ rest, h.expire m ≤ h.expire n
  inTurn : Run.Traced (InTurn h) shown
  frames :
    s.frames = [] ∧ turns shown = popped shown ∧ (∀ n ∈ rest, BitVec.ofNat 32 start < h.expire n) ∨
    s.frames = [.looping start] ∧ turns shown = popped shown ∨
    s.frames = [.calling start] ∧ ∃ n ∈ rest, ys.head? = some n ∧
      h.expire n ≤ BitVec.ofNat 32 start ∧ turns shown = popped shown ++ [n]

def Timers.stepsLeft (s : Timers) (start : Nat) : Nat :=
  let due := s.heap.contents.countP (fun n => s.heap.expire n ≤ BitVec.ofNat 32 start)
  match s.frames with
  | [] => 0
  | .looping _ :: _ => 2 * due + 1
  | .calling _ :: _ => 2 * due

namespace Ticking

variable {h : TimeHeap} {xs ys rest : List Nat} {start : Nat} {s t : Timers}
  {shown : List TickEvent}

theorem lt_made (hi : Ticking h start s shown ys rest) (hx : Rep h xs) {n : Nat}
    (hn : n ∈ rest) : n < h.made := by
  have hmem := hi.split.mem_iff.mp (List.mem_append_right _ hn)
  rw [hx.contents] at hmem
  exact hx.made n hmem

theorem mem_rest (hi : Ticking h start s shown ys rest) {n : Nat} (hn : n ∈ ys)
    (hdue : s.heap.expire n ≤ BitVec.ofNat 32 start) : n ∈ rest := by
  rcases List.mem_append.mp (hi.perm.mem_iff.mp hn) with hrest | hadded
  · exact hrest
  · exact absurd hdue (Std.not_le.mpr (hi.later n hadded).2)

theorem mem_ys (hi : Ticking h start s shown ys rest) {n : Nat} (hn : n ∈ rest) : n ∈ ys :=
  hi.perm.mem_iff.mpr (List.mem_append_left _ hn)

theorem head_le (hi : Ticking h start s shown ys rest) {n : Nat} (hn : ys.head? = some n) :
    ∀ m ∈ ys, s.heap.expire n ≤ s.heap.expire m := by
  obtain ⟨zs, rfl⟩ := List.head?_eq_some_iff.mp hn
  exact fun m hm => hi.rep.ordered.head_le m hm

theorem start_of (hx : Rep h xs) {clock : Nat} (deadline : Nat → Nat) (log : List TimerEvent)
    (hclock : start ≤ clock) :
    Ticking h start
      { heap := h, frames := [.looping start], clock := clock, deadline := deadline, log := log } []
      xs xs where
  rep := hx
  perm := by simp [added]
  split := by simp [popped, hx.contents]
  clock := hclock
  made := Nat.le_refl _
  expire _ _ := rfl
  cb _ _ := by simp [cbAfter]
  later _ hn := by simp [added] at hn
  sorted := by simp [popped]
  before _ hm := by simp [popped] at hm
  inTurn := Run.traced_nil _
  frames := .inr (.inl ⟨rfl, rfl⟩)

theorem expire_later {now : Nat} {cb : Option Nat} {args : Nat} {timeout : BitVec 32}
    (hle : start ≤ now) (hmay : callbackMay start (.add now cb args timeout)) :
    BitVec.ofNat 32 start <
      (TimeHeap.minheapNodeInit (BitVec.ofNat 64 now) cb args timeout).expire := by
  obtain ⟨hpos, hdiv⟩ := hmay
  rw [minheapNodeInit_expire, BitVec.lt_def, BitVec.toNat_ofNat, BitVec.toNat_ofNat]
  omega

theorem add (hi : Ticking h start s shown ys rest) (hx : Rep h xs) {now : Nat} {cb : Option Nat}
    {args : Nat} {timeout : BitVec 32} (hclock : s.clock ≤ now)
    (hmay : callbackMay start (.add now cb args timeout))
    (hadd : s.add now cb args timeout = some t) :
    ∃ ys', Ticking h start t (shown ++ [.added s.heap.made]) ys' rest := by
  obtain ⟨r, hr, rfl⟩ := Option.map_eq_some_iff.mp hadd
  obtain ⟨hn, hmade, hnode, -, ys', hrep, hperm, htop⟩ := hi.rep.timeHeapAddTimer hr
  have hlater := expire_later (Nat.le_trans hi.clock hclock) hmay
  have hnew : r.2.1.expire s.heap.made =
      (TimeHeap.minheapNodeInit (BitVec.ofNat 64 now) cb args timeout).expire := by
    rw [TimeHeap.expire, hnode, Function.update_self]
  have hold : ∀ n, n ≠ s.heap.made → r.2.1.node n = s.heap.node n := by
    intro n hne
    rw [hnode, Function.update_of_ne hne]
  have hlt : ∀ n, n < h.made → n ≠ s.heap.made := by
    intro n hlt
    have := hi.made
    omega
  have hadded : added (shown ++ [.added s.heap.made]) = added shown ++ [s.heap.made] := by
    simp [added, TickEvent.addedOf]
  have hpopped : popped (shown ++ [.added s.heap.made]) = popped shown := by
    simp [popped, TickEvent.poppedOf]
  have hturns : turns (shown ++ [.added s.heap.made]) = turns shown := by
    simp [turns, TickEvent.turnOf]
  refine ⟨ys', hrep, ?_, ?_, Nat.le_trans hi.clock hclock, ?_, fun n hn => ?_, fun n hn => ?_,
    fun n hn => ?_, ?_, ?_, Run.traced_concat hi.inTurn trivial, ?_⟩
  · rw [hadded, ← List.append_assoc]
    exact hperm.trans ((hi.perm.cons _).trans (List.perm_append_singleton s.heap.made _).symm)
  · rw [hpopped]
    exact hi.split
  · exact hmade ▸ Nat.le_succ_of_le hi.made
  · rw [TimeHeap.expire, hold n (hlt n hn)]
    exact hi.expire n hn
  · rw [hold n (hlt n hn), hi.cb n hn]
    simp [cbAfter]
  · rw [hadded, List.mem_append, List.mem_singleton] at hn
    rcases hn with hn | rfl
    · obtain ⟨hle, hafter⟩ := hi.later n hn
      refine ⟨hle, ?_⟩
      have hne : n ≠ s.heap.made :=
        Nat.ne_of_lt (hi.rep.made n (hi.perm.mem_iff.mpr (List.mem_append_right _ hn)))
      rw [TimeHeap.expire, hold n hne]
      exact hafter
    · exact ⟨hi.made, hnew ▸ hlater⟩
  · rw [hpopped]
    exact hi.sorted
  · rw [hpopped]
    exact hi.before
  · rw [hpopped, hturns]
    rcases hi.frames with hdone | hlooping | ⟨hcalling, n, hn, hhead, hdue, hturn⟩
    · exact .inl hdone
    · exact .inr (.inl hlooping)
    · -- the running node expires earlier and stays on top
      refine .inr (.inr ⟨hcalling, n, hn, htop n hhead ?_, hdue, hturn⟩)
      rw [hi.expire n (hi.lt_made hx hn), hnew]
      exact Std.le_of_lt (Std.lt_of_le_of_lt hdue hlater)

theorem del (hi : Ticking h start s shown ys rest) (n : Nat) :
    Ticking h start { s with heap := s.heap.timeHeapDelTimer n, log := .deleted n :: s.log }
      (shown ++ [.deleted n]) ys rest := by
  have hexpire : ∀ m, (s.heap.timeHeapDelTimer n).expire m = s.heap.expire m := by
    intro m
    simp only [TimeHeap.expire, TimeHeap.timeHeapDelTimer, Function.update_apply]
    split
    · next hm => rw [hm]
    · rfl
  have hadded : added (shown ++ [.deleted n]) = added shown := by
    simp [added, TickEvent.addedOf]
  have hpopped : popped (shown ++ [.deleted n]) = popped shown := by
    simp [popped, TickEvent.poppedOf]
  have hturns : turns (shown ++ [.deleted n]) = turns shown := by
    simp [turns, TickEvent.turnOf]
  refine ⟨hi.rep.timeHeapDelTimer n, ?_, ?_, hi.clock, hi.made, fun m hm => ?_, fun m hm => ?_,
    fun m hm => ?_, ?_, ?_, Run.traced_concat hi.inTurn trivial, ?_⟩
  · rw [hadded]
    exact hi.perm
  · rw [hpopped]
    exact hi.split
  · rw [hexpire]
    exact hi.expire m hm
  · by_cases hmn : m = n
    · simp [hmn, TimeHeap.timeHeapDelTimer, cbAfter]
    · simp [hmn, TimeHeap.timeHeapDelTimer, cbAfter, hi.cb m hm]
  · rw [hadded] at hm
    rw [hexpire]
    exact hi.later m hm
  · rw [hpopped]
    exact hi.sorted
  · rw [hpopped]
    exact hi.before
  · rw [hpopped, hturns]
    exact hi.frames

theorem turn (hi : Ticking h start s shown ys rest) (hx : Rep h xs)
    (hf : s.frames = [.looping start]) {n : Nat} (hn : ys.head? = some n)
    (hdue : s.heap.expire n ≤ BitVec.ofNat 32 start) (log : List TimerEvent) :
    Ticking h start { s with frames := [.calling start], log := log }
      (shown ++ [.turn n (s.heap.node n).cb.isSome]) ys rest := by
  have hrest := hi.mem_rest (List.mem_of_mem_head? hn) hdue
  have hlt := hi.lt_made hx hrest
  have hadded : added (shown ++ [.turn n (s.heap.node n).cb.isSome]) = added shown := by
    simp [added, TickEvent.addedOf]
  have hpopped : popped (shown ++ [.turn n (s.heap.node n).cb.isSome]) = popped shown := by
    simp [popped, TickEvent.poppedOf]
  have hturns : turns (shown ++ [.turn n (s.heap.node n).cb.isSome]) = turns shown ++ [n] := by
    simp [turns, TickEvent.turnOf]
  have hturn : turns shown = popped shown := by
    rcases hi.frames with ⟨hnone, -⟩ | ⟨-, hturn⟩ | ⟨hcalling, -⟩
    · simp [hnone] at hf
    · exact hturn
    · simp [hcalling] at hf
  refine ⟨hi.rep, ?_, ?_, hi.clock, hi.made, hi.expire, fun m hm => ?_, fun m hm => ?_, ?_, ?_,
    Run.traced_concat hi.inTurn ?_, .inr (.inr ⟨rfl, n, hrest, hn, ?_, ?_⟩)⟩
  · rw [hadded]
    exact hi.perm
  · rw [hpopped]
    exact hi.split
  · rw [hi.cb m hm]
    simp [cbAfter]
  · rw [hadded] at hm
    exact hi.later m hm
  · rw [hpopped]
    exact hi.sorted
  · rw [hpopped]
    exact hi.before
  · show (s.heap.node n).cb.isSome = true ↔ _
    rw [hi.cb n hlt, cbAfter]
    split <;> simp [*]
  · rw [← hi.expire n hlt]
    exact hdue
  · rw [hturns, hpopped, hturn]

theorem pop (hi : Ticking h start s shown ys rest) (hx : Rep h xs)
    (hf : s.frames = [.calling start]) {r : TimeHeap × List Nat}
    (hpop : s.heap.popTimer = some r) :
    ∃ n ys', s.heap.taken = [n] ∧ n ∈ rest ∧ h.expire n ≤ BitVec.ofNat 32 start ∧
      Ticking h start { s with heap := r.1, frames := [.looping start] } (shown ++ [.popped n]) ys'
        (rest.erase n) := by
  obtain ⟨n, hrest, hn, hdue, hturn⟩ : ∃ n ∈ rest, ys.head? = some n ∧
      h.expire n ≤ BitVec.ofNat 32 start ∧ turns shown = popped shown ++ [n] := by
    rcases hi.frames with ⟨hnone, -⟩ | ⟨hlooping, -⟩ | ⟨-, hturn⟩
    · simp [hnone] at hf
    · simp [hlooping] at hf
    · exact hturn
  have hle := hi.head_le hn
  obtain ⟨zs, rfl⟩ := List.head?_eq_some_iff.mp hn
  obtain ⟨h', seen, hpop', hrep, hnode, hmade, -⟩ := hi.rep.popTimer
  have hperm : (Heap.pop s.heap.expire (n :: zs)).Perm zs := Heap.pop_perm n zs
  obtain ⟨hnot, -⟩ := List.nodup_cons.mp hi.rep.nodup
  have htaken : s.heap.taken = [n] := by
    have hzs : zs.filter (· ∉ Heap.pop s.heap.expire (n :: zs)) = [] := by
      rw [List.filter_eq_nil_iff]
      intro m hm
      simp [hperm.mem_iff.mpr hm]
    rw [TimeHeap.taken, hpop', hi.rep.contents]
    dsimp only
    rw [hrep.contents, List.filter_cons_of_pos (by simp [hperm.mem_iff, hnot]), hzs]
  rw [hpop', Option.some.injEq] at hpop
  subst hpop
  have hadded : added (shown ++ [.popped n]) = added shown := by
    simp [added, TickEvent.addedOf]
  have hpopped : popped (shown ++ [.popped n]) = popped shown ++ [n] := by
    simp [popped, TickEvent.poppedOf]
  have hturns : turns (shown ++ [.popped n]) = turns shown := by
    simp [turns, TickEvent.turnOf]
  have herase := List.perm_cons_erase hrest
  have hexpire : ∀ m, h'.expire m = s.heap.expire m := by
    intro m
    rw [TimeHeap.expire, hnode]
    rfl
  refine ⟨n, _, htaken, hrest, hdue, hrep, ?_, ?_, hi.clock, hmade ▸ hi.made, fun m hm => ?_,
    fun m hm => ?_, fun m hm => ?_, ?_, fun m hm => ?_, Run.traced_concat hi.inTurn hturn,
    .inr (.inl ⟨rfl, ?_⟩)⟩
  · rw [hadded]
    refine hperm.trans (List.Perm.cons_inv (a := n) (hi.perm.trans ?_))
    exact herase.append_right (added shown)
  · rw [hpopped, List.append_assoc]
    exact (herase.symm.append_left (popped shown)).trans hi.split
  · rw [hexpire]
    exact hi.expire m hm
  · rw [hnode, hi.cb m hm]
    simp [cbAfter]
  · rw [hadded] at hm
    rw [hexpire]
    exact hi.later m hm
  · rw [hpopped, List.pairwise_append]
    refine ⟨hi.sorted, List.pairwise_singleton _ _, fun m hm k hk => ?_⟩
    rw [List.mem_singleton.mp hk]
    exact (hi.before m hm).2 n hrest
  · rw [hpopped, List.mem_append, List.mem_singleton] at hm
    rcases hm with hm | rfl
    · obtain ⟨hdue', hafter⟩ := hi.before m hm
      exact ⟨hdue', fun k hk => hafter k (List.mem_of_mem_erase hk)⟩
    · refine ⟨hdue, fun k hk => ?_⟩
      have hk := List.mem_of_mem_erase hk
      rw [← hi.expire m (hi.lt_made hx hrest), ← hi.expire k (hi.lt_made hx hk)]
      exact hle k (hi.mem_ys hk)
  · rw [hturns, hpopped, hturn]

theorem done (hi : Ticking h start s shown ys rest) (hx : Rep h xs)
    (hf : s.frames = [.looping start])
    (hlate : ∀ n, ys.head? = some n → ¬ s.heap.expire n ≤ BitVec.ofNat 32 start)
    (log : List TimerEvent) :
    Ticking h start { s with frames := [], log := log } shown ys rest := by
  have hturn : turns shown = popped shown := by
    rcases hi.frames with ⟨hnone, -⟩ | ⟨-, hturn⟩ | ⟨hcalling, -⟩
    · simp [hnone] at hf
    · exact hturn
    · simp [hcalling] at hf
  refine { hi with frames := .inl ⟨rfl, hturn, fun n hn => ?_⟩ }
  have hmem := hi.mem_ys hn
  cases hys : ys.head? with
  | none => simp [List.head?_eq_none_iff.mp hys] at hmem
  | some m =>
    have hle := hi.head_le hys n hmem
    rw [hi.expire n (hi.lt_made hx hn)] at hle
    exact Std.lt_of_lt_of_le (Std.not_le.mp (hlate m hys)) hle

theorem due_left (hi : Ticking h start s shown ys rest) (hx : Rep h xs) :
    s.heap.contents.countP (fun n => s.heap.expire n ≤ BitVec.ofNat 32 start) =
      rest.countP (fun n => h.expire n ≤ BitVec.ofNat 32 start) := by
  have hadded : (added shown).countP (fun n => s.heap.expire n ≤ BitVec.ofNat 32 start) = 0 := by
    rw [List.countP_eq_zero]
    intro n hn
    simpa using Std.not_le.mpr (hi.later n hn).2
  rw [hi.rep.contents, hi.perm.countP_eq, List.countP_append, hadded, Nat.add_zero]
  refine List.countP_congr fun n hn => ?_
  rw [hi.expire n (hi.lt_made hx hn)]

theorem due_erase {n : Nat} (hn : n ∈ rest) (hdue : h.expire n ≤ BitVec.ofNat 32 start) :
    (rest.erase n).countP (fun n => h.expire n ≤ BitVec.ofNat 32 start) + 1 =
      rest.countP (fun n => h.expire n ≤ BitVec.ofNat 32 start) := by
  rw [(List.perm_cons_erase hn).countP_eq, List.countP_cons]
  simp [hdue]

theorem stepsLeft_pop {shown' : List TickEvent} {ys' : List Nat} {n : Nat}
    (hi' : Ticking h start t shown' ys' (rest.erase n)) (hx : Rep h xs)
    (hi : Ticking h start s shown ys rest) (hn : n ∈ rest)
    (hdue : h.expire n ≤ BitVec.ofNat 32 start) (ht : t.frames = [.looping start])
    (hs : s.frames ≠ []) : 1 + t.stepsLeft start ≤ s.stepsLeft start := by
  have hleft := hi.due_left hx
  have hleft' := hi'.due_left hx
  have herase := due_erase hn hdue
  rw [Timers.stepsLeft, Timers.stepsLeft, ht, hleft, hleft']
  cases hf : s.frames with
  | nil => exact absurd hf hs
  | cons f frames => cases f <;> dsimp only <;> omega

theorem advance (hi : Ticking h start s shown ys rest) (hx : Rep h xs)
    (hstep : s.advance = some t) :
    ∃ ys' rest', Ticking h start t (shown ++ s.shows .advance) ys' rest' ∧
      1 + t.stepsLeft start ≤ s.stepsLeft start := by
  have hleft := hi.due_left hx
  rw [Timers.advance] at hstep
  rcases hi.frames with ⟨hf, -⟩ | ⟨hf, -⟩ | ⟨hf, -⟩
  · simp [hf] at hstep
  · simp only [hf] at hstep
    rw [hi.rep.timeHeapTop] at hstep
    have hshows := hi.rep.timeHeapTop
    cases hn : ys.head? with
    | none =>
      rw [hn] at hstep hshows
      cases hstep
      have hi' := hi.done hx hf (by simp [hn]) (.returned start :: s.log)
      refine ⟨ys, rest, by simpa [Timers.shows, hf, hshows] using hi', ?_⟩
      simp [Timers.stepsLeft, hf]
    | some n =>
      rw [hn] at hstep hshows
      dsimp only at hstep
      split at hstep
      · next hlate =>
        cases hstep
        have hi' := hi.done hx hf (by
          intro m hm
          rw [hn, Option.some.injEq] at hm
          exact hm ▸ Std.not_le.mpr hlate) (.returned start :: s.log)
        refine ⟨ys, rest, by simpa [Timers.shows, hf, hshows, hlate] using hi', ?_⟩
        simp [Timers.stepsLeft, hf]
      · next hdue =>
        have hdue' := Std.not_lt.mp hdue
        split at hstep
        · next hcb =>
          cases hstep
          have hi' := hi.turn hx hf hn hdue' (.fired n start :: s.log)
          refine ⟨ys, rest, by simpa [Timers.shows, hf, hshows, hdue, hcb] using hi', ?_⟩
          simp only [Timers.stepsLeft, hf]
          omega
        · next hcb =>
          obtain ⟨r, hr, rfl⟩ := Option.map_eq_some_iff.mp hstep
          obtain ⟨m, ys', htaken, hm, hmdue, hi'⟩ :=
            (hi.turn hx hf hn hdue' s.log).pop hx rfl hr
          have hnone : (s.heap.node n).cb.isSome = false := by simpa using hcb
          have hshown : s.shows .advance = [.turn n false, .popped m] := by
            rw [Timers.shows, hf]
            simp [hshows, hdue, hnone, htaken]
          refine ⟨ys', rest.erase m, ?_, hi'.stepsLeft_pop hx hi hm hmdue rfl (by simp [hf])⟩
          rw [hshown]
          simpa [hnone] using hi'
  · simp only [hf] at hstep
    obtain ⟨r, hr, rfl⟩ := Option.map_eq_some_iff.mp hstep
    obtain ⟨n, ys', htaken, hn, hdue, hi'⟩ := hi.pop hx hf hr
    refine ⟨ys', rest.erase n, ?_, hi'.stepsLeft_pop hx hi hn hdue rfl (by simp [hf])⟩
    simpa [Timers.shows, hf, htaken] using hi'

/-- What a step of the call or of a callback leaves, and whether it was a step of the call. -/
theorem step (hi : Ticking h start s shown ys rest) (hx : Rep h xs) {a : TimerAct}
    (hmay : callbackMay start a) (hstep : timerStep s a = some t) :
    ∃ ys' rest', Ticking h start t (shown ++ s.shows a) ys' rest' ∧
      (if a = .advance then 1 else 0) + t.stepsLeft start ≤ s.stepsLeft start := by
  cases a with
  | tick now => exact hmay.elim
  | add now cb args timeout =>
    simp only [timerStep, Option.ite_none_right_eq_some, Bool.and_eq_true, decide_eq_true_eq]
      at hstep
    obtain ⟨ys', hi'⟩ := hi.add hx hstep.1.1.2 hmay hstep.2
    refine ⟨ys', rest, hi', ?_⟩
    obtain ⟨r, -, rfl⟩ := Option.map_eq_some_iff.mp hstep.2
    have hleft := hi.due_left hx
    have hleft' := hi'.due_left hx
    dsimp only at hleft'
    rw [if_neg (by simp), Nat.zero_add, Timers.stepsLeft, Timers.stepsLeft]
    dsimp only
    rw [hleft, hleft']
  | del n =>
    simp only [timerStep, Option.ite_none_right_eq_some, Option.some.injEq] at hstep
    obtain ⟨-, rfl⟩ := hstep
    have hi' := hi.del n
    refine ⟨ys, rest, hi', ?_⟩
    have hleft := hi.due_left hx
    have hleft' := hi'.due_left hx
    dsimp only at hleft'
    rw [if_neg (by simp), Nat.zero_add, Timers.stepsLeft, Timers.stepsLeft]
    dsimp only
    rw [hleft, hleft']
  | advance =>
    rw [if_pos rfl]
    exact hi.advance hx hstep

theorem turns_split (hi : Ticking h start s shown ys rest) :
    ∃ left, (turns shown ++ left).Perm h.contents ∧
      (∀ n ∈ turns shown, h.expire n ≤ BitVec.ofNat 32 start) ∧
      (turns shown).Pairwise (fun m n => h.expire m ≤ h.expire n) := by
  have hpopped := fun n hn => (hi.before n hn).1
  rcases hi.frames with ⟨-, hturn, -⟩ | ⟨-, hturn⟩ | ⟨-, n, hn, -, hdue, hturn⟩
  · rw [hturn]
    exact ⟨rest, hi.split, hpopped, hi.sorted⟩
  · rw [hturn]
    exact ⟨rest, hi.split, hpopped, hi.sorted⟩
  · rw [hturn]
    refine ⟨rest.erase n, ?_, fun m hm => ?_, ?_⟩
    · rw [List.append_assoc]
      exact ((List.perm_cons_erase hn).symm.append_left _).trans hi.split
    · rcases List.mem_append.mp hm with hm | hm
      · exact hpopped m hm
      · rwa [List.mem_singleton.mp hm]
    · rw [List.pairwise_append]
      refine ⟨hi.sorted, List.pairwise_singleton _ _, fun m hm k hk => ?_⟩
      rw [List.mem_singleton.mp hk]
      exact (hi.before m hm).2 n hn

theorem returned (hi : Ticking h start s shown ys rest) (hf : s.frames = []) :
    (turns shown).Perm (dueNodes h start) ∧ popped shown = turns shown ∧
      s.heap.contents.Perm
        (h.contents.filter (fun n => ¬ h.expire n ≤ BitVec.ofNat 32 start) ++ added shown) := by
  obtain ⟨hturn, hlate⟩ : turns shown = popped shown ∧
      ∀ n ∈ rest, BitVec.ofNat 32 start < h.expire n := by
    rcases hi.frames with ⟨-, hdone⟩ | ⟨hlooping, -⟩ | ⟨hcalling, -⟩
    · exact hdone
    · simp [hlooping] at hf
    · simp [hcalling] at hf
  have hdue : ∀ n ∈ popped shown, h.expire n ≤ BitVec.ofNat 32 start :=
    fun n hn => (hi.before n hn).1
  have hlate' : ∀ n ∈ rest, ¬ h.expire n ≤ BitVec.ofNat 32 start :=
    fun n hn => Std.not_le.mpr (hlate n hn)
  refine ⟨?_, hturn.symm, ?_⟩
  · have hfilter := hi.split.filter (fun n => decide (h.expire n ≤ BitVec.ofNat 32 start))
    rw [List.filter_append, List.filter_eq_self.mpr (by simpa using hdue),
      List.filter_eq_nil_iff.mpr (by simpa using hlate), List.append_nil] at hfilter
    rwa [hturn]
  · have hfilter := hi.split.filter (fun n => decide ¬ h.expire n ≤ BitVec.ofNat 32 start)
    rw [List.filter_append, List.filter_eq_nil_iff.mpr (by simpa using hdue),
      List.filter_eq_self.mpr (by simpa using hlate), List.nil_append] at hfilter
    rw [hi.rep.contents]
    exact hi.perm.trans (hfilter.append_right _)

theorem ticked (hi : Ticking h start s shown ys rest) (hx : Rep h xs) :
    Ticked h start shown s := by
  obtain ⟨left, hsplit, hdue, hsorted⟩ := hi.turns_split
  have hmem : ∀ n ∈ turns shown, n ∈ h.contents :=
    fun n hn => hsplit.mem_iff.mp (List.mem_append_left _ hn)
  refine ⟨hi.inTurn, fun n hn => ?_, ?_, hsorted, fun n hn => ⟨?_, fun hturn => ?_⟩, hi.returned⟩
  · exact List.mem_filter.mpr ⟨hmem n hn, decide_eq_true (hdue n hn)⟩
  · have hnodup := hx.nodup
    rw [← hx.contents, ← hsplit.nodup_iff] at hnodup
    exact (List.nodup_append.mp hnodup).1
  · rw [hi.rep.contents]
    exact hi.perm.mem_iff.mpr (List.mem_append_right _ hn)
  · have hlt := hx.made n (hx.contents ▸ hmem n hturn)
    have hle := (hi.later n hn).1
    omega

theorem advance_enabled (hi : Ticking h start s shown ys rest) (hf : s.frames ≠ []) :
    s.advance.isSome = true := by
  have hpop : ∀ n, ys.head? = some n → s.heap.popTimer.isSome = true := by
    intro n hn
    have hrep := hi.rep
    obtain ⟨zs, rfl⟩ := List.head?_eq_some_iff.mp hn
    obtain ⟨h', seen, hpop, -⟩ := hrep.popTimer
    rw [hpop]
    rfl
  rw [Timers.advance]
  rcases hi.frames with ⟨hnone, -⟩ | ⟨hlooping, -⟩ | ⟨hcalling, n, -, hn, -⟩
  · exact absurd hnone hf
  · simp only [hlooping, hi.rep.timeHeapTop]
    cases hn : ys.head? with
    | none => rfl
    | some n =>
      dsimp only
      split
      · rfl
      · split
        · rfl
        · simpa using hpop n hn
  · simpa [hcalling] using hpop n hn

end Ticking

/-- One call of `time_heap_tick` on a heap, with callbacks that add timers which expire later and
delete timers: it gives every timer that is due its turn and no other one, in the order of their
expiries, calls the callbacks of those that were not deleted before, and comes to its end. -/
theorem time_heap_tick_reentrant (s s₁ t : Timers) (xs : List Nat) (start : Nat)
    (as : List TimerAct) (hrep : Rep s.heap xs) (hidle : s.frames = [])
    (hstart : timerStep s (.tick start) = some s₁)
    (hmay : Run.Meets timerStep (fun _ => callbackMay start) s₁ as)
    (hrun : Run.run timerStep s₁ as = some t) :
    Ticked s.heap start (Run.collect timerStep Timers.shows s₁ as) t ∧
      as.countP (· = .advance) ≤ 2 * (dueNodes s.heap start).length + 1 ∧
      (t.frames ≠ [] → (timerStep t .advance).isSome = true) := by
  obtain rfl : ({ s with frames := [.looping start], clock := start } : Timers) = s₁ := by
    simp only [timerStep, Option.ite_none_right_eq_some, Option.some.injEq, hidle] at hstart
    exact hstart.2
  have hbegin : Ticking s.heap start
      { s with frames := [.looping start], clock := start } [] xs xs :=
    Ticking.start_of hrep s.deadline s.log (Nat.le_refl start)
  obtain ⟨ys, rest, hi⟩ :
      ∃ ys rest, Ticking s.heap start t
        ([] ++ Run.collect timerStep Timers.shows
          { s with frames := [.looping start], clock := start } as) ys rest := by
    refine Run.collect_invariant (p := fun u shown => ∃ ys rest, Ticking s.heap start u shown ys rest)
      (fun u a v shown hu ha huv => ?_) ⟨xs, xs, hbegin⟩ hmay hrun
    obtain ⟨ys, rest, hu⟩ := hu
    obtain ⟨ys', rest', hv, -⟩ := hu.step hrep ha huv
    exact ⟨ys', rest', hv⟩
  have hcount : as.countP (fun a => decide (a = .advance)) + t.stepsLeft start ≤
      ({ s with frames := [.looping start], clock := start } : Timers).stepsLeft start := by
    refine Run.countP_le_of_measure (fun u => ∃ shown ys rest, Ticking s.heap start u shown ys rest)
      (fun u => u.stepsLeft start) (fun u a v hu ha huv => ?_) ⟨[], xs, xs, hbegin⟩ hmay hrun
    obtain ⟨shown, ys, rest, hu⟩ := hu
    obtain ⟨ys', rest', hv, hle⟩ := hu.step hrep ha huv
    exact ⟨⟨_, ys', rest', hv⟩, by simpa using hle⟩
  refine ⟨hi.ticked hrep, ?_, hi.advance_enabled⟩
  have hdue : ({ s with frames := [.looping start], clock := start } : Timers).stepsLeft start =
      2 * (dueNodes s.heap start).length + 1 := by
    rw [Timers.stepsLeft, dueNodes, List.countP_eq_length_filter]
  omega

def twoTimers : List TimerAct := [.add 0 (some 1) 0 5#32, .add 0 (some 2) 0 7#32]

/-- Both timers are due; the callback of the first adds a third and deletes the second. -/
def addAndDelete : List TimerAct :=
  [.advance, .add 11 (some 7) 0 3#32, .del 1, .advance, .advance, .advance]

theorem time_heap_tick_reentrant_deletes :
    ∃ s s₁ t, timerStep s (.tick 10) = some s₁ ∧ Run.run timerStep s₁ addAndDelete = some t ∧
      t.heap.contents = [2] ∧
      Ticked s.heap 10 (Run.collect timerStep Timers.shows s₁ addAndDelete) t := by
  have hrun : (Run.run timerStep Timers.init (twoTimers ++ .tick 10 :: addAndDelete)).map
      (fun t => t.heap.contents) = some [2] := by decide +kernel
  have hidle : (Run.run timerStep Timers.init twoTimers).map Timers.frames = some [] := by
    decide +kernel
  obtain ⟨t, ht, hcontents⟩ := Option.map_eq_some_iff.mp hrun
  obtain ⟨s, hs, ht⟩ := Run.run_append.mp ht
  obtain ⟨s₁, hs₁, ht⟩ := Run.run_cons.mp ht
  obtain ⟨xs, hinv⟩ := timers_inv_of_run (by decide +kernel) hs
  have hframes : s.frames = [] := by simpa [hs] using hidle
  refine ⟨s, s₁, t, hs₁, ht, hcontents, ?_⟩
  exact (time_heap_tick_reentrant s s₁ t xs 10 addAndDelete hinv.rep hframes hs₁
    (Run.meets_of_forall (by decide) s₁) ht).1

end AlgorithmLib.MinHeap
