import AlgorithmLib.TimeWheel.Manager
import Mathlib.Tactic.Ring

/-!
The loop of `itimer_evt_cb`. It compares `slap` and the clock as unsigned numbers, so it ends with
the periods that have elapsed as long as `slap` does not pass 2^32 on the way.
-/

set_option autoImplicit false

namespace AlgorithmLib.TimeWheel

/-- When the turn `i` of the loop is due, on a clock that does not wrap around. -/
def slapAt (slap period : BitVec 32) (i : Nat) : Nat := slap.toNat + i * period.toNat

variable {current slap period : BitVec 32} {repeat_ : Int} {count turns : Nat} {r : CatchUp}

theorem slapAt_zero (slap period : BitVec 32) : slapAt slap period 0 = slap.toNat := by
  simp [slapAt]

theorem slapAt_le (slap period : BitVec 32) {i j : Nat} (h : i ≤ j) :
    slapAt slap period i ≤ slapAt slap period j :=
  Nat.add_le_add_left (Nat.mul_le_mul_right _ h) _

/-- A turn after which `slap` has not passed 2^32 leaves the later due times. -/
theorem slapAt_add (h : slapAt slap period 1 < 2 ^ 32) (i : Nat) :
    slapAt (slap + period) period i = slapAt slap period (i + 1) := by
  simp only [slapAt, Nat.one_mul] at h ⊢
  rw [BitVec.toNat_add, Nat.mod_eq_of_lt h]
  ring

theorem catchUp_turn (h : slap ≤ current) (hrepeat : repeat_ ≠ 1) :
    catchUp current period (turns + 1) slap repeat_ count =
      catchUp current period turns (slap + period)
        (if repeat_ > 1 then repeat_ - 1 else repeat_) (count + 1) := by
  rw [catchUp, if_pos h, if_neg hrepeat]

theorem catchUp_count_le (h : catchUp current period turns slap repeat_ count = some r) :
    count ≤ r.count := by
  induction turns generalizing slap repeat_ count with
  | zero => simp [catchUp] at h
  | succ turns ih =>
    simp only [catchUp] at h
    split at h
    · split at h
      · cases h
        exact Nat.le_succ count
      · exact Nat.le_of_succ_le (ih h)
    · cases h
      exact Nat.le_refl count

theorem catchUp_count_lt (h : catchUp current period turns slap repeat_ count = some r)
    (hge : current ≥ slap) : count < r.count := by
  cases turns with
  | zero => simp [catchUp] at h
  | succ turns =>
    by_cases hrepeat : repeat_ = 1
    · rw [catchUp, if_pos hge, if_pos hrepeat] at h
      cases h
      exact Nat.lt_succ_self count
    · rw [catchUp_turn hge hrepeat] at h
      exact Nat.lt_of_succ_le (catchUp_count_le h)

theorem catchUp_mono {more : Nat} (h : catchUp current period turns slap repeat_ count = some r)
    (hle : turns ≤ more) : catchUp current period more slap repeat_ count = some r := by
  induction turns generalizing slap repeat_ count more with
  | zero => simp [catchUp] at h
  | succ turns ih =>
    obtain ⟨more, rfl⟩ : ∃ n, more = n + 1 := ⟨more - 1, by omega⟩
    simp only [catchUp] at h ⊢
    split at h
    · split at h
      · simpa [*] using h
      · rename_i hge hrepeat
        rw [if_pos hge, if_neg hrepeat]
        exact ih h (Nat.le_of_succ_le_succ hle)
    · rename_i hlt
      rwa [if_neg hlt]

/-- The loop with a count of `k` turns that are due, none of them the last. -/
theorem catchUp_elapsed {k : Nat} (count : Nat)
    (hdue : ∀ i < k, slapAt slap period i ≤ current.toNat)
    (hnext : current.toNat < slapAt slap period k) (hfits : slapAt slap period k < 2 ^ 32)
    (hrepeat : repeat_ ≤ 0 ∨ (k : Int) < repeat_) :
    catchUp current period (k + 1) slap repeat_ count =
      some ⟨BitVec.ofNat 32 (slapAt slap period k),
        if repeat_ ≤ 0 then repeat_ else repeat_ - k, count + k, false⟩ := by
  induction k generalizing slap repeat_ count with
  | zero =>
    rw [slapAt_zero] at hnext
    have hlt : ¬ current ≥ slap := fun hge => absurd (BitVec.le_def.mp hge) (by omega)
    simp [catchUp, hlt, slapAt_zero]
  | succ k ih =>
    have h0 := hdue 0 (Nat.succ_pos k)
    rw [slapAt_zero] at h0
    have h1 : slapAt slap period 1 < 2 ^ 32 :=
      Nat.lt_of_le_of_lt (slapAt_le slap period (Nat.succ_le_succ (Nat.zero_le k))) hfits
    rw [catchUp_turn (BitVec.le_def.mpr h0) (by omega)]
    rw [ih _ (fun i hi => by rw [slapAt_add h1]; exact hdue (i + 1) (Nat.succ_lt_succ hi))
      (by rwa [slapAt_add h1]) (by rwa [slapAt_add h1]) (by split <;> omega), slapAt_add h1]
    congr 2
    · split <;> split <;> omega
    · omega

theorem catchUp_last {k : Nat} (count : Nat) (hdue : slapAt slap period k ≤ current.toNat) :
    catchUp current period (k + 1) slap (k + 1 : Nat) count =
      some ⟨BitVec.ofNat 32 (slapAt slap period (k + 1)), 1, count + k + 1, true⟩ := by
  have hcurrent := current.isLt
  induction k generalizing slap count with
  | zero =>
    rw [slapAt_zero] at hdue
    have hge : current ≥ slap := BitVec.le_def.mpr hdue
    simp [catchUp, hge, slapAt, BitVec.ofNat_add]
  | succ k ih =>
    have h0 := Nat.le_trans (slapAt_le slap period (Nat.zero_le (k + 1))) hdue
    rw [slapAt_zero] at h0
    have h1 : slapAt slap period 1 < 2 ^ 32 := by
      have hle := slapAt_le slap period (show 1 ≤ k + 1 by omega)
      omega
    rw [catchUp_turn (BitVec.le_def.mpr h0) (by omega)]
    rw [if_pos (by omega), show ((k + 1 + 1 : Nat) : Int) - 1 = (k + 1 : Nat) by omega,
      ih _ (by rwa [slapAt_add h1]), slapAt_add h1]
    congr 2
    omega

theorem exists_first_due {k : Nat} (hnext : current.toNat < slapAt slap period k) :
    ∃ j ≤ k, current.toNat < slapAt slap period j ∧
      ∀ i < j, slapAt slap period i ≤ current.toNat := by
  have hexists : ∃ j, current.toNat < slapAt slap period j := ⟨k, hnext⟩
  exact ⟨Nat.find hexists, Nat.find_min' hexists hnext, Nat.find_spec hexists,
    fun i hi => Nat.le_of_not_lt (Nat.find_min hexists hi)⟩

/-- Where the loop ends, with a period, on a clock that `slap` does not pass 2^32 before. -/
theorem catchUp_eq (current slap : BitVec 32) (repeat_ : Int) (hperiod : period ≠ 0#32) :
    ∃ m, (∀ i < m, slapAt slap period i ≤ current.toNat) ∧ current.toNat < slapAt slap period m ∧
      ((repeat_ ≤ 0 ∨ (m : Int) < repeat_) ∧ (slapAt slap period m < 2 ^ 32 →
          catchUp current period catchUpTurns slap repeat_ 0 =
            some ⟨BitVec.ofNat 32 (slapAt slap period m),
              if repeat_ ≤ 0 then repeat_ else repeat_ - m, m, false⟩) ∨
        ∃ k : Nat, repeat_ = k + 1 ∧ k < m ∧
          catchUp current period catchUpTurns slap repeat_ 0 =
            some ⟨BitVec.ofNat 32 (slapAt slap period (k + 1)), 1, k + 1, true⟩) := by
  have hpos : 0 < period.toNat := BitVec.toNat_pos_of_ne_zero hperiod
  have hmul : ∀ i, i ≤ slapAt slap period i := fun i =>
    Nat.le_trans (Nat.le_mul_of_pos_right i hpos) (Nat.le_add_left _ _)
  have hcurrent := current.isLt
  obtain ⟨m, -, hnext, hdue⟩ := exists_first_due
    (show current.toNat < slapAt slap period (current.toNat + 1) from hmul _)
  refine ⟨m, hdue, hnext, ?_⟩
  by_cases hrepeat : repeat_ ≤ 0 ∨ (m : Int) < repeat_
  · refine .inl ⟨hrepeat, fun hfits => ?_⟩
    have hm := hmul m
    have helapsed := catchUp_mono (catchUp_elapsed 0 hdue hnext hfits hrepeat)
      (show m + 1 ≤ catchUpTurns by
        unfold catchUpTurns
        omega)
    simpa using helapsed
  · obtain ⟨k, hk⟩ : ∃ k : Nat, repeat_ = k + 1 := ⟨(repeat_ - 1).toNat, by omega⟩
    have hkm : k < m := by omega
    have hle := hmul k
    have hkdue := hdue k hkm
    refine .inr ⟨k, hk, hkm, ?_⟩
    rw [hk]
    have hlast := catchUp_mono (catchUp_last 0 hkdue) (show k + 1 ≤ catchUpTurns by
      unfold catchUpTurns
      omega)
    simpa using hlast

/-! The times of a clock that does not wrap around: `now` and `due` are what `current` and `slap` are
the last 32 bits of, the first one since the program began, the other one since `itimer_evt_start`
has added the period to the clock. -/

/-- The event is counted and its last run is due, or the loop comes to a `slap` above the clock
while all the runs before are due. -/
def CatchesUp (now due : Nat) (period : BitVec 32) (repeat_ : Int) : Prop :=
  (∃ k : Nat, repeat_ = k + 1 ∧ due + k * period.toNat ≤ now) ∨
    ∃ k : Nat, (∀ i < k, due + i * period.toNat ≤ now) ∧
      now % 2 ^ 32 < (due + k * period.toNat) % 2 ^ 32

/-- The loop ends, and none of its turns comes before it is due. -/
def CatchUpEnds (now due : Nat) (period : BitVec 32) (repeat_ : Int) : Prop :=
  ∃ turns r, catchUp (BitVec.ofNat 32 now) period turns (BitVec.ofNat 32 due) repeat_ 0 = some r ∧
    ∀ i < r.count, due + i * period.toNat ≤ now

/-- What `itimer_evt_start` makes of the clock. -/
theorem itimerEvtStart_slap {m : ItimerMgr} {now : Nat} (h : m.current = BitVec.ofNat 32 now)
    (n : NodeId) (evt : ItimerEvt) (period : BitVec 32) (repeat_ : Int) :
    (m.itimerEvtStart n evt period repeat_).2.slap = BitVec.ofNat 32 (now + period.toNat) := by
  rw [ItimerMgr.itimerEvtStart_eq, h, BitVec.ofNat_add, BitVec.ofNat_toNat, BitVec.setWidth_eq]

section Wrapping

variable {now due : Nat}

theorem ofNat_le_ofNat (due now : Nat) :
    BitVec.ofNat 32 due ≤ BitVec.ofNat 32 now ↔ due % 2 ^ 32 ≤ now % 2 ^ 32 := by
  rw [BitVec.le_def, BitVec.toNat_ofNat, BitVec.toNat_ofNat]

theorem ofNat_add_period (due : Nat) (period : BitVec 32) :
    BitVec.ofNat 32 due + period = BitVec.ofNat 32 (due + period.toNat) := by
  rw [BitVec.ofNat_add, BitVec.ofNat_toNat, BitVec.setWidth_eq]

theorem due_succ (due : Nat) (period : BitVec 32) (i : Nat) :
    due + (i + 1) * period.toNat = due + period.toNat + i * period.toNat := by
  ring

theorem catchUp_counted (current period : BitVec 32) (k : Nat) :
    ∀ slap count, ∃ r, catchUp current period (k + 1) slap (k + 1 : Nat) count = some r ∧
      r.count ≤ count + (k + 1) := by
  induction k with
  | zero =>
    intro slap count
    by_cases hge : current ≥ slap
    · exact ⟨⟨slap + period, 1, count + 1, true⟩, by simp [catchUp, hge], Nat.le_refl _⟩
    · exact ⟨⟨slap, 1, count, false⟩, by simp [catchUp, hge], Nat.le_succ count⟩
  | succ k ih =>
    intro slap count
    by_cases hge : current ≥ slap
    · obtain ⟨r, hr, hcount⟩ := ih (slap + period) (count + 1)
      refine ⟨r, ?_, by omega⟩
      rw [catchUp_turn hge (by omega), if_pos (by omega)]
      rwa [show ((k + 1 + 1 : Nat) : Int) - 1 = (k + 1 : Nat) by omega]
    · refine ⟨⟨slap, (k + 1 + 1 : Nat), count, false⟩, ?_, Nat.le_add_right count _⟩
      rw [catchUp, if_neg hge]

/-- The loop does not pass a `slap` that is above the clock. -/
theorem catchUp_stops {k : Nat} (habove : now % 2 ^ 32 < (due + k * period.toNat) % 2 ^ 32)
    (repeat_ : Int) (count : Nat) :
    ∃ r, catchUp (BitVec.ofNat 32 now) period (k + 1) (BitVec.ofNat 32 due) repeat_ count =
      some r ∧ r.count ≤ count + k := by
  induction k generalizing due repeat_ count with
  | zero =>
    have hlt : ¬ BitVec.ofNat 32 now ≥ BitVec.ofNat 32 due := by
      rw [ge_iff_le, ofNat_le_ofNat]
      simpa using habove
    exact ⟨⟨BitVec.ofNat 32 due, repeat_, count, false⟩, by rw [catchUp, if_neg hlt],
      Nat.le_refl _⟩
  | succ k ih =>
    by_cases hge : BitVec.ofNat 32 now ≥ BitVec.ofNat 32 due
    · by_cases hrepeat : repeat_ = 1
      · refine ⟨⟨BitVec.ofNat 32 due + period, repeat_, count + 1, true⟩, ?_, by simp⟩
        rw [catchUp, if_pos hge, if_pos hrepeat]
      · rw [due_succ] at habove
        obtain ⟨r, hr, hcount⟩ :=
          ih habove (if repeat_ > 1 then repeat_ - 1 else repeat_) (count + 1)
        refine ⟨r, ?_, by omega⟩
        rw [catchUp_turn hge hrepeat, ofNat_add_period]
        exact hr
    · refine ⟨⟨BitVec.ofNat 32 due, repeat_, count, false⟩, ?_, Nat.le_add_right count _⟩
      rw [catchUp, if_neg hge]

theorem CatchesUp.of_turn (h : CatchesUp now (due + period.toNat) period
      (if repeat_ > 1 then repeat_ - 1 else repeat_)) (hrepeat : repeat_ ≠ 1) (hdue : due ≤ now) :
    CatchesUp now due period repeat_ := by
  obtain ⟨k, hk, hlast⟩ | ⟨k, hearlier, habove⟩ := h
  · rw [← due_succ] at hlast
    refine .inl ⟨k + 1, ?_, hlast⟩
    split at hk <;> omega
  · rw [← due_succ] at habove
    refine .inr ⟨k + 1, fun i hi => ?_, habove⟩
    cases i with
    | zero => simpa using hdue
    | succ i =>
      rw [due_succ]
      exact hearlier i (Nat.lt_of_succ_lt_succ hi)

theorem catchesUp_of_catchUp
    (h : catchUp (BitVec.ofNat 32 now) period turns (BitVec.ofNat 32 due) repeat_ count = some r)
    (hdue : ∀ i < r.count - count, due + i * period.toNat ≤ now) :
    CatchesUp now due period repeat_ := by
  induction turns generalizing due repeat_ count with
  | zero => simp [catchUp] at h
  | succ turns ih =>
    by_cases hge : BitVec.ofNat 32 now ≥ BitVec.ofNat 32 due
    · have hcount := catchUp_count_lt h hge
      have h0 : due ≤ now := by simpa using hdue 0 (by omega)
      by_cases hrepeat : repeat_ = 1
      · exact .inl ⟨0, by omega, by simpa using h0⟩
      · rw [catchUp_turn hge hrepeat, ofNat_add_period] at h
        refine (ih h fun i hi => ?_).of_turn hrepeat h0
        rw [← due_succ]
        exact hdue (i + 1) (by omega)
    · refine .inr ⟨0, fun i hi => absurd hi (Nat.not_lt_zero i), ?_⟩
      rw [ge_iff_le, ofNat_le_ofNat] at hge
      simpa using hge

end Wrapping

/-- The loop catches up, with no run before its time, exactly under the condition. -/
theorem catch_up_ends (now due : Nat) (period : BitVec 32) (repeat_ : Int) :
    CatchUpEnds now due period repeat_ ↔ CatchesUp now due period repeat_ := by
  constructor
  · rintro ⟨turns, r, h, hdue⟩
    exact catchesUp_of_catchUp h (by simpa using hdue)
  · rintro (⟨k, rfl, hlast⟩ | ⟨k, hearlier, habove⟩)
    · obtain ⟨r, hr, hcount⟩ :=
        catchUp_counted (BitVec.ofNat 32 now) period k (BitVec.ofNat 32 due) 0
      refine ⟨k + 1, r, by exact_mod_cast hr, fun i hi => ?_⟩
      have hle : i * period.toNat ≤ k * period.toNat := Nat.mul_le_mul_right _ (by omega)
      omega
    · obtain ⟨r, hr, hcount⟩ := catchUp_stops habove repeat_ 0
      exact ⟨k + 1, r, hr, fun i hi => hearlier i (by omega)⟩

theorem catchUp_period_zero (h : current ≥ slap) (hrepeat : repeat_ ≤ 0) :
    catchUp current 0#32 turns slap repeat_ count = none := by
  induction turns generalizing count with
  | zero => rfl
  | succ turns ih => rw [catchUp_turn h (by omega), BitVec.add_zero, if_neg (by omega), ih]

/-- The loop does not end with the period 0. With the longest period it runs the callback a second
time when `slap` passes 2^32, and an event that is started so late that its `slap` has passed 2^32
before the loop is run before it is due. -/
theorem catch_up_never_ends :
    ¬ (∀ (now due : Nat) (period : BitVec 32) (repeat_ : Int),
      CatchUpEnds now due period repeat_) ∧
    catchUp 4294967295#32 4294967295#32 3 4294967295#32 2 0 = some ⟨4294967293#32, 1, 2, true⟩ ∧
    ¬ CatchUpEnds 0xF8000000 (0x88000000 + 0x7C000000) 0x7C000000#32 1 := by
  refine ⟨fun h => ?_, by decide, ?_⟩
  · obtain ⟨turns, r, hr, -⟩ := h 0 0 0#32 0
    rw [catchUp_period_zero (BitVec.le_refl 0#32) (Int.le_refl 0)] at hr
    cases hr
  · rintro ⟨turns, r, hr, hdue⟩
    have hcount := catchUp_count_lt hr (by decide)
    have h0 := hdue 0 hcount
    omega

end AlgorithmLib.TimeWheel
