import AlgorithmLib.Library.CInt
import AlgorithmLib.Library.Links

/-!
The time wheel of `co_routine.cpp`: slot `llStartIdx` stands for the millisecond `ullStart`, the
next one for the next millisecond, and so on around the wheel. A timeout further away than the wheel
is long goes to the last slot, and comes up there too early.
-/

set_option autoImplicit false

namespace AlgorithmLib.CoRoutine

/-- A `stTimeoutItem_t`, by the order of its allocation. -/
abbrev Item := Nat

/-- The lists of `stCoEpoll_t`: a slot of `pTimeout`, `pstTimeoutList` and `pstActiveList`. -/
inductive ItemList where
  | slot (i : Int)
  | timeout
  | active
  deriving DecidableEq, Repr

abbrev ItemLists := Links Item ItemList

/-- `stTimeout_t` -/
structure Timeout where
  iItemSize : Nat
  ullStart : Nat
  llStartIdx : Int
  deriving DecidableEq, Repr

/-- What `AddTimeout` returns: 0, or one of its two `__LINE__`s. -/
inductive AddRet where
  | ok
  | clockBack
  | expired
  deriving DecidableEq, Repr

namespace Timeout

def allocTimeout (iSize now : Nat) : Timeout :=
  { iItemSize := iSize, ullStart := now, llStartIdx := 0 }

/-- A wheel without a start begins now. -/
def started (t : Timeout) (allNow : Nat) : Timeout :=
  if t.ullStart = 0 then { t with ullStart := allNow, llStartIdx := 0 } else t

/-- `( llStartIdx + diff ) % iItemSize`, where `diff` is an `unsigned long long` -/
def slotAt (t : Timeout) (diff : Nat) : ItemList :=
  .slot (CInt.sizeT (t.llStartIdx + diff) % t.iItemSize : Nat)

/-- `( llStartIdx + i ) % iItemSize`, where `i` is an `int` -/
def slotIdx (t : Timeout) (i : Nat) : ItemList := .slot ((t.llStartIdx + i).tmod t.iItemSize)

def addTimeout (t : Timeout) (l : ItemLists) (apItem : Item) (ullExpireTime allNow : Nat) :
    AddRet × Timeout × ItemLists :=
  let t := t.started allNow
  if allNow < t.ullStart then (.clockBack, t, l)
  else if ullExpireTime < allNow then (.expired, t, l)
  else
    let diff := ullExpireTime - t.ullStart
    let diff := if t.iItemSize ≤ diff then t.iItemSize - 1 else diff
    (.ok, t, if l.head apItem = none then l.addTail apItem (t.slotAt diff) else l)

/-- The first `cnt` slots are joined to the result. -/
def takeSlots (t : Timeout) : Nat → ItemLists → ItemLists
  | 0, l => l
  | cnt + 1, l => (t.takeSlots cnt l).join .timeout (t.slotIdx cnt)

/-- `cnt` is an `int`. -/
def takeAllTimeout (t : Timeout) (l : ItemLists) (allNow : Nat) : Timeout × ItemLists :=
  let t := t.started allNow
  if allNow < t.ullStart then (t, l)
  else
    let cnt := CInt.toInt (allNow - t.ullStart + 1)
    let cnt := if t.iItemSize < cnt then (t.iItemSize : Int) else cnt
    if cnt < 0 then (t, l)
    else
      ({ t with ullStart := allNow, llStartIdx := t.llStartIdx + (cnt - 1) },
        t.takeSlots cnt.toNat l)

/-- Every item in a slot expires when the slot comes up, or later. -/
structure Holds (t : Timeout) (l : ItemLists) (ullExpireTime : Item → Nat) : Prop where
  size : 0 < t.iItemSize
  size_lt : t.iItemSize < 2 ^ 31
  start : 0 < t.ullStart
  clock : t.ullStart < 2 ^ 63
  idx : 0 ≤ t.llStartIdx
  idx_le : t.llStartIdx ≤ t.ullStart
  slot : ∀ n i, l.head n = some (.slot i) →
    ∃ d < t.iItemSize, .slot i = t.slotAt d ∧ t.ullStart + d ≤ ullExpireTime n

variable {t : Timeout} {l : ItemLists} {ullExpireTime : Item → Nat} {allNow : Nat} {n : Item}

theorem started_of_pos (h : 0 < t.ullStart) (allNow : Nat) : t.started allNow = t := by
  rw [started, if_neg (by omega)]

theorem Holds.slotIdx_eq (h : t.Holds l ullExpireTime) {i : Nat} (hi : i < t.iItemSize) :
    t.slotIdx i = t.slotAt i := by
  have hidx := h.idx
  have hle := h.idx_le
  have hclock := h.clock
  have hsize := h.size_lt
  obtain ⟨k, hk⟩ := Int.eq_ofNat_of_zero_le hidx
  have hsum : t.llStartIdx + i = ((k + i : Nat) : Int) := by omega
  rw [slotIdx, slotAt, hsum, CInt.sizeT_natCast (by omega)]
  rfl

theorem takeSlots_wf (h : l.WF) (cnt : Nat) : (t.takeSlots cnt l).WF := by
  induction cnt with
  | zero => exact h
  | succ cnt ih => exact ih.join (by simp [slotIdx])

theorem takeSlots_head (h : l.WF) (cnt : Nat) (n : Item) : (t.takeSlots cnt l).head n =
    if ∃ d < cnt, l.head n = some (t.slotIdx d) then some .timeout else l.head n := by
  induction cnt with
  | zero => simp [takeSlots]
  | succ cnt ih =>
    rw [takeSlots, (takeSlots_wf h cnt).join_head, ih]
    by_cases hd : ∃ d < cnt, l.head n = some (t.slotIdx d)
    · have hd' : ∃ d < cnt + 1, l.head n = some (t.slotIdx d) :=
        hd.imp (fun d h => ⟨by omega, h.2⟩)
      rw [if_pos hd, if_pos hd', ite_self]
    · rw [if_neg hd]
      by_cases hc : l.head n = some (t.slotIdx cnt)
      · rw [if_pos hc, if_pos ⟨cnt, by omega, hc⟩]
      · rw [if_neg hc, if_neg]
        rintro ⟨d, hlt, he⟩
        rcases Nat.lt_succ_iff_lt_or_eq.mp hlt with hlt | rfl
        · exact hd ⟨d, hlt, he⟩
        · exact hc he

/-- The slots that come up, in the words of `AddTimeout`. -/
theorem Holds.takeSlots_head (h : t.Holds l ullExpireTime) (hwf : l.WF) {cnt : Nat}
    (hcnt : cnt ≤ t.iItemSize) (n : Item) : (t.takeSlots cnt l).head n =
    if ∃ d < cnt, l.head n = some (t.slotAt d) then some .timeout else l.head n := by
  rw [Timeout.takeSlots_head hwf]
  have hiff : (∃ d < cnt, l.head n = some (t.slotIdx d)) ↔
      ∃ d < cnt, l.head n = some (t.slotAt d) :=
    exists_congr fun d => and_congr_right fun hd => by rw [h.slotIdx_eq (hd.trans_le hcnt)]
  simp only [hiff]

theorem addTimeout_cases (h : t.Holds l ullExpireTime) (hn : l.head n = none)
    (expire allNow : Nat) :
    (∃ d < t.iItemSize, t.ullStart + d ≤ expire ∧ t.ullStart ≤ allNow ∧ allNow ≤ expire ∧
      t.addTimeout l n expire allNow = (.ok, t, l.addTail n (t.slotAt d))) ∨
    ∃ ret, ret ≠ .ok ∧ (allNow < t.ullStart ∨ expire < allNow) ∧
      t.addTimeout l n expire allNow = (ret, t, l) := by
  have hsize := h.size
  rw [addTimeout, started_of_pos h.start]
  dsimp only
  by_cases hback : allNow < t.ullStart
  · exact .inr ⟨.clockBack, by simp, .inl hback, by rw [if_pos hback]⟩
  · by_cases hexp : expire < allNow
    · exact .inr ⟨.expired, by simp, .inr hexp, by rw [if_neg hback, if_pos hexp]⟩
    · rw [if_neg hback, if_neg hexp, if_pos hn]
      by_cases hfar : t.iItemSize ≤ expire - t.ullStart
      · exact .inl ⟨t.iItemSize - 1, by omega, by omega, by omega, by omega, by rw [if_pos hfar]⟩
      · exact .inl ⟨expire - t.ullStart, by omega, by omega, by omega, by omega,
          by rw [if_neg hfar]⟩

theorem takeAllTimeout_eq (h : t.Holds l ullExpireTime) (hle : t.ullStart ≤ allNow)
    (hgap : allNow + 1 < t.ullStart + 2 ^ 31) :
    t.takeAllTimeout l allNow =
      ({ t with ullStart := allNow, llStartIdx :=
          t.llStartIdx + ((min (allNow - t.ullStart + 1) t.iItemSize : Nat) - 1 : Int) },
        t.takeSlots (min (allNow - t.ullStart + 1) t.iItemSize) l) := by
  have hcnt : CInt.toInt (allNow - t.ullStart + 1) = allNow - t.ullStart + 1 :=
    CInt.toInt_of_range (by omega) (by omega)
  rw [takeAllTimeout, started_of_pos h.start, if_neg (by omega), hcnt]
  dsimp only
  by_cases hfar : (t.iItemSize : Int) < allNow - t.ullStart + 1
  · have hmin : min (allNow - t.ullStart + 1) t.iItemSize = t.iItemSize := by omega
    rw [if_pos hfar, if_neg (by omega), hmin, Int.toNat_natCast]
  · have hmin : ((min (allNow - t.ullStart + 1) t.iItemSize : Nat) : Int) =
        allNow - t.ullStart + 1 := by omega
    rw [if_neg hfar, if_neg (by omega), hmin]
    congr 2
    omega

theorem takeAllTimeout_back (h : t.Holds l ullExpireTime) (hlt : allNow < t.ullStart) :
    t.takeAllTimeout l allNow = (t, l) := by
  rw [takeAllTimeout, started_of_pos h.start, if_pos hlt]

theorem takeAllTimeout_holds (h : t.Holds l ullExpireTime) (hwf : l.WF) (hle : t.ullStart ≤ allNow)
    (hgap : allNow + 1 < t.ullStart + 2 ^ 31) (hclock : allNow < 2 ^ 63) :
    (t.takeAllTimeout l allNow).1.Holds (t.takeAllTimeout l allNow).2 ullExpireTime ∧
      ∀ n i, (t.takeAllTimeout l allNow).2.head n = some (.slot i) → allNow < ullExpireTime n := by
  have hsize := h.size
  have hstart := h.start
  have hidx := h.idx
  have hidx_le := h.idx_le
  rw [takeAllTimeout_eq h hle hgap]
  generalize hcnt : min (allNow - t.ullStart + 1) t.iItemSize = cnt
  have hstay : ∀ n i, (t.takeSlots cnt l).head n = some (.slot i) →
      ∃ d, cnt ≤ d ∧ d < t.iItemSize ∧ .slot i = t.slotAt d ∧ t.ullStart + d ≤ ullExpireTime n := by
    intro n i hn
    rw [h.takeSlots_head hwf (by omega)] at hn
    by_cases hd : ∃ d < cnt, l.head n = some (t.slotAt d)
    · simp [hd] at hn
    · rw [if_neg hd] at hn
      obtain ⟨d, hlt, hslot, hexp⟩ := h.slot n i hn
      refine ⟨d, ?_, hlt, hslot, hexp⟩
      by_contra hlt'
      exact hd ⟨d, by omega, by rw [hn, hslot]⟩
  refine ⟨⟨hsize, h.size_lt, by dsimp only; omega, hclock, by dsimp only; omega,
    by dsimp only; omega, fun n i hn => ?_⟩, fun n i hn => ?_⟩
  · obtain ⟨d, hge, hlt, hslot, hexp⟩ := hstay n i hn
    refine ⟨d - (allNow - t.ullStart), by dsimp only; omega, ?_, by dsimp only; omega⟩
    have hsum : t.llStartIdx + ((cnt : Int) - 1) + ((d - (allNow - t.ullStart) : Nat) : Int) =
        t.llStartIdx + d := by omega
    rw [hslot, slotAt, slotAt]
    dsimp only
    rw [hsum]
  · obtain ⟨d, hge, hlt, _, hexp⟩ := hstay n i hn
    omega

/-- What `TakeAllTimeout` leaves, whether the clock has gone back or not. -/
structure Took (t t' : Timeout) (l l' : ItemLists) (ullExpireTime : Item → Nat) (allNow : Nat) :
    Prop where
  wf : l'.WF
  holds : t'.Holds l' ullExpireTime
  size : t'.iItemSize = t.iItemSize
  seen : allNow ≤ t'.ullStart
  mono : t.ullStart ≤ t'.ullStart
  due : ∀ n i, l'.head n = some (.slot i) → t'.ullStart < ullExpireTime n
  moved : ∀ n, l'.head n = l.head n ∨
    (∃ i, l.head n = some (.slot i)) ∧ l'.head n = some .timeout ∧ t'.ullStart = allNow

theorem takeAllTimeout_took (h : t.Holds l ullExpireTime) (hwf : l.WF)
    (hdue : ∀ n i, l.head n = some (.slot i) → t.ullStart < ullExpireTime n)
    (hgap : allNow + 1 < t.ullStart + 2 ^ 31) (hclock : allNow < 2 ^ 63) :
    t.Took (t.takeAllTimeout l allNow).1 l (t.takeAllTimeout l allNow).2 ullExpireTime allNow := by
  by_cases hback : allNow < t.ullStart
  · rw [takeAllTimeout_back h hback]
    exact ⟨hwf, h, rfl, Nat.le_of_lt hback, le_refl _, hdue, fun n => .inl rfl⟩
  · have hle : t.ullStart ≤ allNow := Nat.le_of_not_lt hback
    obtain ⟨hholds, hlater⟩ := takeAllTimeout_holds h hwf hle hgap hclock
    rw [takeAllTimeout_eq h hle hgap] at hholds hlater ⊢
    refine ⟨takeSlots_wf hwf _, hholds, rfl, le_refl _, hle, hlater, fun n => ?_⟩
    rw [h.takeSlots_head hwf (Nat.min_le_right _ _)]
    by_cases hd : ∃ d < min (allNow - t.ullStart + 1) t.iItemSize, l.head n = some (t.slotAt d)
    · obtain ⟨d, _, hslot⟩ := id hd
      exact .inr ⟨⟨_, hslot⟩, by rw [if_pos hd], rfl⟩
    · exact .inl (by rw [if_neg hd])

end Timeout

end AlgorithmLib.CoRoutine
