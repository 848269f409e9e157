import Mathlib.Algebra.Order.Ring.Int
import AlgorithmLib.Library.Loop

/-!
`findFirst` of `ds_tools.h`: a pattern is searched in the first bytes of a buffer. The last character
of a match is counted by the branch for the second character and the following ones only, so a
pattern of one character is never found.
-/

set_option autoImplicit false

namespace AlgorithmLib.DsTools

open Loop

/-- The variables of `findFirst`; `p1` and `p2` are counted from `buf` and `expr`. -/
structure Finder where
  p1 : Nat
  p2 : Nat
  curoffset : Nat
  sameTimes : Nat
  exprOffSet : Int
  deriving DecidableEq, Repr

/-- A turn of the loop; `none` is a read outside of the buffer or of the pattern with its NUL. -/
def findTurn (buf expr : List UInt8) (bufMaxLen : Int) (s : Finder) : Option (Turn Finder Int) :=
  if s.curoffset < bufMaxLen then
    match buf[s.p1]?, (expr ++ [0])[s.p2]? with
    | some c, some e =>
      if c = e ∧ s.sameTimes = 0 then
        some (.next
          { p1 := s.p1 + 1, p2 := s.p2 + 1, curoffset := s.curoffset + 1
            sameTimes := s.sameTimes + 1, exprOffSet := s.curoffset })
      else if c = e ∧ s.sameTimes < expr.length then
        if s.sameTimes + 1 = expr.length then some (.done s.exprOffSet)
        else
          some (.next
            { s with
              p1 := s.p1 + 1, p2 := s.p2 + 1, curoffset := s.curoffset + 1
              sameTimes := s.sameTimes + 1 })
      else if s.exprOffSet ≥ 0 then
        some (.next
          { p1 := s.exprOffSet.toNat + 1, p2 := 0, curoffset := s.exprOffSet.toNat + 1
            sameTimes := 0, exprOffSet := -1 })
      else some (.next { s with p1 := s.p1 + 1, curoffset := s.curoffset + 1 })
    | _, _ => none
  else some (.done (-1))

/-- `findFirst` with so many turns at most; without a buffer `buf` is `NULL`. -/
def findFirst (turns : Nat) (buf : Option (List UInt8)) (offset : Int) (expr : List UInt8)
    (bufMaxLen : Int) : Option Int :=
  match buf with
  | none => some (-1)
  | some buf =>
    if offset < 0 ∨ offset > bufMaxLen - 1 then some (-1)
    else
      loop (findTurn buf expr bufMaxLen) turns
        { p1 := offset.toNat, p2 := 0, curoffset := offset.toNat, sameTimes := 0, exprOffSet := -1 }

def OccursAt (expr text : List UInt8) (i : Nat) : Prop := expr <+: text.drop i

instance (expr text : List UInt8) : DecidablePred (OccursAt expr text) :=
  fun i => inferInstanceAs (Decidable (expr <+: text.drop i))

/-- The least index of the pattern from `offset` on, or -1. -/
def IsFirst (expr text : List UInt8) (offset : Nat) (r : Int) : Prop :=
  (r = -1 ∧ ∀ i, offset ≤ i → ¬ OccursAt expr text i) ∨
    ∃ i : Nat, r = i ∧ offset ≤ i ∧ OccursAt expr text i ∧
      ∀ j, offset ≤ j → j < i → ¬ OccursAt expr text j

/-- The loop has compared `k` characters from `i` on. -/
def Finder.at_ (i k : Nat) : Finder :=
  { p1 := i + k, p2 := k, curoffset := i + k, sameTimes := k, exprOffSet := if k = 0 then -1 else i }

section

variable {buf expr : List UInt8} {n i k : Nat}

theorem findTurn_end (h : n ≤ i + k) : findTurn buf expr n (.at_ i k) = some (.done (-1)) := by
  rw [findTurn, if_neg]
  simp only [Finder.at_]
  omega

theorem findTurn_compare (hn : i + k < n) (hbuf : n ≤ buf.length) (hk : k < expr.length) :
    findTurn buf expr n (.at_ i k) =
      some (if buf[i + k]? = expr[k]? then
          if k ≠ 0 ∧ k + 1 = expr.length then .done i else .next (.at_ i (k + 1))
        else .next (.at_ (i + 1) 0)) := by
  have hc : buf[i + k]? = some buf[i + k] := List.getElem?_eq_getElem (by omega)
  have he : expr[k]? = some expr[k] := List.getElem?_eq_getElem hk
  have he' : (expr ++ [0])[k]? = some expr[k] := by rw [List.getElem?_append_left hk, he]
  rw [findTurn, if_pos (by simp only [Finder.at_]; omega)]
  simp only [Finder.at_, hc, he, he', Option.some.injEq]
  generalize buf[i + k] = c
  generalize expr[k] = e
  by_cases h0 : k = 0
  · by_cases hsame : c = e
    · simp [hsame, h0]
    · simp [hsame, h0]
  · by_cases hsame : c = e
    · by_cases hlast : k + 1 = expr.length
      · simp [hsame, h0, hk, hlast]
      · simp [hsame, h0, hk, hlast, Nat.add_assoc]
    · simp [hsame, h0]

theorem findTurn_single (hn : i + 1 < n) (hbuf : n ≤ buf.length) (hexpr : expr.length = 1) :
    findTurn buf expr n (.at_ i 1) = some (.next (.at_ (i + 1) 0)) := by
  have hc : buf[i + 1]? = some buf[i + 1] := List.getElem?_eq_getElem (by omega)
  rw [findTurn, if_pos (by simp only [Finder.at_]; omega)]
  simp [Finder.at_, hc, hexpr]

def turnsLeft (n : Nat) (expr : List UInt8) (s : Finder) : Nat :=
  (n - (s.curoffset - s.sameTimes)) * (expr.length + 1) + (expr.length - s.sameTimes)

theorem turnsLeft_longer (hk : k < expr.length) :
    turnsLeft n expr (.at_ i (k + 1)) < turnsLeft n expr (.at_ i k) := by
  simp only [turnsLeft, Finder.at_, Nat.add_sub_cancel]
  omega

theorem turnsLeft_restart (hn : i < n) :
    turnsLeft n expr (.at_ (i + 1) 0) < turnsLeft n expr (.at_ i k) := by
  obtain ⟨m, rfl⟩ := Nat.exists_eq_add_of_lt hn
  have hleft : i + m + 1 - i = (i + m + 1 - (i + 1)) + 1 := by omega
  simp only [turnsLeft, Finder.at_, Nat.add_sub_cancel, Nat.sub_zero, Nat.add_zero, hleft,
    Nat.succ_mul]
  omega

theorem occursAt_iff {text : List UInt8} :
    OccursAt expr text i ↔ ∀ j, j < expr.length → text[i + j]? = expr[j]? := by
  rw [OccursAt, List.prefix_iff_getElem?]
  refine forall_congr' fun j => forall_congr' fun hj => ?_
  rw [List.getElem?_drop, List.getElem?_eq_getElem hj]

theorem OccursAt.length_le {text : List UInt8} (h : OccursAt expr text i) (hexpr : expr ≠ []) :
    i + expr.length ≤ text.length := by
  have hpos := List.length_pos_iff.mpr hexpr
  have hlen := List.IsPrefix.length_le h
  rw [List.length_drop] at hlen
  omega

/-- The search has come to `i` and found nothing before. -/
structure Searching (buf expr : List UInt8) (n offset : Nat) (s : Finder) : Prop where
  at_ : ∃ i k, s = .at_ i k ∧ offset ≤ i ∧ i + k ≤ n ∧ k < expr.length ∧
    (∀ j, j < k → buf[i + j]? = expr[j]?) ∧
      ∀ j, offset ≤ j → j < i → ¬ OccursAt expr (buf.take n) j

theorem Searching.turn {offset : Nat} {s : Finder} (hbuf : n ≤ buf.length) (hexpr : 2 ≤ expr.length)
    (h : Searching buf expr n offset s) :
    (∃ r, findTurn buf expr n s = some (.done r) ∧ IsFirst expr (buf.take n) offset r) ∨
      ∃ t, findTurn buf expr n s = some (.next t) ∧ Searching buf expr n offset t ∧
        turnsLeft n expr t < turnsLeft n expr s := by
  obtain ⟨i, k, rfl, hoffset, hle, hk, hmatch, hbefore⟩ := h.at_
  have hne : expr ≠ [] := by rintro rfl; simp at hexpr
  rcases Nat.lt_or_eq_of_le hle with hn | hend
  · have htake : ∀ j, i + j < n → (buf.take n)[i + j]? = buf[i + j]? :=
      fun j hj => List.getElem?_take_of_lt hj
    rw [findTurn_compare hn hbuf hk]
    split
    next hc =>
      have hlonger : ∀ j, j < k + 1 → buf[i + j]? = expr[j]? := by
        intro j hj
        rcases Nat.lt_succ_iff_lt_or_eq.mp hj with hj | rfl
        · exact hmatch j hj
        · exact hc
      split
      next hlast =>
        refine .inl ⟨i, rfl, .inr ⟨i, rfl, hoffset, occursAt_iff.mpr fun j hj => ?_, hbefore⟩⟩
        rw [htake j (by omega)]
        exact hlonger j (by omega)
      next hmore =>
        refine .inr ⟨_, rfl, ⟨i, k + 1, rfl, hoffset, by omega, ?_, hlonger, hbefore⟩,
          turnsLeft_longer hk⟩
        simp only [not_and] at hmore
        by_cases h0 : k = 0
        · omega
        · have hk' := hmore h0
          omega
    next hc =>
      have hnot : ¬ OccursAt expr (buf.take n) i := by
        intro hoccurs
        have hget := occursAt_iff.mp hoccurs k hk
        rw [htake k hn] at hget
        exact hc hget
      refine .inr ⟨_, rfl, ⟨i + 1, 0, rfl, by omega, by omega, by omega, ?_, ?_⟩,
        turnsLeft_restart (by omega)⟩
      · intro j hj
        omega
      · intro j hj hlt
        rcases Nat.lt_succ_iff_lt_or_eq.mp hlt with hlt | rfl
        · exact hbefore j hj hlt
        · exact hnot
  · refine .inl ⟨-1, findTurn_end hend.ge, .inl ⟨rfl, fun j hj hoccurs => ?_⟩⟩
    have hlength := hoccurs.length_le hne
    rw [List.length_take] at hlength
    exact hbefore j hj (by omega) hoccurs

/-- The search for one character has come to `i`. -/
def Passing (n : Nat) (s : Finder) : Prop := ∃ i k, s = .at_ i k ∧ k ≤ 1 ∧ i + k ≤ n

theorem Passing.turn {s : Finder} (hbuf : n ≤ buf.length) (hexpr : expr.length = 1)
    (h : Passing n s) :
    (∃ r, findTurn buf expr n s = some (.done r) ∧ r = -1) ∨
      ∃ t, findTurn buf expr n s = some (.next t) ∧ Passing n t ∧
        turnsLeft n expr t < turnsLeft n expr s := by
  obtain ⟨i, k, rfl, hk, hle⟩ := h
  rcases Nat.lt_or_eq_of_le hle with hn | hend
  · rcases Nat.le_one_iff_eq_zero_or_eq_one.mp hk with rfl | rfl
    · rw [findTurn_compare hn hbuf (by omega)]
      split
      · refine .inr ⟨_, rfl, ⟨i, 1, rfl, le_rfl, by omega⟩, turnsLeft_longer (by omega)⟩
      · refine .inr ⟨_, rfl, ⟨i + 1, 0, rfl, by omega, by omega⟩,
          turnsLeft_restart (by omega)⟩
    · exact .inr ⟨_, findTurn_single hn hbuf hexpr, ⟨i + 1, 0, rfl, by omega, by omega⟩,
        turnsLeft_restart (by omega)⟩
  · exact .inl ⟨-1, findTurn_end hend.ge, rfl⟩

end

/-- `findFirst` returns, with this result. -/
def Returns (buf : Option (List UInt8)) (offset : Int) (expr : List UInt8) (bufMaxLen r : Int) :
    Prop :=
  ∃ turns, findFirst turns buf offset expr bufMaxLen = some r

theorem returns_iff {buf expr : List UInt8} {offset n : Nat} {r : Int} (h : offset < n) :
    Returns buf offset expr n r ↔ Ends (findTurn buf expr n) (.at_ offset 0) r := by
  have hrange : ¬ ((offset : Int) < 0 ∨ (offset : Int) > n - 1) := by omega
  simp only [Returns, findFirst, if_neg hrange]
  rfl

theorem mem_drop_of_occursAt {text : List UInt8} {c : UInt8} {offset i : Nat} (hi : offset ≤ i)
    (h : OccursAt [c] text i) : c ∈ text.drop offset := by
  have hget := occursAt_iff.mp h 0 (by simp)
  obtain ⟨k, rfl⟩ := Nat.exists_eq_add_of_le hi
  rw [Nat.add_zero, ← List.getElem?_drop] at hget
  exact List.mem_of_getElem? hget

theorem occursAt_of_mem_drop {text : List UInt8} {c : UInt8} {offset : Nat}
    (h : c ∈ text.drop offset) : ∃ i, offset ≤ i ∧ OccursAt [c] text i := by
  obtain ⟨k, hk⟩ := List.mem_iff_getElem?.mp h
  rw [List.getElem?_drop] at hk
  refine ⟨offset + k, by omega, occursAt_iff.mpr fun j hj => ?_⟩
  obtain rfl : j = 0 := by simpa using hj
  simpa using hk

theorem find_first_is_first (buf expr : List UInt8) (offset bufMaxLen : Nat)
    (hbuf : bufMaxLen ≤ buf.length) (hoffset : offset < bufMaxLen) (hexpr : expr ≠ []) :
    (∃ r, Returns buf offset expr bufMaxLen r ∧ IsFirst expr (buf.take bufMaxLen) offset r) ↔
      2 ≤ expr.length ∨ ∀ c ∈ expr, c ∉ (buf.take bufMaxLen).drop offset := by
  simp only [returns_iff hoffset]
  rcases Nat.lt_or_ge expr.length 2 with hshort | hlong
  · obtain ⟨c, rfl⟩ : ∃ c, expr = [c] := by
      have hpos := List.length_pos_iff.mpr hexpr
      exact List.length_eq_one_iff.mp (by omega)
    obtain ⟨r, hends, rfl⟩ := ends_of_measure (turnsLeft bufMaxLen [c])
      (fun s hs => Passing.turn hbuf rfl hs) ⟨offset, 0, rfl, by omega, by omega⟩
    constructor
    · rintro ⟨r, hr, hfirst⟩
      obtain rfl := hr.unique hends
      rcases hfirst with ⟨-, hnone⟩ | ⟨i, hi, -⟩
      · refine .inr fun d hd hmem => ?_
        obtain rfl := List.mem_singleton.mp hd
        obtain ⟨i, hi, hoccurs⟩ := occursAt_of_mem_drop hmem
        exact hnone i hi hoccurs
      · omega
    · rintro (hlong | hnot)
      · simp at hlong
      · exact ⟨-1, hends, .inl ⟨rfl, fun i hi hoccurs =>
          hnot c (by simp) (mem_drop_of_occursAt hi hoccurs)⟩⟩
  · refine iff_of_true ?_ (.inl hlong)
    refine ends_of_measure (turnsLeft bufMaxLen expr) (fun s hs => Searching.turn hbuf hlong hs) ?_
    refine ⟨offset, 0, rfl, le_rfl, by omega, by omega, ?_, ?_⟩
    · intro j hj
      omega
    · intro j hj hlt
      omega

theorem find_first_is_first_overlapping :
    ∃ r, Returns "aaab aab".toUTF8.toList 1 "aab".toUTF8.toList 8 r ∧
      IsFirst "aab".toUTF8.toList ("aaab aab".toUTF8.toList.take 8) 1 r :=
  (find_first_is_first "aaab aab".toUTF8.toList "aab".toUTF8.toList 1 8 (by decide +kernel)
    (by decide) (by decide +kernel)).mpr (.inl (by decide +kernel))

/-- One character, which is the first of the buffer: every call that returns says that it is not
there. -/
theorem find_first_misses_character :
    ¬ ∃ r, Returns "a".toUTF8.toList 0 "a".toUTF8.toList 1 r ∧
      IsFirst "a".toUTF8.toList ("a".toUTF8.toList.take 1) 0 r := by
  rintro ⟨r, hr, hfirst⟩
  have hminus : Returns "a".toUTF8.toList 0 "a".toUTF8.toList 1 (-1) := ⟨3, by decide +kernel⟩
  have hends := (returns_iff Nat.zero_lt_one).mp hr
  obtain rfl := hends.unique ((returns_iff Nat.zero_lt_one).mp hminus)
  rcases hfirst with ⟨-, hnone⟩ | ⟨i, hi, -⟩
  · exact hnone 0 le_rfl (by decide +kernel)
  · omega

end AlgorithmLib.DsTools
