import Mathlib.Data.List.Nodup
import Mathlib.Logic.Function.Basic

/-!
Pieces of doubly linked lists in memory. A piece has a neighbour on either side of it, which `none`
stands for when the list ends there; a ring is a piece that is its own neighbour.
-/

set_option autoImplicit false

namespace AlgorithmLib

/-- The two pointers of every node. -/
@[ext] structure Ptrs (ν : Type) where
  next : ν → Option ν
  prev : ν → Option ν

namespace Ptrs

variable {ν : Type}

/-- No node points anywhere. -/
def null : Ptrs ν := ⟨fun _ => none, fun _ => none⟩

/-- The nodes `ns` are linked one after the other, between the neighbours `p` and `q`. -/
def Seg (m : Ptrs ν) : Option ν → List ν → Option ν → Prop
  | _, [], _ => True
  | p, n :: ns, q => m.prev n = p ∧ m.next n = ns.head?.or q ∧ m.Seg (some n) ns q

variable {m m' : Ptrs ν} {p p' q q' : Option ν} {n : ν} {ns ns' : List ν}

@[simp] theorem seg_nil : m.Seg p [] q := trivial

theorem seg_cons : m.Seg p (n :: ns) q ↔
    m.prev n = p ∧ m.next n = ns.head?.or q ∧ m.Seg (some n) ns q := Iff.rfl

theorem seg_singleton : m.Seg p [n] q ↔ m.prev n = p ∧ m.next n = q := by
  simp [Seg]

/-- Two pieces in a row are each other's neighbours. -/
theorem seg_append : m.Seg p (ns ++ ns') q ↔
    m.Seg p ns (ns'.head?.or q) ∧ m.Seg (ns.getLast?.or p) ns' q := by
  induction ns generalizing p with
  | nil => simp
  | cons n ns ih =>
    cases ns with
    | nil => simp [Seg, and_assoc]
    | cons n' ns =>
      rw [List.cons_append, seg_cons, ih, seg_cons (p := p), List.getLast?_cons_cons]
      have hlast : ∀ p, (n' :: ns).getLast?.or p = (n' :: ns).getLast? := by
        simp [List.getLast?_cons]
      simp only [hlast, List.cons_append, List.head?_cons, Option.some_or, and_assoc]

/-- Only the pointers of its own nodes make a piece. -/
theorem Seg.congr (h : m.Seg p ns q)
    (hm : ∀ n ∈ ns, m'.next n = m.next n ∧ m'.prev n = m.prev n) : m'.Seg p ns q := by
  induction ns generalizing p with
  | nil => trivial
  | cons n ns ih =>
    obtain ⟨hp, hn, hs⟩ := h
    obtain ⟨hn', hp'⟩ := hm n List.mem_cons_self
    exact ⟨hp'.trans hp, hn'.trans hn, ih hs (fun a ha => hm a (List.mem_cons_of_mem n ha))⟩

/-- A piece gets another neighbour on its right. -/
theorem Seg.setRight [DecidableEq ν] (h : m.Seg p ns q) (hnd : ns.Nodup)
    (hm : ∀ n ∈ ns, m'.prev n = m.prev n ∧
      m'.next n = if some n = ns.getLast? then q' else m.next n) : m'.Seg p ns q' := by
  rcases List.eq_nil_or_concat ns with rfl | ⟨ns, a, rfl⟩
  · trivial
  · rw [List.concat_eq_append] at *
    rw [seg_append, seg_singleton] at h ⊢
    obtain ⟨hs, hp, _⟩ := h
    rw [List.nodup_append] at hnd
    obtain ⟨hpa, hna⟩ := hm a (by simp)
    refine ⟨hs.congr (fun n hn => ?_), hpa.trans hp, by simpa using hna⟩
    obtain ⟨hpn, hnn⟩ := hm n (by simp [hn])
    have hne : n ≠ a := hnd.2.2 n hn a (by simp)
    exact ⟨by simpa [hne] using hnn, hpn⟩

/-- A piece gets another neighbour on its left. -/
theorem Seg.setLeft [DecidableEq ν] (h : m.Seg p ns q) (hnd : ns.Nodup)
    (hm : ∀ n ∈ ns, m'.next n = m.next n ∧
      m'.prev n = if some n = ns.head? then p' else m.prev n) : m'.Seg p' ns q := by
  cases ns with
  | nil => trivial
  | cons a ns =>
    obtain ⟨_, hn, hs⟩ := h
    rw [List.nodup_cons] at hnd
    obtain ⟨hna, hpa⟩ := hm a (by simp)
    refine ⟨by simpa using hpa, hna.trans hn, hs.congr (fun n hmem => ?_)⟩
    obtain ⟨hnn, hpn⟩ := hm n (by simp [hmem])
    have hne : n ≠ a := fun he => hnd.1 (he ▸ hmem)
    exact ⟨hnn, by simpa [hne] using hpn⟩

/-- A piece gets other neighbours. -/
theorem Seg.relink [DecidableEq ν] (h : m.Seg p ns q) (hnd : ns.Nodup)
    (hnext : ∀ n ∈ ns, m'.next n = if some n = ns.getLast? then q' else m.next n)
    (hprev : ∀ n ∈ ns, m'.prev n = if some n = ns.head? then p' else m.prev n) :
    m'.Seg p' ns q' := by
  have hright : Seg ⟨m'.next, m.prev⟩ p ns q' :=
    h.setRight hnd (fun n hn => ⟨rfl, hnext n hn⟩)
  exact hright.setLeft hnd (fun n hn => ⟨rfl, hprev n hn⟩)

variable [DecidableEq ν]

def setNext (m : Ptrs ν) (n : ν) (x : Option ν) : Ptrs ν :=
  { m with next := Function.update m.next n x }

def setPrev (m : Ptrs ν) (n : ν) (x : Option ν) : Ptrs ν :=
  { m with prev := Function.update m.prev n x }

@[simp] theorem setNext_next (m : Ptrs ν) (n a : ν) (x : Option ν) :
    (m.setNext n x).next a = if a = n then x else m.next a := by
  simp only [setNext, Function.update_apply]

@[simp] theorem setNext_prev (m : Ptrs ν) (n : ν) (x : Option ν) :
    (m.setNext n x).prev = m.prev := rfl

@[simp] theorem setPrev_prev (m : Ptrs ν) (n a : ν) (x : Option ν) :
    (m.setPrev n x).prev a = if a = n then x else m.prev a := by
  simp only [setPrev, Function.update_apply]

@[simp] theorem setPrev_next (m : Ptrs ν) (n : ν) (x : Option ν) :
    (m.setPrev n x).next = m.next := rfl

/-- The ring of the node `r` and the nodes `ns` behind it. -/
def Ring (m : Ptrs ν) (r : ν) (ns : List ν) : Prop :=
  m.Seg (ns.getLast?.or (some r)) (r :: ns) (some r)

omit [DecidableEq ν]

theorem ring_nil {r : ν} : m.Ring r [] ↔ m.prev r = some r ∧ m.next r = some r := by
  simp [Ring, seg_singleton]

variable {r : ν} {as bs : List ν}

/-- A ring is cut between two of its nodes. -/
theorem ring_append : m.Ring r (as ++ bs) ↔
    m.Seg ((as ++ bs).getLast?.or (some r)) (r :: as) (bs.head?.or (some r)) ∧
      m.Seg (r :: as).getLast? bs (some r) := by
  rw [Ring, ← List.cons_append, seg_append]
  simp [List.getLast?_cons]

theorem Ring.congr (h : m.Ring r ns)
    (hm : ∀ n ∈ r :: ns, m'.next n = m.next n ∧ m'.prev n = m.prev n) : m'.Ring r ns :=
  Seg.congr h hm

theorem Ring.next_root (h : m.Ring r ns) : m.next r = ns.head?.or (some r) := h.2.1

theorem Ring.prev_root (h : m.Ring r ns) : m.prev r = ns.getLast?.or (some r) := h.1

theorem Ring.next (h : m.Ring r (as ++ n :: bs)) : m.next n = bs.head?.or (some r) :=
  (ring_append.mp h).2.2.1

theorem Ring.prev (h : m.Ring r (as ++ n :: bs)) : m.prev n = (r :: as).getLast? :=
  (ring_append.mp h).2.1

variable [DecidableEq ν]

/-- A node goes between two neighbours of the ring. -/
theorem Ring.insert (h : m.Ring r (as ++ bs)) (hnd : (r :: (as ++ bs)).Nodup)
    (hn : n ∉ r :: (as ++ bs))
    (hnext : ∀ a, m'.next a = if a = n then bs.head?.or (some r)
      else if some a = (r :: as).getLast? then some n else m.next a)
    (hprev : ∀ a, m'.prev a = if a = n then (r :: as).getLast?
      else if some a = bs.head?.or (some r) then some n else m.prev a) :
    m'.Ring r (as ++ n :: bs) := by
  rw [ring_append] at h
  rw [ring_append, seg_cons (n := n), hnext, hprev, if_pos rfl, if_pos rfl]
  rw [← List.cons_append, List.nodup_append] at hnd
  rw [← List.cons_append, List.mem_append, not_or] at hn
  obtain ⟨hna, hnb⟩ := hn
  refine ⟨h.1.relink hnd.1 (fun a ha => ?_) (fun a ha => ?_), rfl, rfl,
    h.2.setLeft hnd.2.1 (fun b hb => ?_)⟩
  · have hne : a ≠ n := fun he => hna (he ▸ ha)
    rw [hnext, if_neg hne]
    simp
  · have hne : a ≠ n := fun he => hna (he ▸ ha)
    rw [hprev, if_neg hne]
    have hb : ∀ b, bs.head? = some b → a ≠ b := fun b he =>
      hnd.2.2 a ha b (List.mem_of_head? he)
    cases bs with
    | nil => simp
    | cons b bs =>
      have hroot := h.1.1
      simp [hb b rfl, List.getLast?_cons] at hroot ⊢
      rintro rfl
      exact hroot
  · have ha : some b ≠ (r :: as).getLast? := fun he =>
      hnd.2.2 b (List.mem_of_getLast? he.symm) b hb rfl
    have hne : b ≠ n := fun he => hnb (he ▸ hb)
    rw [hnext, hprev, if_neg hne, if_neg hne, if_neg ha]
    refine ⟨rfl, ?_⟩
    cases bs with
    | nil => simp at hb
    | cons b' bs => simp

/-- The neighbours of a node of the ring become each other's. -/
theorem Ring.remove (h : m.Ring r (as ++ n :: bs)) (hnd : (r :: (as ++ n :: bs)).Nodup)
    (hnext : ∀ a, a ≠ n → m'.next a =
      if some a = (r :: as).getLast? then bs.head?.or (some r) else m.next a)
    (hprev : ∀ a, a ≠ n → m'.prev a =
      if some a = bs.head?.or (some r) then (r :: as).getLast? else m.prev a) :
    m'.Ring r (as ++ bs) := by
  rw [ring_append, seg_cons (n := n)] at h
  rw [ring_append]
  rw [← List.cons_append, List.nodup_append] at hnd
  obtain ⟨hna, hndb, hdisj⟩ := hnd
  obtain ⟨hnb, hnd⟩ := List.nodup_cons.mp hndb
  have hane : ∀ a ∈ r :: as, a ≠ n := fun a ha => hdisj a ha n (by simp)
  refine ⟨h.1.relink hna (fun a ha => ?_) (fun a ha => ?_), h.2.2.2.setLeft hnd (fun b hb => ?_)⟩
  · rw [hnext a (hane a ha)]
  · rw [hprev a (hane a ha)]
    have hb : ∀ b, bs.head? = some b → a ≠ b := fun b he =>
      hdisj a ha b (List.mem_cons_of_mem n (List.mem_of_head? he))
    cases bs with
    | nil => simp [List.getLast?_cons]
    | cons b bs =>
      have hroot := h.1.1
      simp [hb b rfl, List.getLast?_cons] at hroot ⊢
      rintro rfl
      exact hroot
  · have hbn : b ≠ n := fun he => hnb (he ▸ hb)
    have ha : some b ≠ (r :: as).getLast? := fun he =>
      hdisj b (List.mem_of_getLast? he.symm) b (List.mem_cons_of_mem n hb) rfl
    rw [hnext b hbn, hprev b hbn, if_neg ha]
    refine ⟨rfl, ?_⟩
    cases bs with
    | nil => simp at hb
    | cons b' bs => simp

/-- The nodes of a ring go behind the root of another one. -/
theorem Ring.splice {r' n' : ν} (h : m.Ring r ns) (m' : Ptrs ν) (h' : m.Ring r' (n' :: ns'))
    (hnd : (r :: ns).Nodup) (hnd' : (n' :: ns').Nodup)
    (hdisj : ∀ a ∈ r :: ns, a ∉ n' :: ns')
    (hnext : ∀ a, m'.next a = if some a = (n' :: ns').getLast? then m.next r
      else if a = r then some n' else m.next a)
    (hprev : ∀ a, m'.prev a = if some a = m.next r then (n' :: ns').getLast?
      else if a = n' then some r else m.prev a) :
    m'.Ring r (n' :: ns' ++ ns) := by
  have hroot := h.next_root
  have hlast : ∀ a ∈ r :: ns, some a ≠ (n' :: ns').getLast? := fun a ha he =>
    hdisj a ha (List.mem_of_getLast? he.symm)
  have hfirst : ∀ a ∈ n' :: ns', some a ≠ m.next r := by
    intro a ha he
    rw [hroot] at he
    cases hns : ns.head? with
    | none =>
      rw [hns, Option.none_or, Option.some.injEq] at he
      exact hdisj a (by simp [he]) ha
    | some b =>
      rw [hns, Option.some_or, Option.some.injEq] at he
      exact hdisj a (by simp [he, List.mem_of_head? hns]) ha
  have hr' : r ∉ ns := (List.nodup_cons.mp hnd).1
  have hne : r ≠ n' := fun he => hdisj r (by simp) (by simp [he])
  rw [ring_append]
  refine ⟨⟨?_, ?_, h'.2.2.relink hnd' (fun a ha => ?_) (fun a ha => ?_)⟩,
    h.2.2.setLeft (List.nodup_cons.mp hnd).2 (fun a ha => ?_)⟩
  · rw [hprev, hroot, if_neg hne, h.prev_root]
    cases ns with
    | nil => simp [List.getLast?_cons]
    | cons b ns =>
      have hb : r ≠ b := fun he => hr' (by simp [he])
      simp [hb, List.getLast?_cons]
  · rw [hnext, if_neg (hlast r (by simp)), if_pos rfl]
    rfl
  · have har : a ≠ r := fun he => hdisj r (by simp) (he ▸ ha)
    rw [hnext, if_neg har, hroot]
  · rw [hprev, if_neg (hfirst a ha)]
    simp
  · have har : a ≠ r := fun he => hr' (he ▸ ha)
    have han : a ≠ n' := fun he => hdisj a (by simp [ha]) (by simp [he])
    rw [hnext, if_neg (hlast a (by simp [ha])), if_neg har, hprev, if_neg han, hroot]
    refine ⟨rfl, ?_⟩
    cases ns with
    | nil => simp at ha
    | cons b ns => simp [List.getLast?_cons]

end Ptrs

end AlgorithmLib
