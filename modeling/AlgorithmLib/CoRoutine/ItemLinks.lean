import AlgorithmLib.Library.Links
import AlgorithmLib.Library.Loop
import AlgorithmLib.Library.Run
import AlgorithmLib.Library.Segment

/-!
The lists of `co_routine.cpp` in memory: a list has its `head` and its `tail`, an item its
neighbours and the list it is on. `RemoveFromLink`, `AddTail`, `PopHead` and `Join` are what the
items of the time wheel, of the active list and of the conditions are moved with.
-/

set_option autoImplicit false
set_option linter.unusedSectionVars false

namespace AlgorithmLib.CoRoutine

structure LinkMem (ν π : Type) where
  ptrs : Ptrs ν
  pLink : ν → Option π
  head : π → Option ν
  tail : π → Option ν

namespace LinkMem

variable {ν π : Type} [DecidableEq ν] [DecidableEq π]

/-- Items and lists are `calloc`ed. -/
def calloc : LinkMem ν π :=
  { ptrs := .null, pLink := fun _ => none, head := fun _ => none, tail := fun _ => none }

/-- `if(p) p->pNext = x` -/
def linkNext (m : LinkMem ν π) (p x : Option ν) : LinkMem ν π :=
  match p with
  | none => m
  | some n => { m with ptrs := m.ptrs.setNext n x }

/-- `if(p) p->pPrev = x` -/
def linkPrev (m : LinkMem ν π) (p x : Option ν) : LinkMem ν π :=
  match p with
  | none => m
  | some n => { m with ptrs := m.ptrs.setPrev n x }

def setHead (m : LinkMem ν π) (lst : π) (x : Option ν) : LinkMem ν π :=
  { m with head := Function.update m.head lst x }

def setTail (m : LinkMem ν π) (lst : π) (x : Option ν) : LinkMem ν π :=
  { m with tail := Function.update m.tail lst x }

def setLink (m : LinkMem ν π) (ap : ν) (x : Option π) : LinkMem ν π :=
  { m with pLink := Function.update m.pLink ap x }

/-- `ap->pPrev = ap->pNext = NULL`, `ap->pLink = NULL` -/
def loosen (m : LinkMem ν π) (ap : ν) : LinkMem ν π :=
  ((m.linkPrev (some ap) none).linkNext (some ap) none).setLink ap none

/-- The item before `ap`, or the head, is linked to the item behind it. -/
def passHead (m : LinkMem ν π) (lst : π) (ap : ν) : LinkMem ν π :=
  if m.head lst = some ap then (m.setHead lst (m.ptrs.next ap)).linkPrev (m.ptrs.next ap) none
  else m.linkNext (m.ptrs.prev ap) (m.ptrs.next ap)

/-- The item behind `ap`, or the tail, is linked to the item before it. -/
def passTail (m : LinkMem ν π) (lst : π) (ap : ν) : Option (LinkMem ν π) :=
  if m.tail lst = some ap then
    some ((m.setTail lst (m.ptrs.prev ap)).linkNext (m.ptrs.prev ap) none)
  else
    match m.ptrs.next ap with
    | none => none
    | some n => some (m.linkPrev (some n) (m.ptrs.prev ap))

def removeFromLink (m : LinkMem ν π) (ap : ν) : Option (LinkMem ν π) :=
  match m.pLink ap with
  | none => some m
  | some lst =>
    if m.head lst = none ∨ m.tail lst = none then none
    else ((m.passHead lst ap).passTail lst ap).map fun m => m.loosen ap

def addTail (m : LinkMem ν π) (apLink : π) (ap : ν) : LinkMem ν π :=
  match m.pLink ap with
  | some _ => m
  | none =>
    match m.tail apLink with
    | some tail =>
      ((((m.linkNext (some tail) (some ap)).linkNext (some ap) none).linkPrev (some ap)
        (some tail)).setTail apLink (some ap)).setLink ap (some apLink)
    | none =>
      ((((m.setHead apLink (some ap)).setTail apLink (some ap)).linkNext (some ap) none).linkPrev
        (some ap) none).setLink ap (some apLink)

def popHead (m : LinkMem ν π) (apLink : π) : LinkMem ν π :=
  match m.head apLink with
  | none => m
  | some lp =>
    let m :=
      if m.head apLink = m.tail apLink then (m.setHead apLink none).setTail apLink none
      else m.setHead apLink (m.ptrs.next lp)
    let m := m.loosen lp
    m.linkPrev (m.head apLink) none

/-- A turn of the loop over the list of `apOther` in `Join`. -/
def joinTurn (apLink : π) (s : LinkMem ν π × Option ν) :
    Option (Loop.Turn (LinkMem ν π × Option ν) (LinkMem ν π)) :=
  match s.2 with
  | none => some (.done s.1)
  | some lp => some (.next (s.1.setLink lp (some apLink), s.1.ptrs.next lp))

/-- `Join`, when its loop takes so many turns at most. -/
def join (turns : Nat) (m : LinkMem ν π) (apLink apOther : π) : Option (LinkMem ν π) :=
  match m.head apOther with
  | none => some m
  | some lp =>
    (Loop.loop (joinTurn apLink) turns (m, some lp)).map fun m =>
      let m :=
        match m.tail apLink with
        | some tail =>
          ((m.linkNext (some tail) (some lp)).linkPrev (some lp) (some tail)).setTail apLink
            (m.tail apOther)
        | none => (m.setHead apLink (m.head apOther)).setTail apLink (m.tail apOther)
      (m.setHead apOther none).setTail apOther none

/-- Every item of `ns` is on the list. -/
def relink (m : LinkMem ν π) (ns : List ν) (apLink : π) : LinkMem ν π :=
  { m with pLink := fun n => if n ∈ ns then some apLink else m.pLink n }

/-- The memory holds these lists. -/
structure Represents (m : LinkMem ν π) (l : Links ν π) : Prop where
  wf : l.WF
  pLink : ∀ n, m.pLink n = l.head n
  head : ∀ p, m.head p = (l.list p).head?
  tail : ∀ p, m.tail p = (l.list p).getLast?
  seg : ∀ p, m.ptrs.Seg none (l.list p) none

theorem represents_calloc : Represents (calloc : LinkMem ν π) Links.empty :=
  { wf := Links.wf_empty, pLink := fun _ => rfl, head := fun _ => rfl, tail := fun _ => rfl
    seg := fun _ => trivial }

section

variable (m : LinkMem ν π) (p x : Option ν) (lst q : π) (ap n : ν) (y : Option π)

@[simp] theorem linkNext_next : (m.linkNext p x).ptrs.next n =
    if some n = p then x else m.ptrs.next n := by
  cases p with
  | none => simp [linkNext]
  | some a => simp [linkNext]

@[simp] theorem linkNext_prev : (m.linkNext p x).ptrs.prev = m.ptrs.prev := by
  cases p <;> rfl

@[simp] theorem linkPrev_prev : (m.linkPrev p x).ptrs.prev n =
    if some n = p then x else m.ptrs.prev n := by
  cases p with
  | none => simp [linkPrev]
  | some a => simp [linkPrev]

@[simp] theorem linkPrev_next : (m.linkPrev p x).ptrs.next = m.ptrs.next := by
  cases p <;> rfl

@[simp] theorem linkNext_head : (m.linkNext p x).head = m.head := by cases p <;> rfl
@[simp] theorem linkNext_tail : (m.linkNext p x).tail = m.tail := by cases p <;> rfl
@[simp] theorem linkNext_pLink : (m.linkNext p x).pLink = m.pLink := by cases p <;> rfl
@[simp] theorem linkPrev_head : (m.linkPrev p x).head = m.head := by cases p <;> rfl
@[simp] theorem linkPrev_tail : (m.linkPrev p x).tail = m.tail := by cases p <;> rfl
@[simp] theorem linkPrev_pLink : (m.linkPrev p x).pLink = m.pLink := by cases p <;> rfl
@[simp] theorem setHead_ptrs : (m.setHead lst x).ptrs = m.ptrs := rfl
@[simp] theorem setHead_tail : (m.setHead lst x).tail = m.tail := rfl
@[simp] theorem setHead_pLink : (m.setHead lst x).pLink = m.pLink := rfl
@[simp] theorem setTail_ptrs : (m.setTail lst x).ptrs = m.ptrs := rfl
@[simp] theorem setTail_head : (m.setTail lst x).head = m.head := rfl
@[simp] theorem setTail_pLink : (m.setTail lst x).pLink = m.pLink := rfl
@[simp] theorem setLink_ptrs : (m.setLink ap y).ptrs = m.ptrs := rfl
@[simp] theorem setLink_head : (m.setLink ap y).head = m.head := rfl
@[simp] theorem setLink_tail : (m.setLink ap y).tail = m.tail := rfl

@[simp] theorem setHead_head : (m.setHead lst x).head q = if q = lst then x else m.head q := by
  simp [setHead, Function.update_apply]

@[simp] theorem setTail_tail : (m.setTail lst x).tail q = if q = lst then x else m.tail q := by
  simp [setTail, Function.update_apply]

@[simp] theorem setLink_pLink : (m.setLink ap y).pLink n = if n = ap then y else m.pLink n := by
  simp [setLink, Function.update_apply]

end

variable {m m' : LinkMem ν π} {l : Links ν π} {p q lst : π} {ap n : ν}

namespace Represents

theorem split (h : m.Represents l) {bs : List ν} (as : List ν) (hl : l.list lst = as ++ ap :: bs) :
    m.ptrs.Seg none as (some ap) ∧ m.ptrs.prev ap = as.getLast? ∧ m.ptrs.next ap = bs.head? ∧
      m.ptrs.Seg (some ap) bs none := by
  have hseg := h.seg lst
  rw [hl, Ptrs.seg_append, Ptrs.seg_cons] at hseg
  simpa using hseg

theorem seg_of_ne (h : m.Represents l) (hq : q ≠ lst)
    (hm : ∀ n, l.head n ≠ some lst →
      m'.ptrs.next n = m.ptrs.next n ∧ m'.ptrs.prev n = m.ptrs.prev n) :
    m'.ptrs.Seg none (l.list q) none := by
  refine (h.seg q).congr (fun n hn => ?_)
  have hhead := (h.wf.mem_iff q n).mp hn
  exact hm n (by simp [hhead, hq])

theorem head_eq_none_iff (h : m.Represents l) : m.head p = none ↔ m.tail p = none := by
  simp [h.head, h.tail]

theorem head_eq_iff (h : m.Represents l) {as bs : List ν} (hl : l.list lst = as ++ ap :: bs) :
    m.head lst = some ap ↔ as = [] := by
  have hnd := h.wf.nodup lst
  rw [h.head, hl] at *
  cases as with
  | nil => simp
  | cons a as =>
    simp at hnd
    simp [hnd.1.2.1]

theorem tail_eq_iff (h : m.Represents l) {as bs : List ν} (hl : l.list lst = as ++ ap :: bs) :
    m.tail lst = some ap ↔ bs = [] := by
  have hnd := h.wf.nodup lst
  rw [h.tail, hl] at *
  rcases List.eq_nil_or_concat bs with rfl | ⟨bs, b, rfl⟩
  · simp
  · have hb : b ≠ ap := by
      rintro rfl
      simp [List.nodup_append] at hnd
    simp [List.getLast?_cons, hb]

theorem removeFromLink_fields (h : m.Represents l) {as bs : List ν}
    (hl : l.list lst = as ++ ap :: bs) :
    ∃ m', m.removeFromLink ap = some m' ∧
      (∀ n, m'.ptrs.next n =
        if n = ap then none else if some n = as.getLast? then bs.head? else m.ptrs.next n) ∧
      (∀ n, m'.ptrs.prev n =
        if n = ap then none else if some n = bs.head? then as.getLast? else m.ptrs.prev n) ∧
      (∀ q, m'.head q = if q = lst then (as ++ bs).head? else m.head q) ∧
      (∀ q, m'.tail q = if q = lst then (as ++ bs).getLast? else m.tail q) ∧
      ∀ n, m'.pLink n = if n = ap then none else m.pLink n := by
  have hmem : ap ∈ l.list lst := by simp [hl]
  have hlink : m.pLink ap = some lst := by rw [h.pLink, (h.wf.mem_iff lst ap).mp hmem]
  have hhead := h.head lst
  have htail := h.tail lst
  have hfirst := h.head_eq_iff hl
  have hlast := h.tail_eq_iff hl
  have hnd := h.wf.nodup lst
  obtain ⟨_, hprev, hnext, _⟩ := h.split as hl
  rw [hl] at hhead htail hnd
  have hne : ¬(m.head lst = none ∨ m.tail lst = none) := by simp [hhead, htail]
  rw [removeFromLink, hlink]
  simp only [if_neg hne]
  rcases List.eq_nil_or_concat as with rfl | ⟨as, a, rfl⟩
  · have hp : m.passHead lst ap = (m.setHead lst bs.head?).linkPrev bs.head? none := by
      rw [passHead, if_pos (hfirst.mpr rfl), hnext]
    cases bs with
    | nil => simp [hp, passTail, hlast.mpr rfl, loosen, hprev]
    | cons b bs =>
      have hb : ¬m.tail lst = some ap := by simp [hlast]
      have hba : ¬ap = b := by simp at hnd; exact hnd.1.1
      simp [hp, passTail, hb, loosen, hprev, hnext, hba]
      exact ⟨fun n => by grind, by simpa [List.getLast?_cons] using htail⟩
  · have hp : m.passHead lst ap = m.linkNext (some a) bs.head? := by
      rw [passHead, if_neg (by simp [hfirst]), hprev, hnext]
      simp
    cases bs with
    | nil =>
      simp [hp, passTail, hlast.mpr rfl, loosen, hprev]
      exact ⟨fun n => by grind, by simpa using hhead⟩
    | cons b bs =>
      have hb : ¬m.tail lst = some ap := by simp [hlast]
      have haa : ¬ap = a := by rintro rfl; simp [List.nodup_append] at hnd
      simp [hp, passTail, hb, loosen, hprev, hnext, haa]
      exact ⟨by simpa using hhead, by simpa [List.getLast?_cons] using htail⟩

theorem removeFromLink (h : m.Represents l) (ap : ν) :
    ∃ m', m.removeFromLink ap = some m' ∧ m'.Represents (l.unlink ap) := by
  cases hlst : l.head ap with
  | none =>
    refine ⟨m, by rw [LinkMem.removeFromLink, h.pLink, hlst], ?_⟩
    rwa [Links.unlink_of_none hlst]
  | some lst =>
    obtain ⟨as, bs, hl⟩ := List.append_of_mem ((h.wf.mem_iff lst ap).mpr hlst)
    obtain ⟨m', hm', hnext, hprev, hhead, htail, hlink⟩ := h.removeFromLink_fields hl
    have hnd := h.wf.nodup lst
    rw [hl, List.nodup_middle, List.nodup_cons, List.mem_append, not_or] at hnd
    obtain ⟨⟨hap, hbp⟩, hnd⟩ := hnd
    have hdisj : ∀ n ∈ as, n ∉ bs := fun n ha hb => (List.nodup_append.mp hnd).2.2 n ha n hb rfl
    have hlist : (l.unlink ap).list lst = as ++ bs := by
      rw [Links.unlink_list_of_eq hlst, hl, List.erase_append_right _ hap, List.erase_cons_head]
    have hother : ∀ q, q ≠ lst → (l.unlink ap).list q = l.list q := fun q hq =>
      Links.unlink_list_of_ne (by simp [hlst, Ne.symm hq])
    refine ⟨m', hm', h.wf.unlink ap, fun n => ?_, fun q => ?_, fun q => ?_, fun q => ?_⟩
    · rw [hlink, Links.unlink_head, h.pLink]
    · rw [hhead]
      by_cases hq : q = lst
      · rw [if_pos hq, hq, hlist]
      · rw [if_neg hq, hother q hq, h.head]
    · rw [htail]
      by_cases hq : q = lst
      · rw [if_pos hq, hq, hlist]
      · rw [if_neg hq, hother q hq, h.tail]
    · by_cases hq : q = lst
      · obtain ⟨hsa, _, _, hsb⟩ := h.split as hl
        rw [hq, hlist, Ptrs.seg_append]
        refine ⟨hsa.setRight hnd.of_append_left (fun n hn => ?_),
          hsb.setLeft hnd.of_append_right (fun n hn => ?_)⟩
        · have hne : n ≠ ap := fun he => hap (he ▸ hn)
          have hb : some n ≠ bs.head? := fun he => hdisj n hn (List.mem_of_head? he.symm)
          rw [hnext, hprev, if_neg hne, if_neg hne, if_neg hb, Option.or_none]
          exact ⟨rfl, rfl⟩
        · have hne : n ≠ ap := fun he => hbp (he ▸ hn)
          have ha : some n ≠ as.getLast? := fun he => hdisj n (List.mem_of_getLast? he.symm) hn
          rw [hnext, hprev, if_neg hne, if_neg hne, if_neg ha, Option.or_none]
          exact ⟨rfl, rfl⟩
      · rw [hother q hq]
        refine h.seg_of_ne hq (fun n hne => ?_)
        have hn : n ∉ as ++ ap :: bs := hl ▸ mt (h.wf.mem_iff lst n).mp hne
        rw [List.mem_append, List.mem_cons, not_or, not_or] at hn
        have ha : some n ≠ as.getLast? := fun he => hn.1 (List.mem_of_getLast? he.symm)
        have hb : some n ≠ bs.head? := fun he => hn.2.2 (List.mem_of_head? he.symm)
        rw [hnext, hprev, if_neg hn.2.1, if_neg hn.2.1, if_neg ha, if_neg hb]
        exact ⟨rfl, rfl⟩

theorem addTail_fields (lst : π) (hap : m.pLink ap = none) :
    (∀ n, (m.addTail lst ap).ptrs.next n =
      if n = ap then none else if some n = m.tail lst then some ap else m.ptrs.next n) ∧
    (∀ n, (m.addTail lst ap).ptrs.prev n = if n = ap then m.tail lst else m.ptrs.prev n) ∧
    (∀ q, (m.addTail lst ap).head q =
      if q = lst ∧ m.tail lst = none then some ap else m.head q) ∧
    (∀ q, (m.addTail lst ap).tail q = if q = lst then some ap else m.tail q) ∧
    ∀ n, (m.addTail lst ap).pLink n = if n = ap then some lst else m.pLink n := by
  rw [LinkMem.addTail, hap]
  cases htail : m.tail lst with
  | none => simp
  | some t => simp

/-- The list with the item behind it, unless the item is on a list. -/
theorem addTail (h : m.Represents l) (lst : π) (ap : ν) :
    (m.addTail lst ap).Represents (if l.head ap = none then l.addTail ap lst else l) := by
  cases hap : l.head ap with
  | some q =>
    rw [LinkMem.addTail, h.pLink, hap]
    simpa using h
  | none =>
    have hfresh := h.wf.not_mem_of_none hap
    obtain ⟨hnext, hprev, hhead, htail, hlink⟩ :=
      addTail_fields (m := m) lst ((h.pLink ap).trans hap)
    rw [if_pos rfl]
    refine ⟨h.wf.addTail hap lst, fun n => ?_, fun q => ?_, fun q => ?_, fun q => ?_⟩
    · rw [hlink, Links.addTail_head, h.pLink]
    · simp only [hhead, Links.addTail_list, h.tail, h.head, List.getLast?_eq_none_iff]
      by_cases hq : q = lst
      · subst hq
        cases l.list q <;> simp
      · simp [hq]
    · rw [htail, Links.addTail_list, h.tail]
      by_cases hq : q = lst
      · simp [hq]
      · simp [hq]
    · rw [Links.addTail_list]
      have hne : ∀ {n q}, n ∈ l.list q → n ≠ ap := fun hn he => hfresh _ (he ▸ hn)
      by_cases hq : q = lst
      · subst hq
        rw [if_pos rfl, Ptrs.seg_append, Ptrs.seg_singleton, hprev, hnext, if_pos rfl, if_pos rfl,
          h.tail]
        refine ⟨(h.seg q).setRight (h.wf.nodup q) (fun n hn => ?_), by simp, rfl⟩
        rw [hprev, hnext, if_neg (hne hn), if_neg (hne hn), h.tail]
        exact ⟨rfl, by simp⟩
      · rw [if_neg hq]
        refine (h.seg q).congr (fun n hn => ?_)
        have ht : some n ≠ m.tail lst := by
          intro he
          have hmem := List.mem_of_getLast? ((h.tail lst).symm.trans he.symm)
          exact hq (h.wf.place_unique hn hmem)
        rw [hprev, hnext, if_neg (hne hn), if_neg (hne hn), if_neg ht]
        exact ⟨rfl, rfl⟩

theorem popHead_fields (h : m.Represents l) {ns : List ν} (hl : l.list lst = ap :: ns) :
    (∀ n, (m.popHead lst).ptrs.next n = if n = ap then none else m.ptrs.next n) ∧
    (∀ n, (m.popHead lst).ptrs.prev n =
      if some n = ns.head? ∨ n = ap then none else m.ptrs.prev n) ∧
    (∀ q, (m.popHead lst).head q = if q = lst then ns.head? else m.head q) ∧
    (∀ q, (m.popHead lst).tail q = if q = lst then ns.getLast? else m.tail q) ∧
    ∀ n, (m.popHead lst).pLink n = if n = ap then none else m.pLink n := by
  have hhead := h.head lst
  have htail := h.tail lst
  have hnd := h.wf.nodup lst
  obtain ⟨_, _, hnext, _⟩ := h.split [] hl
  rw [hl] at hhead htail hnd
  simp only [LinkMem.popHead, hhead, htail, List.head?_cons, hnext]
  cases ns with
  | nil => simp [loosen]
  | cons b ns =>
    have hne : ¬some ap = (b :: ns).getLast? := fun he =>
      (List.nodup_cons.mp hnd).1 (List.mem_of_getLast? he.symm)
    simp only [List.getLast?_cons, Option.some.injEq] at hne
    simp [hne, loosen, List.getLast?_cons, htail]
    grind

theorem popHead (h : m.Represents l) {ns : List ν} (hl : l.list lst = ap :: ns) :
    (m.popHead lst).Represents (l.unlink ap) := by
  obtain ⟨hnext, hprev, hhead, htail, hlink⟩ := h.popHead_fields hl
  have hlst : l.head ap = some lst := (h.wf.mem_iff lst ap).mp (by simp [hl])
  have hnd := h.wf.nodup lst
  rw [hl, List.nodup_cons] at hnd
  have hlist : (l.unlink ap).list lst = ns := by
    rw [Links.unlink_list_of_eq hlst, hl, List.erase_cons_head]
  have hother : ∀ q, q ≠ lst → (l.unlink ap).list q = l.list q := fun q hq =>
    Links.unlink_list_of_ne (by simp [hlst, Ne.symm hq])
  refine ⟨h.wf.unlink ap, fun n => ?_, fun q => ?_, fun q => ?_, fun q => ?_⟩
  · rw [hlink, Links.unlink_head, h.pLink]
  · rw [hhead]
    by_cases hq : q = lst
    · rw [if_pos hq, hq, hlist]
    · rw [if_neg hq, hother q hq, h.head]
  · rw [htail]
    by_cases hq : q = lst
    · rw [if_pos hq, hq, hlist]
    · rw [if_neg hq, hother q hq, h.tail]
  · by_cases hq : q = lst
    · rw [hq, hlist]
      refine (h.split [] hl).2.2.2.setLeft hnd.2 (fun n hn => ?_)
      have hne : n ≠ ap := fun he => hnd.1 (he ▸ hn)
      rw [hnext, hprev, if_neg hne]
      simp [hne]
    · rw [hother q hq]
      refine h.seg_of_ne hq (fun n hne => ?_)
      have hn : n ∉ ap :: ns := hl ▸ mt (h.wf.mem_iff lst n).mp hne
      rw [List.mem_cons, not_or] at hn
      have hb : some n ≠ ns.head? := fun he => hn.2 (List.mem_of_head? he.symm)
      rw [hnext, hprev, if_neg hn.1, if_neg (by simp [hn.1, hb])]
      exact ⟨rfl, rfl⟩

end Represents

/-- The loop of `Join` goes over the list to its end. -/
theorem loop_joinTurn {x : Option ν} {ns : List ν} (h : m.ptrs.Seg x ns none) {turns : Nat}
    (hturns : ns.length < turns) :
    Loop.loop (joinTurn p) turns (m, ns.head?) = some (m.relink ns p) := by
  induction ns generalizing m x turns with
  | nil =>
    obtain ⟨k, rfl⟩ : ∃ k, turns = k + 1 := ⟨turns - 1, by simp at hturns; omega⟩
    simp [Loop.loop, joinTurn, relink]
  | cons n ns ih =>
    obtain ⟨k, rfl⟩ : ∃ k, turns = k + 1 := ⟨turns - 1, by simp at hturns; omega⟩
    obtain ⟨_, hnext, hs⟩ := h
    rw [Option.or_none] at hnext
    have hk : ns.length < k := by simpa using hturns
    have hrest := ih (m := m.setLink n (some p)) hs hk
    rw [List.head?_cons, Loop.loop, joinTurn]
    simp only [hnext, hrest]
    congr 1
    simp only [relink, setLink, List.mem_cons, LinkMem.mk.injEq, true_and]
    refine ⟨funext fun a => ?_, trivial⟩
    by_cases ha : a = n
    · simp [ha]
    · simp [ha]

namespace Represents

theorem join_fields (h : m.Represents l) {ns : List ν} (hl : l.list q = ap :: ns) {turns : Nat}
    (hturns : (l.list q).length < turns) :
    ∃ m', m.join turns p q = some m' ∧
      (∀ n, m'.ptrs.next n = if some n = m.tail p then some ap else m.ptrs.next n) ∧
      (∀ n, m'.ptrs.prev n = if n = ap then m.tail p else m.ptrs.prev n) ∧
      (∀ lst, m'.head lst =
        if lst = q then none else if lst = p then (m.head p).or (some ap) else m.head lst) ∧
      (∀ lst, m'.tail lst =
        if lst = q then none else if lst = p then m.tail q else m.tail lst) ∧
      ∀ n, m'.pLink n = if n ∈ l.list q then some p else m.pLink n := by
  have hhead := h.head q
  obtain ⟨_, hprev, _, _⟩ := h.split [] hl
  have hloop := loop_joinTurn (p := p) (h.seg q) hturns
  rw [hl, List.head?_cons] at hhead hloop
  simp only [LinkMem.join, hhead, hloop, Option.map_some]
  refine ⟨_, rfl, ?_⟩
  have hend := h.head_eq_none_iff (p := p)
  cases htail : m.tail p with
  | none =>
    simp [relink, htail, hend.mpr htail, hl]
    exact ⟨by simpa using hprev, fun lst => by rw [hhead]⟩
  | some t =>
    have hsome : m.head p ≠ none := by simp [hend, htail]
    obtain ⟨a, ha⟩ := Option.ne_none_iff_exists'.mp hsome
    simp [relink, htail, hl, ha]
    intro lst
    by_cases hlst : lst = p
    · simp [hlst, ha]
    · simp [hlst]

/-- The list at `q` goes behind the one at `p`. -/
theorem join (h : m.Represents l) {turns : Nat} (hturns : (l.list q).length < turns)
    (hpq : p ≠ q) : ∃ m', m.join turns p q = some m' ∧ m'.Represents (l.join p q) := by
  cases hl : l.list q with
  | nil =>
    have hhead : m.head q = none := by simp [h.head, hl]
    refine ⟨m, by simp only [LinkMem.join, hhead], h.wf.join hpq, fun n => ?_, fun r => ?_,
      fun r => ?_, fun r => ?_⟩
    · have hn : l.head n ≠ some q := fun he => by simpa [hl] using (h.wf.mem_iff q n).mpr he
      rw [h.wf.join_head, if_neg hn, h.pLink]
    all_goals
      have hr : (l.join p q).list r = l.list r := by
        rw [Links.WF.join_list, hl]
        split
        · rename_i hq
          rw [hq, hl]
        · split
          · rename_i hq
            simp [hq]
          · rfl
      rw [hr]
    · exact h.head r
    · exact h.tail r
    · exact h.seg r
  | cons ap ns =>
    obtain ⟨m', hm', hnext, hprev, hhead, htail, hlink⟩ := h.join_fields hl hturns
    have hmem : ∀ n, n ∈ l.list q ↔ l.head n = some q := h.wf.mem_iff q
    have hap : ap ∈ l.list q := by simp [hl]
    have hlast : ∀ n, some n = m.tail p → n ∈ l.list p := fun n he =>
      List.mem_of_getLast? ((h.tail p).symm.trans he.symm)
    refine ⟨m', hm', h.wf.join hpq, fun n => ?_, fun r => ?_, fun r => ?_, fun r => ?_⟩
    · rw [hlink, h.wf.join_head, h.pLink]
      simp only [hmem]
    · rw [hhead, Links.WF.join_list, h.head, h.head, hl]
      split
      · rfl
      · split
        · rw [List.head?_append, List.head?_cons]
        · rfl
    · rw [htail, Links.WF.join_list, h.tail, h.tail]
      split
      · rfl
      · split
        · rw [List.getLast?_append, hl, List.getLast?_cons, Option.some_or]
        · rfl
    · rw [Links.WF.join_list]
      by_cases hrq : r = q
      · simp [hrq]
      · rw [if_neg hrq]
        by_cases hrp : r = p
        · rw [if_pos hrp, Ptrs.seg_append]
          refine ⟨(h.seg p).setRight (h.wf.nodup p) (fun n hn => ?_),
            (h.seg q).setLeft (h.wf.nodup q) (fun n hn => ?_)⟩
          · have hne : n ≠ ap := fun he => hpq (h.wf.place_unique hn (he ▸ hap))
            rw [hprev, if_neg hne, hnext, h.tail, hl]
            exact ⟨rfl, rfl⟩
          · have hne : ¬some n = m.tail p := fun he => hpq (h.wf.place_unique (hlast n he) hn)
            rw [hprev, hnext, if_neg hne, hl, h.tail, Option.or_none]
            exact ⟨rfl, by simp⟩
        · rw [if_neg hrp]
          refine (h.seg r).congr (fun n hn => ?_)
          have hne : n ≠ ap := fun he => hrq (h.wf.place_unique hn (he ▸ hap))
          have hnt : ¬some n = m.tail p := fun he => hrp (h.wf.place_unique hn (hlast n he))
          rw [hprev, hnext, if_neg hne, if_neg hnt]
          exact ⟨rfl, rfl⟩

end Represents

end LinkMem

/-- A call of one of the four functions. -/
inductive LinkOp (ν π : Type) where
  | removeFromLink (ap : ν)
  | addTail (apLink : π) (ap : ν)
  | popHead (apLink : π)
  | join (apLink apOther : π)
  deriving DecidableEq, Repr

namespace LinkOp

variable {ν π : Type} [DecidableEq ν] [DecidableEq π]

def step (turns : Nat) (m : LinkMem ν π) : LinkOp ν π → Option (LinkMem ν π)
  | removeFromLink ap => m.removeFromLink ap
  | addTail apLink ap => some (m.addTail apLink ap)
  | popHead apLink => some (m.popHead apLink)
  | join apLink apOther => m.join turns apLink apOther

/-- What the call does to the lists. -/
def onLists (l : Links ν π) : LinkOp ν π → Links ν π
  | removeFromLink ap => l.unlink ap
  | addTail apLink ap => if l.head ap = none then l.addTail ap apLink else l
  | popHead apLink =>
    match l.list apLink with
    | [] => l
    | ap :: _ => l.unlink ap
  | join apLink apOther => l.join apLink apOther

/-- A list is not joined to itself. -/
def Apart : LinkOp ν π → Prop
  | join apLink apOther => apLink ≠ apOther
  | _ => True

instance decidableApart : DecidablePred (Apart : LinkOp ν π → Prop)
  | removeFromLink _ => .isTrue trivial
  | addTail _ _ => .isTrue trivial
  | popHead _ => .isTrue trivial
  | join apLink apOther => inferInstanceAs (Decidable (apLink ≠ apOther))

variable {m : LinkMem ν π} {l : Links ν π}

theorem step_represents (l : Links ν π) {op : LinkOp ν π} (hop : op.Apart) :
    ∃ turns, ∀ more, turns ≤ more → ∀ m : LinkMem ν π, m.Represents l →
      ∃ m', step more m op = some m' ∧ m'.Represents (onLists l op) := by
  cases op with
  | removeFromLink ap => exact ⟨0, fun _ _ m h => h.removeFromLink ap⟩
  | addTail apLink ap => exact ⟨0, fun _ _ m h => ⟨_, rfl, h.addTail apLink ap⟩⟩
  | popHead apLink =>
    refine ⟨0, fun _ _ m h => ⟨_, rfl, ?_⟩⟩
    rw [onLists]
    cases hl : l.list apLink with
    | nil =>
      have hhead : m.head apLink = none := by simp [h.head, hl]
      simpa [LinkMem.popHead, hhead] using h
    | cons ap ns => exact h.popHead hl
  | join apLink apOther =>
    exact ⟨(l.list apOther).length + 1, fun more hmore m h => h.join (by omega) hop⟩

/-- From memory fresh from `calloc`, whatever is called, no null pointer is followed, every loop
ends, and the memory holds the lists. -/
theorem run_represents {ops : List (LinkOp ν π)} (hops : ∀ op ∈ ops, op.Apart) :
    ∃ turns, ∀ more, turns ≤ more → ∃ m, Run.run (step more) LinkMem.calloc ops = some m ∧
      m.Represents (ops.foldl onLists Links.empty) := by
  have hrun : ∀ l : Links ν π, ∃ turns, ∀ more, turns ≤ more → ∀ m : LinkMem ν π,
      m.Represents l → ∃ m', Run.run (step more) m ops = some m' ∧
        m'.Represents (ops.foldl onLists l) := by
    induction ops with
    | nil => exact fun l => ⟨0, fun _ _ m h => ⟨m, rfl, h⟩⟩
    | cons op ops ih =>
      intro l
      obtain ⟨t, ht⟩ := step_represents l (hops op List.mem_cons_self)
      obtain ⟨t', ht'⟩ := ih (fun a ha => hops a (List.mem_cons_of_mem op ha)) (onLists l op)
      refine ⟨max t t', fun more hmore m h => ?_⟩
      obtain ⟨m', hm', h'⟩ := ht more (by omega) m h
      obtain ⟨m'', hm'', h''⟩ := ht' more (by omega) m' h'
      exact ⟨m'', Run.run_cons.mpr ⟨m', hm', hm''⟩, h''⟩
  obtain ⟨turns, hturns⟩ := hrun Links.empty
  exact ⟨turns, fun more hmore => hturns more hmore _ LinkMem.represents_calloc⟩

/-- Two lists are joined, and an item is taken out of the middle. -/
theorem run_represents_joined :
    ∃ turns, ∀ more, turns ≤ more → ∃ m : LinkMem Nat Nat,
      Run.run (step more) LinkMem.calloc
        [addTail 0 1, addTail 0 2, addTail 1 3, join 0 1, removeFromLink 2] = some m ∧
      m.Represents ([addTail 0 1, addTail 0 2, addTail 1 3, join 0 1, removeFromLink 2].foldl
        onLists Links.empty) :=
  run_represents (by decide)

end LinkOp

end AlgorithmLib.CoRoutine
