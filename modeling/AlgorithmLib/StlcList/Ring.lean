import AlgorithmLib.Library.Links
import AlgorithmLib.Library.Loop
import AlgorithmLib.Library.Run
import AlgorithmLib.Library.Segment

/-!
`stlc_list.h`, the doubly linked lists of the timers, of the lock tables and of the pools: a head
and the entries behind it form a ring of `struct stlc_list_head`s. The operations are the ones of
the header, on the pointers; what they do is said on the lists of `Links`.
-/

set_option autoImplicit false
set_option linter.unusedSectionVars false

namespace AlgorithmLib.StlcList

section

variable {α : Type} [DecidableEq α]

def stlcInitListHead (m : Ptrs α) (ptr : α) : Ptrs α :=
  (m.setNext ptr (some ptr)).setPrev ptr (some ptr)

def stlcListAdd_ (m : Ptrs α) (new : α) (prev next : Option α) : Option (Ptrs α) :=
  match next, prev with
  | some next, some prev =>
    some ((((m.setPrev next (some new)).setNext new (some next)).setPrev new (some prev)).setNext
      prev (some new))
  | _, _ => none

def stlcListAdd (m : Ptrs α) (new head : α) : Option (Ptrs α) :=
  stlcListAdd_ m new (some head) (m.next head)

def stlcListAddTail (m : Ptrs α) (new head : α) : Option (Ptrs α) :=
  stlcListAdd_ m new (m.prev head) (some head)

def stlcListDel_ (m : Ptrs α) (prev next : Option α) : Option (Ptrs α) :=
  match next, prev with
  | some next, some prev => some ((m.setPrev next (some prev)).setNext prev (some next))
  | _, _ => none

def stlcListDel (m : Ptrs α) (entry : α) : Option (Ptrs α) :=
  (stlcListDel_ m (m.prev entry) (m.next entry)).map fun m =>
    (m.setNext entry none).setPrev entry none

def stlcListDelInit (m : Ptrs α) (entry : α) : Option (Ptrs α) :=
  (stlcListDel_ m (m.prev entry) (m.next entry)).map fun m => stlcInitListHead m entry

def stlcListMove (m : Ptrs α) (list head : α) : Option (Ptrs α) :=
  (stlcListDel_ m (m.prev list) (m.next list)).bind fun m => stlcListAdd m list head

def stlcListMoveTail (m : Ptrs α) (list head : α) : Option (Ptrs α) :=
  (stlcListDel_ m (m.prev list) (m.next list)).bind fun m => stlcListAddTail m list head

def stlcListIsLast (m : Ptrs α) (list head : α) : Bool := m.next list = some head

def stlcListEmpty (m : Ptrs α) (head : α) : Bool := m.next head = some head

def stlcListSplice_ (m : Ptrs α) (list head : α) : Option (Ptrs α) :=
  match m.next list, m.prev list, m.next head with
  | some first, some last, some at_ =>
    some ((((m.setPrev first (some head)).setNext head (some first)).setNext last
      (some at_)).setPrev at_ (some last))
  | _, _, _ => none

def stlcListSpliceInit (m : Ptrs α) (list head : α) : Option (Ptrs α) :=
  if stlcListEmpty m list then some m
  else (stlcListSplice_ m list head).map fun m => stlcInitListHead m list

/-- A turn of `stlc_list_for_each`, with the entries it went over so far. -/
def forEachTurn (m : Ptrs α) (head : α) (s : Option α × List α) :
    Option (Loop.Turn (Option α × List α) (List α)) :=
  match s.1 with
  | none => none
  | some pos =>
    if pos = head then some (.done s.2) else some (.next (m.next pos, s.2 ++ [pos]))

/-- A turn of `stlc_list_for_each_safe` with this body; `n` is where the next one goes on. -/
def forEachSafeTurn (body : α → Ptrs α → Option (Ptrs α)) (head : α)
    (s : Ptrs α × Option α × Option α × List α) :
    Option (Loop.Turn (Ptrs α × Option α × Option α × List α) (Ptrs α × List α)) :=
  match s with
  | (_, none, _, _) => none
  | (m, some pos, n, seen) =>
    if pos = head then some (.done (m, seen))
    else
      match body pos m, n with
      | some m, some n => some (.next (m, some n, m.next n, seen ++ [pos]))
      | _, _ => none

variable {m m' : Ptrs α} {r r' n n' : α} {as bs ns : List α}

def Frame (m m' : Ptrs α) (ns : List α) : Prop :=
  ∀ a, a ∉ ns → m'.next a = m.next a ∧ m'.prev a = m.prev a

theorem ring_add (h : m.Ring r (as ++ bs)) (hnd : (r :: (as ++ bs)).Nodup)
    (hn : n ∉ r :: (as ++ bs)) :
    ∃ m', stlcListAdd_ m n (r :: as).getLast? (bs.head?.or (some r)) = some m' ∧
      m'.Ring r (as ++ n :: bs) ∧ Frame m m' (r :: (as ++ n :: bs)) := by
  obtain ⟨prev, hprev⟩ : ∃ prev, (r :: as).getLast? = some prev := by simp [List.getLast?_cons]
  obtain ⟨next, hnext⟩ : ∃ next, bs.head?.or (some r) = some next := by cases bs <;> simp
  have hprevmem := List.mem_of_getLast? hprev
  have hnextmem : next ∈ r :: bs := by
    cases bs with
    | nil => simp_all
    | cons b bs => simp_all
  have hne : n ≠ prev := by
    rintro rfl
    exact hn (by simp at hprevmem ⊢; tauto)
  rw [hprev, hnext]
  refine ⟨_, rfl, h.insert hnd hn (fun a => ?_) (fun a => ?_), fun a ha => ?_⟩
  · rw [hprev, hnext]
    simp
    grind
  · rw [hprev, hnext]
    simp
  · simp at ha hprevmem hnextmem ⊢
    grind

theorem ring_del (h : m.Ring r (as ++ n :: bs)) (hnd : (r :: (as ++ n :: bs)).Nodup) :
    ∃ m', stlcListDel_ m (m.prev n) (m.next n) = some m' ∧ m'.Ring r (as ++ bs) ∧
      Frame m m' (r :: (as ++ bs)) := by
  obtain ⟨prev, hprev⟩ : ∃ prev, (r :: as).getLast? = some prev := by simp [List.getLast?_cons]
  obtain ⟨next, hnext⟩ : ∃ next, bs.head?.or (some r) = some next := by cases bs <;> simp
  have hprevmem := List.mem_of_getLast? hprev
  have hnextmem : next ∈ r :: bs := by
    cases bs with
    | nil => simp_all
    | cons b bs => simp_all
  rw [h.next, h.prev, hprev, hnext]
  refine ⟨_, rfl, h.remove hnd (fun a ha => ?_) (fun a ha => ?_), fun a ha => ?_⟩
  · rw [hprev, hnext]
    simp
  · rw [hprev, hnext]
    simp
  · simp at ha hprevmem hnextmem ⊢
    grind

end

/-- A `struct stlc_list_head` in a record, or one that is a list. -/
inductive Node (ν π : Type) where
  | entry (n : ν)
  | head (p : π)
  deriving DecidableEq, Repr

variable {ν π : Type} [DecidableEq ν] [DecidableEq π]

/-- Every list is initialised, and the entries are `calloc`ed. -/
def initLists : Ptrs (Node ν π) :=
  ⟨fun | .entry _ => none | .head p => some (.head p),
    fun | .entry _ => none | .head p => some (.head p)⟩

/-- The rings hold these lists. -/
structure Represents (m : Ptrs (Node ν π)) (l : Links ν π) : Prop where
  wf : l.WF
  ring : ∀ p, m.Ring (.head p) ((l.list p).map .entry)

theorem represents_initLists : Represents (initLists : Ptrs (Node ν π)) Links.empty :=
  ⟨Links.wf_empty, fun _ => Ptrs.ring_nil.mpr ⟨rfl, rfl⟩⟩

inductive ListOp (ν π : Type) where
  | add (new : ν) (head : π)
  | addTail (new : ν) (head : π)
  | del (entry : ν)
  | delInit (entry : ν)
  | move (list : ν) (head : π)
  | moveTail (list : ν) (head : π)
  | spliceInit (list head : π)
  deriving DecidableEq, Repr

namespace ListOp

/-- The call, on the pointers; `none` where it follows a null pointer. -/
def step (m : Ptrs (Node ν π)) : ListOp ν π → Option (Ptrs (Node ν π))
  | add new head => stlcListAdd m (.entry new) (.head head)
  | addTail new head => stlcListAddTail m (.entry new) (.head head)
  | del entry => stlcListDel m (.entry entry)
  | delInit entry => stlcListDelInit m (.entry entry)
  | move list head => stlcListMove m (.entry list) (.head head)
  | moveTail list head => stlcListMoveTail m (.entry list) (.head head)
  | spliceInit list head => stlcListSpliceInit m (.head list) (.head head)

/-- What the call does to the lists; `none` where the header's comments do not allow it. -/
def onLists (l : Links ν π) : ListOp ν π → Option (Links ν π)
  | add new head => if l.head new = none then some (l.addFront new head) else none
  | addTail new head => if l.head new = none then some (l.addTail new head) else none
  | del entry => if l.head entry ≠ none then some (l.unlink entry) else none
  | delInit entry => if l.head entry ≠ none then some (l.unlink entry) else none
  | move list head =>
    if l.head list ≠ none then some ((l.unlink list).addFront list head) else none
  | moveTail list head =>
    if l.head list ≠ none then some ((l.unlink list).addTail list head) else none
  | spliceInit list head => if list ≠ head then some (l.splice list head) else none

/-- The body of a loop, on the pointers: these calls for each entry. -/
def body (calls : ν → List (ListOp ν π)) : Node ν π → Ptrs (Node ν π) → Option (Ptrs (Node ν π))
  | .entry n, m => Run.run step m (calls n)
  | .head _, m => some m

/-- What the body of a loop over `p` does to the lists; `none` where it does not leave the entries
behind its own in their place. -/
def onEach (calls : ν → List (ListOp ν π)) (p : π) : List ν → Links ν π → Option (Links ν π)
  | [], l => some l
  | n :: ns, l =>
    (Run.run onLists l (calls n)).bind fun l' =>
      if ns <:+ l'.list p then onEach calls p ns l' else none

/-- A body that deletes some of the entries. -/
def deleting (deletes : ν → Bool) (n : ν) : List (ListOp ν π) :=
  if deletes n = true then [.del n] else []

end ListOp

variable {m m' : Ptrs (Node ν π)} {l l' : Links ν π} {p q : π} {n : ν}

theorem map_nodup {ns : List ν} (h : ns.Nodup) (p : π) :
    (Node.head p :: ns.map Node.entry).Nodup := by
  refine List.nodup_cons.mpr ⟨by simp, h.map ?_⟩
  rintro a b he
  cases he
  rfl

namespace Represents

theorem update (h : Represents m l) (hwf : l'.WF) {ns : List (Node ν π)}
    (hp : m'.Ring (.head p) ((l'.list p).map .entry)) (hq : ∀ q, q ≠ p → l'.list q = l.list q)
    (hframe : Frame m m' ns)
    (hns : ∀ a ∈ ns, a = .head p ∨ ∃ n, a = .entry n ∧ ∀ q, q ≠ p → n ∉ l.list q) :
    Represents m' l' := by
  refine ⟨hwf, fun q => ?_⟩
  by_cases hqp : q = p
  · rw [hqp]
    exact hp
  · rw [hq q hqp]
    refine (h.ring q).congr (fun a ha => hframe a (fun hmem => ?_))
    rcases hns a hmem with rfl | ⟨n, rfl, hn⟩
    · simp [Ne.symm hqp] at ha
    · exact hn q hqp (by simpa using ha)

theorem add_ (h : Represents m l) (hn : l.head n = none) (hwf : l'.WF) (as bs : List ν)
    (hl : l.list p = as ++ bs) (hl' : l'.list p = as ++ n :: bs)
    (hq : ∀ q, q ≠ p → l'.list q = l.list q) :
    ∃ m', stlcListAdd_ m (.entry n) (Node.head p :: as.map .entry).getLast?
      ((bs.map .entry).head?.or (some (.head p))) = some m' ∧ Represents m' l' := by
  have hring := h.ring p
  have hfresh := h.wf.not_mem_of_none hn
  have hnd := map_nodup (h.wf.nodup p) p
  rw [hl, List.map_append] at hring hnd
  have hmem : Node.entry n ∉ Node.head p :: (as.map Node.entry ++ bs.map Node.entry) := by
    have hnp := hfresh p
    rw [hl] at hnp
    simpa using hnp
  obtain ⟨m', hm', hring', hframe⟩ := ring_add hring hnd hmem
  refine ⟨m', hm', h.update hwf (by simpa [hl'] using hring') hq hframe (fun a ha => ?_)⟩
  have hother : ∀ b ∈ l.list p, ∀ q, q ≠ p → b ∉ l.list q := fun b hb q hqp hbq =>
    hqp (h.wf.place_unique hbq hb)
  rw [hl] at hother
  simp only [List.mem_cons, List.mem_append, List.mem_map] at ha
  rcases ha with rfl | ⟨b, hb, rfl⟩ | rfl | ⟨b, hb, rfl⟩
  · exact .inl rfl
  · exact .inr ⟨b, rfl, hother b (by simp [hb])⟩
  · exact .inr ⟨n, rfl, fun q _ => hfresh q⟩
  · exact .inr ⟨b, rfl, hother b (by simp [hb])⟩

theorem add (h : Represents m l) (hn : l.head n = none) (p : π) :
    ∃ m', stlcListAdd m (.entry n) (.head p) = some m' ∧ Represents m' (l.addFront n p) := by
  have hnext := (h.ring p).next_root
  rw [stlcListAdd, hnext]
  exact h.add_ hn (h.wf.addFront hn p) [] (l.list p) rfl (by simp [Links.addFront_list])
    (fun q hq => by rw [Links.addFront_list, if_neg hq])

theorem addTail (h : Represents m l) (hn : l.head n = none) (p : π) :
    ∃ m', stlcListAddTail m (.entry n) (.head p) = some m' ∧ Represents m' (l.addTail n p) := by
  have hprev := (h.ring p).prev_root
  have hadd := h.add_ (p := p) hn (h.wf.addTail hn p) (l.list p) [] (List.append_nil _).symm
    (by simp [Links.addTail_list]) (fun q hq => by rw [Links.addTail_list, if_neg hq])
  rw [stlcListAddTail, hprev]
  simpa [List.getLast?_cons] using hadd

theorem del_ (h : Represents m l) (hn : l.head n = some p) :
    ∃ m', stlcListDel_ m (m.prev (.entry n)) (m.next (.entry n)) = some m' ∧
      Represents m' (l.unlink n) := by
  obtain ⟨as, bs, hl⟩ := List.append_of_mem ((h.wf.mem_iff p n).mpr hn)
  have hnd := h.wf.nodup p
  have hring := h.ring p
  have hmap := map_nodup hnd p
  have hother : ∀ b ∈ l.list p, ∀ q, q ≠ p → b ∉ l.list q := fun b hb q hqp hbq =>
    hqp (h.wf.place_unique hbq hb)
  have hlist : (l.unlink n).list p = as ++ bs := by
    rw [hl, List.nodup_middle, List.nodup_cons, List.mem_append, not_or] at hnd
    rw [Links.unlink_list_of_eq hn, hl, List.erase_append_right _ hnd.1.1, List.erase_cons_head]
  rw [hl, List.map_append, List.map_cons] at hring hmap
  rw [hl] at hother
  obtain ⟨m', hm', hring', hframe⟩ := ring_del hring hmap
  refine ⟨m', hm', h.update (p := p) (h.wf.unlink n) (by simpa [hlist] using hring')
    (fun q hq => Links.unlink_list_of_ne (by simp [hn, Ne.symm hq])) hframe (fun a ha => ?_)⟩
  simp only [List.mem_cons, List.mem_append, List.mem_map] at ha
  rcases ha with rfl | ⟨b, hb, rfl⟩ | ⟨b, hb, rfl⟩
  · exact .inl rfl
  · exact .inr ⟨b, rfl, hother b (by simp [hb])⟩
  · exact .inr ⟨b, rfl, hother b (by simp [hb])⟩

theorem loose (h : Represents m l) (hn : l.head n = none) (x y : Option (Node ν π)) :
    Represents ((m.setNext (.entry n) x).setPrev (.entry n) y) l := by
  refine ⟨h.wf, fun p => (h.ring p).congr (fun a ha => ?_)⟩
  have hne : a ≠ .entry n := by
    rintro rfl
    exact h.wf.not_mem_of_none hn p (by simpa using ha)
  simp [hne]

/-- The nodes of a ring, the head included. -/
def nodes (l : Links ν π) (p : π) : List (Node ν π) := .head p :: (l.list p).map .entry

theorem nodes_apart (h : Represents m l) {a : Node ν π} (hp : a ∈ nodes l p) (hq : a ∈ nodes l q) :
    p = q := by
  cases a with
  | entry n =>
    simp only [nodes, List.mem_cons, reduceCtorEq, List.mem_map, Node.entry.injEq,
      exists_eq_right, false_or] at hp hq
    exact h.wf.place_unique hp hq
  | head r =>
    simp [nodes] at hp hq
    exact hp.symm.trans hq

theorem empty (h : Represents m l) (p : π) : stlcListEmpty m (.head p) = (l.list p).isEmpty := by
  rw [stlcListEmpty, (h.ring p).next_root]
  cases l.list p <;> simp

theorem splice (h : Represents m l) (hqp : q ≠ p) :
    ∃ m', stlcListSpliceInit m (.head q) (.head p) = some m' ∧ Represents m' (l.splice q p) := by
  have hempty := h.empty q
  rw [stlcListSpliceInit]
  cases hl : l.list q with
  | nil =>
    rw [hl, List.isEmpty_nil] at hempty
    refine ⟨m, by rw [if_pos hempty], h.wf.splice hqp, fun r => ?_⟩
    have hr : (l.splice q p).list r = l.list r := by
      rw [Links.WF.splice_list, hl]
      split
      · rename_i hrq
        rw [hrq, hl]
      · split
        · rename_i hrp
          rw [hrp, List.nil_append]
        · rfl
    rw [hr]
    exact h.ring r
  | cons n ns =>
    have hq := h.ring q
    rw [hl, List.isEmpty_cons] at hempty
    rw [hl, List.map_cons] at hq
    obtain ⟨last, hlast⟩ : ∃ last, (Node.entry n :: ns.map Node.entry).getLast? = some last := by
      simp [List.getLast?_cons]
    obtain ⟨at_, hat⟩ : ∃ at_, m.next (Node.head p) = some at_ := by
      rw [(h.ring p).next_root]
      cases l.list p <;> simp
    have hcall : stlcListSplice_ m (.head q) (.head p) = some
        ((((m.setPrev (.entry n) (some (.head p))).setNext (.head p) (some (.entry n))).setNext last
          (some at_)).setPrev at_ (some last)) := by
      simp [stlcListSplice_, hq.next_root, hq.prev_root, hlast, hat]
    rw [if_neg (by simp [hempty]), hcall]
    refine ⟨_, rfl, h.wf.splice hqp, fun r => ?_⟩
    have hqn : ∀ a, a ∈ Node.entry n :: ns.map Node.entry → a ∈ nodes l q := by
      intro a ha
      rw [nodes, hl]
      exact List.mem_cons_of_mem _ ha
    have hlastq := hqn last (List.mem_of_getLast? hlast)
    have hatp : at_ ∈ nodes l p := by
      rw [(h.ring p).next_root] at hat
      cases hp : l.list p <;> simp_all [nodes]
    have hnd : (Node.entry n :: ns.map (Node.entry (π := π))).Nodup := by
      have hndq := map_nodup (h.wf.nodup q) q
      rw [hl, List.map_cons, List.nodup_cons] at hndq
      exact hndq.2
    have hring := (h.ring p).splice ((((m.setPrev (.entry n) (some (.head p))).setNext
      (.head p) (some (.entry n))).setNext last (some at_)).setPrev at_ (some last)) hq
      (map_nodup (h.wf.nodup p) p) hnd (fun a ha hb => hqp (h.nodes_apart (hqn a hb) ha))
      (fun a => by simp [hlast, hat]) (fun a => by simp [hlast, hat])
    rw [Links.WF.splice_list]
    by_cases hrq : r = q
    · subst hrq
      rw [if_pos rfl]
      exact Ptrs.ring_nil.mpr ⟨by simp [stlcInitListHead], by simp [stlcInitListHead]⟩
    · rw [if_neg hrq]
      by_cases hrp : r = p
      · subst hrp
        rw [if_pos rfl, hl, List.map_append, List.map_cons]
        refine hring.congr (fun a ha => ?_)
        have hself : a ≠ Node.head q := by
          rintro rfl
          simp [Ne.symm hrq] at ha
        simp [stlcInitListHead, hself]
      · rw [if_neg hrp]
        refine (h.ring r).congr (fun a ha => ?_)
        have hne : ∀ b s, b ∈ nodes l s → r ≠ s → a ≠ b := fun b s hb hrs he =>
          hrs (h.nodes_apart ha (he ▸ hb))
        have hself := hne (.head q) q (by simp [nodes]) hrq
        have hhead := hne (.head p) p (by simp [nodes]) hrp
        have hfirst := hne (.entry n) q (hqn _ (by simp)) hrq
        have hlastne := hne last q hlastq hrq
        have hatne := hne at_ p hatp hrp
        simp [stlcInitListHead, hself, hhead, hfirst, hlastne, hatne]

end Represents

theorem step_represents {op : ListOp ν π} (h : Represents m l) (hop : op.onLists l = some l') :
    ∃ m', op.step m = some m' ∧ Represents m' l' := by
  cases op with
  | add new head =>
    simp only [ListOp.onLists, Option.ite_none_right_eq_some, Option.some.injEq] at hop
    obtain ⟨hnew, rfl⟩ := hop
    exact h.add hnew head
  | addTail new head =>
    simp only [ListOp.onLists, Option.ite_none_right_eq_some, Option.some.injEq] at hop
    obtain ⟨hnew, rfl⟩ := hop
    exact h.addTail hnew head
  | del entry =>
    simp only [ListOp.onLists, Option.ite_none_right_eq_some, Option.some.injEq] at hop
    obtain ⟨hentry, rfl⟩ := hop
    obtain ⟨p, hp⟩ := Option.ne_none_iff_exists'.mp hentry
    obtain ⟨m', hm', h'⟩ := h.del_ hp
    have hloose := h'.loose (n := entry) (by simp) none none
    exact ⟨_, by simp only [ListOp.step, stlcListDel, hm', Option.map_some], hloose⟩
  | delInit entry =>
    simp only [ListOp.onLists, Option.ite_none_right_eq_some, Option.some.injEq] at hop
    obtain ⟨hentry, rfl⟩ := hop
    obtain ⟨p, hp⟩ := Option.ne_none_iff_exists'.mp hentry
    obtain ⟨m', hm', h'⟩ := h.del_ hp
    have hloose := h'.loose (n := entry) (by simp) (some (.entry entry)) (some (.entry entry))
    exact ⟨_, by simp only [ListOp.step, stlcListDelInit, hm', Option.map_some]; rfl, hloose⟩
  | move list head =>
    simp only [ListOp.onLists, Option.ite_none_right_eq_some, Option.some.injEq] at hop
    obtain ⟨hlist, rfl⟩ := hop
    obtain ⟨p, hp⟩ := Option.ne_none_iff_exists'.mp hlist
    obtain ⟨m', hm', h'⟩ := h.del_ hp
    obtain ⟨m'', hm'', h''⟩ := h'.add (n := list) (by simp) head
    exact ⟨m'', by simp only [ListOp.step, stlcListMove, hm', Option.bind_some, hm''], h''⟩
  | moveTail list head =>
    simp only [ListOp.onLists, Option.ite_none_right_eq_some, Option.some.injEq] at hop
    obtain ⟨hlist, rfl⟩ := hop
    obtain ⟨p, hp⟩ := Option.ne_none_iff_exists'.mp hlist
    obtain ⟨m', hm', h'⟩ := h.del_ hp
    obtain ⟨m'', hm'', h''⟩ := h'.addTail (n := list) (by simp) head
    exact ⟨m'', by simp only [ListOp.step, stlcListMoveTail, hm', Option.bind_some, hm''], h''⟩
  | spliceInit list head =>
    simp only [ListOp.onLists, Option.ite_none_right_eq_some, Option.some.injEq] at hop
    obtain ⟨hne, rfl⟩ := hop
    exact h.splice hne

theorem isLast (h : Represents m l) (hn : l.head n = some p) :
    stlcListIsLast m (.entry n) (.head p) = true ↔ (l.list p).getLast? = some n := by
  obtain ⟨as, bs, hl⟩ := List.append_of_mem ((h.wf.mem_iff p n).mpr hn)
  have hnd := h.wf.nodup p
  have hring := h.ring p
  rw [hl, List.map_append, List.map_cons] at hring
  rw [stlcListIsLast, hring.next, decide_eq_true_eq, hl]
  cases bs with
  | nil => simp
  | cons b bs =>
    rw [hl, List.nodup_append] at hnd
    have hne : (b :: bs).getLast? ≠ some n := fun he =>
      (List.nodup_cons.mp hnd.2.1).1 (List.mem_of_getLast? he)
    simpa [List.getLast?_cons] using hne

/-- `stlc_list_for_each` goes over what is left of the ring. -/
theorem loop_forEachTurn (h : Represents m l) (as : List ν) {bs : List ν}
    (seen : List (Node ν π)) (hl : l.list p = as ++ bs) {turns : Nat} (hturns : bs.length < turns) :
    Loop.loop (forEachTurn m (.head p)) turns
      ((bs.map .entry).head?.or (some (.head p)), seen) = some (seen ++ bs.map .entry) := by
  induction bs generalizing as seen turns with
  | nil =>
    obtain ⟨k, rfl⟩ : ∃ k, turns = k + 1 := ⟨turns - 1, by simp at hturns; omega⟩
    simp [Loop.loop, forEachTurn]
  | cons b bs ih =>
    obtain ⟨k, rfl⟩ : ∃ k, turns = k + 1 := ⟨turns - 1, by simp at hturns; omega⟩
    have hring := h.ring p
    rw [hl, List.map_append, List.map_cons] at hring
    have hrest := ih (as ++ [b]) (seen ++ [.entry b]) (by simp [hl])
      (by simpa using hturns)
    simpa [Loop.loop, forEachTurn, hring.next] using hrest

theorem represents_of_run {ops : List (ListOp ν π)} (h : Represents m l)
    (hops : Run.run ListOp.onLists l ops = some l') :
    ∃ m', Run.run ListOp.step m ops = some m' ∧ Represents m' l' := by
  have hstep : ∀ (m : Ptrs (Node ν π)) (l : Links ν π) op l', Represents m l →
      ListOp.onLists l op = some l' → ∃ m', ListOp.step m op = some m' ∧ Represents m' l' :=
    fun _ _ _ _ hr hop => step_represents hr hop
  exact Run.run_simulates hstep h hops

/-- `stlc_list_for_each_safe` goes over what is left of the ring, whatever its body does to the
entries it has gone over. -/
theorem loop_forEachSafeTurn {calls : ν → List (ListOp ν π)} (h : Represents m l)
    (seen : List (Node ν π)) {as bs : List ν} (hl : l.list p = as ++ bs)
    (hcalls : ListOp.onEach calls p bs l = some l') {turns : Nat} (hturns : bs.length < turns) :
    ∃ m', Loop.loop (forEachSafeTurn (ListOp.body calls) (.head p)) turns
        (m, some ((bs.map .entry).head?.getD (.head p)),
          m.next ((bs.map .entry).head?.getD (.head p)), seen) =
        some (m', seen ++ bs.map .entry) ∧ Represents m' l' := by
  obtain ⟨k, rfl⟩ : ∃ k, turns = k + 1 := ⟨turns - 1, by omega⟩
  induction bs generalizing m l as seen k with
  | nil =>
    simp only [ListOp.onEach, Option.some.injEq] at hcalls
    subst hcalls
    exact ⟨m, by simp [Loop.loop, forEachSafeTurn], h⟩
  | cons b bs ih =>
    obtain ⟨l₁, hrun, hcalls⟩ := Option.bind_eq_some_iff.mp hcalls
    obtain ⟨⟨as', has'⟩, hcalls⟩ := Option.ite_none_right_eq_some.mp hcalls
    obtain ⟨m₁, hm₁, h₁⟩ := represents_of_run h hrun
    have hring := h.ring p
    rw [hl, List.map_append, List.map_cons] at hring
    have hnext : m.next (.entry b) = some ((bs.map .entry).head?.getD (.head p)) := by
      rw [hring.next]
      cases bs <;> rfl
    obtain ⟨j, rfl⟩ : ∃ j, k = j + 1 := ⟨k - 1, by simp at hturns; omega⟩
    obtain ⟨m', hm', h'⟩ := ih h₁ (seen ++ [.entry b]) has'.symm hcalls j (by simpa using hturns)
    refine ⟨m', ?_, h'⟩
    rw [Loop.loop]
    simpa [forEachSafeTurn, ListOp.body, hnext, hm₁] using hm'

theorem onEach_deleting (hwf : l.WF) (deletes : ν → Bool) {as bs : List ν}
    (hl : l.list p = as ++ bs) :
    ∃ l', ListOp.onEach (ListOp.deleting deletes) p bs l = some l' ∧
      l'.list p = as ++ bs.filter (fun n => !deletes n) ∧ ∀ q, q ≠ p → l'.list q = l.list q := by
  induction bs generalizing l as with
  | nil => exact ⟨l, rfl, hl, fun _ _ => rfl⟩
  | cons b bs ih =>
    have hb : l.head b = some p := (hwf.mem_iff p b).mp (by simp [hl])
    cases hdel : deletes b with
    | false =>
      have hnext : l.list p = (as ++ [b]) ++ bs := by simp [hl]
      obtain ⟨l', hl', hp, hq⟩ := ih hwf hnext
      refine ⟨l', ?_, by simp [hp, hdel], hq⟩
      have hsuffix : bs <:+ l.list p := ⟨as ++ [b], by simp [hl]⟩
      simp [ListOp.onEach, ListOp.deleting, hdel, Run.run, hsuffix, hl']
    | true =>
      have hnd := hwf.nodup p
      rw [hl, List.nodup_middle, List.nodup_cons, List.mem_append, not_or] at hnd
      have hlist : (l.unlink b).list p = as ++ bs := by
        rw [Links.unlink_list_of_eq hb, hl, List.erase_append_right _ hnd.1.1,
          List.erase_cons_head]
      obtain ⟨l', hl', hp, hq⟩ := ih (hwf.unlink b) hlist
      refine ⟨l', ?_, by simp [hp, hdel], fun q hqp => ?_⟩
      · have hsuffix : bs <:+ (l.unlink b).list p := ⟨as, hlist.symm⟩
        simp [ListOp.onEach, ListOp.deleting, hdel, Run.run, ListOp.onLists, hb, hsuffix, hl']
      · rw [hq q hqp, Links.unlink_list_of_ne (by simp [hb, Ne.symm hqp])]

/-- Whatever is called, no null pointer is followed, the rings hold the lists, and the readers see
them: `stlc_list_empty`, `stlc_list_is_last`, and the two loops, which end and go over the entries in
order, the safe one also when its body deletes the entry it is at or does anything else that leaves
the entries behind it in their place. -/
theorem rings_represent {ops : List (ListOp ν π)}
    (h : Run.run ListOp.onLists Links.empty ops = some l) :
    ∃ m, Run.run ListOp.step initLists ops = some m ∧ Represents m l ∧
      (∀ n p, l.head n = some p →
        (stlcListIsLast m (.entry n) (.head p) = true ↔ (l.list p).getLast? = some n)) ∧
      ∀ p, stlcListEmpty m (.head p) = (l.list p).isEmpty ∧
        Loop.Ends (forEachTurn m (.head p)) (m.next (.head p), []) ((l.list p).map .entry) ∧
        (∀ calls l', ListOp.onEach calls p (l.list p) l = some l' →
          ∃ m', Loop.Ends (forEachSafeTurn (ListOp.body calls) (.head p))
            (m, m.next (.head p), (m.next (.head p)).bind m.next, [])
            (m', (l.list p).map .entry) ∧ Represents m' l') ∧
        ∀ deletes : ν → Bool, ∃ l',
          ListOp.onEach (ListOp.deleting deletes) p (l.list p) l = some l' ∧
            l'.list p = (l.list p).filter (fun n => !deletes n) ∧
            ∀ q, q ≠ p → l'.list q = l.list q := by
  obtain ⟨m, hm, hr⟩ := represents_of_run represents_initLists h
  refine ⟨m, hm, hr, fun n p hn => isLast hr hn, fun p => ⟨hr.empty p, ?_,
    fun calls l' hcalls => ?_, fun deletes => onEach_deleting hr.wf deletes (List.nil_append _).symm⟩⟩
  · have hloop := loop_forEachTurn (p := p) hr [] [] rfl (Nat.lt_succ_self _)
    rw [← (hr.ring p).next_root, List.nil_append] at hloop
    exact ⟨_, hloop⟩
  · have hnext : m.next (.head p) = some (((l.list p).map .entry).head?.getD (.head p)) := by
      rw [(hr.ring p).next_root]
      cases l.list p <;> rfl
    obtain ⟨m', hm', h'⟩ := loop_forEachSafeTurn hr [] (List.nil_append _).symm hcalls
      (Nat.lt_succ_self _)
    refine ⟨m', ⟨(l.list p).length + 1, ?_⟩, h'⟩
    rw [hnext, Option.bind_some]
    exact hm'

/-- An entry is moved to another list, and that list is spliced back; then a loop deletes it. -/
theorem rings_represent_moved :
    ∃ m : Ptrs (Node Nat Bool), Run.run ListOp.step initLists
        [.addTail 0 true, .add 1 true, .move 0 false, .spliceInit false true] = some m ∧
      Represents m (((((Links.empty.addTail 0 true).addFront 1 true).unlink 0).addFront 0
        false).splice false true) ∧
      stlcListIsLast m (.entry 1) (.head true) = true ∧
      (∀ p, stlcListEmpty m (.head p) = !p ∧
        Loop.Ends (forEachTurn m (.head p)) (m.next (.head p), [])
          (if p then [.entry 0, .entry 1] else [])) ∧
      ∃ m' l', Loop.Ends (forEachSafeTurn (ListOp.body (ListOp.deleting fun n => n = 0)) (.head true))
          (m, m.next (.head true), (m.next (.head true)).bind m.next, [])
          (m', [.entry 0, .entry 1]) ∧ Represents m' l' ∧ l'.list true = [1] := by
  have hrun : Run.run ListOp.onLists (Links.empty : Links Nat Bool)
      [.addTail 0 true, .add 1 true, .move 0 false, .spliceInit false true] = some
        (((((Links.empty.addTail 0 true).addFront 1 true).unlink 0).addFront 0 false).splice
          false true) := rfl
  obtain ⟨m, hm, hr, hlast, hp⟩ := rings_represent hrun
  refine ⟨m, hm, hr, (hlast 1 true rfl).mpr rfl, fun p => ⟨(hp p).1.trans ?_, ?_⟩, ?_⟩
  · cases p <;> rfl
  · cases p with
    | false => exact (hp false).2.1
    | true => exact (hp true).2.1
  · obtain ⟨l', hl', hlist, -⟩ := (hp true).2.2.2 fun n => n = 0
    obtain ⟨m', hends, h'⟩ := (hp true).2.2.1 _ l' hl'
    exact ⟨m', l', hends, h', hlist⟩

end AlgorithmLib.StlcList
