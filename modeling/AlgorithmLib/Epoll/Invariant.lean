import AlgorithmLib.Epoll.Scheduler
import AlgorithmLib.Library.Run

/-!
The lists, the sockets and the heap of the scheduler agree: each part has an invariant that
speaks of the threads only through their types and unions, and every operation keeps the three.
-/

set_option autoImplicit false

namespace AlgorithmLib.Epoll

section

variable (a b g : BitVec 32)

theorem has_or : has (a ||| b) g = (has a g || has b g) := by
  have hor : (a ||| b) &&& g = 0 ↔ a &&& g = 0 ∧ b &&& g = 0 := by
    rw [BitVec.and_or_distrib_right]
    exact BitVec.or_eq_zero_iff
  simp only [has, ne_eq, hor, not_and_or, Bool.decide_or]

theorem has_and : has (a &&& b) g = has a (b &&& g) := by
  rw [has, has, BitVec.and_assoc]

theorem has_zero : has a 0#32 = false := by
  simp [has]

theorem zero_has : has 0#32 g = false := by
  simp [has]

end

def typeAdded (type : BitVec 32) (d : Side) (presist : Bool) : BitVec 32 :=
  if presist then type ||| d.flag ||| d.persist else (type ||| d.flag) &&& ~~~d.persist

def typeCancelled (type : BitVec 32) (d : Side) : BitVec 32 :=
  type &&& ~~~d.flag &&& ~~~d.persist

theorem has_cross :
    has 1#32 2#32 = false ∧ has 1#32 8#32 = false ∧ has 4#32 2#32 = false ∧
      has 4#32 8#32 = false ∧ has 2#32 1#32 = false ∧ has 2#32 4#32 = false ∧
      has 8#32 1#32 = false ∧ has 8#32 4#32 = false := by
  decide

theorem has_typeAdded (type : BitVec 32) (d e : Side) (presist : Bool) :
    has (typeAdded type d presist) e.flag = (decide (e = d) || has type e.flag) ∧
      has (typeAdded type d presist) e.persist = if e = d then presist else has type e.persist := by
  cases presist <;> cases d <;> cases e <;>
    simp +decide [typeAdded, Side.flag, Side.persist, has_or, has_and, has_zero, has_cross]

theorem has_typeCancelled (type : BitVec 32) (d e : Side) :
    has (typeCancelled type d) e.flag = (decide (e ≠ d) && has type e.flag) ∧
      has (typeCancelled type d) e.persist = (decide (e ≠ d) && has type e.persist) := by
  cases d <;> cases e <;> simp +decide [typeCancelled, Side.flag, Side.persist, has_and, has_zero]

theorem has_cleared (type : BitVec 32) (d e : Side) :
    has (type &&& ~~~d.cleared) e.flag = (decide (e ≠ d) && has type e.flag) ∧
      has (type &&& ~~~d.cleared) e.persist = has type e.persist := by
  cases d <;> cases e <;>
    simp +decide [Side.cleared, Side.flag, Side.persist, has_and, has_zero]

@[simp] theorem fd_setSlot (s : ClSocket) (d : Side) (t : Option Nat) :
    (s.setSlot d t).fd = s.fd := by
  cases d <;> rfl

structure LinkInv (links : Links Nat ThreadType) (thread : Nat → ClThread) (made : Nat) :
    Prop where
  wf : links.WF
  placed : ∀ t, t < made → links.head t = some (thread t).type
  fresh : ∀ t, made ≤ t → links.head t = none ∧ (thread t).type = .unused

/-- The sockets: a slot of a side is taken by a thread of that side, ready or not, exactly when
the flag of the side is set. -/
structure SocketInv (sockets : List ClSocket) (thread : Nat → ClThread) : Prop where
  keys : (sockets.map ClSocket.fd).Nodup
  flag : ∀ s ∈ sockets, ∀ d, has s.type (Side.flag d) = (s.slot d).isSome
  persist : ∀ s ∈ sockets, ∀ d, has s.type (Side.persist d) = true → has s.type d.flag = true
  slot : ∀ s ∈ sockets, ∀ d t, s.slot d = some t →
    (thread t).u = .fd s.fd ∧ ((thread t).type = d.type ∨ (thread t).type = .ready)
  side : ∀ s ∈ sockets, ∀ d e t, s.slot d = some t → s.slot e = some t → d = e
  waiting : ∀ d t, (thread t).type = Side.type d → ∃ s ∈ sockets, s.slot d = some t
  ready : ∀ t, (thread t).type = .ready → ∃ s ∈ sockets, ∃ d, s.slot d = some t

structure HeapInv (heap : TimeHeap) (thread : Nat → ClThread) : Prop where
  ok : heap.Ok
  armed : ∀ n t, heap.Armed n t → (thread t).type = .timer ∧ (thread t).u = .timer (some n)
  timer : ∀ t, (thread t).type = .timer → ∃ n, heap.Armed n t

structure Inv (m : Master) : Prop where
  links : LinkInv m.links m.thread m.made
  sockets : SocketInv m.sockets m.thread
  heap : HeapInv m.heap m.thread

theorem inv_init : Inv clThreadInit where
  links := ⟨Links.wf_empty, fun _ h => absurd h (Nat.not_lt_zero _), fun _ _ => ⟨rfl, rfl⟩⟩
  sockets :=
    { keys := List.nodup_nil
      flag := fun _ h => absurd h List.not_mem_nil
      persist := fun _ h => absurd h List.not_mem_nil
      slot := fun _ h => absurd h List.not_mem_nil
      side := fun _ h => absurd h List.not_mem_nil
      waiting := fun d _ h => by cases d <;> cases h
      ready := fun _ h => by cases h }
  heap :=
    { ok := TimeHeap.ok_init
      armed := fun _ _ h => absurd h.1 List.not_mem_nil
      timer := fun _ h => by cases h }

namespace LinkInv

variable {links links' : Links Nat ThreadType} {thread : Nat → ClThread} {made made' t : Nat}

/-- A thread, the next new one perhaps, is put where its new type says. -/
theorem put (h : LinkInv links thread made)
    (ht : t < made ∧ made' = made ∨ t = made ∧ made' = made + 1) {r : ClThread} (hwf : links'.WF)
    (hhead : ∀ i, links'.head i = if i = t then some r.type else links.head i) :
    LinkInv links' (Function.update thread t r) made' := by
  refine ⟨hwf, fun i hi => ?_, fun i hi => ?_⟩
  · rw [hhead]
    by_cases hit : i = t
    · rw [if_pos hit, hit, Function.update_self]
    · rw [if_neg hit, Function.update_of_ne hit]
      exact h.placed i (by omega)
  · have hit : i ≠ t := by omega
    rw [hhead, if_neg hit, Function.update_of_ne hit]
    exact h.fresh i (by omega)

theorem putTail (h : LinkInv links thread made)
    (ht : t < made ∧ made' = made ∨ t = made ∧ made' = made + 1) {r : ClThread} {p : ThreadType}
    (hr : r.type = p) :
    LinkInv ((links.unlink t).addTail t p) (Function.update thread t r) made' := by
  refine h.put ht ((h.wf.unlink t).addTail (by rw [Links.unlink_head, if_pos rfl]) p) (fun i => ?_)
  rw [Links.addTail_head, Links.unlink_head, hr]
  split <;> rfl

theorem putFront (h : LinkInv links thread made) (ht : t < made) {r : ClThread} {p : ThreadType}
    (hr : r.type = p) :
    LinkInv ((links.unlink t).addFront t p) (Function.update thread t r) made := by
  refine h.put (Or.inl ⟨ht, rfl⟩)
    ((h.wf.unlink t).addFront (by rw [Links.unlink_head, if_pos rfl]) p) (fun i => ?_)
  rw [Links.addFront_head, Links.unlink_head, hr]
  split <;> rfl

theorem lt_made (h : LinkInv links thread made) {p : ThreadType} (ht : links.head t = some p) :
    t < made ∧ (thread t).type = p := by
  by_cases hlt : t < made
  · exact ⟨hlt, Option.some.inj ((h.placed t hlt).symm.trans ht)⟩
  · rw [(h.fresh t (Nat.le_of_not_lt hlt)).1] at ht
    cases ht

end LinkInv

def ThreadType.onSocket : ThreadType → Bool
  | .read => true
  | .write => true
  | .ready => true
  | _ => false

theorem type_onSocket (d : Side) : d.type.onSocket = true := by
  cases d <;> rfl

theorem type_ne_ready (d : Side) : d.type ≠ .ready := by
  cases d <;> simp [Side.type]

theorem type_inj {d e : Side} (h : d.type = e.type) : d = e := by
  cases d <;> cases e <;> first | rfl | cases h

namespace SocketInv

variable {sockets : List ClSocket} {thread : Nat → ClThread} {s s' : ClSocket} {d e : Side}
  {t : Nat}

theorem slot_onSocket (h : SocketInv sockets thread) (hs : s ∈ sockets) (hd : s.slot d = some t) :
    (thread t).type.onSocket = true := by
  rcases (h.slot s hs d t hd).2 with ht | ht
  · rw [ht, type_onSocket]
  · rw [ht]
    rfl

theorem ne_of_slot (h : SocketInv sockets thread) (hs : s ∈ sockets) (hd : s.slot d = some t)
    {p : ThreadType} (hp : p.onSocket = false) : (thread t).type ≠ p := by
  rintro rfl
  rw [h.slot_onSocket hs hd] at hp
  cases hp

theorem eq_of_fd (h : SocketInv sockets thread) (hs : s ∈ sockets) (hs' : s' ∈ sockets)
    (hfd : s.fd = s'.fd) : s = s' :=
  List.inj_on_of_nodup_map h.keys hs hs' hfd

theorem slot_unique (h : SocketInv sockets thread) (hs : s ∈ sockets) (hs' : s' ∈ sockets)
    (hd : s.slot d = some t) (he : s'.slot e = some t) : s = s' ∧ d = e := by
  have hu := (h.slot s hs d t hd).1
  rw [(h.slot s' hs' e t he).1, ThreadU.fd.injEq] at hu
  obtain rfl := h.eq_of_fd hs hs' hu.symm
  exact ⟨rfl, h.side s hs d e t hd he⟩

theorem lookup (h : SocketInv sockets thread) (hs : s ∈ sockets) :
    Keyed.lookup ClSocket.fd s.fd sockets = some s :=
  (Keyed.lookup_eq_some_iff h.keys).mpr ⟨hs, rfl⟩

theorem mem_update (h : SocketInv sockets thread) (hs : s ∈ sockets) {x : ClSocket} :
    x ∈ Keyed.update ClSocket.fd s.fd (fun _ => s') sockets ↔
      x = s' ∨ x ∈ sockets ∧ x.fd ≠ s.fd := by
  rw [Keyed.mem_update h.keys (List.mem_map_of_mem hs)]
  constructor
  · rintro (⟨y, hy, hk, rfl⟩ | hx)
    · exact Or.inl rfl
    · exact Or.inr hx
  · rintro (rfl | hx)
    · exact Or.inl ⟨s, hs, rfl, rfl⟩
    · exact Or.inr hx

theorem other (h : SocketInv sockets thread) {r : ClThread}
    (ht : (thread t).type.onSocket = false) (hr : r.type.onSocket = false) :
    SocketInv sockets (Function.update thread t r) := by
  have hof : ∀ i p, (Function.update thread t r i).type = p → p.onSocket = true →
      (thread i).type = p := by
    intro i p hi hp
    by_cases hit : i = t
    · rw [hit, Function.update_self] at hi
      rw [hi, hp] at hr
      cases hr
    · rw [Function.update_of_ne hit] at hi
      exact hi
  refine ⟨h.keys, h.flag, h.persist, fun s hs d i hd => ?_, h.side, fun d i hi => ?_,
    fun i hi => ?_⟩
  · have hit : i ≠ t := by
      rintro rfl
      rw [h.slot_onSocket hs hd] at ht
      cases ht
    rw [Function.update_of_ne hit]
    exact h.slot s hs d i hd
  · exact h.waiting d i (hof i _ hi (type_onSocket d))
  · exact h.ready i (hof i _ hi rfl)

theorem retype (h : SocketInv sockets thread) (hs : s ∈ sockets) (hd : s.slot d = some t)
    {r : ClThread} (hu : r.u = (thread t).u) (hr : r.type = d.type ∨ r.type = .ready) :
    SocketInv sockets (Function.update thread t r) := by
  refine ⟨h.keys, h.flag, h.persist, fun s' hs' e i he => ?_, h.side, fun e i hi => ?_,
    fun i hi => ?_⟩
  · by_cases hit : i = t
    · subst hit
      obtain ⟨rfl, rfl⟩ := h.slot_unique hs hs' hd he
      rw [Function.update_self, hu]
      exact ⟨(h.slot s hs d i hd).1, hr⟩
    · rw [Function.update_of_ne hit]
      exact h.slot s' hs' e i he
  · by_cases hit : i = t
    · subst hit
      rw [Function.update_self] at hi
      rcases hr with hr | hr
      · obtain rfl := type_inj (hr.symm.trans hi)
        exact ⟨s, hs, hd⟩
      · exact absurd (hi.symm.trans hr) (type_ne_ready e)
    · rw [Function.update_of_ne hit] at hi
      exact h.waiting e i hi
  · by_cases hit : i = t
    · exact ⟨s, hs, d, hit ▸ hd⟩
    · rw [Function.update_of_ne hit] at hi
      exact h.ready i hi

theorem replace (h : SocketInv sockets thread) (hs : s ∈ sockets) (s' : ClSocket)
    (hfd : s'.fd = s.fd)
    {thread' : Nat → ClThread}
    (hflag : ∀ d, has s'.type (Side.flag d) = (s'.slot d).isSome)
    (hpersist : ∀ d, has s'.type (Side.persist d) = true → has s'.type d.flag = true)
    (hslot : ∀ d i, s'.slot d = some i →
      (thread' i).u = .fd s.fd ∧ ((thread' i).type = d.type ∨ (thread' i).type = .ready))
    (hside : ∀ d e i, s'.slot d = some i → s'.slot e = some i → d = e)
    (hkeep : ∀ x ∈ sockets, x.fd ≠ s.fd → ∀ d i, x.slot d = some i → thread' i = thread i)
    (hgone : ∀ i, (thread' i).type.onSocket = true →
      (∃ d, s'.slot d = some i) ∨ (thread' i).type = (thread i).type ∧ ∀ d, s.slot d ≠ some i) :
    SocketInv (Keyed.update ClSocket.fd s.fd (fun _ => s') sockets) thread' := by
  have hmem : ∀ x, x ∈ Keyed.update ClSocket.fd s.fd (fun _ => s') sockets ↔
      x = s' ∨ x ∈ sockets ∧ x.fd ≠ s.fd := fun x => h.mem_update hs
  have hnew := (hmem s').mpr (Or.inl rfl)
  have hold : ∀ x ∈ sockets, ∀ d i, x.slot d = some i → (∀ d, s.slot d ≠ some i) →
      x ∈ Keyed.update ClSocket.fd s.fd (fun _ => s') sockets := by
    intro x hx d i hd hnot
    refine (hmem x).mpr (Or.inr ⟨hx, fun he => hnot d ?_⟩)
    rw [← h.eq_of_fd hx hs he]
    exact hd
  refine ⟨?_, fun x hx d => ?_, fun x hx d => ?_, fun x hx d i hd => ?_, fun x hx d e i hd he => ?_,
    fun d i hi => ?_, fun i hi => ?_⟩
  · rw [Keyed.update_keys (fun _ _ => hfd)]
    exact h.keys
  · rcases (hmem x).mp hx with rfl | ⟨hx, -⟩
    · exact hflag d
    · exact h.flag x hx d
  · rcases (hmem x).mp hx with rfl | ⟨hx, -⟩
    · exact hpersist d
    · exact h.persist x hx d
  · rcases (hmem x).mp hx with rfl | ⟨hx, hne⟩
    · rw [hfd]
      exact hslot d i hd
    · rw [hkeep x hx hne d i hd]
      exact h.slot x hx d i hd
  · rcases (hmem x).mp hx with rfl | ⟨hx, -⟩
    · exact hside d e i hd he
    · exact h.side x hx d e i hd he
  · rcases hgone i (by rw [hi, type_onSocket]) with ⟨e, he⟩ | ⟨hsame, hnot⟩
    · rcases (hslot e i he).2 with ht | ht
      · obtain rfl := type_inj (ht.symm.trans hi)
        exact ⟨s', hnew, he⟩
      · exact absurd (hi.symm.trans ht) (type_ne_ready d)
    · obtain ⟨x, hx, hd⟩ := h.waiting d i (hsame ▸ hi)
      exact ⟨x, hold x hx d i hd hnot, hd⟩
  · rcases hgone i (by rw [hi]; rfl) with ⟨e, he⟩ | ⟨hsame, hnot⟩
    · exact ⟨s', hnew, e, he⟩
    · obtain ⟨x, hx, d, hd⟩ := h.ready i (hsame ▸ hi)
      exact ⟨x, hold x hx d i hd hnot, d, hd⟩

theorem setOp (h : SocketInv sockets thread) (hs : s ∈ sockets) (op : SocketOp) :
    SocketInv (Keyed.update ClSocket.fd s.fd (fun _ => { s with op := op }) sockets) thread := by
  have hslot : ∀ e, ({ s with op := op } : ClSocket).slot e = s.slot e := by
    intro e
    cases e <;> rfl
  refine h.replace hs { s with op := op } rfl (fun d => ?_) (h.persist s hs) (fun d i hd => ?_)
    (fun d e i hd he => ?_) (fun _ _ _ _ _ _ => rfl) (fun i hi => ?_)
  · rw [hslot]
    exact h.flag s hs d
  · rw [hslot] at hd
    exact h.slot s hs d i hd
  · rw [hslot] at hd he
    exact h.side s hs d e i hd he
  · by_cases hd : ∃ d, s.slot d = some i
    · obtain ⟨d, hd⟩ := hd
      exact Or.inl ⟨d, (hslot d).trans hd⟩
    · exact Or.inr ⟨rfl, fun d he => hd ⟨d, he⟩⟩

theorem added (h : SocketInv sockets thread) (hs : s ∈ sockets) (hd : s.slot d = none)
    (ht : (thread t).type.onSocket = false) {r : ClThread} (hr : r.type = d.type)
    (hu : r.u = .fd s.fd) (hfd : s'.fd = s.fd)
    (hslot : ∀ e, s'.slot e = if e = d then some t else s.slot e) {presist : Bool}
    (htype : s'.type = typeAdded s.type d presist) :
    SocketInv (Keyed.update ClSocket.fd s.fd (fun _ => s') sockets)
      (Function.update thread t r) := by
  have hfree : ∀ x ∈ sockets, ∀ e i, x.slot e = some i → i ≠ t := by
    rintro x hx e i he rfl
    rw [h.slot_onSocket hx he] at ht
    cases ht
  refine h.replace hs s' hfd (fun e => ?_) (fun e he => ?_) (fun e i he => ?_)
    (fun e e' i he he' => ?_)
    (fun x hx _ e i he => Function.update_of_ne (hfree x hx e i he) _ _) (fun i hi => ?_)
  · rw [htype, (has_typeAdded ..).1, hslot, h.flag s hs e]
    by_cases hed : e = d <;> simp [hed]
  · rw [htype] at he ⊢
    rw [(has_typeAdded ..).2] at he
    rw [(has_typeAdded ..).1]
    by_cases hed : e = d
    · simp [hed]
    · rw [if_neg hed] at he
      rw [h.persist s hs e he, Bool.or_true]
  · rw [hslot] at he
    by_cases hed : e = d
    · rw [if_pos hed, Option.some.injEq] at he
      rw [← he, Function.update_self, hed]
      exact ⟨hu, Or.inl hr⟩
    · rw [if_neg hed] at he
      rw [Function.update_of_ne (hfree s hs e i he)]
      exact h.slot s hs e i he
  · rw [hslot] at he he'
    by_cases hed : e = d
    · by_cases hed' : e' = d
      · rw [hed, hed']
      · rw [if_pos hed, Option.some.injEq] at he
        rw [if_neg hed'] at he'
        exact absurd he.symm (hfree s hs e' i he')
    · rw [if_neg hed] at he
      by_cases hed' : e' = d
      · rw [if_pos hed', Option.some.injEq] at he'
        exact absurd he'.symm (hfree s hs e i he)
      · rw [if_neg hed'] at he'
        exact h.side s hs e e' i he he'
  · by_cases hit : i = t
    · exact Or.inl ⟨d, by rw [hslot, if_pos rfl, hit]⟩
    · rw [Function.update_of_ne hit]
      by_cases he : ∃ e, s.slot e = some i
      · obtain ⟨e, he⟩ := he
        have hed : e ≠ d := by
          rintro rfl
          rw [hd] at he
          cases he
        exact Or.inl ⟨e, by rw [hslot, if_neg hed, he]⟩
      · exact Or.inr ⟨rfl, fun e he' => he ⟨e, he'⟩⟩

theorem removed (h : SocketInv sockets thread) (hs : s ∈ sockets) (hd : s.slot d = some t)
    {r : ClThread} (hr : r.type.onSocket = false) (hfd : s'.fd = s.fd)
    (hslot : ∀ e, s'.slot e = if e = d then none else s.slot e)
    (hflag : ∀ e, has s'.type (Side.flag e) = (decide (e ≠ d) && has s.type e.flag))
    (hpersist : ∀ e, has s'.type (Side.persist e) = true → e ≠ d ∧ has s.type e.persist = true) :
    SocketInv (Keyed.update ClSocket.fd s.fd (fun _ => s') sockets)
      (Function.update thread t r) := by
  have hother : ∀ x ∈ sockets, ∀ e i, x.slot e = some i → x.fd ≠ s.fd ∨ e ≠ d → i ≠ t := by
    rintro x hx e i he hne rfl
    obtain ⟨rfl, rfl⟩ := h.slot_unique hx hs he hd
    simp at hne
  have hleft : ∀ e i, s'.slot e = some i → e ≠ d ∧ s.slot e = some i := by
    intro e i he
    rw [hslot] at he
    split at he
    · cases he
    · next hed => exact ⟨hed, he⟩
  refine h.replace hs s' hfd (fun e => ?_) (fun e he => ?_) (fun e i he => ?_)
    (fun e e' i he he' => ?_)
    (fun x hx hne e i he => Function.update_of_ne (hother x hx e i he (Or.inl hne)) _ _)
    (fun i hi => ?_)
  · rw [hflag, hslot, h.flag s hs e]
    by_cases hed : e = d <;> simp [hed]
  · obtain ⟨hed, hp⟩ := hpersist e he
    rw [hflag, h.persist s hs e hp]
    simp [hed]
  · obtain ⟨hed, he⟩ := hleft e i he
    rw [Function.update_of_ne (hother s hs e i he (Or.inr hed))]
    exact h.slot s hs e i he
  · exact h.side s hs e e' i (hleft e i he).2 (hleft e' i he').2
  · by_cases hit : i = t
    · rw [hit, Function.update_self, hr] at hi
      cases hi
    · rw [Function.update_of_ne hit]
      by_cases he : ∃ e, s.slot e = some i
      · obtain ⟨e, he⟩ := he
        have hed : e ≠ d := by
          rintro rfl
          exact hit (Option.some.inj (he.symm.trans hd))
        exact Or.inl ⟨e, by rw [hslot, if_neg hed, he]⟩
      · exact Or.inr ⟨rfl, fun e he' => he ⟨e, he'⟩⟩

theorem search (h : SocketInv sockets thread) (sock : Int) :
    SocketInv (Keyed.lookupOrAppend ClSocket.fd sock (clThreadSocketCalloc sock) sockets) thread ∧
      ∃ s, Keyed.lookup ClSocket.fd sock
        (Keyed.lookupOrAppend ClSocket.fd sock (clThreadSocketCalloc sock) sockets) = some s ∧
        s ∈ Keyed.lookupOrAppend ClSocket.fd sock (clThreadSocketCalloc sock) sockets ∧
        s.fd = sock := by
  have hfd : (clThreadSocketCalloc sock).fd = sock := rfl
  obtain ⟨s, hlook⟩ : ∃ s, Keyed.lookup ClSocket.fd sock
      (Keyed.lookupOrAppend ClSocket.fd sock (clThreadSocketCalloc sock) sockets) = some s := by
    rw [Keyed.lookup_lookupOrAppend hfd, if_pos rfl]
    exact ⟨_, rfl⟩
  refine ⟨?_, s, hlook, Keyed.mem_of_lookup hlook, Keyed.key_of_lookup hlook⟩
  have hkeys := Keyed.lookupOrAppend_nodup hfd h.keys
  rw [Keyed.lookupOrAppend] at hkeys ⊢
  split at hkeys
  · exact h
  · have hslot : ∀ d, (clThreadSocketCalloc sock).slot d = none := fun d => by cases d <;> rfl
    have hmem : ∀ x, x ∈ sockets ++ [clThreadSocketCalloc sock] →
        x ∈ sockets ∨ x = clThreadSocketCalloc sock := fun x hx => by simpa using hx
    refine ⟨hkeys, fun x hx d => ?_, fun x hx d => ?_, fun x hx d i hd => ?_,
      fun x hx d e i hd he => ?_, fun d i hi => ?_, fun i hi => ?_⟩
    · rcases hmem x hx with hx | rfl
      · exact h.flag x hx d
      · rw [hslot]
        exact zero_has _
    · rcases hmem x hx with hx | rfl
      · exact h.persist x hx d
      · intro he
        exact absurd (he.symm.trans (zero_has _)) (by simp)
    · rcases hmem x hx with hx | rfl
      · exact h.slot x hx d i hd
      · rw [hslot] at hd
        cases hd
    · rcases hmem x hx with hx | rfl
      · exact h.side x hx d e i hd he
      · rw [hslot] at hd
        cases hd
    · obtain ⟨x, hx, hd⟩ := h.waiting d i hi
      exact ⟨x, List.mem_append_left _ hx, hd⟩
    · obtain ⟨x, hx, hd⟩ := h.ready i hi
      exact ⟨x, List.mem_append_left _ hx, hd⟩

end SocketInv

namespace HeapInv

variable {heap heap' : TimeHeap} {thread : Nat → ClThread} {t : Nat}

theorem other (h : HeapInv heap thread) {r : ClThread} (ht : (thread t).type ≠ .timer)
    (hr : r.type ≠ .timer) : HeapInv heap (Function.update thread t r) := by
  refine ⟨h.ok, fun n i hi => ?_, fun i hi => ?_⟩
  · have hit : i ≠ t := by
      rintro rfl
      exact ht (h.armed n i hi).1
    rw [Function.update_of_ne hit]
    exact h.armed n i hi
  · have hit : i ≠ t := by
      rintro rfl
      rw [Function.update_self] at hi
      exact hr hi
    rw [Function.update_of_ne hit] at hi
    exact h.timer i hi

theorem added (h : HeapInv heap thread) (ht : (thread t).type ≠ .timer) (now : BitVec 64)
    (timer : BitVec 32) {r : ClThread} (hr : r.type = .timer)
    (hu : r.u = .timer (some (heap.timeHeapAddTimer now none (some t) timer).1)) :
    HeapInv (heap.timeHeapAddTimer now none (some t) timer).2 (Function.update thread t r) := by
  obtain ⟨hok, harmed⟩ := h.ok.addTimer now none (some t) timer
  refine ⟨hok, fun n i hi => ?_, fun i hi => ?_⟩
  · rcases (harmed n i).mp hi with ⟨rfl, hti⟩ | hold
    · rw [Option.some.injEq] at hti
      rw [← hti, Function.update_self]
      exact ⟨hr, hu⟩
    · have hit : i ≠ t := fun he => ht (he ▸ (h.armed n i hold).1)
      rw [Function.update_of_ne hit]
      exact h.armed n i hold
  · by_cases hit : i = t
    · exact ⟨heap.made, (harmed heap.made i).mpr (Or.inl ⟨rfl, by rw [hit]⟩)⟩
    · rw [Function.update_of_ne hit] at hi
      obtain ⟨n, hn⟩ := h.timer i hi
      exact ⟨n, (harmed n i).mpr (Or.inr hn)⟩

theorem removed (h : HeapInv heap thread) {n : Nat} (hn : heap.Armed n t) (hok : heap'.Ok)
    (harmed : ∀ m a, heap'.Armed m a ↔ m ≠ n ∧ heap.Armed m a) {r : ClThread}
    (hr : r.type ≠ .timer) : HeapInv heap' (Function.update thread t r) := by
  -- the union of a timer names its node, so a thread has one
  have hone : ∀ m i, heap.Armed m i → (m = n ↔ i = t) := by
    intro m i hm
    constructor
    · rintro rfl
      exact Option.some.inj (hm.2.symm.trans hn.2)
    · rintro rfl
      have hu := (h.armed m i hm).2
      rw [(h.armed n i hn).2, ThreadU.timer.injEq, Option.some.injEq] at hu
      exact hu.symm
  refine ⟨hok, fun m i hm => ?_, fun i hi => ?_⟩
  · obtain ⟨hne, hm⟩ := (harmed m i).mp hm
    rw [Function.update_of_ne (fun he => hne ((hone m i hm).mpr he))]
    exact h.armed m i hm
  · have hit : i ≠ t := by
      rintro rfl
      rw [Function.update_self] at hi
      exact hr hi
    rw [Function.update_of_ne hit] at hi
    obtain ⟨m, hm⟩ := h.timer i hi
    exact ⟨m, (harmed m i).mpr ⟨fun he => hit ((hone m i hm).mp he), hm⟩⟩

theorem congr (h : HeapInv heap thread) (hok : heap'.Ok)
    (harmed : ∀ m a, heap'.Armed m a ↔ heap.Armed m a) : HeapInv heap' thread where
  ok := hok
  armed n t hn := h.armed n t ((harmed n t).mp hn)
  timer t ht := by
    obtain ⟨n, hn⟩ := h.timer t ht
    exact ⟨n, (harmed n t).mpr hn⟩

end HeapInv

end AlgorithmLib.Epoll
