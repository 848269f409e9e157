import AlgorithmLib.Epoll.Operations

/-!
What `cl_thread_fetch` returns. A record serves one registration after another; with the state
goes a history that gives every registration a number of its own, remembers which one each record
serves, and logs what happens to them.
-/

set_option autoImplicit false

namespace AlgorithmLib.Epoll

structure Registration where
  func : Nat
  arg : Nat
  u : Option ThreadU
  presist : Bool
  deriving DecidableEq, Repr

def Registration.Carried (r : Registration) (t : ClThread) : Prop :=
  t.func = r.func ∧ t.arg = r.arg ∧ ∀ u, r.u = some u → t.u = u

inductive Entry where
  | registered (id : Nat) (r : Registration)
  | cancelled (id : Nat)
  /-- `epoll_wait` is called -/
  | waited
  /-- the thread was moved to the ready list -/
  | readied (id : Nat)
  /-- this copy of the thread was returned -/
  | returned (id : Nat) (copy : ClThread)
  deriving DecidableEq, Repr

def Entry.isReturned (id : Nat) : Entry → Bool
  | .returned i _ => i = id
  | _ => false

/-- The registration a record serves while it is not unused; the log has the latest entry first. -/
structure History where
  master : Master
  serves : Nat → Nat
  count : Nat
  log : List Entry

def History.init : History :=
  { master := clThreadInit, serves := fun _ => 0, count := 0, log := [] }

namespace History

def register (s : History) (m : Master) (t : Nat) (r : Registration) : History :=
  { master := m, serves := Function.update s.serves t s.count, count := s.count + 1
    log := .registered s.count r :: s.log }

def add (s : History) (r : Registration) : Master × Option Nat → History
  | (m, none) => { s with master := m }
  | (m, some t) => s.register m t r

/-- `epoll_wait` is called when the ready list is empty, so the threads on it afterwards are those
that were moved to it. -/
def wait (s : History) (m : Master) : List Entry :=
  (m.links.list .ready).map (fun t => .readied (s.serves t)) ++ .waited :: s.log

def fetch (s : History) (a : Answers) : Option History :=
  match s.master.choose a, s.master.clThreadFetch a with
  | some (m₁, waited, t), some (m, r) =>
    let log := if waited then s.wait m₁ else s.log
    match t, r with
    | some t, some copy =>
      some { s with master := m, log := .returned (s.serves t) copy :: log }
    | _, _ => some { s with master := m, log := log }
  | _, _ => none

/-- A call of the scheduler with its entries. -/
def step (s : History) : Act → Option History
  | .addRead func arg sock presist =>
    (s.master.clThreadAddRead func arg sock presist).map
      (s.add { func := func, arg := arg, u := some (.fd sock), presist := presist })
  | .addWrite func arg sock presist =>
    (s.master.clThreadAddWrite func arg sock presist).map
      (s.add { func := func, arg := arg, u := some (.fd sock), presist := presist })
  | .addTimer now func arg timer =>
    let (m, t) := s.master.clThreadAddTimer now func arg timer
    some (s.register m t { func := func, arg := arg, u := none, presist := false })
  | .addEvent func arg val =>
    let (m, t) := s.master.clThreadAddEvent func arg val
    some (s.register m t { func := func, arg := arg, u := some (.val val), presist := false })
  | .cancel t =>
    if t < s.master.made then
      (s.master.clThreadCancel t).map fun m =>
        { s with master := m, log := .cancelled (s.serves t) :: s.log }
    else none
  | .fetch a => if s.master.batchOk a.batch then s.fetch a else none

theorem fetch_eq (s : History) (a : Answers) {m : Master} {r : Option ClThread}
    (h : s.master.clThreadFetch a = some (m, r)) :
    ∃ m₁ waited t, s.master.choose a = some (m₁, waited, t) ∧ r = t.map m₁.thread := by
  rw [Master.clThreadFetch_eq] at h
  obtain ⟨⟨m₁, waited, t⟩, hchoose, h⟩ := Option.bind_eq_some_iff.mp h
  refine ⟨m₁, waited, t, hchoose, ?_⟩
  cases t with
  | none =>
    cases h
    rfl
  | some t =>
    obtain ⟨⟨m', copy⟩, hrun, heq⟩ := Option.map_eq_some_iff.mp h
    cases heq
    rw [Master.clThreadRun] at hrun
    split at hrun
    · obtain ⟨_, -, heq⟩ := Option.map_eq_some_iff.mp hrun
      cases heq
      rfl
    · cases hrun
      rfl

theorem step_master (s : History) (a : Act) :
    (s.step a).map History.master = Epoll.step s.master a := by
  have hadd : ∀ (r : Registration) (o : Option (Master × Option Nat)),
      (o.map (s.add r)).map History.master = o.map Prod.fst := by
    intro r o
    rcases o with _ | ⟨m, _ | t⟩ <;> rfl
  cases a with
  | addRead func arg sock presist => exact hadd _ _
  | addWrite func arg sock presist => exact hadd _ _
  | addTimer now func arg timer => rfl
  | addEvent func arg val => rfl
  | cancel t =>
    rw [step, Epoll.step]
    split
    · rw [Option.map_map]
      cases s.master.clThreadCancel t <;> rfl
    · rfl
  | fetch a =>
    rw [step, Epoll.step]
    split
    · cases hf : s.master.clThreadFetch a with
      | none =>
        rw [fetch, hf]
        split
        · next _ heq => cases heq
        · rfl
      | some p =>
        obtain ⟨m, r⟩ := p
        obtain ⟨m₁, waited, t, hchoose, rfl⟩ := s.fetch_eq a hf
        rw [fetch, hf, hchoose]
        cases t <;> rfl
    · rfl

end History

/-- Whether the thread was moved to the ready list and has not been returned since. -/
def pending (id : Nat) : List Entry → Bool
  | [] => false
  | .readied i :: log => i = id || pending id log
  | .returned i _ :: log => i ≠ id && pending id log
  | _ :: log => pending id log

/-- What the history says about every registration. -/
structure Delivered (log : List Entry) : Prop where
  /-- A registration that is not persistent is returned once at most. -/
  once : ∀ id r, .registered id r ∈ log → r.presist = false →
    (log.filter (Entry.isReturned id)).length ≤ 1
  /-- What is returned was registered before, with this data, and nothing else has its number. -/
  carried : ∀ later earlier id copy, log = later ++ .returned id copy :: earlier →
    ∃ r, .registered id r ∈ earlier ∧ r.Carried copy ∧
      ∀ r', .registered id r' ∈ log → r' = r
  /-- A cancelled registration is not returned afterwards. -/
  silent : ∀ later earlier id, log = later ++ .cancelled id :: earlier →
    ∀ copy, .returned id copy ∉ later
  /-- A thread that was moved to the ready list is returned before the next `epoll_wait`. -/
  prompt : ∀ later mid earlier id, log = later ++ .waited :: (mid ++ .readied id :: earlier) →
    ∃ copy, .returned id copy ∈ mid

def Entry.id : Entry → Option Nat
  | .registered id _ => some id
  | .cancelled id => some id
  | .waited => none
  | .readied id => some id
  | .returned id _ => some id

/-- The records that are not unused serve different registrations, which are still to be
returned. -/
structure Serving (m : Master) (serves : Nat → Nat) (count : Nat) (log : List Entry) : Prop where
  fresh : ∀ e ∈ log, ∀ id, e.id = some id → id < count
  single : ∀ id r r', .registered id r ∈ log → .registered id r' ∈ log → r = r'
  inj : ∀ t t', (m.thread t).type ≠ .unused → (m.thread t').type ≠ .unused →
    serves t = serves t' → t = t'
  live : ∀ t, (m.thread t).type ≠ .unused → ∃ r, .registered (serves t) r ∈ log ∧
    r.Carried (m.thread t) ∧ .cancelled (serves t) ∉ log ∧
      (r.presist = false → ∀ copy, .returned (serves t) copy ∉ log)
  persist : ∀ s ∈ m.sockets, ∀ d t r, s.slot d = some t → .registered (serves t) r ∈ log →
    has s.type (Side.persist d) = r.presist
  ready : ∀ id, pending id log = true → ∃ t, (m.thread t).type = .ready ∧ serves t = id
  delivered : Delivered log

theorem returned_of_not_pending {id : Nat} {mid earlier : List Entry}
    (h : pending id (mid ++ .readied id :: earlier) = false) :
    ∃ copy, .returned id copy ∈ mid := by
  induction mid with
  | nil => simp [pending] at h
  | cons e mid ih =>
    rw [List.cons_append] at h
    cases e with
    | returned i copy =>
      by_cases hi : i = id
      · exact ⟨copy, hi ▸ List.mem_cons_self⟩
      · simp only [pending, ne_eq, hi, not_false_eq_true, decide_true, Bool.true_and] at h
        obtain ⟨copy, hmem⟩ := ih h
        exact ⟨copy, List.mem_cons_of_mem _ hmem⟩
    | readied i =>
      rw [pending, Bool.or_eq_false_iff] at h
      obtain ⟨copy, hmem⟩ := ih h.2
      exact ⟨copy, List.mem_cons_of_mem _ hmem⟩
    | _ =>
      obtain ⟨copy, hmem⟩ := ih h
      exact ⟨copy, List.mem_cons_of_mem _ hmem⟩

theorem delivered_nil : Delivered [] where
  once _ _ h := absurd h List.not_mem_nil
  carried _ _ _ _ h := by simp at h
  silent _ _ _ h := by simp at h
  prompt _ _ _ _ h := by simp at h

theorem serving_init (serves : Nat → Nat) (count : Nat) :
    Serving clThreadInit serves count [] where
  fresh _ h := absurd h List.not_mem_nil
  single _ _ _ h := absurd h List.not_mem_nil
  inj _ _ h := absurd rfl h
  live _ h := absurd rfl h
  persist _ h := absurd h List.not_mem_nil
  ready _ h := by cases h
  delivered := delivered_nil

namespace Delivered

variable {log : List Entry}

theorem cons (h : Delivered log) {e : Entry} (hret : ∀ id copy, e ≠ .returned id copy)
    (hreg : ∀ id r, e = .registered id r → ∀ e' ∈ log, e'.id ≠ some id)
    (hwait : e = .waited → ∀ id, pending id log = false) : Delivered (e :: log) where
  once id r hmem hr := by
    have hno : Entry.isReturned id e = false := by
      cases e <;> first | rfl | exact absurd rfl (hret _ _)
    rw [List.filter_cons_of_neg (by simp [hno])]
    rcases List.mem_cons.mp hmem with rfl | hmem
    · have hnone : log.filter (Entry.isReturned id) = [] := by
        rw [List.filter_eq_nil_iff]
        intro e' he' hid
        cases e' with
        | returned i copy =>
          exact hreg id r rfl _ he' (congrArg some (by simpa [Entry.isReturned] using hid))
        | _ => cases hid
      rw [hnone]
      exact Nat.zero_le 1
    · exact h.once id r hmem hr
  carried later earlier id copy heq := by
    cases later with
    | nil =>
      cases heq
      exact absurd rfl (hret id copy)
    | cons e' later =>
      obtain ⟨rfl, rfl⟩ := List.cons.inj heq
      obtain ⟨r, hr, hcarried, hsingle⟩ := h.carried later earlier id copy rfl
      refine ⟨r, hr, hcarried, fun r' hr' => ?_⟩
      rcases List.mem_cons.mp hr' with he | hr'
      · exact absurd rfl (hreg id r' he.symm (.registered id r) (by simp [hr]))
      · exact hsingle r' hr'
  silent later earlier id heq := by
    cases later with
    | nil => exact fun _ => List.not_mem_nil
    | cons e' later =>
      obtain ⟨rfl, rfl⟩ := List.cons.inj heq
      intro copy hmem
      rcases List.mem_cons.mp hmem with he | hmem
      · exact absurd he.symm (hret id copy)
      · exact h.silent later earlier id rfl copy hmem
  prompt later mid earlier id heq := by
    cases later with
    | nil =>
      obtain ⟨rfl, rfl⟩ := List.cons.inj heq
      exact returned_of_not_pending (hwait rfl id)
    | cons e' later =>
      obtain ⟨rfl, rfl⟩ := List.cons.inj heq
      exact h.prompt later mid earlier id rfl

/-- A registration that was not cancelled is returned, for the first time unless it is
persistent. -/
theorem returned (h : Delivered log) {id : Nat} {r : Registration} {copy : ClThread}
    (hr : .registered id r ∈ log) (hcarried : r.Carried copy)
    (hsingle : ∀ r', .registered id r' ∈ log → r' = r) (hcancelled : .cancelled id ∉ log)
    (honce : r.presist = false → ∀ copy, .returned id copy ∉ log) :
    Delivered (.returned id copy :: log) where
  once i r' hmem hr' := by
    have hmem' : .registered i r' ∈ log := by simpa using hmem
    by_cases hi : i = id
    · subst hi
      rw [hsingle r' hmem'] at hr'
      have hnone : log.filter (Entry.isReturned i) = [] := by
        rw [List.filter_eq_nil_iff]
        intro e he hret
        cases e with
        | returned j copy =>
          have hj : j = i := by simpa [Entry.isReturned] using hret
          exact honce hr' copy (hj ▸ he)
        | _ => cases hret
      rw [List.filter_cons_of_pos (by simp [Entry.isReturned]), hnone]
      exact Nat.le_refl 1
    · rw [List.filter_cons_of_neg (by simp [Entry.isReturned, Ne.symm hi])]
      exact h.once i r' hmem' hr'
  carried later earlier i copy' heq := by
    cases later with
    | nil =>
      cases heq
      exact ⟨r, hr, hcarried, fun r' hr' => hsingle r' (by simpa using hr')⟩
    | cons e later =>
      obtain ⟨rfl, rfl⟩ := List.cons.inj heq
      obtain ⟨r₁, hr₁, hcarried₁, hsingle₁⟩ := h.carried later earlier i copy' rfl
      exact ⟨r₁, hr₁, hcarried₁, fun r' hr' => hsingle₁ r' (by simpa using hr')⟩
  silent later earlier i heq := by
    cases later with
    | nil => exact fun _ => List.not_mem_nil
    | cons e later =>
      obtain ⟨rfl, rfl⟩ := List.cons.inj heq
      intro copy' hmem
      rcases List.mem_cons.mp hmem with he | hmem
      · cases he
        exact hcancelled (List.mem_append_right _ List.mem_cons_self)
      · exact h.silent later earlier i rfl copy' hmem
  prompt later mid earlier i heq := by
    cases later with
    | nil => cases heq
    | cons e later =>
      obtain ⟨rfl, rfl⟩ := List.cons.inj heq
      exact h.prompt later mid earlier i rfl

end Delivered

/-- A later state in which no thread is registered anew: threads change their type or become
unused, and the slots that are still taken are taken as before. -/
structure Kept (m m' : Master) : Prop where
  thread : ∀ t, (m'.thread t).type ≠ .unused → (m.thread t).type ≠ .unused ∧
    (m'.thread t).func = (m.thread t).func ∧ (m'.thread t).arg = (m.thread t).arg ∧
      (m'.thread t).u = (m.thread t).u
  slot : ∀ s' ∈ m'.sockets, ∀ d t, s'.slot d = some t →
    ∃ s ∈ m.sockets, s.slot d = some t ∧ has s'.type d.persist = has s.type d.persist

theorem Kept.refl (m : Master) : Kept m m where
  thread _ h := ⟨h, rfl, rfl, rfl⟩
  slot s' hs' _ _ hd := ⟨s', hs', hd, rfl⟩

theorem Kept.trans {m₁ m₂ m₃ : Master} (h₁₂ : Kept m₁ m₂) (h₂₃ : Kept m₂ m₃) : Kept m₁ m₃ where
  thread t ht := by
    obtain ⟨ht₂, hfunc, harg, hu⟩ := h₂₃.thread t ht
    obtain ⟨ht₁, hfunc', harg', hu'⟩ := h₁₂.thread t ht₂
    exact ⟨ht₁, hfunc.trans hfunc', harg.trans harg', hu.trans hu'⟩
  slot s' hs' d t hd := by
    obtain ⟨s₂, hs₂, hd₂, hp⟩ := h₂₃.slot s' hs' d t hd
    obtain ⟨s₁, hs₁, hd₁, hp'⟩ := h₁₂.slot s₂ hs₂ d t hd₂
    exact ⟨s₁, hs₁, hd₁, hp.trans hp'⟩

theorem kept_update {m : Master} {t : Nat} {r : ClThread}
    (hr : r.type ≠ .unused → (m.thread t).type ≠ .unused ∧ r.func = (m.thread t).func ∧
      r.arg = (m.thread t).arg ∧ r.u = (m.thread t).u) (i : Nat)
    (hi : (Function.update m.thread t r i).type ≠ .unused) :
    (m.thread i).type ≠ .unused ∧ (Function.update m.thread t r i).func = (m.thread i).func ∧
      (Function.update m.thread t r i).arg = (m.thread i).arg ∧
      (Function.update m.thread t r i).u = (m.thread i).u := by
  by_cases hit : i = t
  · subst hit
    rw [Function.update_self] at hi ⊢
    exact hr hi
  · rw [Function.update_of_ne hit] at hi ⊢
    exact ⟨hi, rfl, rfl, rfl⟩

theorem kept_replace {m : Master} (hsock : SocketInv m.sockets m.thread) {s s' : ClSocket}
    (hs : s ∈ m.sockets)
    (hslot : ∀ d t, s'.slot d = some t →
      s.slot d = some t ∧ has s'.type (Side.persist d) = has s.type d.persist) :
    ∀ x ∈ Keyed.update ClSocket.fd s.fd (fun _ => s') m.sockets, ∀ d t, x.slot d = some t →
      ∃ s ∈ m.sockets, s.slot d = some t ∧ has x.type (Side.persist d) = has s.type d.persist := by
  intro x hx d t hd
  rcases (hsock.mem_update hs).mp hx with rfl | ⟨hx, -⟩
  · exact ⟨s, hs, hslot d t hd⟩
  · exact ⟨x, hx, hd, rfl⟩

namespace Inv

variable {m m' : Master}

theorem kept_cancelSide (h : Inv m) {t : Nat} {d : Side} (ht : (m.thread t).type = d.type)
    (hcancel : (m.cancelSide d t).map (·.clThreadAddUnuse t) = some m') :
    Kept m m' ∧ ∃ r, m'.thread = Function.update m.thread t r ∧ r.type = .unused := by
  obtain ⟨s, hs, hd, op, events, ctl, hsome, -⟩ := h.cancelSide_cases ht
  rw [hsome, Option.some.injEq] at hcancel
  subst hcancel
  generalize hs' : ({ s.setSlot d none with
    type := typeCancelled s.type d, op := op } : ClSocket) = s'
  have hfd : s'.fd = s.fd := by rw [← hs']; exact fd_setSlot ..
  simp only [Master.setSocket, Master.unlink, Master.clThreadAddUnuse, Master.setThread, hfd]
  refine ⟨⟨kept_update (fun hne => absurd rfl hne), kept_replace h.sockets hs (fun e i he => ?_)⟩,
    _, rfl, rfl⟩
  subst hs'
  rw [(has_typeCancelled ..).2]
  cases d <;> cases e <;> first | cases he | exact ⟨he, by simp⟩

theorem kept_socketSetSide (h : Inv m) {s : ClSocket} {d : Side} {t : Nat} (hs : s ∈ m.sockets)
    (hd : s.slot d = some t) :
    Kept m ((m.unlink t).socketSetSide d s t) ∧
      ∃ r, ((m.unlink t).socketSetSide d s t).thread = Function.update m.thread t r ∧
        (has s.type d.persist = false → r.type = .unused) := by
  rw [Master.socketSetSide]
  split
  case isTrue hpersist =>
    simp only [Master.setThread, Master.unlink]
    refine ⟨⟨kept_update (fun _ => ⟨h.sockets.ne_of_slot hs hd rfl, rfl, rfl, rfl⟩),
      fun x hx e i he => ⟨x, hx, he, rfl⟩⟩, _, rfl, fun hp => ?_⟩
    rw [hpersist] at hp
    cases hp
  case isFalse =>
    generalize hs' : ({ s.setSlot d none with type := s.type &&& ~~~d.cleared } : ClSocket) = s'
    have hfd : s'.fd = s.fd := by rw [← hs']; exact fd_setSlot ..
    simp only [Master.setSocket, Master.unlink, Master.clThreadAddUnuse, Master.setThread, hfd]
    refine ⟨⟨kept_update (fun hne => absurd rfl hne),
      kept_replace h.sockets hs (fun e i he => ?_)⟩, _, rfl, fun _ => rfl⟩
    subst hs'
    rw [(has_cleared ..).2]
    cases d <;> cases e <;> first | cases he | exact ⟨he, rfl⟩

theorem kept_doEventSide (h : Inv m) {s : ClSocket} (hs : s ∈ m.sockets) {d : Side}
    {what ctl ctl' : BitVec 32} (hside : m.doEventSide d s what ctl = some (m', ctl')) :
    Kept m m' := by
  rw [Master.doEventSide] at hside
  split at hside
  case isFalse =>
    cases hside
    exact Kept.refl m
  case isTrue =>
    split at hside
    · cases hside
    next t hd =>
      dsimp only at hside
      split at hside
      case isFalse =>
        cases hside
        exact Kept.refl m
      case isTrue =>
        cases hside
        exact ⟨kept_update (fun _ => ⟨h.sockets.ne_of_slot hs hd rfl, rfl, rfl, rfl⟩),
          fun x hx e i he => ⟨x, hx, he, rfl⟩⟩

theorem kept_clThreadDoEvent (h : Inv m) {fd : Int} {events : BitVec 32}
    (hdo : m.clThreadDoEvent fd events = some m') : Kept m m' := by
  simp only [Master.clThreadDoEvent, Option.bind_eq_bind, Option.bind_eq_some_iff] at hdo
  obtain ⟨s, hlook, ⟨m₁, ctl₁⟩, hread, ⟨m₂, ctl₂⟩, hwrite, hdo⟩ := hdo
  have hs := Keyed.mem_of_lookup hlook
  obtain ⟨_, _, hread', h₁, hsock₁⟩ := h.doEventSide hs .read (Master.whatOf events) 0#32
  rw [hread] at hread'
  cases hread'
  have hs₁ : s ∈ m₁.sockets := hsock₁ ▸ hs
  obtain ⟨_, _, hwrite', h₂, hsock₂⟩ := h₁.doEventSide hs₁ .write (Master.whatOf events) ctl₁
  rw [hwrite] at hwrite'
  cases hwrite'
  have hk : Kept m m₂ := (h.kept_doEventSide hs hread).trans (h₁.kept_doEventSide hs₁ hwrite)
  have hs₂ : s ∈ m₂.sockets := by
    rw [hsock₂]
    exact hs₁
  have hop : ∀ op, Kept m₂ (m₂.setSocket { s with op := op }) := fun op =>
    ⟨fun t ht => ⟨ht, rfl, rfl, rfl⟩,
      kept_replace (s := s) h₂.sockets hs₂ (fun e i he => ⟨by cases e <;> exact he, rfl⟩)⟩
  dsimp only at hdo
  split at hdo
  · cases hdo
    exact hk
  · split at hdo
    · cases hdo
      exact hk.trans ⟨(hop .add).thread, (hop .add).slot⟩
    · cases hdo
      exact hk.trans ⟨(hop .added).thread, (hop .added).slot⟩

theorem kept_doEvents (h : Inv m) {batch : List (Int × BitVec 32)}
    (hknown : ∀ e ∈ batch, e.1 ∈ m.sockets.map ClSocket.fd)
    (hdo : m.doEvents batch = some m') : Kept m m' := by
  induction batch generalizing m with
  | nil =>
    cases hdo
    exact Kept.refl _
  | cons e batch ih =>
    obtain ⟨m₁, hfirst, h₁, hfds⟩ := h.clThreadDoEvent (hknown e List.mem_cons_self) e.2
    rw [Master.doEvents, hfirst, Option.bind_some] at hdo
    exact (h.kept_clThreadDoEvent hfirst).trans
      (ih h₁ (fun e' he' => hfds ▸ hknown e' (List.mem_cons_of_mem _ he')) hdo)

end Inv

namespace Serving

variable {m m' : Master} {serves : Nat → Nat} {count : Nat} {log : List Entry}

theorem kept (h : Serving m serves count log) (hk : Kept m m')
    (hready : ∀ t, pending (serves t) log = true → (m.thread t).type = .ready →
      (m'.thread t).type = .ready) : Serving m' serves count log where
  fresh := h.fresh
  single := h.single
  inj t t' ht ht' := h.inj t t' (hk.thread t ht).1 (hk.thread t' ht').1
  live t ht := by
    obtain ⟨hwas, hfunc, harg, hu⟩ := hk.thread t ht
    obtain ⟨r, hr, ⟨hf, ha, hru⟩, hrest⟩ := h.live t hwas
    exact ⟨r, hr, ⟨hfunc.trans hf, harg.trans ha, fun u he => hu.trans (hru u he)⟩, hrest⟩
  persist s hs d t r hd hr := by
    obtain ⟨s₁, hs₁, hd₁, hp⟩ := hk.slot s hs d t hd
    exact hp.trans (h.persist s₁ hs₁ d t r hd₁ hr)
  ready id hid := by
    obtain ⟨t, ht, rfl⟩ := h.ready id hid
    exact ⟨t, hready t hid ht, rfl⟩
  delivered := h.delivered

theorem serves_lt (h : Serving m serves count log) {t : Nat} (ht : (m.thread t).type ≠ .unused) :
    serves t < count := by
  obtain ⟨r, hr, -⟩ := h.live t ht
  exact h.fresh _ hr _ rfl

/-- An unused record is put to use, perhaps in a slot. -/
theorem register (h : Serving m serves count log) {t : Nat} (ht : (m.thread t).type = .unused)
    {r : Registration} (hother : ∀ i, i ≠ t → m'.thread i = m.thread i)
    (hcarried : r.Carried (m'.thread t))
    (hslot : ∀ s' ∈ m'.sockets, ∀ d i, s'.slot d = some i →
      i = t ∧ has s'.type (Side.persist d) = r.presist ∨
      i ≠ t ∧ (m.thread i).type ≠ .unused ∧
        ∃ s ∈ m.sockets, s.slot d = some i ∧ has s'.type d.persist = has s.type d.persist) :
    Serving m' (Function.update serves t count) (count + 1) (.registered count r :: log) where
  fresh e he id hid := by
    rcases List.mem_cons.mp he with rfl | he
    · cases hid
      exact Nat.lt_succ_self _
    · exact Nat.lt_succ_of_lt (h.fresh e he id hid)
  single id r₁ r₂ h₁ h₂ := by
    have hold : ∀ r', .registered count r' ∉ log := fun r' hr' =>
      Nat.lt_irrefl _ (h.fresh _ hr' _ rfl)
    simp only [List.mem_cons, Entry.registered.injEq] at h₁ h₂
    rcases h₁ with ⟨rfl, rfl⟩ | h₁
    · rcases h₂ with ⟨-, rfl⟩ | h₂
      · rfl
      · exact absurd h₂ (hold r₂)
    · rcases h₂ with ⟨rfl, rfl⟩ | h₂
      · exact absurd h₁ (hold r₁)
      · exact h.single id r₁ r₂ h₁ h₂
  inj i j hi hj heq := by
    by_cases hit : i = t
    · by_cases hjt : j = t
      · rw [hit, hjt]
      · rw [hother j hjt] at hj
        rw [hit, Function.update_self, Function.update_of_ne hjt] at heq
        exact absurd heq (Nat.ne_of_gt (h.serves_lt hj))
    · rw [hother i hit] at hi
      by_cases hjt : j = t
      · rw [hjt, Function.update_self, Function.update_of_ne hit] at heq
        exact absurd heq (Nat.ne_of_lt (h.serves_lt hi))
      · rw [hother j hjt] at hj
        rw [Function.update_of_ne hit, Function.update_of_ne hjt] at heq
        exact h.inj i j hi hj heq
  live i hi := by
    by_cases hit : i = t
    · rw [hit, Function.update_self]
      refine ⟨r, List.mem_cons_self, hcarried, fun hmem => ?_, fun _ copy hmem => ?_⟩
      · exact Nat.lt_irrefl _ (h.fresh _ (by simpa using hmem) count rfl)
      · exact Nat.lt_irrefl _ (h.fresh _ (by simpa using hmem) count rfl)
    · rw [hother i hit] at hi ⊢
      rw [Function.update_of_ne hit]
      obtain ⟨r', hr', hc, hcancelled, honce⟩ := h.live i hi
      exact ⟨r', List.mem_cons_of_mem _ hr', hc, by simpa using hcancelled,
        fun hp copy => by simpa using honce hp copy⟩
  persist s' hs' d i r' hd hr' := by
    rcases hslot s' hs' d i hd with ⟨rfl, hp⟩ | ⟨hit, hi, s, hs, hd', hp⟩
    · rw [Function.update_self] at hr'
      rcases List.mem_cons.mp hr' with heq | hr'
      · cases heq
        exact hp
      · exact absurd (h.fresh _ hr' count rfl) (Nat.lt_irrefl _)
    · rw [Function.update_of_ne hit] at hr'
      rcases List.mem_cons.mp hr' with heq | hr'
      · cases heq
        exact absurd (h.serves_lt hi) (Nat.lt_irrefl _)
      · exact hp.trans (h.persist s hs d i r' hd' hr')
  ready id hid := by
    obtain ⟨i, hi, rfl⟩ := h.ready id hid
    have hit : i ≠ t := by
      rintro rfl
      rw [ht] at hi
      cases hi
    exact ⟨i, by rw [hother i hit]; exact hi, Function.update_of_ne hit ..⟩
  delivered := by
    refine h.delivered.cons (fun _ _ he => by cases he) (fun id r he e he' hid => ?_)
      (fun he => by cases he)
    cases he
    exact Nat.lt_irrefl _ (h.fresh e he' _ hid)

theorem cancel (h : Serving m serves count log) {t : Nat} (ht : (m.thread t).type ≠ .unused)
    (hk : Kept m m') (hgone : (m'.thread t).type = .unused)
    (hready : ∀ i, (m.thread i).type = .ready → (m'.thread i).type = .ready) :
    Serving m' serves count (.cancelled (serves t) :: log) := by
  have h' := h.kept hk (fun i _ => hready i)
  refine ⟨fun e he id hid => ?_, fun id r₁ r₂ h₁ h₂ => ?_, h'.inj, fun i hi => ?_,
    fun s hs d i r hd hr => ?_, h'.ready, ?_⟩
  · rcases List.mem_cons.mp he with rfl | he
    · cases hid
      exact h.serves_lt ht
    · exact h.fresh e he id hid
  · exact h.single id r₁ r₂ (by simpa using h₁) (by simpa using h₂)
  · obtain ⟨r, hr, hc, hcancelled, honce⟩ := h'.live i hi
    refine ⟨r, List.mem_cons_of_mem _ hr, hc, fun hmem => ?_, fun hp copy => ?_⟩
    · rcases List.mem_cons.mp hmem with heq | hmem
      · cases h.inj i t (hk.thread i hi).1 ht (Entry.cancelled.inj heq)
        exact hi hgone
      · exact hcancelled hmem
    · simpa using honce hp copy
  · exact h'.persist s hs d i r hd (by simpa using hr)
  · exact h.delivered.cons (fun _ _ he => by cases he) (fun _ _ he => by cases he)
      (fun he => by cases he)

theorem wait (h : Serving m serves count log) (hnone : ∀ t, (m.thread t).type ≠ .ready) :
    Serving m serves count (.waited :: log) := by
  refine ⟨fun e he id hid => ?_, fun id r₁ r₂ h₁ h₂ => ?_, h.inj, fun i hi => ?_,
    fun s hs d i r hd hr => ?_, h.ready, ?_⟩
  · rcases List.mem_cons.mp he with rfl | he
    · cases hid
    · exact h.fresh e he id hid
  · exact h.single id r₁ r₂ (by simpa using h₁) (by simpa using h₂)
  · simpa using h.live i hi
  · exact h.persist s hs d i r hd (by simpa using hr)
  · refine h.delivered.cons (fun _ _ he => by cases he) (fun _ _ he => by cases he) (fun _ id => ?_)
    rw [Bool.eq_false_iff]
    intro hid
    obtain ⟨t, ht, -⟩ := h.ready id hid
    exact hnone t ht

theorem readied (h : Serving m serves count log) {ts : List Nat}
    (hts : ∀ t ∈ ts, (m.thread t).type = .ready) :
    Serving m serves count (ts.map (fun t => .readied (serves t)) ++ log) := by
  induction ts with
  | nil => exact h
  | cons t ts ih =>
    have ht := hts t List.mem_cons_self
    have h' := ih (fun t ht => hts t (List.mem_cons_of_mem _ ht))
    rw [List.map_cons, List.cons_append]
    refine ⟨fun e he id hid => ?_, fun id r₁ r₂ h₁ h₂ => ?_, h'.inj, fun i hi => ?_,
      fun s hs d i r hd hr => ?_, fun id hid => ?_, ?_⟩
    · rcases List.mem_cons.mp he with rfl | he
      · cases hid
        exact h'.serves_lt (by rw [ht]; simp)
      · exact h'.fresh e he id hid
    · exact h'.single id r₁ r₂ (by simpa using h₁) (by simpa using h₂)
    · simpa using h'.live i hi
    · exact h'.persist s hs d i r hd (by simpa using hr)
    · rw [pending, Bool.or_eq_true, decide_eq_true_eq] at hid
      rcases hid with rfl | hid
      · exact ⟨t, ht, rfl⟩
      · exact h'.ready id hid
    · exact h'.delivered.cons (fun _ _ he => by cases he) (fun _ _ he => by cases he)
        (fun he => by cases he)

/-- A thread is returned, and its record is unused afterwards unless it is persistent. -/
theorem returned (h : Serving m serves count log) {t : Nat} (ht : (m.thread t).type ≠ .unused)
    (hk : Kept m m')
    (hgone : ∀ r, .registered (serves t) r ∈ log → r.presist = false →
      (m'.thread t).type = .unused)
    (hready : ∀ i, i ≠ t → (m.thread i).type = .ready → (m'.thread i).type = .ready) :
    Serving m' serves count (.returned (serves t) (m.thread t) :: log) where
  fresh e he id hid := by
    rcases List.mem_cons.mp he with rfl | he
    · cases hid
      exact h.serves_lt ht
    · exact h.fresh e he id hid
  single id r₁ r₂ h₁ h₂ := h.single id r₁ r₂ (by simpa using h₁) (by simpa using h₂)
  inj i j hi hj := h.inj i j (hk.thread i hi).1 (hk.thread j hj).1
  live i hi := by
    obtain ⟨hwas, hfunc, harg, hu⟩ := hk.thread i hi
    obtain ⟨r, hr, ⟨hf, ha, hru⟩, hcancelled, honce⟩ := h.live i hwas
    refine ⟨r, List.mem_cons_of_mem _ hr,
      ⟨hfunc.trans hf, harg.trans ha, fun u he => hu.trans (hru u he)⟩, by simpa using hcancelled,
      fun hp copy hmem => ?_⟩
    rcases List.mem_cons.mp hmem with heq | hmem
    · obtain ⟨hserves, -⟩ := Entry.returned.inj heq
      cases h.inj i t hwas ht hserves
      exact hi (hgone r hr hp)
    · exact honce hp copy hmem
  persist s' hs' d i r hd hr := by
    obtain ⟨s, hs, hd', hp⟩ := hk.slot s' hs' d i hd
    exact hp.trans (h.persist s hs d i r hd' (by simpa using hr))
  ready id hid := by
    rw [pending, Bool.and_eq_true, decide_eq_true_eq] at hid
    obtain ⟨i, hi, rfl⟩ := h.ready id hid.2
    exact ⟨i, hready i (fun he => hid.1 (by rw [he])) hi, rfl⟩
  delivered := by
    obtain ⟨r, hr, hc, hcancelled, honce⟩ := h.live t ht
    exact h.delivered.returned hr hc (fun r' hr' => h.single _ r' r hr' hr) hcancelled honce

end Serving

theorem mem_of_search {sockets : List ClSocket} {sock : Int} {s : ClSocket} {d : Side} {t : Nat}
    (hs : s ∈ Keyed.lookupOrAppend ClSocket.fd sock (clThreadSocketCalloc sock) sockets)
    (hd : s.slot d = some t) : s ∈ sockets := by
  rw [Keyed.lookupOrAppend] at hs
  split at hs
  · exact hs
  · rcases List.mem_append.mp hs with hs | hs
    · exact hs
    · rw [List.mem_singleton] at hs
      subst hs
      cases d <;> cases hd

namespace Serving

variable {s t : History}

theorem add (h : Inv s.master) (hs : Serving s.master s.serves s.count s.log) {d : Side}
    {func arg : Nat} {sock : Int} {presist : Bool}
    (hstep : (s.master.clThreadAdd d func arg sock presist).map
      (s.add { func := func, arg := arg, u := some (.fd sock), presist := presist }) = some t) :
    Serving t.master t.serves t.count t.log := by
  obtain ⟨m₁, x, rfl, h₁, hx, rfl, ⟨-, hadd⟩ | ⟨hslot, i, made', htype, -, hadd⟩⟩ :=
    h.clThreadAdd_cases d func arg sock presist
  · rw [hadd, Option.map_some, Option.some.injEq] at hstep
    subst hstep
    refine hs.kept ⟨fun i hi => ⟨hi, rfl, rfl, rfl⟩, fun y hy e i he => ?_⟩ (fun _ _ hr => hr)
    exact ⟨y, mem_of_search hy he, he, rfl⟩
  · rw [hadd, Option.map_some, Option.some.injEq] at hstep
    subst hstep
    simp only [History.add, History.register]
    refine hs.register htype (fun j hj => Function.update_of_ne hj ..) ?_ (fun y hy e j he => ?_)
    · dsimp only
      rw [Function.update_self]
      exact ⟨rfl, rfl, fun u hu => Option.some.inj hu⟩
    · rcases (h₁.sockets.mem_update hx).mp hy with rfl | ⟨hy, -⟩
      · have hp : has (typeAdded x.type d presist) e.persist =
            if e = d then presist else has x.type e.persist := (has_typeAdded ..).2
        by_cases hed : e = d
        · subst hed
          refine Or.inl ⟨?_, by rw [if_pos rfl] at hp; exact hp⟩
          cases e <;> exact (Option.some.inj he).symm
        · have hold : x.slot e = some j := by
            cases d <;> cases e <;> first | exact he | exact absurd rfl hed
          have hj := h₁.sockets.ne_of_slot hx hold (p := .unused) rfl
          refine Or.inr ⟨fun hji => hj (hji ▸ htype), hj, x, mem_of_search hx hold, hold, ?_⟩
          rw [if_neg hed] at hp
          exact hp
      · have hj := h₁.sockets.ne_of_slot hy he (p := .unused) rfl
        exact Or.inr ⟨fun hji => hj (hji ▸ htype), hj, y, mem_of_search hy he, he, rfl⟩

theorem register_other (h : Inv s.master) (hs : Serving s.master s.serves s.count s.log) {t : Nat}
    (ht : (s.master.thread t).type = .unused) {x : ClThread} {m : Master} {r : Registration}
    (hsockets : m.sockets = s.master.sockets)
    (hthread : m.thread = Function.update s.master.thread t x) (hcarried : r.Carried x) :
    Serving (s.register m t r).master (s.register m t r).serves (s.register m t r).count
      (s.register m t r).log := by
  refine hs.register ht (fun j hj => ?_) ?_ (fun y hy e j he => ?_)
  · exact (congrFun hthread j).trans (Function.update_of_ne hj ..)
  · have hself : (s.register m t r).master.thread t = x :=
      (congrFun hthread t).trans (Function.update_self ..)
    rw [hself]
    exact hcarried
  · have hy' : y ∈ s.master.sockets := hsockets ▸ hy
    have hj := h.sockets.ne_of_slot hy' he (p := .unused) rfl
    exact Or.inr ⟨fun hji => hj (hji ▸ ht), hj, y, hy', he, rfl⟩

theorem kept_gone {m : Master} {t : Nat} {x : ClThread} (hx : x.type = .unused) {m' : Master}
    (hsockets : m'.sockets = m.sockets) (hthread : m'.thread = Function.update m.thread t x) :
    Kept m m' where
  thread i hi := by
    rw [hthread] at hi ⊢
    exact kept_update (fun hne => absurd hx hne) i hi
  slot y hy d i hd := ⟨y, hsockets ▸ hy, hd, rfl⟩

theorem cancel_step (h : Inv s.master) (hs : Serving s.master s.serves s.count s.log) {i : Nat}
    {m : Master} (hcancel : s.master.clThreadCancel i = some m) :
    Serving m s.serves s.count (.cancelled (s.serves i) :: s.log) := by
  have hgone : Kept s.master m ∧ (s.master.thread i).type ≠ .unused ∧
      (s.master.thread i).type ≠ .ready ∧
      ∃ x, m.thread = Function.update s.master.thread i x ∧ x.type = .unused := by
    rw [Master.clThreadCancel] at hcancel
    cases ht : (s.master.thread i).type with
    | read =>
      simp only [ht] at hcancel
      obtain ⟨hk, hx⟩ := h.kept_cancelSide (d := .read) ht hcancel
      exact ⟨hk, by simp, by simp, hx⟩
    | write =>
      simp only [ht] at hcancel
      obtain ⟨hk, hx⟩ := h.kept_cancelSide (d := .write) ht hcancel
      exact ⟨hk, by simp, by simp, hx⟩
    | timer =>
      simp only [ht] at hcancel
      obtain ⟨n, hn⟩ := h.heap.timer i ht
      simp only [Master.clThreadCancelTimer, (h.heap.armed n i hn).2, Option.map_some,
        Master.clThreadAddUnuse, Master.setThread, Master.unlink, Function.update_idem,
        Option.some.injEq] at hcancel
      subst hcancel
      exact ⟨kept_gone rfl rfl rfl, by simp, by simp, _, rfl, rfl⟩
    | event =>
      simp only [ht, Option.some.injEq] at hcancel
      subst hcancel
      exact ⟨kept_gone rfl rfl rfl, by simp, by simp, _, rfl, rfl⟩
    | ready => simp [ht] at hcancel
    | unused => simp [ht] at hcancel
  obtain ⟨hk, hunused, hready, x, hthread, hx⟩ := hgone
  refine hs.cancel hunused hk ?_ (fun j hj => ?_)
  · rw [hthread, Function.update_self, hx]
  · have hji : j ≠ i := by
      rintro rfl
      exact hready hj
    rw [hthread, Function.update_of_ne hji]
    exact hj

theorem return_ready {m : Master} {serves : Nat → Nat} {count : Nat} {log : List Entry}
    (h : Inv m) (hs : Serving m serves count log) {i : Nat} (hi : (m.thread i).type = .ready) :
    ∃ m', (m.unlink i).clThreadRun i = some (m', m.thread i) ∧
      Serving m' serves count (.returned (serves i) (m.thread i) :: log) := by
  obtain ⟨x, hx, d, hd, hrun⟩ := h.clThreadRun_ready_cases hi
  obtain ⟨hk, y, hthread, hy⟩ := h.kept_socketSetSide hx hd
  refine ⟨_, hrun, hs.returned (by rw [hi]; simp) hk (fun r hr hp => ?_) (fun j hj hready => ?_)⟩
  · rw [hthread, Function.update_self]
    exact hy ((hs.persist x hx d i r hd hr).trans hp)
  · rw [hthread, Function.update_of_ne hj]
    exact hready

theorem return_other (hs : Serving s.master s.serves s.count s.log) {i : Nat}
    (hunused : (s.master.thread i).type ≠ .unused) {x : ClThread} (hx : x.type = .unused)
    {m : Master} (hsockets : m.sockets = s.master.sockets)
    (hthread : m.thread = Function.update s.master.thread i x) :
    Serving m s.serves s.count (.returned (s.serves i) (s.master.thread i) :: s.log) := by
  refine hs.returned hunused (kept_gone hx hsockets hthread) (fun _ _ _ => ?_) (fun j hj hready => ?_)
  · rw [hthread, Function.update_self, hx]
  · rw [hthread, Function.update_of_ne hj]
    exact hready

theorem fetch (h : Inv s.master) (hs : Serving s.master s.serves s.count s.log) {a : Answers}
    (hbatch : s.master.batchOk a.batch = true) (hstep : s.fetch a = some t) :
    Serving t.master t.serves t.count t.log := by
  obtain ⟨i, hchoose, hi⟩ | ⟨i, n, heap, hchoose, hn, -⟩ | ⟨i, heap, hchoose, h₁, hi⟩ |
    ⟨heap, wait, m₂, h₁, hlist, hdo, h₂, hchoose⟩ := h.choose_cases hbatch
  · have hne : ((s.master.unlink i).thread i).type ≠ .ready := by rw [Master.unlink, hi]; simp
    rw [History.fetch, hchoose,
      Master.clThreadFetch_of_run hchoose (Master.clThreadRun_of_ne hne)] at hstep
    cases hstep
    exact hs.return_other (by rw [hi]; simp) rfl rfl rfl
  · have hi := (h.heap.armed n i hn).1
    have hne : (({ s.master with heap := heap }.unlink i).thread i).type ≠ .ready := by
      rw [Master.unlink, hi]
      simp
    rw [History.fetch, hchoose,
      Master.clThreadFetch_of_run hchoose (Master.clThreadRun_of_ne hne)] at hstep
    cases hstep
    exact hs.return_other (by rw [hi]; simp) rfl rfl rfl
  · have hs₁ : Serving { s.master with heap := heap } s.serves s.count s.log :=
      hs.kept ⟨fun _ h => ⟨h, rfl, rfl, rfl⟩, fun x hx _ _ hd => ⟨x, hx, hd, rfl⟩⟩
        (fun _ _ hr => hr)
    obtain ⟨m', hrun, hs'⟩ := return_ready h₁ hs₁ hi
    rw [History.fetch, hchoose, Master.clThreadFetch_of_run hchoose hrun] at hstep
    cases hstep
    exact hs'
  · have hw : Inv { s.master with heap := heap, calls := .epollWait wait :: s.master.calls } :=
      ⟨h₁.links, h₁.sockets, h₁.heap⟩
    have hcalm : ∀ i, (s.master.thread i).type ≠ .ready := by
      intro i hi
      have hmem := (h.links.wf.mem_iff .ready i).mpr
        (hi ▸ h.links.placed i (h.lt_of_type (by rw [hi]; simp)))
      rw [hlist] at hmem
      exact List.not_mem_nil hmem
    have hsw : Serving { s.master with heap := heap, calls := .epollWait wait :: s.master.calls }
        s.serves s.count (.waited :: s.log) :=
      (hs.wait hcalm).kept ⟨fun _ h => ⟨h, rfl, rfl, rfl⟩, fun x hx _ _ hd => ⟨x, hx, hd, rfl⟩⟩
        (fun _ _ hr => hr)
    have hs₂ := hsw.kept
      (hw.kept_doEvents (fun e he => Inv.mem_of_batchOk hbatch he) hdo)
      (fun i _ hi => absurd hi (hcalm i))
    have hready : ∀ i ∈ m₂.links.list .ready, (m₂.thread i).type = .ready := fun i hi =>
      (h₂.links.lt_made ((h₂.links.wf.mem_iff _ i).mp hi)).2
    have hs₃ : Serving m₂ s.serves s.count (s.wait m₂) := hs₂.readied hready
    cases hhead : m₂.links.list .ready with
    | nil =>
      rw [hhead] at hchoose
      rw [History.fetch, hchoose, Master.clThreadFetch_of_wait hchoose] at hstep
      cases hstep
      exact hs₃
    | cons i is =>
      rw [hhead] at hchoose
      obtain ⟨m', hrun, hs'⟩ := return_ready h₂ hs₃ (h₂.type_of_list hhead)
      rw [History.fetch, hchoose, Master.clThreadFetch_of_run hchoose hrun] at hstep
      cases hstep
      exact hs'

theorem step (h : Inv s.master) (hs : Serving s.master s.serves s.count s.log) {a : Act}
    (hstep : s.step a = some t) : Serving t.master t.serves t.count t.log := by
  cases a with
  | addRead func arg sock presist => exact add h hs hstep
  | addWrite func arg sock presist => exact add h hs hstep
  | addTimer now func arg timer =>
    obtain ⟨i, made', hget, -, htype⟩ := h.get .timer func arg
    simp only [History.step, Master.clThreadAddTimer, hget, Master.setThread,
      Function.update_self, Function.update_idem, Option.some.injEq] at hstep
    subst hstep
    exact register_other h hs htype rfl rfl ⟨rfl, rfl, fun u hu => by cases hu⟩
  | addEvent func arg val =>
    obtain ⟨i, made', hget, -, htype⟩ := h.get .event func arg
    simp only [History.step, Master.clThreadAddEvent, hget, Master.setThread,
      Function.update_self, Function.update_idem, Option.some.injEq] at hstep
    subst hstep
    exact register_other h hs htype rfl rfl ⟨rfl, rfl, fun u hu => Option.some.inj hu⟩
  | cancel i =>
    simp only [History.step, Option.ite_none_right_eq_some] at hstep
    obtain ⟨m, hcancel, rfl⟩ := Option.map_eq_some_iff.mp hstep.2
    exact cancel_step h hs hcancel
  | fetch a =>
    simp only [History.step, Option.ite_none_right_eq_some] at hstep
    exact fetch h hs hstep.1 hstep.2

end Serving

/-- In every run every registration is returned as often as it may be and with its own data, none
is returned after it was cancelled, and the ready threads are returned before the next
`epoll_wait`. -/
theorem cl_thread_delivery (as : List Act) (m : Master)
    (h : Run.run step clThreadInit as = some m) :
    ∃ s, Run.run History.step History.init as = some s ∧ s.master = m ∧ Delivered s.log := by
  have hmap := Run.run_map History.step_master History.init as
  obtain ⟨s, hs, hm⟩ := Option.map_eq_some_iff.mp (hmap.trans h)
  have hinv : Inv s.master ∧ Serving s.master s.serves s.count s.log :=
    Run.run_invariant (p := fun s => Inv s.master ∧ Serving s.master s.serves s.count s.log)
      (fun s a t ⟨hi, hs⟩ hstep => by
        have hmaster := s.step_master a
        rw [hstep, Option.map_some] at hmaster
        exact ⟨hi.step hmaster.symm, hs.step hi hstep⟩)
      ⟨inv_init, serving_init _ _⟩ hs
  exact ⟨s, hs, hm, hinv.2.delivered⟩

/-- A timer is cancelled and its record serves an event, which is returned; a one-shot reader and
a persistent writer are returned in turn, the writer twice. -/
def recycledCalls : List Act :=
  [.addTimer 1000 1 10 5, .cancel 0, .addEvent 2 20 7, .fetch ⟨2000, 2000, []⟩,
    .addRead 3 30 9 false, .addWrite 4 40 9 true, .fetch ⟨2000, 2000, [(9, 5)]⟩,
    .fetch ⟨2000, 2000, []⟩, .fetch ⟨2000, 2000, [(9, 4)]⟩]

theorem cl_thread_delivery_recycled :
    ∃ m s, Run.run step clThreadInit recycledCalls = some m ∧
      Run.run History.step History.init recycledCalls = some s ∧ s.master = m ∧
      s.log.filterMap (fun e => match e with
        | .returned id copy => some (id, copy.func)
        | _ => none) = [(3, 4), (2, 3), (3, 4), (1, 2)] ∧ Delivered s.log := by
  have hlog : (Run.run History.step History.init recycledCalls).map (fun s =>
      s.log.filterMap (fun e => match e with
        | .returned id copy => some (id, copy.func)
        | _ => none)) = some [(3, 4), (2, 3), (3, 4), (1, 2)] := by
    decide +kernel
  have hsome : (Run.run step clThreadInit recycledCalls).isSome := by decide +kernel
  obtain ⟨m, hm⟩ := Option.isSome_iff_exists.mp hsome
  obtain ⟨s, hs, hmaster, hdelivered⟩ := cl_thread_delivery recycledCalls m hm
  rw [hs, Option.map_some, Option.some.injEq] at hlog
  exact ⟨m, s, hm, hs, hmaster, hlog, hdelivered⟩

end AlgorithmLib.Epoll
