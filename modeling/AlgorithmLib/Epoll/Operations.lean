import AlgorithmLib.Epoll.Invariant

set_option autoImplicit false

namespace AlgorithmLib.Epoll

theorem Master.clThreadRun_of_ne {m : Master} {t : Nat} (ht : (m.thread t).type ≠ .ready) :
    m.clThreadRun t = some (m.clThreadAddUnuse t, m.thread t) := by
  rw [Master.clThreadRun, if_neg ht]

namespace Master

/-- What `cl_thread_fetch` does in one iteration before it runs a thread, whether it called
`epoll_wait`, and the thread it runs. -/
def choose (m : Master) (a : Answers) : Option (Master × Bool × Option Nat) :=
  match m.links.list .event with
  | t :: _ => some (m, false, some t)
  | [] =>
    let (heap, args) := m.heap.clTimeHeapTick a.tickNow
    let m := { m with heap := heap }
    match args with
    | some t => some (m, false, some t)
    | none =>
      match m.links.list .ready with
      | t :: _ => some (m, false, some t)
      | [] =>
        let m := m.call (.epollWait (m.clThreadTimerWait a.waitNow))
        (m.doEvents a.batch).map fun m => (m, true, (m.links.list .ready).head?)

/-- An iteration of `cl_thread_fetch` chooses a thread and runs it. -/
theorem clThreadFetch_eq (m : Master) (a : Answers) :
    m.clThreadFetch a = (m.choose a).bind fun c =>
      match c.2.2 with
      | none => some (c.1, none)
      | some t => ((c.1.unlink t).clThreadRun t).map (Prod.map id some) := by
  rw [clThreadFetch, choose, clThreadTrimHead]
  cases m.links.list .event with
  | cons t ts => rfl
  | nil =>
    rcases m.heap.clTimeHeapTick a.tickNow with ⟨heap, args⟩
    cases args with
    | some t => rfl
    | none =>
      simp only [clThreadTrimHead]
      cases m.links.list .ready with
      | cons t ts => rfl
      | nil =>
        dsimp only
        generalize doEvents _ _ = done
        cases done with
        | none => rfl
        | some m₂ =>
          simp only [Option.map_some, Option.bind_some]
          cases m₂.links.list .ready <;> rfl

theorem clThreadFetch_of_run {m m₁ m' : Master} {a : Answers} {waited : Bool} {t : Nat}
    {copy : ClThread} (hchoose : m.choose a = some (m₁, waited, some t))
    (hrun : (m₁.unlink t).clThreadRun t = some (m', copy)) :
    m.clThreadFetch a = some (m', some copy) := by
  rw [clThreadFetch_eq, hchoose]
  simp [hrun]

theorem clThreadFetch_of_wait {m m₁ : Master} {a : Answers} {waited : Bool}
    (hchoose : m.choose a = some (m₁, waited, none)) : m.clThreadFetch a = some (m₁, none) := by
  rw [clThreadFetch_eq, hchoose]
  rfl

end Master

namespace Inv

variable {m : Master}

theorem type_of_list (h : Inv m) {p : ThreadType} {t : Nat} {ts : List Nat}
    (hlist : m.links.list p = t :: ts) : (m.thread t).type = p := by
  have hhead : m.links.head t = some p :=
    (h.links.wf.mem_iff _ t).mp (by rw [hlist]; exact List.mem_cons_self)
  exact (h.links.lt_made hhead).2

theorem trimHead (h : Inv m) (p : ThreadType) :
    m.clThreadTrimHead p = none ∨ ∃ t, m.clThreadTrimHead p = some (t, m.unlink t) ∧
      t < m.made ∧ (m.thread t).type = p := by
  rw [Master.clThreadTrimHead]
  cases hlist : m.links.list p with
  | nil => exact Or.inl rfl
  | cons t ts =>
    have hhead : m.links.head t = some p :=
      (h.links.wf.mem_iff _ t).mp (by rw [hlist]; exact List.mem_cons_self)
    exact Or.inr ⟨t, rfl, h.links.lt_made hhead⟩

theorem get (h : Inv m) (type : ThreadType) (func arg : Nat) :
    ∃ t made', m.clThreadGet type func arg =
        (t, { m with
          links := m.links.unlink t
          thread := Function.update m.thread t
            { m.thread t with type := type, func := func, arg := arg }
          made := made' }) ∧
      (t < m.made ∧ made' = m.made ∨ t = m.made ∧ made' = m.made + 1) ∧
      (m.thread t).type = .unused := by
  rw [Master.clThreadGet]
  rcases h.trimHead .unused with htrim | ⟨t, htrim, hlt, htype⟩
  · have hnew := h.links.fresh m.made (Nat.le_refl _)
    refine ⟨m.made, m.made + 1, ?_, Or.inr ⟨rfl, rfl⟩, hnew.2⟩
    rw [htrim, Links.unlink_of_none hnew.1]
    rfl
  · rw [htrim]
    exact ⟨t, m.made, rfl, Or.inl ⟨hlt, rfl⟩, htype⟩

/-- A call of `cl_thread_add_read` or `cl_thread_add_write` finds the side taken, or registers a
thread in hand. -/
theorem clThreadAdd_cases (h : Inv m) (d : Side) (func arg : Nat) (sock : Int) (presist : Bool) :
    ∃ m₁ s, m₁ = { m with
        sockets := Keyed.lookupOrAppend ClSocket.fd sock (clThreadSocketCalloc sock) m.sockets } ∧
      Inv m₁ ∧ s ∈ m₁.sockets ∧ s.fd = sock ∧
      ((s.slot d).isSome = true ∧ m.clThreadAdd d func arg sock presist = some (m₁, none) ∨
        s.slot d = none ∧ ∃ t made', (m.thread t).type = .unused ∧
          (t < m.made ∧ made' = m.made ∨ t = m.made ∧ made' = m.made + 1) ∧
          m.clThreadAdd d func arg sock presist = some
            ({ sockets := Keyed.update ClSocket.fd sock
                (fun _ => { s.setSlot d (some t) with
                  type := typeAdded s.type d presist, op := .added }) m₁.sockets
               links := (m.links.unlink t).addTail t d.type
               thread := Function.update m.thread t
                { type := d.type, func := func, arg := arg, u := .fd sock }
               made := made'
               heap := m.heap
               calls := .epollCtl (if s.op = .add then .add else .mod) sock
                (some (if (s.slot d.other).isSome then d.epoll ||| d.other.epoll else d.epoll)) ::
                  m.calls }, some t)) := by
  obtain ⟨hsock, s, hlook, hs, hfd⟩ := h.sockets.search sock
  rw [Master.clThreadAdd]
  generalize hm₁ : Master.mk _ m.links m.thread m.made m.heap m.calls = m₁
  have h₁ : Inv m₁ := by
    subst hm₁
    exact ⟨h.links, hsock, h.heap⟩
  have hs₁ : s ∈ m₁.sockets := by
    subst hm₁
    exact hs
  have hlook₁ : m₁.clThreadSocketLookup sock = some s := by
    subst hm₁
    exact hlook
  refine ⟨m₁, s, rfl, h₁, hs₁, hfd, ?_⟩
  simp only [hlook₁]
  by_cases hflag : has s.type d.flag = true
  · rw [if_pos hflag]
    exact Or.inl ⟨(h₁.sockets.flag s hs₁ d).symm.trans hflag, rfl⟩
  · have hslot : s.slot d = none := by
      rw [h₁.sockets.flag s hs₁ d] at hflag
      simpa using hflag
    have hother : has (s.type ||| d.flag) d.other.flag = (s.slot d.other).isSome := by
      rw [has_or, ← h₁.sockets.flag s hs₁ d.other]
      cases d <;> simp [Side.flag, Side.other, has_cross]
    obtain ⟨t, made', hget, hmade, htype⟩ := h₁.get d.type func arg
    refine Or.inr ⟨hslot, t, made', ?_⟩
    rw [if_neg hflag]
    simp only [hget, hslot, Option.isSome_none, Bool.false_eq_true, if_false, Master.arm,
      Master.setThread, Master.setSocket, Master.call, Function.update_self, Function.update_idem,
      fd_setSlot, hother, hfd]
    subst hm₁
    refine ⟨htype, hmade, ?_⟩
    cases d <;> rfl

theorem clThreadAdd (h : Inv m) (d : Side) (func arg : Nat) (sock : Int) (presist : Bool) :
    ∃ m' r, m.clThreadAdd d func arg sock presist = some (m', r) ∧ Inv m' := by
  obtain ⟨m₁, s, rfl, h₁, hs, rfl, ⟨-, hadd⟩ | ⟨hslot, t, made', htype, hmade, hadd⟩⟩ :=
    h.clThreadAdd_cases d func arg sock presist
  · exact ⟨_, _, hadd, h₁⟩
  · refine ⟨_, _, hadd, h₁.links.putTail hmade rfl, ?_, h₁.heap.other ?_ ?_⟩
    · exact h₁.sockets.added hs hslot (by rw [htype]; rfl) rfl rfl (fd_setSlot ..)
        (fun e => by cases d <;> cases e <;> rfl) rfl
    · rw [htype]
      simp
    · cases d <;> simp [Side.type]

theorem clThreadAddTimer (h : Inv m) (now : BitVec 64) (func arg : Nat) (timer : BitVec 32) :
    Inv (m.clThreadAddTimer now func arg timer).1 := by
  obtain ⟨t, made', hget, hmade, htype⟩ := h.get .timer func arg
  simp only [Master.clThreadAddTimer, hget, Master.setThread, Function.update_self,
    Function.update_idem]
  refine ⟨h.links.putTail hmade rfl, h.sockets.other (by rw [htype]; rfl) rfl,
    h.heap.added (by rw [htype]; simp) now timer rfl rfl⟩

theorem clThreadAddEvent (h : Inv m) (func arg : Nat) (val : BitVec 32) :
    Inv (m.clThreadAddEvent func arg val).1 := by
  obtain ⟨t, made', hget, hmade, htype⟩ := h.get .event func arg
  simp only [Master.clThreadAddEvent, hget, Master.setThread, Function.update_self,
    Function.update_idem]
  exact ⟨h.links.putTail hmade rfl, h.sockets.other (by rw [htype]; rfl) rfl,
    h.heap.other (by rw [htype]; simp) (by simp)⟩

theorem slot_of_type (h : Inv m) {t : Nat} {d : Side} (ht : (m.thread t).type = d.type) :
    ∃ s ∈ m.sockets, s.slot d = some t ∧ (m.thread t).u = .fd s.fd ∧
      m.clThreadSocketLookup s.fd = some s := by
  obtain ⟨s, hs, hd⟩ := h.sockets.waiting d t ht
  exact ⟨s, hs, hd, (h.sockets.slot s hs d t hd).1, h.sockets.lookup hs⟩

theorem leave (h : Inv m) {s : ClSocket} {d : Side} {t : Nat} (hs : s ∈ m.sockets)
    (hd : s.slot d = some t) (hlt : t < m.made) (s' : ClSocket) (hfd : s'.fd = s.fd)
    (hslot : ∀ e, s'.slot e = if e = d then none else s.slot e)
    (hflag : ∀ e, has s'.type (Side.flag e) = (decide (e ≠ d) && has s.type e.flag))
    (hpersist : ∀ e, has s'.type (Side.persist e) = true → e ≠ d ∧ has s.type e.persist = true)
    (calls : List Call) :
    Inv ((({ m with calls := calls }.setSocket s').unlink t).clThreadAddUnuse t) := by
  refine ⟨h.links.putFront hlt rfl, ?_, h.heap.other (h.sockets.ne_of_slot hs hd rfl) (by simp)⟩
  simp only [Master.setSocket, Master.unlink, Master.clThreadAddUnuse, Master.setThread, hfd]
  exact h.sockets.removed hs hd rfl hfd hslot hflag hpersist

theorem cancelSide_cases (h : Inv m) {t : Nat} {d : Side} (ht : (m.thread t).type = d.type) :
    ∃ s ∈ m.sockets, s.slot d = some t ∧ ∃ op events ctl,
      (m.cancelSide d t).map (·.clThreadAddUnuse t) = some
        ((({ m with calls := .epollCtl ctl s.fd events :: m.calls }.setSocket
          { s.setSlot d none with type := typeCancelled s.type d, op := op }).unlink
            t).clThreadAddUnuse t) ∧
      ((s.slot d.other).isSome = true ∧ op = .added ∧ events = some d.other.epoll ∧
          ctl = (if s.op = .add then .add else .mod) ∨
        s.slot d.other = none ∧ op = .add ∧ events = none ∧ ctl = .del) := by
  obtain ⟨s, hs, hd, hu, hlook⟩ := h.slot_of_type ht
  have hop : (s.setSlot d none).op = s.op := by cases d <;> rfl
  have hother : has (s.type &&& ~~~d.flag &&& ~~~d.persist) d.other.flag =
      (s.slot d.other).isSome := by
    rw [← typeCancelled, (has_typeCancelled ..).1, h.sockets.flag s hs d.other]
    cases d <;> rfl
  refine ⟨s, hs, hd, ?_⟩
  simp only [Master.cancelSide, hu, hlook, hd, if_true, Master.cancelSlot, hother]
  split
  case isTrue hsome =>
    refine ⟨.added, some d.other.epoll, if s.op = .add then .add else .mod, ?_,
      Or.inl ⟨hsome, rfl, rfl, rfl⟩⟩
    rw [← hop]
    cases d <;> rfl
  case isFalse hnone =>
    refine ⟨.add, none, .del, ?_, Or.inr ⟨by simpa using hnone, rfl, rfl, rfl⟩⟩
    cases d <;> rfl

theorem cancelSide (h : Inv m) {t : Nat} (hlt : t < m.made) {d : Side}
    (ht : (m.thread t).type = d.type) :
    ∃ m', (m.cancelSide d t).map (·.clThreadAddUnuse t) = some m' ∧ Inv m' := by
  obtain ⟨s, hs, hd, op, events, ctl, hcancel, -⟩ := h.cancelSide_cases ht
  exact ⟨_, hcancel, h.leave hs hd hlt { s.setSlot d none with
      type := typeCancelled s.type d, op := op }
    (fd_setSlot ..) (fun e => by cases d <;> cases e <;> rfl) (fun e => (has_typeCancelled ..).1)
    (fun e he => by simpa [(has_typeCancelled ..).2] using he) _⟩

theorem clThreadAddUnuse (h : Inv m) {t : Nat} (hlt : t < m.made)
    (hon : (m.thread t).type.onSocket = false) (ht : (m.thread t).type ≠ .timer) :
    Inv ((m.unlink t).clThreadAddUnuse t) :=
  ⟨h.links.putFront hlt rfl, h.sockets.other hon rfl, h.heap.other ht (by simp)⟩

theorem clThreadCancelTimer (h : Inv m) {t : Nat} (hlt : t < m.made)
    (ht : (m.thread t).type = .timer) :
    ∃ m', (m.clThreadCancelTimer t).map (·.clThreadAddUnuse t) = some m' ∧ Inv m' := by
  obtain ⟨n, hn⟩ := h.heap.timer t ht
  obtain ⟨hok, harmed⟩ := h.heap.ok.delTimer n
  simp only [Master.clThreadCancelTimer, (h.heap.armed n t hn).2, Option.map_some,
    Master.clThreadAddUnuse, Master.setThread, Master.unlink, Function.update_idem]
  exact ⟨_, rfl, h.links.putFront hlt rfl, h.sockets.other (by rw [ht]; rfl) rfl,
    h.heap.removed hn hok harmed (by simp)⟩

theorem clThreadCancel (h : Inv m) {t : Nat} (hlt : t < m.made)
    (hunused : (m.thread t).type ≠ .unused) (hready : (m.thread t).type ≠ .ready) :
    ∃ m', m.clThreadCancel t = some m' ∧ Inv m' := by
  rw [Master.clThreadCancel]
  cases ht : (m.thread t).type with
  | unused => exact absurd ht hunused
  | read => exact h.cancelSide hlt ht
  | write => exact h.cancelSide hlt ht
  | timer => exact h.clThreadCancelTimer hlt ht
  | event => exact ⟨_, rfl, h.clThreadAddUnuse hlt (by rw [ht]; rfl) (by rw [ht]; simp)⟩
  | ready => exact absurd ht hready

theorem lt_of_type (h : Inv m) {t : Nat} (ht : (m.thread t).type ≠ .unused) : t < m.made := by
  by_contra hge
  exact ht (h.links.fresh t (Nat.le_of_not_lt hge)).2

theorem lt_of_slot (h : Inv m) {s : ClSocket} {d : Side} {t : Nat} (hs : s ∈ m.sockets)
    (hd : s.slot d = some t) : t < m.made :=
  h.lt_of_type (h.sockets.ne_of_slot hs hd rfl)

theorem setOp (h : Inv m) {s : ClSocket} (hs : s ∈ m.sockets) (op : SocketOp) :
    Inv (m.setSocket { s with op := op }) :=
  ⟨h.links, h.sockets.setOp hs op, h.heap⟩

theorem doEventSide (h : Inv m) {s : ClSocket} (hs : s ∈ m.sockets) (d : Side)
    (what ctl : BitVec 32) :
    ∃ m' ctl', m.doEventSide d s what ctl = some (m', ctl') ∧ Inv m' ∧
      m'.sockets = m.sockets := by
  rw [Master.doEventSide]
  split
  case isFalse => exact ⟨m, ctl, rfl, h, rfl⟩
  case isTrue hwhat =>
    have hflag : (s.slot d).isSome := by
      rw [← h.sockets.flag s hs d]
      exact (Bool.and_eq_true_iff.mp hwhat).2
    obtain ⟨t, hd⟩ := Option.isSome_iff_exists.mp hflag
    simp only [hd]
    split
    case isFalse => exact ⟨m, _, rfl, h, rfl⟩
    case isTrue =>
      exact ⟨_, _, rfl, ⟨h.links.putFront (h.lt_of_slot hs hd) rfl,
        h.sockets.retype hs hd rfl (Or.inr rfl),
        h.heap.other (h.sockets.ne_of_slot hs hd rfl) (by simp)⟩, rfl⟩

theorem clThreadDoEvent (h : Inv m) {fd : Int} (hfd : fd ∈ m.sockets.map ClSocket.fd)
    (events : BitVec 32) :
    ∃ m', m.clThreadDoEvent fd events = some m' ∧ Inv m' ∧
      m'.sockets.map ClSocket.fd = m.sockets.map ClSocket.fd := by
  obtain ⟨s, hlook⟩ := Keyed.exists_lookup hfd
  have hs := Keyed.mem_of_lookup hlook
  obtain ⟨m₁, ctl₁, hread, h₁, hsock₁⟩ := h.doEventSide hs .read (Master.whatOf events) 0#32
  obtain ⟨m₂, ctl₂, hwrite, h₂, hsock₂⟩ :=
    h₁.doEventSide (hsock₁ ▸ hs) .write (Master.whatOf events) ctl₁
  have hs₂ : s ∈ m₂.sockets := by
    rw [hsock₂, hsock₁]
    exact hs
  have hkeys : ∀ op, (m₂.setSocket { s with op := op }).sockets.map ClSocket.fd =
      m.sockets.map ClSocket.fd := by
    intro op
    rw [Master.setSocket, Keyed.update_keys (fun _ _ => rfl), hsock₂, hsock₁]
  simp only [Master.clThreadDoEvent, Master.clThreadSocketLookup, hlook, hread, hwrite,
    Option.bind_eq_bind, Option.bind_some]
  split
  · exact ⟨m₂, rfl, h₂, by rw [hsock₂, hsock₁]⟩
  · split
    · have hdis := h₂.setOp hs₂ .add
      exact ⟨_, rfl, ⟨hdis.links, hdis.sockets, hdis.heap⟩, hkeys .add⟩
    · have harm := h₂.setOp hs₂ .added
      exact ⟨_, rfl, ⟨harm.links, harm.sockets, harm.heap⟩, hkeys .added⟩

theorem doEvents (h : Inv m) {batch : List (Int × BitVec 32)}
    (hbatch : ∀ e ∈ batch, e.1 ∈ m.sockets.map ClSocket.fd) :
    ∃ m', m.doEvents batch = some m' ∧ Inv m' := by
  induction batch generalizing m with
  | nil => exact ⟨m, rfl, h⟩
  | cons e batch ih =>
    obtain ⟨m₁, hdo, h₁, hkeys⟩ := h.clThreadDoEvent (hbatch e List.mem_cons_self) e.2
    obtain ⟨m₂, hrest, h₂⟩ := ih h₁ (fun e he => hkeys ▸ hbatch e (List.mem_cons_of_mem _ he))
    refine ⟨m₂, ?_, h₂⟩
    rw [Master.doEvents, hdo, Option.bind_some, hrest]

theorem socketSetSide (h : Inv m) {s : ClSocket} {d : Side} {t : Nat} (hs : s ∈ m.sockets)
    (hd : s.slot d = some t) : Inv ((m.unlink t).socketSetSide d s t) := by
  have hlt := h.lt_of_slot hs hd
  rw [Master.socketSetSide]
  split
  case isTrue =>
    exact ⟨h.links.putFront hlt rfl, h.sockets.retype hs hd rfl (Or.inl rfl),
      h.heap.other (h.sockets.ne_of_slot hs hd rfl) (by cases d <;> simp [Side.type])⟩
  case isFalse hpersist =>
    refine h.leave hs hd hlt { s.setSlot d none with type := s.type &&& ~~~d.cleared }
      (fd_setSlot ..) (fun e => by cases d <;> cases e <;> rfl) (fun e => (has_cleared ..).1)
      (fun e he => ?_) m.calls
    rw [(has_cleared ..).2] at he
    refine ⟨?_, he⟩
    rintro rfl
    exact hpersist he

theorem clThreadRun_ready_cases (h : Inv m) {t : Nat} (ht : (m.thread t).type = .ready) :
    ∃ s ∈ m.sockets, ∃ d, s.slot d = some t ∧
      (m.unlink t).clThreadRun t = some ((m.unlink t).socketSetSide d s t, m.thread t) := by
  obtain ⟨s, hs, d, hd⟩ := h.sockets.ready t ht
  have hu : ((m.unlink t).thread t).u = .fd s.fd := (h.sockets.slot s hs d t hd).1
  have hlook : (m.unlink t).clThreadSocketLookup s.fd = some s := h.sockets.lookup hs
  have hready : ((m.unlink t).thread t).type = .ready := ht
  refine ⟨s, hs, d, hd, ?_⟩
  simp only [Master.clThreadRun, hready, if_true, Master.clThreadSocketSet, hu, hlook]
  cases d with
  | read =>
    rw [if_pos hd]
    rfl
  | write =>
    have hread : s.slot .read ≠ some t := fun he => by cases h.sockets.side s hs _ _ t he hd
    rw [if_neg hread, if_pos hd]
    rfl

theorem mem_of_batchOk {batch : List (Int × BitVec 32)} (h : m.batchOk batch = true)
    {e : Int × BitVec 32} (he : e ∈ batch) : e.1 ∈ m.sockets.map ClSocket.fd := by
  simp only [Master.batchOk, Bool.and_eq_true, List.all_eq_true] at h
  by_contra hnot
  have hsome := h.2 e he
  rw [Master.clThreadSocketLookup, Keyed.lookup_eq_none_iff.mpr hnot] at hsome
  cases hsome

/-- An event thread is chosen; or a timer thread, whose node left the heap; or a ready thread; or
nothing was there, and `epoll_wait` was called. -/
theorem choose_cases (h : Inv m) {a : Answers} (hbatch : m.batchOk a.batch = true) :
    (∃ t, m.choose a = some (m, false, some t) ∧ (m.thread t).type = .event) ∨
    (∃ t n heap, m.choose a = some ({ m with heap := heap }, false, some t) ∧
      m.heap.Armed n t ∧ heap.Ok ∧ ∀ k i, heap.Armed k i ↔ k ≠ n ∧ m.heap.Armed k i) ∨
    (∃ t heap, m.choose a = some ({ m with heap := heap }, false, some t) ∧
      Inv { m with heap := heap } ∧ (m.thread t).type = .ready) ∨
    ∃ heap wait m₂, Inv { m with heap := heap } ∧ m.links.list .ready = [] ∧
      { m with heap := heap, calls := .epollWait wait :: m.calls }.doEvents a.batch = some m₂ ∧
      Inv m₂ ∧ m.choose a = some (m₂, true, (m₂.links.list .ready).head?) := by
  rw [Master.choose]
  cases hevent : m.links.list .event with
  | cons t ts => exact Or.inl ⟨t, rfl, h.type_of_list hevent⟩
  | nil =>
    have htick : m.heap.clTimeHeapTick a.tickNow =
        ((m.heap.clTimeHeapTick a.tickNow).1, (m.heap.clTimeHeapTick a.tickNow).2) := rfl
    obtain ⟨hok, ⟨hnone, harmed⟩ | ⟨n, t, hsome, hn, harmed⟩⟩ := h.heap.ok.clTimeHeapTick htick
    · have h₁ : Inv { m with heap := (m.heap.clTimeHeapTick a.tickNow).1 } :=
        ⟨h.links, h.sockets, h.heap.congr hok harmed⟩
      simp only [hnone]
      cases hready : m.links.list .ready with
      | cons t ts => exact Or.inr (Or.inr (Or.inl ⟨t, _, rfl, h₁, h.type_of_list hready⟩))
      | nil =>
        generalize hwait : Master.clThreadTimerWait _ _ = wait
        have h₂ : Inv { m with
            heap := (m.heap.clTimeHeapTick a.tickNow).1, calls := .epollWait wait :: m.calls } :=
          ⟨h₁.links, h₁.sockets, h₁.heap⟩
        obtain ⟨m₂, hdo, hinv⟩ := h₂.doEvents (fun e he => mem_of_batchOk hbatch he)
        refine Or.inr (Or.inr (Or.inr ⟨_, wait, m₂, h₁, rfl, hdo, hinv, ?_⟩))
        dsimp only
        rw [Master.call, hdo, Option.map_some]
    · simp only [hsome]
      exact Or.inr (Or.inl ⟨t, n, _, rfl, hn, hok, harmed⟩)

theorem clThreadRun_ready (h : Inv m) {t : Nat} (ht : (m.thread t).type = .ready) :
    ∃ m', (m.unlink t).clThreadRun t = some (m', m.thread t) ∧ Inv m' := by
  obtain ⟨s, hs, d, hd, hrun⟩ := h.clThreadRun_ready_cases ht
  exact ⟨_, hrun, h.socketSetSide hs hd⟩

/-- One iteration of the loop of `cl_thread_fetch`, when the batch is of known sockets. -/
theorem clThreadFetch (h : Inv m) {a : Answers} (hbatch : m.batchOk a.batch = true) :
    ∃ m' r, m.clThreadFetch a = some (m', r) ∧ Inv m' := by
  obtain ⟨t, hchoose, ht⟩ | ⟨t, n, heap, hchoose, hn, hok, harmed⟩ |
    ⟨t, heap, hchoose, h₁, ht⟩ | ⟨heap, wait, m₂, -, -, -, h₂, hchoose⟩ := h.choose_cases hbatch
  · have hne : ((m.unlink t).thread t).type ≠ .ready := by rw [Master.unlink, ht]; simp
    exact ⟨_, _, Master.clThreadFetch_of_run hchoose (Master.clThreadRun_of_ne hne),
      h.clThreadAddUnuse (h.lt_of_type (by rw [ht]; simp)) (by rw [ht]; rfl) (by rw [ht]; simp)⟩
  · have ht := (h.heap.armed n t hn).1
    have hne : (({ m with heap := heap }.unlink t).thread t).type ≠ .ready := by
      rw [Master.unlink, ht]
      simp
    exact ⟨_, _, Master.clThreadFetch_of_run hchoose (Master.clThreadRun_of_ne hne),
      h.links.putFront (h.lt_of_type (by rw [ht]; simp)) rfl,
      h.sockets.other (by rw [ht]; rfl) rfl, h.heap.removed hn hok harmed (by simp)⟩
  · obtain ⟨m', hrun, h'⟩ := h₁.clThreadRun_ready ht
    exact ⟨_, _, Master.clThreadFetch_of_run hchoose hrun, h'⟩
  · cases hlist : m₂.links.list .ready with
    | nil =>
      rw [hlist] at hchoose
      exact ⟨m₂, none, Master.clThreadFetch_of_wait hchoose, h₂⟩
    | cons t ts =>
      rw [hlist] at hchoose
      obtain ⟨m', hrun, h'⟩ := h₂.clThreadRun_ready (h₂.type_of_list hlist)
      exact ⟨_, _, Master.clThreadFetch_of_run hchoose hrun, h'⟩

theorem exists_step (h : Inv m) {a : Act} (ha : permitted m a) :
    ∃ m', Epoll.step m a = some m' ∧ Inv m' := by
  cases a with
  | addRead func arg sock presist =>
    obtain ⟨m', r, hadd, h'⟩ := h.clThreadAdd .read func arg sock presist
    exact ⟨m', by rw [Epoll.step, Master.clThreadAddRead, hadd, Option.map_some], h'⟩
  | addWrite func arg sock presist =>
    obtain ⟨m', r, hadd, h'⟩ := h.clThreadAdd .write func arg sock presist
    exact ⟨m', by rw [Epoll.step, Master.clThreadAddWrite, hadd, Option.map_some], h'⟩
  | addTimer now func arg timer => exact ⟨_, rfl, h.clThreadAddTimer now func arg timer⟩
  | addEvent func arg val => exact ⟨_, rfl, h.clThreadAddEvent func arg val⟩
  | cancel t =>
    obtain ⟨hlt, hunused, hready⟩ := ha
    rw [Epoll.step, if_pos hlt]
    exact h.clThreadCancel hlt hunused hready
  | fetch a =>
    have hbatch : m.batchOk a.batch = true := ha
    obtain ⟨m', r, hfetch, h'⟩ := h.clThreadFetch hbatch
    exact ⟨m', by rw [Epoll.step, if_pos hbatch, hfetch, Option.map_some], h'⟩

theorem permitted_of_step {a : Act} {m' : Master} (hstep : Epoll.step m a = some m') :
    permitted m a := by
  cases a with
  | cancel t =>
    simp only [Epoll.step, Option.ite_none_right_eq_some] at hstep
    refine ⟨hstep.1, fun ht => ?_, fun ht => ?_⟩
    · simp [Master.clThreadCancel, ht] at hstep
    · simp [Master.clThreadCancel, ht] at hstep
  | fetch a =>
    simp only [Epoll.step, Option.ite_none_right_eq_some] at hstep
    exact hstep.1
  | _ => trivial

theorem step (h : Inv m) {a : Act} {m' : Master} (hstep : Epoll.step m a = some m') : Inv m' := by
  obtain ⟨m₁, h₁, hinv⟩ := h.exists_step (permitted_of_step hstep)
  rw [hstep] at h₁
  cases h₁
  exact hinv

end Inv

end AlgorithmLib.Epoll
