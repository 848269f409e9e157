import AlgorithmLib.Epoll.Operations

/-!
What the kernel is asked to watch. The set of events of a socket is computed from the flags in its
type, which a one-shot thread keeps until it runs; while no socket is armed for the other side
when such a thread is ready, the kernel watches a side exactly while its thread waits.
-/

set_option autoImplicit false

namespace AlgorithmLib.Epoll

/-- What a call to `epoll_ctl` leaves installed for the descriptor. -/
def CtlOp.apply (events old : Option (BitVec 32)) : CtlOp → Option (BitVec 32)
  | .add => if old.isSome then old else events
  | .mod => if old.isSome then events else none
  | .del => none

/-- The events installed for the descriptor after these calls, when it is registered. -/
def interest (fd : Int) : List Call → Option (BitVec 32)
  | [] => none
  | .epollWait _ :: calls => interest fd calls
  | .epollCtl op fd' events :: calls =>
    if fd' = fd then op.apply events (interest fd calls) else interest fd calls

/-- A descriptor is added when it is not registered, and modified when it is. -/
def CtlFits : List Call → Prop
  | [] => True
  | .epollWait _ :: calls => CtlFits calls
  | .epollCtl .add fd _ :: calls => interest fd calls = none ∧ CtlFits calls
  | .epollCtl .mod fd _ :: calls => (interest fd calls).isSome = true ∧ CtlFits calls
  | .epollCtl .del _ _ :: calls => CtlFits calls

/-- The kernel watches for the events of the side. -/
def watches (installed : Option (BitVec 32)) (d : Side) : Bool :=
  match installed with
  | none => false
  | some events => has events d.epoll

/-- A thread is registered for the side, and it is no one-shot thread that is ready. -/
def waits (thread : Nat → ClThread) (s : ClSocket) (d : Side) : Bool :=
  match s.slot d with
  | none => false
  | some t => (thread t).type ≠ .ready || has s.type d.persist

def otherPending (m : Master) (d : Side) (fd : Int) : Bool :=
  match m.clThreadSocketLookup fd with
  | none => false
  | some s => (s.slot d.other).isSome && !waits m.thread s d.other

/-- A registration for the side is refused, or no one-shot thread of the other side is ready. -/
def addClear (m : Master) (d : Side) (fd : Int) : Bool :=
  match m.clThreadSocketLookup fd with
  | none => true
  | some s => (s.slot d).isSome || !otherPending m d fd

/-- No side of a socket is registered or cancelled while the one-shot thread of the other side is
ready. -/
def armsClear (m : Master) : Act → Bool
  | .addRead _ _ sock _ => addClear m .read sock
  | .addWrite _ _ sock _ => addClear m .write sock
  | .cancel t =>
    match (m.thread t).type, (m.thread t).u with
    | .read, .fd fd => !otherPending m .read fd
    | .write, .fd fd => !otherPending m .write fd
    | _, _ => true
  | _ => true

structure KernelInv (sockets : List ClSocket) (thread : Nat → ClThread) (calls : List Call) :
    Prop where
  op : ∀ s ∈ sockets, s.op = .added ↔ (interest s.fd calls).isSome = true
  agrees : ∀ s ∈ sockets, ∀ d, watches (interest s.fd calls) d = waits thread s d
  unknown : ∀ fd, fd ∉ sockets.map ClSocket.fd → interest fd calls = none
  fits : CtlFits calls

theorem kernel_inv_init (thread : Nat → ClThread) : KernelInv [] thread [] where
  op _ h := absurd h List.not_mem_nil
  agrees _ h := absurd h List.not_mem_nil
  unknown _ _ := rfl
  fits := trivial

theorem interest_other {fd fd' : Int} (h : fd' ≠ fd) (op : CtlOp) (events : Option (BitVec 32))
    (calls : List Call) : interest fd (.epollCtl op fd' events :: calls) = interest fd calls :=
  if_neg h

theorem waits_congr {thread thread' : Nat → ClThread} {s s' : ClSocket} {d : Side}
    (hslot : s'.slot d = s.slot d) (hpersist : has s'.type d.persist = has s.type d.persist)
    (h : ∀ t, s.slot d = some t → (thread' t).type = (thread t).type) :
    waits thread' s' d = waits thread s d := by
  rw [waits, waits, hslot, hpersist]
  cases hd : s.slot d with
  | none => rfl
  | some t => simp only [h t hd]

theorem has_epoll (d e : Side) (both : Bool) :
    has (if both then d.epoll ||| d.other.epoll else d.epoll) e.epoll =
      (decide (e = d) || both) := by
  cases both <;> cases d <;> cases e <;> decide

theorem has_other_epoll (d e : Side) : has d.other.epoll e.epoll = decide (e ≠ d) := by
  cases d <;> cases e <;> decide

namespace KernelInv

variable {sockets : List ClSocket} {thread thread' : Nat → ClThread} {calls calls' : List Call}
  {s : ClSocket} {d : Side}

theorem congr (h : KernelInv sockets thread calls)
    (hsame : ∀ s ∈ sockets, ∀ d, waits thread' s d = waits thread s d) :
    KernelInv sockets thread' calls where
  op := h.op
  agrees s hs d := (h.agrees s hs d).trans (hsame s hs d).symm
  unknown := h.unknown
  fits := h.fits

/-- A socket changes, and perhaps what the kernel knows of it. -/
theorem replace (h : KernelInv sockets thread calls) (hsock : SocketInv sockets thread)
    (hs : s ∈ sockets) (s' : ClSocket) (hfd : s'.fd = s.fd)
    (hop : s'.op = .added ↔ (interest s.fd calls').isSome = true)
    (hagrees : ∀ d, watches (interest s.fd calls') d = waits thread' s' d)
    (hframe : ∀ fd, fd ≠ s.fd → interest fd calls' = interest fd calls) (hfits : CtlFits calls')
    (hkeep : ∀ x ∈ sockets, x.fd ≠ s.fd → ∀ d t, x.slot d = some t →
      (thread' t).type = (thread t).type) :
    KernelInv (Keyed.update ClSocket.fd s.fd (fun _ => s') sockets) thread' calls' := by
  have hmem : ∀ x, x ∈ Keyed.update ClSocket.fd s.fd (fun _ => s') sockets ↔
      x = s' ∨ x ∈ sockets ∧ x.fd ≠ s.fd := fun x => hsock.mem_update hs
  refine ⟨fun x hx => ?_, fun x hx d => ?_, fun fd hnot => ?_, hfits⟩
  · rcases (hmem x).mp hx with rfl | ⟨hx, hne⟩
    · rw [hfd]
      exact hop
    · rw [hframe _ hne]
      exact h.op x hx
  · rcases (hmem x).mp hx with rfl | ⟨hx, hne⟩
    · rw [hfd]
      exact hagrees d
    · rw [hframe _ hne, waits_congr rfl rfl (hkeep x hx hne d)]
      exact h.agrees x hx d
  · rw [Keyed.update_keys (fun _ _ => hfd)] at hnot
    rw [hframe fd (fun he => hnot (he ▸ List.mem_map_of_mem hs))]
    exact h.unknown fd hnot

theorem tell (h : KernelInv sockets thread calls) (hsock : SocketInv sockets thread)
    (hs : s ∈ sockets) (s' : ClSocket) (hfd : s'.fd = s.fd) {events : Option (BitVec 32)}
    (hop : s'.op = if events.isSome then .added else .add) {ctl : CtlOp}
    (hctl : ctl = if events.isSome then if s.op = .add then .add else .mod else .del)
    (hagrees : ∀ d, watches events d = waits thread' s' d)
    (hkeep : ∀ x ∈ sockets, x.fd ≠ s.fd → ∀ d t, x.slot d = some t →
      (thread' t).type = (thread t).type) :
    KernelInv (Keyed.update ClSocket.fd s.fd (fun _ => s') sockets) thread'
      (.epollCtl ctl s.fd events :: calls) := by
  have hwas := h.op s hs
  have hnow : interest s.fd (.epollCtl ctl s.fd events :: calls) = events ∧
      CtlFits (.epollCtl ctl s.fd events :: calls) := by
    rw [interest, if_pos rfl, hctl]
    cases events with
    | none => exact ⟨rfl, h.fits⟩
    | some e =>
      cases hsop : s.op with
      | add =>
        have hnone : interest s.fd calls = none := by simpa [hsop] using hwas
        simp [CtlOp.apply, CtlFits, hnone, h.fits]
      | added =>
        have hsome : (interest s.fd calls).isSome = true := hwas.mp hsop
        simp [CtlOp.apply, CtlFits, hsome, h.fits]
  refine h.replace hsock hs s' hfd ?_ ?_ (fun fd hne => interest_other (Ne.symm hne) ..) hnow.2 hkeep
  · rw [hnow.1, hop]
    cases events <;> simp
  · rw [hnow.1]
    exact hagrees

theorem search (h : KernelInv sockets thread calls) (sock : Int) :
    KernelInv (Keyed.lookupOrAppend ClSocket.fd sock (clThreadSocketCalloc sock) sockets) thread
      calls := by
  rw [Keyed.lookupOrAppend]
  split
  · exact h
  next hlook =>
    have hnone := h.unknown sock (Keyed.lookup_eq_none_iff.mp (by simpa using hlook))
    have hmem : ∀ x, x ∈ sockets ++ [clThreadSocketCalloc sock] →
        x ∈ sockets ∨ x = clThreadSocketCalloc sock := fun x hx => by simpa using hx
    refine ⟨fun x hx => ?_, fun x hx d => ?_, fun fd hnot => ?_, h.fits⟩
    · rcases hmem x hx with hx | rfl
      · exact h.op x hx
      · simp [clThreadSocketCalloc, hnone]
    · rcases hmem x hx with hx | rfl
      · exact h.agrees x hx d
      · have hslot : (clThreadSocketCalloc sock).slot d = none := by cases d <;> rfl
        rw [show (clThreadSocketCalloc sock).fd = sock from rfl, hnone, waits, hslot]
        rfl
    · exact h.unknown fd (fun hin => hnot (by simp [hin]))

end KernelInv

namespace Inv

variable {m m' : Master}

theorem kernel_other (h : Inv m) (hk : KernelInv m.sockets m.thread m.calls) {t : Nat}
    (ht : (m.thread t).type.onSocket = false) (r : ClThread) :
    KernelInv m.sockets (Function.update m.thread t r) m.calls := by
  refine hk.congr (fun s hs d => waits_congr rfl rfl (fun i hd => ?_))
  have hit : i ≠ t := by
    rintro rfl
    rw [h.sockets.slot_onSocket hs hd] at ht
    cases ht
  rw [Function.update_of_ne hit]

theorem waits_of_addClear {d : Side} {sock : Int} (hc : addClear m d sock = true) {s : ClSocket}
    (hlook : Keyed.lookup ClSocket.fd sock
      (Keyed.lookupOrAppend ClSocket.fd sock (clThreadSocketCalloc sock) m.sockets) = some s)
    (hd : s.slot d = none) :
    waits m.thread s d.other = (s.slot d.other).isSome := by
  have hfd : (clThreadSocketCalloc sock).fd = sock := rfl
  rw [Keyed.lookup_lookupOrAppend hfd, if_pos rfl] at hlook
  cases hold : Keyed.lookup ClSocket.fd sock m.sockets with
  | none =>
    rw [hold, Option.getD_none, Option.some.injEq] at hlook
    subst hlook
    cases d <;> rfl
  | some s₁ =>
    rw [hold, Option.getD_some, Option.some.injEq] at hlook
    subst hlook
    simp only [addClear, otherPending, Master.clThreadSocketLookup, hold, hd, Option.isSome_none,
      Bool.false_or] at hc
    cases hother : s₁.slot d.other with
    | none => simp [waits, hother]
    | some t => simpa [hother] using hc

theorem other_of_ne {d e : Side} (h : e ≠ d) : e = d.other := by
  cases d <;> cases e <;> first | rfl | exact absurd rfl h

theorem kernel_add (h : Inv m) (hk : KernelInv m.sockets m.thread m.calls) {d : Side}
    {func arg : Nat} {sock : Int} {presist : Bool} {r : Option Nat}
    (hc : addClear m d sock = true)
    (hadd : m.clThreadAdd d func arg sock presist = some (m', r)) :
    KernelInv m'.sockets m'.thread m'.calls := by
  obtain ⟨m₁, s, rfl, h₁, hs, rfl, ⟨-, hnone⟩ | ⟨hslot, t, made', htype, -, hsome⟩⟩ :=
    h.clThreadAdd_cases d func arg sock presist
  · rw [hnone] at hadd
    cases hadd
    exact hk.search _
  · rw [hsome] at hadd
    cases hadd
    have hwaits := waits_of_addClear hc (h₁.sockets.lookup hs) hslot
    have hfree : ∀ x ∈ Keyed.lookupOrAppend ClSocket.fd s.fd (clThreadSocketCalloc s.fd) m.sockets,
        ∀ e i, x.slot e = some i → i ≠ t := by
      rintro x hx e i he rfl
      exact h₁.sockets.ne_of_slot hx he rfl htype
    refine (hk.search s.fd).tell h₁.sockets hs _ ?_ rfl rfl (fun e => ?_) (fun x hx _ e i he => ?_)
    · exact fd_setSlot ..
    rotate_left
    · dsimp only
      rw [Function.update_of_ne (hfree x hx e i he)]
    dsimp only
    rw [watches, has_epoll, ← hwaits]
    by_cases hed : e = d
    · subst hed
      have hnew : ({ s.setSlot e (some t) with
          type := typeAdded s.type e presist, op := .added } : ClSocket).slot e = some t := by
        cases e <;> rfl
      simp only [waits, hnew, Function.update_self]
      cases e <;> simp [Side.type]
    · have hold : ({ s.setSlot d (some t) with
          type := typeAdded s.type d presist, op := .added } : ClSocket).slot e = s.slot e := by
        cases d <;> cases e <;> first | rfl | exact absurd rfl hed
      rw [← other_of_ne hed, decide_eq_false hed, Bool.false_or]
      refine (waits_congr hold ?_ (fun i he => ?_)).symm
      · exact (has_typeAdded ..).2.trans (if_neg hed)
      · rw [Function.update_of_ne (hfree s hs e i he)]

theorem kernel_cancelSide (h : Inv m) (hk : KernelInv m.sockets m.thread m.calls) {t : Nat}
    {d : Side} (ht : (m.thread t).type = d.type)
    (hc : ∀ fd, (m.thread t).u = .fd fd → otherPending m d fd = false)
    (hcancel : (m.cancelSide d t).map (·.clThreadAddUnuse t) = some m') :
    KernelInv m'.sockets m'.thread m'.calls := by
  obtain ⟨s, hs, hd, op, events, ctl, hsome, hcase⟩ := h.cancelSide_cases ht
  rw [hsome, Option.some.injEq] at hcancel
  subst hcancel
  have hwaits : waits m.thread s d.other = (s.slot d.other).isSome := by
    have hpending := hc s.fd (h.sockets.slot s hs d t hd).1
    simp only [otherPending, Master.clThreadSocketLookup, h.sockets.lookup hs] at hpending
    cases hother : s.slot d.other with
    | none => simp [waits, hother]
    | some i => simpa [hother] using hpending
  have hother : ∀ x ∈ m.sockets, ∀ e i, x.slot e = some i → x.fd ≠ s.fd ∨ e ≠ d → i ≠ t := by
    rintro x hx e i he hne rfl
    obtain ⟨rfl, rfl⟩ := h.sockets.slot_unique hx hs he hd
    simp at hne
  generalize hs' : ({ s.setSlot d none with
    type := typeCancelled s.type d, op := op } : ClSocket) = s'
  have hfd : s'.fd = s.fd := by rw [← hs']; exact fd_setSlot ..
  have hslot : ∀ e, s'.slot e = if e = d then none else s.slot e := by
    intro e
    rw [← hs']
    cases d <;> cases e <;> rfl
  simp only [Master.setSocket, Master.unlink, Master.clThreadAddUnuse, Master.setThread, hfd]
  refine hk.tell h.sockets hs s' hfd ?_ ?_ (fun e => ?_) (fun x hx hne e i he => ?_)
  · rcases hcase with ⟨-, rfl, rfl, -⟩ | ⟨-, rfl, rfl, -⟩ <;> rw [← hs'] <;> rfl
  · rcases hcase with ⟨-, -, rfl, rfl⟩ | ⟨-, -, rfl, rfl⟩ <;> rfl
  · have hevents : watches events e = (decide (e ≠ d) && (s.slot d.other).isSome) := by
      rcases hcase with ⟨hother, -, rfl, -⟩ | ⟨hother, -, rfl, -⟩
      · rw [watches, has_other_epoll, hother, Bool.and_true]
      · rw [watches, hother, Option.isSome_none, Bool.and_false]
    rw [hevents, ← hwaits]
    by_cases hed : e = d
    · simp [waits, hslot, hed]
    · rw [← other_of_ne hed, decide_eq_true hed, Bool.true_and]
      refine (waits_congr ((hslot e).trans (if_neg hed)) ?_ (fun i he => ?_)).symm
      · rw [← hs', (has_typeCancelled ..).2, decide_eq_true hed, Bool.true_and]
      · rw [Function.update_of_ne (hother s hs e i he (Or.inr hed))]
  · rw [Function.update_of_ne (hother x hx e i he (Or.inl hne))]

def fires (s : ClSocket) (what : BitVec 32) (d : Side) : Bool :=
  has what d.ev && has s.type d.flag

theorem doEventSide_spec (h : Inv m) {s : ClSocket} (hs : s ∈ m.sockets) {d : Side}
    {what ctl ctl' : BitVec 32} (hside : m.doEventSide d s what ctl = some (m', ctl')) :
    m'.sockets = m.sockets ∧ m'.calls = m.calls ∧
      (∀ i, (m'.thread i).type =
        if fires s what d = true ∧ s.slot d = some i then .ready else (m.thread i).type) ∧
      ctl' = if fires s what d && !has s.type d.persist then ctl ||| d.ev else ctl := by
  rw [Master.doEventSide] at hside
  split at hside
  case isFalse hno =>
    cases hside
    simp [fires, Bool.eq_false_iff.mpr hno]
  case isTrue hyes =>
    have hfires : fires s what d = true := hyes
    have hflag : (s.slot d).isSome := by
      rw [← h.sockets.flag s hs d]
      exact (Bool.and_eq_true_iff.mp hyes).2
    obtain ⟨t, hd⟩ := Option.isSome_iff_exists.mp hflag
    simp only [hd] at hside
    split at hside
    case isTrue =>
      cases hside
      refine ⟨rfl, rfl, fun i => ?_, ?_⟩
      · by_cases hit : t = i
        · subst hit
          simp [hfires, hd, Master.unlink, Master.setThread]
        · simp [hd, hit, Master.unlink, Master.setThread, Function.update_of_ne (Ne.symm hit)]
      · cases has s.type d.persist <;> simp [hfires]
    case isFalse hready =>
      cases hside
      refine ⟨rfl, rfl, fun i => ?_, ?_⟩
      · by_cases hit : t = i
        · subst hit
          simp [hfires, hd, not_not.mp hready]
        · simp [hd, hit]
      · cases has s.type d.persist <;> simp [hfires]

def ctlOf (read write : Bool) : BitVec 32 :=
  let ctl := if read then 0#32 ||| Side.read.ev else 0#32
  if write then ctl ||| Side.write.ev else ctl

theorem has_ctlOf (read write : Bool) (d : Side) :
    has (ctlOf read write) d.ev = (match d with | .read => read | .write => write) := by
  cases read <;> cases write <;> cases d <;> decide

theorem ctlOf_eq_zero (read write : Bool) :
    ctlOf read write = 0 ↔ read = false ∧ write = false := by
  cases read <;> cases write <;> decide

theorem has_eventsLeft (type ctl : BitVec 32) (d : Side) :
    has (Master.eventsLeft type ctl) d.epoll = (has type d.flag && !has ctl d.ev) := by
  cases d <;> simp only [Master.eventsLeft] <;> generalize has type Side.read.flag = readFlag <;>
    generalize has type Side.write.flag = writeFlag <;>
    generalize has ctl Side.read.ev = readCtl <;> generalize has ctl Side.write.ev = writeCtl <;>
    revert readFlag writeFlag readCtl writeCtl <;> decide

def Calm (m : Master) (fd : Int) : Prop :=
  ∀ s ∈ m.sockets, s.fd = fd → ∀ d t, s.slot d = some t → (m.thread t).type ≠ .ready

theorem kernel_doEvent (h : Inv m) (hk : KernelInv m.sockets m.thread m.calls) {fd : Int}
    {events : BitVec 32} (hcalm : Calm m fd) (hdo : m.clThreadDoEvent fd events = some m') :
    KernelInv m'.sockets m'.thread m'.calls ∧ ∀ fd', fd' ≠ fd → Calm m fd' → Calm m' fd' := by
  simp only [Master.clThreadDoEvent, Option.bind_eq_bind, Option.bind_eq_some_iff] at hdo
  obtain ⟨s, hlook, ⟨m₁, ctl₁⟩, hread, ⟨m₂, ctl₂⟩, hwrite, hdo⟩ := hdo
  have hs := Keyed.mem_of_lookup hlook
  have hfd := Keyed.key_of_lookup hlook
  obtain ⟨_, _, hread', h₁, hsock₁⟩ := h.doEventSide hs .read (Master.whatOf events) 0#32
  rw [hread] at hread'
  cases hread'
  obtain ⟨-, hcalls₁, htype₁, hctl₁⟩ := h.doEventSide_spec hs hread
  obtain ⟨hsock₂, hcalls₂, htype₂, hctl₂⟩ := h₁.doEventSide_spec (hsock₁ ▸ hs) hwrite
  generalize hwhat : Master.whatOf events = what at *
  rw [hsock₁] at hsock₂
  rw [hcalls₁] at hcalls₂
  have hctl : ctl₂ = ctlOf (fires s what .read && !has s.type Side.read.persist)
      (fires s what .write && !has s.type Side.write.persist) := by
    rw [hctl₂, hctl₁]
    rfl
  -- the thread of a slot is ready now when its side has an event
  have hready : ∀ d t, s.slot d = some t →
      ((m₂.thread t).type = .ready ↔ fires s what d = true) := by
    intro d t hd
    have hnot := hcalm s hs hfd d t hd
    have hone : ∀ e, s.slot e = some t ↔ e = d := fun e =>
      ⟨fun he => h.sockets.side s hs e d t he hd, fun he => he ▸ hd⟩
    rw [htype₂, htype₁]
    simp only [hone]
    cases d <;> simp [hnot]
  have hkeep : ∀ x ∈ m.sockets, x.fd ≠ s.fd → ∀ d t, x.slot d = some t →
      (m₂.thread t).type = (m.thread t).type := by
    intro x hx hne d t hd
    have hone : ∀ e, s.slot e ≠ some t := fun e he =>
      hne (congrArg ClSocket.fd (h.sockets.slot_unique hx hs hd he).1)
    rw [htype₂, htype₁]
    simp [hone]
  have hwaits : ∀ d, waits m₂.thread s d =
      (has s.type d.flag && !(fires s what d && !has s.type d.persist)) := by
    intro d
    rw [h.sockets.flag s hs d, waits]
    cases hd : s.slot d with
    | none => simp
    | some t =>
      have hiff := hready d t hd
      cases hf : fires s what d <;> simp [hf] at hiff ⊢ <;> simp [hiff]
  have hleft : ∀ d, has (Master.eventsLeft s.type ctl₂) d.epoll = waits m₂.thread s d := by
    intro d
    rw [has_eventsLeft, hwaits, hctl, has_ctlOf]
    cases d <;> rfl
  have hcalm' : ∀ fd', fd' ≠ fd → Calm m fd' → ∀ x ∈ m.sockets, x.fd = fd' →
      ∀ d t, x.slot d = some t → (m₂.thread t).type ≠ .ready := by
    intro fd' hne hc x hx hxfd d t hd
    rw [hkeep x hx (by rw [hxfd, hfd]; exact hne) d t hd]
    exact hc x hx hxfd d t hd
  -- after a call for the socket the others are the same ones
  have hothers : ∀ s' : ClSocket, s'.fd = s.fd → ∀ fd', fd' ≠ fd → Calm m fd' →
      ∀ x ∈ Keyed.update ClSocket.fd s.fd (fun _ => s') m.sockets, x.fd = fd' →
      ∀ d t, x.slot d = some t → (m₂.thread t).type ≠ .ready := by
    intro s' hs' fd' hne hc x hx hxfd
    rcases (h.sockets.mem_update hs).mp hx with rfl | ⟨hx, -⟩
    · exact absurd (hxfd.symm.trans (hs'.trans hfd)) hne
    · exact hcalm' fd' hne hc x hx hxfd
  dsimp only at hdo
  split at hdo
  case isTrue hzero =>
    cases hdo
    rw [hctl, ctlOf_eq_zero] at hzero
    simp only [Calm, hsock₂, hcalls₂]
    refine ⟨hk.congr (fun x hx d => ?_), hcalm'⟩
    by_cases hxs : x.fd = s.fd
    · obtain rfl := h.sockets.eq_of_fd hx hs hxs
      have hno : (fires x what d && !has x.type d.persist) = false := by
        cases d
        · exact hzero.1
        · exact hzero.2
      rw [hwaits, hno, h.sockets.flag x hx d, waits]
      cases hd : x.slot d with
      | none => rfl
      | some t => simp [hcalm x hx hfd d t hd]
    · exact waits_congr rfl rfl (hkeep x hx hxs d)
  case isFalse =>
    split at hdo
    case isTrue hnone =>
      cases hdo
      simp only [Master.disarm, Master.setSocket, Master.call, hsock₂, hcalls₂, Calm]
      refine ⟨hk.tell h.sockets hs { s with op := .add } rfl rfl rfl (fun d => ?_) hkeep, hothers _ rfl⟩
      have hd := hleft d
      rw [hnone] at hd
      exact (zero_has d.epoll).symm.trans hd
    case isFalse =>
      cases hdo
      simp only [Master.arm, Master.setSocket, Master.call, hsock₂, hcalls₂, Calm]
      exact ⟨hk.tell h.sockets hs { s with op := .added } rfl rfl rfl hleft hkeep, hothers _ rfl⟩

theorem kernel_doEvents (h : Inv m) (hk : KernelInv m.sockets m.thread m.calls)
    {batch : List (Int × BitVec 32)} (hnodup : (batch.map Prod.fst).Nodup)
    (hknown : ∀ e ∈ batch, e.1 ∈ m.sockets.map ClSocket.fd) (hcalm : ∀ e ∈ batch, Calm m e.1)
    (hdo : m.doEvents batch = some m') : KernelInv m'.sockets m'.thread m'.calls := by
  induction batch generalizing m with
  | nil =>
    cases hdo
    exact hk
  | cons e batch ih =>
    obtain ⟨m₁, hfirst, h₁, hfds⟩ := h.clThreadDoEvent (hknown e List.mem_cons_self) e.2
    obtain ⟨hk₁, hcalm₁⟩ := h.kernel_doEvent hk (hcalm e List.mem_cons_self) hfirst
    rw [Master.doEvents, hfirst, Option.bind_some] at hdo
    rw [List.map_cons, List.nodup_cons] at hnodup
    refine ih h₁ hk₁ hnodup.2 (fun e' he' => ?_) (fun e' he' => ?_) hdo
    · rw [hfds]
      exact hknown e' (List.mem_cons_of_mem _ he')
    · have hne : e'.1 ≠ e.1 := fun heq => hnodup.1 (heq ▸ List.mem_map_of_mem he')
      exact hcalm₁ e'.1 hne (hcalm e' (List.mem_cons_of_mem _ he'))

theorem kernel_socketSetSide (h : Inv m) (hk : KernelInv m.sockets m.thread m.calls)
    {s : ClSocket} {d : Side} {t : Nat} (hs : s ∈ m.sockets) (hd : s.slot d = some t)
    (ht : (m.thread t).type = .ready) :
    KernelInv ((m.unlink t).socketSetSide d s t).sockets
      ((m.unlink t).socketSetSide d s t).thread ((m.unlink t).socketSetSide d s t).calls := by
  have hother : ∀ x ∈ m.sockets, ∀ e i, x.slot e = some i → x.fd ≠ s.fd ∨ e ≠ d → i ≠ t := by
    rintro x hx e i he hne rfl
    obtain ⟨rfl, rfl⟩ := h.sockets.slot_unique hx hs he hd
    simp at hne
  rw [Master.socketSetSide]
  split
  case isTrue hpersist =>
    simp only [Master.setThread, Master.unlink]
    refine hk.congr (fun x hx e => ?_)
    by_cases hxe : x.fd = s.fd ∧ e = d
    · obtain ⟨hxfd, rfl⟩ := hxe
      obtain rfl := h.sockets.eq_of_fd hx hs hxfd
      simp only [waits, hd, hpersist, Bool.or_true]
    · refine waits_congr rfl rfl (fun i he => ?_)
      rw [Function.update_of_ne (hother x hx e i he (not_and_or.mp hxe))]
  case isFalse hpersist =>
    generalize hs' : ({ s.setSlot d none with type := s.type &&& ~~~d.cleared } : ClSocket) = s'
    have hfd : s'.fd = s.fd := by rw [← hs']; exact fd_setSlot ..
    have hslot : ∀ e, s'.slot e = if e = d then none else s.slot e := by
      intro e
      rw [← hs']
      cases d <;> cases e <;> rfl
    have hop : s'.op = s.op := by
      rw [← hs']
      cases d <;> rfl
    simp only [Master.setSocket, Master.unlink, Master.clThreadAddUnuse, Master.setThread, hfd]
    refine hk.replace h.sockets hs s' hfd (hop ▸ hk.op s hs) (fun e => ?_) (fun _ _ => rfl) hk.fits
      (fun x hx hne e i he => ?_)
    · rw [hk.agrees s hs e]
      by_cases hed : e = d
      · subst hed
        simp [waits, hd, ht, hpersist, hslot]
      · refine (waits_congr ((hslot e).trans (if_neg hed)) ?_ (fun i he => ?_)).symm
        · rw [← hs', (has_cleared ..).2]
        · rw [Function.update_of_ne (hother s hs e i he (Or.inr hed))]
    · rw [Function.update_of_ne (hother x hx e i he (Or.inl hne))]

theorem calm_of_list (h : Inv m) (hlist : m.links.list .ready = []) (fd : Int) : Calm m fd := by
  intro s hs _ d t hd ht
  have hhead := h.links.placed t (h.lt_of_slot hs hd)
  rw [ht] at hhead
  have hmem := (h.links.wf.mem_iff _ t).mpr hhead
  rw [hlist] at hmem
  exact absurd hmem List.not_mem_nil

theorem kernel_fetch (h : Inv m) (hk : KernelInv m.sockets m.thread m.calls) {a : Answers}
    (hbatch : m.batchOk a.batch = true) {r : Option ClThread}
    (hfetch : m.clThreadFetch a = some (m', r)) : KernelInv m'.sockets m'.thread m'.calls := by
  obtain ⟨t, hchoose, ht⟩ | ⟨t, n, heap, hchoose, hn, -⟩ | ⟨t, heap, hchoose, h₁, ht⟩ |
    ⟨heap, wait, m₂, h₁, hlist, hdo, h₂, hchoose⟩ := h.choose_cases hbatch
  · have hne : ((m.unlink t).thread t).type ≠ .ready := by rw [Master.unlink, ht]; simp
    rw [Master.clThreadFetch_of_run hchoose (Master.clThreadRun_of_ne hne)] at hfetch
    cases hfetch
    exact h.kernel_other hk (by rw [ht]; rfl) _
  · have ht := (h.heap.armed n t hn).1
    have hne : (({ m with heap := heap }.unlink t).thread t).type ≠ .ready := by
      rw [Master.unlink, ht]
      simp
    rw [Master.clThreadFetch_of_run hchoose (Master.clThreadRun_of_ne hne)] at hfetch
    cases hfetch
    exact h.kernel_other hk (by rw [ht]; rfl) _
  · obtain ⟨s, hs, d, hd, hrun⟩ := h₁.clThreadRun_ready_cases ht
    rw [Master.clThreadFetch_of_run hchoose hrun] at hfetch
    cases hfetch
    exact h₁.kernel_socketSetSide hk hs hd ht
  · have hnodup : (a.batch.map Prod.fst).Nodup := by
      simp only [Master.batchOk, Bool.and_eq_true, decide_eq_true_eq] at hbatch
      exact hbatch.1.1
    have hwait : KernelInv m.sockets m.thread (.epollWait wait :: m.calls) :=
      ⟨hk.op, hk.agrees, hk.unknown, hk.fits⟩
    have hw : Inv { m with heap := heap, calls := .epollWait wait :: m.calls } :=
      ⟨h₁.links, h₁.sockets, h₁.heap⟩
    have hk₂ := hw.kernel_doEvents hwait hnodup (fun e he => mem_of_batchOk hbatch he)
      (fun e _ => hw.calm_of_list hlist e.1) hdo
    cases hready : m₂.links.list .ready with
    | nil =>
      rw [hready] at hchoose
      rw [Master.clThreadFetch_of_wait hchoose] at hfetch
      cases hfetch
      exact hk₂
    | cons t ts =>
      rw [hready] at hchoose
      have ht := h₂.type_of_list hready
      obtain ⟨s, hs, d, hd, hrun⟩ := h₂.clThreadRun_ready_cases ht
      rw [Master.clThreadFetch_of_run hchoose hrun] at hfetch
      cases hfetch
      exact h₂.kernel_socketSetSide hk₂ hs hd ht

theorem kernel_step (h : Inv m) (hk : KernelInv m.sockets m.thread m.calls) {a : Act}
    (hc : armsClear m a = true) (hstep : Epoll.step m a = some m') :
    KernelInv m'.sockets m'.thread m'.calls := by
  cases a with
  | addRead func arg sock presist =>
    obtain ⟨r, hadd, rfl⟩ := Option.map_eq_some_iff.mp hstep
    exact h.kernel_add hk hc hadd
  | addWrite func arg sock presist =>
    obtain ⟨r, hadd, rfl⟩ := Option.map_eq_some_iff.mp hstep
    exact h.kernel_add hk hc hadd
  | addTimer now func arg timer =>
    obtain ⟨t, made', hget, -, htype⟩ := h.get .timer func arg
    cases hstep
    simp only [Master.clThreadAddTimer, hget, Master.setThread, Function.update_self,
      Function.update_idem]
    exact h.kernel_other hk (by rw [htype]; rfl) _
  | addEvent func arg val =>
    obtain ⟨t, made', hget, -, htype⟩ := h.get .event func arg
    cases hstep
    simp only [Master.clThreadAddEvent, hget, Master.setThread, Function.update_self,
      Function.update_idem]
    exact h.kernel_other hk (by rw [htype]; rfl) _
  | cancel t =>
    simp only [Epoll.step, Option.ite_none_right_eq_some] at hstep
    obtain ⟨-, hcancel⟩ := hstep
    rw [Master.clThreadCancel] at hcancel
    cases ht : (m.thread t).type with
    | read =>
      simp only [ht] at hcancel
      refine h.kernel_cancelSide hk (d := .read) ht (fun fd hu => ?_) hcancel
      simpa [armsClear, ht, hu] using hc
    | write =>
      simp only [ht] at hcancel
      refine h.kernel_cancelSide hk (d := .write) ht (fun fd hu => ?_) hcancel
      simpa [armsClear, ht, hu] using hc
    | timer =>
      simp only [ht] at hcancel
      obtain ⟨n, hn⟩ := h.heap.timer t ht
      simp only [Master.clThreadCancelTimer, (h.heap.armed n t hn).2, Option.map_some,
        Master.clThreadAddUnuse, Master.setThread, Master.unlink, Function.update_idem,
        Option.some.injEq] at hcancel
      subst hcancel
      exact h.kernel_other hk (by rw [ht]; rfl) _
    | event =>
      simp only [ht, Option.some.injEq] at hcancel
      subst hcancel
      exact h.kernel_other hk (by rw [ht]; rfl) _
    | ready => simp [ht] at hcancel
    | unused => simp [ht] at hcancel
  | fetch a =>
    simp only [Epoll.step, Option.ite_none_right_eq_some] at hstep
    obtain ⟨r, hfetch, rfl⟩ := Option.map_eq_some_iff.mp hstep.2
    exact h.kernel_fetch hk hstep.1 hfetch

end Inv

/-- In every run in which no side is armed or cancelled over a ready one-shot thread of the other,
the kernel watches a side of a socket exactly while its thread waits, and the state of a socket
says whether its descriptor is registered. -/
theorem cl_thread_interest (as : List Act) (m : Master)
    (hc : Run.Meets step (fun m a => armsClear m a = true) clThreadInit as)
    (h : Run.run step clThreadInit as = some m) :
    (∀ s ∈ m.sockets, (∀ d, watches (interest s.fd m.calls) d = waits m.thread s d) ∧
      (s.op = .added ↔ (interest s.fd m.calls).isSome = true)) ∧ CtlFits m.calls := by
  obtain ⟨hinv, hk⟩ := Run.run_invariant_of_meets
    (p := fun m => Inv m ∧ KernelInv m.sockets m.thread m.calls)
    (fun _ _ _ ⟨hs, hk⟩ hc hstep => ⟨hs.step hstep, hs.kernel_step hk hc hstep⟩)
    ⟨inv_init, kernel_inv_init _⟩ hc h
  exact ⟨fun s hs => ⟨hk.agrees s hs, hk.op s hs⟩, hk.fits⟩

/-- Both sides of a socket are registered; the one-shot writer is ready, runs and is registered
again, and the reader is cancelled. -/
def clearCalls : List Act :=
  [.addRead 1 10 7 true, .addWrite 2 20 7 false, .fetch ⟨1000, 1000, [(7, 4)]⟩,
    .addWrite 2 21 7 false, .cancel 0]

theorem cl_thread_interest_clear_calls :
    ∃ m, Run.run step clThreadInit clearCalls = some m ∧
      m.calls.map (fun c => match c with
        | .epollCtl op _ events => some (op, events)
        | .epollWait _ => none) =
        [some (.mod, some 4#32), some (.mod, some 5#32), some (.mod, some 1#32), none,
          some (.mod, some 5#32), some (.add, some 1#32)] ∧
      (∀ s ∈ m.sockets, (∀ d, watches (interest s.fd m.calls) d = waits m.thread s d) ∧
        (s.op = .added ↔ (interest s.fd m.calls).isSome = true)) ∧ CtlFits m.calls := by
  have hrun : (Run.run step clThreadInit clearCalls).map (fun m => m.calls.map (fun c => match c with
        | .epollCtl op _ events => some (op, events)
        | .epollWait _ => none)) =
      some [some (.mod, some 4#32), some (.mod, some 5#32), some (.mod, some 1#32), none,
        some (.mod, some 5#32), some (.add, some 1#32)] := by
    decide +kernel
  obtain ⟨m, hm, hcalls⟩ := Option.map_eq_some_iff.mp hrun
  exact ⟨m, hm, hcalls, cl_thread_interest _ m (by decide +kernel) hm⟩

/-- A one-shot reader and a one-shot writer are ready at once; the writer runs and is registered
again before the reader runs. -/
def rearmedCalls : List Act :=
  [.addRead 1 10 7 false, .addWrite 2 20 7 false, .fetch ⟨1000, 1000, [(7, 5)]⟩,
    .addWrite 2 20 7 false]

theorem cl_thread_interest_rearmed :
    ∃ m, Run.run step clThreadInit rearmedCalls = some m ∧
      ∃ s ∈ m.sockets, watches (interest s.fd m.calls) .read = true ∧
        waits m.thread s .read = false := by
  have hrun : (Run.run step clThreadInit rearmedCalls).map (fun m => m.sockets.map (fun s =>
      (watches (interest s.fd m.calls) .read, waits m.thread s .read))) = some [(true, false)] := by
    decide +kernel
  obtain ⟨m, hm, hsockets⟩ := Option.map_eq_some_iff.mp hrun
  obtain ⟨s, hs, heq⟩ := List.mem_map.mp (hsockets ▸ List.mem_singleton_self (true, false))
  rw [Prod.mk.injEq] at heq
  exact ⟨m, hm, s, hs, heq⟩

end AlgorithmLib.Epoll
