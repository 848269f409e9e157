import AlgorithmLib.Udp.SessionTables

/-!
A session that `ClientSessionGet` returns is one of `sessions` as long as the user of an
authentication request has no deleted session at its address, and no session is deleted while
a call that has found it is under way.
-/

set_option autoImplicit false

namespace AlgorithmLib.Udp

/-- The session that the call has found, or made and stored. -/
def Work.session : Work → Option Nat
  | .keyed k _ => some k
  | .found k _ => some k
  | .returning k => some k
  | _ => none

namespace Manager

/-- `ClientSessionGet` is back, and what it returned is stored under its number. -/
def HandsOut (m : Manager) : Prop :=
  m.work = none → ∀ k, m.got = some k → m.sessions (m.session k).cid = some k

def held (m : Manager) : Option Nat := m.work.bind Work.session

/-- The sessions whose goroutine runs are those in `sessions`. -/
structure Stored (m : Manager) : Prop where
  stored : ∀ c k, m.sessions c = some k → (m.session k).cid = c ∧ m.running k = true
  live : ∀ k, m.running k = true → k < m.made ∧ m.sessions (m.session k).cid = some k
  estab : ∀ u, (m.user u).estabSession = none
  creating : ∀ k, m.work = some (.creating k) → k < m.made ∧ m.running k = false

/-- They are those in `sessionHash`, and the one that the call holds is among them. -/
structure Listed (m : Manager) : Prop extends Stored m where
  hashed : ∀ key k, m.sessionHash key = some k →
    (m.session k).hashKey = key ∧ m.running k = true
  kept : ∀ k, m.held = some k → m.running k = true

/-- The session that the user authenticated at this address, if there is one, still runs. -/
def authRunning (m : Manager) (addr : List UInt8) (ar : ClientAuthRequest) : Bool :=
  (m.users ar.username).all fun u =>
    (m.user u).authSession.all fun k => (m.session k).addr != addr || m.running k

def answerable (m : Manager) : Work → Bool
  | .asking addr ar => m.authRunning addr ar
  | _ => true

def fresh (m : Manager) : Work → Bool
  | .creating k => (m.sessions (m.session k).cid).isNone
  | _ => true

theorem Stored.registered_iff {m : Manager} (h : m.Stored) (k : Nat) :
    m.sessions (m.session k).cid = some k ↔ m.running k = true :=
  ⟨fun hk => (h.stored _ k hk).2, fun hk => (h.live k hk).2⟩

theorem Frames.stored {m m' : Manager} (hf : Frames m m') (h : m.Stored)
    (hestab : ∀ u, (m'.user u).estabSession = none)
    (hcreating : ∀ k, m'.work = some (.creating k) → k < m'.made ∧ m.running k = false) :
    m'.Stored where
  stored c k hk := by
    rw [hf.sessions] at hk
    obtain ⟨hc, hrunning⟩ := h.stored c k hk
    rw [(hf.fields k (h.live k hrunning).1).1, hf.running]
    exact ⟨hc, hrunning⟩
  live k hk := by
    rw [hf.running] at hk
    obtain ⟨hmade, hsessions⟩ := h.live k hk
    rw [(hf.fields k hmade).1, hf.sessions]
    exact ⟨hmade.trans_le hf.made, hsessions⟩
  estab := hestab
  creating k hk := by
    rw [hf.running]
    exact hcreating k hk

theorem Frames.hashed {m m' : Manager} (hf : Frames m m') (h : m.Listed) (key : List UInt8)
    (k : Nat) (hk : m'.sessionHash key = some k) :
    (m'.session k).hashKey = key ∧ m'.running k = true := by
  rw [hf.sessionHash] at hk
  obtain ⟨hkey, hrunning⟩ := h.hashed key k hk
  rw [(hf.fields k (h.live k hrunning).1).2, hf.running]
  exact ⟨hkey, hrunning⟩

theorem stored_return {m : Manager} (h : m.Stored) (k : Option Nat) : (m.return_ k).Stored :=
  (frames_return m k).stored h h.estab (fun _ hk => by simp [return_] at hk)

theorem stored_hold {m : Manager} (h : m.Stored) (k : Nat) : (m.hold k).Stored :=
  (frames_hold m k).stored h h.estab (fun _ hk => by simp [hold] at hk)

theorem stored_close {m : Manager} (h : m.Stored) (k : Nat) : (m.close k).Stored :=
  (frames_close m k).stored h h.estab h.creating

theorem stored_copyRand1 {m : Manager} (h : m.Stored) (k : Nat) (ar : ClientAuthRequest) :
    (m.copyRand1 k ar).Stored :=
  (frames_copyRand1 m k ar).stored h h.estab h.creating

theorem stored_clientUserLookUp {m : Manager} (h : m.Stored) (username : List UInt8) :
    (m.clientUserLookUp username).2.Stored := by
  refine (frames_clientUserLookUp m username).stored h (fun u => ?_) ?_
  · unfold clientUserLookUp
    split
    · exact h.estab u
    · by_cases hu : u = m.usersMade
      · simp [hu]
      · simpa [hu] using h.estab u
  · unfold clientUserLookUp
    split
    · exact h.creating
    · exact h.creating

theorem stored_createSession {m : Manager} (h : m.Stored) (u : Nat) (addr : List UInt8)
    (ar : ClientAuthRequest) : (m.createSession u addr ar).Stored := by
  refine (frames_createSession m u addr ar).stored h (fun v => ?_) (fun k hk => ?_)
  · by_cases hv : v = u
    · simpa [createSession, hv] using h.estab u
    · simpa [createSession, hv] using h.estab v
  · have hmade : m.made = k := by simpa [createSession] using hk
    subst hmade
    refine ⟨by simp [createSession], ?_⟩
    cases hr : m.running m.made with
    | false => rfl
    | true => exact absurd (h.live _ hr).1 (Nat.lt_irrefl _)

theorem proceed_asking_eq {m : Manager} (h : m.Stored) (addr : List UInt8)
    (ar : ClientAuthRequest) :
    m.proceed (.asking addr ar) =
      match m.users ar.username with
      | none => (m.clientUserLookUp ar.username).2.createSession m.usersMade addr ar
      | some u =>
        match (m.user u).authSession with
        | some k =>
          if (m.session k).addr = addr then (m.copyRand1 k ar).hold k
          else (m.close k).createSession u addr ar
        | none => m.createSession u addr ar := by
  cases hu : m.users ar.username with
  | none => simp [proceed, clientUserLookUp, hu]
  | some u =>
    cases hs : (m.user u).authSession <;>
      simp [proceed, clientUserLookUp, hu, hs, h.estab u]

theorem proceed_asking_cases {m : Manager} (h : m.Stored) (addr : List UInt8)
    (ar : ClientAuthRequest) :
    (∃ k, m.proceed (.asking addr ar) = (m.copyRand1 k ar).hold k ∧
        m.authRunning addr ar = m.running k) ∨
      m.authRunning addr ar = true ∧ (m.proceed (.asking addr ar)).Stored ∧
        ∃ k, (m.proceed (.asking addr ar)).work = some (.creating k) := by
  rw [proceed_asking_eq h, authRunning]
  cases m.users ar.username with
  | none => exact .inr ⟨rfl, stored_createSession (stored_clientUserLookUp h _) _ addr ar, _, rfl⟩
  | some u =>
    simp only [Option.all_some]
    cases hk : (m.user u).authSession with
    | none => exact .inr ⟨rfl, stored_createSession h _ addr ar, _, rfl⟩
    | some k =>
      simp only [Option.all_some]
      by_cases haddr : (m.session k).addr = addr
      · exact .inl ⟨k, if_pos haddr, by simp [haddr]⟩
      · rw [if_neg haddr]
        exact .inr ⟨by simp [haddr], stored_createSession (stored_close h _) _ addr ar, _, rfl⟩

theorem stored_proceed_asking {m : Manager} (h : m.Stored) (addr : List UInt8)
    (ar : ClientAuthRequest) : (m.proceed (.asking addr ar)).Stored := by
  obtain ⟨k, hk, -⟩ | ⟨-, hstored, -⟩ := proceed_asking_cases h addr ar
  · rw [hk]
    exact stored_hold (stored_copyRand1 h k ar) k
  · exact hstored

theorem stored_storeSession {m : Manager} (h : m.Stored) {k : Nat}
    (hwork : m.work = some (.creating k)) (hfresh : m.fresh (.creating k) = true) :
    ((m.storeSession k).hold k).Stored := by
  have hfree : m.sessions (m.session k).cid = none := by simpa [fresh] using hfresh
  obtain ⟨hmade, -⟩ := h.creating k hwork
  refine ⟨fun c j hj => ?_, fun j hj => ?_, h.estab, fun j hj => by simp [hold] at hj⟩
  · by_cases hc : c = (m.session k).cid
    · have hjk : k = j := by simpa [storeSession, hold, hc] using hj
      subst hjk
      simp [storeSession, hold, hc]
    · obtain ⟨hcj, hrunning⟩ := h.stored c j (by simpa [storeSession, hold, hc] using hj)
      by_cases hjk : j = k
      · simp [storeSession, hold, hjk, ← hcj]
      · simp [storeSession, hold, hjk, hcj, hrunning]
  · by_cases hjk : j = k
    · simp [storeSession, hold, hjk, hmade]
    · obtain ⟨hmadej, hsessions⟩ := h.live j (by simpa [storeSession, hold, hjk] using hj)
      have hcid : (m.session j).cid ≠ (m.session k).cid := by
        intro heq
        rw [heq, hfree] at hsessions
        cases hsessions
      exact ⟨hmadej, by simpa [storeSession, hold, hcid] using hsessions⟩

theorem hashed_storeSession {m : Manager} (h : m.Listed) (k : Nat) (key : List UInt8) (j : Nat)
    (hj : ((m.storeSession k).hold k).sessionHash key = some j) :
    (((m.storeSession k).hold k).session j).hashKey = key ∧
      ((m.storeSession k).hold k).running j = true := by
  by_cases hkey : key = (m.session k).hashKey
  · have hjk : k = j := by simpa [storeSession, hold, hkey] using hj
    subst hjk
    simp [storeSession, hold, hkey]
  · obtain ⟨hkj, hrunning⟩ := h.hashed key j (by simpa [storeSession, hold, hkey] using hj)
    by_cases hjk : j = k
    · simp [storeSession, hold, hjk, ← hkj]
    · simp [storeSession, hold, hjk, hkj, hrunning]

theorem clientTryUpdateIp_cid (m : Manager) (k : Nat) (addr : List UInt8) (j : Nat) :
    ((m.clientTryUpdateIp k addr).session j).cid = (m.session j).cid := by
  unfold clientTryUpdateIp
  split
  · by_cases hj : j = k
    · simp [hj]
    · simp [hj]
  · rfl

theorem clientTryUpdateIp_frame (m : Manager) (k : Nat) (addr : List UInt8) :
    (m.clientTryUpdateIp k addr).sessions = m.sessions ∧
      (m.clientTryUpdateIp k addr).running = m.running ∧
      (m.clientTryUpdateIp k addr).made = m.made ∧
      (m.clientTryUpdateIp k addr).user = m.user := by
  unfold clientTryUpdateIp
  split <;> exact ⟨rfl, rfl, rfl, rfl⟩

theorem stored_clientTryUpdateIp {m : Manager} (h : m.Stored) (k : Nat) (addr : List UInt8) :
    ((m.clientTryUpdateIp k addr).hold k).Stored := by
  obtain ⟨hsessions, hrunning, hmade, huser⟩ := clientTryUpdateIp_frame m k addr
  refine ⟨fun c j hj => ?_, fun j hj => ?_, fun u => ?_, fun j hj => by simp [hold] at hj⟩
  · simp only [hold, hsessions, hrunning, clientTryUpdateIp_cid] at hj ⊢
    exact h.stored c j hj
  · simp only [hold, hsessions, hrunning, hmade, clientTryUpdateIp_cid] at hj ⊢
    exact h.live j hj
  · simp only [hold, huser]
    exact h.estab u

theorem hashed_clientTryUpdateIp {m : Manager} (h : m.Listed) {k : Nat}
    (hrunning : m.running k = true) (addr key' : List UInt8) (j : Nat)
    (hj : (m.clientTryUpdateIp k addr).sessionHash key' = some j) :
    ((m.clientTryUpdateIp k addr).session j).hashKey = key' ∧
      (m.clientTryUpdateIp k addr).running j = true := by
  by_cases haddr : (m.session k).addr = addr
  · simp only [clientTryUpdateIp, ne_eq, haddr, not_true_eq_false, if_false] at hj ⊢
    exact h.hashed key' j hj
  · simp only [clientTryUpdateIp, ne_eq, haddr, not_false_eq_true, if_true] at hj ⊢
    generalize sessionHashKey addr (m.user (m.session k).user).username = key at hj ⊢
    by_cases hnew : key' = key
    · have hjk : k = j := by simpa [hnew] using hj
      subst hjk
      simp [hnew, hrunning]
    · by_cases hold : key' = (m.session k).hashKey
      · subst hold
        simp [hnew] at hj
      · obtain ⟨hkj, hrunningj⟩ := h.hashed key' j (by simpa [hnew, hold] using hj)
        have hjk : j ≠ k := by
          rintro rfl
          exact hold hkj.symm
        simp [hjk, hkj, hrunningj]

theorem stored_terminate {m : Manager} (h : m.Stored) {k : Nat} (hrunning : m.running k = true)
    (count : Int) :
    Stored { m.deleteSession k with
      sessionCount := count, running := Function.update m.running k false } := by
  have hstored := (h.live k hrunning).2
  refine ⟨fun c j hj => ?_, fun j hj => ?_, h.estab, fun j hj => ?_⟩
  · by_cases hc : c = (m.session k).cid
    · simp [deleteSession, hc] at hj
    · obtain ⟨hcj, hrunningj⟩ := h.stored c j (by simpa [deleteSession, hc] using hj)
      have hjk : j ≠ k := by
        rintro rfl
        exact hc hcj.symm
      exact ⟨hcj, by simpa [hjk] using hrunningj⟩
  · have hjk : j ≠ k := by
      rintro rfl
      simp at hj
    obtain ⟨hmade, hsessions⟩ := h.live j (by simpa [hjk] using hj)
    have hcid : (m.session j).cid ≠ (m.session k).cid := by
      intro heq
      rw [heq, hstored] at hsessions
      exact hjk (Option.some.inj hsessions).symm
    exact ⟨hmade, by simpa [deleteSession, hcid] using hsessions⟩
  · obtain ⟨hmade, hrunningj⟩ := h.creating j hj
    have hjk : j ≠ k := by
      rintro rfl
      rw [hrunning] at hrunningj
      cases hrunningj
    exact ⟨hmade, by simpa [hjk] using hrunningj⟩

theorem hashed_terminate {m : Manager} (h : m.Listed) (k : Nat) (key : List UInt8) (j : Nat)
    (hj : (m.deleteSession k).sessionHash key = some j) :
    (m.session j).hashKey = key ∧ Function.update m.running k false j = true := by
  by_cases hkey : key = (m.session k).hashKey
  · simp [deleteSession, hkey] at hj
  · obtain ⟨hkj, hrunningj⟩ := h.hashed key j (by simpa [deleteSession, hkey] using hj)
    have hjk : j ≠ k := by
      rintro rfl
      exact hkey hkj.symm
    exact ⟨hkj, by simpa [hjk] using hrunningj⟩

theorem stored_clientSessionGet {little : Bool} {m m' : Manager} {buf addr : List UInt8}
    (h : m.Stored) (hget : m.clientSessionGet little buf addr = some m') :
    m'.Stored ∧ m'.HandsOut := by
  have hwait : ∀ w, (∀ k, w ≠ .creating k) → Stored { m with work := some w } := fun w hw =>
    ⟨h.stored, h.live, h.estab, fun k hk => absurd (Option.some.inj hk) (hw k)⟩
  obtain rfl | ⟨key, k, ar, -, rfl⟩ | ⟨ar, -, rfl⟩ | ⟨c, k, -, rfl⟩ :=
    clientSessionGet_cases hget
  · exact ⟨stored_return h none, by simp [HandsOut, return_]⟩
  · exact ⟨hwait _ (by simp), by simp [HandsOut]⟩
  · exact ⟨hwait _ (by simp), by simp [HandsOut]⟩
  · exact ⟨hwait _ (by simp), by simp [HandsOut]⟩

theorem listed_clientSessionGet {little : Bool} {m m' : Manager} {buf addr : List UInt8}
    (h : m.Listed) (hget : m.clientSessionGet little buf addr = some m') : m'.Listed := by
  have hframes := (clientSessionGet_spec hget).1
  refine ⟨(stored_clientSessionGet h.toStored hget).1, hframes.hashed h, fun k hk => ?_⟩
  rw [hframes.running]
  obtain rfl | ⟨key, j, ar, hlook, rfl⟩ | ⟨ar, -, rfl⟩ | ⟨c, j, hlook, rfl⟩ :=
    clientSessionGet_cases hget
  · cases hk
  · cases hk
    exact (h.hashed key k hlook).2
  · cases hk
  · cases hk
    exact (h.stored c k hlook).2

theorem stored_proceed {m : Manager} (h : m.Stored) {w : Work} (hw : m.work = some w)
    (hfresh : m.fresh w = true) : (m.proceed w).Stored := by
  cases w with
  | asking addr ar => exact stored_proceed_asking h addr ar
  | keyed k ar => exact stored_return (stored_copyRand1 h k ar) _
  | creating k => exact stored_storeSession h hw hfresh
  | found k addr => exact stored_clientTryUpdateIp h k addr
  | returning k => exact stored_return h _

theorem held_proceed {m : Manager} {w : Work} {k : Nat} (hw : w.session = some k) :
    (m.proceed w).running = m.running ∧
      ((m.proceed w).held = some k ∨ (m.proceed w).work = none ∧ (m.proceed w).got = some k) := by
  cases w with
  | keyed j ar =>
    cases hw
    exact ⟨rfl, .inr ⟨rfl, rfl⟩⟩
  | found _ addr =>
    cases hw
    exact ⟨(clientTryUpdateIp_frame m k addr).2.1, .inl rfl⟩
  | returning j =>
    cases hw
    exact ⟨rfl, .inr ⟨rfl, rfl⟩⟩
  | asking addr ar => cases hw
  | creating j => cases hw

theorem listed_proceed {m : Manager} (h : m.Listed) {w : Work} (hw : m.work = some w)
    (hfresh : m.fresh w = true) (hanswerable : m.answerable w = true) :
    (m.proceed w).Listed := by
  have hstored := stored_proceed h.toStored hw hfresh
  cases w with
  | asking addr ar =>
    obtain ⟨k, hk, hauth⟩ | ⟨-, -, k, hk⟩ := proceed_asking_cases h.toStored addr ar
    · rw [hk] at hstored ⊢
      refine ⟨hstored, ((frames_copyRand1 m k ar).trans (frames_hold _ k)).hashed h,
        fun j hj => ?_⟩
      cases hj
      exact hauth.symm.trans hanswerable
    · refine ⟨hstored, fun key j hj => ?_, fun j hj => ?_⟩
      · exact (frames_proceed_asking m addr ar).hashed h key j hj
      · rw [held, hk] at hj
        cases hj
  | keyed k ar =>
    refine ⟨hstored, ((frames_copyRand1 m k ar).trans (frames_return _ _)).hashed h,
      fun j hj => by cases hj⟩
  | creating k =>
    refine ⟨hstored, hashed_storeSession h k, fun j hj => ?_⟩
    cases hj
    simp [proceed, storeSession, hold]
  | found k addr =>
    have hrunning := h.kept k (by rw [held, hw]; rfl)
    refine ⟨hstored, hashed_clientTryUpdateIp h hrunning addr, fun j hj => ?_⟩
    cases hj
    exact ((clientTryUpdateIp_frame m k addr).2.1 ▸ hrunning :)
  | returning k =>
    exact ⟨hstored, (frames_return m _).hashed h, fun j hj => by cases hj⟩

end Manager

open Manager

/-- What a step of `ClientSessionGet` must show. -/
def HandsOutStep (_ : Manager) : ManagerAct → Manager → Prop
  | .datagram .. | .proceed => HandsOut
  | .close _ | .terminate _ => fun _ => True

/-- No session is stored under a number that another one has. -/
def Fresh (m : Manager) : ManagerAct → Prop
  | .proceed => m.work.all m.fresh = true
  | _ => True

/-- The user of the request has no deleted session at its address, and no session is deleted while
a call that has found it is under way. -/
def Answerable (m : Manager) : ManagerAct → Prop
  | .proceed => m.work.all m.answerable = true
  | .terminate k => m.held ≠ some k
  | _ => True

instance (m : Manager) (a : ManagerAct) : Decidable (Fresh m a) := by
  cases a <;> unfold Fresh <;> infer_instance

instance (m : Manager) (a : ManagerAct) : Decidable (Answerable m a) := by
  cases a <;> unfold Answerable <;> infer_instance

theorem managerStep_stored {little : Bool} {m m' : Manager} {a : ManagerAct} (h : m.Stored)
    (hfresh : Fresh m a) (hstep : managerStep little m a = some m') : m'.Stored := by
  cases a with
  | datagram buf addr =>
    simp only [managerStep, Option.isNone_iff_eq_none] at hstep
    split at hstep
    · exact (stored_clientSessionGet h hstep).1
    · cases hstep
  | proceed =>
    simp only [managerStep, Option.map_eq_some_iff] at hstep
    obtain ⟨w, hw, rfl⟩ := hstep
    exact stored_proceed h hw (by simpa [Fresh, hw] using hfresh)
  | close k =>
    simp only [managerStep] at hstep
    split at hstep
    · cases hstep
      exact stored_close h k
    · cases hstep
  | terminate k =>
    simp only [managerStep, Bool.and_eq_true] at hstep
    split at hstep
    · rename_i hrunning
      cases hstep
      exact stored_terminate h hrunning.1 _
    · cases hstep

theorem managerStep_listed {little : Bool} {m m' : Manager} {a : ManagerAct} (h : m.Listed)
    (hfresh : Fresh m a) (hanswerable : Answerable m a)
    (hstep : managerStep little m a = some m') : m'.Listed := by
  have hstored := managerStep_stored h.toStored hfresh hstep
  cases a with
  | datagram buf addr =>
    simp only [managerStep, Option.isNone_iff_eq_none] at hstep
    split at hstep
    · exact listed_clientSessionGet h hstep
    · cases hstep
  | proceed =>
    simp only [managerStep, Option.map_eq_some_iff] at hstep
    obtain ⟨w, hw, rfl⟩ := hstep
    exact listed_proceed h hw (by simpa [Fresh, hw] using hfresh)
      (by simpa [Answerable, hw] using hanswerable)
  | close k =>
    simp only [managerStep] at hstep
    split at hstep
    · cases hstep
      exact ⟨hstored, (frames_close m k).hashed h, h.kept⟩
    · cases hstep
  | terminate k =>
    simp only [managerStep] at hstep
    split at hstep
    · cases hstep
      refine ⟨hstored, hashed_terminate h k, fun j hj => ?_⟩
      have hjk : j ≠ k := by
        rintro rfl
        exact hanswerable hj
      simpa [hjk] using h.kept j hj
    · cases hstep

theorem handsOut_of_listed {little : Bool} {m m' : Manager} {a : ManagerAct} (h : m.Listed)
    (hfresh : Fresh m a) (hanswerable : Answerable m a)
    (hstep : managerStep little m a = some m') : HandsOutStep m a m' := by
  have hlisted := managerStep_listed h hfresh hanswerable hstep
  cases a with
  | datagram buf addr =>
    simp only [managerStep, Option.isNone_iff_eq_none] at hstep
    split at hstep
    · exact (stored_clientSessionGet h.toStored hstep).2
    · cases hstep
  | proceed =>
    simp only [managerStep, Option.map_eq_some_iff] at hstep
    obtain ⟨w, hw, rfl⟩ := hstep
    intro hdone k hk
    rw [hlisted.registered_iff]
    cases hsession : w.session with
    | some j =>
      obtain ⟨hrunning, hheld | ⟨-, hgot⟩⟩ := held_proceed hsession
      · rw [held, hdone] at hheld
        cases hheld
      · obtain rfl : j = k := Option.some.inj (hgot.symm.trans hk)
        rw [hrunning]
        exact h.kept j (by rw [held, hw]; exact hsession)
    | none =>
      cases w with
      | asking addr ar =>
        obtain ⟨j, hj, -⟩ | ⟨-, -, j, hj⟩ := proceed_asking_cases h.toStored addr ar
        · rw [hj] at hdone
          cases hdone
        · rw [hj] at hdone
          cases hdone
      | creating j => cases hdone
      | _ => cases hsession
  | close k => trivial
  | terminate k => trivial

def Manager.Doomed (m : Manager) : Prop := ∃ k, m.held = some k ∧ m.running k = false

theorem doomed_of_not_answerable {little : Bool} {m m' : Manager} {a : ManagerAct} (h : m.Listed)
    (hmiss : ¬ Answerable m a) (hstep : managerStep little m a = some m') : m'.Doomed := by
  cases a with
  | datagram buf addr => exact absurd trivial hmiss
  | proceed =>
    simp only [managerStep, Option.map_eq_some_iff] at hstep
    obtain ⟨w, hw, rfl⟩ := hstep
    simp only [Answerable, hw, Option.all_some, Bool.not_eq_true] at hmiss
    cases w with
    | asking addr ar =>
      obtain ⟨k, hk, hauth⟩ | ⟨hauth, -⟩ := proceed_asking_cases h.toStored addr ar
      · refine ⟨k, by rw [hk]; rfl, ?_⟩
        rw [hk]
        exact hauth.symm.trans hmiss
      · simp only [answerable] at hmiss
        rw [hauth] at hmiss
        cases hmiss
    | _ => cases hmiss
  | close k => exact absurd trivial hmiss
  | terminate k =>
    simp only [managerStep] at hstep
    split at hstep
    · cases hstep
      exact ⟨k, not_not.mp hmiss, Function.update_self ..⟩
    · cases hstep

theorem doomed_of_handsOut {little : Bool} {m m' : Manager} {a : ManagerAct} (h : m.Stored)
    (hfresh : Fresh m a) (hdoomed : m.Doomed) (hstep : managerStep little m a = some m')
    (hshown : HandsOutStep m a m') : m'.Doomed := by
  obtain ⟨k, hheld, hdead⟩ := hdoomed
  obtain ⟨w, hw, hsession⟩ := Option.bind_eq_some_iff.mp hheld
  have hstored := managerStep_stored h hfresh hstep
  cases a with
  | datagram buf addr => simp [managerStep, hw] at hstep
  | proceed =>
    simp only [managerStep, hw, Option.map_some, Option.some.injEq] at hstep
    subst hstep
    obtain ⟨hrunning, hheld' | ⟨hdone, hgot⟩⟩ := held_proceed (m := m) hsession
    · exact ⟨k, hheld', by rw [hrunning, hdead]⟩
    · have hreg := (hstored.registered_iff k).mp (hshown hdone k hgot)
      rw [hrunning, hdead] at hreg
      cases hreg
  | close j =>
    simp only [managerStep, Option.ite_none_right_eq_some, Option.some.injEq] at hstep
    rw [← hstep.2]
    exact ⟨k, hheld, hdead⟩
  | terminate j =>
    simp only [managerStep, Option.ite_none_right_eq_some, Option.some.injEq] at hstep
    rw [← hstep.2]
    refine ⟨k, hheld, ?_⟩
    by_cases hkj : k = j
    · simp [hkj]
    · simpa [hkj] using hdead

theorem newUDPSessionManager_listed : newUDPSessionManager.Listed :=
  ⟨⟨fun _ _ h => (nomatch h), fun _ h => (nomatch h), fun _ => rfl, fun _ h => (nomatch h)⟩,
    fun _ _ h => (nomatch h), fun _ h => (nomatch h)⟩

/-- A well formed request for authentication, as `ClientSessionGet` checks it. -/
def IsAuthRequest (little : Bool) (buf : List UInt8) (ar : ClientAuthRequest) : Prop :=
  ∃ ucph : Ucph, ¬ buf.length < Ucph.getLen.toNat ∧ Ucph.unpack little buf = some ucph ∧
    ucph.clientSid = 0 ∧ ¬ (ucph.encrypt ≠ 0 ∨ ucph.command ≠ 242) ∧
    ¬ (ucph.paramLen.toUInt32 < ClientAuthRequest.getLen ∨
      buf.length < (ucph.hlen.toUInt32 + ClientAuthRequest.getLen).toNat) ∧
    ClientAuthRequest.unpack (buf.drop Ucph.getLen.toNat) = some ar ∧ ar.action = 3

/-- The request alone, with nothing between its accesses, is answered with a session that is
registered. -/
def Obtains (little : Bool) (m : Manager) (buf addr : List UInt8) : Prop :=
  ∃ n m' k, Run.run (managerStep little) m (.datagram buf addr :: List.replicate n .proceed) =
      some m' ∧
    m'.work = none ∧ m'.got = some k ∧ m'.sessions (m'.session k).cid = some k

theorem clientSessionGet_auth {little : Bool} {buf : List UInt8} {ar : ClientAuthRequest}
    (hreq : IsAuthRequest little buf ar) (m : Manager) (addr : List UInt8) :
    m.clientSessionGet little buf addr =
      match m.sessionHash (sessionHashKey addr ar.username) with
      | some k => some { m with work := some (.keyed k ar) }
      | none => some { m with work := some (.asking addr ar) } := by
  obtain ⟨ucph, hlen, hunpack, hsid, hcommand, hparam, har, haction⟩ := hreq
  rw [clientSessionGet, if_neg hlen, hunpack]
  cases hk : m.sessionHash (sessionHashKey addr ar.username) <;>
    simp only [hsid, if_true, hcommand, if_false, hparam, har, haction, ne_eq,
      not_true_eq_false, hk]

theorem run_proceed {little : Bool} {m : Manager} {w : Work} (hw : m.work = some w) (n : Nat) :
    Run.run (managerStep little) m (List.replicate (n + 1) .proceed) =
      Run.run (managerStep little) (m.proceed w) (List.replicate n .proceed) := by
  rw [List.replicate_succ, Run.run, managerStep, hw]
  rfl

theorem run_proceed_none {little : Bool} {m m' : Manager} (hw : m.work = none) {n : Nat}
    (h : Run.run (managerStep little) m (List.replicate n .proceed) = some m') : m' = m := by
  cases n with
  | zero => exact (Option.some.inj h).symm
  | succ n =>
    rw [List.replicate_succ, Run.run, managerStep, hw] at h
    cases h

/-- A client obtains a session unless its user was last authenticated from its own address and that
session is deleted. -/
theorem obtains_iff {little : Bool} {m : Manager} {buf addr : List UInt8}
    {ar : ClientAuthRequest} (h : m.Listed) (hwork : m.work = none)
    (hreq : IsAuthRequest little buf ar) :
    Obtains little m buf addr ↔
      m.sessionHash (sessionHashKey addr ar.username) ≠ none ∨ m.authRunning addr ar = true := by
  have hget := clientSessionGet_auth hreq m addr
  cases hhash : m.sessionHash (sessionHashKey addr ar.username) with
  | some k =>
    simp only [hhash] at hget
    have hask : managerStep little m (.datagram buf addr) =
        some { m with work := some (.keyed k ar) } := by simp [managerStep, hwork, hget]
    have hreg := (h.registered_iff k).mpr (h.hashed _ k hhash).2
    refine iff_of_true ⟨1, _, k, Run.run_cons.mpr ⟨_, hask, run_proceed rfl 0⟩, rfl, rfl, ?_⟩
      (.inl (by simp))
    simpa [proceed, return_, copyRand1, setSession] using hreg
  | none =>
    simp only [hhash] at hget
    have hask : managerStep little m (.datagram buf addr) =
        some { m with work := some (.asking addr ar) } := by simp [managerStep, hwork, hget]
    generalize hm₁ : { m with work := some (Work.asking addr ar) } = m₁ at hask
    have hwork₁ : m₁.work = some (.asking addr ar) := by rw [← hm₁]
    have hstored : m₁.Stored := managerStep_stored (a := .datagram buf addr) h.toStored trivial hask
    have hauth₁ : m₁.authRunning addr ar = m.authRunning addr ar := by rw [← hm₁]; rfl
    rw [← hauth₁]
    obtain ⟨k, hk, hauth⟩ | ⟨hauth, -, k, hk⟩ := proceed_asking_cases hstored addr ar
    · rw [hauth]
      have hrun : ∀ n, Run.run (managerStep little) m₁ (List.replicate (n + 2) .proceed) =
          Run.run (managerStep little) (((m₁.copyRand1 k ar).hold k).return_ (some k))
            (List.replicate n .proceed) := by
        intro n
        rw [run_proceed hwork₁ (n + 1), hk, run_proceed rfl n]
        rfl
      have hreg : (m₁.sessions ((((m₁.copyRand1 k ar).hold k).return_ (some k)).session k).cid =
          some k) ↔ m₁.running k = true := by
        rw [← hstored.registered_iff k]
        simp [return_, hold, copyRand1, setSession]
      constructor
      · rintro ⟨n, m', j, hrunj, hnone, hgot, hj⟩
        obtain ⟨_, hm, hrunj⟩ := Run.run_cons.mp hrunj
        obtain rfl := Option.some.inj (hask.symm.trans hm)
        obtain _ | _ | n := n
        · cases hrunj
          rw [hwork₁] at hnone
          cases hnone
        · rw [run_proceed hwork₁ 0, hk] at hrunj
          cases hrunj
          cases hnone
        · rw [hrun n] at hrunj
          obtain rfl := run_proceed_none rfl hrunj
          obtain rfl : k = j := Option.some.inj hgot
          exact .inr (hreg.mp hj)
      · rintro (hne | hrunning)
        · exact absurd rfl hne
        · exact ⟨2, _, k, Run.run_cons.mpr ⟨m₁, hask, hrun 0⟩, rfl, rfl, hreg.mpr hrunning⟩
    · refine iff_of_true ⟨3, (((m₁.proceed (.asking addr ar)).storeSession k).hold k).return_
        (some k), k, Run.run_cons.mpr ⟨m₁, hask, ?_⟩, rfl, rfl, ?_⟩ (.inr hauth)
      · rw [run_proceed hwork₁ 2, run_proceed hk 1, proceed, run_proceed rfl 0]
        rfl
      · simp [proceed, storeSession, return_, hold]

/-- The session of a user expires and is deleted, and the user authenticates from a second
address. -/
def movedUser : List ManagerAct :=
  [askSession 117 1, .proceed, .proceed, .proceed, .close 0, .terminate 0, askSession 117 2,
    .proceed, .proceed, .proceed]

/-- The datagram of `askSession`. -/
def authDatagram (u : UInt8) : List UInt8 :=
  (Ucph.newUcph 242 40 1 0 0).pack true ++ [3, 0, 0, 0, 1, 2, 3, 4, u] ++ List.replicate 31 0

def authOf (u : UInt8) : ClientAuthRequest :=
  { action := 3, version := 0, rand1 := [1, 2, 3, 4], username := u :: List.replicate 15 0
    uuid := List.replicate 16 0 }

theorem isAuthRequest_authDatagram : IsAuthRequest true (authDatagram 117) (authOf 117) :=
  ⟨(Ucph.newUcph 242 40 1 0 0), by decide +kernel⟩

end AlgorithmLib.Udp
