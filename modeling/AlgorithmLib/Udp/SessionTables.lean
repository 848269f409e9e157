import AlgorithmLib.Udp.Manager

set_option autoImplicit false

namespace AlgorithmLib.Udp

namespace Manager

/-- Each session is stored under its number and its key, and under nothing else. -/
structure Consistent (m : Manager) : Prop where
  stored : ∀ c k, m.sessions c = some k →
    (m.session k).cid = c ∧ c ≠ 0 ∧ m.sessionHash (m.session k).hashKey = some k
  present : ∀ key k, m.sessionHash key = some k → ∃ c, m.sessions c = some k
  distinct : ∀ c c' k k', m.sessions c = some k → m.sessions c' = some k' → k ≠ k' →
    (m.session k).cid ≠ (m.session k').cid ∧ (m.session k).hashKey ≠ (m.session k').hashKey

def unclaimed (m : Manager) : Work → Bool
  | .asking .. | .keyed .. | .returning _ => true
  | .creating k => (m.session k).cid != 0 && (m.sessions (m.session k).cid).isNone
  | .found k addr =>
    (m.session k).addr == addr ||
      m.sessions (m.session k).cid == some k &&
        (m.sessionHash (sessionHashKey addr (m.user (m.session k).user).username)).all (· == k)

structure Tables (m : Manager) : Prop where
  stored : ∀ c k, m.sessions c = some k →
    (m.session k).cid = c ∧ c ≠ 0 ∧ m.sessionHash (m.session k).hashKey = some k
  hashed : ∀ key k, m.sessionHash key = some k →
    (m.session k).hashKey = key ∧ m.sessions (m.session k).cid = some k
  live : ∀ k, m.running k = true → m.sessions (m.session k).cid = some k
  made : ∀ c k, m.sessions c = some k → k < m.made

/-- The key that `ClientSessionGet` did not find stays free until it stores the session. -/
def Awaits (m : Manager) : Option Work → Prop
  | some (.asking addr ar) => m.sessionHash (sessionHashKey addr ar.username) = none
  | some (.creating k) => k < m.made ∧ m.sessionHash (m.session k).hashKey = none
  | _ => True

theorem Tables.consistent {m : Manager} (h : m.Tables) : m.Consistent where
  stored := h.stored
  present key k hk := ⟨_, (h.hashed key k hk).2⟩
  distinct c c' k k' hk hk' hne := by
    obtain ⟨hc, -, hkey⟩ := h.stored c k hk
    obtain ⟨hc', -, hkey'⟩ := h.stored c' k' hk'
    constructor
    · intro heq
      rw [hc, hc'] at heq
      rw [heq, hk'] at hk
      exact hne (Option.some.inj hk).symm
    · intro heq
      rw [heq, hkey'] at hkey
      exact hne (Option.some.inj hkey).symm

/-- A step that leaves the tables, and the number and the key of every session there was. -/
structure Frames (m m' : Manager) : Prop where
  sessions : m'.sessions = m.sessions
  sessionHash : m'.sessionHash = m.sessionHash
  running : m'.running = m.running
  made : m.made ≤ m'.made
  fields : ∀ k < m.made,
    (m'.session k).cid = (m.session k).cid ∧ (m'.session k).hashKey = (m.session k).hashKey

theorem Frames.rfl {m : Manager} : Frames m m :=
  ⟨by simp, by simp, by simp, Nat.le_refl _, fun _ _ => ⟨by simp, by simp⟩⟩

theorem Frames.trans {m m' m'' : Manager} (h : Frames m m') (h' : Frames m' m'') :
    Frames m m'' where
  sessions := h'.sessions.trans h.sessions
  sessionHash := h'.sessionHash.trans h.sessionHash
  running := h'.running.trans h.running
  made := h.made.trans h'.made
  fields k hk :=
    have h₁ := h.fields k hk
    have h₂ := h'.fields k (hk.trans_le h.made)
    ⟨h₂.1.trans h₁.1, h₂.2.trans h₁.2⟩

theorem Frames.tables {m m' : Manager} (hf : Frames m m') (h : m.Tables) : m'.Tables where
  stored c k hk := by
    rw [hf.sessions] at hk
    have hfields := hf.fields k (h.made c k hk)
    rw [hfields.1, hfields.2, hf.sessionHash]
    exact h.stored c k hk
  hashed key k hk := by
    rw [hf.sessionHash] at hk
    obtain ⟨hkey, hsessions⟩ := h.hashed key k hk
    have hfields := hf.fields k (h.made _ k hsessions)
    rw [hfields.1, hfields.2, hf.sessions]
    exact ⟨hkey, hsessions⟩
  live k hk := by
    rw [hf.running] at hk
    have hsessions := h.live k hk
    rw [(hf.fields k (h.made _ k hsessions)).1, hf.sessions]
    exact hsessions
  made c k hk := by
    rw [hf.sessions] at hk
    exact (h.made c k hk).trans_le hf.made

theorem Frames.awaits {m m' : Manager} (hf : Frames m m') {w : Option Work}
    (h : m.Awaits w) : m'.Awaits w := by
  cases w with
  | none => trivial
  | some w =>
    cases w with
    | asking addr ar =>
      rw [Awaits, hf.sessionHash]
      exact h
    | creating k =>
      rw [Awaits, hf.sessionHash, (hf.fields k h.1).2]
      exact ⟨h.1.trans_le hf.made, h.2⟩
    | _ => trivial

theorem frames_setSession (m : Manager) (k : Nat) {r : ManagedSession}
    (hcid : r.cid = (m.session k).cid) (hkey : r.hashKey = (m.session k).hashKey) :
    Frames m (m.setSession k r) := by
  refine ⟨rfl, rfl, rfl, Nat.le_refl _, fun j _ => ?_⟩
  by_cases hj : j = k
  · subst hj
    simp [setSession, hcid, hkey]
  · simp [setSession, hj]

theorem frames_close (m : Manager) (k : Nat) : Frames m (m.close k) :=
  frames_setSession m k rfl rfl

theorem frames_copyRand1 (m : Manager) (k : Nat) (ar : ClientAuthRequest) :
    Frames m (m.copyRand1 k ar) :=
  frames_setSession m k rfl rfl

theorem frames_return (m : Manager) (k : Option Nat) : Frames m (m.return_ k) :=
  ⟨rfl, rfl, rfl, Nat.le_refl _, fun _ _ => ⟨rfl, rfl⟩⟩

theorem frames_hold (m : Manager) (k : Nat) : Frames m (m.hold k) :=
  ⟨rfl, rfl, rfl, Nat.le_refl _, fun _ _ => ⟨rfl, rfl⟩⟩

theorem frames_clientUserLookUp (m : Manager) (username : List UInt8) :
    Frames m (m.clientUserLookUp username).2 := by
  unfold clientUserLookUp
  split
  · exact .rfl
  · exact ⟨rfl, rfl, rfl, Nat.le_refl _, fun _ _ => ⟨rfl, rfl⟩⟩

theorem frames_createSession (m : Manager) (u : Nat) (addr : List UInt8)
    (ar : ClientAuthRequest) : Frames m (m.createSession u addr ar) := by
  refine ⟨rfl, rfl, rfl, Nat.le_succ _, fun k hk => ?_⟩
  simp [createSession, hk.ne]

theorem awaits_createSession {m : Manager} {addr : List UInt8} {ar : ClientAuthRequest}
    (h : m.Awaits (some (.asking addr ar))) (u : Nat) :
    (m.createSession u addr ar).Awaits (m.createSession u addr ar).work := by
  refine ⟨Nat.lt_succ_self _, ?_⟩
  simpa [createSession, Awaits] using h

theorem tables_storeSession {m : Manager} (h : m.Tables) {k : Nat}
    (hawaits : m.Awaits (some (.creating k))) (hcid : (m.session k).cid ≠ 0)
    (hfree : m.sessions (m.session k).cid = none) : (m.storeSession k).Tables := by
  obtain ⟨hmade, hkey⟩ := hawaits
  have hcids : ∀ j, m.sessions (m.session j).cid = some j →
      (m.session j).cid ≠ (m.session k).cid := by
    intro j hj heq
    rw [heq, hfree] at hj
    exact (nomatch hj)
  refine ⟨fun c j hj => ?_, fun key j hj => ?_, fun j hj => ?_, fun c j hj => ?_⟩
  · by_cases hc : c = (m.session k).cid
    · subst hc
      have hjk : k = j := by simpa [storeSession] using hj
      subst hjk
      exact ⟨rfl, hcid, by simp [storeSession]⟩
    · obtain ⟨hcj, hne, hhash⟩ := h.stored c j (by simpa [storeSession, hc] using hj)
      have hkeys : (m.session j).hashKey ≠ (m.session k).hashKey := by
        intro heq
        rw [heq, hkey] at hhash
        exact (nomatch hhash)
      exact ⟨hcj, hne, by simpa [storeSession, hkeys] using hhash⟩
  · by_cases hkeys : key = (m.session k).hashKey
    · subst hkeys
      have hjk : k = j := by simpa [storeSession] using hj
      subst hjk
      exact ⟨rfl, by simp [storeSession]⟩
    · obtain ⟨hkj, hsessions⟩ := h.hashed key j (by simpa [storeSession, hkeys] using hj)
      exact ⟨hkj, by simpa [storeSession, hcids j hsessions] using hsessions⟩
  · by_cases hjk : j = k
    · subst hjk
      simp [storeSession]
    · have hsessions := h.live j (by simpa [storeSession, hjk] using hj)
      simpa [storeSession, hcids j hsessions] using hsessions
  · by_cases hc : c = (m.session k).cid
    · subst hc
      have hjk : k = j := by simpa [storeSession] using hj
      exact hjk ▸ hmade
    · exact h.made c j (by simpa [storeSession, hc] using hj)

theorem tables_clientTryUpdateIp {m : Manager} (h : m.Tables) {k : Nat} {addr : List UInt8}
    (hunclaimed : m.unclaimed (.found k addr) = true) : (m.clientTryUpdateIp k addr).Tables := by
  by_cases haddr : (m.session k).addr = addr
  · simpa [clientTryUpdateIp, haddr] using h
  · simp only [unclaimed, beq_iff_eq, haddr, Bool.or_eq_true, Bool.and_eq_true,
      false_or] at hunclaimed
    obtain ⟨hstored, hfree⟩ := hunclaimed
    simp only [clientTryUpdateIp, ne_eq, haddr, not_false_eq_true, if_true]
    generalize sessionHashKey addr (m.user (m.session k).user).username = key at hfree ⊢
    have hother : ∀ j, j ≠ k → m.sessionHash key ≠ some j := by
      intro j hj heq
      rw [heq] at hfree
      exact hj (by simpa using hfree)
    have hown : ∀ j, j ≠ k → ∀ key', m.sessionHash key' = some j →
        key' ≠ (m.session k).hashKey ∧ key' ≠ key := by
      intro j hj key' heq
      refine ⟨fun hk => ?_, fun hk => hother j hj (hk ▸ heq)⟩
      rw [hk, (h.stored _ k hstored).2.2] at heq
      exact hj (Option.some.inj heq).symm
    refine ⟨fun c j hj => ?_, fun key' j hj => ?_, fun j hj => ?_, fun c j hj => ?_⟩
    · obtain ⟨hc, hne, hhash⟩ := h.stored c j hj
      by_cases hjk : j = k
      · subst hjk
        simp [hc, hne]
      · obtain ⟨hk₁, hk₂⟩ := hown j hjk _ hhash
        simp [hjk, hc, hne, hk₁, hk₂, hhash]
    · by_cases hk₂ : key' = key
      · subst hk₂
        have hjk : k = j := by simpa using hj
        subst hjk
        simpa using hstored
      · by_cases hk₁ : key' = (m.session k).hashKey
        · subst hk₁
          simp [hk₂] at hj
        · have hj' : m.sessionHash key' = some j := by simpa [hk₁, hk₂] using hj
          obtain ⟨hkj, hsessions⟩ := h.hashed key' j hj'
          have hjk : j ≠ k := by
            rintro rfl
            exact hk₁ hkj.symm
          simpa [hjk] using ⟨hkj, hsessions⟩
    · have hsessions := h.live j hj
      by_cases hjk : j = k
      · subst hjk
        simpa using hsessions
      · simpa [hjk] using hsessions
    · exact h.made c j hj

theorem tables_deleteSession {m : Manager} (h : m.Tables) {k : Nat} (hrunning : m.running k = true)
    (count : Int) :
    Tables { m.deleteSession k with
      sessionCount := count, running := Function.update m.running k false } := by
  have hstored := h.live k hrunning
  have hhash := (h.stored _ k hstored).2.2
  have hne : ∀ c j, c ≠ (m.session k).cid → m.sessions c = some j → j ≠ k := by
    rintro c j hc hj rfl
    exact hc (h.stored c j hj).1.symm
  have hcids : ∀ j, j ≠ k → m.sessions (m.session j).cid = some j →
      (m.session j).cid ≠ (m.session k).cid := by
    intro j hj hsessions heq
    rw [heq, hstored] at hsessions
    exact hj (Option.some.inj hsessions).symm
  refine ⟨fun c j hj => ?_, fun key j hj => ?_, fun j hj => ?_, fun c j hj => ?_⟩
  · by_cases hc : c = (m.session k).cid
    · simp [deleteSession, hc] at hj
    · have hj' : m.sessions c = some j := by simpa [deleteSession, hc] using hj
      obtain ⟨hcj, hc0, hhashj⟩ := h.stored c j hj'
      have hkeys : (m.session j).hashKey ≠ (m.session k).hashKey := by
        intro heq
        rw [heq, hhash] at hhashj
        exact hne c j hc hj' (Option.some.inj hhashj).symm
      exact ⟨hcj, hc0, by simpa [deleteSession, hkeys] using hhashj⟩
  · by_cases hkeys : key = (m.session k).hashKey
    · simp [deleteSession, hkeys] at hj
    · obtain ⟨hkj, hsessions⟩ := h.hashed key j (by simpa [deleteSession, hkeys] using hj)
      have hjk : j ≠ k := by
        rintro rfl
        exact hkeys hkj.symm
      exact ⟨hkj, by simpa [deleteSession, hcids j hjk hsessions] using hsessions⟩
  · by_cases hjk : j = k
    · simp [hjk] at hj
    · have hsessions := h.live j (by simpa [hjk] using hj)
      simpa [deleteSession, hcids j hjk hsessions] using hsessions
  · by_cases hc : c = (m.session k).cid
    · simp [deleteSession, hc] at hj
    · exact h.made c j (by simpa [deleteSession, hc] using hj)

theorem clientSessionGet_cases {little : Bool} {m m' : Manager} {buf addr : List UInt8}
    (h : m.clientSessionGet little buf addr = some m') :
    m' = m.return_ none ∨
      (∃ key k ar, m.sessionHash key = some k ∧ m' = { m with work := some (.keyed k ar) }) ∨
      (∃ ar, m.sessionHash (sessionHashKey addr ar.username) = none ∧
        m' = { m with work := some (.asking addr ar) }) ∨
      ∃ c k, m.sessions c = some k ∧ m' = { m with work := some (.found k addr) } := by
  unfold clientSessionGet at h
  split at h
  · exact .inl (Option.some.inj h).symm
  · cases hunpack : Ucph.unpack little buf with
    | none => simp [hunpack] at h
    | some ucph =>
      simp only [hunpack] at h
      by_cases hsid : ucph.clientSid = 0
      · rw [if_pos hsid] at h
        split at h
        · exact .inl (Option.some.inj h).symm
        · split at h
          · exact .inl (Option.some.inj h).symm
          · cases har : ClientAuthRequest.unpack (buf.drop Ucph.getLen.toNat) with
            | none => simp [har] at h
            | some ar =>
              simp only [har] at h
              split at h
              · exact .inl (Option.some.inj h).symm
              · cases hlook : m.sessionHash (sessionHashKey addr ar.username) with
                | some k =>
                  simp only [hlook] at h
                  exact .inr (.inl ⟨_, k, ar, hlook, (Option.some.inj h).symm⟩)
                | none =>
                  simp only [hlook] at h
                  exact .inr (.inr (.inl ⟨ar, hlook, (Option.some.inj h).symm⟩))
      · rw [if_neg hsid] at h
        cases hlook : m.sessions ucph.clientSid with
        | none =>
          simp only [hlook] at h
          exact .inl (Option.some.inj h).symm
        | some k =>
          simp only [hlook] at h
          exact .inr (.inr (.inr ⟨_, k, hlook, (Option.some.inj h).symm⟩))

theorem clientSessionGet_spec {little : Bool} {m m' : Manager} {buf addr : List UInt8}
    (h : m.clientSessionGet little buf addr = some m') : Frames m m' ∧ m'.Awaits m'.work := by
  have hwork : ∀ w, Frames m { m with work := w } := fun _ =>
    ⟨rfl, rfl, rfl, Nat.le_refl _, fun _ _ => ⟨rfl, rfl⟩⟩
  obtain rfl | ⟨key, k, ar, -, rfl⟩ | ⟨ar, hlook, rfl⟩ | ⟨c, k, -, rfl⟩ :=
    clientSessionGet_cases h
  · exact ⟨frames_return m none, trivial⟩
  · exact ⟨hwork _, trivial⟩
  · exact ⟨hwork _, hlook⟩
  · exact ⟨hwork _, trivial⟩

theorem frames_proceed_asking (m : Manager) (addr : List UInt8) (ar : ClientAuthRequest) :
    Frames m (m.proceed (.asking addr ar)) := by
  have hlook := frames_clientUserLookUp m ar.username
  simp only [proceed]
  generalize m.clientUserLookUp ar.username = found at hlook ⊢
  obtain ⟨u, m'⟩ := found
  split
  · exact hlook.trans (frames_hold m' _)
  · split
    · rename_i k hk
      split
      · exact (hlook.trans (frames_copyRand1 m' k ar)).trans (frames_hold _ _)
      · exact (hlook.trans (frames_close m' k)).trans (frames_createSession _ u addr ar)
    · exact hlook.trans (frames_createSession m' u addr ar)

theorem awaits_proceed_asking {m : Manager} {addr : List UInt8} {ar : ClientAuthRequest}
    (h : m.Awaits (some (.asking addr ar))) :
    (m.proceed (.asking addr ar)).Awaits (m.proceed (.asking addr ar)).work := by
  have hlook := frames_clientUserLookUp m ar.username
  simp only [proceed]
  generalize m.clientUserLookUp ar.username = found at hlook ⊢
  obtain ⟨u, m'⟩ := found
  split
  · trivial
  · split
    · rename_i k hk
      split
      · trivial
      · exact awaits_createSession ((hlook.trans (frames_close m' k)).awaits h) u
    · exact awaits_createSession (hlook.awaits h) u

theorem proceed_tables {m : Manager} (h : m.Tables) {w : Work} (hawaits : m.Awaits (some w))
    (hunclaimed : m.unclaimed w = true) :
    (m.proceed w).Tables ∧ (m.proceed w).Awaits (m.proceed w).work := by
  cases w with
  | asking addr ar =>
    exact ⟨(frames_proceed_asking m addr ar).tables h, awaits_proceed_asking hawaits⟩
  | keyed k ar =>
    exact ⟨((frames_copyRand1 m k ar).trans (frames_return _ _)).tables h, trivial⟩
  | returning k => exact ⟨(frames_return m _).tables h, trivial⟩
  | creating k =>
    obtain ⟨hcid, hfree⟩ : (m.session k).cid ≠ 0 ∧ m.sessions (m.session k).cid = none := by
      simpa [unclaimed] using hunclaimed
    exact ⟨(frames_hold _ _).tables (tables_storeSession h hawaits hcid hfree), trivial⟩
  | found k addr =>
    exact ⟨(frames_hold _ _).tables (tables_clientTryUpdateIp h hunclaimed), trivial⟩

theorem unclaimed_of_consistent {m : Manager} (h : m.Tables) {w : Work}
    (hawaits : m.Awaits (some w)) (hc : (m.proceed w).Consistent) : m.unclaimed w = true := by
  cases w with
  | asking addr ar => rfl
  | keyed k ar => rfl
  | returning k => rfl
  | creating k =>
    have hcid := (hc.stored (m.session k).cid k (by simp [proceed, storeSession, hold])).2.1
    have hfree : m.sessions (m.session k).cid = none := by
      cases hj : m.sessions (m.session k).cid with
      | none => rfl
      | some j =>
        -- the other session keeps its key and has lost its number
        obtain ⟨hcj, -, hhash⟩ := h.stored _ j hj
        have hkeys : (m.session j).hashKey ≠ (m.session k).hashKey := by
          intro heq
          rw [heq, hawaits.2] at hhash
          exact (nomatch hhash)
        obtain ⟨c, hcs⟩ := hc.present (m.session j).hashKey j
          (by simpa [proceed, storeSession, hold, hkeys] using hhash)
        by_cases hck : c = (m.session k).cid
        · have hjk : k = j := by simpa [proceed, storeSession, hold, hck] using hcs
          exact (hkeys (by rw [hjk])).elim
        · have hcs' : m.sessions c = some j := by
            simpa [proceed, storeSession, hold, hck] using hcs
          exact (hck ((h.stored c j hcs').1.symm.trans hcj)).elim
    simp [unclaimed, hcid, hfree]
  | found k addr =>
    by_cases haddr : (m.session k).addr = addr
    · simp [unclaimed, haddr]
    · simp only [proceed, clientTryUpdateIp, ne_eq, haddr, not_false_eq_true, if_true,
        hold] at hc
      simp only [unclaimed, Bool.or_eq_true, Bool.and_eq_true, beq_iff_eq]
      generalize sessionHashKey addr (m.user (m.session k).user).username = key at hc ⊢
      obtain ⟨c, hcs⟩ := hc.present key k (by simp)
      refine .inr ⟨(h.stored c k hcs).1 ▸ hcs, ?_⟩
      cases hj : m.sessionHash key with
      | none => rfl
      | some j =>
        by_cases hjk : j = k
        · simp [hjk]
        · -- the other session keeps its number and has lost its key
          obtain ⟨hkj, hsessions⟩ := h.hashed key j hj
          have hlost := (hc.stored _ j hsessions).2.2
          simp only [Function.update_of_ne hjk, hkj, Function.update_self,
            Option.some.injEq] at hlost
          exact absurd hlost.symm hjk

end Manager

open Manager

/-- The condition on a step: it does not write what another session has. -/
def Unclaimed (m : Manager) : ManagerAct → Prop
  | .proceed => ∀ w, m.work = some w → m.unclaimed w = true
  | _ => True

instance (m : Manager) (a : ManagerAct) : Decidable (Unclaimed m a) :=
  match a with
  | .proceed =>
    match h : m.work with
    | none => .isTrue fun w hw => by simp [h] at hw
    | some w =>
      decidable_of_iff (m.unclaimed w = true) (by simp [Unclaimed, h])
  | .datagram .. | .close _ | .terminate _ => .isTrue trivial

theorem managerStep_tables {little : Bool} {m m' : Manager} {a : ManagerAct}
    (h : m.Tables ∧ m.Awaits m.work) (hc : Unclaimed m a)
    (hstep : managerStep little m a = some m') : m'.Tables ∧ m'.Awaits m'.work := by
  obtain ⟨htables, hawaits⟩ := h
  cases a with
  | datagram buf addr =>
    simp only [managerStep] at hstep
    split at hstep
    · obtain ⟨hframes, hwork⟩ := clientSessionGet_spec hstep
      exact ⟨hframes.tables htables, hwork⟩
    · cases hstep
  | proceed =>
    simp only [managerStep, Option.map_eq_some_iff] at hstep
    obtain ⟨w, hw, rfl⟩ := hstep
    exact proceed_tables htables (hw ▸ hawaits) (hc w hw)
  | close k =>
    simp only [managerStep] at hstep
    split at hstep
    · cases hstep
      exact ⟨(frames_close m k).tables htables, (frames_close m k).awaits hawaits⟩
    · cases hstep
  | terminate k =>
    simp only [managerStep, Bool.and_eq_true] at hstep
    split at hstep
    · rename_i hrunning
      cases hstep
      refine ⟨tables_deleteSession htables hrunning.1 _, ?_⟩
      have hnone : ∀ key, m.sessionHash key = none →
          Function.update m.sessionHash (m.session k).hashKey none key = none := by
        intro key hkey
        by_cases hk : key = (m.session k).hashKey
        · simp [hk]
        · simpa [hk] using hkey
      cases hw : m.work with
      | none => simp [deleteSession, hw, Awaits]
      | some w =>
        rw [hw] at hawaits
        cases w with
        | asking addr ar => simpa [deleteSession, hw, Awaits] using hnone _ hawaits
        | creating j => simpa [deleteSession, hw, Awaits] using ⟨hawaits.1, hnone _ hawaits.2⟩
        | _ => simp [deleteSession, hw, Awaits]
    · cases hstep

theorem newUDPSessionManager_tables :
    newUDPSessionManager.Tables ∧ newUDPSessionManager.Awaits newUDPSessionManager.work :=
  ⟨⟨fun _ _ h => (nomatch h), fun _ _ h => (nomatch h), fun _ h => (nomatch h),
    fun _ _ h => (nomatch h)⟩, trivial⟩

/-- The tables agree in every state of a run that takes nothing of another session. -/
theorem udp_session_tables {little : Bool} {as : List ManagerAct} {m : Manager}
    (hmeets : Run.Meets (managerStep little) Unclaimed newUDPSessionManager as)
    (hrun : Run.run (managerStep little) newUDPSessionManager as = some m) : m.Consistent :=
  (Run.run_invariant_of_meets (p := fun m : Manager => m.Tables ∧ m.Awaits m.work)
    (fun _ _ _ h hc hstep => managerStep_tables h hc hstep) newUDPSessionManager_tables
    hmeets hrun).1.consistent

/-- A request for authentication of the user `u`, who has a name of one letter. -/
def askSession (u addr : UInt8) : ManagerAct :=
  .datagram
    ((Ucph.newUcph 242 40 1 0 0).pack true ++ [3, 0, 0, 0, 1, 2, 3, 4, u] ++
      List.replicate 31 0) [addr]

def useSession (cid : UInt32) (addr : UInt8) : ManagerAct :=
  .datagram (({ Ucph.newUcph 1 0 1 0 0 with clientSid := cid } : Ucph).pack true) [addr]

/-- A user comes back from a second address, the first session ends late, and the second moves. -/
def returningUser : List ManagerAct :=
  [askSession 117 1, .proceed, .proceed, .proceed, askSession 117 2, .proceed, .proceed, .proceed,
    .terminate 0, useSession 2 3, .proceed, .proceed]

/-- The run is possible, and the session that moved has its number and its new key. -/
theorem udp_session_tables_moved : ∃ m,
    Run.run (managerStep true) newUDPSessionManager returningUser = some m ∧
      m.sessions 2 = some 1 ∧ (m.session 1).addr = [3] ∧ m.Consistent := by
  have hmeets : Run.Meets (managerStep true) Unclaimed newUDPSessionManager returningUser := by
    decide +kernel
  have hshown : (Run.run (managerStep true) newUDPSessionManager returningUser).map
      (fun m => (m.sessions 2, (m.session 1).addr)) = some (some 1, [3]) := by
    decide +kernel
  cases hrun : Run.run (managerStep true) newUDPSessionManager returningUser with
  | none => simp [hrun] at hshown
  | some m =>
    simp only [hrun, Option.map_some, Option.some.injEq, Prod.mk.injEq] at hshown
    exact ⟨m, rfl, hshown.1, hshown.2, udp_session_tables hmeets hrun⟩

/-- The first session, closed but not yet deleted, moves to the address of the second and takes the
key of it. -/
theorem udp_session_tables_key_taken : ¬ ∀ (little : Bool) (as : List ManagerAct) (m : Manager),
    Run.run (managerStep little) newUDPSessionManager as = some m → m.Consistent := by
  intro h
  let as : List ManagerAct := [askSession 117 1, .proceed, .proceed, .proceed, askSession 117 2,
    .proceed, .proceed, .proceed, useSession 1 2, .proceed]
  have hshown : (Run.run (managerStep true) newUDPSessionManager as).map
      (fun m => (m.sessions 2, m.sessionHash (m.session 1).hashKey)) =
        some (some 1, some 0) := by
    decide +kernel
  cases hrun : Run.run (managerStep true) newUDPSessionManager as with
  | none => simp [hrun] at hshown
  | some m =>
    simp only [hrun, Option.map_some, Option.some.injEq, Prod.mk.injEq] at hshown
    have hown := ((h true as m hrun).stored 2 1 hshown.1).2.2
    rw [hshown.2] at hown
    exact absurd hown (by decide)

end AlgorithmLib.Udp
