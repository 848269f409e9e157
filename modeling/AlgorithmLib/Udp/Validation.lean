import AlgorithmLib.Udp.Registered

/-!
What `ClientSessionGet` accepts without a session number. The header counts its length in words of
four bytes and the test of the datagram's length adds it to a number of bytes, so a request whose
last bytes are missing passes as well.
-/

set_option autoImplicit false

namespace AlgorithmLib.Udp

/-- A header and a whole authentication request whose fields are the datagram's bytes; the last byte
of the user name is its end. -/
def CompleteRequest (little : Bool) (buf : List UInt8) : Prop :=
  ∃ ucph ar, Ucph.unpack little buf = some ucph ∧ ucph.clientSid = 0 ∧ ucph.command = 242 ∧
    ucph.encrypt = 0 ∧ Ucph.getLen.toNat + ClientAuthRequest.getLen.toNat ≤ buf.length ∧
    ClientAuthRequest.unpack (buf.drop Ucph.getLen.toNat) = some ar ∧ ar.action = 3 ∧
    ar.rand1 = (buf.drop 16).take 4 ∧ ar.username = ((buf.drop 20).take 16).set 15 0 ∧
    ar.uuid = (buf.drop 36).take 16

def Unnumbered (little : Bool) (buf : List UInt8) : Prop :=
  ∀ ucph, Ucph.unpack little buf = some ucph → ucph.clientSid = 0

/-- `ClientSessionGet` reads nothing behind the datagram, and whatever happens to the sessions
meanwhile, it returns or makes a session without a number for complete requests only. -/
def Validates (little : Bool) (m : Manager) (buf addr : List UInt8) : Prop :=
  (m.clientSessionGet little buf addr).isSome = true ∧
    ∀ m' as t, m.clientSessionGet little buf addr = some m' →
      (∀ a ∈ as, ∀ buf addr, a ≠ .datagram buf addr) →
      Run.run (managerStep little) m' as = some t →
      t.work = none ∧ t.got.isSome = true ∨ m.made < t.made →
      Unnumbered little buf → CompleteRequest little buf

/-- An authentication request that ends too early, but not before the length that the test asks
for. -/
def ShortRequest (little : Bool) (buf : List UInt8) : Prop :=
  buf.length < 52 ∧ ∃ ucph, Ucph.unpack little buf = some ucph ∧ ucph.clientSid = 0 ∧
    ucph.command = 242 ∧ ucph.encrypt = 0 ∧ 40 ≤ ucph.paramLen.toNat ∧
    40 + ucph.hlen.toNat ≤ buf.length ∧ buf.getD 12 0 = 3

theorem unpack_isSome (little : Bool) (buf : List UInt8) (h : 12 ≤ buf.length) :
    ∃ ucph, Ucph.unpack little buf = some ucph := by
  match buf, h with
  | _ :: _ :: _ :: _ :: data, h =>
    have hdata : 8 ≤ data.length := by simpa using h
    simp only [Ucph.unpack, if_pos hdata]
    exact ⟨_, rfl⟩

theorem lengths_iff (buf : List UInt8) (ucph : Ucph) :
    ¬ (ucph.paramLen.toUInt32 < ClientAuthRequest.getLen ∨
        buf.length < (ucph.hlen.toUInt32 + ClientAuthRequest.getLen).toNat) ↔
      40 ≤ ucph.paramLen.toNat ∧ 40 + ucph.hlen.toNat ≤ buf.length := by
  have hhlen := ucph.hlen.toNat_lt
  have hgetLen : ClientAuthRequest.getLen.toNat = 40 := rfl
  rw [UInt32.lt_iff_toNat_lt, UInt32.toNat_add, UInt16.toNat_toUInt32, UInt8.toNat_toUInt32,
    hgetLen]
  omega

theorem unpackRequest_eq (buf : List UInt8) (h : 40 ≤ buf.length) :
    ∃ ar, ClientAuthRequest.unpack (buf.drop Ucph.getLen.toNat) = some ar ∧
      ar.action = buf.getD 12 0 ∧ ar.rand1 = (buf.drop 16).take 4 ∧
      ar.username = ((buf.drop 20).take 16).set 15 0 ∧
      (52 ≤ buf.length → ar.uuid = (buf.drop 36).take 16) := by
  have hgetLen : Ucph.getLen.toNat = 12 := rfl
  have hlen : 24 ≤ (buf.drop 12).length := by
    rw [List.length_drop]
    omega
  rw [hgetLen, ClientAuthRequest.unpack, if_pos hlen]
  refine ⟨_, rfl, ?_, ?_, ?_, fun hfull => ?_⟩
  · simp [List.getD_eq_getElem?_getD]
  · simp [List.drop_drop]
  · simp [List.drop_drop]
  · have huuid : 40 ≤ (buf.drop 12).length := by
      rw [List.length_drop]
      omega
    simp only [if_pos huuid, List.drop_drop]

/-- The tests of `ClientSessionGet`, in bytes. -/
theorem isAuthRequest_iff (little : Bool) (buf : List UInt8) :
    (∃ ar, IsAuthRequest little buf ar) ↔
      ∃ ucph, Ucph.unpack little buf = some ucph ∧ ucph.clientSid = 0 ∧ ucph.command = 242 ∧
        ucph.encrypt = 0 ∧ 40 ≤ ucph.paramLen.toNat ∧ 40 + ucph.hlen.toNat ≤ buf.length ∧
        buf.getD 12 0 = 3 := by
  constructor
  · rintro ⟨ar, ucph, -, hunpack, hsid, hcommand, hlens, har, haction⟩
    obtain ⟨hparam, hlen⟩ := (lengths_iff buf ucph).mp hlens
    obtain ⟨hencrypt, hcommand⟩ : ucph.encrypt = 0 ∧ ucph.command = 242 := by
      simpa only [ne_eq, not_or, not_not] using hcommand
    obtain ⟨ar', har', hfirst, -⟩ := unpackRequest_eq buf (by omega)
    rw [har, Option.some.injEq] at har'
    exact ⟨ucph, hunpack, hsid, hcommand, hencrypt, hparam, hlen,
      hfirst.symm.trans (har' ▸ haction)⟩
  · rintro ⟨ucph, hunpack, hsid, hcommand, hencrypt, hparam, hlen, haction⟩
    obtain ⟨ar, har, hfirst, -⟩ := unpackRequest_eq buf (by omega)
    have hgetLen : Ucph.getLen.toNat = 12 := rfl
    refine ⟨ar, ucph, by omega, hunpack, hsid, by simp [hcommand, hencrypt],
      (lengths_iff buf ucph).mpr ⟨hparam, hlen⟩, har, hfirst.trans haction⟩

theorem completeRequest_of_length {little : Bool} {buf : List UInt8} {ar : ClientAuthRequest}
    (h : IsAuthRequest little buf ar) (hlen : 52 ≤ buf.length) : CompleteRequest little buf := by
  obtain ⟨ucph, hunpack, hsid, hcommand, hencrypt, -, -, haction⟩ :=
    (isAuthRequest_iff little buf).mp ⟨ar, h⟩
  obtain ⟨ar', har, hfirst, hrand, husername, huuid⟩ := unpackRequest_eq buf (by omega)
  exact ⟨ucph, ar', hunpack, hsid, hcommand, hencrypt, hlen, har, hfirst.trans haction, hrand,
    husername, huuid hlen⟩

namespace Manager

variable {m m' : Manager}

theorem clientSessionGet_isSome (little : Bool) (m : Manager) (buf addr : List UInt8) :
    (m.clientSessionGet little buf addr).isSome = true := by
  unfold clientSessionGet
  split
  · rfl
  · rename_i hlen
    obtain ⟨ucph, hunpack⟩ := unpack_isSome little buf (Nat.le_of_not_lt hlen)
    simp only [hunpack]
    split
    · split
      · rfl
      · split
        · rfl
        · rename_i hlens
          obtain ⟨-, hlen⟩ := (lengths_iff buf ucph).mp hlens
          obtain ⟨ar, har, -⟩ := unpackRequest_eq buf (by omega)
          simp only [har]
          split
          · rfl
          · cases m.sessionHash (sessionHashKey addr ar.username) <;> rfl
    · cases m.sessions ucph.clientSid <;> rfl

theorem clientSessionGet_unnumbered {little : Bool} {buf addr : List UInt8}
    (hsid : Unnumbered little buf) (hget : m.clientSessionGet little buf addr = some m') :
    m' = m.return_ none ∨ ∃ ar, IsAuthRequest little buf ar := by
  unfold clientSessionGet at hget
  split at hget
  · exact .inl (Option.some.inj hget).symm
  · rename_i hlen
    obtain ⟨ucph, hunpack⟩ := unpack_isSome little buf (Nat.le_of_not_lt hlen)
    simp only [hunpack, hsid ucph hunpack, if_true] at hget
    split at hget
    · exact .inl (Option.some.inj hget).symm
    · rename_i hcommand
      split at hget
      · exact .inl (Option.some.inj hget).symm
      · rename_i hlens
        cases har : ClientAuthRequest.unpack (buf.drop Ucph.getLen.toNat) with
        | none => simp [har] at hget
        | some ar =>
          simp only [har] at hget
          split at hget
          · exact .inl (Option.some.inj hget).symm
          · rename_i haction
            exact .inr ⟨ar, ucph, hlen, hunpack, hsid ucph hunpack, hcommand, hlens, har,
              not_not.mp haction⟩

theorem returned_error {little : Bool} {as : List ManagerAct} {t : Manager}
    (has : ∀ a ∈ as, ∀ buf addr, a ≠ .datagram buf addr)
    (hrun : Run.run (managerStep little) (m.return_ none) as = some t) :
    t.work = none ∧ t.got = none ∧ t.made = m.made := by
  refine Run.run_invariant_of_meets (c := fun _ a => ∀ buf addr, a ≠ .datagram buf addr)
    (p := fun t => t.work = none ∧ t.got = none ∧ t.made = m.made) (fun s a t hs ha hstep => ?_)
    ⟨rfl, rfl, rfl⟩ (Run.meets_of_forall has _) hrun
  obtain ⟨hwork, hgot, hmade⟩ := hs
  cases a with
  | datagram buf addr => exact absurd rfl (ha buf addr)
  | proceed => simp [managerStep, hwork] at hstep
  | close k =>
    simp only [managerStep, Option.ite_none_right_eq_some, Option.some.injEq] at hstep
    rw [← hstep.2]
    exact ⟨hwork, hgot, hmade⟩
  | terminate k =>
    simp only [managerStep, Option.ite_none_right_eq_some, Option.some.injEq] at hstep
    rw [← hstep.2]
    exact ⟨hwork, hgot, hmade⟩

theorem proceed_answers (m : Manager) (addr : List UInt8) (ar : ClientAuthRequest) :
    (∃ k, (m.proceed (.asking addr ar)).work = some (.returning k)) ∨
      m.made < (m.proceed (.asking addr ar)).made := by
  have hmade : (m.clientUserLookUp ar.username).2.made = m.made := by
    unfold clientUserLookUp
    split <;> rfl
  rw [proceed]
  dsimp only
  generalize m.clientUserLookUp ar.username = r at hmade
  split
  · exact .inl ⟨_, rfl⟩
  · split
    · split
      · exact .inl ⟨_, rfl⟩
      · exact .inr (hmade ▸ Nat.lt_succ_self _)
    · exact .inr (hmade ▸ Nat.lt_succ_self _)

end Manager

theorem not_validates_of_short {little : Bool} {buf : List UInt8} (h : ShortRequest little buf)
    (m : Manager) (addr : List UInt8) : ¬ Validates little m buf addr := by
  intro ⟨_, hvalid⟩
  obtain ⟨hshort, hrequest⟩ := h
  obtain ⟨ar, hreq⟩ := (isAuthRequest_iff little buf).mpr hrequest
  obtain ⟨ucph, hunpack, hsid, -⟩ := hrequest
  have hunnumbered : Unnumbered little buf := by
    intro ucph' hucph
    rw [hunpack, Option.some.injEq] at hucph
    exact hucph ▸ hsid
  have hincomplete : ¬ CompleteRequest little buf := by
    intro ⟨_, _, _, _, _, _, hlen, _⟩
    exact absurd hlen (Nat.not_le_of_lt hshort)
  have hget := clientSessionGet_auth hreq m addr
  cases hhash : m.sessionHash (sessionHashKey addr ar.username) with
  | some k =>
    rw [hhash] at hget
    exact hincomplete (hvalid _ [.proceed] _ hget (by simp) rfl (.inl ⟨rfl, rfl⟩) hunnumbered)
  | none =>
    rw [hhash] at hget
    obtain ⟨k, hk⟩ | hmade :=
      Manager.proceed_answers { m with work := some (.asking addr ar) } addr ar
    · exact hincomplete (hvalid _ (List.replicate 2 .proceed) _ hget (by simp)
        ((run_proceed rfl 1).trans (run_proceed hk 0)) (.inl ⟨rfl, rfl⟩) hunnumbered)
    · exact hincomplete (hvalid _ [.proceed] _ hget (by simp) rfl (.inr hmade) hunnumbered)

/-- In every state, a datagram is validated exactly when it is no request that ends too early. -/
theorem client_session_get_validates (little : Bool) (m : Manager) (buf addr : List UInt8) :
    Validates little m buf addr ↔ ¬ ShortRequest little buf := by
  constructor
  · exact fun hvalid hshort => not_validates_of_short hshort m addr hvalid
  · intro hshort
    refine ⟨m.clientSessionGet_isSome little buf addr,
      fun m' as t hget has hrun hanswer hunnumbered => ?_⟩
    obtain rfl | ⟨ar, hreq⟩ := Manager.clientSessionGet_unnumbered hunnumbered hget
    · obtain ⟨-, hgot, hmade⟩ := Manager.returned_error has hrun
      rw [hgot, hmade] at hanswer
      simp at hanswer
    · refine completeRequest_of_length hreq (Nat.le_of_not_lt fun hlt => hshort ⟨hlt, ?_⟩)
      exact (isAuthRequest_iff little buf).mp ⟨ar, hreq⟩

/-- A request of which the last eight bytes are missing. -/
def shortDatagram : List UInt8 :=
  (Ucph.newUcph 242 40 1 0 0).pack true ++ [3, 0, 0, 0, 1, 2, 3, 4, 117] ++ List.replicate 23 0

/-- A new manager makes a session for it. -/
theorem client_session_get_accepts_short :
    shortDatagram.length = 44 ∧ ¬ Validates true newUDPSessionManager shortDatagram [1] :=
  ⟨by decide +kernel, not_validates_of_short
    ⟨by decide +kernel, Ucph.newUcph 242 40 1 0 0, by decide +kernel⟩ _ _⟩

end AlgorithmLib.Udp
