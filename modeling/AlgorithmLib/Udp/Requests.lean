import AlgorithmLib.Udp.Exchange

set_option autoImplicit false

namespace AlgorithmLib.Udp

open ClientSession

theorem ofNat_eq_iff {a b : Nat} : UInt8.ofNat a = UInt8.ofNat b ↔ a % 256 = b % 256 := by
  rw [← UInt8.toNat_inj, UInt8.toNat_ofNat', UInt8.toNat_ofNat']

namespace Party

@[simp] theorem other_other (p : Party) : p.other.other = p := by
  cases p <;> rfl

@[simp] theorem other_ne (p : Party) : p.other ≠ p := by
  cases p <;> simp [other]

theorem eq_or_other (p q : Party) : p = q ∨ p = q.other := by
  cases p <;> cases q <;> simp [other]

end Party

/-- A datagram of the requests of a party, or of the replies to them: a request is not ahead of
the queue, and a reply is one to a request that was delivered. -/
structure Sound (little : Bool) (added : List (List UInt8)) (removed : Nat) (p : Party) (k : Nat)
    (d : Datagram) : Prop where
  request : d.isReply = false → d.dest = p.other →
    added[d.index]? = some d.bytes ∧ d.index ≤ removed
  reply : d.isReply = true → d.dest = p → d.index < k ∧
    ∃ ucph, Ucph.unpack little d.bytes = some ucph ∧ ucph.request = 0 ∧
      ucph.requestId = UInt8.ofNat d.index

/-- The requests of the party of which the other side has been given the first `k`. -/
structure Ordered (little : Bool) (s : Exchange) (p : Party) (k : Nat) : Prop where
  queue : (s.session p).sendQueue = (s.added p).drop (s.removed p)
  low : s.removed p ≤ k
  high : k ≤ s.removed p + 1
  made : k ≤ (s.added p).length
  myId : (s.session p).myRequestId = UInt8.ofNat (s.added p).length
  peerId : (s.session p.other).peerRequestId = UInt8.ofNat (k - 1)
  numbered : ∀ i msg, (s.added p)[i]? = some msg → IsNumbered little (UInt8.ofNat i) msg
  merged : (s.delivered p.other).destutter (· ≠ ·) = (s.added p).zipIdx.take k
  known : ∀ r ∈ s.delivered p.other, r ∈ (s.added p).zipIdx.take k
  sending : ∀ msg i, s.sending p = some (msg, i) →
    (s.added p)[i]? = some msg ∧ i ≤ s.removed p
  flight : ∀ d ∈ s.flight, Sound little (s.added p) (s.removed p) p k d

theorem ordered_init (little : Bool) (cid : Party → UInt32) (p : Party) :
    Ordered little (Exchange.init cid) p 0 where
  queue := rfl
  low := Nat.le_refl 0
  high := Nat.zero_le 1
  made := Nat.le_refl 0
  myId := rfl
  peerId := rfl
  numbered _ _ h := by cases h
  merged := rfl
  known _ h := absurd h List.not_mem_nil
  sending _ _ h := by cases h
  flight _ h := absurd h List.not_mem_nil

namespace Ordered

variable {little : Bool} {s t : Exchange} {p : Party} {k : Nat}

theorem frame (h : Ordered little s p k)
    (hqueue : (t.session p).sendQueue = (s.session p).sendQueue)
    (hmyId : (t.session p).myRequestId = (s.session p).myRequestId)
    (hpeerId : (t.session p.other).peerRequestId = (s.session p.other).peerRequestId)
    (hadded : t.added p = s.added p) (hremoved : t.removed p = s.removed p)
    (hdelivered : t.delivered p.other = s.delivered p.other)
    (hsending : ∀ msg i, t.sending p = some (msg, i) →
      (s.added p)[i]? = some msg ∧ i ≤ s.removed p)
    (hflight : ∀ d ∈ t.flight, d ∈ s.flight ∨ Sound little (s.added p) (s.removed p) p k d) :
    Ordered little t p k where
  queue := by rw [hqueue, hadded, hremoved, h.queue]
  low := hremoved ▸ h.low
  high := hremoved ▸ h.high
  made := hadded ▸ h.made
  myId := by rw [hmyId, hadded, h.myId]
  peerId := hpeerId.trans h.peerId
  numbered := hadded ▸ h.numbered
  merged := by rw [hdelivered, hadded, h.merged]
  known := by
    rw [hdelivered, hadded]
    exact h.known
  sending := by
    rw [hadded, hremoved]
    exact hsending
  flight d hd := by
    rw [hadded, hremoved]
    rcases hflight d hd with hold | hnew
    · exact h.flight d hold
    · exact hnew

/-- Requests are passed to `RequestAdd`. -/
theorem write (h : Ordered little s p k) {msgs : List (List UInt8)}
    (hqueue : (t.session p).sendQueue = (s.session p).sendQueue ++ msgs)
    (hmyId : (t.session p).myRequestId = UInt8.ofNat ((s.added p).length + msgs.length))
    (hpeerId : (t.session p.other).peerRequestId = (s.session p.other).peerRequestId)
    (hnumbered : ∀ i msg, msgs[i]? = some msg →
      IsNumbered little (UInt8.ofNat ((s.added p).length + i)) msg)
    (hadded : t.added p = s.added p ++ msgs) (hremoved : t.removed p = s.removed p)
    (hdelivered : t.delivered p.other = s.delivered p.other) (hsending : t.sending p = s.sending p)
    (hflight : t.flight = s.flight) : Ordered little t p k := by
  have htake : (s.added p ++ msgs).zipIdx.take k = (s.added p).zipIdx.take k := by
    rw [List.zipIdx_append, List.take_append_of_le_length (by simpa using h.made)]
  have hget : ∀ (i : Nat) msg, (s.added p)[i]? = some msg →
      (s.added p ++ msgs)[i]? = some msg := by
    intro i msg hi
    rw [List.getElem?_append_left (List.getElem?_eq_some_iff.mp hi).1, hi]
  refine ⟨?_, hremoved ▸ h.low, hremoved ▸ h.high, ?_, ?_, hpeerId.trans h.peerId, fun i msg hi => ?_,
    ?_, ?_, fun msg i hi => ?_, fun d hd => ?_⟩
  · rw [hqueue, hadded, hremoved, h.queue,
      List.drop_append_of_le_length (Nat.le_trans h.low h.made)]
  · rw [hadded, List.length_append]
    exact Nat.le_add_right_of_le h.made
  · rw [hmyId, hadded, List.length_append]
  · rw [hadded, List.getElem?_append] at hi
    split at hi
    · exact h.numbered i msg hi
    · next hge =>
      have hnew := hnumbered _ msg hi
      rwa [show (s.added p).length + (i - (s.added p).length) = i by omega] at hnew
  · rw [hdelivered, hadded, htake, h.merged]
  · rw [hdelivered, hadded, htake]
    exact h.known
  · rw [hsending] at hi
    rw [hadded, hremoved]
    exact ⟨hget i msg (h.sending msg i hi).1, (h.sending msg i hi).2⟩
  · rw [hadded, hremoved]
    have hd' := h.flight d (hflight ▸ hd)
    exact ⟨fun hreply hdest => ⟨hget _ _ (hd'.request hreply hdest).1, (hd'.request hreply hdest).2⟩,
      hd'.reply⟩

theorem last (h : Ordered little s p k) :
    ((s.delivered p.other).destutter (· ≠ ·)).getLast? =
      if k = 0 then none else (s.added p).zipIdx[k - 1]? := by
  have hlength : ((s.added p).zipIdx.take k).length = k := by
    rw [List.length_take, List.length_zipIdx, Nat.min_eq_left h.made]
  rw [h.merged, List.getLast?_eq_getElem?, hlength, List.getElem?_take]
  split
  · rw [if_neg (by omega)]
  · rw [if_pos (by omega)]

theorem zipIdx_get {added : List (List UInt8)} {i : Nat} {msg : List UInt8}
    (h : added[i]? = some msg) : added.zipIdx[i]? = some (msg, i) := by
  rw [List.getElem?_zipIdx, h, Option.map_some, Nat.zero_add]

theorem take_request (h : Ordered little s p k) {d : Datagram} (hd : d ∈ s.flight)
    (hreply : d.isReply = false) (hdest : d.dest = p.other)
    (htimely : ¬ (d.index + 255 ≤ s.removed p ∧ d.index + 255 < (s.added p).length)) :
    ∃ k' out, (s.session p.other).readMsg little d.bytes =
        some ({ s.session p.other with peerRequestId := UInt8.ofNat (k' - 1) }, out) ∧
      k ≤ k' ∧ k' ≤ s.removed p + 1 ∧ k' ≤ (s.added p).length ∧
      (out = none ∧ k' = k ∨ out = some d.bytes ∧ d.index < k' ∧
        (s.delivered p.other ++ [(d.bytes, d.index)]).destutter (· ≠ ·) =
          (s.added p).zipIdx.take k') := by
  obtain ⟨hget, hle⟩ := (h.flight d hd).request hreply hdest
  have hnumbered := h.numbered d.index d.bytes hget
  have hlt := (List.getElem?_eq_some_iff.mp hget).1
  have hlow := h.low
  have hhigh := h.high
  have hmade := h.made
  have hlast := h.last
  have hnext : (s.session p.other).peerRequestId + 1 = UInt8.ofNat (k - 1 + 1) := by
    rw [h.peerId, UInt8.ofNat_add]
    rfl
  have hsame : ∀ id, id = (s.session p.other).peerRequestId →
      s.session p.other = { s.session p.other with peerRequestId := id } := by
    rintro id rfl
    rfl
  rw [readMsg_request _ hnumbered, hnext]
  have hnew : d.index = k →
      (s.delivered p.other ++ [(d.bytes, d.index)]).destutter (· ≠ ·) =
        (s.added p).zipIdx.take (k + 1) := by
    intro hk
    rw [Stutter.destutter_concat_new, h.merged, List.take_add_one, ← hk, zipIdx_get hget]
    · rfl
    · intro a ha
      rw [hlast] at ha
      split at ha
      · cases ha
      · rintro rfl
        rw [List.getElem?_zipIdx, Option.map_eq_some_iff] at ha
        obtain ⟨m, -, heq⟩ := ha
        have := congrArg Prod.snd heq
        dsimp only at this
        omega
  split
  · next hid =>
    rw [h.peerId, ofNat_eq_iff] at hid
    by_cases hk : k = 0
    · -- nothing was delivered yet, and both numbers are 0
      have hindex : d.index = k := by omega
      refine ⟨k + 1, some d.bytes, ?_, by omega, by omega, by omega,
        Or.inr ⟨rfl, by omega, hnew hindex⟩⟩
      rw [← hsame]
      rw [h.peerId, hk]
    · have hindex : d.index = k - 1 := by omega
      refine ⟨k, some d.bytes, ?_, by omega, by omega, by omega, Or.inr ⟨rfl, by omega, ?_⟩⟩
      · rw [← hsame _ h.peerId.symm]
      · rw [if_neg hk, ← hindex, zipIdx_get hget] at hlast
        rw [Stutter.destutter_concat_old hlast (by simp), h.merged]
  · next hid =>
    rw [h.peerId, ofNat_eq_iff] at hid
    split
    · next hid' =>
      rw [ofNat_eq_iff] at hid'
      have hindex : d.index = k := by omega
      exact ⟨k + 1, some d.bytes, by rw [show k + 1 - 1 = k - 1 + 1 by omega], by omega, by omega,
        by omega, Or.inr ⟨rfl, by omega, hnew hindex⟩⟩
    · exact ⟨k, none, by rw [← hsame _ h.peerId.symm], by omega, by omega, by omega,
        Or.inl ⟨rfl, rfl⟩⟩

theorem deliver (h : Ordered little s p k) {k' : Nat} (hk : k ≤ k')
    (hhigh : k' ≤ s.removed p + 1) (hmade : k' ≤ (s.added p).length) {d : Datagram}
    {out : Option (List UInt8)} (hget : (s.added p)[d.index]? = some d.bytes)
    (hout : out = none ∧ k' = k ∨ out = some d.bytes ∧ d.index < k' ∧
      (s.delivered p.other ++ [(d.bytes, d.index)]).destutter (· ≠ ·) =
        (s.added p).zipIdx.take k')
    (hqueue : (t.session p).sendQueue = (s.session p).sendQueue)
    (hmyId : (t.session p).myRequestId = (s.session p).myRequestId)
    (hpeerId : (t.session p.other).peerRequestId = UInt8.ofNat (k' - 1))
    (hadded : t.added p = s.added p) (hremoved : t.removed p = s.removed p)
    (hdelivered : t.delivered p.other = s.delivered p.other ++ out.toList.map (·, d.index))
    (hsending : t.sending p = s.sending p) (hflight : t.flight = s.flight) :
    Ordered little t p k' := by
  refine ⟨?_, ?_, ?_, ?_, ?_, hpeerId, hadded ▸ h.numbered, ?_, ?_, ?_, fun x hx => ?_⟩
  · rw [hqueue, hadded, hremoved, h.queue]
  · rw [hremoved]
    exact Nat.le_trans h.low hk
  · rw [hremoved]
    exact hhigh
  · rw [hadded]
    exact hmade
  · rw [hmyId, hadded, h.myId]
  · rw [hdelivered, hadded]
    rcases hout with ⟨rfl, rfl⟩ | ⟨rfl, -, hmerged⟩
    · simpa using h.merged
    · exact hmerged
  · rw [hdelivered, hadded]
    intro r hr
    rcases List.mem_append.mp hr with hr | hr
    · exact (List.take_subset_take_left _ hk) (h.known r hr)
    · rcases hout with ⟨rfl, -⟩ | ⟨rfl, hlt, -⟩
      · simp at hr
      · simp only [Option.toList_some, List.map_cons, List.map_nil, List.mem_singleton] at hr
        subst hr
        refine List.mem_of_getElem? (i := d.index) ?_
        rw [List.getElem?_take_of_lt hlt, zipIdx_get hget]
  · rw [hsending, hadded, hremoved]
    exact h.sending
  · rw [hadded, hremoved]
    have hold := h.flight x (hflight ▸ hx)
    refine ⟨hold.request, fun hreply hdest => ?_⟩
    obtain ⟨hlt, hucph⟩ := hold.reply hreply hdest
    exact ⟨Nat.lt_of_lt_of_le hlt hk, hucph⟩

theorem take_reply (h : Ordered little s p k) {d : Datagram} (hd : d ∈ s.flight)
    (hreply : d.isReply = true) (hdest : d.dest = p)
    (htimely : ¬ (d.index + 255 ≤ s.removed p ∧ d.index + 255 < (s.added p).length)) :
    ∃ new out, (s.session p).readMsg little d.bytes = some (new, out) ∧
      out.toList.filter (Exchange.isRequest little) = [] ∧
      (new = s.session p ∨ new = (s.session p).requestDel ∧
        s.removed p < (s.added p).length ∧ s.removed p < k) := by
  obtain ⟨hlt, ucph, hunpack, hrequest, hid⟩ := (h.flight d hd).reply hreply hdest
  have hhigh := h.high
  have hmade := h.made
  have hno : Exchange.isRequest little d.bytes = false := by
    rw [Exchange.isRequest, hunpack]
    dsimp only
    rw [hrequest]
    decide
  rw [readMsg_reply _ hunpack hrequest]
  split
  · exact ⟨_, _, rfl, by simp [hno], Or.inl rfl⟩
  · rw [checkReplyId]
    cases hfront : (s.session p).sendQueue with
    | nil => exact ⟨_, _, rfl, rfl, Or.inl rfl⟩
    | cons msg msgs =>
      have hget : (s.added p)[s.removed p]? = some msg := by
        have hhead := congrArg List.head? (h.queue.symm.trans hfront)
        rw [List.head?_drop, List.head?_cons] at hhead
        exact hhead
      have hin := (List.getElem?_eq_some_iff.mp hget).1
      obtain ⟨front, hunpack', -, -, hid'⟩ := h.numbered _ msg hget
      simp only [hunpack', Option.map_some]
      by_cases heq : ucph.requestId = front.requestId
      · refine ⟨_, _, by rw [if_pos (decide_eq_true heq)], by simp [hno], Or.inr ⟨rfl, hin, ?_⟩⟩
        rw [hid, hid', ofNat_eq_iff] at heq
        omega
      · exact ⟨_, _, by rw [if_neg (by simpa using heq)], rfl, Or.inl rfl⟩

theorem remove (h : Ordered little s p k) (hin : s.removed p < k)
    (hqueue : (t.session p).sendQueue = (s.session p).sendQueue.tail)
    (hmyId : (t.session p).myRequestId = (s.session p).myRequestId)
    (hpeerId : (t.session p.other).peerRequestId = (s.session p.other).peerRequestId)
    (hadded : t.added p = s.added p) (hremoved : t.removed p = s.removed p + 1)
    (hdelivered : t.delivered p.other = s.delivered p.other)
    (hsending : t.sending p = s.sending p) (hflight : t.flight = s.flight) :
    Ordered little t p k := by
  refine ⟨?_, ?_, ?_, hadded ▸ h.made, ?_, hpeerId.trans h.peerId, hadded ▸ h.numbered, ?_, ?_,
    fun msg i hi => ?_, fun x hx => ?_⟩
  · rw [hqueue, hadded, hremoved, h.queue, List.tail_drop]
  · rw [hremoved]
    exact hin
  · rw [hremoved]
    exact Nat.le_succ_of_le h.high
  · rw [hmyId, hadded, h.myId]
  · rw [hdelivered, hadded, h.merged]
  · rw [hdelivered, hadded]
    exact h.known
  · rw [hadded, hremoved]
    rw [hsending] at hi
    exact ⟨(h.sending msg i hi).1, Nat.le_succ_of_le (h.sending msg i hi).2⟩
  · rw [hadded, hremoved]
    have hold := h.flight x (hflight ▸ hx)
    exact ⟨fun hreply hdest => ⟨(hold.request hreply hdest).1,
      Nat.le_succ_of_le (hold.request hreply hdest).2⟩, hold.reply⟩

end Ordered

def AllOrdered (little : Bool) (s : Exchange) : Prop := ∀ p, ∃ k, Ordered little s p k

namespace AllOrdered

variable {little : Bool} {s t : Exchange}

theorem write (h : AllOrdered little s) {q : Party} {cmd : UInt32} {flags reqId : UInt8}
    {args : List (List UInt8)}
    (hstep : Exchange.step little s (.write q cmd flags reqId args) = some t) :
    AllOrdered little t := by
  simp only [Exchange.step, Option.ite_none_right_eq_some, Option.some.injEq] at hstep
  obtain ⟨hcmd, rfl⟩ := hstep
  obtain ⟨k, hq⟩ := h q
  obtain ⟨msgs, hqueue, hnumbered, hmyId, hpeerId⟩ :=
    writeMsg_request little (s.session q) hcmd flags reqId args hq.myId
  intro p
  rcases Party.eq_or_other p q with rfl | rfl
  · refine ⟨k, hq.write ?_ ?_ ?_ hnumbered ?_ rfl rfl rfl rfl⟩
    · simp only [Function.update_self, hqueue]
    · simp only [Function.update_self, hmyId]
    · simp only [Function.update_of_ne (Party.other_ne _)]
    · simp only [Function.update_self, hqueue, List.drop_left]
  · obtain ⟨k', h'⟩ := h q.other
    have hne : q.other ≠ q := Party.other_ne q
    refine ⟨k', h'.frame ?_ ?_ ?_ ?_ rfl rfl h'.sending (fun d hd => Or.inl hd)⟩
    · simp only [Function.update_of_ne hne]
    · simp only [Function.update_of_ne hne]
    · simp only [Party.other_other, Function.update_self, hpeerId]
    · simp only [Function.update_of_ne hne]

theorem front (h : AllOrdered little s) {q : Party}
    (hstep : Exchange.step little s (.front q) = some t) : AllOrdered little t := by
  simp only [Exchange.step, Option.some.injEq] at hstep
  subst hstep
  obtain ⟨k, hq⟩ := h q
  have hsame : (s.session q).sendFront.1.sendQueue = (s.session q).sendQueue ∧
      (s.session q).sendFront.1.myRequestId = (s.session q).myRequestId ∧
      (s.session q).sendFront.1.peerRequestId = (s.session q).peerRequestId := by
    rw [sendFront]
    split <;> exact ⟨rfl, rfl, rfl⟩
  have hmsg : ∀ msg, (s.session q).sendFront.2 = some msg →
      (s.added q)[s.removed q]? = some msg := by
    intro msg hmsg
    rw [sendFront] at hmsg
    split at hmsg
    · next m ms heq =>
      have hhead := congrArg List.head? (hq.queue.symm.trans heq)
      rw [List.head?_drop, List.head?_cons] at hhead
      exact hhead.trans hmsg
    · cases hmsg
  intro p
  rcases Party.eq_or_other p q with rfl | rfl
  · refine ⟨k, hq.frame ?_ ?_ ?_ rfl rfl rfl (fun msg i hi => ?_) (fun d hd => Or.inl hd)⟩
    · simp only [Function.update_self, hsame.1]
    · simp only [Function.update_self, hsame.2.1]
    · simp only [Function.update_of_ne (Party.other_ne _)]
    · simp only [Function.update_self, Option.map_eq_some_iff, Prod.mk.injEq] at hi
      obtain ⟨m, hm, rfl, rfl⟩ := hi
      exact ⟨hmsg m hm, Nat.le_refl _⟩
  · obtain ⟨k', h'⟩ := h q.other
    have hne : q.other ≠ q := Party.other_ne q
    refine ⟨k', h'.frame ?_ ?_ ?_ rfl rfl rfl (fun msg i hi => ?_) (fun d hd => Or.inl hd)⟩
    · simp only [Function.update_of_ne hne]
    · simp only [Function.update_of_ne hne]
    · simp only [Party.other_other, Function.update_self, hsame.2.2]
    · simp only [Function.update_of_ne hne] at hi
      exact h'.sending msg i hi

theorem send (h : AllOrdered little s) {q : Party}
    (hstep : Exchange.step little s (.send q) = some t) : AllOrdered little t := by
  simp only [Exchange.step, Option.some.injEq] at hstep
  subst hstep
  intro p
  obtain ⟨k, hp⟩ := h p
  refine ⟨k, hp.frame rfl rfl rfl rfl rfl rfl (fun msg i hi => ?_) (fun d hd => ?_)⟩
  · rcases Party.eq_or_other p q with rfl | rfl
    · simp [Function.update_self] at hi
    · simp only [Function.update_of_ne (Party.other_ne q)] at hi
      exact hp.sending msg i hi
  · rcases List.mem_append.mp hd with hd | hd
    · exact Or.inl hd
    · obtain ⟨⟨msg, i⟩, hmsg, rfl⟩ := List.mem_map.mp hd
      refine Or.inr ⟨fun _ hdest => ?_, fun hreply => nomatch hreply⟩
      rcases Party.eq_or_other p q with rfl | rfl
      · exact hp.sending msg i (Option.mem_toList.mp hmsg)
      · simp at hdest

theorem lose (h : AllOrdered little s) {k : Nat}
    (hstep : Exchange.step little s (.lose k) = some t) : AllOrdered little t := by
  simp only [Exchange.step, Option.some.injEq] at hstep
  subst hstep
  intro p
  obtain ⟨k', hp⟩ := h p
  exact ⟨k', hp.frame rfl rfl rfl rfl rfl rfl hp.sending
    (fun d hd => Or.inl (List.mem_of_mem_eraseIdx hd))⟩

theorem reply (h : AllOrdered little s) {q : Party} {k : Nat} {cmd : UInt32} {isReliable : Bool}
    {flags : UInt8} {args : List (List UInt8)}
    (hstep : Exchange.step little s (.reply q k cmd isReliable flags args) = some t) :
    AllOrdered little t := by
  simp only [Exchange.step] at hstep
  split at hstep
  · cases hstep
  · next m i hm =>
    obtain ⟨ucph, hunpack, rfl⟩ := Option.map_eq_some_iff.mp hstep
    obtain ⟨hsession, hmsgs⟩ :=
      writeMsg_reply little (s.session q) cmd isReliable flags ucph.requestId args
    intro p
    obtain ⟨n, hp⟩ := h p
    have hsame : ∀ x, Function.update s.session q
        ((s.session q).writeMsg little ⟨cmd, false, isReliable, flags, ucph.requestId⟩ args).1 x =
          s.session x := by
      intro x
      rw [hsession, Function.update_eq_self]
    refine ⟨n, hp.frame ?_ ?_ ?_ rfl rfl rfl hp.sending (fun d hd => ?_)⟩
    · simp only [hsame]
    · simp only [hsame]
    · simp only [hsame]
    · rcases List.mem_append.mp hd with hd | hd
      · exact Or.inl hd
      · obtain ⟨msg, hmsg, rfl⟩ := List.mem_map.mp hd
        refine Or.inr ⟨fun hreply => (nomatch hreply), fun _ hdest => ?_⟩
        have hqp : q = p.other := by
          rw [← hdest, Party.other_other]
        -- the request that is answered was given to this side
        have hknown := hp.known (m, i) (hqp ▸ List.mem_of_getElem? hm)
        obtain ⟨j, hj⟩ := List.mem_iff_getElem?.mp hknown
        rw [List.getElem?_take] at hj
        split at hj
        · next hlt =>
          rw [List.getElem?_zipIdx, Option.map_eq_some_iff] at hj
          obtain ⟨m', hget, heq⟩ := hj
          rw [Nat.zero_add, Prod.mk.injEq] at heq
          obtain ⟨rfl, rfl⟩ := heq
          obtain ⟨ucph', hunpack', -, -, hid⟩ := hp.numbered _ _ hget
          rw [hunpack, Option.some.injEq] at hunpack'
          subst hunpack'
          obtain ⟨u, hu, hrequest, hid'⟩ := hmsgs msg hmsg
          exact ⟨hlt, u, hu, hrequest, hid'.trans hid⟩
        · cases hj

theorem arrive (h : AllOrdered little s) (ht : s.Timely) {k : Nat}
    (hstep : Exchange.step little s (.arrive k) = some t) : AllOrdered little t := by
  simp only [Exchange.step] at hstep
  split at hstep
  · cases hstep
  · next d hd =>
    have hmem := List.mem_of_getElem? hd
    have htimely := ht d hmem
    obtain ⟨⟨new, out⟩, hread, rfl⟩ := Option.map_eq_some_iff.mp hstep
    have hne : ∀ q : Party, q.other ≠ q := Party.other_ne
    cases hreply : d.isReply with
    | false =>
      obtain ⟨q, hq⟩ : ∃ q : Party, d.dest = q.other := ⟨d.dest.other, by simp⟩
      have hasker : d.asker = q := by simp [Datagram.asker, hreply, hq]
      obtain ⟨n, hp⟩ := h q
      rw [hasker] at htimely
      obtain ⟨n', out', hread', hle, hhigh, hmade, hout⟩ := hp.take_request hmem hreply hq htimely
      have hget := ((hp.flight d hmem).request hreply hq).1
      rw [hq] at hread
      rw [hread] at hread'
      obtain ⟨rfl, rfl⟩ := Prod.mk.inj (Option.some.inj hread')
      have hisRequest : out.toList.filter (Exchange.isRequest little) = out.toList := by
        obtain ⟨ucph, hunpack, hrequest, -⟩ := hp.numbered _ _ hget
        have hyes : Exchange.isRequest little d.bytes = true := by
          rw [Exchange.isRequest, hunpack]
          exact decide_eq_true hrequest
        rcases hout with ⟨rfl, -⟩ | ⟨rfl, -⟩
        · rfl
        · simp [hyes]
      intro p
      rcases Party.eq_or_other p q with rfl | rfl
      · refine ⟨n', hp.deliver hle hhigh hmade hget hout ?_ ?_ ?_ rfl ?_ ?_ rfl rfl⟩
        · simp only [hq, Function.update_of_ne (hne p).symm]
        · simp only [hq, Function.update_of_ne (hne p).symm]
        · simp only [hq, Function.update_self]
        · simp only [hq, Function.update_of_ne (hne p).symm]
        · simp only [hq, Function.update_self, hisRequest]
      · obtain ⟨n₂, h₂⟩ := h q.other
        refine ⟨n₂, h₂.frame ?_ ?_ ?_ rfl ?_ ?_ h₂.sending (fun d hd => Or.inl hd)⟩
        · simp only [hq, Function.update_self]
        · simp only [hq, Function.update_self]
        · simp only [hq, Party.other_other, Function.update_of_ne (hne q).symm]
        · simp only [hq, Function.update_self, Nat.sub_self, Nat.add_zero]
        · simp only [hq, Party.other_other, Function.update_of_ne (hne q).symm]
    | true =>
      generalize hq : d.dest = q at *
      have hasker : d.asker = q := by simp [Datagram.asker, hreply, hq]
      obtain ⟨n, hp⟩ := h q
      rw [hasker] at htimely
      obtain ⟨new', out', hread', hno, hnew⟩ := hp.take_reply hmem hreply hq htimely
      rw [hread] at hread'
      obtain ⟨rfl, rfl⟩ := Prod.mk.inj (Option.some.inj hread')
      have hdelivered : ∀ p, Function.update s.delivered q
          (s.delivered q ++ (out.toList.filter (Exchange.isRequest little)).map (·, d.index)) p =
            s.delivered p := by
        intro p
        rw [hno, List.map_nil, List.append_nil, Function.update_eq_self]
      intro p
      rcases Party.eq_or_other p q with rfl | rfl
      · rcases hnew with rfl | ⟨rfl, hin, hlt⟩
        · refine ⟨n, hp.frame ?_ ?_ ?_ rfl ?_ (hdelivered _) hp.sending (fun d hd => Or.inl hd)⟩
          · simp only [Function.update_self]
          · simp only [Function.update_self]
          · simp only [Function.update_of_ne (hne p)]
          · simp only [Function.update_self, Nat.sub_self, Nat.add_zero]
        · refine ⟨n, hp.remove hlt ?_ ?_ ?_ rfl ?_ (hdelivered _) rfl rfl⟩
          · simp only [Function.update_self, requestDel]
          · simp only [Function.update_self, requestDel]
          · simp only [Function.update_of_ne (hne p)]
          · simp only [Function.update_self, requestDel, List.length_tail, hp.queue,
              List.length_drop]
            omega
      · obtain ⟨n₂, h₂⟩ := h q.other
        refine ⟨n₂, h₂.frame ?_ ?_ ?_ rfl ?_ (hdelivered _) h₂.sending (fun d hd => Or.inl hd)⟩
        · simp only [Function.update_of_ne (hne q)]
        · simp only [Function.update_of_ne (hne q)]
        · simp only [Party.other_other, Function.update_self]
          rcases hnew with rfl | ⟨rfl, -⟩ <;> rfl
        · simp only [Function.update_of_ne (hne q)]

theorem step (h : AllOrdered little s) (ht : s.Timely) {a : ExchangeAct}
    (hstep : Exchange.step little s a = some t) : AllOrdered little t := by
  cases a with
  | write q cmd flags reqId args => exact h.write hstep
  | front q => exact h.front hstep
  | send q => exact h.send hstep
  | arrive k => exact h.arrive ht hstep
  | lose k => exact h.lose hstep
  | reply q k cmd isReliable flags args => exact h.reply hstep

end AllOrdered

/-- In every run in which no datagram is 255 requests late, the requests of a side that `ReadMsg`
returns to the other, with adjacent repetitions merged, are the first ones it passed to
`RequestAdd`, and one leaves its queue only when it was returned to the other. -/
theorem requests_in_order (little : Bool) (cid : Party → UInt32) (as : List ExchangeAct)
    (s : Exchange)
    (ht : Run.Throughout (Exchange.step little) Exchange.Timely (Exchange.init cid) as)
    (h : Run.run (Exchange.step little) (Exchange.init cid) as = some s) (p : Party) :
    (s.delivered p.other).destutter (· ≠ ·) <+: (s.added p).zipIdx ∧
      (s.session p).sendQueue = (s.added p).drop (s.removed p) ∧
      ∀ r ∈ (s.added p).zipIdx.take (s.removed p), r ∈ s.delivered p.other := by
  have hall : AllOrdered little s :=
    Run.run_invariant_of_throughout (p := AllOrdered little)
      (fun _ _ _ hs hq _ hstep => hs.step hq hstep)
      (fun p => ⟨0, ordered_init little cid p⟩) ht h
  obtain ⟨k, hp⟩ := hall p
  refine ⟨?_, hp.queue, fun r hr => ?_⟩
  · rw [hp.merged]
    exact List.take_prefix ..
  · have hr' := (List.take_subset_take_left _ hp.low) hr
    rw [← hp.merged] at hr'
    exact (List.destutter_sublist _ _).subset hr'

/-- Two requests; the first is sent and arrives twice and is answered, and a copy of it comes after
the second one. -/
def lateCopy : List ExchangeAct :=
  [.write .left 1 0 0 [[7], [8]], .front .left, .send .left, .front .left, .send .left, .arrive 0,
    .arrive 1, .reply .right 0 1 false 0 [[]], .arrive 2, .lose 2, .front .left, .send .left,
    .arrive 2, .arrive 0]

theorem requests_in_order_late_copy :
    ∃ s, Run.run (Exchange.step true) (Exchange.init fun _ => 1) lateCopy = some s ∧
      (s.delivered .right).map Prod.snd = [0, 0, 1] ∧ s.removed .left = 1 ∧
      (s.delivered Party.left.other).destutter (· ≠ ·) <+: (s.added .left).zipIdx ∧
      (s.session .left).sendQueue = (s.added .left).drop (s.removed .left) ∧
      ∀ r ∈ (s.added .left).zipIdx.take (s.removed .left), r ∈ s.delivered Party.left.other := by
  have hrun : (Run.run (Exchange.step true) (Exchange.init fun _ => 1) lateCopy).map
      (fun s => ((s.delivered .right).map Prod.snd, s.removed .left)) = some ([0, 0, 1], 1) := by
    decide +kernel
  obtain ⟨s, hs, heq⟩ := Option.map_eq_some_iff.mp hrun
  rw [Prod.mk.injEq] at heq
  exact ⟨s, hs, heq.1, heq.2, requests_in_order true _ _ s (by decide +kernel) hs .left⟩

end AlgorithmLib.Udp
