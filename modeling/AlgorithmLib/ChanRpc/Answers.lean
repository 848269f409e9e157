import AlgorithmLib.ChanRpc.Calls

/-!
What a run of the clients and the servers shows of the calls: a call is executed at most once and
answered at most once, its answer is what its own execution returned, and no answer ever has to wait
for room in the channel that it goes to.
-/

set_option autoImplicit false

namespace AlgorithmLib.ChanRpc

open Run RpcSys

variable {s t : RpcSys} {i j : Nat} {srv srv' : Server} {c c' : Client} {a : RpcAct}
  {evs : List RpcEvent}

theorem rpcStep_eq (h : rpcStep s a = some t) : rpcStep' s a = some (t, rpcEvents s a) := by
  unfold rpcStep at h
  unfold rpcEvents
  cases hs : rpcStep' s a with
  | none => simp [hs] at h
  | some r =>
    simp only [hs, Option.map_some, Option.some.injEq] at h
    simp [← h]

theorem rpcStep_inv (h : s.Inv) (hs : rpcStep s a = some t) : t.Inv := by
  obtain ⟨he, hk⟩ := rpcStep'_effect h (rpcStep_eq hs)
  exact h.effect he hk

theorem inv_of_run {as : List RpcAct} (h : run rpcStep RpcSys.init as = some s) : s.Inv :=
  run_invariant (fun _ _ _ => rpcStep_inv) inv_init h

theorem countP_servers_le (hi : s.servers[i]? = some srv) (p : Flight → Bool) :
    srv.held.countP p ≤ (Shares.all (fun _ => Server.held) s.servers).countP p :=
  (Shares.share_sublist (fun _ => Server.held) hi).countP_le

theorem countP_clients_le (hi : s.clients[i]? = some c) (p : Flight → Bool) :
    (c.held i).countP p ≤ (Shares.all Client.held s.clients).countP p :=
  (Shares.share_sublist Client.held hi).countP_le

theorem length_le_held (i : Nat) (c : Client) :
    c.chanSyncRet.length ≤ (c.held i).countP (fun x => x.1 = .sync i) ∧
      c.chanAsynRet.length + (c.pc.held i).countP (fun x => x.1 = .asyn i) ≤
        (c.held i).countP (fun x => x.1 = .asyn i) := by
  have hall : ∀ (ch : RetChan) (l : List RetInfo),
      (l.map fun ri => (ch, ri.call)).countP (fun x => x.1 = ch) = l.length := by
    intro ch l
    induction l with
    | nil => rfl
    | cons ri l ih => simp [ih]
  simp only [Client.held, List.countP_append, hall]
  omega

/-- No answer has to wait: the channel that it goes to has room. -/
theorem replies_have_room {as : List RpcAct} (h : run rpcStep RpcSys.init as = some s) :
    (∀ (i : Nat) (srv : Server) ch ri, s.servers[i]? = some srv → srv.pc = .replying ch ri →
      (rpcStep s (.reply i)).isSome) ∧
    ∀ (i : Nat) (c : Client) ri, s.clients[i]? = some c → c.pc = .failing ri →
      (rpcStep s (.fail i)).isSome := by
  have hinv := inv_of_run h
  refine ⟨fun i srv ch ri hi hpc => ?_, fun i c ri hi hpc => ?_⟩
  · have hmem : (ch, ri.call) ∈ srv.held := by simp [Server.held, ServerPc.held, hpc]
    have hone := countP_pos_of_mem hmem
    have hsrv := countP_servers_le hi (fun x => x.1 = ch)
    have hcount := hinv.count ch
    have hbound := hinv.bound ch
    have hopened := opened_pos hinv.count
      (List.mem_append_left _ (Shares.mem_all_of_mem (fun _ => Server.held) hi hmem))
    rw [held, List.countP_append] at hcount
    cases ch with
    | sync j =>
      cases hj : s.clients[j]? with
      | none => simp [opened, hj] at hopened
      | some c =>
        have hcl := countP_clients_le hj (fun x => x.1 = .sync j)
        have hlen := (length_le_held j c).1
        have hlt : c.chanSyncRet.length < 1 := by
          simp only [capacity, hj, Option.elim_some] at hbound
          omega
        have hempty := List.eq_nil_of_length_eq_zero (Nat.lt_one_iff.mp hlt)
        simp [rpcStep, rpcStep', RpcAct.actor, hi, stepServer, hpc, setServer, hj, hempty]
    | asyn j =>
      cases hj : s.clients[j]? with
      | none => simp [opened, hj] at hopened
      | some c =>
        have hcl := countP_clients_le hj (fun x => x.1 = .asyn j)
        have hlen := (length_le_held j c).2
        have hlt : c.chanAsynRet.length < c.len := by
          simp only [capacity, hj, Option.elim_some] at hbound
          omega
        simp [rpcStep, rpcStep', RpcAct.actor, hi, stepServer, hpc, setServer, hj, hlt]
  · have hcl := countP_clients_le hi (fun x => x.1 = .asyn i)
    have hlen := (length_le_held i c).2
    have hcount := hinv.count (.asyn i)
    have hbound := hinv.bound (.asyn i)
    rw [held, List.countP_append] at hcount
    have hlt : c.chanAsynRet.length < c.len := by
      simp only [capacity, hi, Option.elim_some] at hbound
      simp only [hpc, ClientPc.held] at hlen
      simp at hlen
      omega
    simp [rpcStep, rpcStep', RpcAct.actor, hi, stepClient, hpc, hlt]

/-- A call with a callback, up to the answer of the server. -/
def called : List RpcAct :=
  [.newServer 1, .register 0 5 .one, .newClient 1, .attach 0 0, .asynCall 0 5 .one, .send 0 .buffer,
    .count 0, .serve 0, .exec 0 (.ok 7)]

theorem replies_have_room_called :
    ∃ s, run rpcStep RpcSys.init called = some s ∧
      ∀ (i : Nat) (srv : Server) ch ri, s.servers[i]? = some srv → srv.pc = .replying ch ri →
        (rpcStep s (.reply i)).isSome := by
  obtain ⟨s, hs⟩ := Option.isSome_iff_exists.mp
    (by decide : (run rpcStep RpcSys.init called).isSome = true)
  exact ⟨s, hs, (replies_have_room hs).1⟩

/-- What a function has returned, or panicked with. -/
def Computed : Answer → Prop
  | .ok _ => True
  | .error (.panicked _) => True
  | .error _ => False

def Server.Carries (srv : Server) (ri : RetInfo) : Prop := ∃ ch, srv.pc = .replying ch ri

def Client.Carries (c : Client) (ri : RetInfo) : Prop :=
  ri ∈ c.chanSyncRet ∨ ri ∈ c.chanAsynRet ∨ c.pc = .failing ri

def RpcSys.Carries (s : RpcSys) (ri : RetInfo) : Prop :=
  (∃ (i : Nat) (srv : Server), s.servers[i]? = some srv ∧ srv.Carries ri) ∨
    ∃ (i : Nat) (c : Client), s.clients[i]? = some c ∧ c.Carries ri

theorem carries_setServer {ri : RetInfo} (h : (s.setServer i srv').Carries ri) :
    srv'.Carries ri ∨ s.Carries ri := by
  rcases h with ⟨j, srv, hj, hsrv⟩ | hc
  · rcases Shares.get_set hj with rfl | hj
    · exact .inl hsrv
    · exact .inr (.inl ⟨j, srv, hj, hsrv⟩)
  · exact .inr (.inr hc)

theorem carries_setClient {ri : RetInfo} (h : (s.setClient i c').Carries ri) :
    c'.Carries ri ∨ s.Carries ri := by
  rcases h with hs | ⟨j, c, hj, hc⟩
  · exact .inr (.inl hs)
  · rcases Shares.get_set hj with rfl | hj
    · exact .inl hc
    · exact .inr (.inr ⟨j, c, hj, hc⟩)

theorem send_pc {ci : CallInfo} {how : Send} (h : srv.send ci how = some (.ok srv')) :
    srv'.pc = srv.pc ∨ srv'.pc = .executing ci := by
  cases how with
  | buffer =>
    simp only [Server.send] at h
    split at h
    · simp at h
    · split at h
      · simp only [Option.some.injEq, Except.ok.injEq] at h
        exact .inl (h ▸ rfl)
      · simp at h
  | handoff =>
    simp only [Server.send] at h
    split at h
    · split at h
      · simp only [Option.some.injEq, Except.ok.injEq] at h
        exact .inr (h ▸ rfl)
      · simp at h
    · simp at h
  | full =>
    simp only [Server.send] at h
    split at h <;> simp at h

theorem send_error {ci : CallInfo} {how : Send} {err : RpcError}
    (h : srv.send ci how = some (.error err)) : ¬Computed (.error err) := by
  cases how with
  | buffer =>
    simp only [Server.send] at h
    split at h
    · simp only [Option.some.injEq, Except.error.injEq] at h
      exact h ▸ id
    · split at h <;> simp at h
  | handoff =>
    simp only [Server.send] at h
    split at h
    · split at h <;> simp at h
    · simp at h
  | full =>
    simp only [Server.send] at h
    split at h
    · simp only [Option.some.injEq, Except.error.injEq] at h
      exact h ▸ id
    · simp at h

/-- `c.f` does not compute an answer. -/
theorem f_error {id : FuncId} {n : FuncType} {err : RpcError} (h : s.f c id n = .error err) :
    ¬Computed (.error err) := by
  unfold RpcSys.f at h
  split at h
  · cases h
    exact fun h => h
  · split at h
    · cases h
      exact fun h => h
    · split at h
      · cases h
      · cases h
        exact fun h => h

structure Source (s t : RpcSys) (evs : List RpcEvent) : Prop where
  carried : ∀ ri, t.Carries ri → s.Carries ri ∨ ¬Computed ri.ret ∨ .executed ri.call ri.ret ∈ evs
  shown : ∀ ch call ret, .answered ch call ret ∈ evs → s.Carries ⟨call, ret⟩ ∨ ¬Computed ret

theorem source_refused (ch : RetChan) {err : RpcError} (herr : ¬Computed (.error err)) :
    Source s { s with made := s.made + 1 }
      [.asked ch s.made, .answered ch s.made (.error err)] := by
  refine ⟨fun ri hri => .inl hri, fun _ call ret hev => ?_⟩
  simp only [List.mem_cons, List.not_mem_nil, or_false, reduceCtorEq, false_or,
    RpcEvent.answered.injEq] at hev
  exact .inr (hev.2.2 ▸ herr)

theorem source_server (hi : s.servers[i]? = some srv)
    (hpc : srv'.pc = srv.pc ∨ ∀ ch ri, srv'.pc ≠ .replying ch ri)
    (ht : ∀ ri, t.Carries ri → (s.setServer i srv').Carries ri)
    (hevs : ∀ ch call ret, .answered ch call ret ∉ evs) : Source s t evs := by
  refine ⟨fun ri hri => .inl ?_, fun ch call ret hev => absurd hev (hevs ch call ret)⟩
  rcases carries_setServer (ht ri hri) with ⟨ch, hri⟩ | hri
  · rcases hpc with hpc | hpc
    · exact .inl ⟨i, srv, hi, ch, hpc ▸ hri⟩
    · exact absurd hri (hpc ch ri)
  · exact hri

theorem source_client (hi : s.clients[i]? = some c)
    (hsub : ∀ ri, c'.Carries ri → c.Carries ri ∨ ¬Computed ri.ret)
    (ht : ∀ ri, t.Carries ri → (s.setClient i c').Carries ri)
    (hevs : ∀ ch call ret, .answered ch call ret ∈ evs → c.Carries ⟨call, ret⟩ ∨ ¬Computed ret) :
    Source s t evs := by
  refine ⟨fun ri hri => ?_, fun ch call ret hev => ?_⟩
  · rcases carries_setClient (ht ri hri) with hri | hri
    · rcases hsub ri hri with hri | hri
      · exact .inl (.inr ⟨i, c, hi, hri⟩)
      · exact .inr (.inl hri)
    · exact .inl hri
  · exact (hevs ch call ret hev).imp_left fun h => .inr ⟨i, c, hi, h⟩

theorem carries_of_server {ri : RetInfo} (hi : s.servers[i]? = some srv) (h : srv.Carries ri) :
    s.Carries ri :=
  .inl ⟨i, srv, hi, h⟩

theorem carries_of_client {ri : RetInfo} (hi : s.clients[i]? = some c) (h : c.Carries ri) :
    s.Carries ri :=
  .inr ⟨i, c, hi, h⟩

theorem stepServer_source (hi : s.servers[i]? = some srv)
    (hs : s.stepServer i srv a = some (t, evs)) : Source s t evs := by
  cases a with
  | register k id ft =>
    simp only [stepServer] at hs
    split at hs
    · cases hs
      refine source_server hi ?_ (fun _ h => h) fun _ _ _ => by simp
      exact .inl rfl
    · cases hs
  | go k id how =>
    simp only [stepServer] at hs
    split at hs
    · cases hs
      exact ⟨fun ri h => .inl h, fun _ _ _ => by simp⟩
    split at hs
    · cases hs
    split at hs
    · rename_i srv' hsend
      cases hs
      refine source_server hi ?_ (fun ri (h : (s.setServer i srv').Carries ri) => h) fun _ _ _ => by simp
      rcases send_pc hsend with hpc | hpc
      · exact .inl hpc
      · exact .inr fun ch ri => by simp [hpc]
    · cases hs
      exact ⟨fun ri h => .inl h, fun _ _ _ => by simp⟩
    · cases hs
  | serve k =>
    simp only [stepServer] at hs
    split at hs
    · split at hs
      · cases hs
        exact source_server hi (.inr fun ch ri => by simp) (fun _ h => h) fun _ _ _ => by simp
      · cases hs
    · cases hs
  | exec k ret =>
    simp only [stepServer] at hs
    split at hs
    · split at hs
      · cases hs
        refine ⟨fun ri hri => ?_, fun _ call ret hev => by simp at hev⟩
        rcases carries_setServer hri with ⟨ch, hri⟩ | hri
        · simp only [ServerPc.replying.injEq] at hri
          exact .inr (.inr (by simp [← hri.2]))
        · exact .inl hri
      · cases hs
        exact source_server hi (.inr fun ch ri => by simp) (fun _ h => h) (by simp)
    · cases hs
  | reply k =>
    simp only [stepServer] at hs
    split at hs
    · rename_i ch ri hpc
      have hri : s.Carries ri := carries_of_server hi ⟨ch, hpc⟩
      have hsrv : ∀ r, (s.setServer i { srv with
          pc := if srv.closed = true then .draining else .idle }).Carries r → s.Carries r := by
        intro r hr
        rcases carries_setServer hr with ⟨ch, hr⟩ | hr
        · cases hc : srv.closed <;> simp [hc] at hr
        · exact hr
      have hboth : ∀ (j : Nat) (cl cl' : Client), s.clients[j]? = some cl →
          (∀ r, cl'.Carries r → cl.Carries r ∨ r = ri) →
          Source s ((s.setServer i { srv with
            pc := if srv.closed = true then .draining else .idle }).setClient j cl') [] := by
        intro j cl cl' hcl hsub
        refine ⟨fun r hr => .inl ?_, fun _ _ _ => by simp⟩
        rcases carries_setClient hr with hr | hr
        · rcases hsub r hr with hr | rfl
          · exact carries_of_client hcl hr
          · exact hri
        · exact hsrv r hr
      cases ch with
      | sync j =>
        simp only [Option.bind_eq_some_iff] at hs
        obtain ⟨cl, hcl, hs⟩ := hs
        split at hs
        · cases hs
          refine hboth j cl _ hcl fun r hr => ?_
          simp only [Client.Carries, List.mem_append, List.mem_singleton] at hr ⊢
          tauto
        · cases hs
      | asyn j =>
        simp only [Option.bind_eq_some_iff] at hs
        obtain ⟨cl, hcl, hs⟩ := hs
        split at hs
        · cases hs
          refine hboth j cl _ hcl fun r hr => ?_
          simp only [Client.Carries, List.mem_append, List.mem_singleton] at hr ⊢
          tauto
        · cases hs
    · cases hs
  | close k =>
    simp only [stepServer] at hs
    split at hs
    · cases hs
      exact source_server hi (.inr fun ch ri => by simp) (fun _ h => h) fun _ _ _ => by simp
    · cases hs
  | drain k =>
    simp only [stepServer] at hs
    split at hs
    · cases hs
      exact source_server hi (.inr fun ch ri => by simp) (fun _ h => h) fun _ _ _ => by simp
    · rename_i ci rest hpc hcalls
      split at hs
      · cases hs
        refine ⟨fun ri hri => ?_, fun _ _ _ => by simp⟩
        rcases carries_setServer hri with ⟨ch, hri⟩ | hri
        · simp only [ServerPc.replying.injEq] at hri
          rw [← hri.2]
          exact .inr (.inl fun h => h)
        · exact .inl hri
      · cases hs
        refine source_server hi ?_ (fun _ h => h) fun _ _ _ => by simp
        exact .inl rfl
    · cases hs
  | _ => simp [stepServer] at hs

theorem stepClient_source (h : s.Inv) (hi : s.clients[i]? = some c)
    (hs : s.stepClient i c a = some (t, evs)) : Source s t evs := by
  cases a with
  | attach k j =>
    simp only [stepClient] at hs
    split at hs
    · split at hs
      · cases hs
        refine source_client hi ?_ (fun _ h => h) fun _ _ _ => by simp
        exact fun _ => .inl
      · cases hs
    · cases hs
  | call k id n =>
    simp only [stepClient] at hs
    split at hs
    · split at hs
      · rename_i err hf
        cases hs
        exact source_refused _ (f_error hf)
      · cases hs
        refine source_client hi ?_ (fun _ h => h) (by simp)
        simp only [Client.Carries, reduceCtorEq, or_false]
        tauto
    · cases hs
  | asynCall k id n =>
    simp only [stepClient] at hs
    split at hs
    · split at hs
      · cases hs
        exact source_refused _ fun h => h
      · split at hs
        · rename_i err hf
          cases hs
          refine source_client hi ?_ (fun _ h => h) (by simp)
          rintro ri (h | h | h)
          · exact .inl (.inl h)
          · exact .inl (.inr (.inl h))
          · simp only [ClientPc.failing.injEq] at h
            exact .inr (h ▸ f_error hf)
        · cases hs
          refine source_client hi ?_ (fun _ h => h) (by simp)
          simp only [Client.Carries, reduceCtorEq, or_false]
          tauto
    · cases hs
  | send k how =>
    simp only [stepClient] at hs
    split at hs
    · rename_i ci block j hpc hj
      split at hs
      · cases hs
      split at hs
      · rename_i srv' hsend
        cases hs
        obtain ⟨srv, hsrv, hsend⟩ := Option.bind_eq_some_iff.mp hsend
        refine ⟨fun ri hri => .inl ?_, fun _ _ _ => by simp⟩
        rcases carries_setClient hri with hri | hri
        · refine .inr ⟨i, c, hi, ?_⟩
          cases block <;> simpa [Client.Carries, hpc] using hri
        · rcases carries_setServer hri with ⟨ch, hri⟩ | hri
          · rcases send_pc hsend with h | h
            · exact .inl ⟨j, srv, hsrv, ch, h ▸ hri⟩
            · rw [h] at hri
              cases hri
          · exact hri
      · rename_i err hsend
        obtain ⟨srv, hsrv, hsend⟩ := Option.bind_eq_some_iff.mp hsend
        have herr := send_error hsend
        split at hs
        · cases hs
          refine source_client hi ?_ (fun _ h => h) ?_
          · simp only [Client.Carries, reduceCtorEq, or_false]
            tauto
          · intro _ call ret hev
            simp only [List.mem_singleton, RpcEvent.answered.injEq] at hev
            exact .inr (hev.2.2 ▸ herr)
        · cases hs
          refine source_client hi ?_ (fun _ h => h) fun _ _ _ => by simp
          rintro ri (h | h | h)
          · exact .inl (.inl h)
          · exact .inl (.inr (.inl h))
          · simp only [ClientPc.failing.injEq] at h
            exact .inr (h ▸ herr)
      · cases hs
    · cases hs
  | recv k =>
    simp only [stepClient] at hs
    split at hs
    · rename_i call ri rest hpc hret
      cases hs
      refine source_client hi ?_ (fun _ h => h) ?_
      · simp only [Client.Carries, reduceCtorEq, or_false, hret, List.mem_cons]
        tauto
      · intro _ call' ret hev
        simp only [List.mem_singleton, RpcEvent.answered.injEq] at hev
        have hcall : ri.call = call := h.call_eq hi hpc (by simp [hret])
        exact .inl (.inl (by simp [hret, hev.2.1, hev.2.2, ← hcall]))
    · cases hs
  | fail k =>
    simp only [stepClient] at hs
    split at hs
    · rename_i ri hpc
      split at hs
      · cases hs
        refine source_client hi ?_ (fun _ h => h) fun _ _ _ => by simp
        rintro r (h | h | h)
        · exact .inl (.inl h)
        · rcases List.mem_append.mp h with h | h
          · exact .inl (.inr (.inl h))
          · exact .inl (.inr (.inr (by rw [hpc, List.mem_singleton.mp h])))
        · cases h
      · cases hs
    · cases hs
  | count k =>
    simp only [stepClient] at hs
    split at hs
    · cases hs
      refine source_client hi ?_ (fun _ h => h) fun _ _ _ => by simp
      simp only [Client.Carries, reduceCtorEq, or_false]
      tauto
    · cases hs
  | cb k =>
    simp only [stepClient] at hs
    split at hs
    · rename_i ri rest hpc hret
      cases hs
      refine source_client hi ?_ (fun _ h => h) ?_
      · simp only [Client.Carries, hret, List.mem_cons]
        tauto
      · intro _ call ret hev
        simp only [List.mem_singleton, RpcEvent.answered.injEq] at hev
        exact .inl (.inr (.inl (by simp [hret, hev.2.1, hev.2.2])))
    · cases hs
  | _ => simp [stepClient] at hs

theorem rpcStep'_source (h : s.Inv) (hs : rpcStep' s a = some (t, evs)) : Source s t evs := by
  unfold rpcStep' at hs
  split at hs
  · obtain ⟨srv, hi, hs⟩ := Option.bind_eq_some_iff.mp hs
    exact stepServer_source hi hs
  · obtain ⟨c, hi, hs⟩ := Option.bind_eq_some_iff.mp hs
    exact stepClient_source h hi hs
  · split at hs
    · cases hs
      refine ⟨fun ri hri => .inl ?_, fun _ _ _ => by simp⟩
      rcases hri with ⟨j, srv, hj, ch, hpc⟩ | hri
      · rcases Shares.get_concat hj with rfl | hj
        · cases hpc
        · exact .inl ⟨j, srv, hj, ch, hpc⟩
      · exact .inr hri
    · cases hs
      refine ⟨fun ri hri => .inl ?_, fun _ _ _ => by simp⟩
      rcases hri with hri | ⟨j, c, hj, hc⟩
      · exact .inl hri
      · rcases Shares.get_concat hj with rfl | hj
        · simp [Client.Carries, Client.newClient] at hc
        · exact .inr ⟨j, c, hj, hc⟩
    · cases hs

def RpcEvent.answeredCall : RpcEvent → Option CallId
  | answered _ call _ => some call
  | _ => none

/-- The calls that the run has shown answers of. -/
def answeredCalls (trace : List RpcEvent) : List CallId := trace.filterMap RpcEvent.answeredCall

/-- What the run has shown agrees with what is in flight. -/
structure Told (s : RpcSys) (trace : List RpcEvent) : Prop where
  once : (answeredCalls trace).Nodup
  after : Traced (fun pre e => ∀ ch call ret, e = .answered ch call ret →
    .asked ch call ∈ pre ∧ (Computed ret → .executed call ret ∈ pre)) trace
  flight : ∀ ch call, (ch, call) ∈ s.held ↔ .asked ch call ∈ trace ∧ call ∉ answeredCalls trace
  asked : ∀ ch call, .asked ch call ∈ trace → call < s.made
  answered : ∀ call ∈ answeredCalls trace, call < s.made
  carried : ∀ ri, s.Carries ri → Computed ri.ret → .executed ri.call ri.ret ∈ trace

theorem told_init : Told RpcSys.init [] where
  once := List.nodup_nil
  after := traced_nil _
  flight := fun ch call => by simp [RpcSys.held, RpcSys.init]
  asked := fun _ _ => by simp
  answered := fun _ h => absurd h List.not_mem_nil
  carried := fun ri h => by simp [RpcSys.Carries, RpcSys.init] at h

/-- The answers under way are results of executions that the run has shown. -/
def Carried (t : RpcSys) (trace : List RpcEvent) : Prop :=
  ∀ ri, t.Carries ri → Computed ri.ret → .executed ri.call ri.ret ∈ trace

variable {trace : List RpcEvent}

theorem Told.kept (h : Told s trace) (hheld : t.held.Perm s.held) (hmade : s.made ≤ t.made)
    (hevs : evs = [] ∨ ∃ call ret, evs = [.executed call ret])
    (hcarried : Carried t (trace ++ evs)) : Told t (trace ++ evs) := by
  have hans : answeredCalls (trace ++ evs) = answeredCalls trace := by
    rcases hevs with rfl | ⟨call, ret, rfl⟩ <;> simp [answeredCalls, RpcEvent.answeredCall]
  have hasked : ∀ ch call, .asked ch call ∈ trace ++ evs ↔ .asked ch call ∈ trace := by
    intro ch call
    rcases hevs with rfl | ⟨call, ret, rfl⟩ <;> simp
  refine ⟨hans ▸ h.once, ?_, fun ch call => ?_, fun ch call hmem => ?_, fun call hmem => ?_,
    hcarried⟩
  · rcases hevs with rfl | ⟨call, ret, rfl⟩
    · rw [List.append_nil]
      exact h.after
    · exact traced_concat h.after fun _ _ _ => by simp
  · rw [hheld.mem_iff, h.flight, hasked, hans]
  · exact lt_of_lt_of_le (h.asked ch call ((hasked ch call).mp hmem)) hmade
  · exact lt_of_lt_of_le (h.answered call (hans ▸ hmem)) hmade

theorem Told.ask (h : Told s trace) {ch : RetChan} (hheld : t.held.Perm ((ch, s.made) :: s.held))
    (hmade : t.made = s.made + 1) (hcarried : Carried t (trace ++ [.asked ch s.made])) :
    Told t (trace ++ [.asked ch s.made]) := by
  have hans : answeredCalls (trace ++ [.asked ch s.made]) = answeredCalls trace := by
    simp [answeredCalls, RpcEvent.answeredCall]
  refine ⟨hans ▸ h.once, traced_concat h.after fun _ _ _ => by simp, fun ch' call => ?_,
    fun ch' call hmem => ?_, fun call hmem => ?_, hcarried⟩
  · rw [hheld.mem_iff, hans, List.mem_cons, h.flight, List.mem_append, List.mem_singleton,
      RpcEvent.asked.injEq, Prod.mk.injEq]
    constructor
    · rintro (⟨rfl, rfl⟩ | ⟨hasked, hno⟩)
      · exact ⟨.inr ⟨rfl, rfl⟩, fun hmem => Nat.lt_irrefl _ (h.answered _ hmem)⟩
      · exact ⟨.inl hasked, hno⟩
    · rintro ⟨hasked | heq, hno⟩
      · exact .inr ⟨hasked, hno⟩
      · exact .inl heq
  · rw [hmade]
    rcases List.mem_append.mp hmem with hmem | hmem
    · exact Nat.lt_succ_of_lt (h.asked ch' call hmem)
    · simp only [List.mem_singleton, RpcEvent.asked.injEq] at hmem
      exact hmem.2 ▸ Nat.lt_succ_self _
  · rw [hmade]
    exact Nat.lt_succ_of_lt (h.answered call (hans ▸ hmem))

theorem Told.answer (h : Told s trace) (hinv : s.Inv) {ch : RetChan} {call : CallId} {ret : Answer}
    (hheld : s.held.Perm ((ch, call) :: t.held)) (hmade : t.made = s.made)
    (hsrc : Source s t [.answered ch call ret])
    (hcarried : Carried t (trace ++ [.answered ch call ret])) :
    Told t (trace ++ [.answered ch call ret]) := by
  have hans : answeredCalls (trace ++ [.answered ch call ret]) = answeredCalls trace ++ [call] := by
    simp [answeredCalls, RpcEvent.answeredCall]
  have hmem : (ch, call) ∈ s.held := hheld.mem_iff.mpr List.mem_cons_self
  obtain ⟨hasked, hno⟩ := (h.flight ch call).mp hmem
  -- the call was in flight once only
  have hgone : ∀ ch', (ch', call) ∉ t.held := by
    intro ch' hin
    have hnodup := (hheld.map Prod.snd).nodup_iff.mp hinv.nodup
    exact (List.nodup_cons.mp hnodup).1 (List.mem_map.mpr ⟨(ch', call), hin, rfl⟩)
  refine ⟨?_, traced_concat h.after ?_, fun ch' call' => ?_, fun ch' call' hin => ?_,
    fun call' hin => ?_, hcarried⟩
  · rw [hans]
    exact List.nodup_append.mpr ⟨h.once, by simp, fun x hx y hy heq =>
      hno (List.mem_singleton.mp hy ▸ heq ▸ hx)⟩
  · rintro ch' call' ret' heq
    obtain ⟨rfl, rfl, rfl⟩ := RpcEvent.answered.inj heq
    refine ⟨hasked, fun hc => ?_⟩
    rcases hsrc.shown ch call ret (List.mem_singleton.mpr rfl) with hri | hri
    · exact h.carried _ hri hc
    · exact absurd hc hri
  · rw [hans]
    simp only [List.mem_append, List.mem_singleton, reduceCtorEq, or_false, not_or]
    constructor
    · intro hin
      obtain ⟨hasked', hno'⟩ := (h.flight ch' call').mp
        (hheld.mem_iff.mpr (List.mem_cons_of_mem _ hin))
      refine ⟨hasked', hno', ?_⟩
      rintro rfl
      exact hgone ch' hin
    · rintro ⟨hasked', hno', hne⟩
      rcases List.mem_cons.mp (hheld.mem_iff.mp ((h.flight ch' call').mpr ⟨hasked', hno'⟩)) with
        heq | hin
      · exact absurd (Prod.mk.inj heq).2 hne
      · exact hin
  · rw [hmade]
    simp only [List.mem_append, List.mem_singleton, reduceCtorEq, or_false] at hin
    exact h.asked ch' call' hin
  · rw [hmade]
    rcases List.mem_append.mp (hans ▸ hin) with hin | hin
    · exact h.answered call' hin
    · exact List.mem_singleton.mp hin ▸ h.asked ch call hasked

theorem Told.refuse (h : Told s trace) {ch : RetChan} {err : RpcError} (hheld : t.held = s.held)
    (hmade : t.made = s.made + 1)
    (hsrc : Source s t [.asked ch s.made, .answered ch s.made (.error err)])
    (hcarried : Carried t (trace ++ [.asked ch s.made, .answered ch s.made (.error err)])) :
    Told t (trace ++ [.asked ch s.made, .answered ch s.made (.error err)]) := by
  have hans : answeredCalls (trace ++ [.asked ch s.made, .answered ch s.made (.error err)]) =
      answeredCalls trace ++ [s.made] := by
    rw [answeredCalls, List.filterMap_append]
    rfl
  have hnew : s.made ∉ answeredCalls trace := fun hmem => Nat.lt_irrefl _ (h.answered _ hmem)
  refine ⟨?_, ?_, fun ch' call' => ?_, fun ch' call' hin => ?_, fun call' hin => ?_, hcarried⟩
  · rw [hans]
    exact List.nodup_append.mpr ⟨h.once, by simp, fun x hx y hy heq =>
      hnew (List.mem_singleton.mp hy ▸ heq ▸ hx)⟩
  · have hasked := traced_concat (b := .asked ch s.made) h.after fun _ _ _ => by simp
    have hafter := traced_concat (b := .answered ch s.made (.error err)) hasked ?_
    · simpa using hafter
    · rintro ch' call' ret' heq
      obtain ⟨rfl, rfl, rfl⟩ := RpcEvent.answered.inj heq
      refine ⟨by simp, fun hc => ?_⟩
      rcases hsrc.shown ch s.made (.error err) (by simp) with hri | hri
      · exact List.mem_append_left _ (h.carried _ hri hc)
      · exact absurd hc hri
  · rw [hheld, hans, h.flight]
    simp only [List.mem_append, List.mem_cons, List.not_mem_nil, or_false, reduceCtorEq,
      RpcEvent.asked.injEq, not_or]
    constructor
    · rintro ⟨hasked, hno⟩
      refine ⟨.inl hasked, hno, ?_⟩
      rintro rfl
      exact Nat.lt_irrefl _ (h.asked ch' _ hasked)
    · rintro ⟨hasked | ⟨-, heq⟩, hno, hne⟩
      · exact ⟨hasked, hno⟩
      · exact absurd heq hne
  · rw [hmade]
    simp only [List.mem_append, List.mem_cons, List.not_mem_nil, or_false, reduceCtorEq,
      RpcEvent.asked.injEq] at hin
    rcases hin with hin | ⟨-, rfl⟩
    · exact Nat.lt_succ_of_lt (h.asked ch' call' hin)
    · exact Nat.lt_succ_self _
  · rw [hmade]
    rcases List.mem_append.mp (hans ▸ hin) with hin | hin
    · exact Nat.lt_succ_of_lt (h.answered call' hin)
    · exact List.mem_singleton.mp hin ▸ Nat.lt_succ_self _

theorem Told.step (h : Told s trace) (hinv : s.Inv) (he : Effect s t evs)
    (hsrc : Source s t evs) : Told t (trace ++ evs) := by
  have hcarried : Carried t (trace ++ evs) := by
    intro ri hri hc
    rcases hsrc.carried ri hri with hri | hri | hri
    · exact List.mem_append_left _ (h.carried ri hri hc)
    · exact absurd hc hri
    · exact List.mem_append_right _ hri
  cases he with
  | kept hheld hopened hmade hevs => exact h.kept hheld hmade hevs hcarried
  | asked ch hheld hopened hroom hmade hasks => exact h.ask hheld hmade hcarried
  | answered ch call ret hheld hopened hmade => exact h.answer hinv hheld hmade hsrc hcarried
  | refused ch err hheld hopened hmade => exact h.refuse hheld hmade hsrc hcarried

theorem told_of_run {as : List RpcAct} (h : run rpcStep RpcSys.init as = some s) :
    Told s (collect rpcStep rpcEvents RpcSys.init as) := by
  have htold := collect_invariant (p := fun s trace => s.Inv ∧ Told s trace)
    (fun s a t trace hp _ ht => by
      obtain ⟨he, hk⟩ := rpcStep'_effect hp.1 (rpcStep_eq ht)
      exact ⟨hp.1.effect he hk, hp.2.step hp.1 he (rpcStep'_source hp.1 (rpcStep_eq ht))⟩)
    ⟨inv_init, told_init⟩ (meets_true _ _) h
  exact htold.2

/-- A call is answered at most once, after it was made and through the channel of the client that made
it, and its answer is what the execution of this very call has returned, unless it could not be
executed. The answer to a synchronous call comes while the client waits for this call. -/
theorem calls_answered_once {as : List RpcAct} (h : run rpcStep RpcSys.init as = some s) :
    (answeredCalls (collect rpcStep rpcEvents RpcSys.init as)).Nodup ∧
      Traced (fun pre e => ∀ ch call ret, e = .answered ch call ret →
        .asked ch call ∈ pre ∧ (Computed ret → .executed call ret ∈ pre))
        (collect rpcStep rpcEvents RpcSys.init as) :=
  ⟨(told_of_run h).once, (told_of_run h).after⟩

theorem calls_answered_once_called :
    ∃ s, run rpcStep RpcSys.init (called ++ [.reply 0, .cb 0]) = some s ∧
      (answeredCalls (collect rpcStep rpcEvents RpcSys.init
        (called ++ [.reply 0, .cb 0]))).Nodup := by
  obtain ⟨s, hs⟩ := Option.isSome_iff_exists.mp
    (by decide : (run rpcStep RpcSys.init (called ++ [.reply 0, .cb 0])).isSome = true)
  exact ⟨s, hs, (calls_answered_once hs).1⟩

/-- Between two calls a client counts the calls that it has no answer to; the count is never
negative, and when it is zero, all the calls that the client has ever made are answered. -/
theorem idle_iff_answered {as : List RpcAct} (h : run rpcStep RpcSys.init as = some s)
    (hi : s.clients[i]? = some c) (hpc : c.pc = .idle) :
    0 ≤ c.pendingAsynCall ∧ (c.pendingAsynCall = 0 ↔ ∀ call,
      .asked (.asyn i) call ∈ collect rpcStep rpcEvents RpcSys.init as →
        call ∈ answeredCalls (collect rpcStep rpcEvents RpcSys.init as)) := by
  have htold := told_of_run h
  have hcount := (inv_of_run h).count (.asyn i)
  have hopened : s.opened (.asyn i) = c.pendingAsynCall := by
    simp [opened, hi, hpc, ClientPc.uncounted]
  rw [hopened] at hcount
  rw [← hcount, Int.natCast_eq_zero, List.countP_eq_zero]
  refine ⟨Int.natCast_nonneg _, ?_⟩
  constructor
  · intro hnone call hasked
    by_contra hno
    exact hnone _ ((htold.flight _ call).mpr ⟨hasked, hno⟩) (by simp)
  · rintro hall ⟨ch, call⟩ hmem hch
    obtain ⟨hasked, hno⟩ := (htold.flight ch call).mp hmem
    rw [decide_eq_true_eq] at hch
    subst hch
    exact hno (hall call hasked)

theorem idle_iff_answered_called :
    ∃ s c, run rpcStep RpcSys.init (called ++ [.reply 0, .cb 0]) = some s ∧
      s.clients[0]? = some c ∧ 0 ≤ c.pendingAsynCall ∧ (c.pendingAsynCall = 0 ↔ ∀ call,
        .asked (.asyn 0) call ∈
            collect rpcStep rpcEvents RpcSys.init (called ++ [.reply 0, .cb 0]) →
          call ∈ answeredCalls
            (collect rpcStep rpcEvents RpcSys.init (called ++ [.reply 0, .cb 0]))) :=
  ⟨_, _, rfl, rfl, idle_iff_answered rfl rfl rfl⟩

end AlgorithmLib.ChanRpc
