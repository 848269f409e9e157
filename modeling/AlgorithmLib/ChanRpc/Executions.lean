import AlgorithmLib.ChanRpc.Answers
import Mathlib.Data.List.Nodup

set_option autoImplicit false

namespace AlgorithmLib.ChanRpc

open Run RpcSys

def Server.unrun (srv : Server) : List CallId :=
  (match srv.pc with
    | .executing ci => [ci.call]
    | _ => []) ++ srv.chanCall.map CallInfo.call

def Client.unrun (c : Client) : List CallId :=
  match c.pc with
  | .calling ci _ => [ci.call]
  | _ => []

def RpcSys.unrun (s : RpcSys) : List CallId :=
  Shares.all (fun _ => Server.unrun) s.servers ++ Shares.all (fun _ => Client.unrun) s.clients

def RpcEvent.executedCall : RpcEvent → Option CallId
  | executed call _ => some call
  | _ => none

def executedCalls (trace : List RpcEvent) : List CallId := trace.filterMap RpcEvent.executedCall

def Runs (s t : RpcSys) (evs : List RpcEvent) : Prop :=
  ∃ new, (new = [] ∧ t.made = s.made ∨ new = [s.made] ∧ t.made = s.made + 1) ∧
    ∀ x, t.unrun.count x + (executedCalls evs).count x ≤ s.unrun.count x + new.count x

variable {s t : RpcSys} {i j : Nat} {srv srv' : Server} {c c' : Client} {a : RpcAct}
  {evs : List RpcEvent}

theorem count_setServer (hi : s.servers[i]? = some srv) (srv' : Server) (x : CallId) :
    srv.unrun.count x + (s.setServer i srv').unrun.count x =
      srv'.unrun.count x + s.unrun.count x := by
  have hset := (Shares.all_set (fun _ => Server.unrun) hi srv').count_eq x
  simp only [List.count_append] at hset
  simp only [RpcSys.unrun, setServer, List.count_append]
  omega

theorem count_setClient (hi : s.clients[i]? = some c) (c' : Client) (x : CallId) :
    c.unrun.count x + (s.setClient i c').unrun.count x = c'.unrun.count x + s.unrun.count x := by
  have hset := (Shares.all_set (fun _ => Client.unrun) hi c').count_eq x
  simp only [List.count_append] at hset
  simp only [RpcSys.unrun, setClient, List.count_append]
  omega

theorem runs_server (hi : s.servers[i]? = some srv) (hmade : t.made = s.made)
    (ht : t.unrun = (s.setServer i srv').unrun)
    (hle : ∀ x, srv'.unrun.count x + (executedCalls evs).count x ≤ srv.unrun.count x) :
    Runs s t evs := by
  refine ⟨[], .inl ⟨rfl, hmade⟩, fun x => ?_⟩
  have hset := count_setServer hi srv' x
  have hx := hle x
  rw [ht, List.count_nil]
  omega

theorem runs_client (new : List CallId) (hi : s.clients[i]? = some c)
    (hnew : new = [] ∧ t.made = s.made ∨ new = [s.made] ∧ t.made = s.made + 1)
    (ht : t.unrun = (s.setClient i c').unrun) (hevs : executedCalls evs = [])
    (hle : ∀ x, c'.unrun.count x ≤ c.unrun.count x + new.count x) : Runs s t evs := by
  refine ⟨new, hnew, fun x => ?_⟩
  have hset := count_setClient hi c' x
  have hx := hle x
  rw [ht, hevs, List.count_nil]
  omega

theorem send_unrun {ci : CallInfo} {how : Send} (h : srv.send ci how = some (.ok srv')) (x : CallId) :
    srv'.unrun.count x = srv.unrun.count x + [ci.call].count x := by
  cases how with
  | buffer =>
    simp only [Server.send] at h
    split at h
    · simp at h
    · split at h
      · simp only [Option.some.injEq, Except.ok.injEq] at h
        subst h
        simp only [Server.unrun, List.map_append, List.map_cons, List.map_nil, List.count_append]
        omega
      · simp at h
  | handoff =>
    simp only [Server.send] at h
    split at h
    · rename_i hpc
      split at h
      · simp only [Option.some.injEq, Except.ok.injEq] at h
        subst h
        simp only [Server.unrun, hpc, List.count_append, List.count_nil]
        omega
      · simp at h
    · simp at h
  | full =>
    simp only [Server.send] at h
    split at h <;> simp at h

theorem stepServer_runs (hi : s.servers[i]? = some srv)
    (hs : s.stepServer i srv a = some (t, evs)) : Runs s t evs := by
  have hrefl : Runs s s [] := ⟨[], .inl ⟨rfl, rfl⟩, fun x => by simp [executedCalls]⟩
  cases a with
  | register k id ft =>
    simp only [stepServer] at hs
    split at hs
    · cases hs
      refine runs_server hi rfl rfl fun x => ?_
      simp [Server.unrun, executedCalls]
    · cases hs
  | go k id how =>
    simp only [stepServer] at hs
    split at hs
    · cases hs
      exact hrefl
    split at hs
    · cases hs
    split at hs
    · rename_i srv' hsend
      cases hs
      refine ⟨[s.made], .inr ⟨rfl, rfl⟩, fun x => ?_⟩
      have hset := count_setServer hi srv' x
      have hsent : srv'.unrun.count x = srv.unrun.count x + [s.made].count x := send_unrun hsend x
      have hnil : (executedCalls []).count x = 0 := rfl
      have ht : ({ s.setServer i srv' with made := s.made + 1 } : RpcSys).unrun =
          (s.setServer i srv').unrun := rfl
      rw [hnil, ht]
      omega
    · cases hs
      exact hrefl
    · cases hs
  | serve k =>
    simp only [stepServer] at hs
    split at hs
    · rename_i ci rest hpc hcalls
      split at hs
      · cases hs
        refine runs_server hi rfl rfl fun x => ?_
        simp [Server.unrun, executedCalls, hpc, hcalls]
      · cases hs
    · cases hs
  | exec k ret =>
    simp only [stepServer] at hs
    split at hs
    · rename_i ci hpc
      split at hs
      · cases hs
        refine runs_server hi rfl rfl fun x => ?_
        simp [Server.unrun, executedCalls, RpcEvent.executedCall, hpc, List.count_cons, Nat.add_comm]
      · cases hs
        refine runs_server hi rfl rfl fun x => ?_
        simp [Server.unrun, executedCalls, RpcEvent.executedCall, hpc, List.count_cons, Nat.add_comm]
    · cases hs
  | reply k =>
    simp only [stepServer] at hs
    split at hs
    · rename_i ch ri hpc
      have hboth : ∀ (j : Nat) (cl cl' : Client), s.clients[j]? = some cl → cl'.pc = cl.pc →
          Runs s ((s.setServer i { srv with
            pc := if srv.closed = true then .draining else .idle }).setClient j cl') [] := by
        intro j cl cl' hcl hclpc
        refine ⟨[], .inl ⟨rfl, rfl⟩, fun x => ?_⟩
        have hsrv := count_setServer hi { srv with
          pc := if srv.closed = true then .draining else .idle } x
        have hset := count_setClient (s := s.setServer i { srv with
          pc := if srv.closed = true then .draining else .idle }) hcl cl' x
        have hsame : cl'.unrun = cl.unrun := by simp only [Client.unrun, hclpc]
        have hpcs : Server.unrun { srv with
            pc := if srv.closed = true then .draining else .idle } = srv.unrun := by
          cases hc : srv.closed <;> simp [Server.unrun, hpc]
        rw [hpcs] at hsrv
        rw [hsame] at hset
        have hnil : (executedCalls []).count x = 0 := rfl
        rw [hnil]
        omega
      cases ch with
      | sync j =>
        simp only [Option.bind_eq_some_iff] at hs
        obtain ⟨cl, hcl, hs⟩ := hs
        split at hs
        · cases hs
          exact hboth j cl _ hcl rfl
        · cases hs
      | asyn j =>
        simp only [Option.bind_eq_some_iff] at hs
        obtain ⟨cl, hcl, hs⟩ := hs
        split at hs
        · cases hs
          exact hboth j cl _ hcl rfl
        · cases hs
    · cases hs
  | close k =>
    simp only [stepServer] at hs
    split at hs
    · rename_i hpc
      cases hs
      refine runs_server hi rfl rfl fun x => ?_
      simp [Server.unrun, executedCalls, hpc]
    · cases hs
  | drain k =>
    simp only [stepServer] at hs
    split at hs
    · rename_i hpc hcalls
      cases hs
      refine runs_server hi rfl rfl fun x => ?_
      simp [Server.unrun, executedCalls, hpc]
    · rename_i ci rest hpc hcalls
      split at hs
      · cases hs
        refine runs_server hi rfl rfl fun x => ?_
        simp [Server.unrun, executedCalls, hpc, hcalls, List.count_cons]
      · cases hs
        refine runs_server hi rfl rfl fun x => ?_
        simp [Server.unrun, executedCalls, hpc, hcalls, List.count_cons]
    · cases hs
  | _ => simp [stepServer] at hs

theorem stepClient_runs (hi : s.clients[i]? = some c)
    (hs : s.stepClient i c a = some (t, evs)) : Runs s t evs := by
  have hrefused : ∀ ch err, Runs s { s with made := s.made + 1 }
      [.asked ch s.made, .answered ch s.made (.error err)] := fun ch err =>
    ⟨[s.made], .inr ⟨rfl, rfl⟩, fun x => Nat.le_add_right _ _⟩
  cases a with
  | attach k j =>
    simp only [stepClient] at hs
    split at hs
    · split at hs
      · cases hs
        refine runs_client [] hi (.inl ⟨rfl, rfl⟩) rfl rfl fun x => ?_
        exact le_rfl
      · cases hs
    · cases hs
  | call k id n =>
    simp only [stepClient] at hs
    split at hs
    · split at hs
      · cases hs
        exact hrefused _ _
      · cases hs
        refine runs_client [s.made] hi (.inr ⟨rfl, rfl⟩) rfl rfl fun x => ?_
        simp [Client.unrun]
    · cases hs
  | asynCall k id n =>
    simp only [stepClient] at hs
    split at hs
    · split at hs
      · cases hs
        exact hrefused _ _
      · split at hs
        · cases hs
          refine runs_client [s.made] hi (.inr ⟨rfl, rfl⟩) rfl rfl fun x => ?_
          simp [Client.unrun]
        · cases hs
          refine runs_client [s.made] hi (.inr ⟨rfl, rfl⟩) rfl rfl fun x => ?_
          simp [Client.unrun]
    · cases hs
  | send k how =>
    simp only [stepClient] at hs
    split at hs
    · rename_i ci block j hpc hj
      split at hs
      · cases hs
      split at hs
      · rename_i srv' hsend
        cases hs
        obtain ⟨srv, hsrv, hsend⟩ := Option.bind_eq_some_iff.mp hsend
        refine ⟨[], .inl ⟨rfl, rfl⟩, fun x => ?_⟩
        have hset := count_setServer hsrv srv' x
        have hset' := count_setClient (s := s.setServer j srv') hi
          { c with pc := if block = true then .waiting ci.call else .counting } x
        have hdone : Client.unrun { c with
            pc := if block = true then .waiting ci.call else .counting } = [] := by
          cases block <;> rfl
        have hci : c.unrun = [ci.call] := by simp only [Client.unrun, hpc]
        have hnil : (executedCalls []).count x = 0 := rfl
        rw [send_unrun hsend] at hset
        rw [hdone, hci, List.count_nil] at hset'
        rw [hnil]
        omega
      · split at hs
        · cases hs
          refine runs_client [] hi (.inl ⟨rfl, rfl⟩) rfl rfl fun x => ?_
          simp [Client.unrun]
        · cases hs
          refine runs_client [] hi (.inl ⟨rfl, rfl⟩) rfl rfl fun x => ?_
          simp [Client.unrun]
      · cases hs
    · cases hs
  | recv k =>
    simp only [stepClient] at hs
    split at hs
    · cases hs
      refine runs_client [] hi (.inl ⟨rfl, rfl⟩) rfl rfl fun x => ?_
      simp [Client.unrun]
    · cases hs
  | fail k =>
    simp only [stepClient] at hs
    split at hs
    · split at hs
      · cases hs
        refine runs_client [] hi (.inl ⟨rfl, rfl⟩) rfl rfl fun x => ?_
        simp [Client.unrun]
      · cases hs
    · cases hs
  | count k =>
    simp only [stepClient] at hs
    split at hs
    · cases hs
      refine runs_client [] hi (.inl ⟨rfl, rfl⟩) rfl rfl fun x => ?_
      simp [Client.unrun]
    · cases hs
  | cb k =>
    simp only [stepClient] at hs
    split at hs
    · cases hs
      refine runs_client [] hi (.inl ⟨rfl, rfl⟩) rfl rfl fun x => ?_
      exact le_rfl
    · cases hs
  | _ => simp [stepClient] at hs

theorem rpcStep'_runs (hs : rpcStep' s a = some (t, evs)) : Runs s t evs := by
  unfold rpcStep' at hs
  split at hs
  · obtain ⟨srv, hi, hs⟩ := Option.bind_eq_some_iff.mp hs
    exact stepServer_runs hi hs
  · obtain ⟨c, hi, hs⟩ := Option.bind_eq_some_iff.mp hs
    exact stepClient_runs hi hs
  · split at hs
    · cases hs
      refine ⟨[], .inl ⟨rfl, rfl⟩, fun x => ?_⟩
      simp [RpcSys.unrun, Server.unrun, Server.newServer, executedCalls]
    · cases hs
      refine ⟨[], .inl ⟨rfl, rfl⟩, fun x => ?_⟩
      simp [RpcSys.unrun, Client.unrun, Client.newClient, executedCalls]
    · cases hs

theorem count_new (x y : CallId) : [y].count x = if x = y then 1 else 0 := by
  by_cases h : x = y
  · simp [h]
  · rw [List.count_singleton, if_neg (by simpa using Ne.symm h), if_neg h]

structure Ran (s : RpcSys) (trace : List RpcEvent) : Prop where
  once : ∀ x, s.unrun.count x + (executedCalls trace).count x ≤ 1
  made : ∀ x, s.made ≤ x → s.unrun.count x + (executedCalls trace).count x = 0

theorem Ran.step {trace : List RpcEvent} (h : Ran s trace) (hs : Runs s t evs) :
    Ran t (trace ++ evs) := by
  obtain ⟨new, hnew, hle⟩ := hs
  have happ : ∀ x, (executedCalls (trace ++ evs)).count x =
      (executedCalls trace).count x + (executedCalls evs).count x := fun x => by
    rw [executedCalls, List.filterMap_append, List.count_append]
    rfl
  refine ⟨fun x => ?_, fun x hx => ?_⟩
  · have hx := hle x
    have honce := h.once x
    have hmade := h.made x
    rw [happ]
    rcases hnew with ⟨rfl, -⟩ | ⟨rfl, -⟩
    · rw [List.count_nil] at hx
      omega
    · rw [count_new] at hx
      split at hx
      · rename_i hxm
        have hzero := hmade hxm.ge
        omega
      · omega
  · have hle' := hle x
    rw [happ]
    rcases hnew with ⟨rfl, hm⟩ | ⟨rfl, hm⟩
    · have hzero := h.made x (hm ▸ hx)
      rw [List.count_nil] at hle'
      omega
    · rw [hm] at hx
      have hzero := h.made x (Nat.le_of_lt hx)
      rw [count_new, if_neg (Nat.ne_of_gt hx)] at hle'
      omega

/-- No function is executed twice for a call. -/
theorem calls_executed_once {as : List RpcAct} (h : run rpcStep RpcSys.init as = some s) :
    (executedCalls (collect rpcStep rpcEvents RpcSys.init as)).Nodup := by
  have hran : Ran s ([] ++ collect rpcStep rpcEvents RpcSys.init as) := collect_invariant
    (fun s a t trace hp _ ht => hp.step (rpcStep'_runs (rpcStep_eq ht)))
    ⟨fun x => Nat.zero_le _, fun x _ => rfl⟩ (meets_true _ _) h
  refine List.nodup_iff_count_le_one.mpr fun x => ?_
  have honce := hran.once x
  rw [List.nil_append] at honce
  omega

theorem calls_executed_once_called :
    ∃ s, run rpcStep RpcSys.init called = some s ∧
      (executedCalls (collect rpcStep rpcEvents RpcSys.init called)).Nodup := by
  obtain ⟨s, hs⟩ := Option.isSome_iff_exists.mp
    (by decide : (run rpcStep RpcSys.init called).isSome = true)
  exact ⟨s, hs, calls_executed_once hs⟩

end AlgorithmLib.ChanRpc
