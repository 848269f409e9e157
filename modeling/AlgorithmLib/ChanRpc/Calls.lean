import AlgorithmLib.ChanRpc.Model
import AlgorithmLib.Library.Shares

/-!
The calls in flight. Each one is in a channel or in the hands of a server or of a client, together
with the channel that its answer goes to. A client has no more of them than the channel has room.
-/

set_option autoImplicit false

namespace AlgorithmLib.ChanRpc

open Run

abbrev Flight := RetChan × CallId

def CallInfo.flight (ci : CallInfo) : Option Flight := ci.chanRet.map fun ch => (ch, ci.call)

def ServerPc.held : ServerPc → List Flight
  | executing ci => ci.flight.toList
  | replying chanRet ri => [(chanRet, ri.call)]
  | _ => []

def Server.held (srv : Server) : List Flight := srv.pc.held ++ srv.chanCall.filterMap CallInfo.flight

def ClientPc.held (i : Nat) : ClientPc → List Flight
  | calling ci _ => ci.flight.toList
  | failing ri => [(.asyn i, ri.call)]
  | _ => []

def Client.held (i : Nat) (c : Client) : List Flight :=
  c.pc.held i ++ (c.chanSyncRet.map (fun ri => (.sync i, ri.call)) ++
    c.chanAsynRet.map (fun ri => (.asyn i, ri.call)))

def ClientPc.uncounted : ClientPc → Int
  | calling _ block => if block = true then 0 else 1
  | failing _ => 1
  | counting => 1
  | _ => 0

def ClientPc.syncCalls : ClientPc → Int
  | calling _ block => if block = true then 1 else 0
  | waiting _ => 1
  | _ => 0

def ClientPc.Asks : ClientPc → CallId → Prop
  | calling ci block, call => block = true ∧ ci.call = call
  | waiting call', call => call' = call
  | _, _ => False

def ClientPc.Own (i : Nat) : ClientPc → Prop
  | calling ci block => ci.chanRet = some (if block = true then .sync i else .asyn i)
  | _ => True

namespace RpcSys

def held (s : RpcSys) : List Flight :=
  Shares.all (fun _ => Server.held) s.servers ++ Shares.all Client.held s.clients

def opened (s : RpcSys) : RetChan → Int
  | .sync i => (s.clients[i]?).elim 0 fun c : Client => c.pc.syncCalls
  | .asyn i => (s.clients[i]?).elim 0 fun c : Client => c.pendingAsynCall + c.pc.uncounted

def capacity (s : RpcSys) : RetChan → Int
  | .sync i => (s.clients[i]?).elim 0 fun _ => 1
  | .asyn i => (s.clients[i]?).elim 0 fun c : Client => c.len

structure Inv (s : RpcSys) : Prop where
  nodup : (s.held.map Prod.snd).Nodup
  lt : ∀ x ∈ s.held, x.2 < s.made
  count : ∀ ch, (s.held.countP (fun x => x.1 = ch) : Int) = s.opened ch
  bound : ∀ ch, s.opened ch ≤ s.capacity ch
  own : ∀ (i : Nat) (c : Client), s.clients[i]? = some c → c.pc.Own i
  asks : ∀ (i : Nat) (c : Client) (call : CallId), s.clients[i]? = some c →
    (RetChan.sync i, call) ∈ s.held → c.pc.Asks call

variable {s t : RpcSys} {i j : Nat} {srv srv' : Server} {c c' : Client} {x : Flight}

theorem held_setServer (h : s.servers[i]? = some srv) (srv' : Server) :
    (srv.held ++ (s.setServer i srv').held).Perm (srv'.held ++ s.held) := by
  have hset := (Shares.all_set (fun _ => Server.held) h srv').append_right
    (Shares.all Client.held s.clients)
  simpa only [held, setServer, List.append_assoc] using hset

theorem held_setClient (h : s.clients[i]? = some c) (c' : Client) :
    (c.held i ++ (s.setClient i c').held).Perm (c'.held i ++ s.held) := by
  have hset := (Shares.all_set Client.held h c').append_left
    (Shares.all (fun _ => Server.held) s.servers)
  have hleft := List.perm_append_comm_assoc (c.held i)
    (Shares.all (fun _ => Server.held) s.servers) (Shares.all Client.held (s.clients.set i c'))
  have hright := List.perm_append_comm_assoc (Shares.all (fun _ => Server.held) s.servers)
    (c'.held i) (Shares.all Client.held s.clients)
  exact hleft.trans (hset.trans hright)

theorem setServer_kept (h : s.servers[i]? = some srv) (hp : srv'.held.Perm srv.held) :
    (s.setServer i srv').held.Perm s.held :=
  (List.perm_append_left_iff srv.held).mp ((held_setServer h srv').trans (hp.append_right _))

theorem setServer_more (h : s.servers[i]? = some srv) (hp : srv'.held.Perm (x :: srv.held)) :
    (s.setServer i srv').held.Perm (x :: s.held) := by
  have hset := (held_setServer h srv').trans (hp.append_right _)
  refine (List.perm_append_left_iff srv.held).mp (hset.trans ?_)
  exact List.perm_middle.symm

theorem setServer_less (h : s.servers[i]? = some srv) (hp : srv.held.Perm (x :: srv'.held)) :
    s.held.Perm (x :: (s.setServer i srv').held) := by
  have hset := (hp.append_right _).symm.trans (held_setServer h srv')
  refine ((List.perm_append_left_iff srv'.held).mp (List.Perm.trans ?_ hset)).symm
  exact List.perm_middle

theorem setClient_kept (h : s.clients[i]? = some c) (hp : (c'.held i).Perm (c.held i)) :
    (s.setClient i c').held.Perm s.held :=
  (List.perm_append_left_iff (c.held i)).mp ((held_setClient h c').trans (hp.append_right _))

theorem setClient_more (h : s.clients[i]? = some c) (hp : (c'.held i).Perm (x :: c.held i)) :
    (s.setClient i c').held.Perm (x :: s.held) := by
  have hset := (held_setClient h c').trans (hp.append_right _)
  refine (List.perm_append_left_iff (c.held i)).mp (hset.trans ?_)
  exact List.perm_middle.symm

theorem setClient_less (h : s.clients[i]? = some c) (hp : (c.held i).Perm (x :: c'.held i)) :
    s.held.Perm (x :: (s.setClient i c').held) := by
  have hset := (hp.append_right _).symm.trans (held_setClient h c')
  refine ((List.perm_append_left_iff (c'.held i)).mp (List.Perm.trans ?_ hset)).symm
  exact List.perm_middle

theorem opened_setClient (h : s.clients[i]? = some c) (c' : Client) (ch : RetChan) :
    (s.setClient i c').opened ch =
      if ch = .sync i then c'.pc.syncCalls
      else if ch = .asyn i then c'.pendingAsynCall + c'.pc.uncounted
      else s.opened ch := by
  have hlt := (List.getElem?_eq_some_iff.mp h).1
  cases ch with
  | sync j =>
    by_cases hj : j = i
    · subst hj
      simp [opened, setClient, hlt]
    · simp [opened, setClient, List.getElem?_set_ne (Ne.symm hj), hj]
  | asyn j =>
    by_cases hj : j = i
    · subst hj
      simp [opened, setClient, hlt]
    · simp [opened, setClient, List.getElem?_set_ne (Ne.symm hj), hj]

theorem capacity_setClient (h : s.clients[i]? = some c) (hlen : c'.len = c.len) (ch : RetChan) :
    (s.setClient i c').capacity ch = s.capacity ch := by
  have hlt := (List.getElem?_eq_some_iff.mp h).1
  cases ch with
  | sync j =>
    by_cases hj : j = i
    · subst hj
      simp [capacity, setClient, hlt]
    · simp [capacity, setClient, List.getElem?_set_ne (Ne.symm hj)]
  | asyn j =>
    by_cases hj : j = i
    · subst hj
      simp only [capacity, setClient, List.getElem?_set_self hlt, h, Option.elim_some, hlen]
    · simp [capacity, setClient, List.getElem?_set_ne (Ne.symm hj)]

inductive Effect (s t : RpcSys) : List RpcEvent → Prop where
  | kept {evs : List RpcEvent} (hheld : t.held.Perm s.held) (hopened : ∀ ch, t.opened ch = s.opened ch)
      (hmade : s.made ≤ t.made) (hevs : evs = [] ∨ ∃ call ret, evs = [.executed call ret]) :
      Effect s t evs
  | asked (ch : RetChan) (hheld : t.held.Perm ((ch, s.made) :: s.held))
      (hopened : ∀ d, t.opened d = s.opened d + if d = ch then 1 else 0)
      (hroom : s.opened ch < s.capacity ch) (hmade : t.made = s.made + 1)
      (hasks : ∀ i, ch = .sync i → ∃ c, t.clients[i]? = some c ∧ c.pc.Asks s.made) :
      Effect s t [.asked ch s.made]
  | answered (ch : RetChan) (call : CallId) (ret : Answer) (hheld : s.held.Perm ((ch, call) :: t.held))
      (hopened : ∀ d, s.opened d = t.opened d + if d = ch then 1 else 0) (hmade : t.made = s.made) :
      Effect s t [.answered ch call ret]
  | refused (ch : RetChan) (err : RpcError) (hheld : t.held = s.held)
      (hopened : t.opened = s.opened) (hmade : t.made = s.made + 1) :
      Effect s t [.asked ch s.made, .answered ch s.made (.error err)]

def Keeps (s t : RpcSys) : Prop :=
  (∀ ch, s.capacity ch ≤ t.capacity ch) ∧
    (∀ (i : Nat) (c : Client), t.clients[i]? = some c →
      (∀ d : Client, s.clients[i]? = some d → d.pc.Own i) → c.pc.Own i) ∧
    ∀ (i : Nat) (c d : Client) (call : CallId), s.clients[i]? = some c →
      t.clients[i]? = some d → c.pc.Asks call →
      d.pc.Asks call ∨ d.pc.syncCalls = 0

theorem countP_pos_of_mem {l : List Flight} {ch : RetChan} {call : CallId} (h : (ch, call) ∈ l) :
    0 < l.countP (fun x => x.1 = ch) :=
  List.countP_pos_iff.mpr ⟨(ch, call), h, by simp⟩

theorem opened_pos (hcount : ∀ ch, (s.held.countP (fun x => x.1 = ch) : Int) = s.opened ch)
    {ch : RetChan} {call : CallId} (h : (ch, call) ∈ s.held) : 0 < s.opened ch := by
  rw [← hcount ch]
  exact_mod_cast countP_pos_of_mem h

theorem Keeps.asks (hk : Keeps s t) (h : s.Inv)
    (hcount : ∀ ch, (t.held.countP (fun x => x.1 = ch) : Int) = t.opened ch) {call : CallId}
    {d : Client} (hd : t.clients[i]? = some d) (hold : (RetChan.sync i, call) ∈ s.held)
    (hnew : (RetChan.sync i, call) ∈ t.held) : d.pc.Asks call := by
  have hopened := opened_pos h.count hold
  cases hc : s.clients[i]? with
  | none => simp [opened, hc] at hopened
  | some c =>
    obtain hasks | hdone := hk.2.2 i c d call hc hd (h.asks i c call hc hold)
    · exact hasks
    · have hopened := opened_pos hcount hnew
      simp [opened, hd, hdone] at hopened

theorem Inv.effect {evs : List RpcEvent} (h : s.Inv) (he : Effect s t evs) (hk : Keeps s t) :
    t.Inv := by
  have hown : ∀ (i : Nat) (c : Client), t.clients[i]? = some c → c.pc.Own i :=
    fun i c hc => hk.2.1 i c hc fun d hd => h.own i d hd
  cases he with
  | kept hheld hopened hmade hevs =>
    have hcount : ∀ ch, (t.held.countP (fun x => x.1 = ch) : Int) = t.opened ch := fun ch => by
      rw [hheld.countP_eq, h.count, hopened]
    refine ⟨(hheld.map _).nodup_iff.mpr h.nodup, fun x hx => ?_, hcount, fun ch => ?_, hown,
      fun i d call hd hmem => hk.asks h hcount hd (hheld.mem_iff.mp hmem) hmem⟩
    · exact lt_of_lt_of_le (h.lt x (hheld.mem_iff.mp hx)) hmade
    · rw [hopened]
      exact (h.bound ch).trans (hk.1 ch)
  | asked ch hheld hopened hroom hmade hasks =>
    have hcount : ∀ d, (t.held.countP (fun x => x.1 = d) : Int) = t.opened d := fun d => by
      rw [hheld.countP_eq, List.countP_cons, hopened, ← h.count]
      by_cases hd : d = ch
      · simp [hd]
      · simp [hd, Ne.symm hd]
    refine ⟨?_, fun x hx => ?_, hcount, fun d => ?_, hown, fun i d call hd hmem => ?_⟩
    · refine (hheld.map _).nodup_iff.mpr (List.nodup_cons.mpr ⟨fun hmem => ?_, h.nodup⟩)
      obtain ⟨y, hy, hmade'⟩ := List.mem_map.mp hmem
      have hlt := h.lt y hy
      rw [hmade'] at hlt
      exact Nat.lt_irrefl _ hlt
    · rw [hmade]
      rcases List.mem_cons.mp (hheld.mem_iff.mp hx) with rfl | hx
      · exact Nat.lt_succ_self _
      · exact Nat.lt_succ_of_lt (h.lt x hx)
    · rw [hopened]
      have hbound := h.bound d
      have hcap := hk.1 d
      by_cases hd : d = ch
      · subst hd
        simp only [if_true]
        omega
      · simp only [if_neg hd]
        omega
    · rcases List.mem_cons.mp (hheld.mem_iff.mp hmem) with heq | hold
      · obtain ⟨rfl, rfl⟩ := Prod.mk.inj heq
        obtain ⟨d', hd', hd'asks⟩ := hasks i rfl
        rw [hd'] at hd
        exact Option.some.inj hd ▸ hd'asks
      · exact hk.asks h hcount hd hold hmem
  | answered ch call ret hheld hopened hmade =>
    have hcount : ∀ d, (t.held.countP (fun x => x.1 = d) : Int) = t.opened d := fun d => by
      have hd := h.count d
      rw [hheld.countP_eq, List.countP_cons, hopened] at hd
      by_cases hch : d = ch
      · simp [hch] at hd ⊢
        omega
      · simp [hch, Ne.symm hch] at hd
        exact hd
    have hold : ∀ x ∈ t.held, x ∈ s.held := fun x hx => hheld.mem_iff.mpr (List.mem_cons_of_mem _ hx)
    refine ⟨?_, fun x hx => ?_, hcount, fun d => ?_, hown, fun i d call hd hmem =>
      hk.asks h hcount hd (hold _ hmem) hmem⟩
    · exact ((hheld.map _).nodup_iff.mp h.nodup).of_cons
    · rw [hmade]
      exact h.lt x (hold x hx)
    · have hbound := h.bound d
      have hcap := hk.1 d
      rw [hopened] at hbound
      split at hbound <;> omega
  | refused ch err hheld hopened hmade =>
    have hcount : ∀ ch, (t.held.countP (fun x => x.1 = ch) : Int) = t.opened ch := fun ch => by
      rw [hheld, h.count, hopened]
    refine ⟨hheld ▸ h.nodup, fun x hx => ?_, hcount, fun d => ?_, hown,
      fun i d call hd hmem => hk.asks h hcount hd (hheld ▸ hmem) hmem⟩
    · rw [hmade]
      exact Nat.lt_succ_of_lt (h.lt x (hheld ▸ hx))
    · rw [hopened]
      exact (h.bound d).trans (hk.1 d)

theorem inv_init : init.Inv where
  nodup := List.nodup_nil
  lt := fun _ hx => absurd hx List.not_mem_nil
  count := fun ch => by cases ch <;> rfl
  bound := fun ch => by cases ch <;> exact le_refl 0
  own := fun _ _ hc => by simp [init] at hc
  asks := fun _ _ _ hc => by simp [init] at hc

theorem keeps_of_clients (h : t.clients = s.clients) : Keeps s t := by
  refine ⟨fun ch => ?_, fun i c hc hown => hown c (h ▸ hc), fun i c d call hc hd hasks => ?_⟩
  · cases ch <;> simp only [capacity, h, le_refl]
  · rw [h, hc] at hd
    cases hd
    exact .inl hasks

theorem keeps_of_set (hi : s.clients[i]? = some c) (ht : t.clients = s.clients.set i c')
    (hlen : c'.len = c.len) (hown : c.pc.Own i → c'.pc.Own i)
    (hasks : ∀ call, c.pc.Asks call → c'.pc.Asks call ∨ c'.pc.syncCalls = 0) : Keeps s t := by
  have hlt := (List.getElem?_eq_some_iff.mp hi).1
  refine ⟨fun ch => ?_, fun j d hd hold => ?_, fun j d e call hd he hdasks => ?_⟩
  · have hcap := capacity_setClient hi hlen ch
    refine le_of_eq (hcap.symm.trans ?_)
    cases ch <;> simp only [capacity, setClient, ht]
  · rw [ht] at hd
    by_cases hj : j = i
    · subst hj
      rw [List.getElem?_set_self hlt] at hd
      cases hd
      exact hown (hold c hi)
    · rw [List.getElem?_set_ne (Ne.symm hj)] at hd
      exact hold d hd
  · rw [ht] at he
    by_cases hj : j = i
    · subst hj
      rw [List.getElem?_set_self hlt] at he
      cases he
      rw [hi] at hd
      cases hd
      exact hasks call hdasks
    · rw [List.getElem?_set_ne (Ne.symm hj), hd] at he
      cases he
      exact .inl hdasks

theorem send_held {ci : CallInfo} {how : Send} (h : srv.send ci how = some (.ok srv')) :
    srv'.held.Perm (ci.flight.toList ++ srv.held) := by
  cases how with
  | buffer =>
    simp only [Server.send] at h
    split at h
    · simp at h
    · split at h
      · simp only [Option.some.injEq, Except.ok.injEq] at h
        subst h
        cases hf : ci.flight with
        | none => simp [Server.held, hf]
        | some x =>
          simp only [Server.held, List.filterMap_append, List.filterMap_cons, hf,
            List.filterMap_nil, Option.toList_some, ← List.append_assoc]
          exact List.perm_append_singleton _ _
      · simp at h
  | handoff =>
    simp only [Server.send] at h
    split at h
    · rename_i hpc
      split at h
      · simp only [Option.some.injEq, Except.ok.injEq] at h
        subst h
        simp [Server.held, ServerPc.held, hpc]
      · simp at h
    · simp at h
  | full =>
    simp only [Server.send] at h
    split at h <;> simp at h

theorem opened_set (hi : s.clients[i]? = some c)
    (hsync : c'.pc.syncCalls = c.pc.syncCalls)
    (hasyn : c'.pendingAsynCall + c'.pc.uncounted = c.pendingAsynCall + c.pc.uncounted)
    (ch : RetChan) : (s.setClient i c').opened ch = s.opened ch := by
  rw [opened_setClient hi]
  split
  · rename_i hch
    rw [hch, hsync]
    simp [opened, hi]
  · split
    · rename_i hch
      rw [hch, hasyn]
      simp [opened, hi]
    · rfl

theorem reply_effect (hi : s.servers[i]? = some srv) {ch : RetChan} {ri : RetInfo}
    (hless : srv.held.Perm ((ch, ri.call) :: srv'.held)) (hj : s.clients[j]? = some c)
    (hmore : (c'.held j).Perm ((ch, ri.call) :: c.held j)) (hlen : c'.len = c.len)
    (hpc : c'.pc = c.pc) (hpending : c'.pendingAsynCall = c.pendingAsynCall) :
    Effect s ((s.setServer i srv').setClient j c') [] ∧
      Keeps s ((s.setServer i srv').setClient j c') := by
  have hj' : (s.setServer i srv').clients[j]? = some c := hj
  have hheld := (setClient_more hj' hmore).trans (setServer_less hi hless).symm
  refine ⟨.kept hheld (fun ch => ?_) le_rfl (.inl rfl),
    keeps_of_set hj rfl hlen (fun h => by rw [hpc]; exact h) fun call h => .inl (by rw [hpc]; exact h)⟩
  rw [opened_set hj' (by rw [hpc]) (by rw [hpc, hpending])]
  rfl

theorem server_kept (hi : s.servers[i]? = some srv) (hheld : srv'.held = srv.held)
    (evs : List RpcEvent) (hevs : evs = [] ∨ ∃ call ret, evs = [.executed call ret]) :
    Effect s (s.setServer i srv') evs ∧ Keeps s (s.setServer i srv') :=
  ⟨.kept (setServer_kept hi (List.Perm.of_eq hheld)) (fun _ => rfl) le_rfl hevs,
    keeps_of_clients rfl⟩

theorem stepServer_effect {a : RpcAct} {evs : List RpcEvent} (hi : s.servers[i]? = some srv)
    (hs : s.stepServer i srv a = some (t, evs)) : Effect s t evs ∧ Keeps s t := by
  cases a with
  | register k id ft =>
    simp only [stepServer] at hs
    split at hs
    · cases hs
      refine server_kept hi ?_ [] (.inl rfl)
      rfl
    · cases hs
  | go k id how =>
    simp only [stepServer] at hs
    split at hs
    · cases hs
      exact ⟨.kept (List.Perm.refl _) (fun _ => rfl) le_rfl (.inl rfl), keeps_of_clients rfl⟩
    split at hs
    · cases hs
    split at hs
    · rename_i srv' hsend
      cases hs
      have hheld := send_held hsend
      exact ⟨.kept (setServer_kept hi hheld) (fun _ => rfl) (Nat.le_succ _) (.inl rfl),
        keeps_of_clients rfl⟩
    · cases hs
      exact ⟨.kept (List.Perm.refl _) (fun _ => rfl) le_rfl (.inl rfl), keeps_of_clients rfl⟩
    · cases hs
  | serve k =>
    simp only [stepServer] at hs
    split at hs
    · rename_i ci rest hpc hcalls
      split at hs
      · cases hs
        refine server_kept hi ?_ [] (.inl rfl)
        cases hf : ci.flight <;> simp [Server.held, ServerPc.held, hpc, hcalls, hf]
      · cases hs
    · cases hs
  | exec k ret =>
    simp only [stepServer] at hs
    split at hs
    · rename_i ci hpc
      split at hs
      · rename_i ch hch
        cases hs
        refine server_kept hi ?_ _ (.inr ⟨_, _, rfl⟩)
        simp [Server.held, ServerPc.held, hpc, CallInfo.flight, hch]
      · rename_i hch
        cases hs
        refine server_kept hi ?_ _ (.inr ⟨_, _, rfl⟩)
        simp [Server.held, ServerPc.held, hpc, CallInfo.flight, hch]
    · cases hs
  | reply k =>
    simp only [stepServer] at hs
    split at hs
    · rename_i ch ri hpc
      have hless : srv.held.Perm ((ch, ri.call) ::
          ({ srv with pc := if srv.closed = true then .draining else .idle } : Server).held) := by
        by_cases hc : srv.closed = true
        · simp [Server.held, ServerPc.held, hpc, hc]
        · simp [Server.held, ServerPc.held, hpc, hc]
      cases ch with
      | sync j =>
        simp only [Option.bind_eq_some_iff] at hs
        obtain ⟨cl, hcl, hs⟩ := hs
        split at hs
        · cases hs
          refine reply_effect hi hless hcl ?_ rfl rfl rfl
          simp only [Client.held, List.map_append, List.map_cons, List.map_nil, List.append_assoc,
            List.singleton_append]
          exact (List.perm_middle.append_left _).trans List.perm_middle
        · cases hs
      | asyn j =>
        simp only [Option.bind_eq_some_iff] at hs
        obtain ⟨cl, hcl, hs⟩ := hs
        split at hs
        · cases hs
          refine reply_effect hi hless hcl ?_ rfl rfl rfl
          simp only [Client.held, List.map_append, List.map_cons, List.map_nil, ← List.append_assoc]
          exact List.perm_append_singleton _ _
        · cases hs
    · cases hs
  | close k =>
    simp only [stepServer] at hs
    split at hs
    · rename_i hpc
      cases hs
      refine server_kept hi ?_ [] (.inl rfl)
      simp [Server.held, ServerPc.held, hpc]
    · cases hs
  | drain k =>
    simp only [stepServer] at hs
    split at hs
    · rename_i hpc hcalls
      cases hs
      refine server_kept hi ?_ [] (.inl rfl)
      simp [Server.held, ServerPc.held, hpc]
    · rename_i ci rest hpc hcalls
      split at hs
      · rename_i ch hch
        cases hs
        refine server_kept hi ?_ [] (.inl rfl)
        simp [Server.held, ServerPc.held, hpc, hcalls, CallInfo.flight, hch]
      · rename_i hch
        cases hs
        refine server_kept hi ?_ [] (.inl rfl)
        simp [Server.held, ServerPc.held, hpc, hcalls, CallInfo.flight, hch]
    · cases hs
  | _ => simp [stepServer] at hs

theorem client_kept (hi : s.clients[i]? = some c) (hheld : (c'.held i).Perm (c.held i))
    (hlen : c'.len = c.len) (hsync : c'.pc.syncCalls = c.pc.syncCalls)
    (hasyn : c'.pendingAsynCall + c'.pc.uncounted = c.pendingAsynCall + c.pc.uncounted)
    (hown : c.pc.Own i → c'.pc.Own i)
    (hasks : ∀ call, c.pc.Asks call → c'.pc.Asks call ∨ c'.pc.syncCalls = 0) :
    Effect s (s.setClient i c') [] ∧ Keeps s (s.setClient i c') :=
  ⟨.kept (setClient_kept hi hheld) (opened_set hi hsync hasyn) le_rfl (.inl rfl),
    keeps_of_set hi rfl hlen hown hasks⟩

theorem client_answered (ch : RetChan) (hi : s.clients[i]? = some c) {call : CallId} (ret : Answer)
    (hheld : (c.held i).Perm ((ch, call) :: c'.held i)) (hlen : c'.len = c.len)
    (hsync : c.pc.syncCalls = c'.pc.syncCalls + if .sync i = ch then 1 else 0)
    (hasyn : c.pendingAsynCall + c.pc.uncounted =
      c'.pendingAsynCall + c'.pc.uncounted + if .asyn i = ch then 1 else 0)
    (hch : ch = .sync i ∨ ch = .asyn i) (hown : c'.pc.Own i)
    (hasks : ∀ call, c.pc.Asks call → c'.pc.Asks call ∨ c'.pc.syncCalls = 0) :
    Effect s (s.setClient i c') [.answered ch call ret] ∧ Keeps s (s.setClient i c') := by
  refine ⟨.answered ch call ret (setClient_less hi hheld) (fun d => ?_) rfl,
    keeps_of_set hi rfl hlen (fun _ => hown) hasks⟩
  rw [opened_setClient hi]
  split
  · rename_i hd
    subst hd
    simpa [opened, hi] using hsync
  · split
    · rename_i hd
      subst hd
      simpa [opened, hi] using hasyn
    · rename_i hd hd'
      rw [if_neg (fun heq => ?_), Int.add_zero]
      rcases hch with hch | hch
      · exact hd (heq.trans hch)
      · exact hd' (heq.trans hch)

theorem client_asked (hi : s.clients[i]? = some c) {ch : RetChan}
    (hheld : (c'.held i).Perm ((ch, s.made) :: c.held i)) (hlen : c'.len = c.len)
    (hsync : c'.pc.syncCalls = c.pc.syncCalls + if .sync i = ch then 1 else 0)
    (hasyn : c'.pendingAsynCall + c'.pc.uncounted =
      c.pendingAsynCall + c.pc.uncounted + if .asyn i = ch then 1 else 0)
    (hch : ch = .sync i ∧ c'.pc.Asks s.made ∧ c.pc.syncCalls < 1 ∨
      ch = .asyn i ∧ c.pendingAsynCall + c.pc.uncounted < c.len) (hown : c'.pc.Own i)
    (hasks : ∀ call, c.pc.Asks call → c'.pc.Asks call ∨ c'.pc.syncCalls = 0) :
    Effect s ({ s with made := s.made + 1 }.setClient i c') [.asked ch s.made] ∧
      Keeps s ({ s with made := s.made + 1 }.setClient i c') := by
  have hlt := (List.getElem?_eq_some_iff.mp hi).1
  refine ⟨.asked ch (setClient_more hi hheld) (fun d => ?_) ?_ rfl (fun j hj => ?_),
    keeps_of_set hi rfl hlen (fun _ => hown) hasks⟩
  · have hset : ({ s with made := s.made + 1 }.setClient i c').opened d =
        (s.setClient i c').opened d := rfl
    rw [hset, opened_setClient hi]
    split
    · rename_i hd
      subst hd
      simpa [opened, hi] using hsync
    · split
      · rename_i hd
        subst hd
        simpa [opened, hi] using hasyn
      · rename_i hd hd'
        rw [if_neg (fun heq => ?_), Int.add_zero]
        rcases hch with hch | hch
        · exact hd (heq.trans hch.1)
        · exact hd' (heq.trans hch.1)
  · rcases hch with ⟨rfl, -, hroom⟩ | ⟨rfl, hroom⟩
    · simpa [opened, capacity, hi] using hroom
    · simpa [opened, capacity, hi] using hroom
  · rcases hch with ⟨rfl, hc, -⟩ | ⟨rfl, -⟩
    · cases hj
      exact ⟨c', by simp [setClient, hlt], hc⟩
    · cases hj

theorem refused {ch : RetChan} (err : RpcError) :
    Effect s { s with made := s.made + 1 } [.asked ch s.made, .answered ch s.made (.error err)] ∧
      Keeps s { s with made := s.made + 1 } :=
  ⟨.refused ch err rfl rfl rfl, keeps_of_clients rfl⟩

theorem send_effect {ci : CallInfo} {block : Bool} {how : Send} (hi : s.clients[i]? = some c)
    (hpc : c.pc = .calling ci block)
    (hflight : ci.flight = some (if block = true then .sync i else .asyn i, ci.call))
    (hj : s.servers[j]? = some srv) (hsend : srv.send ci how = some (.ok srv')) :
    Effect s ((s.setServer j srv').setClient i
        { c with pc := if block = true then .waiting ci.call else .counting }) [] ∧
      Keeps s ((s.setServer j srv').setClient i
        { c with pc := if block = true then .waiting ci.call else .counting }) := by
  have hi' : (s.setServer j srv').clients[i]? = some c := hi
  have hmore := send_held hsend
  rw [hflight] at hmore
  have hless : (c.held i).Perm ((if block = true then .sync i else .asyn i, ci.call) ::
      ({ c with pc := if block = true then .waiting ci.call else .counting } : Client).held i) := by
    cases block <;> simp [Client.held, ClientPc.held, hpc, hflight]
  have hheld := (setServer_more hj hmore).symm.trans (setClient_less hi' hless)
  refine ⟨.kept hheld.cons_inv.symm (fun ch => ?_) le_rfl (.inl rfl),
    keeps_of_set hi rfl rfl (fun _ => ?_) fun call hasks => ?_⟩
  · rw [opened_set hi']
    · rfl
    · cases block <;> simp [ClientPc.syncCalls, hpc]
    · cases block <;> simp [ClientPc.uncounted, hpc]
  · cases block <;> trivial
  · rw [hpc] at hasks
    obtain ⟨rfl, hcall⟩ := hasks
    exact .inl hcall

theorem Inv.call_eq (h : s.Inv) (hi : s.clients[i]? = some c) {call : CallId} {ri : RetInfo}
    (hpc : c.pc = .waiting call) (hri : ri ∈ c.chanSyncRet) : ri.call = call := by
  have hmem : (RetChan.sync i, ri.call) ∈ c.held i := by
    refine List.mem_append_right _ (List.mem_append_left _ ?_)
    exact List.mem_map.mpr ⟨ri, hri, rfl⟩
  have hasks := h.asks i c ri.call hi
    (List.mem_append_right _ (Shares.mem_all_of_mem Client.held hi hmem))
  rw [hpc] at hasks
  exact hasks.symm

theorem stepClient_effect {a : RpcAct} {evs : List RpcEvent} (h : s.Inv)
    (hi : s.clients[i]? = some c) (hs : s.stepClient i c a = some (t, evs)) :
    Effect s t evs ∧ Keeps s t := by
  have hown := h.own i c hi
  cases a with
  | attach k j =>
    simp only [stepClient] at hs
    split at hs
    · split at hs
      · cases hs
        exact client_kept hi (List.Perm.refl _) rfl rfl rfl id fun _ => .inl
      · cases hs
    · cases hs
  | call k id n =>
    simp only [stepClient] at hs
    split at hs
    · rename_i hpc
      split at hs
      · cases hs
        exact refused _
      · cases hs
        refine client_asked hi ?_ rfl ?_ ?_ (.inl ⟨rfl, ⟨rfl, rfl⟩, ?_⟩) rfl ?_
        · simp [Client.held, ClientPc.held, hpc, CallInfo.flight]
        · simp [ClientPc.syncCalls, hpc]
        · simp [ClientPc.uncounted, hpc]
        · simp [ClientPc.syncCalls, hpc]
        · simp [ClientPc.Asks, hpc]
    · cases hs
  | asynCall k id n =>
    simp only [stepClient] at hs
    split at hs
    · rename_i hpc
      split at hs
      · cases hs
        exact refused _
      · rename_i hroom
        split at hs
        · cases hs
          refine client_asked hi ?_ rfl ?_ ?_ (.inr ⟨rfl, ?_⟩) trivial ?_
          · simp [Client.held, ClientPc.held, hpc]
          · simp [ClientPc.syncCalls, hpc]
          · simp [ClientPc.uncounted, hpc]
          · simp only [ClientPc.uncounted, hpc]
            omega
          · simp [ClientPc.Asks, hpc]
        · cases hs
          refine client_asked hi ?_ rfl ?_ ?_ (.inr ⟨rfl, ?_⟩) rfl ?_
          · simp [Client.held, ClientPc.held, hpc, CallInfo.flight]
          · simp [ClientPc.syncCalls, hpc]
          · simp [ClientPc.uncounted, hpc]
          · simp only [ClientPc.uncounted, hpc]
            omega
          · simp [ClientPc.Asks, hpc]
    · cases hs
  | send k how =>
    simp only [stepClient] at hs
    split at hs
    · rename_i ci block j hpc hj
      rw [hpc] at hown
      have hflight : ci.flight = some (if block = true then .sync i else .asyn i, ci.call) := by
        simp [CallInfo.flight, show ci.chanRet = _ from hown]
      split at hs
      · cases hs
      split at hs
      · rename_i srv' hsend
        cases hs
        obtain ⟨srv, hsrv, hsend⟩ := Option.bind_eq_some_iff.mp hsend
        exact send_effect hi hpc hflight hsrv hsend
      · rename_i err hsend
        cases block with
        | true =>
          simp only [if_true] at hs
          cases hs
          refine client_answered (.sync i) hi _ ?_ rfl ?_ ?_ (.inl rfl) trivial ?_
          · simp [Client.held, ClientPc.held, hpc, hflight]
          · simp [ClientPc.syncCalls, hpc]
          · simp [ClientPc.uncounted, hpc]
          · simp [ClientPc.syncCalls]
        | false =>
          simp only [Bool.false_eq_true, if_false] at hs
          cases hs
          refine client_kept hi ?_ rfl ?_ ?_ (fun _ => trivial) ?_
          · simp [Client.held, ClientPc.held, hpc, hflight]
          · simp [ClientPc.syncCalls, hpc]
          · simp [ClientPc.uncounted, hpc]
          · simp [ClientPc.Asks, hpc]
      · cases hs
    · cases hs
  | recv k =>
    simp only [stepClient] at hs
    split at hs
    · rename_i call ri rest hpc hret
      cases hs
      have hcall : ri.call = call := h.call_eq hi hpc (by simp [hret])
      refine client_answered (.sync i) hi ri.ret ?_ rfl ?_ ?_ (.inl rfl) trivial ?_
      · simp [Client.held, ClientPc.held, hpc, hret, hcall]
      · simp [ClientPc.syncCalls, hpc]
      · simp [ClientPc.uncounted, hpc]
      · simp [ClientPc.syncCalls]
    · cases hs
  | fail k =>
    simp only [stepClient] at hs
    split at hs
    · rename_i ri hpc
      split at hs
      · cases hs
        refine client_kept hi ?_ rfl ?_ ?_ (fun _ => trivial) ?_
        · simp only [Client.held, ClientPc.held, hpc, List.map_append, List.map_cons, List.map_nil,
            List.nil_append, ← List.append_assoc, List.singleton_append]
          exact List.perm_append_singleton _ _
        · simp [ClientPc.syncCalls, hpc]
        · simp [ClientPc.uncounted, hpc]
        · simp [ClientPc.Asks, hpc]
      · cases hs
    · cases hs
  | count k =>
    simp only [stepClient] at hs
    split at hs
    · rename_i hpc
      cases hs
      refine client_kept hi ?_ rfl ?_ ?_ (fun _ => trivial) ?_
      · simp [Client.held, ClientPc.held, hpc]
      · simp [ClientPc.syncCalls, hpc]
      · simp [ClientPc.uncounted, hpc]
      · simp [ClientPc.Asks, hpc]
    · cases hs
  | cb k =>
    simp only [stepClient] at hs
    split at hs
    · rename_i ri rest hpc hret
      cases hs
      refine client_answered (.asyn i) hi ri.ret ?_ rfl ?_ ?_ (.inr rfl) ?_ fun _ => .inl
      · simp [Client.held, ClientPc.held, hpc, hret]
      · simp
      · simp only [if_true]
        omega
      · exact hown
    · cases hs
  | _ => simp [stepClient] at hs

theorem held_newServer (l : Nat) :
    { s with servers := s.servers ++ [Server.newServer l] }.held = s.held := by
  simp [held, Server.held, ServerPc.held, Server.newServer]

theorem newClient_effect (l : Nat) :
    Effect s { s with clients := s.clients ++ [Client.newClient l] } [] ∧
      Keeps s { s with clients := s.clients ++ [Client.newClient l] } := by
  -- a new client has no calls, and the others are the same
  have hold : ∀ (j : Nat) (d : Client), s.clients[j]? = some d →
      (s.clients ++ [Client.newClient l])[j]? = some d := by
    intro j d hd
    rw [List.getElem?_append_left (List.getElem?_eq_some_iff.mp hd).1, hd]
  have hcases : ∀ j : Nat, (s.clients ++ [Client.newClient l])[j]? = s.clients[j]? ∨
      s.clients[j]? = none ∧
        (s.clients ++ [Client.newClient l])[j]? = some (Client.newClient l) := by
    intro j
    cases hd' : s.clients[j]? with
    | some d => exact .inl (hold j d hd')
    | none =>
      cases hd : (s.clients ++ [Client.newClient l])[j]? with
      | none => exact .inl rfl
      | some d =>
        rcases Shares.get_concat hd with rfl | hd
        · exact .inr ⟨rfl, rfl⟩
        · rw [hd'] at hd
          cases hd
  have hmono : ∀ (j : Nat) (g : Client → Int), 0 ≤ g (Client.newClient l) →
      (s.clients[j]?).elim 0 g ≤ ((s.clients ++ [Client.newClient l])[j]?).elim 0 g := by
    intro j g hg
    rcases hcases j with heq | ⟨hnone, heq⟩
    · rw [heq]
    · rw [heq, hnone]
      exact hg
  have hsum : ∀ (j : Nat) (g : Client → Int), g (Client.newClient l) = 0 →
      ((s.clients ++ [Client.newClient l])[j]?).elim 0 g = (s.clients[j]?).elim 0 g := by
    intro j g hg
    rcases hcases j with heq | ⟨hnone, heq⟩
    · rw [heq]
    · rw [heq, hnone]
      exact hg
  refine ⟨.kept ?_ (fun ch => ?_) le_rfl (.inl rfl), fun ch => ?_, fun j d hd hown => ?_,
    fun j d e call hd he hasks => ?_⟩
  · refine List.Perm.of_eq ?_
    simp [held, Client.held, ClientPc.held, Client.newClient]
  · cases ch with
    | sync j => exact hsum j (fun c => c.pc.syncCalls) rfl
    | asyn j => exact hsum j (fun c => c.pendingAsynCall + c.pc.uncounted) rfl
  · cases ch with
    | sync j => exact hmono j (fun _ => 1) (by decide)
    | asyn j => exact hmono j (fun c => c.len) (Int.natCast_nonneg l)
  · rcases Shares.get_concat hd with rfl | hd
    · trivial
    · exact hown d hd
  · rw [hold j d hd] at he
    cases he
    exact .inl hasks

theorem rpcStep'_effect {a : RpcAct} {evs : List RpcEvent} (h : s.Inv)
    (hs : rpcStep' s a = some (t, evs)) : Effect s t evs ∧ Keeps s t := by
  unfold rpcStep' at hs
  split at hs
  · obtain ⟨srv, hi, hs⟩ := Option.bind_eq_some_iff.mp hs
    exact stepServer_effect hi hs
  · obtain ⟨c, hi, hs⟩ := Option.bind_eq_some_iff.mp hs
    exact stepClient_effect h hi hs
  · split at hs
    · cases hs
      exact ⟨.kept (List.Perm.of_eq (held_newServer _)) (fun _ => rfl) le_rfl (.inl rfl),
        keeps_of_clients rfl⟩
    · cases hs
      exact newClient_effect _
    · cases hs

end RpcSys

end AlgorithmLib.ChanRpc
