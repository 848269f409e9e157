import AlgorithmLib.Library.Run

/-!
`chanrpc`: goroutines that call functions of a server through its channel of calls. A client waits
for the answer, or has it called back from its channel of answers, which the goroutine of the client
empties. The schedule, what is called and what the functions return are chosen by the environment.
-/

set_option autoImplicit false

namespace AlgorithmLib.ChanRpc

/-- What a function of a server returns: nothing, an `interface{}`, or a list of them. -/
inductive FuncType where
  | zero
  | one
  | many
  deriving DecidableEq, Repr

/-- The number of a call stands for the address of its `CallInfo`. -/
abbrev CallId := Nat

abbrev FuncId := Nat

inductive RpcError where
  | notAttached
  | notRegistered (id : FuncId)
  | typeMismatch (id : FuncId)
  | channelFull
  | sendOnClosedChannel
  | serverClosed
  | tooManyCalls
  /-- the function has panicked -/
  | panicked (r : Nat)
  deriving DecidableEq, Repr

/-- The `ret` and the `err` of a `RetInfo`. -/
abbrev Answer := Except RpcError Nat

inductive RetChan where
  | sync (c : Nat)
  | asyn (c : Nat)
  deriving DecidableEq, Repr

structure CallInfo where
  call : CallId
  f : FuncId
  chanRet : Option RetChan
  deriving DecidableEq, Repr

structure RetInfo where
  call : CallId
  ret : Answer

/-- In `Exec`, in `s.ret`, or in the loop of `Close`. -/
inductive ServerPc where
  | idle
  | executing (ci : CallInfo)
  | replying (chanRet : RetChan) (ri : RetInfo)
  | draining
  | stopped

structure Server where
  functions : FuncId → Option FuncType
  chanCall : List CallInfo
  len : Nat
  closed : Bool
  pc : ServerPc

/-- In `c.call`, at `<-c.chanSyncRet`, before `c.ChanAsynRet <- &RetInfo{err: err, cb: cb}`, or before
`c.pendingAsynCall++`. -/
inductive ClientPc where
  | idle
  | calling (ci : CallInfo) (block : Bool)
  | waiting (call : CallId)
  | failing (ri : RetInfo)
  | counting

structure Client where
  s : Option Nat
  chanSyncRet : List RetInfo
  chanAsynRet : List RetInfo
  len : Nat
  pendingAsynCall : Int
  pc : ClientPc

structure RpcSys where
  servers : List Server
  clients : List Client
  made : CallId

def Server.newServer (l : Nat) : Server :=
  { functions := fun _ => none, chanCall := [], len := l, closed := false, pc := .idle }

def Client.newClient (l : Nat) : Client :=
  { s := none, chanSyncRet := [], chanAsynRet := [], len := l, pendingAsynCall := 0, pc := .idle }

namespace RpcSys

def init : RpcSys := { servers := [], clients := [], made := 0 }

def setServer (s : RpcSys) (i : Nat) (srv : Server) : RpcSys :=
  { s with servers := s.servers.set i srv }

def setClient (s : RpcSys) (i : Nat) (c : Client) : RpcSys :=
  { s with clients := s.clients.set i c }

def f (s : RpcSys) (c : Client) (id : FuncId) (n : FuncType) : Except RpcError Nat :=
  match c.s with
  | none => .error .notAttached
  | some i =>
    match (s.servers[i]?).bind (·.functions id) with
    | none => .error (.notRegistered id)
    | some t => if t = n then .ok i else .error (.typeMismatch id)

end RpcSys

/-- How a send on the channel of calls goes: it is put into the buffer, a server that waits at the
channel takes it, or the channel is full. -/
inductive Send where
  | buffer
  | handoff
  | full
  deriving DecidableEq, Repr

/-- `none` when it cannot go that way; on a closed channel the send panics. -/
def Server.send (srv : Server) (ci : CallInfo) : Send → Option (Except RpcError Server)
  | .buffer =>
    if srv.closed = true then some (.error .sendOnClosedChannel)
    else if srv.chanCall.length < srv.len then
      some (.ok { srv with chanCall := srv.chanCall ++ [ci] })
    else none
  | .handoff =>
    match srv.pc with
    | .idle =>
      if srv.closed = false ∧ srv.chanCall = [] then some (.ok { srv with pc := .executing ci })
      else none
    | _ => none
  | .full =>
    if srv.closed = false ∧ srv.len ≤ srv.chanCall.length then some (.error .channelFull) else none

inductive RpcAct where
  | newServer (l : Nat)
  | register (i : Nat) (id : FuncId) (t : FuncType)
  | newClient (l : Nat)
  | attach (c i : Nat)
  /-- `Server.Go`, from any goroutine -/
  | go (i : Nat) (id : FuncId) (how : Send)
  /-- `Call0`, `Call1` or `CallN` up to `c.call` -/
  | call (c : Nat) (id : FuncId) (n : FuncType)
  /-- `AsynCall` up to `c.call`, with a callback for this type -/
  | asynCall (c : Nat) (id : FuncId) (n : FuncType)
  | send (c : Nat) (how : Send)
  /-- `<-c.chanSyncRet` -/
  | recv (c : Nat)
  /-- `c.ChanAsynRet <- &RetInfo{err: err, cb: cb}` -/
  | fail (c : Nat)
  /-- `c.pendingAsynCall++` -/
  | count (c : Nat)
  /-- `Cb` on what `<-c.ChanAsynRet` gives -/
  | cb (c : Nat)
  /-- the server takes a call from its channel -/
  | serve (i : Nat)
  /-- the function returns, or panics -/
  | exec (i : Nat) (ret : Except Nat Nat)
  /-- `ci.chanRet <- ri` -/
  | reply (i : Nat)
  | close (i : Nat)
  /-- the loop of `Close` goes on -/
  | drain (i : Nat)
  deriving DecidableEq, Repr

/-- What can be seen of a call: a client has made it, the function of the server has been executed,
and the client has the answer, from one of its channels. -/
inductive RpcEvent where
  | asked (chanRet : RetChan) (call : CallId)
  | executed (call : CallId) (ret : Answer)
  | answered (chanRet : RetChan) (call : CallId) (ret : Answer)

namespace RpcSys

/-- The answer of `exec`. -/
def answer : Except Nat Nat → Answer
  | .ok v => .ok v
  | .error r => .error (.panicked r)

def stepServer (s : RpcSys) (i : Nat) (srv : Server) : RpcAct → Option (RpcSys × List RpcEvent)
  | .register _ id t =>
    -- it panics on a second registration
    if srv.functions id = none then
      some (s.setServer i { srv with functions := Function.update srv.functions id (some t) }, [])
    else none
  | .go _ id how =>
    if srv.functions id = none then some (s, [])
    else if how = .full then none
    else
      match srv.send { call := s.made, f := id, chanRet := none } how with
      | some (.ok srv) => some ({ s.setServer i srv with made := s.made + 1 }, [])
      | some (.error _) => some (s, [])
      | none => none
  | .serve _ =>
    match srv.pc, srv.chanCall with
    | .idle, ci :: rest =>
      if srv.closed = false then
        some (s.setServer i { srv with chanCall := rest, pc := .executing ci }, [])
      else none
    | _, _ => none
  | .exec _ ret =>
    match srv.pc with
    | .executing ci =>
      match ci.chanRet with
      | some chanRet =>
        some (s.setServer i { srv with pc := .replying chanRet { call := ci.call, ret := answer ret } },
          [.executed ci.call (answer ret)])
      | none => some (s.setServer i { srv with pc := .idle }, [.executed ci.call (answer ret)])
    | _ => none
  | .reply _ =>
    match srv.pc with
    | .replying chanRet ri =>
      let s := s.setServer i { srv with pc := if srv.closed = true then .draining else .idle }
      match chanRet with
      | .sync c =>
        (s.clients[c]?).bind fun cl =>
          if cl.chanSyncRet.length < 1 then
            some (s.setClient c { cl with chanSyncRet := cl.chanSyncRet ++ [ri] }, [])
          else none
      | .asyn c =>
        (s.clients[c]?).bind fun cl =>
          if cl.chanAsynRet.length < cl.len then
            some (s.setClient c { cl with chanAsynRet := cl.chanAsynRet ++ [ri] }, [])
          else none
    | _ => none
  | .close _ =>
    match srv.pc with
    | .idle => some (s.setServer i { srv with closed := true, pc := .draining }, [])
    | _ => none
  | .drain _ =>
    match srv.pc, srv.chanCall with
    | .draining, [] => some (s.setServer i { srv with pc := .stopped }, [])
    | .draining, ci :: rest =>
      match ci.chanRet with
      | some chanRet =>
        some (s.setServer i { srv with
          chanCall := rest
          pc := .replying chanRet { call := ci.call, ret := .error .serverClosed } }, [])
      | none => some (s.setServer i { srv with chanCall := rest }, [])
    | _, _ => none
  | _ => none

def stepClient (s : RpcSys) (i : Nat) (c : Client) : RpcAct → Option (RpcSys × List RpcEvent)
  | .attach _ j =>
    match c.pc with
    | .idle => if j < s.servers.length then some (s.setClient i { c with s := some j }, []) else none
    | _ => none
  | .call _ id n =>
    match c.pc with
    | .idle =>
      let t := { s with made := s.made + 1 }
      match s.f c id n with
      | .error err => some (t, [.asked (.sync i) s.made, .answered (.sync i) s.made (.error err)])
      | .ok _ =>
        some (t.setClient i { c with
          pc := .calling { call := s.made, f := id, chanRet := some (.sync i) } true },
          [.asked (.sync i) s.made])
    | _ => none
  | .asynCall _ id n =>
    match c.pc with
    | .idle =>
      let t := { s with made := s.made + 1 }
      if (c.len : Int) ≤ c.pendingAsynCall then
        some (t, [.asked (.asyn i) s.made, .answered (.asyn i) s.made (.error .tooManyCalls)])
      else
        match s.f c id n with
        | .error err =>
          some (t.setClient i { c with pc := .failing { call := s.made, ret := .error err } },
            [.asked (.asyn i) s.made])
        | .ok _ =>
          some (t.setClient i { c with
            pc := .calling { call := s.made, f := id, chanRet := some (.asyn i) } false },
            [.asked (.asyn i) s.made])
    | _ => none
  | .send _ how =>
    match c.pc, c.s with
    | .calling ci block, some j =>
      -- `Call0` and its like wait until there is room
      if block = true ∧ how = .full then none
      else
        match (s.servers[j]?).bind (fun srv => srv.send ci how) with
        | some (.ok srv) =>
          some ((s.setServer j srv).setClient i { c with
            pc := if block = true then .waiting ci.call else .counting }, [])
        | some (.error err) =>
          if block = true then
            some (s.setClient i { c with pc := .idle }, [.answered (.sync i) ci.call (.error err)])
          else
            some (s.setClient i { c with pc := .failing { call := ci.call, ret := .error err } }, [])
        | none => none
    | _, _ => none
  | .recv _ =>
    match c.pc, c.chanSyncRet with
    | .waiting call, ri :: rest =>
      -- whatever comes out of the channel is returned to the call that waits there
      some (s.setClient i { c with chanSyncRet := rest, pc := .idle },
        [.answered (.sync i) call ri.ret])
    | _, _ => none
  | .fail _ =>
    match c.pc with
    | .failing ri =>
      if c.chanAsynRet.length < c.len then
        some (s.setClient i { c with chanAsynRet := c.chanAsynRet ++ [ri], pc := .counting }, [])
      else none
    | _ => none
  | .count _ =>
    match c.pc with
    | .counting =>
      some (s.setClient i { c with pendingAsynCall := c.pendingAsynCall + 1, pc := .idle }, [])
    | _ => none
  | .cb _ =>
    match c.pc, c.chanAsynRet with
    | .idle, ri :: rest =>
      some (s.setClient i { c with
        chanAsynRet := rest, pendingAsynCall := c.pendingAsynCall - 1 },
        [.answered (.asyn i) ri.call ri.ret])
    | _, _ => none
  | _ => none

end RpcSys

inductive Actor where
  | nobody
  | server (i : Nat)
  | client (i : Nat)

def RpcAct.actor : RpcAct → Actor
  | newServer _ => .nobody
  | newClient _ => .nobody
  | register i _ _ => .server i
  | go i _ _ => .server i
  | serve i => .server i
  | exec i _ => .server i
  | reply i => .server i
  | close i => .server i
  | drain i => .server i
  | attach c _ => .client c
  | call c _ _ => .client c
  | asynCall c _ _ => .client c
  | send c _ => .client c
  | recv c => .client c
  | fail c => .client c
  | count c => .client c
  | cb c => .client c

def rpcStep' (s : RpcSys) (a : RpcAct) : Option (RpcSys × List RpcEvent) :=
  match a.actor with
  | .server i => (s.servers[i]?).bind fun srv => s.stepServer i srv a
  | .client i => (s.clients[i]?).bind fun c => s.stepClient i c a
  | .nobody =>
    match a with
    | .newServer l => some ({ s with servers := s.servers ++ [Server.newServer l] }, [])
    | .newClient l => some ({ s with clients := s.clients ++ [Client.newClient l] }, [])
    | _ => none

def rpcStep (s : RpcSys) (a : RpcAct) : Option RpcSys := (rpcStep' s a).map Prod.fst

def rpcEvents (s : RpcSys) (a : RpcAct) : List RpcEvent := ((rpcStep' s a).map Prod.snd).getD []

end AlgorithmLib.ChanRpc
