import AlgorithmLib.Library.Run
import AlgorithmLib.Udp.ClientSession
import Mathlib.Logic.Function.Basic

/-!
`leaf/network/udp/session/udp_manager.go`: the sessions by their number and by their key, which is
the address in text and the user name. `ClientSessionGet` takes the lock of the tables for each of
its accesses; between two of them, and before it returns, the goroutine of a closed session may
delete it.
-/

set_option autoImplicit false

namespace AlgorithmLib.Udp

/-- A session with what its manager uses; the address is the text of `Addr.String()`. -/
structure ManagedSession extends ClientSession where
  addr : List UInt8
  hashKey : List UInt8
  user : Nat
  rand1 : List UInt8
  closeFlag : Bool
  deriving DecidableEq, Repr

structure ClientUser where
  username : List UInt8
  authSession : Option Nat
  estabSession : Option Nat
  deriving DecidableEq, Repr

/-- Where `ClientSessionGet` is between two accesses to the tables. -/
inductive Work where
  /-- an authentication request from this address, whose key has no session -/
  | asking (addr : List UInt8) (ar : ClientAuthRequest)
  /-- the session has the key of the request -/
  | keyed (k : Nat) (ar : ClientAuthRequest)
  /-- in `CreateSession` before it stores the session -/
  | creating (k : Nat)
  /-- the session has the number in the datagram from this address -/
  | found (k : Nat) (addr : List UInt8)
  /-- before it returns the session -/
  | returning (k : Nat)
  deriving DecidableEq, Repr

/-- `UDPSessionManager` with the sessions and users that its pointers point to, in the order in
which they were made, and the sessions whose goroutine has not ended. -/
structure Manager where
  cid : UInt32
  sessionCount : Int
  sessions : UInt32 → Option Nat
  sessionHash : List UInt8 → Option Nat
  users : List UInt8 → Option Nat
  session : Nat → ManagedSession
  made : Nat
  user : Nat → ClientUser
  usersMade : Nat
  running : Nat → Bool
  work : Option Work
  /-- the session that the last call of `ClientSessionGet` returned -/
  got : Option Nat

def zeroSession : ManagedSession :=
  { createSession 0 with addr := [], hashKey := [], user := 0, rand1 := List.replicate 4 0
                         closeFlag := false }

def newUDPSessionManager : Manager :=
  { cid := 1, sessionCount := 0, sessions := fun _ => none, sessionHash := fun _ => none
    users := fun _ => none, session := fun _ => zeroSession, made := 0
    user := fun _ => { username := [], authSession := none, estabSession := none }, usersMade := 0
    running := fun _ => false, work := none, got := none }

def sessionHashKey (addr username : List UInt8) : List UInt8 := addr ++ username

namespace Manager

def setSession (m : Manager) (k : Nat) (r : ManagedSession) : Manager :=
  { m with session := Function.update m.session k r }

/-- `ClientSessionGet` returns this session, or an error. -/
def return_ (m : Manager) (k : Option Nat) : Manager := { m with work := none, got := k }

def hold (m : Manager) (k : Nat) : Manager := { m with work := some (.returning k) }

def copyRand1 (m : Manager) (k : Nat) (ar : ClientAuthRequest) : Manager :=
  m.setSession k { m.session k with rand1 := ar.rand1 }

/-- `Close` of a session -/
def close (m : Manager) (k : Nat) : Manager :=
  m.setSession k { m.session k with closeFlag := true }

def deleteSession (m : Manager) (k : Nat) : Manager :=
  { m with
    sessions := Function.update m.sessions (m.session k).cid none
    sessionHash := Function.update m.sessionHash (m.session k).hashKey none }

def clientUserLookUp (m : Manager) (username : List UInt8) : Nat × Manager :=
  match m.users username with
  | some u => (u, m)
  | none =>
    (m.usersMade,
      { m with
        users := Function.update m.users username (some m.usersMade)
        user := Function.update m.user m.usersMade
          { username := username, authSession := none, estabSession := none }
        usersMade := m.usersMade + 1 })

/-- `CreateSession` up to the lock. -/
def createSession (m : Manager) (u : Nat) (addr : List UInt8) (ar : ClientAuthRequest) : Manager :=
  { m with
    cid := m.cid + 1
    session := Function.update m.session m.made
      { Udp.createSession m.cid with
        addr := addr, hashKey := sessionHashKey addr ar.username, user := u
        rand1 := List.replicate 4 0, closeFlag := false }
    made := m.made + 1
    user := Function.update m.user u { m.user u with authSession := some m.made }
    work := some (.creating m.made) }

/-- `CreateSession` stores the session and starts its goroutine. -/
def storeSession (m : Manager) (k : Nat) : Manager :=
  { m with
    sessions := Function.update m.sessions (m.session k).cid (some k)
    sessionHash := Function.update m.sessionHash (m.session k).hashKey (some k)
    sessionCount := m.sessionCount + 1
    running := Function.update m.running k true }

def clientTryUpdateIp (m : Manager) (k : Nat) (addr : List UInt8) : Manager :=
  if (m.session k).addr ≠ addr then
    let key := sessionHashKey addr (m.user (m.session k).user).username
    { m with
      sessionHash := Function.update
        (Function.update m.sessionHash (m.session k).hashKey none) key (some k)
      session := Function.update m.session k { m.session k with hashKey := key, addr := addr } }
  else m

/-- `ClientSessionGet` up to its first access to the tables. -/
def clientSessionGet (little : Bool) (m : Manager) (buf addr : List UInt8) : Option Manager :=
  if buf.length < Ucph.getLen.toNat then some (m.return_ none)
  else
    match Ucph.unpack little buf with
    | none => none
    | some ucph =>
      if ucph.clientSid = 0 then
        if ucph.encrypt ≠ 0 ∨ ucph.command ≠ 242 then some (m.return_ none)
        else if ucph.paramLen.toUInt32 < ClientAuthRequest.getLen ∨
            buf.length < (ucph.hlen.toUInt32 + ClientAuthRequest.getLen).toNat then
          some (m.return_ none)
        else
          match ClientAuthRequest.unpack (buf.drop Ucph.getLen.toNat) with
          | none => none
          | some ar =>
            if ar.action ≠ 3 then some (m.return_ none)
            else
              match m.sessionHash (sessionHashKey addr ar.username) with
              | some k => some { m with work := some (.keyed k ar) }
              | none => some { m with work := some (.asking addr ar) }
      else
        match m.sessions ucph.clientSid with
        | none => some (m.return_ none)
        | some k => some { m with work := some (.found k addr) }

def proceed (m : Manager) : Work → Manager
  | .asking addr ar =>
    let (u, m) := m.clientUserLookUp ar.username
    match (m.user u).estabSession.filter (fun k => (m.session k).addr = addr) with
    | some k => m.hold k
    | none =>
      match (m.user u).authSession with
      | some k =>
        if (m.session k).addr = addr then (m.copyRand1 k ar).hold k
        else (m.close k).createSession u addr ar
      | none => m.createSession u addr ar
  | .keyed k ar => (m.copyRand1 k ar).return_ (some k)
  | .creating k => (m.storeSession k).hold k
  | .found k addr => (m.clientTryUpdateIp k addr).hold k
  | .returning k => m.return_ (some k)

end Manager

inductive ManagerAct where
  | datagram (buf addr : List UInt8)
  | proceed
  /-- a session is closed, by its timer or its application -/
  | close (k : Nat)
  /-- the goroutine of a closed session deletes it and ends -/
  | terminate (k : Nat)
  deriving DecidableEq, Repr

def managerStep (little : Bool) (m : Manager) : ManagerAct → Option Manager
  | .datagram buf addr => if m.work.isNone then m.clientSessionGet little buf addr else none
  | .proceed => m.work.map m.proceed
  | .close k => if m.running k then some (m.close k) else none
  | .terminate k =>
    if m.running k && (m.session k).closeFlag then
      some
        { m.deleteSession k with
          sessionCount := m.sessionCount - 1
          running := Function.update m.running k false }
    else none

end AlgorithmLib.Udp
