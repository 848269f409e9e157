import AlgorithmLib.Library.Answered
import AlgorithmLib.Library.Run

/-!
`mysqldbc` of `tools/db/db.py` on top of the driver. The server's side of a connection is a session:
it has its autocommit mode and the statements that are not committed. The driver answers every call
with a result or a raise; a raise may come after the call had its effect, and may end the session.
-/

set_option autoImplicit false

namespace AlgorithmLib.Db

open Answered

/-- What the handlers see of an exception; an `error` has `errno` and `msg`. -/
inductive Exc where
  | attributeError
  | error (errno : Int)
  | other
  deriving DecidableEq, Repr

structure Statement where
  id : Nat
  sql : String
  deriving DecidableEq, Repr

structure Session where
  autocommit : Bool
  pending : List Statement
  alive : Bool
  deriving DecidableEq, Repr

/-- The fields of `mysqldbc`; the statements the server executed so far, and which of them it
committed. -/
structure Mysqldbc where
  connection : Option Session
  cursor : Bool
  transactions : Nat
  defaultAutocommit : Bool
  currentAutocommit : Bool
  executed : Nat
  committed : List Statement
  deriving DecidableEq, Repr

structure Cursor where
  lastrowid : Option Int
  rowcount : Int
  rows : List (List String)
  deriving DecidableEq, Repr

/-- The calls of the driver; `fetchRest` fetches what is left and closes the cursor. -/
inductive Call where
  | connect
  | autocommit (mode : Bool)
  | cursor
  | execute (sql : String)
  | fetchall
  | commit
  | rollback
  | fetchRest
  | close
  deriving DecidableEq, Repr

def Call.needsServer : Call → Bool
  | .fetchall | .fetchRest | .close => false
  | _ => true

inductive Outcome where
  | returned (cursor : Cursor)
  | raised (e : Exc) (applied lost : Bool)
  deriving DecidableEq, Repr

structure Reply where
  call : Call
  outcome : Outcome
  deriving DecidableEq, Repr

def crServerTimeout : Int := -1
def crServerLost : Int := 2013
def crServerGoneError : Int := 2006
def crServerLostExtended : Int := 2055

def serverLost (errno : Int) : Bool :=
  errno = crServerTimeout || errno = crServerGoneError || errno = crServerLost ||
    errno = crServerLostExtended

namespace Mysqldbc

/-- `__init__`, with what the server has committed before. -/
def init (autocommit : Bool) (executed : Nat) (committed : List Statement) : Mysqldbc :=
  { connection := none, cursor := false, transactions := 0, defaultAutocommit := autocommit
    currentAutocommit := autocommit, executed := executed, committed := committed }

def alive (s : Mysqldbc) : Bool := s.connection.any (·.alive)

def inTransactions (s : Mysqldbc) : Bool := s.transactions > 0

/-- One transaction less. -/
def left (s : Mysqldbc) : Mysqldbc :=
  if s.transactions > 0 then { s with transactions := s.transactions - 1 } else s

def serve (s : Mysqldbc) (call : Call) : Mysqldbc :=
  match s.connection with
  | none => s
  | some session =>
    match call with
    | .execute sql =>
      let statement := { id := s.executed, sql := sql }
      if session.autocommit then
        { s with executed := s.executed + 1, committed := s.committed ++ [statement] }
      else
        { s with
          executed := s.executed + 1
          connection := some { session with pending := session.pending ++ [statement] } }
    | .autocommit true =>
      { s with
        committed := s.committed ++ session.pending
        connection := some { session with autocommit := true, pending := [] } }
    | .autocommit false => { s with connection := some { session with autocommit := false } }
    | .commit =>
      { s with
        committed := s.committed ++ session.pending
        connection := some { session with pending := [] } }
    | .rollback => { s with connection := some { session with pending := [] } }
    | .close => { s with connection := some { session with pending := [], alive := false } }
    | _ => s

def lose (s : Mysqldbc) : Mysqldbc :=
  { s with connection := s.connection.map fun session =>
      { session with pending := [], alive := false } }

def opened (s : Mysqldbc) : Mysqldbc :=
  { s with connection := some { autocommit := s.defaultAutocommit, pending := [], alive := true } }

def serveRaised (s : Mysqldbc) (call : Call) (applied lost : Bool) : Mysqldbc :=
  let s := if applied && s.alive then s.serve call else s
  if lost then s.lose else s

end Mysqldbc

abbrev Dbc (α : Type) : Type := Answered Mysqldbc Reply Exc α

def answerTo (call : Call) (r : Reply) : Option Outcome :=
  if r.call = call then some r.outcome else none

/-- A call of the driver on the connection; when it needs the server and the session has ended it
raises. -/
def request (call : Call) : Dbc Cursor := do
  let outcome ← ask (answerTo call)
  let s ← state
  match outcome with
  | .returned cursor =>
    if s.alive ∨ call.needsServer = false then do
      change fun s => s.serve call
      pure cursor
    else raise (.error crServerTimeout)
  | .raised e applied lost => do
    change fun s => s.serveRaised call applied lost
    raise e

/-- `self.connection` has the method called, if there is a connection. -/
def onConnection (call : Call) : Dbc Unit := do
  let s ← state
  if s.connection.isSome then do
    let _ ← request call
    pure ()
  else pure ()

def engine : Dbc Unit := do
  let outcome ← ask (answerTo .connect)
  match outcome with
  | .returned _ => change fun s => s.opened
  | .raised e _ _ => raise e

/-- The handler reads `e.errno`, `e.msg` and `sql`, and there is no `sql`. -/
def setautocommit (autocommit : Bool) : Dbc Bool := do
  let s ← state
  if s.currentAutocommit = autocommit then pure true
  else do
    change fun s => { s with currentAutocommit := autocommit }
    tryExcept
      (do
        onConnection (.autocommit autocommit)
        pure true)
      fun e =>
        match e with
        | .error _ => raise .other
        | _ => raise .attributeError

/-- The handler reads `e.errno` and `e.msg`. -/
def mysqlConnect : Dbc Bool := do
  let s ← state
  if s.connection.isSome then pure true
  else
    tryExcept
      (do
        engine
        let s ← state
        change fun s => { s with currentAutocommit := s.defaultAutocommit }
        let _ ← setautocommit s.currentAutocommit
        pure true)
      fun e =>
        match e with
        | .error _ => do
          change fun s => { s with connection := none }
          pure false
        | _ => raise .attributeError

def cursorClose : Dbc Unit :=
  tryExcept
    (do
      let s ← state
      if s.cursor then do
        let _ ← request .fetchRest
        change fun s => { s with cursor := false }
      else pure ())
    fun _ => pure ()

def mysqlClose : Dbc Unit :=
  andFinally
    (tryExcept
      (do
        cursorClose
        onConnection .close)
      fun _ => pure ())
    (change fun s => { s with cursor := false, connection := none })

/-- `cursor`: whether there is one. -/
def cursor : Dbc Bool := do
  let connected ← mysqlConnect
  if connected then do
    let s ← state
    if s.cursor then pure true
    else do
      let _ ← request .cursor
      change fun s => { s with cursor := true }
      pure true
  else pure false

/-- `cursor.execute`; `None` has no `execute`. -/
def execute (found : Bool) (sql : String) : Dbc Cursor :=
  if found then request (.execute sql) else raise .attributeError

def addTransactions : Dbc Unit := change fun s => { s with transactions := s.transactions + 1 }

def delTransactions : Dbc Unit := change fun s => s.left

def begin : Dbc Bool := do
  let connected ← mysqlConnect
  if connected then do
    let _ ← setautocommit false
    addTransactions
    pure true
  else pure false

/-- `commit` and `rollback` with their own call of the driver. -/
def finish (call : Call) : Dbc Bool :=
  tryExcept
    (do
      delTransactions
      let s ← state
      if s.currentAutocommit = false ∧ s.inTransactions = false then do
        onConnection call
        let _ ← setautocommit s.defaultAutocommit
        pure true
      else pure true)
    fun _ => pure false

def commit : Dbc Bool := finish .commit

def rollback : Dbc Bool := finish .rollback

inductive Value where
  | truth (b : Bool)
  | rows (rows : List (List String))
  | number (n : Int)
  deriving DecidableEq, Repr

/-- The handlers of `select`, `insert` and `update`, which call themselves again; `frames` are those
the interpreter has left. -/
def retried (body : Dbc (Option Value)) : Nat → Dbc (Option Value)
  | 0 => stuck
  | frames + 1 =>
    andFinally
      (tryExcept body fun e =>
        match e with
        | .attributeError => do
          let _ ← rollback
          pure none
        | .other => raise .attributeError
        | .error errno => do
          let _ ← rollback
          if serverLost errno then do
            mysqlClose
            let s ← state
            if s.inTransactions then pure none else retried body frames
          else pure none)
      cursorClose

def selectBody (sql : String) : Dbc (Option Value) := do
  addTransactions
  let found ← cursor
  let _ ← execute found sql
  let fetched ← request .fetchall
  let _ ← commit
  pure (some (.rows fetched.rows))

/-- `insert` and `update`, with what they return of the cursor. -/
def changeBody (shows : Cursor → Option Value) (sql : String) : Dbc (Option Value) := do
  addTransactions
  let found ← cursor
  let shown ← execute found sql
  let _ ← commit
  pure (shows shown)

def select (frames : Nat) (sql : String) : Dbc (Option Value) := retried (selectBody sql) frames

def insert (frames : Nat) (sql : String) : Dbc (Option Value) :=
  retried (changeBody (fun shown => shown.lastrowid.map .number) sql) frames

def update (frames : Nat) (sql : String) : Dbc (Option Value) :=
  retried (changeBody (fun shown => some (.number shown.rowcount)) sql) frames

inductive Op where
  | begin
  | commit
  | rollback
  | select (sql : String)
  | insert (sql : String)
  | update (sql : String)
  deriving DecidableEq, Repr

namespace Op

def program (frames : Nat) : Op → Dbc (Option Value)
  | .begin => do
    let b ← Db.begin
    pure (some (.truth b))
  | .commit => do
    let b ← Db.commit
    pure (some (.truth b))
  | .rollback => do
    let b ← Db.rollback
    pure (some (.truth b))
  | .select sql => Db.select frames sql
  | .insert sql => Db.insert frames sql
  | .update sql => Db.update frames sql

def isStatement : Op → Bool
  | .select _ | .insert _ | .update _ => true
  | _ => false

def changes : Op → Option String
  | .insert sql | .update sql => some sql
  | _ => none

end Op

/-- A call and everything the driver answers while it runs. -/
structure Act where
  op : Op
  frames : Nat
  replies : List Reply
  deriving DecidableEq, Repr

def perform (s : Mysqldbc) (a : Act) : Option (Except Exc (Option Value) × Mysqldbc) :=
  match a.op.program a.frames s a.replies with
  | some (x, t, []) => some (x, t)
  | _ => none

def step (s : Mysqldbc) (a : Act) : Option Mysqldbc := (perform s a).map (·.2)

end AlgorithmLib.Db
