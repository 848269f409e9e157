import Mathlib.Data.List.Basic
import AlgorithmLib.Db.Mysqldbc

set_option autoImplicit false

namespace AlgorithmLib.Db

open Answered

def Flag (s : Mysqldbc) : Prop := s.currentAutocommit = true → s.defaultAutocommit = true

structure Kept (s t : Mysqldbc) : Prop where
  default : t.defaultAutocommit = s.defaultAutocommit
  flag : Flag s → Flag t
  committed : ∀ x ∈ s.committed, x ∈ t.committed
  executed : s.executed ≤ t.executed

def Agrees (s : Mysqldbc) : Prop :=
  s.currentAutocommit = true → ∀ session, s.connection = some session → session.alive = true →
    session.autocommit = true

theorem Kept.refl (s : Mysqldbc) : Kept s s := ⟨rfl, id, fun _ h => h, Nat.le_refl _⟩

theorem Kept.of_eq {s t : Mysqldbc} (hdefault : t.defaultAutocommit = s.defaultAutocommit)
    (hcurrent : t.currentAutocommit = s.currentAutocommit) (hexecuted : t.executed = s.executed)
    (hcommitted : t.committed = s.committed) : Kept s t where
  default := hdefault
  flag := fun h => by
    unfold Flag
    rw [hdefault, hcurrent]
    exact h
  committed := fun x hx => hcommitted ▸ hx
  executed := hexecuted.ge

theorem Kept.trans {s t u : Mysqldbc} (h : Kept s t) (h' : Kept t u) : Kept s u where
  default := h'.default.trans h.default
  flag := fun hs => h'.flag (h.flag hs)
  committed := fun x hx => h'.committed x (h.committed x hx)
  executed := h.executed.trans h'.executed

structure Served (s t : Mysqldbc) : Prop where
  kept : Kept s t
  transactions : t.transactions = s.transactions
  current : t.currentAutocommit = s.currentAutocommit
  cursor : t.cursor = s.cursor
  connection : t.connection.isSome = s.connection.isSome

theorem Served.refl (s : Mysqldbc) : Served s s := ⟨Kept.refl s, rfl, rfl, rfl, rfl⟩

theorem Served.trans {s t u : Mysqldbc} (h : Served s t) (h' : Served t u) : Served s u where
  kept := h.kept.trans h'.kept
  transactions := h'.transactions.trans h.transactions
  current := h'.current.trans h.current
  cursor := h'.cursor.trans h.cursor
  connection := h'.connection.trans h.connection

namespace Mysqldbc

theorem serve_cursor (s : Mysqldbc) : s.serve .cursor = s := by
  unfold serve
  split <;> rfl

theorem served_serve (s : Mysqldbc) (call : Call) : Served s (s.serve call) := by
  unfold serve
  split
  next => exact Served.refl s
  next session hsession =>
    split
    next sql =>
      dsimp only
      split
      · exact ⟨⟨rfl, id, fun x hx => List.mem_append_left _ hx, Nat.le_succ _⟩, rfl, rfl, rfl, rfl⟩
      · exact ⟨⟨rfl, id, fun x hx => hx, Nat.le_succ _⟩, rfl, rfl, rfl, by simp [hsession]⟩
    all_goals
      first
      | exact Served.refl s
      | exact ⟨⟨rfl, id, fun x hx => List.mem_append_left _ hx, Nat.le_refl _⟩, rfl, rfl, rfl,
          by simp [hsession]⟩
      | exact ⟨.of_eq rfl rfl rfl rfl, rfl, rfl, rfl, by simp [hsession]⟩

theorem served_lose (s : Mysqldbc) : Served s s.lose :=
  ⟨.of_eq rfl rfl rfl rfl, rfl, rfl, rfl, by simp [lose]⟩

theorem served_raised (s : Mysqldbc) (call : Call) (applied lost : Bool) :
    Served s (s.serveRaised call applied lost) := by
  unfold serveRaised
  dsimp only
  have hserve : Served s (if (applied && s.alive) = true then s.serve call else s) := by
    split
    · exact served_serve s call
    · exact Served.refl s
  split
  · exact hserve.trans (served_lose _)
  · exact hserve

end Mysqldbc

section

variable {allowed : Reply → Prop} {s : Mysqldbc} {call : Call}

theorem request_ensures {post : Except Exc Cursor → Mysqldbc → Prop}
    (hret : ∀ cursor, allowed ⟨call, .returned cursor⟩ → s.alive = true ∨ call.needsServer = false →
      post (.ok cursor) (s.serve call))
    (hgone : s.alive = false → post (.error (.error crServerTimeout)) s)
    (hraise : ∀ e applied lost, allowed ⟨call, .raised e applied lost⟩ →
      post (.error e) (s.serveRaised call applied lost)) : Ensures allowed (request call) s post := by
  refine Ensures.bind_ask fun r outcome hallowed hanswer => ?_
  obtain ⟨call', outcome'⟩ := r
  obtain ⟨rfl, rfl⟩ : call' = call ∧ outcome' = outcome := by
    simpa [answerTo] using hanswer
  refine Ensures.bind_state ?_
  cases outcome' with
  | returned shown =>
    dsimp only
    split
    next halive => exact Ensures.bind_change (Ensures.pure (hret shown hallowed halive))
    next hdead =>
      rw [not_or, Bool.not_eq_true] at hdead
      exact Ensures.raise (hgone hdead.1)
  | raised e applied lost =>
    exact Ensures.bind_change (Ensures.raise (hraise e applied lost hallowed))

theorem request_served : Ensures allowed (request call) s (fun _ t => Served s t) :=
  request_ensures (fun _ _ _ => s.served_serve call) (fun _ => Served.refl s)
    fun _ applied lost _ => s.served_raised call applied lost

theorem onConnection_served : Ensures allowed (onConnection call) s (fun _ t => Served s t) := by
  refine Ensures.bind_state ?_
  split
  next =>
    exact Ensures.bind request_served (fun _ _ h => Ensures.pure h) fun _ _ h => h
  next => exact Ensures.pure (Served.refl s)

theorem setautocommit_ensures {mode : Bool} (hmode : mode = true → s.defaultAutocommit = true) :
    Ensures allowed (setautocommit mode) s (fun _ t =>
      Kept s t ∧ t.transactions = s.transactions ∧ t.currentAutocommit = mode) := by
  refine Ensures.bind_state ?_
  split
  next hsame => exact Ensures.pure ⟨Kept.refl s, rfl, hsame⟩
  next =>
    refine Ensures.bind_change ?_
    have hset : Kept s { s with currentAutocommit := mode } :=
      ⟨rfl, fun _ => hmode, fun _ hx => hx, Nat.le_refl _⟩
    refine Ensures.tryExcept (M := fun _ t => Kept s t ∧ t.transactions = s.transactions ∧
      t.currentAutocommit = mode) ?_ (fun _ _ h => h) fun e t h => ?_
    · refine Ensures.bind onConnection_served (fun _ t h => Ensures.pure ?_) fun _ t h => ?_
      · exact ⟨hset.trans h.kept, h.transactions, h.current⟩
      · exact ⟨hset.trans h.kept, h.transactions, h.current⟩
    · cases e <;> exact Ensures.raise h

theorem setautocommit_same {mode : Bool} (h : s.currentAutocommit = mode) :
    Ensures allowed (setautocommit mode) s (fun x t => x = .ok true ∧ t = s) := by
  refine Ensures.bind_state ?_
  rw [if_pos h]
  exact Ensures.pure ⟨rfl, rfl⟩

theorem engine_ensures : Ensures allowed engine s (fun x t =>
    (x = .ok () ∧ t = s.opened) ∨ (∃ e, x = .error e) ∧ t = s) := by
  refine Ensures.bind_ask fun r outcome _ _ => ?_
  cases outcome with
  | returned shown => exact Ensures.change (.inl ⟨rfl, rfl⟩)
  | raised e applied lost => exact Ensures.raise (.inr ⟨⟨e, rfl⟩, rfl⟩)

theorem Mysqldbc.kept_opened (s : Mysqldbc) : Kept s s.opened :=
  .of_eq rfl rfl rfl rfl

theorem Mysqldbc.kept_default (s : Mysqldbc) :
    Kept s { s with currentAutocommit := s.defaultAutocommit } :=
  ⟨rfl, fun _ h => h, fun _ hx => hx, Nat.le_refl _⟩

theorem reconnect_ensures (hflag : Flag s) :
    Ensures allowed
      (setautocommit s.currentAutocommit)
      { s.opened with currentAutocommit := s.defaultAutocommit }
      (fun _ t => Kept s t ∧ t.transactions = s.transactions ∧ Agrees t) := by
  cases hcurrent : s.currentAutocommit with
  | true =>
    refine (setautocommit_same (hflag hcurrent)).mono fun x t h => ?_
    rw [h.2]
    refine ⟨s.kept_opened.trans s.opened.kept_default, rfl, fun _ session hsession _ => ?_⟩
    obtain rfl := Option.some.inj hsession
    exact hflag hcurrent
  | false =>
    refine (setautocommit_ensures (by simp)).mono fun x t h => ⟨?_, h.2.1, fun ht => ?_⟩
    · exact (s.kept_opened.trans s.opened.kept_default).trans h.1
    · rw [h.2.2] at ht
      cases ht

theorem mysqlConnect_ensures (hflag : Flag s) :
    Ensures allowed mysqlConnect s (fun x t =>
      Kept s t ∧ t.transactions = s.transactions ∧ (Agrees s → x = .ok true → Agrees t) ∧
      ∀ e, x = .error e → e = .attributeError) := by
  refine Ensures.bind_state ?_
  split
  next => exact Ensures.pure ⟨Kept.refl s, rfl, fun h _ => h, by simp⟩
  next hnone =>
    refine Ensures.tryExcept (M := fun x t => Kept s t ∧ t.transactions = s.transactions ∧
      (x = .ok true → Agrees t)) ?_ (fun b t h => ⟨h.1, h.2.1, fun _ hx => h.2.2 hx, by simp⟩)
      fun e t h => ?_
    · refine Ensures.bind engine_ensures (fun _ t h => ?_) fun e t h => ?_
      · obtain ⟨-, rfl⟩ := h.resolve_right (by simp)
        refine Ensures.bind_state (Ensures.bind_change ?_)
        refine Ensures.bind (reconnect_ensures hflag) (fun _ _ h => ?_) fun _ _ h => ?_
        · exact Ensures.pure ⟨s.kept_opened.trans h.1, h.2.1, fun _ => h.2.2⟩
        · exact ⟨s.kept_opened.trans h.1, h.2.1, by simp⟩
      · obtain ⟨-, rfl⟩ := h.resolve_left (by simp)
        exact ⟨Kept.refl _, rfl, by simp⟩
    · cases e with
      | error errno =>
        refine Ensures.bind_change (Ensures.pure ⟨?_, h.2.1, by simp, by simp⟩)
        exact h.1.trans (.of_eq rfl rfl rfl rfl)
      | attributeError => exact Ensures.raise ⟨h.1, h.2.1, by simp, by simp⟩
      | other => exact Ensures.raise ⟨h.1, h.2.1, by simp, by simp⟩

theorem cursorClose_ensures : Ensures allowed cursorClose s (fun x t =>
    Kept s t ∧ t.transactions = s.transactions ∧ x = .ok ()) := by
  refine Ensures.tryExcept (M := fun _ t => Kept s t ∧ t.transactions = s.transactions) ?_
    (fun _ t h => ⟨h.1, h.2, rfl⟩) fun e t h => Ensures.pure ⟨h.1, h.2, rfl⟩
  refine Ensures.bind_state ?_
  split
  next =>
    refine Ensures.bind request_served (fun _ t h => ?_) fun _ t h => ⟨h.kept, h.transactions⟩
    exact Ensures.change ⟨h.kept.trans (.of_eq rfl rfl rfl rfl), h.transactions⟩
  next => exact Ensures.pure ⟨Kept.refl s, rfl⟩

theorem mysqlClose_ensures : Ensures allowed mysqlClose s (fun x t =>
    Kept s t ∧ t.transactions = s.transactions ∧ t.connection = none ∧ x = .ok ()) := by
  refine Ensures.andFinally (M := fun x t => Kept s t ∧ t.transactions = s.transactions ∧
    x = .ok ()) ?_ fun x t h => ?_
  · refine Ensures.tryExcept (M := fun _ t => Kept s t ∧ t.transactions = s.transactions) ?_
      (fun _ t h => ⟨h.1, h.2, rfl⟩) fun e t h => Ensures.pure ⟨h.1, h.2, rfl⟩
    refine Ensures.bind cursorClose_ensures (fun _ t h => ?_) fun _ t h => ⟨h.1, h.2.1⟩
    refine onConnection_served.mono fun _ u hu => ?_
    exact ⟨h.1.trans hu.kept, hu.transactions.trans h.2.1⟩
  · refine Ensures.change ⟨fun _ => ?_, by simp⟩
    exact ⟨h.1.trans (.of_eq rfl rfl rfl rfl), h.2.1, rfl, h.2.2⟩

/-- `commit` and `rollback` do not raise, and take one from the counter. -/
theorem finish_ensures : Ensures allowed (finish call) s (fun x t =>
    Kept s t ∧ t.transactions = s.transactions - 1 ∧ ∃ b, x = .ok b) := by
  refine Ensures.tryExcept (M := fun _ t => Kept s t ∧ t.transactions = s.transactions - 1) ?_
    (fun b t h => ⟨h.1, h.2, b, rfl⟩) fun e t h => Ensures.pure ⟨h.1, h.2, false, rfl⟩
  refine Ensures.bind_change (Ensures.bind_state ?_)
  have hless : Kept s s.left ∧ s.left.transactions = s.transactions - 1 := by
    unfold Mysqldbc.left
    split
    next => exact ⟨.of_eq rfl rfl rfl rfl, rfl⟩
    next hzero => exact ⟨Kept.refl s, by omega⟩
  split
  next =>
    refine Ensures.bind onConnection_served (fun _ t h => ?_) fun _ t h =>
      ⟨hless.1.trans h.kept, h.transactions.trans hless.2⟩
    have ht := And.intro (hless.1.trans h.kept) (h.transactions.trans hless.2)
    have hmode : s.left.defaultAutocommit = true → t.defaultAutocommit = true := fun hd =>
      h.kept.default.trans hd
    refine Ensures.bind (setautocommit_ensures hmode) (fun _ u hu => Ensures.pure ?_) fun _ u hu => ?_
    · exact ⟨ht.1.trans hu.1, hu.2.1.trans ht.2⟩
    · exact ⟨ht.1.trans hu.1, hu.2.1.trans ht.2⟩
  next => exact Ensures.pure hless

end

def Call.inStatement : Call → Bool
  | .cursor | .execute _ | .fetchall => true
  | _ => false

/-- An exception without `errno`, which the handlers of the statements read. -/
def Reply.unnumbered (r : Reply) : Bool :=
  match r.outcome with
  | .raised .other _ _ => r.call.inStatement
  | _ => false

def Reply.uncommitted (r : Reply) : Bool :=
  match r.call, r.outcome with
  | .commit, .raised _ false _ => true
  | _, _ => false

/-- The server has committed the statement, and executed it after the first `n`. -/
def Committed (n : Nat) (sql : String) (t : Mysqldbc) : Prop :=
  ∃ id, n ≤ id ∧ id < t.executed ∧ ⟨id, sql⟩ ∈ t.committed

def Recorded (n : Nat) (sql : String) (t : Mysqldbc) : Prop :=
  ∃ id, n ≤ id ∧ id < t.executed ∧ (⟨id, sql⟩ ∈ t.committed ∨
    ∃ session, t.connection = some session ∧ session.alive = true ∧ session.autocommit = false ∧
      ⟨id, sql⟩ ∈ session.pending)

theorem Committed.mono {n : Nat} {sql : String} {t u : Mysqldbc} (h : Committed n sql t)
    (hkept : Kept t u) : Committed n sql u := by
  obtain ⟨id, hn, hid, hmem⟩ := h
  exact ⟨id, hn, hid.trans_le hkept.executed, hkept.committed _ hmem⟩

namespace Mysqldbc

theorem recorded_execute {s : Mysqldbc} {sql : String} (h : s.alive = true) :
    Recorded s.executed sql (s.serve (.execute sql)) := by
  cases hconnection : s.connection with
  | none => simp [alive, hconnection] at h
  | some session =>
    simp only [alive, hconnection, Option.any_some] at h
    unfold serve
    simp only [hconnection]
    split
    next => exact ⟨s.executed, Nat.le_refl _, Nat.lt_succ_self _, .inl (by simp)⟩
    next hmode =>
      exact ⟨s.executed, Nat.le_refl _, Nat.lt_succ_self _,
        .inr ⟨_, rfl, h, Bool.not_eq_true _ ▸ hmode, by simp⟩⟩

theorem agrees_execute {s : Mysqldbc} {sql : String} (h : Agrees s) :
    Agrees (s.serve (.execute sql)) := by
  unfold serve
  split
  next => exact h
  next session hsession =>
    dsimp only
    split
    next => exact h
    next =>
      rintro hcurrent _ ⟨⟩ halive
      exact h hcurrent session hsession halive

end Mysqldbc

section

variable {allowed : Reply → Prop} {s : Mysqldbc} {n : Nat} {sql : String}

/-- What `cursor`, `execute` and `fetchall` raise is an error or an `AttributeError`. -/
theorem request_numbered {call : Call} (hcall : call.inStatement = true)
    (hallowed : ∀ r, allowed r → r.unnumbered = false) :
    Ensures allowed (request call) s (fun x _ => x ≠ .error .other) := by
  refine request_ensures (fun _ _ _ => by simp) (fun _ => by simp) fun e applied lost hr => ?_
  have hnumbered := hallowed _ hr
  rintro ⟨⟩
  simp [Reply.unnumbered, hcall] at hnumbered

theorem request_ok {call : Call} : Ensures allowed (request call) s (fun x t =>
    ∀ shown, x = .ok shown → t = s.serve call ∧ (s.alive = true ∨ call.needsServer = false)) :=
  request_ensures (fun _ _ h _ _ => ⟨rfl, h⟩) (fun _ => by simp) fun _ _ _ _ => by simp

theorem cursor_ensures (hallowed : ∀ r, allowed r → r.unnumbered = false) (hflag : Flag s) :
    Ensures allowed cursor s (fun x t => Kept s t ∧ t.transactions = s.transactions ∧
      x ≠ .error .other ∧ (Agrees s → x = .ok true → Agrees t)) := by
  refine Ensures.bind (mysqlConnect_ensures hflag) (fun connected t h => ?_) fun e t h => ?_
  · cases connected with
    | false => exact Ensures.pure ⟨h.1, h.2.1, by simp, by simp⟩
    | true =>
      rw [if_pos rfl]
      refine Ensures.bind_state ?_
      split
      next => exact Ensures.pure ⟨h.1, h.2.1, by simp, fun hs _ => h.2.2.1 hs rfl⟩
      next =>
        have hserved : Ensures allowed (request .cursor) t (fun x u => Served t u ∧
            x ≠ .error .other) := request_served.and (request_numbered rfl hallowed)
        refine Ensures.bind (hserved.and request_ok) (fun shown u hu => ?_) fun e u hu => ?_
        · obtain ⟨⟨hserved, -⟩, hok⟩ := hu
          obtain rfl := (hok shown rfl).1
          refine Ensures.bind_change (Ensures.pure ⟨?_, ?_, by simp, fun hs _ => ?_⟩)
          · exact (h.1.trans hserved.kept).trans (.of_eq rfl rfl rfl rfl)
          · exact hserved.transactions.trans h.2.1
          · rw [Mysqldbc.serve_cursor]
            exact h.2.2.1 hs rfl
        · obtain ⟨⟨hserved, hnumbered⟩, -⟩ := hu
          exact ⟨h.1.trans hserved.kept, hserved.transactions.trans h.2.1, by simpa using hnumbered,
            by simp⟩
  · rw [h.2.2.2 e rfl]
    exact ⟨h.1, h.2.1, by simp, by simp⟩

theorem execute_ensures (hallowed : ∀ r, allowed r → r.unnumbered = false) (found : Bool) :
    Ensures allowed (execute found sql) s (fun x t => Kept s t ∧ t.transactions = s.transactions ∧
      x ≠ .error .other ∧ ∀ shown, x = .ok shown → found = true ∧ Recorded s.executed sql t ∧
        (Agrees s → Agrees t)) := by
  cases found with
  | false => exact Ensures.raise ⟨Kept.refl s, rfl, by simp, by simp⟩
  | true =>
    have hserved : Ensures allowed (request (.execute sql)) s (fun x t => Served s t ∧
        x ≠ .error .other) := request_served.and (request_numbered rfl hallowed)
    refine (hserved.and request_ok).mono fun x t h => ?_
    obtain ⟨⟨hserved, hnumbered⟩, hok⟩ := h
    refine ⟨hserved.kept, hserved.transactions, hnumbered, fun shown hshown => ?_⟩
    obtain ⟨rfl, halive⟩ := hok shown hshown
    exact ⟨rfl, Mysqldbc.recorded_execute (halive.resolve_right (by simp [Call.needsServer])),
      Mysqldbc.agrees_execute⟩

theorem onConnection_commits (hallowed : ∀ r, allowed r → r.uncommitted = false) {id : Nat}
    {session : Session} (hn : n ≤ id) (hid : id < s.executed)
    (hconnection : s.connection = some session) (halive : session.alive = true)
    (hpending : ⟨id, sql⟩ ∈ session.pending) :
    Ensures allowed (onConnection .commit) s (fun _ t => Committed n sql t) := by
  have hlive : s.alive = true := by simp [Mysqldbc.alive, hconnection, halive]
  have hserve : Committed n sql (s.serve .commit) := by
    simp only [Mysqldbc.serve, hconnection]
    exact ⟨id, hn, hid, List.mem_append_right _ hpending⟩
  refine Ensures.bind_state ?_
  rw [if_pos (by simp [hconnection])]
  refine Ensures.bind (M := fun _ t => Committed n sql t) ?_ (fun _ _ h => Ensures.pure h)
    fun _ _ h => h
  refine request_ensures (fun _ _ _ => hserve) (fun hgone => ?_) fun e applied lost hr => ?_
  · rw [hlive] at hgone
    cases hgone
  · have happlied := hallowed _ hr
    cases applied with
    | false => simp [Reply.uncommitted] at happlied
    | true =>
      simp only [Mysqldbc.serveRaised, hlive, Bool.and_self, if_true]
      split
      · exact hserve.mono (Mysqldbc.served_lose _).kept
      · exact hserve

/-- Outside of a transaction `commit` commits what is recorded, unless the driver cannot. -/
theorem commit_ensures (hallowed : ∀ r, allowed r → r.uncommitted = false)
    (htx : s.transactions = 1) (hagrees : Agrees s) (h : Recorded n sql s) :
    Ensures allowed commit s (fun _ t => Committed n sql t) := by
  obtain ⟨id, hn, hid, hmem | ⟨session, hconnection, halive, hmode, hpending⟩⟩ := h
  · exact finish_ensures.mono fun _ t ht => Committed.mono ⟨id, hn, hid, hmem⟩ ht.1
  · have hcurrent : s.currentAutocommit = false := by
      cases hc : s.currentAutocommit with
      | false => rfl
      | true =>
        rw [hagrees hc session hconnection halive] at hmode
        cases hmode
    have hleft : s.left = { s with transactions := 0 } := by simp [Mysqldbc.left, htx]
    refine Ensures.tryExcept (M := fun _ t => Committed n sql t) ?_ (fun _ _ h => h)
      fun _ _ h => Ensures.pure h
    refine Ensures.bind_change (Ensures.bind_state ?_)
    rw [hleft, if_pos ⟨hcurrent, by simp [Mysqldbc.inTransactions]⟩]
    have hcommits := onConnection_commits (s := { s with transactions := 0 }) hallowed hn hid
      hconnection halive hpending
    refine Ensures.bind (hcommits.and onConnection_served) (fun _ t h => ?_) fun _ _ h => h.1
    have hback : s.defaultAutocommit = true → t.defaultAutocommit = true := fun hd =>
      h.2.kept.default.trans hd
    refine Ensures.bind (setautocommit_ensures hback) (fun _ u hu => Ensures.pure ?_) fun _ u hu => ?_
    · exact h.1.mono hu.1
    · exact h.1.mono hu.1

def Ended (n : Nat) (good : Option Value → Mysqldbc → Prop) (s : Mysqldbc)
    (x : Except Exc (Option Value)) (t : Mysqldbc) : Prop :=
  Kept s t ∧
    match x with
    | .ok v => t.transactions = n ∧ good v t
    | .error e => t.transactions = n + 1 ∧ e ≠ .other

theorem executed_ensures {β : Type} {f : Cursor → Dbc β} {post : Except Exc β → Mysqldbc → Prop}
    (hallowed : ∀ r, allowed r → r.unnumbered = false) (hflag : Flag s)
    (hf : ∀ shown t, Kept s t → t.transactions = s.transactions + 1 → Recorded s.executed sql t →
      (Agrees s → Agrees t) → Ensures allowed (f shown) t post)
    (hraise : ∀ e t, Kept s t → t.transactions = s.transactions + 1 → e ≠ .other →
      post (.error e) t) :
    Ensures allowed
      (do
        addTransactions
        let found ← cursor
        let shown ← execute found sql
        f shown) s post := by
  refine Ensures.bind_change ?_
  have hadd : Kept s { s with transactions := s.transactions + 1 } :=
    .of_eq rfl rfl rfl rfl
  refine Ensures.bind (cursor_ensures hallowed hflag) (fun found t h => ?_) fun e t h => ?_
  · obtain ⟨hkept, htx, -, hagrees⟩ := h
    refine Ensures.bind (execute_ensures hallowed found) (fun shown u hu => ?_) fun e u hu => ?_
    · obtain ⟨hkept', htx', -, hok⟩ := hu
      obtain ⟨rfl, hrecorded, hagrees'⟩ := hok shown rfl
      refine hf shown u ((hadd.trans hkept).trans hkept') (htx'.trans htx) ?_
        fun hs => hagrees' (hagrees hs rfl)
      obtain ⟨id, hid, hrest⟩ := hrecorded
      exact ⟨id, hkept.executed.trans hid, hrest⟩
    · obtain ⟨hkept', htx', hother, -⟩ := hu
      exact hraise e u ((hadd.trans hkept).trans hkept') (htx'.trans htx) (by simpa using hother)
  · exact hraise e t (hadd.trans h.1) h.2.1 (by simpa using h.2.2.1)

theorem selectBody_ensures (hallowed : ∀ r, allowed r → r.unnumbered = false) (hflag : Flag s)
    (htx : s.transactions = n) :
    Ensures allowed (selectBody sql) s (Ended n (fun _ _ => True) s) := by
  refine executed_ensures hallowed hflag (fun shown t hkept ht _ _ => ?_) fun e t hkept ht he =>
    ⟨hkept, ht.trans (by rw [htx]), he⟩
  refine Ensures.bind (request_served.and (request_numbered rfl hallowed)) (fun fetched u hu => ?_)
    fun e u hu => ?_
  · have hu' := hu.1.transactions.trans ht
    refine Ensures.bind finish_ensures (fun b v hv => Ensures.pure ⟨?_, ?_, trivial⟩) fun e v hv => ?_
    · exact (hkept.trans hu.1.kept).trans hv.1
    · rw [hv.2.1, hu', htx]
      rfl
    · obtain ⟨b, hb⟩ := hv.2.2
      cases hb
  · refine ⟨hkept.trans hu.1.kept, ?_, by simpa using hu.2⟩
    rw [hu.1.transactions, ht, htx]

theorem changeBody_ensures {shows : Cursor → Option Value}
    (hallowed : ∀ r, allowed r → r.unnumbered = false ∧ (n = 0 → r.uncommitted = false))
    (hflag : Flag s) (htx : s.transactions = n) (hagrees : n = 0 → Agrees s) {k : Nat}
    (hk : k ≤ s.executed) :
    Ensures allowed (changeBody shows sql) s
      (Ended n (fun v t => n = 0 → v ≠ none → Committed k sql t) s) := by
  refine executed_ensures (fun r hr => (hallowed r hr).1) hflag
    (fun shown t hkept ht hrecorded hagrees' => ?_) fun e t hkept ht he =>
    ⟨hkept, ht.trans (by rw [htx]), he⟩
  have hcommit : Ensures allowed commit t (fun _ u => n = 0 → Committed k sql u) := by
    by_cases hn : n = 0
    · have hlater : Recorded k sql t := by
        obtain ⟨id, hid, hrest⟩ := hrecorded
        exact ⟨id, hk.trans hid, hrest⟩
      exact (commit_ensures (fun r hr => (hallowed r hr).2 hn) (by omega) (hagrees' (hagrees hn))
        hlater).mono fun _ _ h _ => h
    · exact finish_ensures.mono fun _ _ _ h => absurd h hn
  refine Ensures.bind (finish_ensures.and hcommit) (fun b u hu => Ensures.pure ⟨?_, ?_, ?_⟩)
    fun e u hu => ?_
  · exact hkept.trans hu.1.1
  · rw [hu.1.2.1, ht, htx]
    rfl
  · exact fun hn _ => hu.2 hn
  · obtain ⟨b, hb⟩ := hu.1.2.2
    cases hb

theorem retried_ensures {body : Dbc (Option Value)} {G : Option Value → Mysqldbc → Prop}
    {R : Mysqldbc → Prop}
    (hbody : ∀ t, Kept s t → t.transactions = n → R t → Ensures allowed body t (Ended n G t))
    (hready : ∀ t, t.connection = none → R t) (hnone : ∀ t, G none t)
    (hgood : ∀ v t u, G v t → Kept t u → G v u) (frames : Nat) {t : Mysqldbc}
    (hkept : Kept s t) (htx : t.transactions = n) (h : R t) :
    Ensures allowed (retried body frames) t (fun x u =>
      Kept s u ∧ u.transactions = n ∧ ∃ v, x = .ok v ∧ G v u) := by
  induction frames generalizing t with
  | zero => exact Ensures.stuck
  | succ frames ih =>
    refine Ensures.andFinally (M := fun x u => Kept s u ∧ u.transactions = n ∧
      ∃ v, x = .ok v ∧ G v u) ?_ fun x u hu => ?_
    · refine Ensures.tryExcept (hbody t hkept htx h) (fun v u hu => ?_) fun e u hu => ?_
      · exact ⟨hkept.trans hu.1, hu.2.1, v, rfl, hu.2.2⟩
      · obtain ⟨hu, htx', hother⟩ := hu
        have hback : Ensures allowed rollback u (fun x w => Kept s w ∧ w.transactions = n ∧
            ∃ b, x = .ok b) := finish_ensures.mono fun x w hw =>
          ⟨(hkept.trans hu).trans hw.1, hw.2.1.trans (by omega), hw.2.2⟩
        cases e with
        | attributeError =>
          refine Ensures.bind hback (fun b w hw => Ensures.pure ?_) fun e w hw => ?_
          · exact ⟨hw.1, hw.2.1, none, rfl, hnone w⟩
          · obtain ⟨b, hb⟩ := hw.2.2
            cases hb
        | other => exact absurd rfl hother
        | error errno =>
          refine Ensures.bind hback (fun b w hw => ?_) fun e w hw => ?_
          · split
            next =>
              refine Ensures.bind mysqlClose_ensures (fun _ v hv => ?_) fun e v hv => ?_
              · have hv' := hw.1.trans hv.1
                refine Ensures.bind_state ?_
                split
                next => exact Ensures.pure ⟨hv', hv.2.1.trans hw.2.1, none, rfl, hnone v⟩
                next => exact ih hv' (hv.2.1.trans hw.2.1) (hready v hv.2.2.1)
              · cases hv.2.2.2
            next => exact Ensures.pure ⟨hw.1, hw.2.1, none, rfl, hnone w⟩
          · obtain ⟨b, hb⟩ := hw.2.2
            cases hb
    · refine cursorClose_ensures.mono fun y w hw => ⟨fun _ => ?_, fun e he => ?_⟩
      · obtain ⟨v, hv, hgv⟩ := hu.2.2
        exact ⟨hu.1.trans hw.1, hw.2.1.trans hu.2.1, v, hv, hgood v u w hgv hw.1⟩
      · rw [hw.2.2] at he
        cases he

end

/-- The statements raise nothing without `errno`, and an insert or an update outside of a transaction
is not met by a commit that fails nor by a flag that is on where the session does not commit. -/
structure Heeds (s : Mysqldbc) (a : Act) : Prop where
  numbered : a.op.isStatement = true → ∀ r ∈ a.replies, r.unnumbered = false
  committed : a.op.changes ≠ none → s.transactions = 0 → ∀ r ∈ a.replies, r.uncommitted = false
  agrees : a.op.changes ≠ none → s.transactions = 0 → Agrees s

/-- A statement leaves the counter, and the result of an insert or an update outside of a transaction
means that the server has committed it. -/
def Honest (s : Mysqldbc) (a : Act) (t : Mysqldbc) : Prop :=
  (a.op.isStatement = true → t.transactions = s.transactions) ∧
    ∀ sql v, a.op.changes = some sql → s.transactions = 0 →
      perform s a = some (.ok (some v), t) → Committed s.executed sql t

section

variable {s t : Mysqldbc} {a : Act} {x : Except Exc (Option Value)}

theorem perform_run (h : perform s a = some (x, t)) :
    a.op.program a.frames s a.replies = some (x, t, []) := by
  unfold perform at h
  split at h
  next hrun =>
    cases h
    exact hrun
  next => cases h

theorem begin_ensures {allowed : Reply → Prop} (hflag : Flag s) :
    Ensures allowed begin s (fun _ t => Kept s t) := by
  refine Ensures.bind (mysqlConnect_ensures hflag) (fun connected t h => ?_) fun _ _ h => h.1
  split
  next =>
    refine Ensures.bind (setautocommit_ensures (by simp)) (fun _ u hu => ?_) fun _ u hu => ?_
    · refine Ensures.bind_change (Ensures.pure ?_)
      exact (h.1.trans hu.1).trans (.of_eq rfl rfl rfl rfl)
    · exact h.1.trans hu.1
  next => exact Ensures.pure h.1

theorem select_ensures {allowed : Reply → Prop} {frames : Nat} {sql : String} (hflag : Flag s)
    (hallowed : ∀ r, allowed r → r.unnumbered = false) :
    Ensures allowed (select frames sql) s (fun _ t =>
      Kept s t ∧ t.transactions = s.transactions) := by
  refine (retried_ensures (s := s) (n := s.transactions) (G := fun _ _ => True)
    (R := fun _ => True) (fun t hkept htx _ => ?_) (fun _ _ => trivial) (fun _ => trivial)
    (fun _ _ _ _ _ => trivial) frames (Kept.refl s) rfl trivial).mono fun _ _ h => ⟨h.1, h.2.1⟩
  exact selectBody_ensures hallowed (hkept.flag hflag) htx

theorem change_ensures {allowed : Reply → Prop} {shows : Cursor → Option Value} {frames : Nat}
    {sql : String} (hflag : Flag s) (hagrees : s.transactions = 0 → Agrees s)
    (hallowed : ∀ r, allowed r →
      r.unnumbered = false ∧ (s.transactions = 0 → r.uncommitted = false)) :
    Ensures allowed (retried (changeBody shows sql) frames) s (fun x t =>
      Kept s t ∧ t.transactions = s.transactions ∧
        ∀ v, s.transactions = 0 → x = .ok (some v) → Committed s.executed sql t) := by
  refine (retried_ensures (s := s) (n := s.transactions)
    (G := fun v t => s.transactions = 0 → v ≠ none → Committed s.executed sql t)
    (R := fun t => s.transactions = 0 → Agrees t) (fun t hkept htx h => ?_) (fun t ht => ?_)
    (fun _ _ h => absurd rfl h) (fun v t u h hkept hn hv => (h hn hv).mono hkept) frames
    (Kept.refl s) rfl hagrees).mono fun x t h => ?_
  · exact changeBody_ensures hallowed (hkept.flag hflag) htx h hkept.executed
  · intro _ _ session hsession
    rw [ht] at hsession
    cases hsession
  · obtain ⟨hkept, htx, v, rfl, hgood⟩ := h
    refine ⟨hkept, htx, fun w hn hw => hgood hn ?_⟩
    rintro rfl
    cases hw

theorem honest_perform (hflag : Flag s) (hheeds : Heeds s a) (h : perform s a = some (x, t)) :
    Kept s t ∧ Honest s a t := by
  obtain ⟨op, frames, replies⟩ := a
  have hrun := perform_run h
  have honly : ∀ {P : Except Exc (Option Value) → Mysqldbc → Prop},
      Ensures (· ∈ replies) (op.program frames) s P → P x t := fun hends =>
    (hends replies x t [] (fun _ hr => hr) hrun).1
  have hchange : ∀ {shows : Cursor → Option Value} {sql : String}, op.changes = some sql →
      op.isStatement = true → op.program frames = retried (changeBody shows sql) frames →
      Kept s t ∧ Honest s ⟨op, frames, replies⟩ t := by
    intro shows sql hop hstatement hprogram
    have hsome : op.changes ≠ none := by simp [hop]
    have hends := honly (hprogram ▸ change_ensures hflag (hheeds.agrees hsome) fun r hr =>
      ⟨hheeds.numbered hstatement r hr, fun hn => hheeds.committed hsome hn r hr⟩)
    refine ⟨hends.1, fun _ => hends.2.1, fun sql' v hsql hn hperform => ?_⟩
    rw [h] at hperform
    obtain rfl := Option.some.inj (hop.symm.trans hsql)
    cases hperform
    exact hends.2.2 v hn rfl
  cases op with
  | begin =>
    refine ⟨honly (P := fun _ t => Kept s t) ?_, by simp [Op.isStatement], by simp [Op.changes]⟩
    exact Ensures.bind (begin_ensures hflag) (fun _ _ h => Ensures.pure h) fun _ _ h => h
  | commit =>
    refine ⟨honly (P := fun _ t => Kept s t) ?_, by simp [Op.isStatement], by simp [Op.changes]⟩
    exact Ensures.bind finish_ensures (fun _ _ h => Ensures.pure h.1) fun _ _ h => h.1
  | rollback =>
    refine ⟨honly (P := fun _ t => Kept s t) ?_, by simp [Op.isStatement], by simp [Op.changes]⟩
    exact Ensures.bind finish_ensures (fun _ _ h => Ensures.pure h.1) fun _ _ h => h.1
  | select sql =>
    have hends := honly (select_ensures hflag fun r hr => hheeds.numbered rfl r hr)
    exact ⟨hends.1, fun _ => hends.2, by simp [Op.changes]⟩
  | insert sql => exact hchange rfl rfl rfl
  | update sql => exact hchange rfl rfl rfl

end

/-- In every run whose calls all meet the condition a result is that of a committed statement. -/
theorem statements_report_commits (autocommit : Bool) (executed : Nat) (committed : List Statement)
    (as : List Act)
    (hheeds : Run.Meets step Heeds (.init autocommit executed committed) as) :
    Run.Steps step Honest (.init autocommit executed committed) as := by
  refine Run.steps_of_meets (p := Flag) (fun s a t hflag hheeds hstep => ?_) (fun h => h) hheeds
  obtain ⟨⟨x, u⟩, hperform, rfl⟩ := Option.map_eq_some_iff.mp hstep
  obtain ⟨hkept, hhonest⟩ := honest_perform hflag hheeds hperform
  exact ⟨hkept.flag hflag, hhonest⟩

def inserted : Cursor := { lastrowid := some 7, rowcount := 1, rows := [] }

/-- The insert is executed, and committed or not. -/
def insertOnce (outcome : Outcome) : Act :=
  { op := .insert "insert into test(name,num) value(\"yangchuan\", 1)", frames := 1
    replies :=
      [⟨.connect, .returned inserted⟩, ⟨.cursor, .returned inserted⟩,
        ⟨.execute "insert into test(name,num) value(\"yangchuan\", 1)", .returned inserted⟩,
        ⟨.commit, outcome⟩, ⟨.fetchRest, .returned inserted⟩] }

theorem statements_report_commits_once :
    Run.Steps step Honest (.init false 0 []) [insertOnce (.returned inserted)] := by
  refine statements_report_commits false 0 [] _ ⟨⟨?_, ?_, ?_⟩, ?_⟩
  · intro _
    decide
  · intro _ _
    decide
  · intro _ _ hcurrent
    cases hcurrent
  · split <;> trivial

/-- The connection is lost at the commit: `insert` returns the row id, and nothing is committed. -/
theorem insert_reports_lost_commit :
    ¬ Run.Steps step Honest (.init false 0 []) [insertOnce (.raised (.error 2013) false true)] := by
  have hperform : perform (.init false 0 []) (insertOnce (.raised (.error 2013) false true)) =
      some (.ok (some (.number 7)),
        { connection := some { autocommit := false, pending := [], alive := false }, cursor := false
          transactions := 0, defaultAutocommit := false, currentAutocommit := false, executed := 1
          committed := [] }) := by
    rfl
  intro h
  simp only [Run.Steps, step, hperform, Option.map_some] at h
  obtain ⟨id, -, -, hmem⟩ := h.1.2 _ _ rfl rfl hperform
  cases hmem

end AlgorithmLib.Db
