import AlgorithmLib.Library.Run
import AlgorithmLib.CoRoutine.Model

/-!
A coroutine is on `coroutine_end` before its thread has left its stack. As long as no pass of
`stCoRoutine_recovery` comes in between, a stack is freed and a record is handed out again only when
no thread executes on it.
-/

set_option autoImplicit false

namespace AlgorithmLib.CoRoutine

namespace CoSys

def Executes (s : CoSys) (thd : Thread) (co : CoId) : Prop := (s.pCallStack thd).head? = some co

/-- The record a step gets from `stCoRoutine_alloc`. -/
def handsOut (s : CoSys) : CoAct → Option CoId
  | .initEnv _ => s.stCoRoutineAlloc.map Prod.fst
  | .create _ _ => s.stCoRoutineAlloc.map Prod.fst
  | _ => none

def OnLiveStack (s : CoSys) : Prop := ∀ thd k, s.stack thd = some (.own k) → s.live k = true

end CoSys

/-- What the step reclaims is in nobody's use. -/
def Reclaims (s : CoSys) (a : CoAct) (s' : CoSys) : Prop :=
  s'.OnLiveStack ∧ ∀ co, s.handsOut a = some co → ∀ thd, ¬ s.Executes thd co

/-- The condition on a step: a pass takes a coroutine only when its thread has switched away. -/
def Switched (s : CoSys) : CoAct → Prop
  | .recovery _ => ∀ co ∈ (s.pool.links.list .end_).take (DEF_ROUTINE_POOL_RECOVERY_MAX + 1),
      ∀ thd env, s.pc thd ≠ .released co env
  | _ => True

/-- Where a thread is in `CoRoutineFunc`, with its coroutine innermost. -/
def Pc.At (s : CoSys) (thd : Thread) : Pc → Prop
  | .running => True
  | .ended co env => env = thd ∧ (s.co co).cEnd = true ∧ s.pool.links.head co = none ∧
      ∃ last rest, s.pCallStack thd = co :: last :: rest
  | .released co env => env = thd ∧ ∃ last rest, s.pCallStack thd = co :: last :: rest

structure Held (s : CoSys) : Prop where
  pool : s.pool.Ok .free
  pc : ∀ thd, (s.pc thd).At s thd
  env : ∀ thd, ∀ co ∈ s.pCallStack thd, (s.co co).env = thd
  nodup : ∀ thd, (s.pCallStack thd).Nodup
  /-- A coroutine on a call stack is in hand, or its thread is about to leave it. -/
  inHand : ∀ thd, ∀ co ∈ s.pCallStack thd, s.pool.InHand co ∨
    s.pool.links.head co = some .end_ ∧ s.pc thd = .released co thd
  ended : ∀ co, s.pool.links.head co = some .end_ → (s.co co).cEnd = true
  own : ∀ co k, (s.co co).stackMem = some (.own k) → s.live k = true ∧ k < s.made
  unique : ∀ co co' k, (s.co co).stackMem = some (.own k) → (s.co co').stackMem = some (.own k) →
    co = co'
  stack : ∀ thd co, s.Executes thd co → s.stack thd = (s.co co).stack
  native : ∀ thd, s.pCallStack thd = [] → s.stack thd = none

theorem Co.stack_own {co : Co} {k : Nat} (h : co.stack = some (.own k)) :
    co.stackMem = some (.own k) := by
  rw [Co.stack] at h
  split at h
  · cases h
  · exact h

theorem Held.onLiveStack {s : CoSys} (h : Held s) : s.OnLiveStack := by
  intro thd k hk
  cases hcall : s.pCallStack thd with
  | nil =>
    rw [h.native thd hcall] at hk
    cases hk
  | cons co rest =>
    rw [h.stack thd co (by rw [CoSys.Executes, hcall]; rfl)] at hk
    exact (h.own co k (Co.stack_own hk)).1

theorem held_init : Held .init := by
  obtain ⟨hok, -, -, hhead⟩ := (Pool.ok_empty Place.free).add DEF_ROUTINE_POOL_MAX
  rw [CoSys.init]
  generalize Pool.empty.add Place.free DEF_ROUTINE_POOL_MAX = pool at hok hhead
  refine ⟨hok, fun _ => trivial, fun _ _ hco => (by cases hco), fun _ => List.nodup_nil,
    fun _ _ hco => (by cases hco), fun co hco => ?_, fun _ _ hk => (by cases hk),
    fun _ _ _ hk => (by cases hk), fun _ _ hco => (by cases hco), fun _ _ => rfl⟩
  cases (hhead co .end_ (by simp)).mp hco

variable {s s' : CoSys} {thd : Thread} {co : CoId}

theorem Held.fresh (h : Held s) {pool : Pool Place} (halloc : s.stCoRoutineAlloc = some (co, pool))
    (thd : Thread) : co ∉ s.pCallStack thd := by
  intro hco
  obtain hin | ⟨hend, -⟩ := h.inHand thd co hco
  · exact (Pool.take_inHand h.pool halloc).1 hin
  · obtain ⟨n, pool', htake, -, -, -, hnone, hother⟩ :=
      h.pool.take (by decide : 0 < DEF_ROUTINE_POOL_ADD_SIZE)
    cases halloc.symm.trans htake
    rw [(hother co .end_ (by simp)).mpr hend] at hnone
    cases hnone

theorem Held.handsOut (h : Held s) {a : CoAct} (hout : s.handsOut a = some co) (thd : Thread) :
    ¬ s.Executes thd co := by
  have halloc : ∃ pool, s.stCoRoutineAlloc = some (co, pool) := by
    cases a <;> simp only [CoSys.handsOut, reduceCtorEq] at hout <;>
    · obtain ⟨⟨_, pool⟩, hpool, rfl⟩ := Option.map_eq_some_iff.mp hout
      exact ⟨pool, hpool⟩
  obtain ⟨pool, halloc⟩ := halloc
  exact fun hexec => h.fresh halloc thd (List.mem_of_mem_head? hexec)

theorem Held.alloc (h : Held s) {lp : CoId} {pool : Pool Place}
    (halloc : s.stCoRoutineAlloc = some (lp, pool)) {c : Co} {live : Nat → Bool} {made : Nat}
    (hlive : ∀ k, s.live k = true → live k = true) (hmade : s.made ≤ made)
    (hown : ∀ k, c.stackMem = some (.own k) → live k = true ∧ s.made ≤ k ∧ k < made) :
    Held { s with pool := pool, co := Function.update s.co lp c, live := live, made := made } := by
  have hfresh : ∀ thd, ∀ x ∈ s.pCallStack thd, x ≠ lp := fun thd x hx hxl =>
    h.fresh halloc thd (hxl ▸ hx)
  have hin := (Pool.take_inHand h.pool halloc).2
  obtain ⟨n, pool', htake, hok, -, -, hnone, hother⟩ :=
    h.pool.take (by decide : 0 < DEF_ROUTINE_POOL_ADD_SIZE)
  cases halloc.symm.trans htake
  have hend : ∀ x, pool.links.head x = some .end_ ↔ s.pool.links.head x = some .end_ :=
    fun x => hother x .end_ (by simp)
  refine ⟨hok, fun thd => ?_, fun thd x hx => ?_, h.nodup, fun thd x hx => ?_, fun x hx => ?_,
    fun x k hx => ?_, fun x y k hx hy => ?_, fun thd x hx => ?_, h.native⟩
  · have hat := h.pc thd
    cases hpc : s.pc thd with
    | running => trivial
    | ended co env =>
      rw [hpc] at hat
      obtain ⟨henv, hcEnd, hhead, last, rest, hcall⟩ := hat
      have hco : co ∈ s.pCallStack thd := by simp [hcall]
      refine ⟨henv, ?_, ?_, last, rest, hcall⟩
      · dsimp only
        rwa [Function.update_of_ne (hfresh thd co hco)]
      · obtain hinHand | ⟨hco', -⟩ := h.inHand thd co hco
        · exact ((hin co).mpr (.inl hinHand)).2
        · rw [hhead] at hco'
          cases hco'
    | released co env =>
      rw [hpc] at hat
      exact hat
  · dsimp only
    rw [Function.update_of_ne (hfresh thd x hx)]
    exact h.env thd x hx
  · exact (h.inHand thd x hx).imp (fun hx => (hin x).mpr (.inl hx)) (fun hx => ⟨(hend x).mpr hx.1, hx.2⟩)
  · have hxl : x ≠ lp := by
      rintro rfl
      rw [hnone] at hx
      cases hx
    dsimp only
    rw [Function.update_of_ne hxl]
    exact h.ended x ((hend x).mp hx)
  · dsimp only at hx
    by_cases hxl : x = lp
    · subst hxl
      rw [Function.update_self] at hx
      exact ⟨(hown k hx).1, (hown k hx).2.2⟩
    · rw [Function.update_of_ne hxl] at hx
      exact ⟨hlive k (h.own x k hx).1, Nat.lt_of_lt_of_le (h.own x k hx).2 hmade⟩
  · -- a new stack is none of the old ones
    have hnew : ∀ z, z ≠ lp → c.stackMem = some (.own k) → (s.co z).stackMem ≠ some (.own k) :=
      fun z _ hc hz => Nat.not_lt.mpr (hown k hc).2.1 (h.own z k hz).2
    dsimp only at hx hy
    by_cases hxl : x = lp
    · by_cases hyl : y = lp
      · rw [hxl, hyl]
      · rw [hxl, Function.update_self] at hx
        rw [Function.update_of_ne hyl] at hy
        exact absurd hy (hnew y hyl hx)
    · rw [Function.update_of_ne hxl] at hx
      by_cases hyl : y = lp
      · rw [hyl, Function.update_self] at hy
        exact absurd hx (hnew x hxl hy)
      · rw [Function.update_of_ne hyl] at hy
        exact h.unique x y k hx hy
  · dsimp only
    rw [Function.update_of_ne (hfresh thd x (List.mem_of_mem_head? hx))]
    exact h.stack thd x hx

theorem Held.swap (h : Held s) {rest : List CoId} (hnodup : (co :: rest).Nodup)
    (hstk : ∀ x ∈ co :: rest, s.pool.InHand x ∧ (s.co x).env = thd) :
    Held { s with
      pCallStack := Function.update s.pCallStack thd (co :: rest)
      stack := Function.update s.stack thd (s.co co).stack
      pc := Function.update s.pc thd .running } := by
  refine ⟨h.pool, fun u => ?_, fun u x hx => ?_, fun u => ?_, fun u x hx => ?_, h.ended, h.own,
    h.unique, fun u x hx => ?_, fun u hu => ?_⟩
  · by_cases hu : u = thd
    · simp [hu, Pc.At]
    · have hat := h.pc u
      dsimp only
      rw [Function.update_of_ne hu]
      cases hpc : s.pc u with
      | running => trivial
      | ended x env =>
        rw [hpc] at hat
        simpa [Pc.At, hu] using hat
      | released x env =>
        rw [hpc] at hat
        simpa [Pc.At, hu] using hat
  · dsimp only at hx
    by_cases hu : u = thd
    · subst hu
      rw [Function.update_self] at hx
      exact (hstk x hx).2
    · rw [Function.update_of_ne hu] at hx
      exact h.env u x hx
  · dsimp only
    by_cases hu : u = thd
    · subst hu
      rwa [Function.update_self]
    · rw [Function.update_of_ne hu]
      exact h.nodup u
  · dsimp only at hx ⊢
    by_cases hu : u = thd
    · subst hu
      rw [Function.update_self] at hx
      exact .inl (hstk x hx).1
    · rw [Function.update_of_ne hu] at hx ⊢
      exact h.inHand u x hx
  · dsimp only
    by_cases hu : u = thd
    · subst hu
      have hx : x = co := by simpa [CoSys.Executes, eq_comm] using hx
      rw [hx, Function.update_self]
    · have hx : s.Executes u x := by simpa [CoSys.Executes, hu] using hx
      rw [Function.update_of_ne hu]
      exact h.stack u x hx
  · dsimp only at hu ⊢
    have hu' : u ≠ thd := by
      rintro rfl
      simp at hu
    rw [Function.update_of_ne hu'] at hu ⊢
    exact h.native u hu

theorem Held.ret (h : Held s) (hpc : s.pc thd = .running) {last : CoId} {rest : List CoId}
    (hcall : s.pCallStack thd = co :: last :: rest) :
    Held ((s.setCo co { s.co co with cEnd := true }).goto thd (.ended co (s.co co).env)) := by
  have hmem : co ∈ s.pCallStack thd := by simp [hcall]
  have hco : ∀ x, ((s.setCo co { s.co co with cEnd := true }).co x).env = (s.co x).env ∧
      ((s.setCo co { s.co co with cEnd := true }).co x).stackMem = (s.co x).stackMem ∧
      ((s.setCo co { s.co co with cEnd := true }).co x).stack = (s.co x).stack ∧
      ((s.co x).cEnd = true → ((s.setCo co { s.co co with cEnd := true }).co x).cEnd = true) := by
    intro x
    by_cases hx : x = co
    · simp [CoSys.setCo, hx, Co.stack]
    · simp [CoSys.setCo, hx]
  have hhead : s.pool.links.head co = none := by
    obtain hin | ⟨-, hrel⟩ := h.inHand thd co hmem
    · exact hin.2
    · rw [hpc] at hrel
      cases hrel
  refine ⟨h.pool, fun u => ?_, fun u x hx => ?_, h.nodup, fun u x hx => ?_, fun x hx => ?_,
    fun x k hx => ?_, fun x y k hx hy => ?_, fun u x hx => ?_, h.native⟩
  · by_cases hu : u = thd
    · subst hu
      simp only [CoSys.goto, Function.update_self]
      exact ⟨h.env u co hmem, by simp [CoSys.setCo], hhead, last, rest, hcall⟩
    · have hat := h.pc u
      simp only [CoSys.goto, Function.update_of_ne hu]
      change (s.pc u).At _ u
      cases hpcu : s.pc u with
      | running => trivial
      | ended x env =>
        rw [hpcu] at hat
        exact ⟨hat.1, (hco x).2.2.2 hat.2.1, hat.2.2⟩
      | released x env =>
        rw [hpcu] at hat
        exact hat
  · exact (hco x).1.trans (h.env u x hx)
  · obtain hin | ⟨hend, hrel⟩ := h.inHand u x hx
    · exact .inl hin
    · have hu : u ≠ thd := by
        rintro rfl
        rw [hpc] at hrel
        cases hrel
      exact .inr ⟨hend, (Function.update_of_ne hu _ _).trans hrel⟩
  · exact (hco x).2.2.2 (h.ended x hx)
  · exact h.own x k ((hco x).2.1.symm.trans hx)
  · exact h.unique x y k ((hco x).2.1.symm.trans hx) ((hco y).2.1.symm.trans hy)
  · exact (h.stack u x hx).trans (hco x).2.2.1.symm

/-- `stCoRoutine_release`: the coroutine is on the list, and its thread still on its stack. -/
theorem Held.release (h : Held s) {env : Thread} (hpc : s.pc thd = .ended co env) :
    Held ({ s with pool := s.pool.link co .end_ }.goto thd (.released co env)) := by
  have hat := h.pc thd
  rw [hpc] at hat
  obtain ⟨rfl, hcEnd, hhead, last, rest, hcall⟩ := hat
  have hmem : co ∈ s.pCallStack env := by simp [hcall]
  have hin : s.pool.InHand co := by
    obtain hin | ⟨-, hrel⟩ := h.inHand env co hmem
    · exact hin
    · rw [hpc] at hrel
      cases hrel
  have hother : ∀ u, u ≠ env → ∀ x ∈ s.pCallStack u, x ≠ co := by
    rintro u hu x hx rfl
    exact hu ((h.env u x hx).symm.trans (h.env env x hmem))
  refine ⟨h.pool.link hin.1 hhead (by simp), fun u => ?_, h.env, h.nodup, fun u x hx => ?_,
    fun x hx => ?_, h.own, h.unique, h.stack, h.native⟩
  · by_cases hu : u = env
    · subst hu
      simp only [CoSys.goto, Function.update_self]
      exact ⟨rfl, last, rest, hcall⟩
    · have hat := h.pc u
      simp only [CoSys.goto, Function.update_of_ne hu]
      cases hpcu : s.pc u with
      | running => trivial
      | ended x env' =>
        rw [hpcu] at hat
        obtain ⟨henv, hcEnd', hhead', hcall'⟩ := hat
        refine ⟨henv, hcEnd', ?_, hcall'⟩
        obtain ⟨last', rest', hcall'⟩ := hcall'
        dsimp only
        rw [Pool.link_head, if_neg (hother u hu x (by simp [hcall'])), hhead']
      | released x env' =>
        rw [hpcu] at hat
        exact hat
  · simp only [Pool.InHand, CoSys.goto, Pool.link_head]
    by_cases hx' : x = co
    · have hu : u = env := by
        by_contra hu
        exact hother u hu x hx hx'
      exact .inr ⟨by simp [hx'], by simp [hu, hx']⟩
    · rw [if_neg hx']
      obtain hinx | ⟨hend, hrel⟩ := h.inHand u x hx
      · exact .inl hinx
      · have hu : u ≠ env := by
          rintro rfl
          rw [hpc] at hrel
          cases hrel
        exact .inr ⟨hend, (Function.update_of_ne hu _ _).trans hrel⟩
  · simp only [CoSys.goto, Pool.link_head] at hx
    by_cases hx' : x = co
    · rw [hx']
      exact hcEnd
    · rw [if_neg hx'] at hx
      exact h.ended x hx

/-- What `co_release` leaves of the records and the stacks. -/
structure Released (s s' : CoSys) (co : CoId) : Prop where
  pool : s'.pool = s.pool
  made : s'.made = s.made
  pCallStack : s'.pCallStack = s.pCallStack
  stack : s'.stack = s.stack
  pc : s'.pc = s.pc
  other : ∀ x, x ≠ co → s'.co x = s.co x
  cEnd : (s'.co co).cEnd = (s.co co).cEnd
  own : ∀ x k, (s'.co x).stackMem = some (.own k) → (s.co x).stackMem = some (.own k) ∧
    ((∀ y, (s.co y).stackMem = some (.own k) → x = y) → s'.live k = s.live k)

theorem released_coRelease (s : CoSys) (co : CoId) : Released s (s.coRelease co) co := by
  rw [CoSys.coRelease]
  split
  · exact ⟨rfl, rfl, rfl, rfl, rfl, fun _ _ => rfl, rfl, fun _ _ hx => ⟨hx, fun _ => rfl⟩⟩
  · refine ⟨rfl, rfl, rfl, rfl, rfl, fun x hx => Function.update_of_ne hx _ _, ?_, fun x k hx => ?_⟩
    · simp [CoSys.setCo]
    · have hxco : x ≠ co := by
        rintro rfl
        simp [CoSys.setCo] at hx
      have hx : (s.co x).stackMem = some (.own k) := by simpa [CoSys.setCo, hxco] using hx
      refine ⟨hx, fun hunique => ?_⟩
      cases hmem : (s.co co).stackMem with
      | none => rfl
      | some stackMem =>
        cases stackMem with
        | own k' =>
          refine Function.update_of_ne ?_ _ _
          rintro rfl
          exact hxco (hunique co hmem)
        | share k' => rfl

theorem Held.reclaim (h : Held s) (hr : Released s s' co) (hend : s.pool.links.head co = some .end_)
    (hswitched : ∀ thd env, s.pc thd ≠ .released co env) {pool : Pool Place}
    (hok : pool.Ok .free) (hmade : pool.made = s.pool.made)
    (hhead : ∀ x, x ≠ co → pool.links.head x = s.pool.links.head x)
    (hco : pool.links.head co ≠ some .end_) : Held { s' with pool := pool } := by
  have hother : ∀ thd, ∀ x ∈ s.pCallStack thd, x ≠ co := by
    rintro thd x hx rfl
    obtain hin | ⟨-, hrel⟩ := h.inHand thd x hx
    · rw [hin.2] at hend
      cases hend
    · exact hswitched thd thd hrel
  refine ⟨hok, fun thd => ?_, fun thd x hx => ?_, fun thd => ?_, fun thd x hx => ?_, fun x hx => ?_,
    fun x k hx => ?_, fun x y k hx hy => ?_, fun thd x hx => ?_, fun thd hnil => ?_⟩
  · have hat := h.pc thd
    dsimp only
    rw [hr.pc]
    cases hpc : s.pc thd with
    | running => trivial
    | ended x env =>
      rw [hpc] at hat
      obtain ⟨henv, hcEnd, hhead', last, rest, hcall⟩ := hat
      have hx : x ≠ co := hother thd x (by simp [hcall])
      refine ⟨henv, ?_, (hhead x hx).trans hhead', last, rest, ?_⟩
      · dsimp only
        rw [hr.other x hx, hcEnd]
      · dsimp only
        rw [hr.pCallStack, hcall]
    | released x env =>
      rw [hpc] at hat
      obtain ⟨henv, last, rest, hcall⟩ := hat
      exact ⟨henv, last, rest, by dsimp only; rw [hr.pCallStack, hcall]⟩
  · dsimp only at hx ⊢
    rw [hr.pCallStack] at hx
    rw [hr.other x (hother thd x hx)]
    exact h.env thd x hx
  · dsimp only
    rw [hr.pCallStack]
    exact h.nodup thd
  · dsimp only at hx ⊢
    rw [hr.pCallStack] at hx
    rw [Pool.InHand, hmade, hhead x (hother thd x hx), hr.pc]
    exact h.inHand thd x hx
  · dsimp only at hx ⊢
    have hxco : x ≠ co := by
      rintro rfl
      exact hco hx
    rw [hhead x hxco] at hx
    rw [hr.other x hxco]
    exact h.ended x hx
  · dsimp only at hx ⊢
    obtain ⟨hx, hlive⟩ := hr.own x k hx
    rw [hlive (fun y hy => h.unique x y k hx hy), hr.made]
    exact h.own x k hx
  · exact h.unique x y k (hr.own x k hx).1 (hr.own y k hy).1
  · dsimp only [CoSys.Executes] at hx ⊢
    rw [hr.pCallStack] at hx
    rw [hr.stack, hr.other x (hother thd x (List.mem_of_mem_head? hx))]
    exact h.stack thd x hx
  · dsimp only at hnil ⊢
    rw [hr.pCallStack] at hnil
    rw [hr.stack]
    exact h.native thd hnil

theorem Held.recover (h : Held s) (hend : s.pool.links.head co = some .end_)
    (hswitched : ∀ thd env, s.pc thd ≠ .released co env) : Held (s.recover co) := by
  have hr := released_coRelease s co
  rw [CoSys.recover]
  split
  · refine h.reclaim hr hend hswitched (h.pool.unlink (by simp [hend]) _) rfl
      (fun x hx => ?_) (by simp)
    simp [hx]
  · refine h.reclaim hr hend hswitched (h.pool.give (h.pool.lt_of_head hend) (by simp [hend])) rfl
      (fun x hx => ?_) (by simp)
    simp [hx]

theorem recover_list (hwf : s.pool.links.WF) {rest : List CoId}
    (hlist : s.pool.links.list .end_ = co :: rest) :
    (s.recover co).pool.links.list .end_ = rest ∧ (s.recover co).pc = s.pc := by
  have hend : s.pool.links.head co = some .end_ := (hwf.mem_iff _ co).mp (by simp [hlist])
  have hunlink : (s.pool.links.unlink co).list .end_ = rest := by
    rw [Links.unlink_list_of_eq hend, hlist, List.erase_cons_head]
  rw [CoSys.recover]
  split
  · exact ⟨hunlink, (released_coRelease s co).pc⟩
  · refine ⟨?_, (released_coRelease s co).pc⟩
    dsimp only [Pool.give]
    rw [Links.addTail_list, if_neg (by simp), hunlink]

theorem Held.recovery (h : Held s) (count : Nat)
    (hswitched : ∀ co ∈ (s.pool.links.list .end_).take count, ∀ thd env, s.pc thd ≠ .released co env) :
    Held (s.stCoRoutineRecovery count) := by
  induction count generalizing s with
  | zero => exact h
  | succ count ih =>
    rw [CoSys.stCoRoutineRecovery]
    cases hlist : s.pool.links.list .end_ with
    | nil => exact h
    | cons pos rest =>
      have hend : s.pool.links.head pos = some .end_ := (h.pool.wf.mem_iff _ pos).mp (by simp [hlist])
      obtain ⟨hrest, hpc⟩ := recover_list h.pool.wf hlist
      rw [hlist, List.take_succ_cons] at hswitched
      refine ih (h.recover hend (hswitched pos List.mem_cons_self)) fun co hco => ?_
      rw [hpc]
      rw [hrest] at hco
      exact hswitched co (List.mem_cons_of_mem pos hco)

theorem CoSys.coCreateEnv_cases {env : Thread} {shareStack : Option Nat} {lp : CoId}
    (hcreate : s.coCreateEnv env shareStack = some (lp, s')) :
    ∃ pool c live made, s.stCoRoutineAlloc = some (lp, pool) ∧ c.env = env ∧
      s' = { s with pool := pool, co := Function.update s.co lp c, live := live, made := made } ∧
        (∀ k, s.live k = true → live k = true) ∧ s.made ≤ made ∧
          ∀ k, c.stackMem = some (.own k) → live k = true ∧ s.made ≤ k ∧ k < made := by
  obtain ⟨⟨lp', pool⟩, halloc, hs'⟩ := Option.map_eq_some_iff.mp hcreate
  cases shareStack with
  | some k =>
    cases hs'
    exact ⟨pool, _, s.live, s.made, halloc, rfl, rfl, fun _ => id, Nat.le_refl _,
      fun k' hk' => by cases hk'⟩
  | none =>
    cases hs'
    refine ⟨pool, _, _, _, halloc, rfl, rfl, fun k hk => ?_, Nat.le_succ _, fun k hk => ?_⟩
    · dsimp only
      by_cases hks : k = s.made
      · rw [hks, Function.update_self]
      · rwa [Function.update_of_ne hks]
    · cases hk
      exact ⟨Function.update_self _ _ _, Nat.le_refl _, Nat.lt_succ_self _⟩

theorem Held.running (h : Held s) (hcall : s.pCallStack thd = []) : s.pc thd = .running := by
  have hat := h.pc thd
  cases hpc : s.pc thd with
  | running => rfl
  | ended co env =>
    rw [hpc] at hat
    obtain ⟨-, -, -, _, _, hcall'⟩ := hat
    cases hcall.symm.trans hcall'
  | released co env =>
    rw [hpc] at hat
    obtain ⟨-, _, _, hcall'⟩ := hat
    cases hcall.symm.trans hcall'

/-- The coroutines of a thread that is not in `CoRoutineFunc` are all in hand. -/
theorem Held.inHand_of_running (h : Held s) (hpc : s.pc thd = .running)
    (hco : co ∈ s.pCallStack thd) : s.pool.InHand co := by
  obtain hin | ⟨-, hrel⟩ := h.inHand thd co hco
  · exact hin
  · rw [hpc] at hrel
    cases hrel

theorem CoSys.goto_self {pc : Pc} (hpc : s.pc thd = pc) : s.goto thd pc = s := by
  rw [CoSys.goto, Function.update_eq_self_iff.mpr hpc.symm]

theorem Held.coSwap (h : Held s) (hpc : s.pc thd = .running) {rest : List CoId}
    (hnodup : (co :: rest).Nodup)
    (hstk : ∀ x ∈ co :: rest, s.pool.InHand x ∧ (s.co x).env = thd) :
    Held (s.coSwap thd thd (co :: rest) co) := by
  have hswap : Held ((s.coSwap thd thd (co :: rest) co).goto thd .running) := h.swap hnodup hstk
  rwa [CoSys.goto_self (by exact hpc)] at hswap

theorem Held.initEnv (h : Held s) (hcall : s.pCallStack thd = [])
    (hstep : s.coInitCurrThreadEnv thd = some s') : Held s' := by
  obtain ⟨⟨lp, t⟩, hcreate, rfl⟩ := Option.map_eq_some_iff.mp hstep
  obtain ⟨pool, c, live, made, halloc, henv, rfl, hlive, hmade, hown⟩ :=
    CoSys.coCreateEnv_cases hcreate
  have hin := (Pool.take_inHand h.pool halloc).2
  have hmain := h.alloc halloc (c := { c with cIsMain := true }) hlive hmade hown
  have hswap := hmain.coSwap (h.running hcall) (List.nodup_singleton lp)
    (fun x hx => by
      rw [List.mem_singleton.mp hx]
      exact ⟨(hin lp).mpr (.inr rfl), by simpa using henv⟩)
  simpa [CoSys.coSwap, CoSys.setCo, Co.stack] using hswap

theorem Held.coYieldEnv (h : Held s) (hpc : ∀ co', s.pc thd = .released co' thd →
      (s.pCallStack thd).head? = some co')
    (hstep : s.coYieldEnv thd thd = some s') : Held (s'.goto thd .running) := by
  rw [CoSys.coYieldEnv] at hstep
  cases hcall : s.pCallStack thd with
  | nil => simp [hcall] at hstep
  | cons co rest =>
    cases rest with
    | nil => simp [hcall] at hstep
    | cons last rest =>
      simp only [hcall, Option.some.injEq] at hstep
      subst hstep
      have hnodup := h.nodup thd
      rw [hcall] at hnodup
      refine h.swap hnodup.of_cons fun x hx => ?_
      have hx' : x ∈ s.pCallStack thd := by
        rw [hcall]
        exact List.mem_cons_of_mem co hx
      refine ⟨(h.inHand thd x hx').resolve_right fun hrel => ?_, h.env thd x hx'⟩
      have hxco := hpc x hrel.2
      rw [hcall, List.head?_cons, Option.some.injEq] at hxco
      exact (List.nodup_cons.mp hnodup).1 (hxco ▸ hx)

theorem CoSys.coYieldEnv_pc {env : Thread} (hstep : s.coYieldEnv thd env = some s') :
    s'.pc = s.pc := by
  rw [CoSys.coYieldEnv] at hstep
  split at hstep
  · cases hstep
    rfl
  · cases hstep

theorem Held.step (h : Held s) {a : CoAct} (hswitched : Switched s a)
    (hstep : coStep s a = some s') : Held s' := by
  cases a with
  | initEnv thd =>
    simp only [coStep, Option.ite_none_right_eq_some] at hstep
    exact h.initEnv hstep.1 hstep.2
  | create thd shareStack =>
    simp only [coStep, Option.ite_none_right_eq_some] at hstep
    obtain ⟨-, hstep⟩ := hstep
    obtain ⟨⟨lp, t⟩, hcreate, rfl⟩ := Option.map_eq_some_iff.mp hstep
    obtain ⟨pool, c, live, made, halloc, -, rfl, hlive, hmade, hown⟩ :=
      CoSys.coCreateEnv_cases hcreate
    exact h.alloc halloc hlive hmade hown
  | resume thd co =>
    simp only [coStep, Option.ite_none_right_eq_some, Option.some.injEq] at hstep
    obtain ⟨⟨hpc, -, hlt, hhead, henv, -, hnot⟩, rfl⟩ := hstep
    refine h.coSwap hpc (List.nodup_cons.mpr ⟨hnot, h.nodup thd⟩) fun x hx => ?_
    obtain rfl | hx := List.mem_cons.mp hx
    · exact ⟨⟨hlt, hhead⟩, henv⟩
    · exact ⟨h.inHand_of_running hpc hx, h.env thd x hx⟩
  | yield thd =>
    simp only [coStep, Option.ite_none_right_eq_some] at hstep
    obtain ⟨hpc, hstep⟩ := hstep
    have hyield := h.coYieldEnv (fun co' hrel => by rw [hpc] at hrel; cases hrel) hstep
    rwa [CoSys.goto_self (by rw [CoSys.coYieldEnv_pc hstep, hpc])] at hyield
  | ret thd =>
    simp only [coStep] at hstep
    split at hstep
    · rename_i co last rest hpc hcall
      cases hstep
      exact h.ret hpc hcall
    · cases hstep
  | release thd =>
    simp only [coStep] at hstep
    split at hstep
    · rename_i co env hpc
      cases hstep
      exact h.release hpc
    · cases hstep
  | switch thd =>
    simp only [coStep] at hstep
    split at hstep
    · rename_i co env hpc
      obtain ⟨t, hyield, rfl⟩ := Option.map_eq_some_iff.mp hstep
      have hat := h.pc thd
      rw [hpc] at hat
      obtain ⟨rfl, last, rest, hcall⟩ := hat
      refine h.coYieldEnv (fun co' hrel => ?_) hyield
      rw [hpc] at hrel
      cases hrel
      rw [hcall]
      rfl
    · cases hstep
  | recovery thd =>
    simp only [coStep, Option.ite_none_right_eq_some, Option.some.injEq] at hstep
    obtain ⟨-, rfl⟩ := hstep
    exact h.recovery _ hswitched

def CoAct.thread : CoAct → Thread
  | .initEnv thd => thd
  | .create thd _ => thd
  | .resume thd _ => thd
  | .yield thd => thd
  | .ret thd => thd
  | .release thd => thd
  | .switch thd => thd
  | .recovery thd => thd

def switchedAmong (thds : List Thread) (s : CoSys) (a : CoAct) : Bool :=
  a.thread ∈ thds &&
    match a with
    | .recovery _ =>
      ((s.pool.links.list .end_).take (DEF_ROUTINE_POOL_RECOVERY_MAX + 1)).all fun co =>
        thds.all fun thd =>
          match s.pc thd with
          | .released co' _ => co' != co
          | _ => true
    | _ => true

theorem recovery_pc (count : Nat) (s : CoSys) : (s.stCoRoutineRecovery count).pc = s.pc := by
  induction count generalizing s with
  | zero => rfl
  | succ count ih =>
    rw [CoSys.stCoRoutineRecovery]
    split
    · rfl
    · rename_i pos rest _
      rw [ih, CoSys.recover]
      split <;> exact (released_coRelease s pos).pc

theorem step_pc {a : CoAct} (hstep : coStep s a = some s') {u : Thread} (hu : u ≠ a.thread) :
    s'.pc u = s.pc u := by
  cases a with
  | initEnv thd =>
    simp only [coStep, Option.ite_none_right_eq_some] at hstep
    obtain ⟨-, hstep⟩ := hstep
    obtain ⟨⟨lp, t⟩, hcreate, rfl⟩ := Option.map_eq_some_iff.mp hstep
    obtain ⟨_, _, _, _, -, -, rfl, -⟩ := CoSys.coCreateEnv_cases hcreate
    rfl
  | create thd shareStack =>
    simp only [coStep, Option.ite_none_right_eq_some] at hstep
    obtain ⟨-, hstep⟩ := hstep
    obtain ⟨⟨lp, t⟩, hcreate, rfl⟩ := Option.map_eq_some_iff.mp hstep
    obtain ⟨_, _, _, _, -, -, rfl, -⟩ := CoSys.coCreateEnv_cases hcreate
    rfl
  | resume thd co =>
    simp only [coStep, Option.ite_none_right_eq_some, Option.some.injEq] at hstep
    obtain ⟨-, rfl⟩ := hstep
    rfl
  | yield thd =>
    simp only [coStep, Option.ite_none_right_eq_some] at hstep
    rw [CoSys.coYieldEnv_pc hstep.2]
  | ret thd =>
    simp only [coStep] at hstep
    split at hstep
    · cases hstep
      exact Function.update_of_ne hu _ _
    · cases hstep
  | release thd =>
    simp only [coStep] at hstep
    split at hstep
    · cases hstep
      exact Function.update_of_ne hu _ _
    · cases hstep
  | switch thd =>
    simp only [coStep] at hstep
    split at hstep
    · obtain ⟨t, hyield, rfl⟩ := Option.map_eq_some_iff.mp hstep
      exact (Function.update_of_ne hu _ _).trans (congrFun (CoSys.coYieldEnv_pc hyield) u)
    · cases hstep
  | recovery thd =>
    simp only [coStep, Option.ite_none_right_eq_some, Option.some.injEq] at hstep
    obtain ⟨-, rfl⟩ := hstep
    rw [recovery_pc]

theorem meets_of_among {thds : List Thread} {as : List CoAct}
    (hrunning : ∀ thd, thd ∉ thds → s.pc thd = .running)
    (hc : Run.Meets coStep (fun s a => switchedAmong thds s a = true) s as) :
    Run.Meets coStep Switched s as := by
  induction as generalizing s with
  | nil => trivial
  | cons a as ih =>
    have ha := hc.1
    simp only [switchedAmong, Bool.and_eq_true, decide_eq_true_eq] at ha
    constructor
    · cases a with
      | recovery thd' =>
        intro co hco thd env hpc
        by_cases hthd : thd ∈ thds
        · have hall := List.all_eq_true.mp (List.all_eq_true.mp ha.2 co hco) thd hthd
          simp [hpc] at hall
        · rw [hrunning thd hthd] at hpc
          cases hpc
      | _ => trivial
    · cases hstep : coStep s a with
      | none => trivial
      | some t =>
        refine ih (fun thd hthd => ?_) (hc.tail hstep)
        have hne : thd ≠ a.thread := by
          rintro rfl
          exact hthd ha.1
        rw [step_pc hstep hne, hrunning thd hthd]

/-- In every run in which no pass takes a coroutine before its thread has switched away, nothing is
reclaimed that a thread executes on. -/
theorem co_routine_reclaimed_after_switch (as : List CoAct)
    (hswitched : Run.Meets coStep Switched .init as) : Run.Steps coStep Reclaims .init as := by
  refine Run.steps_of_meets (p := Held) (fun s a t h hs hstep => ?_) held_init hswitched
  have ht := h.step hs hstep
  exact ⟨ht, ht.onLiveStack, fun co hout thd => h.handsOut hout thd⟩

/-- A coroutine of thread 2 ends and is reclaimed by a pass in thread 1. -/
def reclaimedInTime : List CoAct :=
  [.initEnv 1, .initEnv 2, .create 2 none, .resume 2 2, .ret 2, .release 2, .switch 2, .recovery 1,
    .create 2 none]

set_option maxRecDepth 20000 in
theorem co_routine_reclaimed_after_switch_in_time :
    Run.Steps coStep Reclaims .init reclaimedInTime ∧
      (Run.run coStep .init reclaimedInTime).any
        (fun s => s.live 2 = false ∧ s.live 3 = true) = true := by
  have hmeets : Run.Meets coStep (fun s a => switchedAmong [1, 2] s a = true) .init
      reclaimedInTime := by
    decide +kernel
  have hrunning : ∀ thd, thd ∉ [1, 2] → CoSys.init.pc thd = .running := fun _ _ => rfl
  have hswitched : Run.Meets coStep Switched .init reclaimedInTime :=
    meets_of_among hrunning hmeets
  exact ⟨co_routine_reclaimed_after_switch reclaimedInTime hswitched, by decide +kernel⟩

def beforeSwitch : List CoAct :=
  [.initEnv 1, .initEnv 2, .create 2 none, .resume 2 2, .ret 2, .release 2]

set_option maxRecDepth 20000 in
theorem co_routine_stack_freed :
    ¬ ∀ as : List CoAct, Run.Steps coStep Reclaims .init as := by
  intro hclaim
  have hrun : (Run.run coStep .init (beforeSwitch ++ [.recovery 1])).any (fun s =>
      s.stack 2 = some (.own 2) ∧ s.live 2 = false) = true := by
    decide +kernel
  obtain ⟨s, hs, hs'⟩ := (Option.any_eq_true _ _).mp hrun
  simp only [decide_eq_true_eq] at hs'
  obtain ⟨m, hm⟩ := (hclaim (beforeSwitch ++ [.recovery 1])).last hs
  have hlive := hm.1 2 2 hs'.1
  rw [hs'.2] at hlive
  cases hlive

end AlgorithmLib.CoRoutine
