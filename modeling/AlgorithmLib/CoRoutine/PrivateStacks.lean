import AlgorithmLib.CoRoutine.SharedStack

set_option autoImplicit false

namespace AlgorithmLib.CoRoutine

open Memory Run

namespace StackSys

/-- What holds between the steps, with `run` for the coroutine that executes; it is `none` within
`co_swap`, when the old one is done and the new one is not there yet. -/
structure Inv (s : StackSys) (run : Option CoId) : Prop where
  isShare : ∀ c, s.live c = true → (s.co c).cIsShareStack = (s.co c).stackMem.isShare
  made : ∀ c k, s.live c = true → (s.co c).stackMem = .own k → k < s.made
  shareMade : ∀ c j i, s.live c = true → (s.co c).stackMem = .share j i → j < s.shareMade
  own : ∀ c d, s.live c = true → s.live d = true → (s.co c).stackMem = (s.co d).stackMem →
    (s.co c).cIsShareStack = false → c = d
  occupant : ∀ k c, s.occupy k = some c →
    s.live c = true ∧ (s.co c).stackMem = k ∧ (s.co c).cIsShareStack = true
  sp : ∀ c, s.live c = true → run ≠ some c → (s.co c).stackSp ≤ s.size (s.co c).stackMem
  saved : ∀ c buf, s.live c = true → (s.co c).cIsShareStack = true →
    s.occupy (s.co c).stackMem ≠ some c → (s.co c).saveBuffer = some buf →
      buf.length = s.size (s.co c).stackMem - (s.co c).stackSp
  running : ∀ c, run = some c → s.live c = true ∧
    ((s.co c).cIsShareStack = true → s.occupy (s.co c).stackMem = some c)

/-- The stack of a coroutine that waits is in its place, or in the buffer when another one may be
there. -/
def Has (s : StackSys) (c : CoId) (addr : Nat) (b : UInt8) : Prop :=
  if (s.co c).cIsShareStack = true ∧ s.occupy (s.co c).stackMem ≠ some c then
    ∃ buf, (s.co c).saveBuffer = some buf ∧ buf[addr - (s.co c).stackSp]? = some b
  else s.mem (s.co c).stackMem addr = b

structure Shows (s : StackSys) (run : Option CoId) (p : PrivSys) : Prop where
  running : ∀ c addr b, run = some c → p.stack c addr = some b →
    addr < s.size (s.co c).stackMem ∧ s.mem (s.co c).stackMem addr = b
  waiting : ∀ c addr b, s.live c = true → run ≠ some c → p.stack c addr = some b →
    ((s.co c).cIsMain = true ∨ (s.co c).cStart = true) ∧ (s.co c).stackSp ≤ addr ∧
      addr < s.size (s.co c).stackMem ∧ s.Has c addr b

def suspend (s : StackSys) (curr : CoId) (sp : Nat) : StackSys :=
  s.setCo curr { s.co curr with stackSp := sp }

def vacate (s : StackSys) (c : CoId) : StackSys :=
  { s.saveStackBuffer c with occupy := Function.update s.occupy (s.co c).stackMem none }

/-- A coroutine has a free stack, with these cells on it. -/
def take (s : StackSys) (c : CoId) (cells : Nat → UInt8) : StackSys :=
  { s with
    occupy := Function.update s.occupy (s.co c).stackMem (some c)
    mem := Function.update s.mem (s.co c).stackMem cells }

variable {s : StackSys} {p : PrivSys} {run : Option CoId} {c d curr : CoId} {k : StackBuf}
  {addr sp : Nat} {b : UInt8} {rest : List CoId}

@[simp] theorem setCo_co (s : StackSys) (c d : CoId) (co : StackCo) :
    (s.setCo c co).co d = if d = c then co else s.co d := by
  simp only [setCo, Function.update_apply]

@[simp] theorem suspend_stackMem (s : StackSys) (curr : CoId) (sp : Nat) (c : CoId) :
    ((s.suspend curr sp).co c).stackMem = (s.co c).stackMem := by
  by_cases h : c = curr
  · simp [suspend, h]
  · simp [suspend, h]

@[simp] theorem suspend_cIsShareStack (s : StackSys) (curr : CoId) (sp : Nat) (c : CoId) :
    ((s.suspend curr sp).co c).cIsShareStack = (s.co c).cIsShareStack := by
  by_cases h : c = curr
  · simp [suspend, h]
  · simp [suspend, h]

@[simp] theorem suspend_saveBuffer (s : StackSys) (curr : CoId) (sp : Nat) (c : CoId) :
    ((s.suspend curr sp).co c).saveBuffer = (s.co c).saveBuffer := by
  by_cases h : c = curr
  · simp [suspend, h]
  · simp [suspend, h]

theorem suspend_of_ne (s : StackSys) (sp : Nat) (h : c ≠ curr) :
    (s.suspend curr sp).co c = s.co c := by
  simp [suspend, h]

theorem Inv.suspend (h : s.Inv (some curr)) (hsp : sp ≤ s.size (s.co curr).stackMem) :
    (s.suspend curr sp).Inv none := by
  constructor
  · simp only [suspend_stackMem, suspend_cIsShareStack]
    exact h.isShare
  · simp only [suspend_stackMem]
    exact h.made
  · simp only [suspend_stackMem]
    exact h.shareMade
  · simp only [suspend_stackMem, suspend_cIsShareStack]
    exact h.own
  · simp only [suspend_stackMem, suspend_cIsShareStack]
    exact h.occupant
  · intro c hlive _
    by_cases hc : c = curr
    · subst hc
      simpa [StackSys.suspend, setCo] using hsp
    · rw [suspend_of_ne s sp hc]
      exact h.sp c hlive fun heq => hc (Option.some.inj heq).symm
  · intro c buf hlive hshare hocc hbuf
    by_cases hc : c = curr
    · subst hc
      simp only [suspend_cIsShareStack, suspend_stackMem] at hshare hocc
      exact absurd ((h.running c rfl).2 hshare) hocc
    · rw [suspend_of_ne s sp hc] at hshare hocc hbuf ⊢
      exact h.saved c buf hlive hshare hocc hbuf
  · intro c hc
    cases hc

theorem Shows.suspend (sp : Nat) (hinv : s.Inv (some curr)) (h : s.Shows (some curr) p)
    (hrun : (s.co curr).cIsMain = true ∨ (s.co curr).cStart = true) :
    (s.suspend curr sp).Shows none (p.forget curr sp) := by
  constructor
  · intro c addr b hc
    cases hc
  · intro c addr b hlive _ hknown
    by_cases hc : c = curr
    · subst hc
      simp only [PrivSys.forget, Function.update_self] at hknown
      split at hknown
      · cases hknown
      · rename_i hge
        obtain ⟨hlt, hmem⟩ := h.running c addr b rfl hknown
        refine ⟨by simpa [StackSys.suspend] using hrun, ?_, ?_, ?_⟩
        · simpa [StackSys.suspend] using hge
        · rw [suspend_stackMem]
          exact hlt
        · rw [Has, if_neg]
          · rw [suspend_stackMem]
            exact hmem
          · rintro ⟨hshare, hocc⟩
            simp only [suspend_cIsShareStack, suspend_stackMem] at hshare hocc
            exact hocc ((hinv.running c rfl).2 hshare)
    · simp only [PrivSys.forget, Function.update_of_ne hc] at hknown
      have hw := h.waiting c addr b hlive (fun heq => hc (Option.some.inj heq).symm) hknown
      simp only [Has, suspend_of_ne s sp hc]
      exact hw

theorem vacate_of_ne (s : StackSys) (h : d ≠ c) : (s.vacate c).co d = s.co d := by
  simp [vacate, saveStackBuffer, h]

theorem vacate_self (s : StackSys) (c : CoId) : (s.vacate c).co c = { s.co c with
    saveBuffer := some (copyOut (s.mem (s.co c).stackMem) (s.co c).stackSp
      (s.size (s.co c).stackMem)) } := by
  simp [vacate, saveStackBuffer]

@[simp] theorem vacate_stackMem (s : StackSys) (c d : CoId) :
    ((s.vacate c).co d).stackMem = (s.co d).stackMem := by
  by_cases h : d = c
  · rw [h, vacate_self]
  · rw [vacate_of_ne s h]

@[simp] theorem vacate_cIsShareStack (s : StackSys) (c d : CoId) :
    ((s.vacate c).co d).cIsShareStack = (s.co d).cIsShareStack := by
  by_cases h : d = c
  · rw [h, vacate_self]
  · rw [vacate_of_ne s h]

@[simp] theorem vacate_stackSp (s : StackSys) (c d : CoId) :
    ((s.vacate c).co d).stackSp = (s.co d).stackSp := by
  by_cases h : d = c
  · rw [h, vacate_self]
  · rw [vacate_of_ne s h]

theorem vacate_occupy (s : StackSys) (c : CoId) (k : StackBuf) :
    (s.vacate c).occupy k = if k = (s.co c).stackMem then none else s.occupy k := by
  simp only [vacate, saveStackBuffer, Function.update_apply]

theorem vacate_occupy_ne (hocc : s.occupy (s.co c).stackMem = some c) (h : d ≠ c) :
    (s.vacate c).occupy k ≠ some d ↔ s.occupy k ≠ some d := by
  rw [vacate_occupy]
  split
  · rename_i hk
    subst hk
    simp [hocc, Ne.symm h]
  · rfl

theorem Inv.vacate (h : s.Inv none) (hocc : s.occupy (s.co c).stackMem = some c) :
    (s.vacate c).Inv none := by
  constructor
  · simp only [vacate_stackMem, vacate_cIsShareStack]
    exact h.isShare
  · simp only [vacate_stackMem]
    exact h.made
  · simp only [vacate_stackMem]
    exact h.shareMade
  · simp only [vacate_stackMem, vacate_cIsShareStack]
    exact h.own
  · intro k d hd
    rw [vacate_occupy] at hd
    split at hd
    · cases hd
    · simp only [vacate_stackMem, vacate_cIsShareStack]
      exact h.occupant k d hd
  · simp only [vacate_stackMem, vacate_stackSp]
    exact h.sp
  · intro d buf hlive hshare hfree hbuf
    by_cases hd : d = c
    · subst hd
      simp only [vacate_self, Option.some.injEq] at hbuf ⊢
      rw [← hbuf, copyOut_length]
      rfl
    · simp only [vacate_cIsShareStack, vacate_stackMem] at hshare hfree
      rw [vacate_of_ne s hd] at hbuf ⊢
      exact h.saved d buf hlive hshare ((vacate_occupy_ne hocc hd).mp hfree) hbuf
  · intro d hd
    cases hd

theorem Shows.vacate (hinv : s.Inv none) (h : s.Shows none p)
    (hocc : s.occupy (s.co c).stackMem = some c) : (s.vacate c).Shows none p := by
  constructor
  · intro d addr b hd
    cases hd
  · intro d addr b hlive hrun hknown
    obtain ⟨hbegun, hsp, hlt, hhas⟩ := h.waiting d addr b hlive hrun hknown
    by_cases hd : d = c
    · subst hd
      refine ⟨by rw [vacate_self]; exact hbegun, by rwa [vacate_stackSp],
        by rw [vacate_stackMem]; exact hlt, ?_⟩
      have hshare := (hinv.occupant _ d hocc).2.2
      rw [Has, if_neg (fun hand => hand.2 hocc)] at hhas
      rw [Has, if_pos]
      · rw [vacate_self]
        exact ⟨_, rfl, by rw [copyOut_getElem hsp hlt, hhas]⟩
      · simp [hshare, vacate_occupy]
    · rw [vacate_of_ne s hd]
      refine ⟨hbegun, hsp, hlt, ?_⟩
      simp only [Has, vacate_of_ne s hd, vacate_occupy_ne hocc hd]
      exact hhas

theorem Inv.stay (h : s.Inv none) (hlive : s.live c = true)
    (hocc : (s.co c).cIsShareStack = true → s.occupy (s.co c).stackMem = some c) :
    s.Inv (some c) where
  isShare := h.isShare
  made := h.made
  shareMade := h.shareMade
  own := h.own
  occupant := h.occupant
  sp := fun d hd _ => h.sp d hd nofun
  saved := h.saved
  running := by
    rintro d ⟨⟩
    exact ⟨hlive, hocc⟩

theorem Shows.stay (h : s.Shows none p) (hlive : s.live c = true)
    (hocc : (s.co c).cIsShareStack = true → s.occupy (s.co c).stackMem = some c) :
    s.Shows (some c) p where
  running := by
    rintro d addr b ⟨⟩ hknown
    obtain ⟨-, -, hlt, hhas⟩ := h.waiting c addr b hlive nofun hknown
    rw [Has, if_neg (fun hand => hand.2 (hocc hand.1))] at hhas
    exact ⟨hlt, hhas⟩
  waiting := fun d addr b hd _ => h.waiting d addr b hd nofun

theorem Inv.take (h : s.Inv none) (hlive : s.live c = true) (cells : Nat → UInt8)
    (hshare : (s.co c).cIsShareStack = true) (hfree : s.occupy (s.co c).stackMem = none) :
    (s.take c cells).Inv (some c) where
  isShare := h.isShare
  made := h.made
  shareMade := h.shareMade
  own := h.own
  occupant := by
    intro k d hd
    simp only [StackSys.take, Function.update_apply] at hd
    split at hd
    · rename_i hk
      cases hd
      exact ⟨hlive, hk.symm, hshare⟩
    · exact h.occupant k d hd
  sp := fun d hd _ => h.sp d hd nofun
  saved := by
    intro d buf hd hdshare hocc hbuf
    refine h.saved d buf hd hdshare (fun hold => ?_) hbuf
    simp only [StackSys.take, Function.update_apply] at hocc
    split at hocc
    · rename_i hk
      rw [hk, hfree] at hold
      cases hold
    · exact hocc hold
  running := by
    rintro d ⟨⟩
    exact ⟨hlive, fun _ => by simp [StackSys.take]⟩

theorem Shows.take (hinv : s.Inv none) (h : s.Shows none p) (hlive : s.live c = true)
    {cells : Nat → UInt8} (hshare : (s.co c).cIsShareStack = true)
    (hfree : s.occupy (s.co c).stackMem = none)
    (hcells : ∀ addr b, p.stack c addr = some b → cells addr = b) :
    (s.take c cells).Shows (some c) p where
  running := by
    rintro d addr b ⟨⟩ hknown
    obtain ⟨-, -, hlt, -⟩ := h.waiting c addr b hlive nofun hknown
    refine ⟨hlt, ?_⟩
    simp only [StackSys.take, Function.update_self]
    exact hcells addr b hknown
  waiting := by
    intro d addr b hd hrun hknown
    have hne : d ≠ c := fun heq => hrun (congrArg some heq.symm)
    obtain ⟨hbegun, hsp, hlt, hhas⟩ := h.waiting d addr b hd nofun hknown
    refine ⟨hbegun, hsp, hlt, ?_⟩
    by_cases hk : (s.co d).stackMem = (s.co c).stackMem
    · -- another one of the share stack, with its frames in the buffer
      have hdshare : (s.co d).cIsShareStack = true := by
        rw [hinv.isShare d hd, hk, ← hinv.isShare c hlive, hshare]
      rw [Has, if_pos ⟨hdshare, by rw [hk, hfree]; nofun⟩] at hhas
      rw [Has, if_pos]
      · exact hhas
      · exact ⟨hdshare, by simp [StackSys.take, hk, Ne.symm hne]⟩
    · simp only [Has, StackSys.take, Function.update_of_ne hk]
      exact hhas

/-- `env->pending_co` and `env->occupy_co` do not matter between the steps. -/
theorem Inv.env (h : s.Inv run) (pendingCo occupyCo : Option CoId) :
    { s with pendingCo := pendingCo, occupyCo := occupyCo }.Inv run :=
  { h with }

theorem Shows.env (h : s.Shows run p) (pendingCo occupyCo : Option CoId) :
    { s with pendingCo := pendingCo, occupyCo := occupyCo }.Shows run p :=
  { h with }

theorem coSwap_eq (h : s.Inv (some curr)) (hshows : s.Shows (some curr) p)
    (hrun : (s.co curr).cIsMain = true ∨ (s.co curr).cStart = true)
    (hsp : sp ≤ s.size (s.co curr).stackMem) (hlive : s.live c = true) :
    ∃ s' : StackSys, s'.Inv none ∧ s'.Shows none (p.forget curr sp) ∧ s'.live c = true ∧
      ((((s'.co c).cIsShareStack = true → s'.occupy (s'.co c).stackMem = some c) ∧
          ∃ pendingCo occupyCo, (pendingCo = none ∨ pendingCo = some c ∧ occupyCo = some c) ∧
            s.coSwap curr c sp = { s' with pendingCo := pendingCo, occupyCo := occupyCo }) ∨
        (s'.co c).cIsShareStack = true ∧ s'.occupy (s'.co c).stackMem = none ∧
          ∃ occupyCo, occupyCo ≠ some c ∧ s.coSwap curr c sp =
            { s'.take c (s'.mem (s'.co c).stackMem) with
              pendingCo := some c, occupyCo := occupyCo }) := by
  have hinv := h.suspend hsp
  have hsus := Shows.suspend sp h hshows hrun
  have hl : (s.suspend curr sp).live c = true := hlive
  have hdef : s.setCo curr { s.co curr with stackSp := sp } = s.suspend curr sp := rfl
  unfold coSwap
  rw [hdef]
  generalize s.suspend curr sp = t at *
  by_cases hshare : (t.co c).cIsShareStack = false
  · refine ⟨t, hinv, hsus, hl, .inl ⟨by simp [hshare], none, none, .inl rfl, ?_⟩⟩
    rw [if_pos hshare]
  · rw [if_neg hshare]
    rw [Bool.not_eq_false] at hshare
    cases hocc : t.occupy (t.co c).stackMem with
    | none =>
      refine ⟨t, hinv, hsus, hl, .inr ⟨hshare, hocc, none, nofun, ?_⟩⟩
      simp [take]
    | some o =>
      by_cases ho : o = c
      · subst ho
        refine ⟨t, hinv, hsus, hl, .inl ⟨fun _ => hocc, some o, some o, .inr ⟨rfl, rfl⟩, ?_⟩⟩
        simp [← hocc]
      · have hk : (t.co o).stackMem = (t.co c).stackMem := (hinv.occupant _ o hocc).2.1
        have hocc' : t.occupy (t.co o).stackMem = some o := by rw [hk, hocc]
        refine ⟨t.vacate o, hinv.vacate hocc', hsus.vacate hinv hocc', hl, .inr ⟨?_, ?_, some o,
          fun heq => ho (Option.some.inj heq), ?_⟩⟩
        · simpa using hshare
        · simp [vacate_occupy, hk]
        · rw [take, vacate_stackMem]
          simp [vacate, saveStackBuffer, setCo, ho, hk]

theorem forget_le (h : (p.forget curr sp).stack c addr = some b) : p.stack c addr = some b := by
  by_cases hc : c = curr
  · subst hc
    simp only [PrivSys.forget, Function.update_self] at h
    split at h
    · cases h
    · exact h
  · simpa only [PrivSys.forget, Function.update_of_ne hc] using h

theorem coSwap_start (sp : Nat) (h : s.Inv (some curr)) (hshows : s.Shows (some curr) p)
    (hrun : (s.co curr).cIsMain = true ∨ (s.co curr).cStart = true)
    (hsp : sp ≤ s.size (s.co curr).stackMem) (hlive : s.live c = true)
    (hnew : ∀ addr, p.stack c addr = none) :
    (s.coSwap curr c sp).Inv (some c) ∧ (s.coSwap curr c sp).Shows (some c) (p.forget curr sp) := by
  obtain ⟨t, hinv, hshows', hl, ⟨hocc, x, y, -, heq⟩ | ⟨hshare, hfree, y, -, heq⟩⟩ :=
    coSwap_eq h hshows hrun hsp hlive
  · rw [heq]
    exact ⟨(hinv.stay hl hocc).env x y, (hshows'.stay hl hocc).env x y⟩
  · rw [heq]
    refine ⟨(hinv.take hl _ hshare hfree).env _ y,
      (hshows'.take hinv hl hshare hfree fun addr b hknown => ?_).env _ y⟩
    have hold := forget_le hknown
    rw [hnew addr] at hold
    cases hold

theorem afterSwap_take {occupyCo : Option CoId} (cells : Nat → UInt8) (h : occupyCo ≠ some c) :
    ({ s.take c cells with pendingCo := some c, occupyCo := occupyCo } : StackSys).afterSwap =
      { s.take c (copyIn cells (s.co c).stackSp ((s.co c).saveBuffer.getD [])) with
        pendingCo := some c, occupyCo := occupyCo } := by
  have hco : (s.take c cells).co c = s.co c := rfl
  cases hbuf : (s.co c).saveBuffer with
  | none => simp [afterSwap, hco, hbuf, h]
  | some buf =>
    cases buf with
    | nil => simp [afterSwap, hco, hbuf, h]
    | cons b buf => simp [afterSwap, hbuf, h, take]

theorem coSwap_resume (h : s.Inv (some curr)) (hshows : s.Shows (some curr) p)
    (hrun : (s.co curr).cIsMain = true ∨ (s.co curr).cStart = true)
    (hsp : sp ≤ s.size (s.co curr).stackMem) (hlive : s.live c = true) :
    (s.coSwap curr c sp).afterSwap.Inv (some c) ∧
      (s.coSwap curr c sp).afterSwap.Shows (some c) (p.forget curr sp) := by
  obtain ⟨t, hinv, hshows', hl, ⟨hocc, x, y, hxy, heq⟩ | ⟨hshare, hfree, y, hy, heq⟩⟩ :=
    coSwap_eq h hshows hrun hsp hlive
  · have hafter : (s.coSwap curr c sp).afterSwap = { t with pendingCo := x, occupyCo := y } := by
      rw [heq]
      rcases hxy with rfl | ⟨rfl, rfl⟩
      · rfl
      · simp [afterSwap]
    rw [hafter]
    exact ⟨(hinv.stay hl hocc).env x y, (hshows'.stay hl hocc).env x y⟩
  · rw [heq, afterSwap_take _ hy]
    refine ⟨(hinv.take hl _ hshare hfree).env _ y,
      (hshows'.take hinv hl hshare hfree fun addr b hknown => ?_).env _ y⟩
    obtain ⟨-, hsp, -, hhas⟩ := hshows'.waiting c addr b hl nofun hknown
    rw [Has, if_pos ⟨hshare, by rw [hfree]; nofun⟩] at hhas
    obtain ⟨buf, hbuf, hget⟩ := hhas
    rw [hbuf]
    exact copyIn_of_getElem hsp hget

theorem Shows.mono {q : PrivSys} (h : s.Shows run p)
    (hle : ∀ c addr b, q.stack c addr = some b → p.stack c addr = some b) : s.Shows run q where
  running := fun c addr b hrun hknown => h.running c addr b hrun (hle c addr b hknown)
  waiting := fun c addr b hlive hrun hknown => h.waiting c addr b hlive hrun (hle c addr b hknown)

structure SameStack (co co' : StackCo) : Prop where
  stackMem : co'.stackMem = co.stackMem
  cIsShareStack : co'.cIsShareStack = co.cIsShareStack
  stackSp : co'.stackSp = co.stackSp
  saveBuffer : co'.saveBuffer = co.saveBuffer

theorem SameStack.setCo {co : StackCo} (h : SameStack (s.co c) co) (d : CoId) :
    SameStack (s.co d) ((s.setCo c co).co d) := by
  rw [setCo_co]
  split
  · rename_i hd
    rw [hd]
    exact h
  · exact ⟨rfl, rfl, rfl, rfl⟩

theorem Inv.setCo {co : StackCo} (h : s.Inv run) (hco : SameStack (s.co c) co) :
    (s.setCo c co).Inv run where
  isShare := fun d => by
    rw [(hco.setCo d).stackMem, (hco.setCo d).cIsShareStack]
    exact h.isShare d
  made := fun d => by
    rw [(hco.setCo d).stackMem]
    exact h.made d
  shareMade := fun d => by
    rw [(hco.setCo d).stackMem]
    exact h.shareMade d
  own := fun d e => by
    rw [(hco.setCo d).stackMem, (hco.setCo e).stackMem, (hco.setCo d).cIsShareStack]
    exact h.own d e
  occupant := fun k d => by
    rw [(hco.setCo d).stackMem, (hco.setCo d).cIsShareStack]
    exact h.occupant k d
  sp := fun d => by
    rw [(hco.setCo d).stackMem, (hco.setCo d).stackSp]
    exact h.sp d
  saved := fun d => by
    rw [(hco.setCo d).stackMem, (hco.setCo d).cIsShareStack, (hco.setCo d).stackSp,
      (hco.setCo d).saveBuffer]
    exact h.saved d
  running := fun d => by
    rw [(hco.setCo d).stackMem, (hco.setCo d).cIsShareStack]
    exact h.running d

theorem Shows.setCo {co : StackCo} (h : s.Shows run p) (hco : SameStack (s.co c) co)
    (hmain : co.cIsMain = (s.co c).cIsMain) (hstart : (s.co c).cStart = true → co.cStart = true) :
    (s.setCo c co).Shows run p where
  running := fun d => by
    rw [(hco.setCo d).stackMem]
    exact h.running d
  waiting := fun d addr b hlive hrun hknown => by
    obtain ⟨hbegun, hrest⟩ := h.waiting d addr b hlive hrun hknown
    rw [Has, (hco.setCo d).stackMem, (hco.setCo d).cIsShareStack, (hco.setCo d).stackSp,
      (hco.setCo d).saveBuffer]
    refine ⟨?_, hrest⟩
    rw [setCo_co]
    split
    · rename_i hd
      subst hd
      exact hbegun.imp (fun h => hmain.trans h) hstart
    · exact hbegun

theorem Inv.grow (h : s.Inv run) (size : StackBuf → Nat) (made shareMade : Nat)
    (shareStack : Nat → ShareStack)
    (hsize : ∀ c, s.live c = true → size (s.co c).stackMem = s.size (s.co c).stackMem)
    (hmade : s.made ≤ made) (hshareMade : s.shareMade ≤ shareMade) :
    { s with size := size, made := made, shareStack := shareStack, shareMade := shareMade }.Inv
      run where
  isShare := h.isShare
  made := fun c k hlive hk => lt_of_lt_of_le (h.made c k hlive hk) hmade
  shareMade := fun c j i hlive hk => lt_of_lt_of_le (h.shareMade c j i hlive hk) hshareMade
  own := h.own
  occupant := h.occupant
  sp := fun c hlive hrun => by
    simp only [hsize c hlive]
    exact h.sp c hlive hrun
  saved := fun c buf hlive => by
    simp only [hsize c hlive]
    exact h.saved c buf hlive
  running := h.running

theorem Shows.grow (hinv : s.Inv run) (h : s.Shows run p) (size : StackBuf → Nat)
    (made shareMade : Nat) (shareStack : Nat → ShareStack)
    (hsize : ∀ c, s.live c = true → size (s.co c).stackMem = s.size (s.co c).stackMem) :
    { s with size := size, made := made, shareStack := shareStack, shareMade := shareMade }.Shows
      run p where
  running := fun c addr b hrun => by
    simp only [hsize c (hinv.running c hrun).1]
    exact h.running c addr b hrun
  waiting := fun c addr b hlive => by
    simp only [hsize c hlive]
    exact h.waiting c addr b hlive

/-- A new record, with no other coroutine on its stack unless it is one of a share stack. -/
theorem Inv.insert (h : s.Inv run) {co : StackCo} (hdead : s.live c = false)
    (hshare : co.cIsShareStack = co.stackMem.isShare) (hmade : ∀ k, co.stackMem = .own k → k < s.made)
    (hshareMade : ∀ j i, co.stackMem = .share j i → j < s.shareMade)
    (hown : co.cIsShareStack = false → ∀ d, s.live d = true → (s.co d).stackMem ≠ co.stackMem)
    (hsp : co.stackSp = 0) (hbuf : co.saveBuffer = none) :
    { s.setCo c co with live := Function.update s.live c true }.Inv run := by
  -- the other coroutines keep what they have
  have hold : ∀ d, Function.update s.live c true d = true → d ≠ c →
      s.live d = true ∧ (s.setCo c co).co d = s.co d := by
    intro d hd hdc
    rw [Function.update_of_ne hdc] at hd
    exact ⟨hd, by rw [setCo_co, if_neg hdc]⟩
  have hne : ∀ d, s.live d = true → d ≠ c := by
    rintro d hd rfl
    rw [hdead] at hd
    cases hd
  have hself : (s.setCo c co).co c = co := by simp
  constructor
  · intro d hd
    by_cases hdc : d = c
    · subst hdc
      simp only [hself, hshare]
    · obtain ⟨hlive, heq⟩ := hold d hd hdc
      simp only [heq, h.isShare d hlive]
  · intro d k hd hk
    by_cases hdc : d = c
    · subst hdc
      simp only [hself] at hk
      exact hmade k hk
    · obtain ⟨hlive, heq⟩ := hold d hd hdc
      simp only [heq] at hk
      exact h.made d k hlive hk
  · intro d j i hd hk
    by_cases hdc : d = c
    · subst hdc
      simp only [hself] at hk
      exact hshareMade j i hk
    · obtain ⟨hlive, heq⟩ := hold d hd hdc
      simp only [heq] at hk
      exact h.shareMade d j i hlive hk
  · intro d e hd he hk hown'
    by_cases hdc : d = c
    · subst hdc
      by_cases hec : e = d
      · exact hec.symm
      · obtain ⟨hlive, heq⟩ := hold e he hec
        simp only [hself, heq] at hk hown'
        exact absurd hk.symm (hown hown' e hlive)
    · obtain ⟨hlive, heq⟩ := hold d hd hdc
      by_cases hec : e = c
      · subst hec
        simp only [hself, heq] at hk hown'
        refine absurd hk (hown ?_ d hlive)
        rw [hshare, ← hk, ← h.isShare d hlive, hown']
      · obtain ⟨hlive', heq'⟩ := hold e he hec
        simp only [heq, heq'] at hk hown'
        exact h.own d e hlive hlive' hk hown'
  · intro k d hd
    obtain ⟨hlive, hk⟩ := h.occupant k d hd
    simp only [Function.update_of_ne (hne d hlive), setCo_co, if_neg (hne d hlive)]
    exact ⟨hlive, hk⟩
  · intro d hd hrun
    by_cases hdc : d = c
    · subst hdc
      simp only [hself, hsp]
      exact Nat.zero_le _
    · obtain ⟨hlive, heq⟩ := hold d hd hdc
      simp only [heq]
      exact h.sp d hlive hrun
  · intro d buf hd hdshare hocc hdbuf
    by_cases hdc : d = c
    · subst hdc
      simp only [hself, hbuf] at hdbuf
      cases hdbuf
    · obtain ⟨hlive, heq⟩ := hold d hd hdc
      simp only [heq] at hdshare hocc hdbuf ⊢
      exact h.saved d buf hlive hdshare hocc hdbuf
  · intro d hd
    obtain ⟨hlive, hocc⟩ := h.running d hd
    simp only [Function.update_of_ne (hne d hlive), setCo_co, if_neg (hne d hlive)]
    exact ⟨hlive, hocc⟩

theorem Shows.insert (h : s.Shows run p) {co : StackCo}
    (hdead : s.live c = false) :
    { s.setCo c co with live := Function.update s.live c true }.Shows run (p.clear c) := by
  have hknows : ∀ d addr b, (p.clear c).stack d addr = some b → d ≠ c ∧ p.stack d addr = some b := by
    intro d addr b hknown
    by_cases hdc : d = c
    · subst hdc
      simp [PrivSys.clear] at hknown
    · exact ⟨hdc, by simpa only [PrivSys.clear, Function.update_of_ne hdc] using hknown⟩
  constructor
  · intro d addr b hrun hknown
    obtain ⟨hdc, hknown⟩ := hknows d addr b hknown
    simp only [setCo_co, if_neg hdc]
    exact h.running d addr b hrun hknown
  · intro d addr b hd hrun hknown
    obtain ⟨hdc, hknown⟩ := hknows d addr b hknown
    simp only [Function.update_of_ne hdc] at hd
    simp only [Has, setCo_co, if_neg hdc]
    exact h.waiting d addr b hd hrun hknown

theorem coRelease_occupy (h : s.Inv run) :
    (s.coRelease c).occupy k = some d ↔ s.occupy k = some d ∧ d ≠ c := by
  have hmine : s.occupy k = some c →
      k = (s.co c).stackMem ∧ (s.co c).cIsShareStack = true := fun hocc =>
    ⟨(h.occupant k c hocc).2.1.symm, (h.occupant k c hocc).2.2⟩
  unfold coRelease
  split
  · by_cases hocc : s.occupy (s.co c).stackMem = some c
    · simp only [if_pos hocc, Function.update_apply]
      split
      · rename_i hk
        rw [hk, hocc]
        simp [eq_comm]
      · rename_i hk
        refine ⟨fun hd => ⟨hd, ?_⟩, And.left⟩
        rintro rfl
        exact hk (hmine hd).1
    · simp only [if_neg hocc]
      refine ⟨fun hd => ⟨hd, ?_⟩, And.left⟩
      rintro rfl
      exact hocc ((hmine hd).1 ▸ hd)
  · rename_i hshare
    refine ⟨fun hd => ⟨hd, ?_⟩, And.left⟩
    rintro rfl
    exact hshare (hmine hd).2

theorem coRelease_frame (s : StackSys) (c : CoId) :
    (s.coRelease c).live = Function.update s.live c false ∧ (s.coRelease c).mem = s.mem ∧
      (s.coRelease c).size = s.size ∧ (s.coRelease c).made = s.made ∧
      (s.coRelease c).shareMade = s.shareMade ∧ (s.coRelease c).pCallStack = s.pCallStack ∧
      ∀ d, d ≠ c → (s.coRelease c).co d = s.co d := by
  unfold coRelease
  split
  · refine ⟨rfl, rfl, rfl, rfl, rfl, rfl, fun d hd => ?_⟩
    rw [setCo_co, if_neg hd]
  · exact ⟨rfl, rfl, rfl, rfl, rfl, rfl, fun d _ => rfl⟩

theorem coRelease_of_live (hd : (s.coRelease c).live d = true) :
    d ≠ c ∧ s.live d = true ∧ (s.coRelease c).co d = s.co d := by
  obtain ⟨hlive, -, -, -, -, -, hco⟩ := coRelease_frame s c
  rw [hlive] at hd
  by_cases hdc : d = c
  · subst hdc
    rw [Function.update_self] at hd
    cases hd
  · rw [Function.update_of_ne hdc] at hd
    exact ⟨hdc, hd, hco d hdc⟩

theorem Inv.coRelease (h : s.Inv run) (hrun : run ≠ some c) : (s.coRelease c).Inv run := by
  obtain ⟨hlive, -, hsize, hmade, hshareMade, -, hco⟩ := coRelease_frame s c
  constructor
  · intro d hd
    obtain ⟨-, hd, heq⟩ := coRelease_of_live hd
    rw [heq]
    exact h.isShare d hd
  · intro d k hd
    obtain ⟨-, hd, heq⟩ := coRelease_of_live hd
    rw [heq, hmade]
    exact h.made d k hd
  · intro d j i hd
    obtain ⟨-, hd, heq⟩ := coRelease_of_live hd
    rw [heq, hshareMade]
    exact h.shareMade d j i hd
  · intro d e hd he
    obtain ⟨-, hd, heq⟩ := coRelease_of_live hd
    obtain ⟨-, he, heq'⟩ := coRelease_of_live he
    rw [heq, heq']
    exact h.own d e hd he
  · intro k d hd
    obtain ⟨hocc, hdc⟩ := (coRelease_occupy h).mp hd
    rw [hlive, Function.update_of_ne hdc, hco d hdc]
    exact h.occupant k d hocc
  · intro d hd
    obtain ⟨-, hd, heq⟩ := coRelease_of_live hd
    rw [heq, hsize]
    exact h.sp d hd
  · intro d buf hd
    obtain ⟨hdc, hd, heq⟩ := coRelease_of_live hd
    rw [heq, hsize, Ne, coRelease_occupy h]
    intro hshare hocc
    exact h.saved d buf hd hshare fun hold => hocc ⟨hold, hdc⟩
  · intro d hd
    have hdc : d ≠ c := fun heq => hrun (heq ▸ hd)
    obtain ⟨hdlive, hocc⟩ := h.running d hd
    rw [hlive, Function.update_of_ne hdc, hco d hdc, coRelease_occupy h]
    exact ⟨hdlive, fun hshare => ⟨hocc hshare, hdc⟩⟩

theorem Shows.coRelease (hinv : s.Inv run) (h : s.Shows run p) (hrun : run ≠ some c) :
    (s.coRelease c).Shows run p := by
  obtain ⟨hlive, hmem, hsize, -, -, -, hco⟩ := coRelease_frame s c
  constructor
  · intro d addr b hd
    have hdc : d ≠ c := fun heq => hrun (heq ▸ hd)
    rw [hco d hdc, hsize, hmem]
    exact h.running d addr b hd
  · intro d addr b hd hdrun hknown
    obtain ⟨hdc, hd, heq⟩ := coRelease_of_live hd
    obtain ⟨hbegun, hsp, hlt, hhas⟩ := h.waiting d addr b hd hdrun hknown
    rw [Has, heq, hsize, hmem]
    refine ⟨hbegun, hsp, hlt, ?_⟩
    simpa [Has, coRelease_occupy hinv, hdc] using hhas

theorem Shows.write (hinv : s.Inv (some c)) (h : s.Shows (some c) p)
    (haddr : addr < s.size (s.co c).stackMem) :
    { s with mem := Function.update s.mem (s.co c).stackMem
                      (Function.update (s.mem (s.co c).stackMem) addr b) }.Shows (some c)
      (p.know c addr b) := by
  constructor
  · rintro d a v ⟨⟩ hknown
    simp only [PrivSys.know, Function.update_self] at hknown ⊢
    by_cases ha : a = addr
    · subst ha
      simp only [Function.update_self] at hknown ⊢
      exact ⟨haddr, Option.some.inj hknown⟩
    · rw [Function.update_of_ne ha] at hknown ⊢
      exact h.running c a v rfl hknown
  · intro d a v hd hrun hknown
    have hdc : d ≠ c := fun heq => hrun (congrArg some heq.symm)
    simp only [PrivSys.know, Function.update_of_ne hdc] at hknown
    obtain ⟨hbegun, hsp, hlt, hhas⟩ := h.waiting d a v hd hrun hknown
    refine ⟨hbegun, hsp, hlt, ?_⟩
    rw [Has] at hhas ⊢
    split
    · rename_i hand
      rwa [if_pos hand] at hhas
    · rename_i hand
      rw [if_neg hand] at hhas
      obtain ⟨hlive, htop⟩ := hinv.running c rfl
      have hk : (s.co d).stackMem ≠ (s.co c).stackMem := by
        intro hk
        cases hshare : (s.co d).cIsShareStack with
        | false => exact hdc (hinv.own d c hd hlive hk hshare)
        | true =>
          have hcshare : (s.co c).cIsShareStack = true := by
            rw [hinv.isShare c hlive, ← hk, ← hinv.isShare d hd, hshare]
          refine hand ⟨hshare, ?_⟩
          simp only [hk, htop hcshare]
          exact fun heq => hdc (Option.some.inj heq).symm
      simp only [Function.update_of_ne hk]
      exact hhas

theorem Shows.read (h : s.Shows (some c) p) (haddr : addr < s.size (s.co c).stackMem)
    (hmem : s.mem (s.co c).stackMem addr = b) : s.Shows (some c) (p.know c addr b) := by
  constructor
  · rintro d a v ⟨⟩ hknown
    simp only [PrivSys.know, Function.update_self] at hknown
    by_cases ha : a = addr
    · subst ha
      rw [Function.update_self] at hknown
      exact ⟨haddr, hmem.trans (Option.some.inj hknown)⟩
    · rw [Function.update_of_ne ha] at hknown
      exact h.running c a v rfl hknown
  · intro d a v hd hrun hknown
    have hdc : d ≠ c := fun heq => hrun (congrArg some heq.symm)
    simp only [PrivSys.know, Function.update_of_ne hdc] at hknown
    exact h.waiting d a v hd hrun hknown

structure SameCalls (s t : StackSys) : Prop where
  live : t.live = s.live
  pCallStack : t.pCallStack = s.pCallStack
  cEnd : ∀ d, (t.co d).cEnd = (s.co d).cEnd
  cIsMain : ∀ d, (t.co d).cIsMain = (s.co d).cIsMain
  cStart : ∀ d, (t.co d).cStart = (s.co d).cStart

theorem SameCalls.trans {t u : StackSys} (h : SameCalls s t) (h' : SameCalls t u) :
    SameCalls s u where
  live := h'.live.trans h.live
  pCallStack := h'.pCallStack.trans h.pCallStack
  cEnd := fun d => (h'.cEnd d).trans (h.cEnd d)
  cIsMain := fun d => (h'.cIsMain d).trans (h.cIsMain d)
  cStart := fun d => (h'.cStart d).trans (h.cStart d)

theorem sameCalls_setCo {co : StackCo} (hEnd : co.cEnd = (s.co c).cEnd)
    (hIsMain : co.cIsMain = (s.co c).cIsMain) (hStart : co.cStart = (s.co c).cStart) :
    SameCalls s (s.setCo c co) := by
  have hif : ∀ d, (s.setCo c co).co d = if d = c then co else s.co d := fun d => setCo_co s c d co
  refine ⟨rfl, rfl, fun d => ?_, fun d => ?_, fun d => ?_⟩
  · by_cases hd : d = c
    · rw [hif, if_pos hd, hd, hEnd]
    · rw [hif, if_neg hd]
  · by_cases hd : d = c
    · rw [hif, if_pos hd, hd, hIsMain]
    · rw [hif, if_neg hd]
  · by_cases hd : d = c
    · rw [hif, if_pos hd, hd, hStart]
    · rw [hif, if_neg hd]

theorem sameCalls_saveStackBuffer (s : StackSys) (c : CoId) :
    SameCalls s (s.saveStackBuffer c) :=
  sameCalls_setCo rfl rfl rfl

theorem sameCalls_coSwap (s : StackSys) (curr c : CoId) (sp : Nat) :
    SameCalls s (s.coSwap curr c sp) := by
  have hsus : SameCalls s (s.setCo curr { s.co curr with stackSp := sp }) :=
    sameCalls_setCo rfl rfl rfl
  unfold coSwap
  generalize s.setCo curr { s.co curr with stackSp := sp } = t at *
  refine hsus.trans ?_
  simp only
  split
  · exact ⟨rfl, rfl, fun _ => rfl, fun _ => rfl, fun _ => rfl⟩
  · split
    · split
      · refine SameCalls.trans ?_ (sameCalls_saveStackBuffer _ _)
        exact ⟨rfl, rfl, fun _ => rfl, fun _ => rfl, fun _ => rfl⟩
      · exact ⟨rfl, rfl, fun _ => rfl, fun _ => rfl, fun _ => rfl⟩
    · exact ⟨rfl, rfl, fun _ => rfl, fun _ => rfl, fun _ => rfl⟩

theorem sameCalls_afterSwap (s : StackSys) : SameCalls s s.afterSwap := by
  have hrefl : SameCalls s s := ⟨rfl, rfl, fun _ => rfl, fun _ => rfl, fun _ => rfl⟩
  unfold afterSwap
  split
  · split
    · split
      · split
        · exact ⟨rfl, rfl, fun _ => rfl, fun _ => rfl, fun _ => rfl⟩
        · exact hrefl
      · exact hrefl
    · exact hrefl
  · exact hrefl

structure Agree (p : PrivSys) (s : StackSys) : Prop where
  inv : s.Inv s.pCallStack.head?
  shows : s.Shows s.pCallStack.head? p
  calls : p.pCallStack = s.pCallStack
  live : p.live = s.live
  ended : ∀ c, s.live c = true → p.ended c = (s.co c).cEnd
  nodup : s.pCallStack.Nodup
  begun : ∀ c ∈ s.pCallStack,
    s.live c = true ∧ ((s.co c).cIsMain = true ∨ (s.co c).cStart = true)
  main : ∀ c, s.live c = true → (s.co c).cIsMain = true → s.pCallStack.getLast? = some c

theorem Agree.of_sameCalls {t u : StackSys} (hcalls : SameCalls t u)
    (hinv : u.Inv t.pCallStack.head?) (hshows : u.Shows t.pCallStack.head? p)
    (hp : p.pCallStack = t.pCallStack) (hlive : p.live = t.live)
    (hended : ∀ c, t.live c = true → p.ended c = (t.co c).cEnd) (hnodup : t.pCallStack.Nodup)
    (hbegun : ∀ c ∈ t.pCallStack,
      t.live c = true ∧ ((t.co c).cIsMain = true ∨ (t.co c).cStart = true))
    (hmain : ∀ c, t.live c = true → (t.co c).cIsMain = true → t.pCallStack.getLast? = some c) :
    Agree p u := by
  constructor
  · rwa [hcalls.pCallStack]
  · rwa [hcalls.pCallStack]
  · rw [hp, hcalls.pCallStack]
  · rw [hlive, hcalls.live]
  · intro c hc
    rw [hcalls.live] at hc
    rw [hcalls.cEnd, hended c hc]
  · rwa [hcalls.pCallStack]
  · intro c hc
    rw [hcalls.pCallStack] at hc
    rw [hcalls.live, hcalls.cIsMain, hcalls.cStart]
    exact hbegun c hc
  · intro c hc
    rw [hcalls.live] at hc
    rw [hcalls.cIsMain, hcalls.pCallStack]
    exact hmain c hc

theorem Agree.init (main : CoId) (size : StackBuf → Nat) (mem : StackBuf → Nat → UInt8) :
    Agree (PrivSys.init main) (StackSys.init main size mem) := by
  have hmain : ∀ c, (StackSys.init main size mem).live c = true → c = main := fun c hc => by
    simpa [StackSys.init] using hc
  refine ⟨?_, ?_, rfl, rfl, fun _ _ => rfl, by simp [StackSys.init], ?_, ?_⟩
  · constructor
    · exact fun _ _ => rfl
    · exact fun _ _ _ => nofun
    · exact fun _ _ _ _ => nofun
    · intro c d hc hd _ _
      rw [hmain c hc, hmain d hd]
    · exact fun _ _ => nofun
    · exact fun _ _ _ => Nat.zero_le _
    · exact fun _ _ _ => nofun
    · rintro c ⟨⟩
      simp [StackSys.init]
  · exact ⟨fun _ _ _ _ => nofun, fun _ _ _ _ _ => nofun⟩
  · intro c hc
    simp [StackSys.init] at hc ⊢
    exact hc
  · intro c hc _
    rw [hmain c hc]
    rfl

theorem Agree.mono {q : PrivSys} (h : Agree p s)
    (hle : ∀ c addr b, q.stack c addr = some b → p.stack c addr = some b)
    (hcalls : q.pCallStack = p.pCallStack) (hlive : q.live = p.live) (hended : q.ended = p.ended) :
    Agree q s :=
  { h with
    shows := h.shows.mono hle
    calls := hcalls.trans h.calls
    live := hlive.trans h.live
    ended := fun c hc => by rw [hended, h.ended c hc] }

theorem Agree.top (h : Agree p s) (hcalls : s.pCallStack = curr :: rest) :
    s.Inv (some curr) ∧ s.Shows (some curr) p ∧
      ((s.co curr).cIsMain = true ∨ (s.co curr).cStart = true) := by
  have hinv := h.inv
  have hshows := h.shows
  rw [hcalls] at hinv hshows
  exact ⟨hinv, hshows, (h.begun curr (hcalls ▸ List.mem_cons_self)).2⟩

theorem Agree.resume {t : StackSys} {co : CoId} (h : Agree p s)
    (hcalls : s.pCallStack = curr :: rest) (hlive : s.live co = true) (hco : co ∉ s.pCallStack)
    (hsp : sp ≤ s.size (s.co curr).stackMem) (hstep : s.coResume co sp = some t) :
    Agree { p.forget curr sp with pCallStack := co :: curr :: rest } t := by
  obtain ⟨hinv, hshows, hrun⟩ := h.top hcalls
  have hne : curr ≠ co := by
    rintro rfl
    exact hco (hcalls ▸ List.mem_cons_self)
  have hnodup : (co :: curr :: rest).Nodup :=
    List.nodup_cons.mpr ⟨hcalls ▸ hco, hcalls ▸ h.nodup⟩
  have hmain : ∀ c, s.live c = true → (s.co c).cIsMain = true →
      (co :: curr :: rest).getLast? = some c := by
    intro c hc hcmain
    have hlast := h.main c hc hcmain
    rw [hcalls] at hlast
    rw [List.getLast?_cons_cons, hlast]
  simp only [coResume, hcalls] at hstep
  by_cases hstart : (s.co co).cStart = true
  · rw [if_pos hstart] at hstep
    cases hstep
    obtain ⟨hinv', hshows'⟩ := coSwap_resume
      (s := { s with pCallStack := co :: curr :: rest }) { hinv with } { hshows with } hrun hsp hlive
    refine Agree.of_sameCalls ((sameCalls_coSwap _ curr co sp).trans (sameCalls_afterSwap _)) hinv'
      (hshows'.mono fun _ _ _ hk => hk) rfl h.live h.ended hnodup ?_ hmain
    intro c hc
    rcases List.mem_cons.mp hc with rfl | hc
    · exact ⟨hlive, .inr hstart⟩
    · exact h.begun c (hcalls ▸ hc)
  · rw [if_neg hstart] at hstep
    cases hstep
    have hsame : SameStack (s.co co) { s.co co with cStart := true } := ⟨rfl, rfl, rfl, rfl⟩
    have hnew : ∀ addr, p.stack co addr = none := by
      intro addr
      rw [Option.eq_none_iff_forall_ne_some]
      intro b hknown
      obtain ⟨hbegun | hbegun, -⟩ := hshows.waiting co addr b hlive
        (fun heq => hne (Option.some.inj heq)) hknown
      · exact hco (List.mem_of_getLast? (h.main co hlive hbegun))
      · exact hstart hbegun
    have hco' : ∀ d, d ≠ co → (s.setCo co { s.co co with cStart := true }).co d = s.co d :=
      fun d hd => by rw [setCo_co, if_neg hd]
    obtain ⟨hinv', hshows'⟩ := coSwap_start sp (c := co)
      (s := { s.setCo co { s.co co with cStart := true } with pCallStack := co :: curr :: rest })
      { hinv.setCo hsame with } { hshows.setCo hsame rfl fun _ => rfl with }
      (by simp only [hco' curr hne]; exact hrun) (by simp only [hco' curr hne]; exact hsp)
      hlive hnew
    refine Agree.of_sameCalls (sameCalls_coSwap _ curr co sp) hinv'
      (hshows'.mono fun _ _ _ hk => hk) rfl h.live ?_ hnodup ?_ ?_
    · intro c hc
      rw [setCo_co]
      split
      · rename_i heq
        rw [heq]
        exact h.ended co hlive
      · exact h.ended c hc
    · intro c hc
      rcases List.mem_cons.mp hc with rfl | hc
      · exact ⟨hlive, .inr (by simp)⟩
      · have hcne : c ≠ co := fun heq => hco (hcalls ▸ heq ▸ hc)
        simp only [hco' c hcne]
        exact h.begun c (hcalls ▸ hc)
    · intro c hc hcmain
      rw [setCo_co] at hcmain
      split at hcmain
      · rename_i heq
        exact hmain c hc (heq ▸ hcmain)
      · exact hmain c hc hcmain

theorem Agree.yield {t : StackSys} {last : CoId} (h : Agree p s)
    (hcalls : s.pCallStack = curr :: last :: rest)
    (hsp : sp ≤ s.size (s.co curr).stackMem) (hstep : s.coYieldEnv sp = some t) :
    Agree { p.forget curr sp with pCallStack := last :: rest } t := by
  obtain ⟨hinv, hshows, hrun⟩ := h.top hcalls
  have hlast := h.begun last (by simp [hcalls])
  have hnodup := h.nodup
  have hmain := h.main
  rw [hcalls] at hnodup hmain
  simp only [coYieldEnv, hcalls] at hstep
  cases hstep
  obtain ⟨hinv', hshows'⟩ := coSwap_resume
    (s := { s with pCallStack := last :: rest }) { hinv with } { hshows with } hrun hsp hlast.1
  refine Agree.of_sameCalls ((sameCalls_coSwap _ curr last sp).trans (sameCalls_afterSwap _)) hinv'
    (hshows'.mono fun _ _ _ hk => hk) rfl h.live h.ended hnodup.of_cons ?_ ?_
  · intro c hc
    exact h.begun c (hcalls ▸ List.mem_cons_of_mem curr hc)
  · intro c hc hcmain
    have hlast := hmain c hc hcmain
    rwa [List.getLast?_cons_cons] at hlast

theorem Agree.finish {t : StackSys} {last : CoId} (h : Agree p s)
    (hcalls : s.pCallStack = curr :: last :: rest) (hsp : sp ≤ s.size (s.co curr).stackMem)
    (hstep : (s.setCo curr { s.co curr with cEnd := true }).coYieldEnv sp = some t) :
    Agree { p.clear curr with
      ended := Function.update p.ended curr true, pCallStack := last :: rest } t := by
  obtain ⟨hinv, hshows, hrun⟩ := h.top hcalls
  have hsame : SameStack (s.co curr) { s.co curr with cEnd := true } := ⟨rfl, rfl, rfl, rfl⟩
  have hsize : ((s.setCo curr { s.co curr with cEnd := true }).co curr).stackMem =
      (s.co curr).stackMem := (hsame.setCo curr).stackMem
  have hend : Agree { p.clear curr with ended := Function.update p.ended curr true }
      (s.setCo curr { s.co curr with cEnd := true }) := by
    have hflags : ∀ d, ((s.setCo curr { s.co curr with cEnd := true }).co d).cIsMain =
        (s.co d).cIsMain ∧ ((s.setCo curr { s.co curr with cEnd := true }).co d).cStart =
        (s.co d).cStart := fun d => by
      rw [setCo_co]
      split
      · rename_i hd
        rw [hd]
        exact ⟨rfl, rfl⟩
      · exact ⟨rfl, rfl⟩
    refine ⟨h.inv.setCo hsame, (h.shows.setCo hsame rfl id).mono fun c addr b hk => ?_,
      h.calls, h.live, fun c hc => ?_, h.nodup, fun c hc => ?_, fun c hc => ?_⟩
    · by_cases hcc : c = curr
      · subst hcc
        simp [PrivSys.clear] at hk
      · simpa only [PrivSys.clear, Function.update_of_ne hcc] using hk
    · simp only [setCo_co, Function.update_apply]
      split
      · rfl
      · exact h.ended c hc
    · rw [(hflags c).1, (hflags c).2]
      exact h.begun c hc
    · rw [(hflags c).1]
      exact h.main c hc
  refine (hend.yield hcalls (by rw [hsize]; exact hsp) hstep).mono (fun c addr b hk => ?_) rfl rfl rfl
  by_cases hc : c = curr
  · subst hc
    simp [PrivSys.clear] at hk
  · simp only [PrivSys.forget, Function.update_of_ne hc]
    exact hk

theorem Agree.grow (h : Agree p s) (size : StackBuf → Nat) (made shareMade : Nat)
    (shareStack : Nat → ShareStack)
    (hsize : ∀ c, s.live c = true → size (s.co c).stackMem = s.size (s.co c).stackMem)
    (hmade : s.made ≤ made) (hshareMade : s.shareMade ≤ shareMade) :
    Agree p { s with
      size := size, made := made, shareStack := shareStack, shareMade := shareMade } :=
  { h with
    inv := h.inv.grow size made shareMade shareStack hsize hmade hshareMade
    shows := h.shows.grow h.inv size made shareMade shareStack hsize }

theorem Agree.coAllocSharestack (h : Agree p s) (count stackSize : Nat) :
    Agree p (s.coAllocSharestack count stackSize) := by
  refine h.grow _ s.made (s.shareMade + 1) _ (fun c hc => ?_) le_rfl (Nat.le_succ _)
  cases hk : (s.co c).stackMem with
  | thread => rfl
  | own k => rfl
  | share j i => simp only [if_neg (Nat.ne_of_lt (h.inv.shareMade c j i hc hk))]

theorem Agree.insert (h : Agree p s) {co : StackCo} (hdead : s.live c = false)
    (hshare : co.cIsShareStack = co.stackMem.isShare) (hmade : ∀ k, co.stackMem = .own k → k < s.made)
    (hshareMade : ∀ j i, co.stackMem = .share j i → j < s.shareMade)
    (hown : co.cIsShareStack = false → ∀ d, s.live d = true → (s.co d).stackMem ≠ co.stackMem)
    (hsp : co.stackSp = 0) (hbuf : co.saveBuffer = none) (hend : co.cEnd = false)
    (hmain : co.cIsMain = false) :
    Agree { p.clear c with live := Function.update p.live c true
                           ended := Function.update p.ended c false }
      { s.setCo c co with live := Function.update s.live c true } := by
  refine ⟨h.inv.insert hdead hshare hmade hshareMade hown hsp hbuf,
    (h.shows.insert hdead).mono fun _ _ _ hk => hk, h.calls, by rw [h.live], ?_, h.nodup, ?_, ?_⟩
  · intro d hd
    simp only [setCo_co, Function.update_apply] at hd ⊢
    split
    · exact hend.symm
    · rename_i hdc
      rw [if_neg hdc] at hd
      exact h.ended d hd
  · intro d hd
    obtain ⟨hlive, hbegun⟩ := h.begun d hd
    have hdc : d ≠ c := by
      rintro rfl
      rw [hdead] at hlive
      cases hlive
    simp only [setCo_co, if_neg hdc, Function.update_of_ne hdc]
    exact ⟨hlive, hbegun⟩
  · intro d hd hdmain
    simp only [setCo_co, Function.update_apply] at hd hdmain
    split at hdmain
    · rw [hmain] at hdmain
      cases hdmain
    · rename_i hdc
      rw [if_neg hdc] at hd
      exact h.main d hd hdmain

theorem Agree.create (h : Agree p s) (hdead : s.live c = false) (stackSize : Int)
    {shareStack : Option Nat} (hshare : ∀ j ∈ shareStack, j < s.shareMade) :
    Agree { p.clear c with live := Function.update p.live c true
                           ended := Function.update p.ended c false }
      (s.coCreateEnv c stackSize shareStack) := by
  cases shareStack with
  | some j =>
    refine Agree.insert (h.grow s.size s.made s.shareMade (Function.update s.shareStack j
      { s.shareStack j with allocIdx := (s.shareStack j).allocIdx + 1 }) (fun _ _ => rfl) le_rfl
      le_rfl) hdead rfl (fun k => nofun) ?_ nofun rfl rfl rfl rfl
    intro j' i hk
    cases hk
    exact hshare j rfl
  | none =>
    have hnew : ∀ d, s.live d = true → (s.co d).stackMem ≠ .own s.made := fun d hd hk =>
      Nat.lt_irrefl _ (h.inv.made d _ hd hk)
    refine Agree.insert (h.grow (Function.update s.size (.own s.made) (attrStackSize stackSize))
      (s.made + 1) s.shareMade s.shareStack (fun d hd => ?_) (Nat.le_succ _) le_rfl) hdead rfl ?_
      (fun j i => nofun) (fun _ => hnew) rfl rfl rfl rfl
    · rw [Function.update_of_ne (hnew d hd)]
    · intro k hk
      cases hk
      exact Nat.lt_succ_self _

theorem Agree.coRelease (h : Agree p s) (hc : c ∉ s.pCallStack) :
    Agree { p with live := Function.update p.live c false } (s.coRelease c) := by
  obtain ⟨-, -, -, -, -, hcalls, hco⟩ := coRelease_frame s c
  have hrun : s.pCallStack.head? ≠ some c := fun heq => hc (List.mem_of_mem_head? heq)
  refine ⟨?_, ?_, h.calls.trans hcalls.symm, ?_, ?_, hcalls ▸ h.nodup, ?_, ?_⟩
  · rw [hcalls]
    exact h.inv.coRelease hrun
  · rw [hcalls]
    exact (h.shows.coRelease h.inv hrun).mono fun _ _ _ hk => hk
  · rw [(coRelease_frame s c).1, h.live]
  · intro d hd
    obtain ⟨-, hlive, heq⟩ := coRelease_of_live hd
    rw [heq]
    exact h.ended d hlive
  · intro d hd
    rw [hcalls] at hd
    have hdc : d ≠ c := fun heq => hc (heq ▸ hd)
    rw [(coRelease_frame s c).1, Function.update_of_ne hdc, hco d hdc]
    exact h.begun d hd
  · intro d hd hdmain
    obtain ⟨-, hlive, heq⟩ := coRelease_of_live hd
    rw [heq] at hdmain
    rw [hcalls]
    exact h.main d hlive hdmain

theorem Agree.step {t : StackSys} {act : StackAct} (h : Agree p s)
    (hstep : stackStep s act = some t) :
    ∃ q, privStep p act = some q ∧ Agree q t := by
  unfold stackStep at hstep
  unfold privStep
  split at hstep
  · cases hstep
  rename_i curr rest hcalls
  obtain ⟨hinv, hshows, hrun⟩ := h.top hcalls
  have hp := h.calls.trans hcalls
  have hhead : s.pCallStack.head? = some curr := by rw [hcalls, List.head?_cons]
  split
  · rename_i hnil
    rw [hp] at hnil
    cases hnil
  · rename_i curr' rest' hcons
    rw [hp] at hcons
    cases hcons
    cases act with
    | allocSharestack count stackSize =>
      cases hstep
      exact ⟨p, rfl, h.coAllocSharestack count stackSize⟩
    | create lp stackSize shareStack =>
      simp only at hstep ⊢
      split at hstep
      · rename_i hand
        cases hstep
        rw [if_pos (by rw [h.live, hand.1])]
        exact ⟨_, rfl, h.create hand.1 stackSize fun j hj => (hand.2 j hj).1⟩
      · cases hstep
    | resume co sp =>
      simp only at hstep ⊢
      split at hstep
      · rename_i hand
        obtain ⟨hlive, hended, hco, hsp⟩ := hand
        rw [if_pos ⟨by rw [h.live, hlive], by rw [h.ended co hlive, hended], h.calls ▸ hco⟩]
        exact ⟨_, rfl, h.resume hcalls hlive hco hsp hstep⟩
      · cases hstep
    | yield sp =>
      simp only at hstep ⊢
      split at hstep
      · rename_i hsp
        cases rest with
        | nil => simp [coYieldEnv, hcalls] at hstep
        | cons last rest => exact ⟨_, rfl, h.yield hcalls hsp hstep⟩
      · cases hstep
    | finish sp =>
      simp only at hstep ⊢
      split at hstep
      · rename_i hsp
        cases rest with
        | nil => simp [coYieldEnv, setCo, hcalls] at hstep
        | cons last rest => exact ⟨_, rfl, h.finish hcalls hsp hstep⟩
      · cases hstep
    | release co =>
      simp only at hstep ⊢
      split at hstep
      · rename_i hand
        cases hstep
        rw [if_pos ⟨by rw [h.live, hand.1], h.calls ▸ hand.2⟩]
        exact ⟨_, rfl, h.coRelease hand.2⟩
      · cases hstep
    | write addr b =>
      simp only at hstep ⊢
      split at hstep
      · rename_i haddr
        cases hstep
        refine ⟨_, rfl, ⟨{ h.inv with }, ?_, h.calls, h.live, h.ended, h.nodup, h.begun, h.main⟩⟩
        have hwrite := Shows.write (b := b) hinv hshows haddr
        rw [← hhead] at hwrite
        exact hwrite
      · cases hstep
    | read addr b =>
      simp only at hstep ⊢
      split at hstep
      · rename_i hand
        cases hstep
        have hor : p.stack curr addr = none ∨ p.stack curr addr = some b := by
          cases hknown : p.stack curr addr with
          | none => exact .inl rfl
          | some v =>
            have hv := (hshows.running curr addr v rfl hknown).2
            exact .inr (congrArg some (hv.symm.trans hand.2))
        rw [if_pos hor]
        refine ⟨_, rfl, ⟨h.inv, ?_, h.calls, h.live, h.ended, h.nodup, h.begun, h.main⟩⟩
        have hread := hshows.read hand.1 hand.2
        rw [← hhead] at hread
        exact hread
      · cases hstep

/-- Who has begun to run and has lost its share stack has its frames in the buffer; `new` is the one
that `co_resume` starts. -/
def Kept (s : StackSys) (new : Option CoId) : Prop :=
  ∀ d, s.live d = true → (s.co d).cIsShareStack = true → (s.co d).cStart = true → new ≠ some d →
    s.occupy (s.co d).stackMem ≠ some d → (s.co d).saveBuffer ≠ none

theorem Kept.setCo {new : Option CoId} {co : StackCo} (h : s.Kept new) (hco : SameStack (s.co c) co)
    (hstart : co.cStart = (s.co c).cStart) : (s.setCo c co).Kept new := by
  intro d
  have hd : ((s.setCo c co).co d).cStart = (s.co d).cStart := by
    rw [setCo_co]
    split
    · rename_i hd
      rw [hd, hstart]
    · rfl
  rw [(hco.setCo d).stackMem, (hco.setCo d).cIsShareStack, (hco.setCo d).saveBuffer, hd]
  exact h d

theorem Kept.start (h : s.Kept none) (c : CoId) :
    (s.setCo c { s.co c with cStart := true }).Kept (some c) := by
  intro d hlive hshare hstart hnew hocc
  have hdc : d ≠ c := fun heq => hnew (congrArg some heq.symm)
  simp only [setCo_co, if_neg hdc] at hshare hstart hocc ⊢
  exact h d hlive hshare hstart nofun hocc

theorem Kept.suspend {new : Option CoId} (h : s.Kept new) (curr : CoId) (sp : Nat) :
    (s.suspend curr sp).Kept new := by
  intro d
  have hd : ((s.suspend curr sp).co d).cStart = (s.co d).cStart := by
    by_cases hdc : d = curr
    · simp [StackSys.suspend, hdc]
    · rw [suspend_of_ne s sp hdc]
  rw [suspend_stackMem, suspend_cIsShareStack, suspend_saveBuffer, hd]
  exact h d

/-- `co_swap` saves the one that loses the stack. -/
theorem Kept.coSwap (h : s.Kept (some c)) (curr : CoId) (sp : Nat) :
    (s.coSwap curr c sp).Kept none := by
  have ht := h.suspend curr sp
  have hdef : s.setCo curr { s.co curr with stackSp := sp } = s.suspend curr sp := rfl
  unfold StackSys.coSwap
  rw [hdef]
  generalize s.suspend curr sp = t at *
  by_cases hshare : (t.co c).cIsShareStack = false
  · rw [if_pos hshare]
    intro d hlive hd hstart _ hocc
    refine ht d hlive hd hstart ?_ hocc
    rintro ⟨⟩
    simp [hshare] at hd
  · rw [if_neg hshare]
    have hlost : ∀ d, t.live d = true → (t.co d).cIsShareStack = true → (t.co d).cStart = true →
        Function.update t.occupy (t.co c).stackMem (some c) (t.co d).stackMem ≠ some d →
        t.occupy (t.co c).stackMem = some d ∨ (t.co d).saveBuffer ≠ none := by
      intro d hlive hd hstart hocc
      by_cases hk : (t.co d).stackMem = (t.co c).stackMem
      · rw [hk, Function.update_self] at hocc
        by_cases hold : t.occupy (t.co c).stackMem = some d
        · exact .inl hold
        · exact .inr (ht d hlive hd hstart hocc (hk ▸ hold))
      · rw [Function.update_of_ne hk] at hocc
        refine .inr (ht d hlive hd hstart ?_ hocc)
        rintro ⟨⟩
        exact hk rfl
    cases hold : t.occupy (t.co c).stackMem with
    | none =>
      intro d hlive hd hstart _ hocc
      exact (hlost d hlive hd hstart hocc).resolve_left (by simp [hold])
    | some o =>
      by_cases ho : o = c
      · intro d hlive hd hstart _ hocc
        simp only [ho, ne_eq, not_true_eq_false, if_false] at hlive hd hstart hocc ⊢
        refine (hlost d hlive hd hstart hocc).resolve_left ?_
        rw [hold, ho]
        rintro ⟨⟩
        simp at hocc
      · intro d hlive hd hstart _ hocc
        simp only [ne_eq, ho, not_false_eq_true, if_true, saveStackBuffer, setCo_co] at *
        by_cases hdo : d = o
        · simp [hdo]
        · simp only [if_neg hdo] at hd hstart hocc ⊢
          exact (hlost d hlive hd hstart hocc).resolve_left
            (by simpa [hold] using fun heq => hdo heq.symm)

theorem Kept.afterSwap (h : s.Kept none) : s.afterSwap.Kept none := by
  unfold StackSys.afterSwap
  split
  · split
    · split
      · split
        · exact h
        · exact h
      · exact h
    · exact h
  · exact h

theorem Kept.yield {t : StackSys} (h : s.Kept none) (hstep : s.coYieldEnv sp = some t) :
    t.Kept none := by
  unfold coYieldEnv at hstep
  split at hstep
  · rename_i curr last rest _
    cases hstep
    have hlast : ({ s with pCallStack := last :: rest } : StackSys).Kept (some last) :=
      fun d hlive hd hstart _ => h d hlive hd hstart nofun
    exact (hlast.coSwap curr sp).afterSwap
  · cases hstep

theorem Kept.resume {t : StackSys} {co : CoId} (h : s.Kept none)
    (hstep : s.coResume co sp = some t) : t.Kept none := by
  unfold coResume at hstep
  split at hstep
  · rename_i curr rest _
    split at hstep
    · cases hstep
      have hco : ({ s with pCallStack := co :: curr :: rest } : StackSys).Kept (some co) :=
        fun d hlive hd hstart _ => h d hlive hd hstart nofun
      exact (hco.coSwap curr sp).afterSwap
    · cases hstep
      have hco : ({ s.setCo co { s.co co with cStart := true } with
          pCallStack := co :: curr :: rest } : StackSys).Kept (some co) := h.start co
      exact hco.coSwap curr sp
  · cases hstep

theorem Kept.create (h : s.Kept none) (stackSize : Int) (shareStack : Option Nat) :
    (s.coCreateEnv c stackSize shareStack).Kept none := by
  intro d hlive hd hstart _ hocc
  by_cases hdc : d = c
  · cases shareStack with
    | none => simp [coCreateEnv, hdc] at hstart
    | some j => simp [coCreateEnv, hdc] at hstart
  · cases shareStack with
    | none =>
      simp only [coCreateEnv, coAllocStackmem, setCo_co, if_neg hdc,
        Function.update_of_ne hdc] at *
      exact h d hlive hd hstart nofun hocc
    | some j =>
      simp only [coCreateEnv, coGetStackmem, setCo_co, if_neg hdc, Function.update_of_ne hdc] at *
      exact h d hlive hd hstart nofun hocc

theorem Kept.step {t : StackSys} {act : StackAct} (hinv : s.Inv run) (h : s.Kept none)
    (hstep : stackStep s act = some t) : t.Kept none := by
  unfold stackStep at hstep
  split at hstep
  · cases hstep
  rename_i curr rest _
  cases act with
  | allocSharestack count stackSize =>
    cases hstep
    exact h
  | create lp stackSize shareStack =>
    simp only [Option.ite_none_right_eq_some, Option.some.injEq] at hstep
    exact hstep.2 ▸ h.create stackSize shareStack
  | resume co sp =>
    simp only [Option.ite_none_right_eq_some] at hstep
    exact h.resume hstep.2
  | yield sp =>
    simp only [Option.ite_none_right_eq_some] at hstep
    exact h.yield hstep.2
  | finish sp =>
    simp only [Option.ite_none_right_eq_some] at hstep
    have hsame : SameStack (s.co curr) { s.co curr with cEnd := true } := ⟨rfl, rfl, rfl, rfl⟩
    exact (h.setCo hsame rfl).yield hstep.2
  | release co =>
    simp only [Option.ite_none_right_eq_some, Option.some.injEq] at hstep
    rw [← hstep.2]
    intro d hlive hshare hstart hnew hocc
    obtain ⟨hdc, hlive, heq⟩ := coRelease_of_live hlive
    rw [heq] at hshare hstart hocc ⊢
    exact h d hlive hshare hstart hnew fun hold => hocc ((coRelease_occupy hinv).mpr ⟨hold, hdc⟩)
  | write addr b =>
    simp only [Option.ite_none_right_eq_some, Option.some.injEq] at hstep
    exact hstep.2 ▸ h
  | read addr b =>
    simp only [Option.ite_none_right_eq_some, Option.some.injEq] at hstep
    exact hstep.2 ▸ h

theorem privStep_length {q : PrivSys} {act : StackAct} (h : p.pCallStack.length ≤ MAX_CALLSTACK)
    (hroom : ∀ co sp, act = .resume co sp → p.pCallStack.length < MAX_CALLSTACK)
    (hstep : privStep p act = some q) : q.pCallStack.length ≤ MAX_CALLSTACK := by
  unfold privStep at hstep
  split at hstep
  · cases hstep
  rename_i curr rest hcalls
  rw [hcalls, List.length_cons] at h hroom
  have hrest : rest.length ≤ MAX_CALLSTACK := Nat.le_of_succ_le h
  cases act with
  | resume co sp =>
    simp only [Option.ite_none_right_eq_some, Option.some.injEq] at hstep
    rw [← hstep.2]
    exact hroom co sp rfl
  | yield sp =>
    simp only [Option.ite_none_left_eq_some, Option.some.injEq] at hstep
    rw [← hstep.2]
    exact hrest
  | finish sp =>
    simp only [Option.ite_none_left_eq_some, Option.some.injEq] at hstep
    rw [← hstep.2]
    exact hrest
  | allocSharestack count stackSize =>
    cases hstep
    rw [hcalls]
    exact h
  | create lp stackSize shareStack =>
    simp only [Option.ite_none_right_eq_some, Option.some.injEq] at hstep
    rw [← hstep.2]
    exact hcalls ▸ h
  | release co =>
    simp only [Option.ite_none_right_eq_some, Option.some.injEq] at hstep
    rw [← hstep.2]
    exact hcalls ▸ h
  | write addr b =>
    cases hstep
    exact hcalls ▸ h
  | read addr b =>
    simp only [Option.ite_none_right_eq_some, Option.some.injEq] at hstep
    rw [← hstep.2]
    exact hcalls ▸ h

theorem agree_of_run (main : CoId) (size : StackBuf → Nat) (mem : StackBuf → Nat → UInt8)
    {acts : List StackAct} (h : Run.run stackStep (StackSys.init main size mem) acts = some s) :
    ∃ p, Run.run privStep (PrivSys.init main) acts = some p ∧ Agree p s := by
  have hstep : ∀ p s a t, Agree p s → stackStep s a = some t →
      ∃ q, privStep p a = some q ∧ Agree q t := fun _ _ _ _ hr hs => hr.step hs
  exact run_simulates hstep (Agree.init main size mem) h

theorem kept_of_run (main : CoId) (size : StackBuf → Nat) (mem : StackBuf → Nat → UInt8)
    {acts : List StackAct} (hroom : Meets stackStep HasRoom (StackSys.init main size mem) acts)
    (h : Run.run stackStep (StackSys.init main size mem) acts = some s) :
    s.Kept none ∧ s.pCallStack.length ≤ MAX_CALLSTACK := by
  have hstep : ∀ s a t, ((∃ p, Agree p s) ∧ s.Kept none ∧ s.pCallStack.length ≤ MAX_CALLSTACK) →
      s.HasRoom a → stackStep s a = some t →
      (∃ p, Agree p t) ∧ t.Kept none ∧ t.pCallStack.length ≤ MAX_CALLSTACK := by
    rintro s a t ⟨⟨p, hp⟩, hk, hlen⟩ ha hs
    obtain ⟨q, hq, hagree⟩ := hp.step hs
    refine ⟨⟨q, hagree⟩, hk.step hp.inv hs, ?_⟩
    rw [← hp.calls] at hlen
    rw [← hagree.calls]
    refine privStep_length hlen ?_ hq
    rintro co sp rfl
    rw [hp.calls]
    exact ha
  exact (run_invariant_of_meets hstep
    ⟨⟨_, Agree.init main size mem⟩, fun _ _ _ => nofun, by simp [StackSys.init, MAX_CALLSTACK]⟩
    hroom h).2

end StackSys

/-- Every run is a run of coroutines with stacks to themselves, and what the running one has on its
stack is what it finds there. -/
theorem stacks_private (main : CoId) (size : StackBuf → Nat) (mem : StackBuf → Nat → UInt8)
    {acts : List StackAct} {s : StackSys}
    (hroom : Meets stackStep StackSys.HasRoom (StackSys.init main size mem) acts)
    (h : run stackStep (StackSys.init main size mem) acts = some s) :
    ∃ p, run privStep (PrivSys.init main) acts = some p ∧ p.pCallStack = s.pCallStack ∧
      s.pCallStack.length ≤ MAX_CALLSTACK ∧
      ∀ c rest addr b, s.pCallStack = c :: rest → p.stack c addr = some b →
        s.mem (s.co c).stackMem addr = b := by
  obtain ⟨p, hp, hagree⟩ := StackSys.agree_of_run main size mem h
  refine ⟨p, hp, hagree.calls, (StackSys.kept_of_run main size mem hroom h).2,
    fun c rest addr b hcalls hknown => ?_⟩
  exact ((hagree.top hcalls).2.1.running c addr b rfl hknown).2

/-- Two coroutines by turns on one stack. -/
def turns : List StackAct :=
  [.allocSharestack 1 4, .create 1 0 (some 0), .create 2 0 (some 0), .resume 1 3, .write 2 7,
    .yield 1, .resume 2 3, .write 2 9, .yield 1, .resume 1 3]

/-- Each one finds its byte there again. -/
theorem stacks_private_turns :
    ∃ s p, run stackStep (StackSys.init 0 (fun _ => 4) fun _ _ => 0) turns = some s ∧
      run privStep (PrivSys.init 0) turns = some p ∧ s.pCallStack.length ≤ MAX_CALLSTACK ∧
      ∀ c rest addr b, s.pCallStack = c :: rest → p.stack c addr = some b →
        s.mem (s.co c).stackMem addr = b := by
  have hrun : (run stackStep (StackSys.init 0 (fun _ => 4) fun _ _ => 0) turns).isSome := by decide
  obtain ⟨s, hs⟩ := Option.isSome_iff_exists.mp hrun
  obtain ⟨p, hp, -, hlen, hmem⟩ := stacks_private 0 (fun _ => 4) (fun _ _ => 0) (by decide) hs
  exact ⟨s, p, hs, hp, hlen, hmem⟩

/-- What `co_swap` copies: it saves a coroutine that is not released, from its own stack, and puts
back as much as there was. Who has run and has lost its stack has been saved. -/
theorem swaps_inside (main : CoId) (size : StackBuf → Nat) (mem : StackBuf → Nat → UInt8)
    {acts : List StackAct} {s : StackSys}
    (hroom : Meets stackStep StackSys.HasRoom (StackSys.init main size mem) acts)
    (h : run stackStep (StackSys.init main size mem) acts = some s) :
    (∀ k c, s.occupy k = some c → s.live c = true ∧ (s.co c).stackMem = k) ∧
      (∀ c, s.live c = true → s.pCallStack.head? ≠ some c →
        (s.co c).stackSp ≤ s.size (s.co c).stackMem) ∧
      (∀ c, s.live c = true → (s.co c).cIsShareStack = true →
        s.occupy (s.co c).stackMem ≠ some c → (s.co c).cStart = true →
          ∃ buf, (s.co c).saveBuffer = some buf) ∧
      (∀ c buf, s.live c = true → (s.co c).cIsShareStack = true →
        s.occupy (s.co c).stackMem ≠ some c → (s.co c).saveBuffer = some buf →
          (s.co c).stackSp + buf.length = s.size (s.co c).stackMem) ∧
      s.pCallStack.length ≤ MAX_CALLSTACK := by
  obtain ⟨p, -, hagree⟩ := StackSys.agree_of_run main size mem h
  obtain ⟨hkept, hlen⟩ := StackSys.kept_of_run main size mem hroom h
  have hinv := hagree.inv
  refine ⟨fun k c hocc => ⟨(hinv.occupant k c hocc).1, (hinv.occupant k c hocc).2.1⟩, hinv.sp,
    fun c hlive hshare hocc hstart => ?_, ?_, hlen⟩
  · exact Option.ne_none_iff_exists'.mp (hkept c hlive hshare hstart nofun hocc)
  · intro c buf hlive hshare hocc hbuf
    have hlen := hinv.saved c buf hlive hshare hocc hbuf
    have hsp := hinv.sp c hlive fun hrun => hocc ((hinv.running c hrun).2 hshare)
    omega

/-- The second one has lost the stack, and its three bytes are in the buffer. -/
theorem swaps_inside_turns :
    ∃ s, run stackStep (StackSys.init 0 (fun _ => 4) fun _ _ => 0) turns = some s ∧
      (∀ k c, s.occupy k = some c → s.live c = true ∧ (s.co c).stackMem = k) ∧
      ∃ buf, (s.co 2).saveBuffer = some buf ∧ buf.length = 3 := by
  have hrun : (run stackStep (StackSys.init 0 (fun _ => 4) fun _ _ => 0) turns).any fun s =>
      s.live 2 ∧ (s.co 2).cIsShareStack ∧ s.occupy (s.co 2).stackMem ≠ some 2 ∧ (s.co 2).cStart ∧
        (s.co 2).stackSp = 1 ∧ s.size (s.co 2).stackMem = 4 := by decide
  obtain ⟨s, hs, hlost⟩ := (Option.any_eq_true _ _).mp hrun
  obtain ⟨hlive, hshare, hocc, hstart, hsp, hsize⟩ := of_decide_eq_true hlost
  obtain ⟨hmine, -, hsaved, hlength, -⟩ :=
    swaps_inside 0 (fun _ => 4) (fun _ _ => 0) (by decide) hs
  obtain ⟨buf, hbuf⟩ := hsaved 2 hlive hshare hocc hstart
  have hlen := hlength 2 buf hlive hshare hocc hbuf
  exact ⟨s, hs, hmine, buf, hbuf, by omega⟩

end AlgorithmLib.CoRoutine
