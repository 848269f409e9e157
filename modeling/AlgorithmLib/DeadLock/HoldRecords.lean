import AlgorithmLib.DeadLock.Protocol

/-!
What the record of a lock says of its holder. Mutexes may be recursive, so a record counts the
acquisitions of one thread; the pop of an unlock whose bookkeeping is late takes away the entry on
top, whoever pushed it.
-/

set_option autoImplicit false

namespace AlgorithmLib.DeadLock

open Run

structure Acquisition where
  thread : UInt64
  site : CallSite
  deriving DecidableEq, Repr

/-- The outstanding acquisitions of each mutex, innermost first, beside the detector's tables. -/
structure HoldSys where
  tables : Tables
  acquired : UInt64 → List Acquisition
  pc : UInt64 → Pc

namespace HoldSys

def init : HoldSys := ⟨.empty, fun _ => [], fun _ => .idle⟩

def owner (s : HoldSys) (m : UInt64) : Option UInt64 := (s.acquired m).head?.map Acquisition.thread

/-- The mutex is free, or it is recursive and the thread's own. -/
def free (recursive : UInt64 → Bool) (s : HoldSys) (thd m : UInt64) : Bool :=
  s.owner m = none || recursive m && s.owner m = some thd

end HoldSys

def holdStep (recursive : UInt64 → Bool) (s : HoldSys) : Act → Option HoldSys
  | .before thd c =>
    match s.pc thd with
    | .idle =>
      some { s with
        tables := s.tables.deadlockcheckBefore thd c.lockAddr c.site c.lockName
        pc := Function.update s.pc thd (.requested c) }
    | _ => none
  | .acquire thd =>
    match s.pc thd with
    | .requested c =>
      if s.free recursive thd c.lockAddr then
        some { s with
          acquired := Function.update s.acquired c.lockAddr (⟨thd, c.site⟩ :: s.acquired c.lockAddr)
          pc := Function.update s.pc thd (.acquired c) }
      else none
    | _ => none
  | .after thd =>
    match s.pc thd with
    | .acquired c =>
      some { s with
        tables := s.tables.deadlockcheckAfter thd c.lockAddr c.site c.lockName
        pc := Function.update s.pc thd .idle }
    | _ => none
  | .release thd lockAddr =>
    match s.pc thd with
    | .idle =>
      if s.owner lockAddr = some thd then
        some { s with
          acquired := Function.update s.acquired lockAddr (s.acquired lockAddr).tail
          pc := Function.update s.pc thd (.released lockAddr) }
      else none
    | _ => none
  | .unlockAfter thd =>
    match s.pc thd with
    | .released lockAddr =>
      some { s with
        tables := s.tables.deadlockcheckUnlockAfter thd lockAddr
        pc := Function.update s.pc thd .idle }
    | _ => none

/-- The thread is not between an acquire or a release of the mutex and its bookkeeping. -/
structure Pc.Away (pc : Pc) (m : UInt64) : Prop where
  acquiring : pc.acquiring m = false
  released : pc ≠ .released m

namespace HoldSys

def logged (s : HoldSys) (m : UInt64) : List Acquisition :=
  match s.acquired m with
  | [] => []
  | a :: rest => if (s.pc a.thread).acquiring m then rest else a :: rest

def lag (s : HoldSys) (m : UInt64) : Nat :=
  if (s.owner m).any (fun thd => s.pc thd = .released m) then 1 else 0

/-- No thread is between an acquire or a release and its bookkeeping. -/
def Quiet (s : HoldSys) : Prop := ∀ thd m, (s.pc thd).Away m

/-- The record of the mutex says who holds it, how often, and from where. -/
def Exact (s : HoldSys) (m : UInt64) : Prop :=
  s.tables.countOf m = (s.acquired m).length ∧
    (0 < s.tables.countOf m → s.tables.recorded m = s.owner m) ∧
      s.tables.pointsOf m = (s.acquired m).map (fun a => a.site.clip 20 32)

end HoldSys

/-- How the record of a mutex stands to its acquisitions; `others` are the threads that have
released it for good and not yet done their bookkeeping. -/
structure Logged (s : HoldSys) (m : UInt64) (others : List UInt64) : Prop where
  owned : ∀ a ∈ s.acquired m, s.owner m = some a.thread
  head : ∀ thd c, s.pc thd = .acquired c → c.lockAddr = m →
    (s.acquired m).head? = some ⟨thd, c.site⟩
  nodup : others.Nodup
  mem_others : ∀ thd, thd ∈ others ↔ s.pc thd = .released m ∧ s.owner m ≠ some thd
  points : s.tables.countOf m = (s.tables.pointsOf m).length
  counts : (s.tables.pointsOf m).length = s.lag m + (s.logged m).length + others.length
  recorded : s.logged m ≠ [] → s.tables.recorded m = s.owner m

/-- The entries of the holder lie on top, the one apart that it is about to take away. -/
def OnTop (s : HoldSys) (m : UInt64) : Prop :=
  (s.logged m).map (fun a => a.site.clip 20 32) <+: (s.tables.pointsOf m).drop (s.lag m)

namespace HoldSys

variable {s s' : HoldSys} {m thd : UInt64}

theorem logged_of_head
    (h : ∀ a, (s.acquired m).head? = some a → (s.pc a.thread).acquiring m = false) :
    s.logged m = s.acquired m := by
  rw [logged]
  cases hacq : s.acquired m with
  | nil => rfl
  | cons a rest => simp [h a (by rw [hacq]; rfl)]

theorem owner_of_head {a : Acquisition} (h : (s.acquired m).head? = some a) :
    s.owner m = some a.thread := by
  rw [owner, h]
  rfl

theorem lag_of_owner (h : ∀ u, s.owner m = some u → s.pc u ≠ .released m) : s.lag m = 0 := by
  rw [lag, if_neg]
  simpa [Option.any_eq_true] using h

structure Same (s s' : HoldSys) (m : UInt64) : Prop where
  acquired : s'.acquired m = s.acquired m
  count : s'.tables.countOf m = s.tables.countOf m
  points : s'.tables.pointsOf m = s.tables.pointsOf m
  recorded : s'.tables.recorded m = s.tables.recorded m
  acquiring : ∀ thd, (s'.pc thd).acquiring m = (s.pc thd).acquiring m
  site : ∀ thd c, s'.pc thd = .acquired c → c.lockAddr = m → s.pc thd = .acquired c
  released : ∀ thd, s'.pc thd = .released m ↔ s.pc thd = .released m

theorem same_of_away (thd : UInt64) (pc : Pc) (hpc : (s.pc thd).Away m) (hpc' : pc.Away m)
    (h : s'.pc = Function.update s.pc thd pc) (acquired : s'.acquired m = s.acquired m)
    (count : s'.tables.countOf m = s.tables.countOf m)
    (points : s'.tables.pointsOf m = s.tables.pointsOf m)
    (recorded : s'.tables.recorded m = s.tables.recorded m) : Same s s' m := by
  refine ⟨acquired, count, points, recorded, fun u => ?_, fun u c hu hc => ?_, fun u => ?_⟩
  · rw [h]
    by_cases hu : u = thd
    · rw [hu, Function.update_self, hpc.acquiring, hpc'.acquiring]
    · rw [Function.update_of_ne hu]
  · rw [h] at hu
    by_cases hut : u = thd
    · rw [hut, Function.update_self] at hu
      have := hpc'.acquiring
      simp [hu, Pc.acquiring, hc] at this
    · rwa [Function.update_of_ne hut] at hu
  · rw [h]
    by_cases hu : u = thd
    · rw [hu, Function.update_self]
      exact iff_of_false hpc'.released hpc.released
    · rw [Function.update_of_ne hu]

theorem Same.owner (h : Same s s' m) : s'.owner m = s.owner m := by
  simp only [HoldSys.owner, h.acquired]

theorem Same.logged (h : Same s s' m) : s'.logged m = s.logged m := by
  simp only [HoldSys.logged, h.acquired, h.acquiring]

theorem Same.lag (h : Same s s' m) : s'.lag m = s.lag m := by
  simp only [HoldSys.lag, h.owner, h.released]

end HoldSys

variable {s s' : HoldSys} {m thd : UInt64} {c : LockCall} {others : List UInt64}

theorem Logged.same (h : Logged s m others) (hs : s.Same s' m) : Logged s' m others := by
  refine ⟨fun a ha => ?_, fun thd c hpc hc => ?_, h.nodup, fun thd => ?_, ?_, ?_, fun hne => ?_⟩
  · rw [hs.owner]
    exact h.owned a (hs.acquired ▸ ha)
  · rw [hs.acquired]
    exact h.head thd c (hs.site thd c hpc hc) hc
  · rw [hs.released, hs.owner]
    exact h.mem_others thd
  · rw [hs.count, hs.points]
    exact h.points
  · rw [hs.points, hs.lag, hs.logged]
    exact h.counts
  · rw [hs.recorded, hs.owner]
    exact h.recorded (hs.logged ▸ hne)

theorem OnTop.same (h : OnTop s m) (hs : s.Same s' m) : OnTop s' m := by
  rw [OnTop, hs.logged, hs.points, hs.lag]
  exact h

theorem Logged.acquire (h : Logged s c.lockAddr others) (s' : HoldSys) {recursive : UInt64 → Bool}
    (hpc : s.pc thd = .requested c) (hfree : s.free recursive thd c.lockAddr = true)
    (hacq : s'.acquired c.lockAddr = ⟨thd, c.site⟩ :: s.acquired c.lockAddr)
    (htables : s'.tables = s.tables) (hpc' : s'.pc = Function.update s.pc thd (.acquired c)) :
    Logged s' c.lockAddr others ∧ s'.logged c.lockAddr = s.logged c.lockAddr ∧
      s'.lag c.lockAddr = s.lag c.lockAddr := by
  have hown : ∀ u, s.owner c.lockAddr = some u → u = thd := fun u hu => by
    simp only [HoldSys.free, hu, Bool.or_eq_true, decide_eq_true_eq, Bool.and_eq_true,
      Option.some.injEq, reduceCtorEq, false_or] at hfree
    exact hfree.2
  have hown' : s'.owner c.lockAddr = some thd := by rw [HoldSys.owner, hacq]; rfl
  have hself : s'.pc thd = .acquired c := by rw [hpc', Function.update_self]
  have hlogged : s.logged c.lockAddr = s.acquired c.lockAddr :=
    HoldSys.logged_of_head fun a ha => by
      rw [hown _ (HoldSys.owner_of_head ha), hpc]
      rfl
  have hlogged' : s'.logged c.lockAddr = s.acquired c.lockAddr := by
    simp [HoldSys.logged, hacq, hself, Pc.acquiring]
  have hlag : s.lag c.lockAddr = 0 := HoldSys.lag_of_owner fun u hu => by simp [hown u hu, hpc]
  have hlag' : s'.lag c.lockAddr = 0 := HoldSys.lag_of_owner fun u hu => by
    rw [hown', Option.some.injEq] at hu
    simp [← hu, hself]
  refine ⟨⟨fun a ha => ?_, fun u d hd hdc => ?_, h.nodup, fun u => ?_, ?_, ?_, fun hne => ?_⟩,
    hlogged'.trans hlogged.symm, hlag'.trans hlag.symm⟩
  · rw [hown']
    rw [hacq] at ha
    obtain rfl | ha := List.mem_cons.mp ha
    · rfl
    · rw [hown _ (h.owned a ha)]
  · by_cases hu : u = thd
    · rw [hu, hself] at hd
      cases hd
      rw [hu, hacq]
      rfl
    · rw [hpc', Function.update_of_ne hu] at hd
      exact absurd (hown u (HoldSys.owner_of_head (h.head u d hd hdc))) hu
  · rw [h.mem_others, hown', hpc']
    by_cases hu : u = thd
    · simp [hu, hpc]
    · have hne : s.owner c.lockAddr ≠ some u := fun ho => hu (hown u ho)
      simp [Function.update_of_ne hu, hne, Ne.symm hu]
  · rw [htables]
    exact h.points
  · rw [htables, hlag', hlogged', ← hlogged, ← hlag]
    exact h.counts
  · rw [hlogged', ← hlogged] at hne
    obtain ⟨a, ha⟩ := List.exists_mem_of_ne_nil _ (hlogged ▸ hne)
    rw [htables, h.recorded hne, hown', h.owned a ha, hown _ (h.owned a ha)]

theorem Logged.after (h : Logged s c.lockAddr others) (s' : HoldSys)
    (hpc : s.pc thd = .acquired c) (hacq : s'.acquired = s.acquired)
    (htables : s'.tables = s.tables.deadlockcheckAfter thd c.lockAddr c.site c.lockName)
    (hpc' : s'.pc = Function.update s.pc thd .idle) :
    Logged s' c.lockAddr others ∧ (OnTop s c.lockAddr → OnTop s' c.lockAddr) := by
  have hhead := h.head thd c hpc rfl
  obtain ⟨rest, hrest⟩ := List.head?_eq_some_iff.mp hhead
  have hown : s.owner c.lockAddr = some thd := HoldSys.owner_of_head hhead
  have hown' : s'.owner c.lockAddr = some thd := by rw [HoldSys.owner, hacq, hrest]; rfl
  have hself : s'.pc thd = .idle := by rw [hpc', Function.update_self]
  have hlogged : s.logged c.lockAddr = rest := by
    simp [HoldSys.logged, hrest, hpc, Pc.acquiring]
  have hlogged' : s'.logged c.lockAddr = ⟨thd, c.site⟩ :: rest := by
    simp [HoldSys.logged, hacq, hrest, hself, Pc.acquiring]
  have hlag : s.lag c.lockAddr = 0 := HoldSys.lag_of_owner fun u hu => by
    rw [hown, Option.some.injEq] at hu
    simp [← hu, hpc]
  have hlag' : s'.lag c.lockAddr = 0 := HoldSys.lag_of_owner fun u hu => by
    rw [hown', Option.some.injEq] at hu
    simp [← hu, hself]
  have hpoints : s'.tables.pointsOf c.lockAddr =
      c.site.clip 20 32 :: s.tables.pointsOf c.lockAddr := by
    rw [htables, Tables.deadlockcheckAfter_pointsOf, if_pos rfl]
  refine ⟨⟨fun a ha => ?_, fun u d hd hdc => ?_, h.nodup, fun u => ?_, ?_, ?_, fun _ => ?_⟩,
    fun htop => ?_⟩
  · rw [hown', ← hown]
    exact h.owned a (hacq ▸ ha)
  · have hu : u ≠ thd := by
      rintro rfl
      rw [hself] at hd
      cases hd
    rw [hpc', Function.update_of_ne hu] at hd
    rw [hacq]
    exact h.head u d hd hdc
  · rw [h.mem_others, hown, hown', hpc']
    by_cases hu : u = thd
    · simp [hu]
    · rw [Function.update_of_ne hu]
  · rw [hpoints, htables, Tables.deadlockcheckAfter_countOf, h.points]
    simp
  · have hcounts := h.counts
    rw [hlag, hlogged] at hcounts
    rw [hpoints, hlag', hlogged', List.length_cons, List.length_cons]
    omega
  · rw [htables, Tables.deadlockcheckAfter_recorded, if_pos rfl, hown']
  · rw [OnTop, hlogged, hlag, List.drop_zero] at htop
    rw [OnTop, hlogged', hlag', hpoints, List.drop_zero, List.map_cons]
    exact (List.cons_prefix_cons).mpr ⟨rfl, htop⟩

theorem Logged.release (h : Logged s m others) (s' : HoldSys) (hpc : s.pc thd = .idle)
    (hheld : s.owner m = some thd) (hacq : s'.acquired m = (s.acquired m).tail)
    (htables : s'.tables = s.tables) (hpc' : s'.pc = Function.update s.pc thd (.released m)) :
    (∃ others', Logged s' m others') ∧ (OnTop s m → OnTop s' m) := by
  obtain ⟨a, ha, hat⟩ := Option.map_eq_some_iff.mp hheld
  obtain ⟨rest, hrest⟩ := List.head?_eq_some_iff.mp ha
  rw [hrest, List.tail_cons] at hacq
  have hself : s'.pc thd = .released m := by rw [hpc', Function.update_self]
  have hlogged : s.logged m = a :: rest := by
    simp [HoldSys.logged, hrest, hat, hpc, Pc.acquiring]
  have hlag : s.lag m = 0 := HoldSys.lag_of_owner fun u hu => by
    rw [hheld, Option.some.injEq] at hu
    simp [← hu, hpc]
  have hcounts := h.counts
  rw [hlag, hlogged, List.length_cons] at hcounts
  have hfresh : thd ∉ others := fun hmem => ((h.mem_others thd).mp hmem).2 hheld
  have hhead : ∀ u d, s'.pc u = .acquired d → d.lockAddr ≠ m := fun u d hd hdc => by
    have hu : u ≠ thd := by
      rintro rfl
      rw [hself] at hd
      cases hd
    rw [hpc', Function.update_of_ne hu] at hd
    have hown := HoldSys.owner_of_head (h.head u d hd hdc)
    rw [hheld, Option.some.injEq] at hown
    exact hu hown.symm
  cases rest with
  | nil =>
    have hown' : s'.owner m = none := by rw [HoldSys.owner, hacq]; rfl
    have hlogged' : s'.logged m = [] := by simp [HoldSys.logged, hacq]
    have hlag' : s'.lag m = 0 := HoldSys.lag_of_owner fun u hu => by
      rw [hown'] at hu
      cases hu
    refine ⟨⟨thd :: others, fun b hb => ?_, fun u d hd hdc => absurd hdc (hhead u d hd),
      List.nodup_cons.mpr ⟨hfresh, h.nodup⟩, fun u => ?_, ?_, ?_, fun hne => absurd hlogged' hne⟩,
      fun _ => ?_⟩
    · rw [hacq] at hb
      cases hb
    · rw [List.mem_cons, h.mem_others, hown', hheld, hpc']
      by_cases hu : u = thd
      · simp [hu]
      · simp [hu, Ne.symm hu]
    · rw [htables]
      exact h.points
    · rw [htables, hlag', hlogged', hcounts]
      simp [Nat.add_comm]
    · rw [OnTop, hlogged']
      exact List.nil_prefix
  | cons b rest =>
    have hbt : b.thread = thd := by
      have hb := h.owned b (by simp [hrest])
      rw [hheld, Option.some.injEq] at hb
      exact hb.symm
    have hown' : s'.owner m = some thd := by rw [HoldSys.owner, hacq, ← hbt]; rfl
    have hlogged' : s'.logged m = b :: rest := by
      simp [HoldSys.logged, hacq, hbt, hself, Pc.acquiring]
    have hlag' : s'.lag m = 1 := by simp [HoldSys.lag, hown', hself]
    refine ⟨⟨others, fun x hx => ?_, fun u d hd hdc => absurd hdc (hhead u d hd), h.nodup,
      fun u => ?_, ?_, ?_, fun _ => ?_⟩, fun htop => ?_⟩
    · rw [hown', ← hheld]
      exact h.owned x (by rw [hrest]; exact List.mem_cons_of_mem a (hacq ▸ hx))
    · rw [h.mem_others, hown', hheld, hpc']
      by_cases hu : u = thd
      · simp [hu]
      · rw [Function.update_of_ne hu]
    · rw [htables]
      exact h.points
    · rw [htables, hlag', hlogged', hcounts, List.length_cons]
      omega
    · rw [htables, h.recorded (by simp [hlogged]), hheld, hown']
    · rw [OnTop, hlogged, hlag, List.drop_zero, List.map_cons] at htop
      rw [OnTop, hlogged', hlag', htables]
      obtain ⟨ps, hps⟩ := htop
      exact ⟨ps, by rw [← hps]; rfl⟩

theorem Logged.pointsOf_ne_nil (h : Logged s m others) (hpc : s.pc thd = .released m) :
    s.tables.pointsOf m ≠ [] := by
  refine List.ne_nil_of_length_pos ?_
  rw [h.counts]
  by_cases hown : s.owner m = some thd
  · have hlag : s.lag m = 1 := by simp [HoldSys.lag, hown, hpc]
    omega
  · have hpos := List.length_pos_of_mem ((h.mem_others thd).mpr ⟨hpc, hown⟩)
    omega

theorem Logged.unlockAfter (h : Logged s m others) (s' : HoldSys) (hpc : s.pc thd = .released m)
    (hacq : s'.acquired = s.acquired) (htables : s'.tables = s.tables.deadlockcheckUnlockAfter thd m)
    (hpc' : s'.pc = Function.update s.pc thd .idle) :
    (∃ others', Logged s' m others') ∧
      ((s.logged m ≠ [] → s.owner m = some thd) → OnTop s m → OnTop s' m) := by
  have hown' : s'.owner m = s.owner m := by simp only [HoldSys.owner, hacq]
  have hself : s'.pc thd = .idle := by rw [hpc', Function.update_self]
  have hacquiring : ∀ u, (s'.pc u).acquiring m = (s.pc u).acquiring m := fun u => by
    rw [hpc']
    by_cases hu : u = thd
    · rw [hu, Function.update_self, hpc]
      rfl
    · rw [Function.update_of_ne hu]
  have hlogged' : s'.logged m = s.logged m := by simp only [HoldSys.logged, hacq, hacquiring]
  have hhead : ∀ u d, s'.pc u = .acquired d → d.lockAddr = m →
      (s'.acquired m).head? = some ⟨u, d.site⟩ := fun u d hd hdc => by
    have hu : u ≠ thd := by
      rintro rfl
      rw [hself] at hd
      cases hd
    rw [hpc', Function.update_of_ne hu] at hd
    rw [hacq]
    exact h.head u d hd hdc
  have hcounts := h.counts
  have hne := h.pointsOf_ne_nil hpc
  have hpoints' : s'.tables.pointsOf m = (s.tables.pointsOf m).tail := by
    rw [htables, Tables.deadlockcheckUnlockAfter_pointsOf, if_pos rfl]
  have hlog : ∀ others', others'.Nodup →
      (∀ u, u ∈ others' ↔ s'.pc u = .released m ∧ s'.owner m ≠ some u) →
      s.lag m + others.length = s'.lag m + others'.length + 1 → Logged s' m others' := by
    intro others' hnodup hmem hlen
    refine ⟨fun a ha => ?_, hhead, hnodup, hmem, ?_, ?_, fun hlogged => ?_⟩
    · rw [hown']
      exact h.owned a (hacq ▸ ha)
    · rw [hpoints', htables, Tables.deadlockcheckUnlockAfter_countOf, if_pos ⟨rfl, hne⟩, h.points,
        List.length_tail]
      omega
    · rw [hpoints', List.length_tail, hlogged']
      omega
    · rw [htables, Tables.deadlockcheckUnlockAfter_recorded _ _ _ _ (Tables.recorded_ne_none hne),
        hown', h.recorded (hlogged' ▸ hlogged)]
  by_cases hown : s.owner m = some thd
  · -- the owner takes its own entry away
    have hlag : s.lag m = 1 := by simp [HoldSys.lag, hown, hpc]
    have hlag' : s'.lag m = 0 := HoldSys.lag_of_owner fun u hu => by
      rw [hown', hown, Option.some.injEq] at hu
      simp [← hu, hself]
    refine ⟨⟨others, hlog others h.nodup (fun u => ?_) (by omega)⟩, fun _ htop => ?_⟩
    · rw [h.mem_others, hown', hown, hpc']
      by_cases hu : u = thd
      · simp [hu]
      · rw [Function.update_of_ne hu]
    · rw [OnTop, hlag, List.drop_one] at htop
      rwa [OnTop, hlogged', hlag', hpoints', List.drop_zero]
  · have hmem : thd ∈ others := (h.mem_others thd).mpr ⟨hpc, hown⟩
    have hlag' : s'.lag m = s.lag m := by
      rw [HoldSys.lag, HoldSys.lag, hown']
      cases howner : s.owner m with
      | none => rfl
      | some u =>
        have hu : u ≠ thd := fun hu => hown (by rw [howner, hu])
        rw [hpc', Option.any_some, Option.any_some, Function.update_of_ne hu]
    have hpos := List.length_pos_of_mem hmem
    refine ⟨⟨others.erase thd, hlog _ (h.nodup.erase thd) (fun u => ?_) ?_⟩, fun hcond _ => ?_⟩
    · rw [hown', hpc', h.nodup.mem_erase_iff, h.mem_others]
      by_cases hu : u = thd
      · simp [hu]
      · simp [hu]
    · rw [hlag', List.length_erase_of_mem hmem]
      omega
    · have hnil : s.logged m = [] := by
        by_contra hne
        exact hown (hcond hne)
      rw [OnTop, hlogged', hnil]
      exact List.nil_prefix

/-- The condition on a step: a thread does its bookkeeping for an unlock while no other thread has
an entry that is still true. -/
def OwnEntry (s : HoldSys) : Act → Prop
  | .unlockAfter thd => ∀ m, s.pc thd = .released m → s.logged m ≠ [] → s.owner m = some thd
  | _ => True

theorem logged_step {recursive : UInt64 → Bool} {a : Act} (h : ∀ m, ∃ others, Logged s m others)
    (hstep : holdStep recursive s a = some s') (m : UInt64) :
    (∃ others, Logged s' m others) ∧ (OwnEntry s a → OnTop s m → OnTop s' m) := by
  obtain ⟨others, hm⟩ := h m
  have hsame : s.Same s' m →
      (∃ others, Logged s' m others) ∧ (OwnEntry s a → OnTop s m → OnTop s' m) := fun hs =>
    ⟨⟨others, hm.same hs⟩, fun _ htop => htop.same hs⟩
  cases a with
  | before thd c =>
    simp only [holdStep] at hstep
    split at hstep
    · rename_i hpc
      cases hstep
      exact hsame (HoldSys.same_of_away thd _ ⟨by rw [hpc]; rfl, by rw [hpc]; simp⟩
        ⟨rfl, by simp⟩ rfl rfl rfl rfl rfl)
    · cases hstep
  | acquire thd =>
    simp only [holdStep] at hstep
    split at hstep
    · rename_i c hpc
      split at hstep
      · rename_i hfree
        cases hstep
        by_cases hmc : m = c.lockAddr
        · subst hmc
          obtain ⟨hlog, hlogged, hlag⟩ := hm.acquire { s with
            acquired := Function.update s.acquired c.lockAddr (⟨thd, c.site⟩ :: s.acquired c.lockAddr)
            pc := Function.update s.pc thd (.acquired c) } hpc hfree (Function.update_self _ _ _)
            rfl rfl
          refine ⟨⟨others, hlog⟩, fun _ htop => ?_⟩
          rw [OnTop, hlogged, hlag]
          exact htop
        · exact hsame (HoldSys.same_of_away thd _ ⟨by rw [hpc]; rfl, by rw [hpc]; simp⟩
            ⟨by simp [Pc.acquiring, Ne.symm hmc], by simp⟩ rfl (Function.update_of_ne hmc _ _) rfl
            rfl rfl)
      · cases hstep
    · cases hstep
  | after thd =>
    simp only [holdStep] at hstep
    split at hstep
    · rename_i c hpc
      cases hstep
      by_cases hmc : m = c.lockAddr
      · subst hmc
        obtain ⟨hlog, htop⟩ := hm.after { s with
          tables := s.tables.deadlockcheckAfter thd c.lockAddr c.site c.lockName
          pc := Function.update s.pc thd .idle } hpc rfl rfl rfl
        exact ⟨⟨others, hlog⟩, fun _ => htop⟩
      · refine hsame (HoldSys.same_of_away thd .idle
          ⟨by simp [hpc, Pc.acquiring, Ne.symm hmc], by simp [hpc]⟩ ⟨rfl, by simp⟩ rfl rfl ?_ ?_ ?_)
        · rw [Tables.deadlockcheckAfter_countOf, if_neg hmc, Int.add_zero]
        · rw [Tables.deadlockcheckAfter_pointsOf, if_neg hmc]
        · rw [Tables.deadlockcheckAfter_recorded, if_neg hmc]
    · cases hstep
  | release thd n =>
    simp only [holdStep] at hstep
    split at hstep
    · rename_i hpc
      split at hstep
      · rename_i hheld
        cases hstep
        by_cases hmn : m = n
        · subst hmn
          obtain ⟨hlog, htop⟩ := hm.release { s with
            acquired := Function.update s.acquired m (s.acquired m).tail
            pc := Function.update s.pc thd (.released m) } hpc hheld (Function.update_self _ _ _)
            rfl rfl
          exact ⟨hlog, fun _ => htop⟩
        · exact hsame (HoldSys.same_of_away thd _ ⟨by rw [hpc]; rfl, by rw [hpc]; simp⟩
            ⟨rfl, by simpa using Ne.symm hmn⟩ rfl (Function.update_of_ne hmn _ _) rfl rfl rfl)
      · cases hstep
    · cases hstep
  | unlockAfter thd =>
    simp only [holdStep] at hstep
    split at hstep
    · rename_i n hpc
      cases hstep
      by_cases hmn : m = n
      · subst hmn
        obtain ⟨hlog, htop⟩ := hm.unlockAfter { s with
          tables := s.tables.deadlockcheckUnlockAfter thd m
          pc := Function.update s.pc thd .idle } hpc rfl rfl rfl
        exact ⟨hlog, fun hcond => htop (hcond m hpc)⟩
      · obtain ⟨others', hn⟩ := h n
        refine hsame (HoldSys.same_of_away thd .idle
          ⟨by rw [hpc]; rfl, by simpa [hpc] using Ne.symm hmn⟩ ⟨rfl, by simp⟩ rfl rfl ?_ ?_ ?_)
        · rw [Tables.deadlockcheckUnlockAfter_countOf, if_neg (fun h => hmn h.1), Int.sub_zero]
        · rw [Tables.deadlockcheckUnlockAfter_pointsOf, if_neg hmn]
        · exact Tables.deadlockcheckUnlockAfter_recorded s.tables thd n m
            (Tables.recorded_ne_none (hn.pointsOf_ne_nil hpc))
    · cases hstep

theorem logged_init (m : UInt64) : Logged .init m [] := by
  refine ⟨fun a ha => ?_, fun thd c hpc _ => ?_, List.nodup_nil, fun thd => ?_, rfl, rfl,
    fun hne => absurd rfl hne⟩
  · cases ha
  · cases hpc
  · simp [HoldSys.init]

theorem HoldSys.Quiet.logged (hq : s.Quiet) (m : UInt64) : s.logged m = s.acquired m :=
  logged_of_head fun a _ => (hq a.thread m).acquiring

theorem HoldSys.Quiet.lag (hq : s.Quiet) (m : UInt64) : s.lag m = 0 :=
  lag_of_owner fun u _ => (hq u m).released

theorem Logged.quiet (h : Logged s m others) (hq : s.Quiet) :
    (s.tables.pointsOf m).length = (s.acquired m).length ∧
      s.tables.countOf m = (s.acquired m).length ∧
        (0 < s.tables.countOf m → s.tables.recorded m = s.owner m) := by
  have hothers : others = [] := List.eq_nil_iff_forall_not_mem.mpr fun thd hthd =>
    (hq thd m).released ((h.mem_others thd).mp hthd).1
  have hlength : (s.tables.pointsOf m).length = (s.acquired m).length := by
    rw [h.counts, hq.lag, hq.logged, hothers]
    simp
  refine ⟨hlength, by rw [h.points, hlength], fun hpos => h.recorded fun hnil => ?_⟩
  rw [h.points, hlength, ← hq.logged, hnil] at hpos
  simp at hpos

/-- How often and by whom a mutex is held is recorded whatever the order of the steps. -/
theorem hold_records_count {recursive : UInt64 → Bool} {acts : List Act}
    (hrun : run (holdStep recursive) .init acts = some s) (hq : s.Quiet) (m : UInt64) :
    s.tables.countOf m = (s.acquired m).length ∧
      (0 < s.tables.countOf m → s.tables.recorded m = s.owner m) := by
  have hinv : ∀ m, ∃ others, Logged s m others :=
    run_invariant (p := fun s => ∀ m, ∃ others, Logged s m others)
      (fun _ _ _ h hstep m => (logged_step h hstep m).1) (fun m => ⟨[], logged_init m⟩) hrun
  obtain ⟨others, hlog⟩ := hinv m
  exact (hlog.quiet hq).2

/-- In every run in which no thread takes away an entry that is another one's and still true, every
record is exact whenever no bookkeeping is outstanding. -/
theorem hold_records_exact (recursive : UInt64 → Bool) (acts : List Act)
    (hown : Meets (holdStep recursive) OwnEntry .init acts)
    (hrun : run (holdStep recursive) .init acts = some s) (hq : s.Quiet) (m : UInt64) :
    s.Exact m := by
  have hinv : ∀ m, (∃ others, Logged s m others) ∧ OnTop s m := by
    refine run_invariant_of_meets (p := fun s => ∀ m, (∃ others, Logged s m others) ∧ OnTop s m) ?_
      (fun m => ⟨⟨[], logged_init m⟩, List.nil_prefix⟩) hown hrun
    intro s a t hs ha hstep m
    obtain ⟨hlog, htop⟩ := logged_step (fun m => (hs m).1) hstep m
    exact ⟨hlog, htop ha (hs m).2⟩
  obtain ⟨⟨others, hlog⟩, htop⟩ := hinv m
  obtain ⟨hlength, hcount, hrecorded⟩ := hlog.quiet hq
  refine ⟨hcount, hrecorded, ?_⟩
  rw [OnTop, hq.logged, hq.lag, List.drop_zero] at htop
  exact (htop.eq_of_length (by rw [List.length_map, hlength])).symm

def HoldSys.toSys (s : HoldSys) : Sys := ⟨s.tables, s.owner, s.pc⟩

theorem HoldSys.owner_update (s : HoldSys) (pc : UInt64 → Pc) (m : UInt64) (l : List Acquisition) :
    HoldSys.owner { s with acquired := Function.update s.acquired m l, pc := pc } =
      Function.update s.owner m (l.head?.map Acquisition.thread) := by
  funext n
  by_cases hn : n = m
  · simp [HoldSys.owner, hn]
  · simp [HoldSys.owner, hn]

theorem HoldSys.toSys_step (h : ∀ m, (s.acquired m).length ≤ 1) (a : Act) :
    (holdStep (fun _ => false) s a).map HoldSys.toSys = step s.toSys a := by
  cases a with
  | before thd c =>
    simp only [holdStep, step, HoldSys.toSys]
    cases s.pc thd <;> rfl
  | acquire thd =>
    simp only [holdStep, step, HoldSys.toSys, HoldSys.free, Bool.false_and, Bool.or_false,
      decide_eq_true_eq]
    cases s.pc thd with
    | requested c =>
      by_cases hfree : s.owner c.lockAddr = none
      · simp [hfree, HoldSys.toSys, HoldSys.owner_update]
      · simp [hfree]
    | _ => rfl
  | after thd =>
    simp only [holdStep, step, HoldSys.toSys]
    cases s.pc thd <;> rfl
  | release thd m =>
    simp only [holdStep, step, HoldSys.toSys]
    cases s.pc thd with
    | idle =>
      by_cases hheld : s.owner m = some thd
      · have htail : (s.acquired m).tail = [] := List.length_eq_zero_iff.mp (by
          rw [List.length_tail]
          exact Nat.sub_eq_zero_of_le (h m))
        simp [hheld, HoldSys.toSys, HoldSys.owner_update, htail]
      · simp [hheld]
    | _ => rfl
  | unlockAfter thd =>
    simp only [holdStep, step, HoldSys.toSys]
    cases s.pc thd <;> rfl

theorem HoldSys.length_step (h : ∀ m, (s.acquired m).length ≤ 1) {a : Act}
    (hstep : holdStep (fun _ => false) s a = some s') (m : UInt64) : (s'.acquired m).length ≤ 1 := by
  cases a with
  | acquire thd =>
    simp only [holdStep, HoldSys.free, Bool.false_and, Bool.or_false, decide_eq_true_eq] at hstep
    split at hstep
    · rename_i c hpc
      split at hstep
      · rename_i hfree
        cases hstep
        by_cases hm : m = c.lockAddr
        · subst hm
          simpa [HoldSys.owner] using hfree
        · simpa [hm] using h m
      · cases hstep
    · cases hstep
  | release thd n =>
    simp only [holdStep] at hstep
    split at hstep
    · split at hstep
      · cases hstep
        by_cases hm : m = n
        · subst hm
          simpa using Nat.le_succ_of_le (h m)
        · simpa [hm] using h m
      · cases hstep
    · cases hstep
  | _ =>
    simp only [holdStep] at hstep
    split at hstep
    · cases hstep
      exact h m
    · cases hstep

/-- Without recursive mutexes these are the threads of `step`. -/
theorem HoldSys.toSys_run (acts : List Act) :
    (run (holdStep fun _ => false) .init acts).map HoldSys.toSys = run step Sys.init acts := by
  have hsim : ∀ s : HoldSys, (∀ m, (s.acquired m).length ≤ 1) →
      (run (holdStep fun _ => false) s acts).map HoldSys.toSys = run step s.toSys acts := by
    induction acts with
    | nil => exact fun _ _ => rfl
    | cons a acts ih =>
      intro s hs
      rw [run, run, ← HoldSys.toSys_step hs]
      cases hstep : holdStep (fun _ => false) s a with
      | none => rfl
      | some t => exact ih t (HoldSys.length_step hs hstep)
  exact hsim .init fun _ => by simp [HoldSys.init]

def callAt (lockAddr : UInt64) (line : Int) : LockCall := ⟨lockAddr, ⟨[], line, []⟩, []⟩

/-- Thread 3 is late, but has done its bookkeeping before thread 1 does its own; then thread 1 locks
the recursive mutex once more and unlocks it. -/
def lateInTime : List Act :=
  [.before 3 (callAt 10 1), .acquire 3, .after 3, .release 3 10, .before 1 (callAt 10 2), .acquire 1,
    .unlockAfter 3, .after 1, .before 1 (callAt 10 3), .acquire 1, .after 1, .release 1 10,
    .unlockAfter 1]

theorem HoldSys.quiet_of_idle (h : ∀ thd, s.pc thd = .idle) : s.Quiet := fun thd _ => by
  rw [h thd]
  exact ⟨rfl, by simp⟩

theorem hold_records_exact_in_time :
    ∃ s, run (holdStep fun _ => true) .init lateInTime = some s ∧ s.Exact 10 ∧
      s.tables.pointsOf 10 = [⟨[], 2, []⟩] := by
  refine ⟨_, rfl, hold_records_exact (fun _ => true) lateInTime ?_ rfl
    (HoldSys.quiet_of_idle fun thd => ?_) 10, rfl⟩
  · refine ⟨trivial, trivial, trivial, trivial, trivial, trivial, ?_, trivial, trivial, trivial,
      trivial, trivial, ?_, trivial⟩
    · intro m hm hne
      cases hm
      exact absurd rfl hne
    · intro m hm _
      cases hm
      rfl
  · by_cases h1 : thd = 1
    · rw [h1]
      rfl
    · by_cases h3 : thd = 3
      · rw [h3]
        rfl
      · simp [h1, h3, HoldSys.init]

/-- Thread 3 does its bookkeeping for an unlock when thread 1 has done its own for the lock. -/
def lateEntry : List Act :=
  [.before 3 (callAt 10 1), .acquire 3, .after 3, .release 3 10, .before 1 (callAt 10 2), .acquire 1,
    .after 1, .unlockAfter 3]

theorem hold_records_wrong_site :
    ∃ s, run (holdStep fun _ => false) .init lateEntry = some s ∧ s.Quiet ∧
      (s.acquired 10).map Acquisition.site = [⟨[], 2, []⟩] ∧
        s.tables.pointsOf 10 = [⟨[], 1, []⟩] ∧ ¬ s.Exact 10 := by
  refine ⟨_, rfl, HoldSys.quiet_of_idle fun thd => ?_, rfl, rfl, fun h => ?_⟩
  · by_cases h1 : thd = 1
    · rw [h1]
      rfl
    · by_cases h3 : thd = 3
      · rw [h3]
        rfl
      · simp [h1, h3, HoldSys.init]
  · exact absurd h.2.2 (by decide)

end AlgorithmLib.DeadLock
