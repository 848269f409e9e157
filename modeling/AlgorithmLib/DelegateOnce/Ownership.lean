import AlgorithmLib.DelegateOnce.Model

set_option autoImplicit false

namespace AlgorithmLib.DelegateOnce

variable {T : Type}

theorem lt_singularId (id : Int) : id < singularId id := by
  unfold singularId
  split <;> omega

theorem lt_dualId (id : Int) : id < dualId id := by
  unfold dualId
  split <;> omega

theorem dualId_even (id : Int) : dualId id % 2 = 0 := by
  unfold dualId
  split <;> omega

def Pos.AtFirst (m : SortedMap Int T) : Pos → Prop
  | .onceLoop it => m.first = it
  | .onceCalling id => m.first = some id
  | _ => True

def Pos.remaining (m : SortedMap Int T) : Pos → List (Int × T)
  | .onceCalling id => m.after id
  | _ => m.entries

theorem Pos.mem_remaining {m : SortedMap Int T} {pos : Pos} {e : Int × T}
    (h : e ∈ pos.remaining m) : e ∈ m.entries := by
  cases pos with
  | onceCalling id => exact List.mem_of_mem_filter h
  | _ => exact h

theorem Notify.at_number (n : Notify) (pos : Pos) : (n.at pos).number = n.number := rfl

namespace MyDelegate

/-- What the `notifyAll` of this number has still to call. -/
def remaining (s : MyDelegate T) (k : Nat) : List (Int × T) :=
  (Keyed.lookup Notify.number k s.running).elim [] fun n =>
    n.pos.remaining (s.onceMaps.get n.onceObs)

/-- The once observers that no running `notifyAll` has copied. -/
def waiting (s : MyDelegate T) : SortedMap Int T :=
  if s.onceObservers ∈ s.running.map Notify.onceObs then .empty
  else s.onceMaps.get s.onceObservers

/-- An id is in one map only, and a map that is not empty with one `notifyAll` only. -/
structure Owned (s : MyDelegate T) : Prop where
  once_lt : s.onceObservers < s.onceMaps.made
  obs_lt : ∀ n ∈ s.running, n.onceObs < s.onceMaps.made
  numbers : (s.running.map Notify.number).Nodup
  number_lt : ∀ n ∈ s.running, n.number < s.notified
  keys : ∀ i, ∀ e ∈ (s.onceMaps.get i).entries, e.1 ≤ s.id ∧ e.1 % 2 = 0
  disjoint : ∀ i j, ∀ e ∈ (s.onceMaps.get i).entries, ∀ e' ∈ (s.onceMaps.get j).entries,
    e.1 = e'.1 → i = j
  alone : ∀ n ∈ s.running, ∀ n' ∈ s.running, n.onceObs = n'.onceObs →
    (s.onceMaps.get n.onceObs).entries ≠ [] → n = n'

structure Inv (s : MyDelegate T) : Prop extends Owned s where
  pos : ∀ n ∈ s.running, n.pos.AtFirst (s.onceMaps.get n.onceObs)

theorem inv_init : (init : MyDelegate T).Inv where
  once_lt := Nat.zero_lt_one
  obs_lt := fun _ h => absurd h List.not_mem_nil
  numbers := List.nodup_nil
  number_lt := fun _ h => absurd h List.not_mem_nil
  pos := fun _ h => absurd h List.not_mem_nil
  keys := fun _ _ h => absurd h List.not_mem_nil
  disjoint := fun _ _ _ h => absurd h List.not_mem_nil
  alone := fun _ h => absurd h List.not_mem_nil

section

variable {s : MyDelegate T} {f : SortedMap Int T → SortedMap Int T} {n : Notify} {thd k : Nat}
  {e : Int × T}

theorem mem_of_current (h : s.current thd = some n) : n ∈ s.running := Keyed.mem_of_lookup h

theorem Owned.lookup_number (hi : s.Owned) (h : n ∈ s.running) :
    Keyed.lookup Notify.number n.number s.running = some n :=
  (Keyed.lookup_eq_some_iff hi.numbers).mpr ⟨h, rfl⟩

theorem exists_of_mem_remaining (h : e ∈ s.remaining k) :
    ∃ n ∈ s.running, n.number = k ∧ e ∈ n.pos.remaining (s.onceMaps.get n.onceObs) := by
  rw [remaining] at h
  cases hn : Keyed.lookup Notify.number k s.running with
  | none =>
    rw [hn] at h
    exact absurd h List.not_mem_nil
  | some n =>
    rw [hn] at h
    exact ⟨n, Keyed.mem_of_lookup hn, Keyed.key_of_lookup hn, h⟩

theorem Inv.remaining_of_le (hi : s.Inv) (hk : s.notified ≤ k) : s.remaining k = [] := by
  refine List.eq_nil_iff_forall_not_mem.mpr fun e he => ?_
  obtain ⟨n, hn, rfl, -⟩ := exists_of_mem_remaining he
  exact absurd (hi.number_lt n hn) (Nat.not_lt.mpr hk)

theorem mem_waiting (h : e ∈ s.waiting.entries) :
    s.onceObservers ∉ s.running.map Notify.onceObs ∧
      e ∈ (s.onceMaps.get s.onceObservers).entries := by
  rw [waiting] at h
  split at h
  · exact absurd h List.not_mem_nil
  · exact ⟨‹_›, h⟩

theorem Inv.obs_made (hi : s.Inv) : ∀ j ∈ s.running.map Notify.onceObs, j < s.onceMaps.made := by
  intro j hj
  obtain ⟨n, hn, rfl⟩ := List.mem_map.mp hj
  exact hi.obs_lt n hn

theorem changeOnce_get_of_ne {j : MapId} (hj : j ≠ (s.changeOnce f).onceObservers) :
    (s.changeOnce f).onceMaps.get j = s.onceMaps.get j :=
  (Store.modify_get_of_ne hj).trans (Store.own_get_of_ne hj)

theorem Inv.changeOnce_not_mem (hi : s.Inv) :
    (s.changeOnce f).onceObservers ∉ s.running.map Notify.onceObs := Store.own_not_mem hi.obs_made

theorem Inv.changeOnce_obs (hi : s.Inv) (hn : n ∈ s.running) :
    (s.changeOnce f).onceMaps.get n.onceObs = s.onceMaps.get n.onceObs :=
  changeOnce_get_of_ne fun heq =>
    hi.changeOnce_not_mem (heq ▸ List.mem_map_of_mem hn : (s.changeOnce f).onceObservers ∈ _)

theorem changeOnce_get (s : MyDelegate T) (f : SortedMap Int T → SortedMap Int T) :
    (s.changeOnce f).onceMaps.get (s.changeOnce f).onceObservers = f s.waiting := by
  rw [changeOnce, Store.modify_get, Store.own_value, waiting]

theorem Inv.changeOnce_waiting (hi : s.Inv) (f : SortedMap Int T → SortedMap Int T) :
    (s.changeOnce f).waiting = f s.waiting := by
  rw [← changeOnce_get s f]
  exact if_neg hi.changeOnce_not_mem

theorem Inv.changeOnce_remaining (hi : s.Inv) (k : Nat) :
    (s.changeOnce f).remaining k = s.remaining k := by
  rw [remaining, remaining]
  show (Keyed.lookup Notify.number k s.running).elim _ _ = _
  cases h : Keyed.lookup Notify.number k s.running with
  | none => rfl
  | some n => exact congrArg n.pos.remaining (hi.changeOnce_obs (Keyed.mem_of_lookup h))

theorem mem_changeOnce {j : MapId}
    (hf : ∀ m, ∀ e ∈ (f m).entries, e ∈ m.entries ∨ ∀ i, ∀ e' ∈ (s.onceMaps.get i).entries, e'.1 < e.1)
    (he : e ∈ ((s.changeOnce f).onceMaps.get j).entries) : e ∈ (s.onceMaps.get j).entries ∨
      j = (s.changeOnce f).onceObservers ∧ ∀ i, ∀ e' ∈ (s.onceMaps.get i).entries, e'.1 < e.1 := by
  by_cases hj : j = (s.changeOnce f).onceObservers
  · subst hj
    rw [changeOnce_get] at he
    obtain hw | hnew := hf _ e he
    · obtain ⟨hmem, hw⟩ := mem_waiting hw
      have hsame : (s.changeOnce f).onceObservers = s.onceObservers := by
        rw [changeOnce, Store.own_of_not_mem hmem]
      exact .inl (hsame ▸ hw)
    · exact .inr ⟨rfl, hnew⟩
  · rw [changeOnce_get_of_ne hj] at he
    exact .inl he

theorem Inv.changeOnce (hi : s.Inv)
    (hkeys : ∀ m, ∀ e ∈ (f m).entries, e ∈ m.entries ∨ e.1 ≤ s.id ∧ e.1 % 2 = 0)
    (hf : ∀ m, ∀ e ∈ (f m).entries, e ∈ m.entries ∨
      ∀ i, ∀ e' ∈ (s.onceMaps.get i).entries, e'.1 < e.1) : (s.changeOnce f).Inv where
  once_lt := Store.own_lt hi.once_lt
  obs_lt := fun n hn => lt_of_lt_of_le (hi.obs_lt n hn) Store.own_made
  numbers := hi.numbers
  number_lt := hi.number_lt
  pos := fun n hn => by
    rw [hi.changeOnce_obs hn]
    exact hi.pos n hn
  keys := fun j e he => by
    by_cases hj : j = (s.changeOnce f).onceObservers
    · rw [hj, changeOnce_get] at he
      obtain hw | hnew := hkeys _ e he
      · exact hi.keys _ e (mem_waiting hw).2
      · exact hnew
    · rw [changeOnce_get_of_ne hj] at he
      exact hi.keys j e he
  disjoint := fun i j e he e' he' heq => by
    obtain he | ⟨hei, hnew⟩ := mem_changeOnce hf he
    · obtain he' | ⟨-, hnew'⟩ := mem_changeOnce hf he'
      · exact hi.disjoint i j e he e' he' heq
      · exact absurd heq (ne_of_lt (hnew' i e he))
    · obtain he' | ⟨hej, -⟩ := mem_changeOnce hf he'
      · exact absurd heq.symm (ne_of_lt (hnew j e' he'))
      · exact hei.trans hej.symm
  alone := fun n hn n' hn' heq hne => by
    rw [hi.changeOnce_obs hn] at hne
    exact hi.alone n hn n' hn' heq hne

theorem Inv.copy (hi : s.Inv) (hd : s.onceObservers ∉ s.running.map Notify.onceObs ∨
    (s.onceMaps.get s.onceObservers).entries = []) : (s.copy thd).Inv where
  once_lt := hi.once_lt
  obs_lt := by
    intro n hn
    obtain rfl | hn := List.mem_cons.mp hn
    · exact hi.once_lt
    · exact hi.obs_lt n hn
  numbers := by
    refine List.nodup_cons.mpr ⟨fun hmem => ?_, hi.numbers⟩
    obtain ⟨n, hn, hnumber⟩ := List.mem_map.mp hmem
    exact absurd (hi.number_lt n hn) (by rw [hnumber]; exact lt_irrefl _)
  number_lt := by
    intro n hn
    obtain rfl | hn := List.mem_cons.mp hn
    · exact Nat.lt_succ_self _
    · exact Nat.lt_succ_of_lt (hi.number_lt n hn)
  pos := by
    intro n hn
    obtain rfl | hn := List.mem_cons.mp hn
    · trivial
    · exact hi.pos n hn
  keys := hi.keys
  disjoint := hi.disjoint
  alone := by
    have hold : ∀ n ∈ s.running, n.onceObs = s.onceObservers →
        (s.onceMaps.get s.onceObservers).entries = [] := fun n hn heq =>
      hd.resolve_left fun hmem => hmem (heq ▸ List.mem_map_of_mem hn : s.onceObservers ∈ _)
    intro n hn n' hn' heq hne
    obtain rfl | hn := List.mem_cons.mp hn
    · obtain rfl | hn' := List.mem_cons.mp hn'
      · rfl
      · exact absurd (hold n' hn' heq.symm) hne
    · obtain rfl | hn' := List.mem_cons.mp hn'
      · exact absurd (heq ▸ hold n hn heq) hne
      · exact hi.alone n hn n' hn' heq hne

theorem copy_remaining (s : MyDelegate T) (thd k : Nat) :
    (s.copy thd).remaining k = if k = s.notified then (s.onceMaps.get s.onceObservers).entries
      else s.remaining k := by
  simp only [remaining, copy, Keyed.lookup_cons]
  by_cases hk : k = s.notified
  · rw [if_pos hk.symm, if_pos hk]
    rfl
  · rw [if_neg (Ne.symm hk), if_neg hk]

theorem copy_waiting (s : MyDelegate T) (thd : Nat) : (s.copy thd).waiting = .empty :=
  if_pos List.mem_cons_self

theorem resetOnce_get_of_ne {j : MapId} (hj : j ≠ s.onceMaps.made) :
    s.resetOnce.onceMaps.get j = s.onceMaps.get j := Function.update_of_ne hj _ _

theorem resetOnce_get (s : MyDelegate T) : s.resetOnce.onceMaps.get s.onceMaps.made = .empty :=
  Function.update_self _ _ _

theorem Inv.resetOnce_obs (hi : s.Inv) (hn : n ∈ s.running) :
    s.resetOnce.onceMaps.get n.onceObs = s.onceMaps.get n.onceObs :=
  resetOnce_get_of_ne (Nat.ne_of_lt (hi.obs_lt n hn))

theorem resetOnce_waiting (s : MyDelegate T) : s.resetOnce.waiting = .empty := by
  rw [waiting]
  split
  · rfl
  · exact s.resetOnce_get

theorem Inv.resetOnce_remaining (hi : s.Inv) (k : Nat) :
    s.resetOnce.remaining k = s.remaining k := by
  rw [remaining, remaining]
  show (Keyed.lookup Notify.number k s.running).elim _ _ = _
  cases h : Keyed.lookup Notify.number k s.running with
  | none => rfl
  | some n => exact congrArg n.pos.remaining (hi.resetOnce_obs (Keyed.mem_of_lookup h))

theorem mem_resetOnce {j : MapId} (he : e ∈ (s.resetOnce.onceMaps.get j).entries) :
    e ∈ (s.onceMaps.get j).entries := by
  by_cases hj : j = s.onceMaps.made
  · rw [hj, resetOnce_get] at he
    exact absurd he List.not_mem_nil
  · rwa [resetOnce_get_of_ne hj] at he

theorem Inv.resetOnce (hi : s.Inv) : s.resetOnce.Inv where
  once_lt := Nat.lt_succ_self _
  obs_lt := fun n hn => Nat.lt_succ_of_lt (hi.obs_lt n hn)
  numbers := hi.numbers
  number_lt := hi.number_lt
  pos := fun n hn => by
    rw [hi.resetOnce_obs hn]
    exact hi.pos n hn
  keys := fun j e he => hi.keys j e (mem_resetOnce he)
  disjoint := fun i j e he e' he' =>
    hi.disjoint i j e (mem_resetOnce he) e' (mem_resetOnce he')
  alone := fun n hn n' hn' heq hne => by
    rw [hi.resetOnce_obs hn] at hne
    exact hi.alone n hn n' hn' heq hne

theorem mem_goto (hi : s.Owned) (hn : n ∈ s.running) {pos : Pos} {n' : Notify} :
    n' ∈ (s.goto n pos).running ↔ n' = n.at pos ∨ n' ∈ s.running ∧ n'.number ≠ n.number := by
  rw [goto, Keyed.mem_update hi.numbers (List.mem_map_of_mem hn)]
  refine or_congr_left ⟨fun ⟨y, hy, hk, he⟩ => ?_, fun he => ⟨n, hn, rfl, he⟩⟩
  rw [he, List.inj_on_of_nodup_map hi.numbers hy hn hk]

theorem map_onceObs_goto (s : MyDelegate T) (n : Notify) (pos : Pos) :
    (s.goto n pos).running.map Notify.onceObs = s.running.map Notify.onceObs := by
  rw [goto]
  generalize s.running = l
  induction l with
  | nil => rfl
  | cons m l ih =>
    simp only [Keyed.update]
    split
    · rfl
    · rw [List.map_cons, List.map_cons, ih]

theorem goto_waiting (s : MyDelegate T) (n : Notify) (pos : Pos) :
    (s.goto n pos).waiting = s.waiting := by
  rw [waiting, map_onceObs_goto]
  rfl

theorem Owned.goto_remaining (hi : s.Owned) (hn : n ∈ s.running) (pos : Pos) (k : Nat) :
    (s.goto n pos).remaining k =
      if k = n.number then pos.remaining (s.onceMaps.get n.onceObs) else s.remaining k := by
  simp only [remaining, MyDelegate.goto]
  by_cases hk : k = n.number
  · rw [if_pos hk, hk, Keyed.lookup_update_self fun m h => (m.at_number pos).trans h,
      hi.lookup_number hn]
    rfl
  · rw [if_neg hk, Keyed.lookup_update_of_ne (fun m h => (m.at_number pos).trans h) hk]

theorem Owned.goto (hi : s.Owned) (hn : n ∈ s.running) (pos : Pos) : (s.goto n pos).Owned where
  once_lt := hi.once_lt
  obs_lt := by
    intro n' hn'
    obtain rfl | ⟨hn', -⟩ := (mem_goto hi hn).mp hn'
    · exact hi.obs_lt n hn
    · exact hi.obs_lt n' hn'
  numbers := by
    rw [MyDelegate.goto, Keyed.update_keys fun m h => (m.at_number pos).trans h]
    exact hi.numbers
  number_lt := by
    intro n' hn'
    obtain rfl | ⟨hn', -⟩ := (mem_goto hi hn).mp hn'
    · exact hi.number_lt n hn
    · exact hi.number_lt n' hn'
  keys := hi.keys
  disjoint := hi.disjoint
  alone := by
    intro n₁ h₁ n₂ h₂ heq hne
    obtain rfl | ⟨h₁, hne₁⟩ := (mem_goto hi hn).mp h₁
    · obtain rfl | ⟨h₂, hne₂⟩ := (mem_goto hi hn).mp h₂
      · rfl
      · exact absurd (congrArg Notify.number (hi.alone n hn n₂ h₂ heq hne)).symm hne₂
    · obtain rfl | ⟨h₂, -⟩ := (mem_goto hi hn).mp h₂
      · exact absurd (congrArg Notify.number (hi.alone n₁ h₁ n hn heq hne)) hne₁
      · exact hi.alone n₁ h₁ n₂ h₂ heq hne

theorem Inv.goto (hi : s.Inv) (hn : n ∈ s.running) {pos : Pos}
    (hpos : pos.AtFirst (s.onceMaps.get n.onceObs)) : (s.goto n pos).Inv where
  toOwned := hi.toOwned.goto hn pos
  pos := by
    intro n' hn'
    obtain rfl | ⟨hn', -⟩ := (mem_goto hi.toOwned hn).mp hn'
    · exact hpos
    · exact hi.pos n' hn'

theorem eraseOnce_get_of_ne {id : Int} {j : MapId} (hj : j ≠ n.onceObs) :
    (s.eraseOnce n id).onceMaps.get j = s.onceMaps.get j := by
  rw [eraseOnce, Store.modify_get_of_ne hj]

theorem eraseOnce_get (s : MyDelegate T) (n : Notify) (id : Int) :
    (s.eraseOnce n id).onceMaps.get n.onceObs = (s.onceMaps.get n.onceObs).erase id := by
  rw [eraseOnce, Store.modify_get]

theorem mem_eraseOnce {id : Int} {j : MapId}
    (he : e ∈ ((s.eraseOnce n id).onceMaps.get j).entries) : e ∈ (s.onceMaps.get j).entries := by
  by_cases hj : j = n.onceObs
  · rw [hj, eraseOnce_get] at he
    exact hj ▸ (SortedMap.mem_erase.mp he).1
  · rwa [eraseOnce_get_of_ne hj] at he

theorem Owned.eraseOnce (hi : s.Owned) (n : Notify) (id : Int) : (s.eraseOnce n id).Owned where
  once_lt := hi.once_lt
  obs_lt := hi.obs_lt
  numbers := hi.numbers
  number_lt := hi.number_lt
  keys := fun j e he => hi.keys j e (mem_eraseOnce he)
  disjoint := fun i j e he e' he' =>
    hi.disjoint i j e (mem_eraseOnce he) e' (mem_eraseOnce he')
  alone := fun n₁ h₁ n₂ h₂ heq hne => by
    obtain ⟨e, he⟩ := List.exists_mem_of_ne_nil _ hne
    exact hi.alone n₁ h₁ n₂ h₂ heq (List.ne_nil_of_mem (mem_eraseOnce he))

theorem Inv.eraseOnce_obs (hi : s.Inv) (hn : n ∈ s.running) {id : Int}
    (hpos : n.pos = .onceCalling id) {n' : Notify} (hn' : n' ∈ s.running)
    (hne : n'.number ≠ n.number) :
    (s.eraseOnce n id).onceMaps.get n'.onceObs = s.onceMaps.get n'.onceObs := by
  refine eraseOnce_get_of_ne fun heq => hne ?_
  have hfirst := hi.pos n hn
  rw [hpos] at hfirst
  refine congrArg Notify.number (hi.alone n hn n' hn' heq.symm fun hnil => ?_).symm
  rw [Pos.AtFirst, SortedMap.first, hnil] at hfirst
  cases hfirst

theorem Inv.onceBack (hi : s.Inv) (hn : n ∈ s.running) {id : Int}
    (hpos : n.pos = .onceCalling id) : (s.onceBack n id).Inv where
  toOwned := (hi.toOwned.eraseOnce n id).goto hn _
  pos := by
    intro n' hn'
    obtain rfl | ⟨hn', hne⟩ := (mem_goto (hi.toOwned.eraseOnce n id) hn).mp hn'
    · have hfirst := hi.pos n hn
      rw [hpos] at hfirst
      show ((s.eraseOnce n id).onceMaps.get n.onceObs).first = _
      rw [eraseOnce_get, SortedMap.next_of_first hfirst]
    · show n'.pos.AtFirst ((s.eraseOnce n id).onceMaps.get n'.onceObs)
      rw [hi.eraseOnce_obs hn hpos hn' hne]
      exact hi.pos n' hn'

theorem Inv.onceBack_remaining (hi : s.Inv) (hn : n ∈ s.running) {id : Int}
    (hpos : n.pos = .onceCalling id) (k : Nat) : (s.onceBack n id).remaining k = s.remaining k := by
  rw [MyDelegate.onceBack, (hi.toOwned.eraseOnce n id).goto_remaining hn]
  by_cases hk : k = n.number
  · have hfirst := hi.pos n hn
    rw [hpos] at hfirst
    rw [if_pos hk, hk, remaining, hi.lookup_number hn, Option.elim_some, hpos, eraseOnce_get]
    exact SortedMap.erase_first hfirst
  · rw [if_neg hk, remaining, remaining]
    show (Keyed.lookup Notify.number k s.running).elim _ _ = _
    cases h : Keyed.lookup Notify.number k s.running with
    | none => rfl
    | some n' =>
      have hne : n'.number ≠ n.number := fun heq => hk ((Keyed.key_of_lookup h).symm.trans heq)
      exact congrArg n'.pos.remaining (hi.eraseOnce_obs hn hpos (Keyed.mem_of_lookup h) hne)

theorem onceBack_waiting (hn : n ∈ s.running) (id : Int) :
    (s.onceBack n id).waiting = s.waiting := by
  rw [onceBack, goto_waiting, waiting, waiting]
  show (if s.onceObservers ∈ s.running.map Notify.onceObs then _ else _) = _
  by_cases hmem : s.onceObservers ∈ s.running.map Notify.onceObs
  · rw [if_pos hmem, if_pos hmem]
  · rw [if_neg hmem, if_neg hmem]
    exact eraseOnce_get_of_ne fun heq => hmem (heq ▸ List.mem_map_of_mem hn)

theorem Inv.ret (hi : s.Inv) : (s.ret n).Inv where
  once_lt := hi.once_lt
  obs_lt := fun n' hn' => hi.obs_lt n' (List.mem_of_mem_filter hn')
  numbers := hi.numbers.sublist (List.filter_sublist.map _)
  number_lt := fun n' hn' => hi.number_lt n' (List.mem_of_mem_filter hn')
  keys := hi.keys
  disjoint := hi.disjoint
  alone := fun n₁ h₁ n₂ h₂ =>
    hi.alone n₁ (List.mem_of_mem_filter h₁) n₂ (List.mem_of_mem_filter h₂)
  pos := fun n' hn' => hi.pos n' (List.mem_of_mem_filter hn')

theorem Inv.entries_of_ret (hi : s.Inv) (hn : n ∈ s.running) (hpos : n.pos = .onceLoop none) :
    s.onceMaps.get n.onceObs = .empty := by
  have hfirst := hi.pos n hn
  rw [hpos] at hfirst
  exact SortedMap.eq_empty_of_first hfirst

theorem Inv.ret_remaining (hi : s.Inv) (hn : n ∈ s.running) (hpos : n.pos = .onceLoop none)
    (k : Nat) : (s.ret n).remaining k = s.remaining k := by
  simp only [remaining, MyDelegate.ret, Keyed.lookup_filter]
  by_cases hk : k = n.number
  · rw [if_pos hk, hk, hi.lookup_number hn, Option.elim_some, hpos, hi.entries_of_ret hn hpos]
    rfl
  · rw [if_neg hk]

theorem Inv.ret_waiting (hi : s.Inv) (hn : n ∈ s.running) (hpos : n.pos = .onceLoop none) :
    (s.ret n).waiting = s.waiting := by
  by_cases hret : (s.ret n).onceObservers ∈ (s.ret n).running.map Notify.onceObs
  · have hmem := (List.filter_sublist.map Notify.onceObs).subset hret
    exact (if_pos hret).trans (if_pos hmem).symm
  · refine (if_neg hret).trans ?_
    rw [waiting]
    split
    · rename_i hmem
      -- only the one that returns had it
      obtain ⟨n', hn', heq⟩ := List.mem_map.mp hmem
      have hnumber : n'.number = n.number := by
        by_contra hne
        exact hret (List.mem_map.mpr ⟨n', List.mem_filter.mpr ⟨hn', by simpa using hne⟩, heq⟩)
      obtain rfl := List.inj_on_of_nodup_map hi.numbers hn' hn hnumber
      exact (congrArg s.onceMaps.get heq).symm.trans (hi.entries_of_ret hn hpos)
    · rfl

end

end MyDelegate

end AlgorithmLib.DelegateOnce
