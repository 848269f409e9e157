/-!
Programs with exceptions that call an environment. What the environment answers is a list that is
given beforehand; a program that asks for something else, or for more, has no outcome. A raise keeps
what was done before it.
-/

set_option autoImplicit false

namespace AlgorithmLib

def Answered (σ ρ ε α : Type) : Type := σ → List ρ → Option (Except ε α × σ × List ρ)

namespace Answered

variable {σ ρ ε α β : Type}

instance : Monad (Answered σ ρ ε) where
  pure a := fun s rs => some (.ok a, s, rs)
  bind m f := fun s rs =>
    match m s rs with
    | none => none
    | some (.ok a, t, rest) => f a t rest
    | some (.error e, t, rest) => some (.error e, t, rest)

def raise (e : ε) : Answered σ ρ ε α := fun s rs => some (.error e, s, rs)

def state : Answered σ ρ ε σ := fun s rs => some (.ok s, s, rs)

def change (f : σ → σ) : Answered σ ρ ε Unit := fun s rs => some (.ok (), f s, rs)

/-- The next answer, if it is one to this question. -/
def ask (answer : ρ → Option β) : Answered σ ρ ε β
  | _, [] => none
  | s, r :: rs => (answer r).map fun b => (.ok b, s, rs)

def stuck : Answered σ ρ ε α := fun _ _ => none

def tryExcept (m : Answered σ ρ ε α) (handler : ε → Answered σ ρ ε α) : Answered σ ρ ε α :=
  fun s rs =>
    match m s rs with
    | some (.error e, t, rest) => handler e t rest
    | outcome => outcome

def andFinally (m : Answered σ ρ ε α) (last : Answered σ ρ ε Unit) : Answered σ ρ ε α :=
  fun s rs =>
    match m s rs with
    | none => none
    | some (x, t, rest) =>
      match last t rest with
      | none => none
      | some (.error e, u, rest) => some (.error e, u, rest)
      | some (.ok _, u, rest) => some (x, u, rest)

/-- Whatever allowed answers the program gets from this state on, it ends like this. -/
def Ensures (allowed : ρ → Prop) (m : Answered σ ρ ε α) (s : σ) (post : Except ε α → σ → Prop) :
    Prop :=
  ∀ rs x t rest, (∀ r ∈ rs, allowed r) → m s rs = some (x, t, rest) →
    post x t ∧ ∀ r ∈ rest, allowed r

namespace Ensures

variable {allowed : ρ → Prop} {m : Answered σ ρ ε α} {f : α → Answered σ ρ ε β} {s : σ}
  {M post : Except ε α → σ → Prop} {post' : Except ε β → σ → Prop}

theorem mono (h : Ensures allowed m s M) (himp : ∀ x t, M x t → post x t) :
    Ensures allowed m s post := by
  intro rs x t rest hrs hrun
  obtain ⟨hmid, hrest⟩ := h rs x t rest hrs hrun
  exact ⟨himp x t hmid, hrest⟩

theorem and (h : Ensures allowed m s M) (h' : Ensures allowed m s post) :
    Ensures allowed m s (fun x t => M x t ∧ post x t) := by
  intro rs x t rest hrs hrun
  obtain ⟨hmid, hrest⟩ := h rs x t rest hrs hrun
  exact ⟨⟨hmid, (h' rs x t rest hrs hrun).1⟩, hrest⟩

theorem pure {a : α} (h : post (.ok a) s) : Ensures allowed (Pure.pure a) s post := by
  rintro rs x t rest hrs ⟨⟩
  exact ⟨h, hrs⟩

theorem raise {e : ε} (h : post (.error e) s) : Ensures allowed (Answered.raise e) s post := by
  rintro rs x t rest hrs ⟨⟩
  exact ⟨h, hrs⟩

theorem change {g : σ → σ} {post : Except ε Unit → σ → Prop} (h : post (.ok ()) (g s)) :
    Ensures allowed (Answered.change g) s post := by
  rintro rs x t rest hrs ⟨⟩
  exact ⟨h, hrs⟩

theorem stuck : Ensures allowed Answered.stuck s post := by
  intro rs x t rest _ hrun
  cases hrun

theorem bind (h : Ensures allowed m s M)
    (hok : ∀ a t, M (.ok a) t → Ensures allowed (f a) t post')
    (hraise : ∀ e t, M (.error e) t → post' (.error e) t) :
    Ensures allowed (m >>= f) s post' := by
  intro rs x t rest hrs hrun
  rcases hm : m s rs with _ | ⟨y, u, rest'⟩
  · simp [Bind.bind, hm] at hrun
  · obtain ⟨hmid, hrest⟩ := h rs y u rest' hrs hm
    cases y with
    | ok a =>
      simp only [Bind.bind, hm] at hrun
      exact hok a u hmid rest' x t rest hrest hrun
    | error e =>
      simp only [Bind.bind, hm] at hrun
      cases hrun
      exact ⟨hraise e _ hmid, hrest⟩

theorem bind_state {f : σ → Answered σ ρ ε β} (h : Ensures allowed (f s) s post') :
    Ensures allowed (state >>= f) s post' := h

theorem bind_change {g : σ → σ} {f : Unit → Answered σ ρ ε β}
    (h : Ensures allowed (f ()) (g s) post') : Ensures allowed (Answered.change g >>= f) s post' := h

theorem bind_ask {γ : Type} {answer : ρ → Option γ} {f : γ → Answered σ ρ ε β}
    (h : ∀ r b, allowed r → answer r = some b → Ensures allowed (f b) s post') :
    Ensures allowed (ask answer >>= f) s post' := by
  intro rs x t rest hrs hrun
  cases rs with
  | nil => cases hrun
  | cons r rs =>
    simp only [Bind.bind, ask] at hrun
    cases hb : answer r with
    | none => simp [hb] at hrun
    | some b =>
      simp only [hb, Option.map_some] at hrun
      exact h r b (hrs r List.mem_cons_self) hb rs x t rest
        (fun r hr => hrs r (List.mem_cons_of_mem _ hr)) hrun

theorem tryExcept {handler : ε → Answered σ ρ ε α} (h : Ensures allowed m s M)
    (hok : ∀ a t, M (.ok a) t → post (.ok a) t)
    (hraise : ∀ e t, M (.error e) t → Ensures allowed (handler e) t post) :
    Ensures allowed (Answered.tryExcept m handler) s post := by
  intro rs x t rest hrs hrun
  unfold Answered.tryExcept at hrun
  split at hrun
  next e u rest' hm =>
    obtain ⟨hmid, hrest⟩ := h rs _ u rest' hrs hm
    exact hraise e u hmid rest' x t rest hrest hrun
  next hnone =>
    obtain ⟨hmid, hrest⟩ := h rs x t rest hrs hrun
    cases x with
    | ok a => exact ⟨hok a t hmid, hrest⟩
    | error e => exact absurd hrun (hnone e t rest)

theorem andFinally {last : Answered σ ρ ε Unit} (h : Ensures allowed m s M)
    (hlast : ∀ x t, M x t → Ensures allowed last t (fun y u =>
      (y = .ok () → post x u) ∧ ∀ e, y = .error e → post (.error e) u)) :
    Ensures allowed (Answered.andFinally m last) s post := by
  intro rs x t rest hrs hrun
  rcases hm : m s rs with _ | ⟨y, u, rest'⟩
  · simp [Answered.andFinally, hm] at hrun
  · obtain ⟨hmid, hrest⟩ := h rs y u rest' hrs hm
    rcases hv : last u rest' with _ | ⟨z, v, rest''⟩
    · simp [Answered.andFinally, hm, hv] at hrun
    · obtain ⟨hpost, hleft⟩ := hlast y u hmid rest' z v rest'' hrest hv
      cases z with
      | ok a =>
        simp only [Answered.andFinally, hm, hv] at hrun
        cases hrun
        exact ⟨hpost.1 rfl, hleft⟩
      | error e =>
        simp only [Answered.andFinally, hm, hv] at hrun
        cases hrun
        exact ⟨hpost.2 e rfl, hleft⟩

end Ensures

end Answered

end AlgorithmLib
