import AlgorithmLib.Ini.Model

set_option autoImplicit false

namespace AlgorithmLib.Ini

open CInt Text

def Blank (s : List UInt8) : Prop := ∀ c ∈ s, isBlank c

instance (s : List UInt8) : Decidable (Blank s) := inferInstanceAs (Decidable (∀ c ∈ s, _))

def Spaces (s : List UInt8) : Prop := ∀ c ∈ s, isSpace c

/-- `ini_trim_left` stops here. -/
def Starts (s : List UInt8) : Prop := ∃ c str, s = c :: str ∧ isBlank c = false ∧ c ≠ hash

/-- The line has the key, and `rest` is what `ini_trim_left` leaves behind the equals sign. -/
structure Entry (line key pre mid gap rest : List UInt8) : Prop where
  line_eq : line = pre ++ (key ++ mid ++ equals :: (gap ++ rest))
  before : Blank pre
  between : Blank mid
  behind : Blank gap
  first : Starts (key ++ mid ++ equals :: (gap ++ rest))
  value : Starts rest

@[simp] theorem isBlank_equals : isBlank equals = false := rfl

@[simp] theorem isSpace_equals : isSpace equals = false := rfl

theorem isSpace_of_isBlank {c : UInt8} (h : isBlank c = true) : isSpace c = true := by
  simp [isSpace, h]

theorem isBlank_of_not_isSpace {c : UInt8} (h : isSpace c = false) : isBlank c = false := by
  simp only [isSpace, Bool.or_eq_false_iff] at h
  exact h.1.1

theorem starts_equals (s : List UInt8) : Starts (equals :: s) := ⟨equals, s, rfl, rfl, by decide⟩

theorem Starts.ne_nil {s : List UInt8} (h : Starts s) : s ≠ [] := by
  obtain ⟨c, str, rfl, -⟩ := h
  simp

theorem iniTrimLeft_eq_some {s r : List UInt8} :
    iniTrimLeft s = some r ↔ ∃ pre, s = pre ++ r ∧ Blank pre ∧ Starts r := by
  induction s with
  | nil =>
    simp only [iniTrimLeft, reduceCtorEq, false_iff, not_exists, not_and]
    intro pre h _ hstarts
    exact hstarts.ne_nil (List.append_eq_nil_iff.mp h.symm).2
  | cons c str ih =>
    rw [iniTrimLeft]
    cases hc : isBlank c with
    | true =>
      rw [if_pos rfl, ih]
      constructor
      · rintro ⟨pre, rfl, hpre, hstarts⟩
        exact ⟨c :: pre, rfl, by simpa [Blank, hc] using hpre, hstarts⟩
      · rintro ⟨pre, heq, hpre, hstarts⟩
        cases pre with
        | nil =>
          obtain ⟨c', str', rfl, hblank, -⟩ := hstarts
          simp only [List.nil_append, List.cons.injEq] at heq
          rw [heq.1, hblank] at hc
          exact absurd hc (by simp)
        | cons c' pre =>
          simp only [List.cons_append, List.cons.injEq] at heq
          exact ⟨pre, heq.2, fun x hx => hpre x (List.mem_cons_of_mem _ hx), hstarts⟩
    | false =>
      rw [if_neg (by simp)]
      constructor
      · intro h
        split at h
        · simp at h
        next hhash =>
          obtain rfl := Option.some.inj h
          exact ⟨[], rfl, by simp [Blank], c, str, rfl, hc, hhash⟩
      · rintro ⟨pre, heq, hpre, hstarts⟩
        cases pre with
        | nil =>
          obtain ⟨c', str', rfl, -, hhash⟩ := hstarts
          simp only [List.nil_append, List.cons.injEq] at heq
          rw [if_neg (heq.1 ▸ hhash), heq.1, heq.2]
        | cons c' pre =>
          simp only [List.cons_append, List.cons.injEq] at heq
          have hblank := hpre c' (by simp)
          rw [← heq.1, hc] at hblank
          exact absurd hblank (by simp)

theorem iniTrimLeft_of_starts {s : List UInt8} (h : Starts s) : iniTrimLeft s = some s :=
  iniTrimLeft_eq_some.mpr ⟨[], rfl, by simp [Blank], h⟩

theorem iniTrimLeft_append {pre s : List UInt8} (hpre : Blank pre) (h : Starts s) :
    iniTrimLeft (pre ++ s) = some s :=
  iniTrimLeft_eq_some.mpr ⟨pre, rfl, hpre, h⟩

theorem iniTrimRightLoop_append (str more : List UInt8) (len : Nat) (h : len < str.length) :
    iniTrimRightLoop (str ++ more) len = iniTrimRightLoop str len := by
  induction len with
  | zero => rfl
  | succ len ih =>
    have hget : (str ++ more).getD (len + 1) 0 = str.getD (len + 1) 0 := by
      rw [List.getD_eq_getElem?_getD, List.getD_eq_getElem?_getD, List.getElem?_append_left h]
    rw [iniTrimRightLoop, iniTrimRightLoop, hget, ih (by omega)]

theorem iniTrimRight_concat (str : List UInt8) (c : UInt8) :
    iniTrimRight (str ++ [c]) =
      if str = [] then none else if isSpace c then iniTrimRight str else some str.length := by
  cases hlen : str.length with
  | zero =>
    obtain rfl := List.length_eq_zero_iff.mp hlen
    rfl
  | succ len =>
    have hne : str ≠ [] := by rintro rfl; simp at hlen
    have hget : (str ++ [c]).getD (len + 1) 0 = c := by
      rw [← hlen]
      simp
    rw [iniTrimRight, iniTrimRight, if_neg hne, List.length_append, List.length_singleton,
      Nat.add_sub_cancel, hlen, iniTrimRightLoop, hget, Nat.add_sub_cancel,
      iniTrimRightLoop_append str [c] len (by omega)]

theorem iniTrimRight_append_spaces (str : List UInt8) {post : List UInt8} (h : Spaces post) :
    iniTrimRight (str ++ post) = iniTrimRight str := by
  induction post using List.reverseRecOn with
  | nil => simp
  | append_singleton post c ih =>
    have hc : isSpace c := h c (by simp)
    have hpost : Spaces post := fun x hx => h x (List.mem_append_left _ hx)
    rw [← List.append_assoc, iniTrimRight_concat, if_pos hc, ih hpost]
    split
    next hnil =>
      obtain ⟨rfl, -⟩ := List.append_eq_nil_iff.mp hnil
      rfl
    next => rfl

theorem iniTrimRight_cut (str : List UInt8) {post : List UInt8} {c : UInt8} (hstr : str ≠ [])
    (hc : isSpace c = false) (h : Spaces post) :
    iniTrimRight (str ++ c :: post) = some str.length := by
  have hassoc : str ++ c :: post = str ++ [c] ++ post := by simp
  rw [hassoc, iniTrimRight_append_spaces _ h, iniTrimRight_concat, if_neg hstr, if_neg (by simp [hc])]

theorem iniTrimRight_singleton {post : List UInt8} (c : UInt8) (h : Spaces post) :
    iniTrimRight (c :: post) = none := by
  have hcut := iniTrimRight_append_spaces [c] h
  exact hcut

/-- `ini_read_string` copies what stands behind the equals sign, up to the last character of the line
that is no space. -/
theorem iniCopy_eq_some {line key : List UInt8} {c : Copy} :
    iniCopy line key = some c ↔ ∃ pre mid gap rest last, Entry line key pre mid gap rest ∧
      iniTrimRight (key ++ mid ++ equals :: (gap ++ rest)) = some last ∧
      c.start = line.length - rest.length ∧
      c.len = (last : Int) + 1 - (key.length + mid.length + 1 + gap.length : Nat) := by
  constructor
  · intro h
    simp only [iniCopy, Option.bind_eq_bind, Option.bind_eq_some_iff, Option.guard_eq_some',
      exists_const, Option.some.injEq] at h
    obtain ⟨first, hfirst, last, hlast, hkey, b₁, hb₁, b₂, hb₂, heq, rest, hrest, rfl⟩ := h
    obtain ⟨pre, rfl, hpre, hstart⟩ := iniTrimLeft_eq_some.mp hfirst
    obtain ⟨mid, hmid, hblank, hb₁'⟩ := iniTrimLeft_eq_some.mp hb₁
    obtain rfl := Option.some.inj ((iniTrimLeft_of_starts hb₁').symm.trans hb₂)
    obtain ⟨c, b, rfl, -, -⟩ := hb₁'
    obtain rfl := Option.some.inj heq
    obtain ⟨gap, rfl, hgap, hvalue⟩ := iniTrimLeft_eq_some.mp hrest
    have hcut : first = key ++ mid ++ equals :: (gap ++ rest) := by
      rw [← List.take_append_drop key.length first, hkey, hmid, List.append_assoc]
    subst hcut
    refine ⟨pre, mid, gap, rest, last, ⟨rfl, hpre, hblank, hgap, hstart, hvalue⟩, hlast, rfl, ?_⟩
    simp only [List.length_append, List.length_cons]
    omega
  · rintro ⟨pre, mid, gap, rest, last, hentry, hlast, hstart, hlen⟩
    have hmid : iniTrimLeft (mid ++ equals :: (gap ++ rest)) = some (equals :: (gap ++ rest)) :=
      iniTrimLeft_append hentry.between (starts_equals _)
    have hgap : iniTrimLeft (gap ++ rest) = some rest :=
      iniTrimLeft_append hentry.behind hentry.value
    rw [List.append_assoc] at hlast
    have hlength := congrArg List.length hentry.line_eq
    simp only [List.length_append, List.length_cons] at hlength
    rw [iniCopy, hentry.line_eq, iniTrimLeft_append hentry.before hentry.first, ← hentry.line_eq]
    simp only [Option.bind_eq_bind, Option.bind_some, List.append_assoc, hlast, List.take_left,
      List.drop_left, hmid, iniTrimLeft_of_starts (starts_equals _), List.head?_cons,
      List.tail_cons, hgap, guard, if_true, Option.pure_def, Option.some.injEq]
    cases c
    simp only [Copy.mk.injEq, List.length_append, List.length_cons] at hstart hlen ⊢
    omega

namespace Entry

variable {line key pre mid gap rest : List UInt8}

theorem length_eq (h : Entry line key pre mid gap rest) :
    line.length = pre.length + key.length + mid.length + 1 + gap.length + rest.length := by
  have hlength := congrArg List.length h.line_eq
  simp only [List.length_append, List.length_cons] at hlength
  omega

/-- What stands behind the equals sign, from `start` on. -/
theorem drop_start (h : Entry line key pre mid gap rest) :
    line.drop (line.length - rest.length) = rest := by
  have hcut : line = pre ++ (key ++ mid ++ equals :: gap) ++ rest := by
    rw [h.line_eq]
    simp
  rw [hcut, List.length_append, Nat.add_sub_cancel, List.drop_left]

theorem spaces (h : Entry line key pre mid gap rest) (hrest : Spaces rest) :
    Spaces (gap ++ rest) := by
  intro c hc
  rcases List.mem_append.mp hc with hc | hc
  · exact isSpace_of_isBlank (h.behind c hc)
  · exact hrest c hc

theorem iniCopy_of_value {u w : List UInt8} {x : UInt8}
    (h : Entry line key pre mid gap (u ++ x :: w)) (hx : isSpace x = false) (hw : Spaces w) :
    iniCopy line key = some ⟨line.length - (u ++ x :: w).length, u.length + 1⟩ := by
  have hlast : iniTrimRight (key ++ mid ++ equals :: (gap ++ (u ++ x :: w))) =
      some (key ++ mid ++ equals :: (gap ++ u)).length := by
    have hcut := iniTrimRight_cut (key ++ mid ++ equals :: (gap ++ u)) (by simp) hx hw
    rw [← hcut]
    simp
  refine iniCopy_eq_some.mpr ⟨pre, mid, gap, _, _, h, hlast, rfl, ?_⟩
  simp only [List.length_append, List.length_cons]
  omega

/-- Without a value the equals sign is the last one, before `start`. -/
theorem iniCopy_of_spaces (h : Entry line key pre mid gap rest) (hkey : key ≠ [])
    (hrest : Spaces rest) :
    iniCopy line key = some ⟨line.length - rest.length, -gap.length⟩ := by
  have hlast := iniTrimRight_cut (key ++ mid) (by simp [hkey]) isSpace_equals (h.spaces hrest)
  refine iniCopy_eq_some.mpr ⟨pre, mid, gap, rest, _, h, hlast, rfl, ?_⟩
  simp only [List.length_append]
  omega

theorem iniTrimRight_of_no_key (h : Entry line [] pre mid gap rest) (hrest : Spaces rest) :
    iniTrimRight (mid ++ equals :: (gap ++ rest)) = none := by
  have hmid : mid = [] := by
    cases hcase : mid with
    | nil => rfl
    | cons c mid' =>
      obtain ⟨c', str, heq, hblank, -⟩ := h.first
      simp only [hcase, List.nil_append, List.cons_append, List.cons.injEq] at heq
      have hc := h.between c (by simp [hcase])
      rw [heq.1, hblank] at hc
      exact absurd hc (by simp)
  rw [hmid]
  exact iniTrimRight_singleton equals (h.spaces hrest)

end Entry

theorem iniCopy_cases {line key : List UInt8} {c : Copy} (h : iniCopy line key = some c) :
    ∃ pre mid gap rest, Entry line key pre mid gap rest ∧ c.start = line.length - rest.length ∧
      ((∃ u x w, rest = u ++ x :: w ∧ isSpace x = false ∧ Spaces w ∧ c.len = u.length + 1) ∨
        Spaces rest ∧ key ≠ [] ∧ c.len = -gap.length) := by
  obtain ⟨pre, mid, gap, rest, last, hentry, hlast, hstart, -⟩ := iniCopy_eq_some.mp h
  refine ⟨pre, mid, gap, rest, hentry, hstart, ?_⟩
  rcases all_or_cut_right isSpace rest with hspaces | ⟨u, x, w, rfl, hx, hw⟩
  · right
    have hkey : key ≠ [] := by
      rintro rfl
      rw [List.nil_append, hentry.iniTrimRight_of_no_key hspaces] at hlast
      exact absurd hlast (by simp)
    rw [hentry.iniCopy_of_spaces hkey hspaces] at h
    obtain rfl := Option.some.inj h
    exact ⟨hspaces, hkey, rfl⟩
  · left
    rw [hentry.iniCopy_of_value hx hw] at h
    obtain rfl := Option.some.inj h
    exact ⟨u, x, w, rfl, hx, hw, rfl⟩

end AlgorithmLib.Ini
