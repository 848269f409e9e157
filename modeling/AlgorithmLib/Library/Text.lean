import Mathlib.Data.List.Rotate

/-!
Text as a list of characters: where a class of characters cuts it, words that continue with
themselves, and lines as a reader with a buffer of limited size sees them.
-/

set_option autoImplicit false

namespace AlgorithmLib.Text

variable {α : Type}

/-- A text is cut in one way only behind the characters of a class it begins with. -/
theorem cut_left_unique {p : α → Bool} {pre pre' rest rest' : List α} {x x' : α}
    (hpre : ∀ c ∈ pre, p c) (hx : p x = false) (hpre' : ∀ c ∈ pre', p c) (hx' : p x' = false)
    (h : pre ++ x :: rest = pre' ++ x' :: rest') : pre = pre' ∧ x = x' ∧ rest = rest' := by
  have htake := congrArg (List.takeWhile p) h
  have hdrop := congrArg (List.dropWhile p) h
  rw [List.takeWhile_append_of_pos hpre, List.takeWhile_append_of_pos hpre'] at htake
  rw [List.dropWhile_append_of_pos hpre, List.dropWhile_append_of_pos hpre'] at hdrop
  simp only [List.takeWhile_cons, List.dropWhile_cons, hx, hx', List.append_nil,
    Bool.false_eq_true, if_false, List.cons.injEq] at htake hdrop
  exact ⟨htake, hdrop⟩

/-- It is cut in one way only before the characters of a class it ends with. -/
theorem cut_right_unique {p : α → Bool} {post post' rest rest' : List α} {x x' : α}
    (hpost : ∀ c ∈ post, p c) (hx : p x = false) (hpost' : ∀ c ∈ post', p c) (hx' : p x' = false)
    (h : rest ++ x :: post = rest' ++ x' :: post') : rest = rest' ∧ x = x' ∧ post = post' := by
  have hrev := congrArg List.reverse h
  simp only [List.reverse_append, List.reverse_cons, List.append_assoc, List.singleton_append]
    at hrev
  obtain ⟨hp, hxx, hr⟩ := cut_left_unique (by simpa using hpost) hx (by simpa using hpost') hx' hrev
  exact ⟨List.reverse_injective hr, hxx, List.reverse_injective hp⟩

/-- A text has only characters of a class, or a last one that is not of it. -/
theorem all_or_cut_right (p : α → Bool) (s : List α) :
    (∀ c ∈ s, p c) ∨ ∃ rest x post, s = rest ++ x :: post ∧ p x = false ∧ ∀ c ∈ post, p c := by
  induction s with
  | nil => exact .inl (by simp)
  | cons c s ih =>
    rcases ih with hall | ⟨rest, x, post, rfl, hx, hpost⟩
    · cases hc : p c with
      | true => exact .inl (by simpa [hc] using hall)
      | false => exact .inr ⟨[], c, s, rfl, hc, hall⟩
    · exact .inr ⟨c :: rest, x, post, rfl, hx, hpost⟩

/-- A word that begins as `u` followed by itself repeats `u`. -/
theorem drop_of_repeats (u v : List α) (h : v <+: u ++ v) :
    (u ++ v).drop v.length = u.rotate v.length := by
  rcases Nat.lt_or_ge v.length u.length with hlt | hge
  · have hv : v = u.take v.length :=
      (List.prefix_iff_eq_take.mp h).trans (List.take_append_of_le_length hlt.le)
    rw [List.rotate_eq_drop_append_take hlt.le, List.drop_append_of_le_length hlt.le, ← hv]
  · obtain ⟨v', rfl⟩ := List.prefix_of_prefix_length_le (List.prefix_append u v) h hge
    by_cases hu : u = []
    · simp [hu]
    · have hpos := List.length_pos_iff.mpr hu
      have h' : v' <+: u ++ v' := (List.prefix_append_right_inj u).mp h
      rw [List.length_append, ← List.rotate_rotate, List.rotate_length, ← drop_of_repeats u v' h',
        List.drop_append, List.drop_of_length_le (by omega), List.nil_append, Nat.add_sub_cancel_left]
termination_by v.length
decreasing_by rw [← ‹_ = v›, List.length_append]; omega

/-- The lines that are read, and what is read of the next one. -/
structure Reader (α : Type) where
  complete : List (List α)
  current : List α

namespace Reader

variable [DecidableEq α] {sep : α} {size : Nat}

/-- A line ends with `sep`, or when the buffer is full. -/
def feed (sep : α) (size : Nat) (s : Reader α) (c : α) : Reader α :=
  let line := s.current ++ [c]
  if c = sep ∨ line.length = size then ⟨s.complete ++ [line], []⟩ else ⟨s.complete, line⟩

def scan (sep : α) (size : Nat) (text : List α) : Reader α := text.foldl (feed sep size) ⟨[], []⟩

/-- The last line may be without its end. -/
def lines (s : Reader α) : List (List α) :=
  s.complete ++ if s.current = [] then [] else [s.current]

theorem scan_append (text more : List α) :
    scan sep size (text ++ more) = more.foldl (feed sep size) (scan sep size text) :=
  List.foldl_append

/-- The buffer is never full, and never holds a whole line. -/
theorem scan_current (sep : α) (hsize : 0 < size) (text : List α) :
    (scan sep size text).current.length < size ∧ sep ∉ (scan sep size text).current := by
  induction text using List.reverseRecOn with
  | nil => exact ⟨hsize, by simp [scan]⟩
  | append_singleton text c ih =>
    rw [scan_append, List.foldl_cons, List.foldl_nil, feed]
    split
    next => exact ⟨hsize, by simp⟩
    next hc =>
      simp only [not_or, List.length_append, List.length_singleton] at hc
      refine ⟨?_, ?_⟩
      · simp only [List.length_append, List.length_singleton]
        omega
      · simp only [List.mem_append, List.mem_singleton, not_or]
        exact ⟨ih.2, Ne.symm hc.1⟩

theorem length_le_of_mem_lines (hsize : 0 < size) (text line : List α)
    (h : line ∈ (scan sep size text).lines) : line.length ≤ size := by
  have hcomplete : ∀ text, ∀ l ∈ (scan sep size text).complete, l.length ≤ size := by
    intro text
    induction text using List.reverseRecOn with
    | nil => simp [scan]
    | append_singleton text c ih =>
      have hcurrent := (scan_current sep hsize text).1
      rw [scan_append, List.foldl_cons, List.foldl_nil, feed]
      split
      · intro l hl
        rcases List.mem_append.mp hl with hl | hl
        · exact ih l hl
        · obtain rfl := List.mem_singleton.mp hl
          simp only [List.length_append, List.length_singleton]
          omega
      · exact ih
  rcases List.mem_append.mp h with hl | hl
  · exact hcomplete text line hl
  · have hcurrent := (scan_current sep hsize text).1
    split at hl
    · simp at hl
    · obtain rfl := List.mem_singleton.mp hl
      exact hcurrent.le

/-- Text without a line end goes to the buffer while it has room. -/
theorem foldl_feed_of_lt (s : Reader α) (text : List α) (hsep : sep ∉ text)
    (h : s.current.length + text.length < size) :
    text.foldl (feed sep size) s = ⟨s.complete, s.current ++ text⟩ := by
  induction text generalizing s with
  | nil => simp
  | cons c text ih =>
    simp only [List.mem_cons, not_or, List.length_cons] at hsep h
    have hfeed : feed sep size s c = ⟨s.complete, s.current ++ [c]⟩ := by
      rw [feed, if_neg]
      simp only [List.length_append, List.length_singleton]
      rintro (rfl | hlen)
      · exact hsep.1 rfl
      · omega
    rw [List.foldl_cons, hfeed, ih _ hsep.2 (by simpa using by omega)]
    simp

/-- When the buffer is full, what it holds is a line, and the rest begins the next one. -/
theorem foldl_feed_of_le (s : Reader α) (text : List α) (hsep : sep ∉ text)
    (hroom : s.current.length < size) (hfull : size ≤ s.current.length + text.length)
    (hrest : s.current.length + text.length < 2 * size) :
    text.foldl (feed sep size) s =
      ⟨s.complete ++ [(s.current ++ text).take size], (s.current ++ text).drop size⟩ := by
  induction text generalizing s with
  | nil => simp only [List.length_nil] at hfull; omega
  | cons c text ih =>
    simp only [List.mem_cons, not_or, List.length_cons] at hsep hfull hrest
    have hassoc : s.current ++ c :: text = s.current ++ [c] ++ text := by simp
    rw [List.foldl_cons, feed, hassoc]
    split
    next hc =>
      have hlen : (s.current ++ [c]).length = size := by
        rcases hc with rfl | hlen
        · exact absurd rfl hsep.1
        · exact hlen
      rw [foldl_feed_of_lt _ _ hsep.2 (by simp at hlen ⊢; omega), ← hlen, List.take_left,
        List.drop_left]
      rfl
    next hc =>
      simp only [not_or, List.length_append, List.length_singleton] at hc
      exact ih _ hsep.2 (by simp; omega) (by simp; omega) (by simp; omega)

/-- A line end completes the line. -/
theorem feed_sep (s : Reader α) : feed sep size s sep = ⟨s.complete ++ [s.current ++ [sep]], []⟩ := by
  rw [feed, if_pos (.inl rfl)]

end Reader

end AlgorithmLib.Text
