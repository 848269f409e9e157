import AlgorithmLib.Ini.Entry

set_option autoImplicit false

namespace AlgorithmLib.Ini

open CInt Text

/-- No blanks, equals sign, hash or line breaks. -/
structure Key (key : List UInt8) : Prop where
  ne_nil : key ≠ []
  chars : ∀ c ∈ key, isSpace c = false ∧ c ≠ equals ∧ c ≠ hash ∧ c ≠ 0

/-- No line breaks, no blank at either end. -/
structure Value (value : List UInt8) : Prop where
  ne_nil : value ≠ []
  chars : ∀ c ∈ value, c ≠ newline ∧ c ≠ 13 ∧ c ≠ 0
  head : ∀ c ∈ value.head?, isBlank c = false
  last : ∀ c ∈ value.getLast?, isBlank c = false

instance (key : List UInt8) : Decidable (Key key) :=
  decidable_of_iff
    (key ≠ [] ∧ key.all fun c => !isSpace c && c != equals && c != hash && c != 0)
    ⟨fun h => ⟨h.1, by simpa [and_assoc] using h.2⟩,
      fun h => ⟨h.ne_nil, by simpa [and_assoc] using h.chars⟩⟩

instance (value : List UInt8) : Decidable (Value value) :=
  decidable_of_iff
    (value ≠ [] ∧ (value.all fun c => c != newline && c != 13 && c != 0) ∧
      (value.head?.all fun c => !isBlank c) ∧ value.getLast?.all fun c => !isBlank c)
    ⟨fun h => ⟨h.1, by simpa [and_assoc] using h.2.1, by simpa [Option.all_eq_true] using h.2.2.1,
        by simpa [Option.all_eq_true] using h.2.2.2⟩,
      fun h => ⟨h.ne_nil, by simpa [and_assoc] using h.chars,
        by simpa [Option.all_eq_true] using h.head, by simpa [Option.all_eq_true] using h.last⟩⟩

section Strings

variable {s t key key' : List UInt8}

theorem cString_append (h : 0 ∉ s) : cString (s ++ t) = s ++ cString t := by
  have hall : ∀ c ∈ s, (c != 0) = true := by
    intro c hc
    simp only [bne_iff_ne, ne_eq]
    rintro rfl
    exact h hc
  rw [cString, List.takeWhile_append_of_pos hall, cString]

theorem cString_of_not_mem (h : 0 ∉ s) : cString s = s := by
  simpa [cString] using cString_append (t := []) h

theorem cString_append_of_mem (h : 0 ∈ s) : cString (s ++ t) = cString s := by
  induction s with
  | nil => simp at h
  | cons c s ih =>
    rw [cString, cString, List.cons_append, List.takeWhile_cons, List.takeWhile_cons]
    by_cases hc : c = 0
    · simp [hc]
    · have hs : 0 ∈ s := by
        rcases List.mem_cons.mp h with h0 | hs
        · exact absurd h0.symm hc
        · exact hs
      simp only [bne_iff_ne, ne_eq, hc, not_false_eq_true, if_true]
      exact congrArg _ (ih hs)

theorem zero_not_mem_of_blank (h : Blank s) : 0 ∉ s := fun h0 => absurd (h 0 h0) (by decide)

theorem Key.unique {pre pre' mid mid' rest rest' : List UInt8} (hkey : Key key) (hkey' : Key key')
    (hpre : Blank pre) (hmid : Blank mid) (hpre' : Blank pre') (hmid' : Blank mid')
    (h : pre ++ (key ++ mid ++ equals :: rest) = pre' ++ (key' ++ mid' ++ equals :: rest')) :
    key' = key := by
  have hstop : ∀ mid rest : List UInt8, Blank mid → ∃ x str, mid ++ equals :: rest = x :: str ∧
      (!isBlank x && x != equals) = false := by
    intro mid rest hblank
    cases mid with
    | nil => exact ⟨equals, rest, rfl, rfl⟩
    | cons x mid => exact ⟨x, _, rfl, by simp [hblank x (by simp)]⟩
  have hchars : ∀ {key : List UInt8}, Key key → ∀ c ∈ key, (!isBlank c && c != equals) = true := by
    intro key hkey c hc
    obtain ⟨hspace, hequals, -⟩ := hkey.chars c hc
    simp [isBlank_of_not_isSpace hspace, hequals]
  obtain ⟨x, str, heq, hx⟩ := hstop mid rest hmid
  obtain ⟨x', str', heq', hx'⟩ := hstop mid' rest' hmid'
  rw [List.append_assoc, List.append_assoc, heq, heq'] at h
  obtain ⟨c, key₀, rfl⟩ := List.exists_cons_of_ne_nil hkey.ne_nil
  obtain ⟨c', key₀', rfl⟩ := List.exists_cons_of_ne_nil hkey'.ne_nil
  have hc := isBlank_of_not_isSpace (hkey.chars c (by simp)).1
  have hc' := isBlank_of_not_isSpace (hkey'.chars c' (by simp)).1
  obtain ⟨-, hhead, htail⟩ := cut_left_unique hpre hc hpre' hc' h
  have hwhole : c :: key₀ ++ x :: str = c' :: key₀' ++ x' :: str' := congrArg₂ List.cons hhead htail
  exact (cut_left_unique (hchars hkey) hx (hchars hkey') hx' hwhole).1.symm

theorem Key.starts (h : Key key) (s : List UInt8) : Starts (key ++ s) := by
  obtain ⟨c, key, rfl⟩ := List.exists_cons_of_ne_nil h.ne_nil
  obtain ⟨hspace, -, hhash, -⟩ := h.chars c (by simp)
  exact ⟨c, key ++ s, rfl, isBlank_of_not_isSpace hspace, hhash⟩

theorem Key.zero_not_mem (h : Key key) : 0 ∉ key := fun h0 => (h.chars 0 h0).2.2.2 rfl

theorem Key.entry {pre mid gap rest : List UInt8} (h : Key key) (hpre : Blank pre)
    (hmid : Blank mid) (hgap : Blank gap) (hrest : Starts rest) :
    Entry (pre ++ (key ++ mid ++ equals :: (gap ++ rest))) key pre mid gap rest :=
  ⟨rfl, hpre, hmid, hgap, by rw [List.append_assoc]; exact h.starts _, hrest⟩

theorem iniCopy_other_key {pre mid : List UInt8} (hkey : Key key) (hkey' : Key key')
    (hne : key' ≠ key) (hpre : Blank pre) (hmid : Blank mid) (rest : List UInt8) :
    iniCopy (pre ++ (key ++ mid ++ equals :: rest)) key' = none := by
  rw [Option.eq_none_iff_forall_ne_some]
  intro c hc
  obtain ⟨pre', mid', gap', rest', hentry, -⟩ := iniCopy_cases hc
  exact hne (hkey.unique hkey' hpre hmid hentry.before hentry.between hentry.line_eq)

theorem iniCopy_blank (h : Blank s) (key : List UInt8) : iniCopy (cString s) key = none := by
  rw [cString_of_not_mem (zero_not_mem_of_blank h), Option.eq_none_iff_forall_ne_some]
  intro c hc
  obtain ⟨pre, mid, gap, rest, hentry, -⟩ := iniCopy_cases hc
  have hequals := h equals (by simp [hentry.line_eq])
  simp at hequals

theorem spaces_newline : Spaces [newline] := by
  intro c hc
  obtain rfl := List.mem_singleton.mp hc
  rfl

theorem iniCopy_newline (key : List UInt8) : iniCopy (cString [newline]) key = none := rfl

theorem Entry.isSome {line pre mid gap rest : List UInt8} (h : Entry line key pre mid gap rest)
    (hkey : key ≠ []) : (iniCopy line key).isSome := by
  rcases all_or_cut_right isSpace rest with hspaces | ⟨u, x, w, rfl, hx, hw⟩
  · rw [h.iniCopy_of_spaces hkey hspaces]
    rfl
  · rw [h.iniCopy_of_value hx hw]
    rfl

end Strings

section Values

variable {line key value : List UInt8}

theorem Value.cut (h : Value value) :
    ∃ u x, value = u ++ [x] ∧ isSpace x = false := by
  rcases value.eq_nil_or_concat with rfl | ⟨u, x, rfl⟩
  · exact absurd rfl h.ne_nil
  · refine ⟨u, x, List.concat_eq_append, ?_⟩
    have hchars := h.chars x (by simp)
    have hlast := h.last x (by simp)
    simp only [newline] at hchars
    simp [isSpace, hlast, hchars.1, hchars.2.1]

theorem Value.starts (h : Value value) (hhash : value.head? ≠ some hash) (s : List UInt8) :
    Starts (value ++ s) := by
  obtain ⟨c, value, rfl⟩ := List.exists_cons_of_ne_nil h.ne_nil
  exact ⟨c, value ++ s, rfl, h.head c (by simp), fun hc => hhash (by simp [hc])⟩

theorem Value.zero_not_mem (h : Value value) : 0 ∉ value := fun h0 => (h.chars 0 h0).2.2 rfl

theorem Key.zero_not_mem_entry (hkey : Key key) (hvalue : Value value) :
    0 ∉ key ++ equals :: value := by
  simp only [List.mem_append, List.mem_cons, not_or]
  exact ⟨hkey.zero_not_mem, by decide, hvalue.zero_not_mem⟩

theorem Key.newline_not_mem_entry (hkey : Key key) (hvalue : Value value) :
    newline ∉ key ++ equals :: value := by
  simp only [List.mem_append, List.mem_cons, not_or]
  refine ⟨fun h => ?_, by decide, fun h => (hvalue.chars _ h).1 rfl⟩
  exact absurd (hkey.chars _ h).1 (by decide)

def readLine (key : List UInt8) (valueLen : Int) (line : List UInt8) : Option ReadResult :=
  (iniCopy line key).map (Copy.run · line valueLen)

theorem readLine_of_entry {pre mid gap w : List UInt8} {valueLen : Int} (hvalue : Value value)
    (hline : line.length ≤ 2046) (hroom : value.length + 1 ≤ valueLen) (hw : Spaces w)
    (h : Entry line key pre mid gap (value ++ w)) :
    readLine key valueLen line = some (.ok value) := by
  have hlength := h.length_eq
  have hdrop := h.drop_start
  obtain ⟨u, x, rfl, hx⟩ := hvalue.cut
  simp only [List.append_assoc, List.singleton_append] at h hdrop hlength
  simp only [List.length_append, List.length_cons, List.length_nil, Nat.cast_add, Nat.cast_one,
    zero_add] at hroom hlength
  have hsize : sizeT (u.length + 1 : Int) = (u ++ [x]).length := by
    rw [sizeT_toNat (by omega) (by omega), List.length_append, List.length_singleton]
    omega
  have hbounds : (Copy.mk (line.length - (u ++ x :: w).length) (u.length + 1)).InBounds line
      valueLen := by
    refine ⟨by dsimp only; omega, ?_, ?_⟩
    · dsimp only
      rw [hdrop, List.length_append, List.length_cons]
      omega
    · dsimp only
      rw [hsize, List.length_append, List.length_singleton]
      omega
  rw [readLine, h.iniCopy_of_value hx hw, Option.map_some, Copy.run, if_pos hroom, if_pos hbounds]
  have hassoc : u ++ x :: w = u ++ [x] ++ w := by simp
  dsimp only
  rw [hdrop, hsize, hassoc, List.take_left]

theorem entry_of_readLine {valueLen : Int} (hvalue : value ≠ []) (hline : line.length ≤ 2046)
    (h : readLine key valueLen line = some (.ok value)) :
    ∃ pre mid gap w, Entry line key pre mid gap (value ++ w) ∧ Spaces w := by
  obtain ⟨c, hcopy, hrun⟩ := Option.map_eq_some_iff.mp h
  obtain ⟨pre, mid, gap, rest, hentry, hstart, hcases⟩ := iniCopy_cases hcopy
  rw [Copy.run] at hrun
  split at hrun
  next =>
    split at hrun
    next hbounds =>
      obtain rfl := ReadResult.ok.inj hrun
      have hlength := hentry.length_eq
      rw [hstart, hentry.drop_start]
      rw [hstart, hentry.drop_start] at hvalue
      have hread := hbounds.read
      rw [hstart, hentry.drop_start] at hread
      have hsize := sizeT_toNat hbounds.nonneg (by omega)
      rcases hcases with ⟨u, x, w, rfl, hx, hw, hval⟩ | ⟨-, -, hval⟩
      · refine ⟨pre, mid, gap, w, ?_, hw⟩
        have htake : (u ++ x :: w).take (sizeT c.len) = u ++ [x] := by
          have hlen : sizeT c.len = (u ++ [x]).length := by
            rw [hsize, List.length_append, List.length_singleton]
            omega
          have hassoc : u ++ x :: w = u ++ [x] ++ w := by simp
          rw [hlen, hassoc, List.take_left]
        rw [htake, List.append_assoc, List.singleton_append]
        exact hentry
      · have hnonneg := hbounds.nonneg
        have hzero : sizeT c.len = 0 := by omega
        rw [hzero] at hvalue
        exact absurd rfl hvalue
    next => simp at hrun
  next => simp at hrun

end Values

end AlgorithmLib.Ini
