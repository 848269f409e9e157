import AlgorithmLib.Ini.Keys

set_option autoImplicit false

namespace AlgorithmLib.Ini

open Text

/-- `ini_read_string` finds a line. -/
def Found (file key : List UInt8) : Prop :=
  ∃ buf ∈ fgetsLines file, (iniCopy (cString buf) key).isSome

instance (file key : List UInt8) : Decidable (Found file key) :=
  inferInstanceAs (Decidable (∃ buf ∈ fgetsLines file, _))

def unfinished (file : List UInt8) : List UInt8 := (Reader.scan newline 2046 file).current

/-- The key and the value stand in one line, behind blanks at most. -/
def OwnLine (file key value : List UInt8) : Prop :=
  value.head? ≠ some hash ∧ Blank (unfinished file) ∧
    (unfinished file).length + (key ++ equals :: value).length ≤ 2046

instance (file key value : List UInt8) : Decidable (OwnLine file key value) :=
  inferInstanceAs (Decidable (_ ∧ _ ∧ _))

/-- The last line of the file is the key without a value, and the buffer is full when it has got as
many characters of the key, the equals sign and the value as the value has: the value repeats them.
The rest of the line is no key with a value, or such a key is in the file already. -/
def Wrapped (file key value : List UInt8) : Prop :=
  (∃ pre mid gap, unfinished file = pre ++ key ++ mid ++ equals :: gap ∧ Blank pre ∧ Blank mid ∧
      Blank gap) ∧
    (unfinished file).length + value.length = 2046 ∧ value <+: key ++ equals :: value ∧
    (value.length % (key.length + 1) = 0 ∨ value.length % (key.length + 1) = key.length ∨
      Found file (key.drop (value.length % (key.length + 1))))

section Lines

variable {t key value e : List UInt8} {valueLen : Int}

theorem readLine_own_line (hkey : Key key) (hvalue : Value value)
    (hbefore : iniCopy (cString t) key = none) (he : Spaces e) (he0 : 0 ∉ e)
    (hline : (t ++ (key ++ equals :: value) ++ e).length ≤ 2046)
    (hroom : value.length + 1 ≤ valueLen) :
    readLine key valueLen (cString (t ++ (key ++ equals :: value) ++ e)) = some (.ok value) ↔
      value.head? ≠ some hash ∧ Blank t := by
  have hzero : 0 ∉ key ++ equals :: value ++ e := by
    rw [List.mem_append, not_or]
    exact ⟨hkey.zero_not_mem_entry hvalue, he0⟩
  constructor
  · intro h
    by_cases ht : 0 ∈ t
    · rw [List.append_assoc, cString_append_of_mem ht, readLine, hbefore] at h
      exact absurd h (by simp)
    · rw [cString_of_not_mem (by
        rw [List.append_assoc, List.mem_append, not_or]
        exact ⟨ht, hzero⟩)] at h
      obtain ⟨pre, mid, gap, w, hentry, hw⟩ := entry_of_readLine hvalue.ne_nil hline h
      refine ⟨?_, ?_⟩
      · obtain ⟨c, str, heq, -, hhash⟩ := hentry.value
        obtain ⟨x, v, rfl⟩ := List.exists_cons_of_ne_nil hvalue.ne_nil
        simp only [List.cons_append, List.cons.injEq] at heq
        simpa [heq.1] using hhash
      · obtain ⟨u, x, rfl, hx⟩ := hvalue.cut
        obtain ⟨k, y, rfl⟩ : ∃ k y, key = k ++ [y] := by
          rcases key.eq_nil_or_concat with rfl | ⟨k, y, rfl⟩
          · exact absurd rfl hkey.ne_nil
          · exact ⟨k, y, List.concat_eq_append⟩
        have hy := isBlank_of_not_isSpace (hkey.chars y (by simp)).1
        -- cut before the last character of the value, before the equals sign and of the key
        have hlast : (t ++ (k ++ [y]) ++ [equals] ++ u) ++ x :: e =
            (pre ++ (k ++ [y]) ++ mid ++ equals :: gap ++ u) ++ x :: w := by
          have heq := hentry.line_eq
          simp only [List.append_assoc, List.cons_append, List.nil_append] at heq ⊢
          exact heq
        have hequals : (t ++ (k ++ [y])) ++ equals :: [] =
            (pre ++ (k ++ [y]) ++ mid) ++ equals :: gap :=
          List.append_cancel_right (cut_right_unique he hx hw hx hlast).1
        have hend : (t ++ k) ++ y :: [] = (pre ++ k) ++ y :: mid := by
          have hcut := (cut_right_unique (by simp) isBlank_equals hentry.behind isBlank_equals
            hequals).1
          simp only [List.append_assoc, List.cons_append, List.nil_append] at hcut ⊢
          exact hcut
        have ht : t = pre :=
          List.append_cancel_right (cut_right_unique (by simp) hy hentry.between hy hend).1
        rw [ht]
        exact hentry.before
  · rintro ⟨hhash, ht⟩
    rw [cString_of_not_mem (by
      rw [List.append_assoc, List.mem_append, not_or]
      exact ⟨zero_not_mem_of_blank ht, hzero⟩)]
    have hnil : Blank [] := by simp [Blank]
    have hentry : Entry (t ++ (key ++ equals :: value) ++ e) key t [] [] (value ++ e) := by
      simpa using hkey.entry ht hnil hnil (hvalue.starts hhash e)
    exact readLine_of_entry hvalue hline hroom he hentry

theorem Entry.begun {pre mid gap w : List UInt8} {m : Nat} (hkey : Key key)
    (hbefore : iniCopy t key = none) (hm : m < (key ++ equals :: value).length)
    (h : Entry (t ++ (key ++ equals :: value).take m) key pre mid gap (value ++ w)) :
    t = pre ++ (key ++ mid ++ equals :: gap) ∧ (key ++ equals :: value).take m = value ++ w := by
  have heq : t ++ (key ++ equals :: value).take m =
      (pre ++ (key ++ mid ++ equals :: gap)) ++ (value ++ w) := by
    rw [h.line_eq]
    simp
  rcases List.append_eq_append_iff.mp heq with ⟨a, hfront, hback⟩ | ⟨a, hfront, hback⟩
  · rcases a.eq_nil_or_concat with rfl | ⟨a, z, rfl⟩
    · exact ⟨by simpa using hfront.symm, by simpa using hback⟩
    · -- the line goes on with a part of the key, which ends with the equals sign or a blank
      rw [List.concat_eq_append] at hfront hback
      have hz : z ∈ key := by
        have hprefix : a ++ [z] <+: key ++ equals :: value :=
          (hback ▸ List.prefix_append _ _).trans (List.take_prefix _ _)
        have hshort : (a ++ [z]).length ≤ key.length := by
          have hlen := congrArg List.length hback
          simp only [List.length_append, List.length_cons, List.length_take] at hm hlen ⊢
          omega
        have hsub := List.prefix_of_prefix_length_le hprefix (List.prefix_append _ _) hshort
        exact hsub.subset (by simp)
      have hend : z = equals ∨ z ∈ gap := by
        rcases gap.eq_nil_or_concat with rfl | ⟨gap, y, rfl⟩
        · left
          have hcut : pre ++ (key ++ mid) ++ [equals] = t ++ a ++ [z] := by simpa using hfront
          exact (List.cons.inj (List.append_inj' hcut rfl).2).1.symm
        · right
          have hcut : pre ++ (key ++ mid ++ equals :: gap) ++ [y] = t ++ a ++ [z] := by
            simpa using hfront
          rw [(List.cons.inj (List.append_inj' hcut rfl).2).1.symm]
          simp
      obtain ⟨hspace, hequals, -⟩ := hkey.chars z hz
      rcases hend with rfl | hgap
      · exact absurd rfl hequals
      · rw [isSpace_of_isBlank (h.behind z hgap)] at hspace
        exact absurd hspace (by simp)
  · rcases a with _ | ⟨x, a⟩
    · exact ⟨by simpa using hfront, by simpa using hback.symm⟩
    · -- the line that was begun has the key
      obtain ⟨c, str, hstart, hblank, hhash⟩ := h.value
      have hx : Starts (x :: a) := by
        rw [hback, List.cons_append, List.cons.injEq] at hstart
        exact ⟨x, a, rfl, hstart.1 ▸ hblank, hstart.1 ▸ hhash⟩
      have hentry : Entry t key pre mid gap (x :: a) := by
        have hcut := hkey.entry h.before h.between h.behind hx
        rw [hfront]
        simpa using hcut
      have hsome := hentry.isSome hkey.ne_nil
      rw [hbefore] at hsome
      exact absurd hsome (by simp)

theorem readLine_wrapped {m : Nat} (hkey : Key key) (hvalue : Value value)
    (hbefore : iniCopy (cString t) key = none) (hm : m < (key ++ equals :: value).length)
    (hline : t.length + m = 2046) (hroom : value.length + 1 ≤ valueLen) :
    readLine key valueLen (cString (t ++ (key ++ equals :: value).take m)) = some (.ok value) ↔
      (∃ pre mid gap, t = pre ++ key ++ mid ++ equals :: gap ∧ Blank pre ∧ Blank mid ∧ Blank gap) ∧
        t.length + value.length = 2046 ∧ value <+: key ++ equals :: value := by
  have hlen : ((key ++ equals :: value).take m).length = m := List.length_take_of_le hm.le
  have hzero : 0 ∉ (key ++ equals :: value).take m := fun h0 =>
    hkey.zero_not_mem_entry hvalue (List.mem_of_mem_take h0)
  constructor
  · intro h
    by_cases ht : 0 ∈ t
    · rw [cString_append_of_mem ht, readLine, hbefore] at h
      exact absurd h (by simp)
    · rw [cString_of_not_mem (by rw [List.mem_append, not_or]; exact ⟨ht, hzero⟩)] at h
      rw [cString_of_not_mem ht] at hbefore
      obtain ⟨pre, mid, gap, w, hentry, hw⟩ := entry_of_readLine hvalue.ne_nil
        (by rw [List.length_append, hlen, hline]) h
      obtain ⟨hbegun, hrest⟩ := hentry.begun hkey hbefore hm
      have hprefix : value <+: key ++ equals :: value :=
        (hrest ▸ List.prefix_append _ _).trans (List.take_prefix _ _)
      have hnil : w = [] := by
        rcases w with _ | ⟨x, w⟩
        · rfl
        · -- what the value repeats has no space
          have hrepeat := drop_of_repeats (key ++ [equals]) value (by simpa using hprefix)
          have hcut : key ++ [equals] ++ value =
              value ++ (x :: w ++ (key ++ equals :: value).drop m) := by
            rw [← List.append_assoc, ← hrest]
            simp
          rw [hcut, List.drop_left] at hrepeat
          have hx : x ∈ (key ++ [equals]).rotate value.length := by
            rw [← hrepeat]
            simp
          have hspace := hw x (by simp)
          rcases List.mem_append.mp (List.mem_rotate.mp hx) with hk | heq
          · rw [(hkey.chars x hk).1] at hspace
            exact absurd hspace (by simp)
          · rw [List.mem_singleton.mp heq] at hspace
            exact absurd hspace (by simp)
      rw [hnil, List.append_nil] at hrest
      rw [hrest] at hlen
      exact ⟨⟨pre, mid, gap, by simpa using hbegun, hentry.before, hentry.between, hentry.behind⟩,
        by omega, hprefix⟩
  · rintro ⟨⟨pre, mid, gap, rfl, hpre, hmid, hgap⟩, hfull, hprefix⟩
    obtain rfl : m = value.length := by omega
    have htake : (key ++ equals :: value).take value.length = value :=
      (List.prefix_iff_eq_take.mp hprefix).symm
    have hhash : value.head? ≠ some hash := by
      obtain ⟨y, k, rfl⟩ := List.exists_cons_of_ne_nil hkey.ne_nil
      obtain ⟨x, v, rfl⟩ := List.exists_cons_of_ne_nil hvalue.ne_nil
      obtain ⟨rest, hrest⟩ := hprefix
      simp only [List.cons_append, List.cons.injEq] at hrest
      rw [List.head?_cons, hrest.1]
      simpa using (hkey.chars y (by simp)).2.2.1
    have hentry := hkey.entry hpre hmid hgap (hvalue.starts hhash [])
    have hcut : pre ++ (key ++ mid ++ equals :: (gap ++ (value ++ []))) =
        pre ++ key ++ mid ++ equals :: gap ++ value := by simp
    rw [hcut] at hentry
    have hzero' : 0 ∉ pre ++ key ++ mid ++ equals :: gap := by
      simp only [List.mem_append, List.mem_cons, not_or]
      exact ⟨⟨⟨zero_not_mem_of_blank hpre, hkey.zero_not_mem⟩, zero_not_mem_of_blank hmid⟩,
        by decide, zero_not_mem_of_blank hgap⟩
    rw [htake, cString_of_not_mem (by rw [List.mem_append, not_or]; exact ⟨hzero', hvalue.zero_not_mem⟩)]
    exact readLine_of_entry hvalue (by rw [List.length_append, hfull]) hroom (by simp [Spaces])
      hentry

theorem readLine_rest {m : Nat} (hkey : Key key) (hvalue : Value value) (hm0 : 0 < m)
    (hshort : (key ++ equals :: value).length ≤ 2046) :
    readLine key valueLen (cString ((key ++ equals :: value).drop m ++ [newline])) ≠
      some (.ok value) := by
  have hzero : 0 ∉ (key ++ equals :: value).drop m ++ [newline] := by
    intro h0
    rcases List.mem_append.mp h0 with h0 | h0
    · exact hkey.zero_not_mem_entry hvalue (List.mem_of_mem_drop h0)
    · simp [newline] at h0
  intro h
  have hkeypos := List.length_pos_iff.mpr hkey.ne_nil
  rw [cString_of_not_mem hzero] at h
  have hline : ((key ++ equals :: value).drop m ++ [newline]).length ≤ 2046 := by
    simp only [List.length_append, List.length_drop, List.length_singleton] at hshort ⊢
    omega
  obtain ⟨pre, mid, gap, w, hentry, -⟩ := entry_of_readLine hvalue.ne_nil hline h
  have hlength := hentry.length_eq
  simp only [List.length_append, List.length_drop, List.length_cons, List.length_nil] at hlength
  have hw : w = [] := List.length_eq_zero_iff.mp (by omega)
  obtain ⟨u, x, rfl, hx⟩ := hvalue.cut
  have hcut : (key ++ equals :: (u ++ [x])).drop m ++ [newline] =
      (pre ++ (key ++ mid ++ equals :: (gap ++ u))) ++ [x] := by
    rw [hentry.line_eq, hw]
    simp
  rw [← (List.cons.inj (List.append_inj' hcut rfl).2).1] at hx
  exact absurd hx (by decide)

theorem rest_of_repeats (h : value <+: key ++ equals :: value) :
    (key ++ equals :: value).drop value.length =
      key.drop (value.length % (key.length + 1)) ++
        equals :: key.take (value.length % (key.length + 1)) := by
  have hrepeat := drop_of_repeats (key ++ [equals]) value (by simpa using h)
  have hle : value.length % (key.length + 1) ≤ key.length :=
    Nat.le_of_lt_succ (Nat.mod_lt _ (Nat.succ_pos _))
  rw [List.rotate_eq_drop_append_take_mod] at hrepeat
  simp only [List.append_assoc, List.singleton_append, List.length_append, List.length_singleton,
    List.drop_append_of_le_length hle, List.take_append_of_le_length hle] at hrepeat
  exact hrepeat

theorem Key.of_subset (h : Key key) {k : List UInt8} (hne : k ≠ []) (hsub : k ⊆ key) : Key k :=
  ⟨hne, fun c hc => h.chars c (hsub hc)⟩

theorem Key.toValue (h : Key key) : Value key := by
  refine ⟨h.ne_nil, fun c hc => ?_, fun c hc => ?_, fun c hc => ?_⟩
  · obtain ⟨hspace, -, -, hzero⟩ := h.chars c hc
    refine ⟨?_, ?_, hzero⟩
    · rintro rfl
      exact absurd hspace (by decide)
    · rintro rfl
      exact absurd hspace (by decide)
  · exact isBlank_of_not_isSpace (h.chars c (List.mem_of_mem_head? hc)).1
  · exact isBlank_of_not_isSpace (h.chars c (List.mem_of_mem_getLast? hc)).1

theorem iniCopy_rest {k : List UInt8} {j : Nat} (hkey : Key key) (hk : Key k) (hne : k ≠ key)
    (hother : j = 0 ∨ j = key.length ∨ k ≠ key.drop j) (hj : j ≤ key.length) (s : List UInt8) :
    iniCopy (key.drop j ++ equals :: s) k = none := by
  rcases Nat.lt_or_ge j key.length with hlt | hge
  · have hdrop : key.drop j ≠ [] := by
      rw [← List.length_pos_iff, List.length_drop]
      omega
    have hne' : k ≠ key.drop j := by
      rcases hother with rfl | rfl | hother
      · simpa using hne
      · omega
      · exact hother
    have hnil : Blank [] := by simp [Blank]
    have hcopy := iniCopy_other_key (hkey.of_subset hdrop (List.drop_subset _ _)) hk hne' hnil hnil s
    simpa using hcopy
  · rw [List.drop_of_length_le hge, List.nil_append, Option.eq_none_iff_forall_ne_some]
    intro c hc
    obtain ⟨pre, mid, gap, rest, hentry, -⟩ := iniCopy_cases hc
    obtain ⟨x, k, rfl⟩ := List.exists_cons_of_ne_nil hk.ne_nil
    obtain ⟨hspace, hequals, -⟩ := hk.chars x (by simp)
    have heq : [] ++ equals :: s = pre ++ x :: (k ++ mid ++ equals :: (gap ++ rest)) :=
      hentry.line_eq
    have hcut := cut_left_unique (by simp) isBlank_equals hentry.before
      (isBlank_of_not_isSpace hspace) heq
    exact hequals hcut.2.1.symm

theorem readLine_rest_key {j : Nat} (hkey : Key key) (hj0 : j ≠ 0) (hj : j < key.length)
    (hshort : key.length ≤ 2044) :
    readLine (key.drop j) (j + 1) (cString (key.drop j ++ equals :: key.take j ++ [newline])) =
      some (.ok (key.take j)) := by
  have hdrop : Key (key.drop j) := by
    refine hkey.of_subset ?_ (List.drop_subset _ _)
    rw [← List.length_pos_iff, List.length_drop]
    omega
  have htake : Key (key.take j) := by
    refine hkey.of_subset ?_ (List.take_subset _ _)
    rw [← List.length_pos_iff, List.length_take]
    omega
  have hlen : (key.take j).length = j := List.length_take_of_le hj.le
  have hzero : 0 ∉ key.drop j ++ equals :: key.take j ++ [newline] := by
    rw [List.mem_append, not_or]
    exact ⟨hdrop.zero_not_mem_entry htake.toValue, by decide⟩
  have hnil : Blank [] := by simp [Blank]
  have hentry := hdrop.entry hnil hnil hnil (htake.starts [newline])
  rw [cString_of_not_mem hzero]
  refine readLine_of_entry htake.toValue ?_ (by rw [hlen]) spaces_newline
    (by simpa using hentry)
  simp only [List.length_append, List.length_drop, List.length_cons, List.length_nil, hlen]
  omega

end Lines

section Files

variable {file key value : List UInt8} {valueLen : Int}

/-- The lines of the file that have an end, or filled the buffer. -/
def finished (file : List UInt8) : List (List UInt8) := (Reader.scan newline 2046 file).complete

def readLines (key : List UInt8) (valueLen : Int) (bufs : List (List UInt8)) : Option ReadResult :=
  bufs.findSome? fun buf => readLine key valueLen (cString buf)

theorem readLines_append (key : List UInt8) (valueLen : Int) (bufs more : List (List UInt8)) :
    readLines key valueLen (bufs ++ more) =
      (readLines key valueLen bufs).or (readLines key valueLen more) :=
  List.findSome?_append

theorem readLines_cons (key : List UInt8) (valueLen : Int) (buf : List UInt8)
    (bufs : List (List UInt8)) :
    readLines key valueLen (buf :: bufs) =
      (readLine key valueLen (cString buf)).or (readLines key valueLen bufs) := by
  rw [readLines, List.findSome?_cons]
  cases readLine key valueLen (cString buf) <;> rfl

theorem readLines_singleton (key : List UInt8) (valueLen : Int) (buf : List UInt8) :
    readLines key valueLen [buf] = readLine key valueLen (cString buf) := by
  rw [readLines_cons]
  exact Option.or_none

theorem iniReadString_of_lines {bufs more : List (List UInt8)} (h : fgetsLines file = bufs ++ more)
    (key : List UInt8) (valueLen : Int) :
    iniReadString file key valueLen =
      ((readLines key valueLen bufs).or (readLines key valueLen more)).getD .failed := by
  rw [← readLines_append, ← h]
  rfl

theorem iniReadString_eq (file key : List UInt8) (valueLen : Int) :
    iniReadString file key valueLen =
      ((readLines key valueLen (finished file)).or
        (readLine key valueLen (cString (unfinished file)))).getD .failed := by
  rw [iniReadString_of_lines rfl, unfinished, finished]
  split
  next hnil =>
    rw [hnil]
    rfl
  next => rw [readLines_singleton]

theorem readLine_eq_none {line : List UInt8} :
    readLine key valueLen line = none ↔ iniCopy line key = none :=
  Option.map_eq_none_iff

theorem readLines_eq_none {bufs : List (List UInt8)} :
    readLines key valueLen bufs = none ↔ ∀ buf ∈ bufs, iniCopy (cString buf) key = none := by
  simp only [readLines, List.findSome?_eq_none_iff, readLine_eq_none]

theorem not_found_iff :
    ¬ Found file key ↔
      (∀ buf ∈ finished file, iniCopy (cString buf) key = none) ∧
        iniCopy (cString (unfinished file)) key = none := by
  simp only [Found, not_exists, not_and, Bool.not_eq_true, Option.isSome_eq_false_iff,
    Option.isNone_iff_eq_none, fgetsLines, Reader.lines, List.mem_append]
  constructor
  · intro h
    refine ⟨fun buf hbuf => h buf (.inl hbuf), ?_⟩
    by_cases hnil : unfinished file = []
    · rw [hnil]
      rfl
    · refine h _ (.inr ?_)
      rw [unfinished] at hnil
      rw [if_neg hnil]
      exact List.mem_singleton_self _
  · rintro ⟨hfinished, hunfinished⟩ buf (hbuf | hbuf)
    · exact hfinished buf hbuf
    · split at hbuf
      · simp at hbuf
      · rw [List.mem_singleton.mp hbuf]
        exact hunfinished

theorem readLines_finished (h : ¬ Found file key) : readLines key valueLen (finished file) = none := by
  exact readLines_eq_none.mpr (not_found_iff.mp h).1

theorem fgetsLines_append :
    fgetsLines (iniAppendString file key value) =
      (Reader.feed newline 2046
        ((key ++ equals :: value).foldl (Reader.feed newline 2046) (Reader.scan newline 2046 file))
        newline).lines := by
  rw [fgetsLines, iniAppendString, Reader.scan_append, Reader.scan_append]
  rfl

theorem fgetsLines_append_of_ge (hsep : newline ∉ key ++ equals :: value)
    (hge : 2046 ≤ (unfinished file).length + (key ++ equals :: value).length)
    (hshort : (key ++ equals :: value).length ≤ 2046) :
    fgetsLines (iniAppendString file key value) =
      finished file ++ [(unfinished file ++ (key ++ equals :: value)).take 2046,
        (unfinished file ++ (key ++ equals :: value)).drop 2046 ++ [newline]] := by
  have hroom : (unfinished file).length < 2046 :=
    (Reader.scan_current newline (by decide : 0 < 2046) file).1
  rw [fgetsLines_append, Reader.foldl_feed_of_le _ _ hsep hroom hge
    (by rw [unfinished] at hroom; omega), Reader.feed_sep]
  simp [Reader.lines, finished, unfinished]

theorem iniReadString_append_of_le (hkey : Key key) (hvalue : Value value)
    (hle : (unfinished file).length + (key ++ equals :: value).length ≤ 2046) :
    ∃ e, Spaces e ∧ 0 ∉ e ∧
      (unfinished file ++ (key ++ equals :: value) ++ e).length ≤ 2046 ∧
      ∀ k n, iniReadString (iniAppendString file key value) k n =
        ((readLines k n (finished file)).or
          (readLine k n (cString (unfinished file ++ (key ++ equals :: value) ++ e)))).getD
          .failed := by
  have hsep := hkey.newline_not_mem_entry hvalue
  rcases Nat.lt_or_eq_of_le hle with hlt | hfull
  · have hlines : fgetsLines (iniAppendString file key value) =
        finished file ++ [unfinished file ++ (key ++ equals :: value) ++ [newline]] := by
      rw [fgetsLines_append, Reader.foldl_feed_of_lt _ _ hsep hlt, Reader.feed_sep]
      simp [Reader.lines, finished, unfinished]
    refine ⟨[newline], spaces_newline, by decide, ?_, fun k n => ?_⟩
    · rw [List.length_append, List.length_append, List.length_singleton]
      omega
    · rw [iniReadString_of_lines hlines, readLines_singleton]
  · have hlength : (unfinished file ++ (key ++ equals :: value)).length = 2046 := by
      rw [List.length_append, hfull]
    have hlines := fgetsLines_append_of_ge hsep hfull.ge (by omega)
    rw [← hlength, List.take_length, List.drop_length] at hlines
    refine ⟨[], by simp [Spaces], by simp, by rw [List.append_nil, hlength], fun k n => ?_⟩
    rw [iniReadString_of_lines hlines, readLines_cons, readLines_singleton, List.nil_append,
      readLine_eq_none.mpr (iniCopy_newline k), Option.or_none, List.append_nil]

theorem iniReadString_append_of_lt (hkey : Key key) (hvalue : Value value)
    (hlt : 2046 < (unfinished file).length + (key ++ equals :: value).length)
    (hshort : (key ++ equals :: value).length ≤ 2046) :
    ∃ m, 0 < m ∧ m < (key ++ equals :: value).length ∧ (unfinished file).length + m = 2046 ∧
      ∀ k n, iniReadString (iniAppendString file key value) k n =
        ((readLines k n (finished file)).or
          ((readLine k n (cString (unfinished file ++ (key ++ equals :: value).take m))).or
            (readLine k n (cString ((key ++ equals :: value).drop m ++ [newline]))))).getD
          .failed := by
  have hroom : (unfinished file).length < 2046 :=
    (Reader.scan_current newline (by decide : 0 < 2046) file).1
  have hlines := fgetsLines_append_of_ge (hkey.newline_not_mem_entry hvalue) hlt.le hshort
  rw [List.take_append, List.drop_append, List.take_of_length_le hroom.le,
    List.drop_of_length_le hroom.le, List.nil_append] at hlines
  refine ⟨2046 - (unfinished file).length, by omega, by omega, by omega, fun k n => ?_⟩
  rw [iniReadString_of_lines hlines, readLines_cons, readLines_singleton]

theorem getD_eq_ok {r : Option ReadResult} : r.getD .failed = .ok value ↔ r = some (.ok value) := by
  cases r <;> simp

theorem readLine_other_key {k pre mid s : List UInt8} (hkey : Key key) (hk : Key k) (hne : k ≠ key)
    (hpre : Blank pre) (hmid : Blank mid) (hs : 0 ∉ s) (n : Int) :
    readLine k n (cString (pre ++ (key ++ mid ++ equals :: s))) = none := by
  have hzero : 0 ∉ pre ++ (key ++ mid ++ equals :: s) := by
    simp only [List.mem_append, List.mem_cons, not_or]
    exact ⟨zero_not_mem_of_blank hpre, ⟨hkey.zero_not_mem, zero_not_mem_of_blank hmid⟩, by decide,
      hs⟩
  rw [cString_of_not_mem hzero]
  exact readLine_eq_none.mpr (iniCopy_other_key hkey hk hne hpre hmid s)

theorem ownLine_iff (hkey : Key key) (hvalue : Value value)
    (hroom : value.length + 1 ≤ valueLen) (hfound : ¬ Found file key)
    (hle : (unfinished file).length + (key ++ equals :: value).length ≤ 2046) :
    iniReadString (iniAppendString file key value) key valueLen = .ok value ∧
        (∀ k n, Key k → k ≠ key →
          iniReadString (iniAppendString file key value) k n = iniReadString file k n) ↔
      OwnLine file key value := by
  obtain ⟨e, he, he0, hlen, hread⟩ := iniReadString_append_of_le hkey hvalue hle
  have hbefore := (not_found_iff.mp hfound).2
  have hown := readLine_own_line hkey hvalue hbefore he he0 hlen hroom
  rw [hread, readLines_finished hfound, Option.none_or, getD_eq_ok, hown]
  constructor
  · rintro ⟨⟨hhash, hblank⟩, -⟩
    exact ⟨hhash, hblank, hle⟩
  · rintro ⟨hhash, hblank, -⟩
    refine ⟨⟨hhash, hblank⟩, fun k n hk hne => ?_⟩
    have hnil : Blank [] := by simp [Blank]
    have hs : 0 ∉ value ++ e := by
      rw [List.mem_append, not_or]
      exact ⟨hvalue.zero_not_mem, he0⟩
    have hline := readLine_other_key hkey hk hne hblank hnil hs n
    rw [hread, iniReadString_eq, readLine_eq_none.mpr (iniCopy_blank hblank k)]
    simp only [List.append_nil, List.append_assoc, List.cons_append] at hline ⊢
    rw [hline]

theorem wrapped_iff (hkey : Key key) (hvalue : Value value)
    (hshort : (key ++ equals :: value).length ≤ 2046)
    (hroom : value.length + 1 ≤ valueLen) (hfound : ¬ Found file key)
    (hlt : 2046 < (unfinished file).length + (key ++ equals :: value).length) :
    iniReadString (iniAppendString file key value) key valueLen = .ok value ∧
        (∀ k n, Key k → k ≠ key →
          iniReadString (iniAppendString file key value) k n = iniReadString file k n) ↔
      Wrapped file key value := by
  obtain ⟨m, hm0, hm, hfull, hread⟩ := iniReadString_append_of_lt hkey hvalue hlt hshort
  have hbefore := (not_found_iff.mp hfound).2
  have hwrapped := readLine_wrapped hkey hvalue hbefore hm hfull hroom
  have hvaluepos := List.length_pos_iff.mpr hvalue.ne_nil
  -- the other keys of the line that is full, and what the next line is
  have hothers : ∀ {pre mid gap : List UInt8}, unfinished file = pre ++ key ++ mid ++ equals :: gap →
      Blank pre → Blank mid → Blank gap → ∀ k n, Key k → k ≠ key →
        readLine k n (cString (unfinished file)) = none ∧
          readLine k n (cString (unfinished file ++ (key ++ equals :: value).take m)) = none := by
    intro pre mid gap ht hpre hmid hgap k n hk hne
    have hgap0 := zero_not_mem_of_blank hgap
    have hmore : 0 ∉ gap ++ (key ++ equals :: value).take m := by
      rw [List.mem_append, not_or]
      exact ⟨hgap0, fun h0 => hkey.zero_not_mem_entry hvalue (List.mem_of_mem_take h0)⟩
    have hline := readLine_other_key hkey hk hne hpre hmid hgap0 n
    have hline' := readLine_other_key hkey hk hne hpre hmid hmore n
    rw [ht]
    simp only [List.append_assoc, List.cons_append] at hline hline' ⊢
    exact ⟨hline, hline'⟩
  constructor
  · rintro ⟨hown, hother⟩
    rw [hread, readLines_finished hfound, Option.none_or, getD_eq_ok, Option.or_eq_some_iff] at hown
    have hline := hown.resolve_right fun h => readLine_rest hkey hvalue hm0 hshort h.2
    obtain ⟨⟨pre, mid, gap, ht, hpre, hmid, hgap⟩, hlen, hprefix⟩ := hwrapped.mp hline
    obtain rfl : m = value.length := by omega
    refine ⟨⟨pre, mid, gap, ht, hpre, hmid, hgap⟩, hlen, hprefix, ?_⟩
    by_contra hcond
    simp only [not_or] at hcond
    obtain ⟨hj0, hjkey, hnot⟩ := hcond
    have hj : value.length % (key.length + 1) < key.length + 1 := Nat.mod_lt _ (Nat.succ_pos _)
    have hk : Key (key.drop (value.length % (key.length + 1))) := by
      refine hkey.of_subset ?_ (List.drop_subset _ _)
      rw [← List.length_pos_iff, List.length_drop]
      omega
    have hne : key.drop (value.length % (key.length + 1)) ≠ key := by
      intro heq
      have hlength := congrArg List.length heq
      rw [List.length_drop] at hlength
      omega
    have hrest := readLine_rest_key hkey hj0 (by omega)
      (by rw [List.length_append, List.length_cons] at hshort; omega)
    obtain ⟨hold, hnew⟩ := hothers ht hpre hmid hgap _
      ((value.length % (key.length + 1) : Nat) + 1) hk hne
    have hsame := hother _ ((value.length % (key.length + 1) : Nat) + 1) hk hne
    rw [hread, iniReadString_eq, readLines_finished hnot, Option.none_or, Option.none_or, hold, hnew,
      Option.none_or, rest_of_repeats hprefix, hrest] at hsame
    exact absurd hsame (by simp)
  · rintro ⟨⟨pre, mid, gap, ht, hpre, hmid, hgap⟩, hlen, hprefix, hcond⟩
    have hline := hwrapped.mpr ⟨⟨pre, mid, gap, ht, hpre, hmid, hgap⟩, hlen, hprefix⟩
    obtain rfl : m = value.length := by omega
    refine ⟨?_, fun k n hk hne => ?_⟩
    · rw [hread, readLines_finished hfound, Option.none_or, hline]
      rfl
    · obtain ⟨hold, hnew⟩ := hothers ht hpre hmid hgap k n hk hne
      rw [hread, iniReadString_eq, hold, hnew, Option.none_or]
      cases hlines : readLines k n (finished file) with
      | some r => rfl
      | none =>
        have hnot : ¬ Found file k :=
          not_found_iff.mpr ⟨readLines_eq_none.mp hlines, readLine_eq_none.mp hold⟩
        have hother : value.length % (key.length + 1) = 0 ∨
            value.length % (key.length + 1) = key.length ∨
              k ≠ key.drop (value.length % (key.length + 1)) := by
          refine hcond.imp_right (Or.imp_right fun hfounds hk => ?_)
          exact hnot (hk ▸ hfounds)
        have hj : value.length % (key.length + 1) ≤ key.length :=
          Nat.le_of_lt_succ (Nat.mod_lt _ (Nat.succ_pos _))
        have hcopy := iniCopy_rest hkey hk hne hother hj
          (key.take (value.length % (key.length + 1)) ++ [newline])
        have hzero : 0 ∉ (key ++ equals :: value).drop value.length ++ [newline] := by
          rw [List.mem_append, not_or]
          exact ⟨fun h0 => hkey.zero_not_mem_entry hvalue (List.mem_of_mem_drop h0), by decide⟩
        rw [Option.none_or, cString_of_not_mem hzero, rest_of_repeats hprefix, List.append_assoc,
          List.cons_append, readLine_eq_none.mpr hcopy, Option.none_or]

theorem ini_append_read (file key value : List UInt8) (valueLen : Int) (hkey : Key key)
    (hvalue : Value value) (hshort : (key ++ equals :: value).length ≤ 2046)
    (hroom : value.length + 1 ≤ valueLen) (hfound : ¬ Found file key) :
    iniReadString (iniAppendString file key value) key valueLen = .ok value ∧
        (∀ k n, Key k → k ≠ key →
          iniReadString (iniAppendString file key value) k n = iniReadString file k n) ↔
      OwnLine file key value ∨ Wrapped file key value := by
  rcases Nat.lt_or_ge 2046 ((unfinished file).length + (key ++ equals :: value).length) with hlt | hge
  · rw [wrapped_iff hkey hvalue hshort hroom hfound hlt, or_iff_right]
    intro hown
    exact absurd hown.2.2 (Nat.not_le_of_lt hlt)
  · rw [ownLine_iff hkey hvalue hroom hfound hge, or_iff_left]
    rintro ⟨-, hfull, -⟩
    rw [List.length_append, List.length_cons] at hge
    omega

theorem ini_append_read_finished :
    iniReadString (iniAppendString "a=1\n".toUTF8.toList "b".toUTF8.toList "two".toUTF8.toList)
        "b".toUTF8.toList 128 = .ok "two".toUTF8.toList ∧
      ∀ k n, Key k → k ≠ "b".toUTF8.toList →
        iniReadString
            (iniAppendString "a=1\n".toUTF8.toList "b".toUTF8.toList "two".toUTF8.toList) k n =
          iniReadString "a=1\n".toUTF8.toList k n :=
  (ini_append_read _ _ _ 128 (by decide +kernel) (by decide +kernel) (by decide +kernel)
    (by decide +kernel) (by decide +kernel)).mpr (.inl (by decide +kernel))

/-- The line `a=1` without its end goes on with what is appended; and a value that begins with a hash
is a comment. -/
theorem ini_append_unread :
    (Key "b".toUTF8.toList ∧ Value "2".toUTF8.toList ∧ Value "#1".toUTF8.toList) ∧
      (¬ Found "a=1".toUTF8.toList "b".toUTF8.toList ∧
        iniReadString (iniAppendString "a=1".toUTF8.toList "b".toUTF8.toList "2".toUTF8.toList)
          "b".toUTF8.toList 128 = .failed) ∧
      ¬ Found "a=1\n".toUTF8.toList "b".toUTF8.toList ∧
        iniReadString (iniAppendString "a=1\n".toUTF8.toList "b".toUTF8.toList "#1".toUTF8.toList)
          "b".toUTF8.toList 128 = .failed := by
  decide +kernel

end Files

end AlgorithmLib.Ini
