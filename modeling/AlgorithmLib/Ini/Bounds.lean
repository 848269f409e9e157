import AlgorithmLib.Ini.Entry

set_option autoImplicit false

namespace AlgorithmLib.Ini

open CInt

/-- Behind the equals sign of this key are blanks and the end of the line only, and the length that
comes out of it, minus the number of these blanks, is accepted. -/
def Crossed (line key : List UInt8) (valueLen : Int) : Prop :=
  ∃ pre mid gap rest, Entry line key pre mid gap rest ∧ key ≠ [] ∧ Spaces rest ∧ gap ≠ [] ∧
    1 - gap.length ≤ valueLen

theorem inBounds_of_nonneg {line key : List UInt8} {valueLen : Int} {c : Copy}
    (hline : line.length ≤ 2046) (hcopy : iniCopy line key = some c) (hroom : c.len + 1 ≤ valueLen)
    (hlen : 0 ≤ c.len) : c.InBounds line valueLen := by
  obtain ⟨pre, mid, gap, rest, hentry, hstart, hcases⟩ := iniCopy_cases hcopy
  have hlength := hentry.length_eq
  have hread : c.len ≤ rest.length := by
    rcases hcases with ⟨u, x, w, rfl, -, -, hval⟩ | ⟨-, -, hval⟩
    · simp only [hval, List.length_append, List.length_cons]
      omega
    · omega
  refine ⟨hlen, ?_, ?_⟩
  · rw [hstart, hentry.drop_start]
    exact hread
  · rw [sizeT_toNat hlen (by omega)]
    omega

theorem crossed_iff {line key : List UInt8} {valueLen : Int} :
    Crossed line key valueLen ↔
      ∃ c, iniCopy line key = some c ∧ c.len + 1 ≤ valueLen ∧ c.len < 0 := by
  constructor
  · rintro ⟨pre, mid, gap, rest, hentry, hkey, hspaces, hgap, hroom⟩
    have hpos := List.length_pos_iff.mpr hgap
    exact ⟨_, hentry.iniCopy_of_spaces hkey hspaces, by dsimp only; omega, by dsimp only; omega⟩
  · rintro ⟨c, hcopy, hroom, hneg⟩
    obtain ⟨pre, mid, gap, rest, hentry, -, hcases⟩ := iniCopy_cases hcopy
    rcases hcases with ⟨u, x, w, rfl, -, -, hval⟩ | ⟨hspaces, hkey, hval⟩
    · omega
    · have hgap : gap ≠ [] := by
        rintro rfl
        simp [hval] at hneg
      exact ⟨pre, mid, gap, rest, hentry, hkey, hspaces, hgap, by omega⟩

theorem ini_value_copy_in_bounds (line key : List UInt8) (valueLen : Int)
    (hline : line.length ≤ 2046) :
    (∀ c, iniCopy line key = some c → c.len + 1 ≤ valueLen → c.InBounds line valueLen) ↔
      ¬ Crossed line key valueLen := by
  rw [crossed_iff]
  constructor
  · rintro h ⟨c, hcopy, hroom, hneg⟩
    have hnonneg := (h c hcopy hroom).nonneg
    omega
  · intro h c hcopy hroom
    by_contra hout
    have hneg : c.len < 0 := by
      by_contra hlen
      exact hout (inBounds_of_nonneg hline hcopy hroom (by omega))
    exact h ⟨c, hcopy, hroom, hneg⟩

theorem ini_value_copy_in_bounds_two :
    (¬ Crossed "k= v \n".toUTF8.toList "k".toUTF8.toList 128) ∧
      ¬ Crossed "k=\r\n".toUTF8.toList "k".toUTF8.toList 128 := by
  constructor
  · refine (ini_value_copy_in_bounds _ _ _ (by decide +kernel)).mp ?_
    exact (by decide +kernel : ∀ c ∈ iniCopy "k= v \n".toUTF8.toList "k".toUTF8.toList,
      c.len + 1 ≤ 128 → c.InBounds "k= v \n".toUTF8.toList 128)
  · refine (ini_value_copy_in_bounds _ _ _ (by decide +kernel)).mp ?_
    exact (by decide +kernel : ∀ c ∈ iniCopy "k=\r\n".toUTF8.toList "k".toUTF8.toList,
      c.len + 1 ≤ 128 → c.InBounds "k=\r\n".toUTF8.toList 128)

/-- With a blank between the equals sign and the line end the length is negative, and accepted. -/
theorem ini_value_copy_crosses :
    "k= \n".toUTF8.toList.length ≤ 2046 ∧
      ∃ c, iniCopy "k= \n".toUTF8.toList "k".toUTF8.toList = some c ∧ c.len + 1 ≤ 128 ∧
        ¬ c.InBounds "k= \n".toUTF8.toList 128 := by
  refine ⟨by decide +kernel, ⟨3, -1⟩, ?_⟩
  decide +kernel

theorem length_cString_le (buf : List UInt8) : (cString buf).length ≤ buf.length :=
  (List.takeWhile_prefix _).length_le

/-- A file is read out of bounds only where one of its lines is so. -/
theorem crossed_of_outOfBounds {file key : List UInt8} {valueLen : Int}
    (h : iniReadString file key valueLen = .outOfBounds) :
    ∃ buf ∈ fgetsLines file, Crossed (cString buf) key valueLen := by
  rw [iniReadString] at h
  cases hfound : (fgetsLines file).findSome? fun buf =>
      (iniCopy (cString buf) key).map (Copy.run · (cString buf) valueLen) with
  | none => simp [hfound] at h
  | some r =>
    obtain ⟨buf, hmem, hcopy⟩ := List.exists_of_findSome?_eq_some hfound
    obtain ⟨c, hc, hrun⟩ := Option.map_eq_some_iff.mp hcopy
    have hlength := Text.Reader.length_le_of_mem_lines (by decide) file buf hmem
    rw [hfound, Option.getD_some] at h
    rw [h, Copy.run] at hrun
    split at hrun
    next hroom =>
      split at hrun
      next => simp at hrun
      next hout =>
        refine ⟨buf, hmem, crossed_iff.mpr ⟨c, hc, hroom, ?_⟩⟩
        by_contra hnonneg
        have hline := (length_cString_le buf).trans hlength
        exact hout (inBounds_of_nonneg hline hc hroom (by omega))
    next => simp at hrun

end AlgorithmLib.Ini
