import Mathlib.Data.List.Basic

/-!
Length-prefixed records laid end to end, and the cursor loop that walks over them.
A record is a header of `h` bytes followed by as many payload bytes as the header announces.
The loop keeps two coupled variables: the offset of the next header and the bytes left.
-/

set_option autoImplicit false

namespace AlgorithmLib.Frames

/-- The offsets at which consecutive blocks start when they are laid out from `start` on. -/
def starts {β : Type} (start : Nat) : List (List β) → List Nat
  | [] => []
  | b :: bs => start :: starts (start + b.length) bs

/-- Walk from offset `cur` with `remain` bytes left; `size o` is the payload length
announced by the header at offset `o`. Result: the offsets of the records met and the
bytes left, or `none` when the fuel ran out. -/
def walk (h : Nat) (size : Nat → Nat) : Nat → Nat → Nat → Option (List Nat × Nat)
  | 0, _, _ => none
  | fuel + 1, cur, remain =>
    if remain < h then some ([], remain)
    else if remain - h < size cur then some ([], remain - h)
    else (walk h size fuel (cur + h + size cur) (remain - h - size cur)).map
      (fun r => (cur :: r.1, r.2))

/-- The blocks, laid out from `cur` on, are records: each is as long as its header says. -/
def Framed {β : Type} (h : Nat) (size : Nat → Nat) (cur : Nat) : List (List β) → Prop
  | [] => True
  | b :: bs => b.length = h + size cur ∧ Framed h size (cur + b.length) bs

theorem walk_some {h : Nat} (hh : 0 < h) (size : Nat → Nat) (fuel cur remain : Nat)
    (hf : remain < fuel) : ∃ r, walk h size fuel cur remain = some r := by
  induction fuel generalizing cur remain with
  | zero => omega
  | succ fuel ih =>
    simp only [walk]
    split
    · exact ⟨_, rfl⟩
    · split
      · exact ⟨_, rfl⟩
      · obtain ⟨r, hr⟩ := ih (cur + h + size cur) (remain - h - size cur) (by omega)
        exact ⟨_, by rw [hr]; rfl⟩

/-- Every record met lies inside the bytes the walk was given. -/
theorem walk_inside {h : Nat} {size : Nat → Nat} {fuel cur remain : Nat}
    {r : List Nat × Nat} (hw : walk h size fuel cur remain = some r) :
    ∀ o ∈ r.1, cur ≤ o ∧ o + h + size o ≤ cur + remain := by
  induction fuel generalizing cur remain r with
  | zero => simp [walk] at hw
  | succ fuel ih =>
    simp only [walk] at hw
    split at hw
    · cases hw; simp
    · split at hw
      · cases hw; simp
      · obtain ⟨q, hq, rfl⟩ := Option.map_eq_some_iff.mp hw
        intro o ho
        rcases List.mem_cons.mp ho with rfl | ho
        · omega
        · have := ih hq o ho
          omega

/-- Over well-framed blocks the walk meets each block once, in order, and leaves nothing. -/
theorem walk_framed {β : Type} {h : Nat} (hh : 0 < h) {size : Nat → Nat}
    (bs : List (List β)) (fuel cur : Nat) (hb : Framed h size cur bs)
    (hf : bs.flatten.length < fuel) :
    walk h size fuel cur bs.flatten.length = some (starts cur bs, 0) := by
  induction bs generalizing fuel cur with
  | nil =>
    cases fuel with
    | zero => simp at hf
    | succ fuel => simp [walk, starts, hh]
  | cons b bs ih =>
    obtain ⟨hlen, hrest⟩ := hb
    cases fuel with
    | zero => omega
    | succ fuel =>
      rw [List.flatten_cons, List.length_append] at hf ⊢
      have hnext := ih fuel (cur + b.length) hrest (by omega)
      have hr : b.length + bs.flatten.length - h - size cur = bs.flatten.length := by omega
      have hc : cur + h + size cur = cur + b.length := by omega
      rw [walk, if_neg (by omega), if_neg (by omega), hr, hc, hnext]
      rfl

end AlgorithmLib.Frames
