import Mathlib.Data.List.Basic
import Mathlib.Tactic.Common

/-!
# The Levenshtein distance

`lev c` counts insertions and deletions once and substitutions with the cost `c`. It is the same
from the last elements on (`lev_concat`), and it grows on the diagonal (`lev_le_cons_cons`).
-/

namespace Arsh

section
variable {α : Type*} [DecidableEq α]

/-- The weighted Levenshtein distance. -/
def lev (c : Nat) : List α → List α → Nat
  | [], ys => ys.length
  | x :: xs, [] => (x :: xs).length
  | x :: xs, y :: ys =>
    min (lev c xs (y :: ys) + 1)
      (min (lev c (x :: xs) ys + 1) (lev c xs ys + if x = y then 0 else c))
termination_by xs ys => xs.length + ys.length

-- The equations are made here, once, and not inside the proofs that unfold a definition.
attribute [local grind =] lev

variable {c : Nat} {x y : α} {xs ys : List α}

@[simp] theorem lev_nil_left : lev c [] ys = ys.length := by rw [lev]

@[simp] theorem lev_nil_right : lev c xs [] = xs.length := by cases xs <;> rw [lev]

theorem lev_cons_cons : lev c (x :: xs) (y :: ys) = min (lev c xs (y :: ys) + 1)
    (min (lev c (x :: xs) ys + 1) (lev c xs ys + if x = y then 0 else c)) := by rw [lev]

theorem lev_nil_concat : lev c [x] (ys ++ [y]) = min (lev c [] (ys ++ [y]) + 1)
    (min (lev c [x] ys + 1) (lev c [] ys + if x = y then 0 else c)) := by
  induction ys with
  | nil => rw [List.nil_append, lev_cons_cons]
  | cons b ys ih =>
    rw [List.cons_append, lev_cons_cons, ih, @lev_cons_cons _ _ c x b [] ys]
    simp only [lev_nil_left, List.length_cons, List.length_append, List.length_nil,
      ← Nat.add_min_add_right, Nat.zero_add]
    ac_rfl

theorem lev_concat_nil : lev c (xs ++ [x]) [y] = min (lev c xs [y] + 1)
    (min (lev c (xs ++ [x]) [] + 1) (lev c xs [] + if x = y then 0 else c)) := by
  induction xs with
  | nil => rw [List.nil_append, lev_cons_cons]
  | cons a xs ih =>
    rw [List.cons_append, lev_cons_cons, ih, @lev_cons_cons _ _ c a y xs []]
    simp only [lev_nil_right, List.length_cons, List.length_append, List.length_nil,
      ← Nat.add_min_add_right, Nat.zero_add]
    ac_rfl

/-- The recursion from the last elements on. -/
theorem lev_concat : lev c (xs ++ [x]) (ys ++ [y]) = min (lev c xs (ys ++ [y]) + 1)
    (min (lev c (xs ++ [x]) ys + 1) (lev c xs ys + if x = y then 0 else c)) := by
  induction xs, ys using lev.induct with
  | case1 ys => exact lev_nil_concat
  | case2 a xs => exact lev_concat_nil
  | case3 a xs b ys ih1 ih2 ih3 =>
    simp only [List.cons_append] at ih1 ih2 ih3 ⊢
    rw [lev_cons_cons, ih1, ih2, ih3, @lev_cons_cons _ _ c a b xs (ys ++ [y]),
      @lev_cons_cons _ _ c a b (xs ++ [x]) ys, @lev_cons_cons _ _ c a b xs ys]
    simp only [← Nat.add_min_add_right]
    ac_rfl

theorem lev_reverse : lev c xs.reverse ys.reverse = lev c xs ys := by
  induction xs, ys using lev.induct with
  | case1 ys => simp
  | case2 x xs => simp
  | case3 x xs y ys ih1 ih2 ih3 =>
    rw [List.reverse_cons] at ih1 ih2
    rw [List.reverse_cons, List.reverse_cons, lev_concat, ih3, lev_cons_cons, ← ih1, ← ih2]

theorem lev_comm : lev c xs ys = lev c ys xs := by
  induction xs, ys using lev.induct with
  | case1 ys => simp
  | case2 x xs => simp
  | case3 x xs y ys ih1 ih2 ih3 =>
    rw [lev_cons_cons, lev_cons_cons, ih1, ih2, ih3, Nat.min_left_comm]
    simp only [eq_comm]

theorem lev_le_cons_left : lev c xs ys ≤ lev c (x :: xs) ys + 1 := by
  induction ys with
  | nil =>
    rw [lev_nil_right, lev_nil_right, List.length_cons]
    omega
  | cons y ys ih =>
    rw [lev_cons_cons]
    have h : lev c xs (y :: ys) ≤ lev c xs ys + 1 := by
      cases xs with
      | nil =>
        rw [lev_nil_left, lev_nil_left]
        exact Nat.le_refl _
      | cons a xs =>
        rw [lev_cons_cons]
        omega
    omega

theorem lev_le_cons_right : lev c xs ys ≤ lev c xs (y :: ys) + 1 := by
  rw [lev_comm, @lev_comm _ _ c xs]
  exact lev_le_cons_left

/-- The distance grows on the diagonal. -/
theorem lev_le_cons_cons : lev c xs ys ≤ lev c (x :: xs) (y :: ys) := by
  have h1 := @lev_le_cons_right _ _ c y xs ys
  have h2 := @lev_le_cons_left _ _ c x xs ys
  rw [lev_cons_cons]
  omega

/-! ## At the last elements -/

theorem lev_le_concat_left : lev c xs ys ≤ lev c (xs ++ [x]) ys + 1 := by
  rw [← lev_reverse, ← @lev_reverse _ _ c (xs ++ [x]), List.reverse_append]
  exact lev_le_cons_left

theorem lev_le_concat_right : lev c xs ys ≤ lev c xs (ys ++ [y]) + 1 := by
  rw [lev_comm, @lev_comm _ _ c xs]
  exact lev_le_concat_left

theorem lev_le_concat_concat : lev c xs ys ≤ lev c (xs ++ [x]) (ys ++ [y]) := by
  rw [← lev_reverse, ← @lev_reverse _ _ c (xs ++ [x]), List.reverse_append, List.reverse_append]
  exact lev_le_cons_cons

end

end Arsh
