import Mathlib.Tactic.Common
import Mathlib.Algebra.Group.Nat.Defs
import Mathlib.Algebra.Group.Int.Defs

/-!
# The total order of doubles

`doubleToBits` and `compareByTotalOrder` of `misc/num_util.hpp`. A double is its bits: the bits below the
sign grow with the absolute value, and those of a NaN are above those of the infinity.
-/

namespace Arsh

abbrev Double := BitVec 64

namespace Double

def sign (d : Double) : Bool := 2 ^ 63 ≤ d.toNat

def magnitude (d : Double) : Nat := d.toNat % 2 ^ 63

def isNaN (d : Double) : Bool := 0x7ff0000000000000 < d.magnitude

def isInf (d : Double) : Bool := d.magnitude = 0x7ff0000000000000

/-- The order of the numbers, where both zeros are the same. -/
def signed (d : Double) : Int := if d.sign then -d.magnitude else d.magnitude

/-- `x < y`. -/
def lt (x y : Double) : Bool := !x.isNaN && !y.isNaN && x.signed < y.signed

/-- `x == y`. -/
def eq (x y : Double) : Bool := !x.isNaN && !y.isNaN && x.signed = y.signed

/-- `doubleToBits`, a 64-bit integer. -/
def doubleToBits (d : Double) : Int :=
  if d.isNaN then 0x7ff8000000000000
  else if d.isInf then if lt 0 d then 0x7ff0000000000000 else 0xfff0000000000000 - 2 ^ 64
  else d.toInt

def compareByTotalOrder (x y : Double) : Int :=
  if lt x y then -1
  else if lt y x then 1
  else
    let xx := doubleToBits x
    let yy := doubleToBits y
    if xx = yy then 0 else if xx < yy then -1 else 1

/-- The place in the order: all NaNs are the same and behind the numbers, `-0` is before `0`. -/
def rank (d : Double) : Int :=
  if d.isNaN then 2 ^ 63 else if d.sign then -d.magnitude - 1 else d.magnitude

theorem rank_bounds (d : Double) : (d.isNaN = true ∧ d.rank = 2 ^ 63) ∨
    d.isNaN = false ∧ d.magnitude ≤ 0x7ff0000000000000 ∧
      (d.sign = true ∧ d.toNat = d.magnitude + 2 ^ 63 ∧ d.rank = -d.magnitude - 1 ∧
          d.signed = -d.magnitude ∨
        d.sign = false ∧ d.toNat = d.magnitude ∧ d.rank = d.magnitude ∧ d.signed = d.magnitude) := by
  have hlt := d.isLt
  unfold rank signed
  cases hnan : d.isNaN with
  | true => exact .inl ⟨rfl, rfl⟩
  | false =>
    refine .inr ⟨rfl, Nat.le_of_not_lt (of_decide_eq_false hnan), ?_⟩
    cases hsign : d.sign with
    | true =>
      have := of_decide_eq_true hsign
      refine .inl ⟨rfl, ?_, rfl, rfl⟩
      unfold magnitude
      omega
    | false =>
      have := of_decide_eq_false hsign
      refine .inr ⟨rfl, ?_, rfl, rfl⟩
      unfold magnitude
      omega

/-- Equal bits are equal places. -/
theorem doubleToBits_spec (d : Double) : d.isNaN = true ∧ d.doubleToBits = 0x7ff8000000000000 ∨
    d.isNaN = false ∧ (0 ≤ d.rank ∧ d.doubleToBits = d.rank ∨
      d.rank < 0 ∧ d.doubleToBits = -d.rank - 1 - 2 ^ 63) := by
  unfold doubleToBits
  rcases rank_bounds d with ⟨hnan, -⟩ | ⟨hnan, hmag, hsign⟩
  · exact .inl ⟨hnan, if_pos hnan⟩
  · refine .inr ⟨hnan, ?_⟩
    have hpos : lt 0 d = decide (0 < d.signed) := by
      unfold lt
      rw [hnan]
      rfl
    rw [if_neg (by rw [hnan]; exact Bool.false_ne_true), hpos, BitVec.toInt_eq_toNat_cond]
    rcases hsign with ⟨-, hnat, hrank, hsigned⟩ | ⟨-, hnat, hrank, hsigned⟩
    · refine .inr ⟨by omega, ?_⟩
      split
      · next hinf =>
        have hinf := of_decide_eq_true hinf
        rw [if_neg (by rw [decide_eq_true_iff]; omega)]
        omega
      · rw [if_neg (by omega)]
        omega
    · refine .inl ⟨by omega, ?_⟩
      split
      · next hinf =>
        have hinf := of_decide_eq_true hinf
        rw [if_pos (by rw [decide_eq_true_iff]; omega)]
        omega
      · rw [if_pos (by omega)]
        omega

/-- Below a number is what is before it, but for the zeros. -/
theorem lt_spec (x y : Double) : lt x y = true → x.rank < y.rank := by
  unfold lt
  simp only [Bool.and_eq_true, Bool.not_eq_true', decide_eq_true_iff]
  rintro ⟨⟨hx, hy⟩, h⟩
  rcases rank_bounds x with ⟨hnan, -⟩ | ⟨-, -, hxs⟩
  · rw [hnan] at hx
    cases hx
  rcases rank_bounds y with ⟨hnan, -⟩ | ⟨-, -, hys⟩
  · rw [hnan] at hy
    cases hy
  rcases hxs with ⟨-, -, hxr, hxs⟩ | ⟨-, -, hxr, hxs⟩ <;>
    rcases hys with ⟨-, -, hyr, hys⟩ | ⟨-, -, hyr, hys⟩ <;> omega

theorem compareByTotalOrder_eq (x y : Double) : compareByTotalOrder x y =
    if x.rank < y.rank then -1 else if x.rank = y.rank then 0 else 1 := by
  unfold compareByTotalOrder
  split
  · next h => rw [if_pos (lt_spec x y h)]
  split
  · next h =>
    have := lt_spec y x h
    rw [if_neg (by omega), if_neg (by omega)]
  · next hxy hyx =>
    have hx := doubleToBits_spec x
    have hy := doubleToBits_spec y
    have hxr := rank_bounds x
    have hyr := rank_bounds y
    have hsigned : x.isNaN = false → y.isNaN = false → x.signed = y.signed := by
      intro hnx hny
      unfold lt at hxy hyx
      rw [hnx, hny] at hxy hyx
      simp only [Bool.not_false, Bool.true_and, decide_eq_true_iff] at hxy hyx
      omega
    dsimp only
    generalize x.doubleToBits = a at *
    generalize y.doubleToBits = b at *
    cases hnx : x.isNaN <;> cases hny : y.isNaN <;> simp only [hnx, hny] at hx hy hxr hyr hsigned <;>
      grind

theorem doubleToBits_of_compare {x y : Double} (h : compareByTotalOrder x y = 0) :
    doubleToBits x = doubleToBits y := by
  unfold compareByTotalOrder at h
  split at h
  · cases h
  split at h
  · cases h
  · dsimp only at h
    split at h
    · assumption
    · split at h <;> cases h

end Double

end Arsh
