import Mathlib.Data.Nat.Bitwise

/-!
# Bits of natural numbers

Fields that are put together by `|||` and taken apart by shifts and masks, as arithmetic; numbers
that are written as bytes, the highest first.
-/

namespace Arsh

section
variable {k m n x y : Nat}

theorem or_shift (h : x < 2 ^ k) : x ||| (y <<< k) = x + y * 2 ^ k := by
  rw [Nat.or_comm, ← Nat.shiftLeft_add_eq_or_of_lt h, Nat.shiftLeft_eq, Nat.add_comm]

theorem shift_or (h : x < 2 ^ k) : (y <<< k) ||| x = y * 2 ^ k + x := by
  rw [Nat.or_comm, or_shift h, Nat.add_comm]

theorem shiftRight_and : x >>> k &&& (2 ^ n - 1) = x / 2 ^ k % 2 ^ n := by
  rw [Nat.shiftRight_eq_div_pow, Nat.and_two_pow_sub_one_eq_mod]

end

/-! ## Big-endian numbers -/

namespace BigEndian

/-- The lowest `size` bytes of a number, the highest of them first. -/
def put (size v : Nat) : List Nat :=
  (List.range size).map fun i => v >>> ((size - 1 - i) * 8) &&& 0xFF

/-- The number that the bytes stand for. -/
def get (bytes : List Nat) : Nat := bytes.foldl (fun ret b => ret <<< 8 ||| b) 0

theorem length_put (size v : Nat) : (put size v).length = size := by
  rw [put, List.length_map, List.length_range]

theorem put_succ (size v : Nat) : put (size + 1) v = put size (v >>> 8) ++ [v &&& 0xFF] := by
  unfold put
  rw [List.range_succ, List.map_append]
  congr 1
  · apply List.map_congr_left
    intro i hi
    have hi := List.mem_range.1 hi
    rw [← Nat.shiftRight_add, show (size + 1 - 1 - i) * 8 = 8 + (size - 1 - i) * 8 by omega]
  · rw [List.map_singleton, Nat.add_sub_cancel, Nat.sub_self, Nat.zero_mul, Nat.shiftRight_zero]

theorem get_put {size v : Nat} (h : v < 2 ^ (8 * size)) : get (put size v) = v := by
  induction size generalizing v with
  | zero =>
    have : v = 0 := by simpa using h
    rw [this]
    rfl
  | succ size ih =>
    have hlt : v >>> 8 < 2 ^ (8 * size) := by
      rw [Nat.shiftRight_eq_div_pow]
      exact Nat.div_lt_of_lt_mul (by rwa [← Nat.pow_add, Nat.add_comm, ← Nat.mul_succ])
    have hlow : v &&& 0xFF < 2 ^ 8 := Nat.and_lt_two_pow (n := 8) _ (by decide)
    have hmod : v &&& 0xFF = v % 2 ^ 8 := Nat.and_two_pow_sub_one_eq_mod v 8
    rw [put_succ, get, List.foldl_append]
    show get (put size (v >>> 8)) <<< 8 ||| (v &&& 0xFF) = v
    rw [ih hlt, shift_or hlow, hmod, Nat.shiftRight_eq_div_pow, Nat.div_add_mod']

end BigEndian

end Arsh
