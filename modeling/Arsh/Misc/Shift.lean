import Mathlib.Tactic.Common
import Mathlib.Tactic.Positivity

/-!
# Shift operators

`leftShift`, `rightShift` and `unsignedRightShift` of `misc/num_util.hpp`, with the steps that C++
leaves undefined (a shift by the width, a division by zero, a signed overflow) as `none`. No step
is one of them, and the results are those of the definition for 64 bits (`shift_spec`).
-/

namespace Arsh

/-! ## Machine arithmetic -/

def shiftLeft64 (x n : UInt64) : Option UInt64 := if n < 64 then some (x <<< n) else none

def shiftRight64 (x n : UInt64) : Option UInt64 := if n < 64 then some (x >>> n) else none

/-- `>>` of an `int64_t`. -/
def arithShiftRight64 (x : Int64) (n : UInt64) : Option Int64 :=
  if n < 64 then some (Int64.ofBitVec (x.toBitVec.sshiftRight n.toNat)) else none

def inInt64 (z : Int) : Prop := -2 ^ 63 ≤ z ∧ z < 2 ^ 63

instance (z : Int) : Decidable (inInt64 z) := inferInstanceAs (Decidable (_ ∧ _))

def sub64 (x y : Int64) : Option Int64 :=
  if inInt64 (x.toInt - y.toInt) then some (x - y) else none

/-- `lldiv`, and `/` as its quotient. -/
def lldiv (x y : Int64) : Option (Int64 × Int64) :=
  if y = 0 ∨ x = Int64.minValue ∧ y = -1 then none else some (x / y, x % y)

/-- `smul_overflow`: whether the product overflows, and the product that is stored. -/
def smulOverflow (x y : Int64) : Bool × Int64 := (decide ¬ inInt64 (x.toInt * y.toInt), x * y)

/-! ## The source -/

def leftShift (left right : Int64) : Option Int64 :=
  (shiftLeft64 1 (right.toUInt64 &&& 0x3f)).map fun v =>
    let (overflow, ret) := smulOverflow left v.toInt64
    if overflow then (left.toUInt64 * v).toInt64 else ret

def floorDiv (left right : Int64) : Option Int64 :=
  if 0 < (left.toUInt64 ^^^ right.toUInt64).toInt64 then (lldiv left right).map Prod.fst
  else
    (lldiv left right).bind fun (quot, rem) => if rem = 0 then some quot else sub64 quot 1

def rightShift (left right : Int64) : Option Int64 :=
  let v := right.toUInt64 &&& 0x3f
  if 0 < left then arithShiftRight64 left v
  else if v = 63 then
    (floorDiv left ((1 : UInt64) <<< 62).toInt64).bind fun left =>
      (shiftLeft64 1 1).bind fun v => floorDiv left v.toInt64
  else (shiftLeft64 1 v).bind fun v => floorDiv left v.toInt64

def unsignedRightShift (left right : Int64) : Option Int64 :=
  (shiftRight64 left.toUInt64 (right.toUInt64 &&& 0x3f)).map UInt64.toInt64

/-! ## Steps -/

section
variable {left right ret : Int64} {v n : UInt64} {k : Nat}

theorem toNat_count (right : Int64) :
    (right.toUInt64 &&& 0x3f).toNat = (right.toInt % 64).toNat := by
  have hmod : (right.toUInt64 &&& 0x3f).toNat = right.toUInt64.toNat % 64 := by
    rw [UInt64.toNat_and]
    exact Nat.and_two_pow_sub_one_eq_mod _ 6
  have hcond := BitVec.toInt_eq_toNat_cond right.toBitVec
  have hint : right.toBitVec.toInt = right.toInt := rfl
  have hnat : right.toUInt64.toNat = right.toBitVec.toNat := rfl
  rw [hmod, hnat, ← hint, hcond]
  split <;> omega

theorem count_lt (right : Int64) : (right.toInt % 64).toNat < 64 := by omega

/-- The power of two that a shift goes through. -/
theorem shiftLeft64_one (h : n.toNat = k) (hk : k < 64) :
    ∃ v, shiftLeft64 1 n = some v ∧ v.toNat = 2 ^ k := by
  refine ⟨1 <<< n, if_pos (UInt64.lt_iff_toNat_lt.2 (by rw [h]; exact hk)), ?_⟩
  have hpow : 2 ^ k < 2 ^ 64 := Nat.pow_lt_pow_right (by decide) hk
  rw [UInt64.toNat_shiftLeft, h, Nat.mod_eq_of_lt hk, Nat.shiftLeft_eq]
  exact (Nat.mod_eq_of_lt (by simpa using hpow)).trans (Nat.one_mul _)

theorem toInt_toInt64 (v : UInt64) : v.toInt64.toInt = (v.toNat : Int).bmod (2 ^ 64) :=
  BitVec.toInt_eq_toNat_bmod _

theorem leftShift_spec (left right : Int64) : ∃ ret, leftShift left right = some ret ∧
    ret.toInt = (left.toInt * 2 ^ (right.toInt % 64).toNat).bmod (2 ^ 64) := by
  obtain ⟨v, hv, hpow⟩ := shiftLeft64_one (toNat_count right) (count_lt right)
  have hmul : (left.toUInt64 * v).toInt64 = left * v.toInt64 := rfl
  refine ⟨left * v.toInt64, ?_, ?_⟩
  · rw [leftShift, hv]
    simp only [Option.map_some, smulOverflow, hmul, ite_self]
  · rw [Int64.toInt_mul, toInt_toInt64, Int.mul_bmod_bmod, hpow]
    norm_cast

theorem unsignedRightShift_spec (left right : Int64) :
    ∃ ret, unsignedRightShift left right = some ret ∧
      ret.toBitVec = left.toBitVec >>> (right.toInt % 64).toNat := by
  have hn := toNat_count right
  have hlt := count_lt right
  refine ⟨(left.toUInt64 >>> (right.toUInt64 &&& 0x3f)).toInt64, ?_, BitVec.eq_of_toNat_eq ?_⟩
  · rw [unsignedRightShift, shiftRight64, if_pos (UInt64.lt_iff_toNat_lt.2 (by rw [hn]; exact hlt))]
    rfl
  · have hshift := UInt64.toNat_shiftRight left.toUInt64 (right.toUInt64 &&& 0x3f)
    rw [hn, Nat.mod_eq_of_lt hlt] at hshift
    rw [BitVec.toNat_ushiftRight]
    exact hshift

/-! ## Division -/

/-- The sign that `floorDiv` looks at. -/
theorem xor_pos (x y : Int64) : 0 < (x.toUInt64 ^^^ y.toUInt64).toInt64 ↔
    (x.toInt < 0 ↔ y.toInt < 0) ∧ x ≠ y := by
  have hxor : (x.toUInt64 ^^^ y.toUInt64).toInt64 = x ^^^ y := rfl
  have hmsb : decide ((x ^^^ y).toInt < 0) = (decide (x.toInt < 0) ^^ decide (y.toInt < 0)) := by
    have h := BitVec.msb_xor (x := x.toBitVec) (y := y.toBitVec)
    rwa [BitVec.msb_eq_toInt, BitVec.msb_eq_toInt, BitVec.msb_eq_toInt] at h
  have hzero : (x ^^^ y).toInt = 0 ↔ x = y := by
    rw [← Int64.xor_eq_zero_iff, ← Int64.toInt_inj]
    rfl
  rw [hxor, Int64.lt_iff_toInt_lt]
  have h0 : (0 : Int64).toInt = 0 := rfl
  rw [h0]
  constructor
  · intro hpos
    rw [decide_eq_false (by omega)] at hmsb
    refine ⟨?_, fun heq => ?_⟩
    · by_cases hx : x.toInt < 0 <;> by_cases hy : y.toInt < 0 <;> simp [hx, hy] at hmsb ⊢
    · have := hzero.2 heq
      omega
  · rintro ⟨hsign, hne⟩
    have hnz : (x ^^^ y).toInt ≠ 0 := fun h => hne (hzero.1 h)
    have hnn : ¬ (x ^^^ y).toInt < 0 := by
      intro hc
      rw [decide_eq_true hc] at hmsb
      by_cases hx : x.toInt < 0 <;> by_cases hy : y.toInt < 0 <;> simp_all
    omega

theorem lldiv_spec {x y : Int64} (hy : y ≠ 0) (h : ¬ (x = Int64.minValue ∧ y = -1)) :
    lldiv x y = some (x / y, x % y) ∧ (x / y).toInt = x.toInt.tdiv y.toInt := by
  refine ⟨if_neg (by simp only [hy, h, or_self, not_false_eq_true]), ?_⟩
  by_cases hx : x = Int64.minValue
  · exact Int64.toInt_div_of_ne_right x y fun hc => h ⟨hx, hc⟩
  · exact Int64.toInt_div_of_ne_left x y hx

theorem fdiv_of_same_sign {x y : Int} (h : x < 0 ↔ y < 0) : x.fdiv y = x.tdiv y := by
  rw [Int.fdiv_eq_tdiv]
  split
  · rw [Int.sub_zero]
  split
  · rw [if_pos (by omega), Int.sub_zero]
  · rw [if_neg (by omega), Int.sign_eq_neg_one_of_neg (by omega)]
    omega

theorem fdiv_of_other_sign {x y : Int} (h : ¬ (x < 0 ↔ y < 0)) (hy : y ≠ 0) (hd : ¬ y ∣ x) :
    x.fdiv y = x.tdiv y - 1 := by
  rw [Int.fdiv_eq_tdiv, if_neg hd]
  split
  · rw [if_neg (by omega)]
  · rw [if_pos (by omega), Int.sign_eq_one_of_pos (by omega)]

/-- With a remainder the quotient is far from the least number. -/
theorem inInt64_quot_sub_one {x y : Int} (hx : inInt64 x) (hy : y ≠ 0) (hd : ¬ y ∣ x) :
    inInt64 (x.tdiv y - 1) := by
  have hone : y.natAbs ≠ 1 := by
    intro hc
    exact hd (Int.natAbs_dvd_natAbs.1 (by rw [hc]; exact Nat.one_dvd _))
  have hle : x.natAbs / y.natAbs ≤ x.natAbs / 2 := Nat.div_le_div_left (by omega) (by decide)
  have habs : (x.tdiv y).natAbs = x.natAbs / y.natAbs := Int.natAbs_tdiv x y
  unfold inInt64 at hx ⊢
  omega

/-- `floorDiv` rounds down. -/
theorem floorDiv_spec {x y : Int64} (hy : y ≠ 0) (h : ¬ (x = Int64.minValue ∧ y = -1)) :
    ∃ ret, floorDiv x y = some ret ∧ ret.toInt = x.toInt.fdiv y.toInt := by
  obtain ⟨hdiv, hquot⟩ := lldiv_spec hy h
  have hy' : y.toInt ≠ 0 := fun hc => hy (Int64.toInt_inj.1 hc)
  have hrem : x % y = 0 ↔ y.toInt ∣ x.toInt := by
    rw [← Int64.toInt_inj, Int64.toInt_mod]
    exact Int.dvd_iff_tmod_eq_zero.symm
  rw [floorDiv, hdiv]
  split
  · next hpos =>
    refine ⟨x / y, rfl, ?_⟩
    rw [hquot, fdiv_of_same_sign ((xor_pos x y).1 hpos).1]
  · next hpos =>
    simp only [Option.bind_some]
    split
    · next h0 =>
      refine ⟨x / y, rfl, ?_⟩
      rw [hquot, Int.fdiv_eq_tdiv, if_pos (hrem.1 h0), Int.sub_zero]
    · next h0 =>
      have hd : ¬ y.toInt ∣ x.toInt := fun hc => h0 (hrem.2 hc)
      have hsign : ¬ (x.toInt < 0 ↔ y.toInt < 0) := fun hc => hpos ((xor_pos x y).2
        ⟨hc, fun heq => hd (heq ▸ Int.dvd_refl _)⟩)
      have hone : (1 : Int64).toInt = 1 := rfl
      have hin := inInt64_quot_sub_one ⟨Int64.le_toInt x, Int64.toInt_lt x⟩ hy' hd
      rw [sub64, hquot, hone, if_pos hin]
      refine ⟨_, rfl, ?_⟩
      rw [Int64.toInt_sub, hquot, hone, fdiv_of_other_sign hsign hy' hd]
      exact Int.bmod_eq_of_le hin.1 hin.2

/-! ## The arithmetic shift -/

/-- Division by a power of two. -/
theorem floorDiv_pow {x : Int64} {v : UInt64} (hv : v.toNat = 2 ^ k) (hk : k < 63) :
    ∃ ret, floorDiv x v.toInt64 = some ret ∧ ret.toInt = x.toInt.fdiv (2 ^ k) := by
  have hlt : 2 ^ k < 2 ^ 63 := Nat.pow_lt_pow_right (by decide) hk
  have hpos : 0 < 2 ^ k := Nat.two_pow_pos k
  have hint : v.toInt64.toInt = 2 ^ k := by
    rw [toInt_toInt64, hv, Int.bmod_eq_of_le (by omega) (by omega)]
    norm_cast
  have hcast : ((2 ^ k : Nat) : Int) = 2 ^ k := by norm_cast
  obtain ⟨ret, hret, hdiv⟩ := @floorDiv_spec x v.toInt64
    (fun hc => by
      have h0 : v.toInt64.toInt = 0 := congrArg Int64.toInt hc
      omega)
    (fun hc => by
      have h1 : v.toInt64.toInt = -1 := congrArg Int64.toInt hc.2
      omega)
  exact ⟨ret, hret, hint ▸ hdiv⟩

theorem rightShift_spec (left right : Int64) : ∃ ret, rightShift left right = some ret ∧
    ret.toInt = left.toInt.fdiv (2 ^ (right.toInt % 64).toNat) := by
  have hn := toNat_count right
  have hlt := count_lt right
  rw [rightShift]
  generalize right.toUInt64 &&& 0x3f = v at *
  generalize (right.toInt % 64).toNat = k at *
  split
  · have hv : v < 64 := UInt64.lt_iff_toNat_lt.2 (by rw [hn]; exact hlt)
    rw [arithShiftRight64, if_pos hv]
    refine ⟨_, rfl, ?_⟩
    rw [Int.fdiv_eq_ediv_of_nonneg _ (by positivity), hn]
    apply BitVec.toInt_sshiftRight.trans
    rw [Int.shiftRight_eq_div_pow]
    norm_cast
  split
  · next h =>
    have hk : k = 63 := by rw [← hn, h]; rfl
    obtain ⟨half, hhalf, hdiv⟩ := @floorDiv_pow 62 left ((1 : UInt64) <<< 62) rfl (by decide)
    obtain ⟨ret, hret, hdiv'⟩ := @floorDiv_pow 1 half 2 rfl (by decide)
    refine ⟨ret, ?_, ?_⟩
    · rw [hhalf]
      exact hret
    · rw [hdiv', hdiv, hk, Int.fdiv_eq_ediv_of_nonneg _ (by decide),
        Int.fdiv_eq_ediv_of_nonneg _ (by decide), Int.fdiv_eq_ediv_of_nonneg _ (by decide),
        Int.ediv_ediv_of_nonneg (by decide)]
      rfl
  · next h =>
    have hk : k ≠ 63 := fun hc => h (UInt64.toNat_inj.1 (by rw [hn, hc]; rfl))
    obtain ⟨v', hv', hpow⟩ := shiftLeft64_one hn hlt
    rw [hv']
    exact floorDiv_pow hpow (by omega)

/-- The shift operators compute what the definition for 64 bits says, by the count modulo 64, and
no step on the way is undefined. -/
theorem shift_spec (left right : Int64) :
    (∃ ret, leftShift left right = some ret ∧
      ret.toInt = (left.toInt * 2 ^ (right.toInt % 64).toNat).bmod (2 ^ 64)) ∧
    (∃ ret, rightShift left right = some ret ∧
      ret.toInt = left.toInt.fdiv (2 ^ (right.toInt % 64).toNat)) ∧
    ∃ ret, unsignedRightShift left right = some ret ∧
      ret.toBitVec = left.toBitVec >>> (right.toInt % 64).toNat :=
  ⟨leftShift_spec left right, rightShift_spec left right, unsignedRightShift_spec left right⟩

end

end Arsh
