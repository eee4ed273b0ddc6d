import Mathlib.Tactic.Common
import Mathlib.Data.List.GetD
import Mathlib.Algebra.Group.Nat.Defs
import Mathlib.Algebra.Group.Int.Defs

/-!
# Tagged values

`TaggedValue` of `value.h`: eight bytes with a tag in the lowest three bits. Integers and floats are
rotated so that the tag fits in, strings of up to six bytes stand behind the byte with the tag. The
bytes are numbered from the lowest one.
-/

namespace Arsh.Tagged

abbrev Bytes := List (BitVec 8)

/-- The eight bytes of a value. -/
abbrev TValue := BitVec 64

inductive ValueTag where
  | object
  | empty
  | float
  | uint
  | int
  | string
  deriving DecidableEq, Repr

def ValueTag.toUnderlying : ValueTag → BitVec 8
  | .object => 0
  | .empty => 1
  | .float => 2
  | .uint => 3
  | .int => 4
  | .string => 5

inductive ValueKind where
  | empty
  | object
  | number
  | braceRangeAttr
  | stackGuard
  | dummy
  | expandMeta
  | invalid
  | bool
  | sig
  | smallInt
  | commonFloat
  | smallStr
  deriving DecidableEq, Repr

namespace ValueKind

def toUnderlying : ValueKind → BitVec 8
  | .empty => ValueTag.empty.toUnderlying
  | .object => ValueTag.object.toUnderlying
  | .number => (0x1 <<< 3) ||| ValueTag.uint.toUnderlying
  | .braceRangeAttr => (0x2 <<< 3) ||| ValueTag.uint.toUnderlying
  | .stackGuard => (0x3 <<< 3) ||| ValueTag.uint.toUnderlying
  | .dummy => (0x4 <<< 3) ||| ValueTag.uint.toUnderlying
  | .expandMeta => (0x5 <<< 3) ||| ValueTag.uint.toUnderlying
  | .invalid => (0x6 <<< 3) ||| ValueTag.uint.toUnderlying
  | .bool => (0x1 <<< 3) ||| ValueTag.int.toUnderlying
  | .sig => (0x2 <<< 3) ||| ValueTag.int.toUnderlying
  | .smallInt => (0x3 <<< 3) ||| ValueTag.int.toUnderlying
  | .commonFloat => ValueTag.float.toUnderlying
  | .smallStr => ValueTag.string.toUnderlying

def all : List ValueKind :=
  [.empty, .object, .number, .braceRangeAttr, .stackGuard, .dummy, .expandMeta, .invalid, .bool,
    .sig, .smallInt, .commonFloat, .smallStr]

/-- The kind of a byte, if it names one. -/
def ofByte (b : BitVec 8) : Option ValueKind := all.find? (·.toUnderlying == b)

theorem ofByte_toUnderlying (k : ValueKind) : ofByte k.toUnderlying = some k := by
  cases k <;> decide

end ValueKind

/-! ## Bits -/

def getTag (v : TValue) : BitVec 8 := (v &&& 0x7).setWidth 8

def hasTag (v : TValue) (t : ValueTag) : Bool := getTag v == t.toUnderlying

def rotateLeft (x : BitVec 64) (k : Nat) : BitVec 64 := (x <<< k) ||| (x >>> (64 - k))

def floatOffset (tag : ValueTag) : BitVec 64 := (1 + 2 * tag.toUnderlying.setWidth 64) <<< 58

/-- A double is the number with its bits. -/
def encodeTaggedFloat (tag : ValueTag) (u : BitVec 64) : TValue :=
  rotateLeft (u + floatOffset tag) 5

def decodeTaggedFloat (tag : ValueTag) (v : TValue) : BitVec 64 := rotateLeft v 59 - floatOffset tag

def int56Max : Int := 2 ^ 55 - 1

def int56Min : Int := -2 ^ 55

def withinInt56 (v : BitVec 64) : Bool := v.toInt ≥ int56Min && v.toInt ≤ int56Max

def encodeTaggedInt (tag : BitVec 8) (v : BitVec 64) : TValue :=
  (rotateLeft v 9 &&& ~~~0xFF) ||| tag.setWidth 64

def decodeTaggedInt (v : TValue) : BitVec 64 :=
  let vv := v &&& ~~~0xFF
  rotateLeft (if vv &&& 0x100 ≠ 0 then vv ||| 0xFF else vv) 55

def encodeTaggedUInt (tag : BitVec 8) (v : BitVec 64) : TValue :=
  (rotateLeft v 8 &&& ~~~0xFF) ||| tag.setWidth 64

def decodeTaggedUInt (v : TValue) : BitVec 64 := rotateLeft (v &&& ~~~0xFF) 56

section
variable {x v : BitVec 64} {tag : BitVec 8} {t : ValueTag} {i k : Nat}

theorem getLsbD_rotateLeft (hk : 0 < k) (hlt : k < 64) : (rotateLeft x k).getLsbD i =
    (decide (i < 64) && x.getLsbD (if i < k then 64 - k + i else i - k)) := by
  rw [rotateLeft, BitVec.getLsbD_or, BitVec.getLsbD_shiftLeft, BitVec.getLsbD_ushiftRight]
  by_cases hi : i < 64
  · by_cases hik : i < k
    · simp [hi, hik]
    · rw [BitVec.getLsbD_of_ge x (64 - k + i) (by omega)]
      simp [hi, hik]
  · rw [BitVec.getLsbD_of_ge x (64 - k + i) (by omega)]
    simp [hi]

/-- Two rotations that make a whole turn. -/
theorem rotateLeft_rotateLeft (hk : 0 < k) (hlt : k < 64) :
    rotateLeft (rotateLeft x k) (64 - k) = x := by
  apply BitVec.eq_of_getLsbD_eq
  intro i hi
  rw [getLsbD_rotateLeft (by omega) (by omega), getLsbD_rotateLeft hk hlt, decide_eq_true hi,
    Bool.true_and]
  split
  · rw [decide_eq_true (show 64 - (64 - k) + i < 64 by omega), if_neg (by omega), Bool.true_and]
    congr 1
    omega
  · rw [decide_eq_true (show i - (64 - k) < 64 by omega), if_pos (by omega), Bool.true_and]
    congr 1
    omega

theorem decodeTaggedFloat_encodeTaggedFloat : decodeTaggedFloat t (encodeTaggedFloat t v) = v := by
  rw [decodeTaggedFloat, encodeTaggedFloat, @rotateLeft_rotateLeft _ 5 (by decide) (by decide),
    BitVec.add_sub_cancel]

theorem getLsbD_ones (i : Nat) : (0xFF : BitVec 64).getLsbD i = decide (i < 8) := by
  by_cases hi : i < 64
  · have hall : ∀ i < 64, (0xFF : BitVec 64).getLsbD i = decide (i < 8) := by decide
    exact hall i hi
  · rw [BitVec.getLsbD_of_ge _ _ (by omega), decide_eq_false (by omega)]

theorem getLsbD_mask : (~~~(0xFF : BitVec 64)).getLsbD i = (decide (i < 64) && decide (8 ≤ i)) := by
  by_cases hi : i < 64
  · have hall : ∀ i < 64, (~~~(0xFF : BitVec 64)).getLsbD i = decide (8 ≤ i) := by decide
    rw [hall i hi, decide_eq_true hi, Bool.true_and]
  · rw [BitVec.getLsbD_of_ge _ _ (by omega), decide_eq_false hi, Bool.false_and]

/-- The low byte of an encoded integer is the tag. -/
theorem setWidth_tagged : ((x &&& ~~~0xFF) ||| tag.setWidth 64).setWidth 8 = tag := by
  apply BitVec.eq_of_getLsbD_eq
  intro i hi
  rw [BitVec.getLsbD_setWidth, BitVec.getLsbD_or, BitVec.getLsbD_and, getLsbD_mask,
    BitVec.getLsbD_setWidth, decide_eq_true hi, decide_eq_true (show i < 64 by omega),
    decide_eq_false (show ¬8 ≤ i by omega), Bool.and_false, Bool.and_false, Bool.false_or,
    Bool.true_and, Bool.true_and]

/-- The mask takes the tag away again. -/
theorem and_tagged : ((x &&& ~~~0xFF) ||| tag.setWidth 64) &&& ~~~0xFF = x &&& ~~~0xFF := by
  apply BitVec.eq_of_getLsbD_eq
  intro i hi
  rw [BitVec.getLsbD_and, BitVec.getLsbD_or, BitVec.getLsbD_and, getLsbD_mask,
    BitVec.getLsbD_setWidth, decide_eq_true hi]
  by_cases h8 : 8 ≤ i
  · rw [decide_eq_true h8, BitVec.getLsbD_of_ge tag i h8]
    simp
  · simp [h8]

theorem getTag_eq (v : TValue) : getTag v = v.setWidth 8 &&& 0x7 := by
  rw [getTag, BitVec.setWidth_and]
  rfl

theorem decodeTaggedUInt_encodeTaggedUInt (h : v.toNat < 2 ^ 56) :
    decodeTaggedUInt (encodeTaggedUInt tag v) = v := by
  rw [decodeTaggedUInt, encodeTaggedUInt, and_tagged]
  apply BitVec.eq_of_getLsbD_eq
  intro i hi
  rw [getLsbD_rotateLeft (by decide) (by decide), decide_eq_true hi, Bool.true_and,
    BitVec.getLsbD_and, getLsbD_mask, getLsbD_rotateLeft (by decide) (by decide)]
  by_cases h56 : i < 56
  · rw [if_pos h56, if_neg (by omega), decide_eq_true (show 64 - 56 + i < 64 by omega),
      decide_eq_true (show 8 ≤ 64 - 56 + i by omega), Bool.true_and, Bool.true_and, Bool.and_true]
    congr 1
    omega
  · have hzero : v.getLsbD i = false :=
      Nat.testBit_lt_two_pow (Nat.lt_of_lt_of_le h (Nat.pow_le_pow_right (by decide) (by omega)))
    rw [if_neg h56, decide_eq_false (show ¬8 ≤ i - 56 by omega), hzero, Bool.and_false,
      Bool.and_false]

/-- The bits of a small integer from the 56th on are its sign. -/
theorem getLsbD_of_withinInt56 (h : withinInt56 v = true) (hi : 55 ≤ i) (hlt : i < 64) :
    v.getLsbD i = v.getLsbD 63 := by
  obtain ⟨hmin, hmax⟩ := Bool.and_eq_true_iff.1 h
  have hlo : -2 ^ 55 ≤ v.toInt := of_decide_eq_true hmin
  have hhi : v.toInt ≤ 2 ^ 55 - 1 := of_decide_eq_true hmax
  rw [BitVec.toInt_eq_toNat_cond] at hlo hhi
  have hv := v.isLt
  have hpow : 2 ^ 55 ≤ 2 ^ i := Nat.pow_le_pow_right (by decide) hi
  by_cases hsmall : v.toNat < 2 ^ 55
  · have hzero : ∀ j, 2 ^ 55 ≤ 2 ^ j → v.getLsbD j = false := fun j hj =>
      Nat.testBit_lt_two_pow (Nat.lt_of_lt_of_le hsmall hj)
    rw [hzero i hpow, hzero 63 (by decide)]
  · have hnot : (~~~v).toNat < 2 ^ 55 := by
      rw [BitVec.toNat_not]
      split at hlo <;> omega
    have hone : ∀ j < 64, 2 ^ 55 ≤ 2 ^ j → v.getLsbD j = true := by
      intro j hj hle
      have hfalse : (~~~v).getLsbD j = false :=
        Nat.testBit_lt_two_pow (Nat.lt_of_lt_of_le hnot hle)
      rw [BitVec.getLsbD_not, decide_eq_true hj, Bool.true_and, Bool.not_eq_false'] at hfalse
      exact hfalse
    rw [hone i hlt hpow, hone 63 (by decide) (by decide)]

theorem and_bit_ne_zero : x &&& 0x100 ≠ 0 ↔ x.getLsbD 8 = true := by
  have hpow : (0x100 : BitVec 64) = BitVec.twoPow 64 8 := rfl
  rw [hpow, BitVec.and_twoPow]
  split
  · next h => exact ⟨fun _ => h, fun _ => by decide⟩
  · next h => exact ⟨fun hc => absurd rfl hc, fun hc => absurd hc h⟩

theorem decodeTaggedInt_encodeTaggedInt (h : withinInt56 v = true) :
    decodeTaggedInt (encodeTaggedInt tag v) = v := by
  rw [decodeTaggedInt, encodeTaggedInt, and_tagged]
  have hbit : ∀ j, (rotateLeft v 9 &&& ~~~0xFF).getLsbD j =
      (decide (j < 64) && (decide (8 ≤ j) && v.getLsbD (if j < 9 then 55 + j else j - 9))) := by
    intro j
    rw [BitVec.getLsbD_and, getLsbD_mask, getLsbD_rotateLeft (by decide) (by decide)]
    by_cases hj : j < 64 <;> by_cases h8 : 8 ≤ j <;> simp [hj, h8]
  have hsign : (rotateLeft v 9 &&& ~~~0xFF) &&& 0x100 ≠ 0 ↔ v.getLsbD 63 = true := by
    rw [and_bit_ne_zero, hbit]
    exact Iff.rfl
  have hpad : ∀ j < 64, (if (rotateLeft v 9 &&& ~~~0xFF) &&& 0x100 ≠ 0 then
      (rotateLeft v 9 &&& ~~~0xFF) ||| 0xFF else rotateLeft v 9 &&& ~~~0xFF).getLsbD j =
      if j < 9 then v.getLsbD 63 else v.getLsbD (j - 9) := by
    intro j hj
    by_cases h63 : v.getLsbD 63 = true
    · rw [if_pos (hsign.2 h63), BitVec.getLsbD_or, hbit, getLsbD_ones, decide_eq_true hj,
        Bool.true_and, h63]
      rcases Nat.lt_trichotomy j 8 with hlt | rfl | hgt
      · simp [hlt, show j < 9 by omega]
      · simpa using h63
      · simp [show ¬j < 9 by omega, show 8 ≤ j by omega, show ¬j < 8 by omega]
    · have h63' := Bool.eq_false_iff.2 h63
      rw [if_neg fun hc => h63 (hsign.1 hc), hbit, decide_eq_true hj, Bool.true_and, h63']
      rcases Nat.lt_trichotomy j 8 with hlt | rfl | hgt
      · simp [show j < 9 by omega, show ¬8 ≤ j by omega]
      · simpa using h63'
      · simp [show ¬j < 9 by omega, show 8 ≤ j by omega]
  apply BitVec.eq_of_getLsbD_eq
  intro i hi
  rw [getLsbD_rotateLeft (by decide) (by decide), decide_eq_true hi, Bool.true_and]
  by_cases h55 : i < 55
  · rw [if_pos h55, hpad _ (by omega), if_neg (by omega)]
    congr 1
    omega
  · rw [if_neg h55, hpad _ (by omega), if_pos (by omega)]
    exact (getLsbD_of_withinInt56 h (by omega) hi).symm

end

end Arsh.Tagged
