import Arsh.Lib.Ranges
import Mathlib.Data.Nat.Notation

/-!
# Packed code point sets

`CodePointSetRef` and `CodePointSet` (`misc/codepoint_set.hpp`). A set is a buffer of 32-bit
values: first the ranges of the basic plane, two code points in a value; then the packed
ranges above it, a first code point and a size in a value; then the other ranges above it, two
values each. Values are natural numbers, `x >> 16` is `x / 0x10000`, `x & 0xFFFF` is
`x % 0x10000`. `contains_iff` is the meaning of a set that is `Wf`.
-/

namespace Arsh

open Ranges

/-! ## Code points -/

def isCodePoint (c : Int) : Bool := decide (0 ≤ c ∧ c ≤ 0x10FFFF)

def isBmpCodePoint (c : Int) : Bool := decide (0 ≤ c ∧ c ≤ 0xFFFF)

def isSupplementaryCodePoint (c : Int) : Bool := decide (0xFFFF < c ∧ c ≤ 0x10FFFF)

@[simp] theorem isCodePoint_iff {c : Int} : isCodePoint c = true ↔ 0 ≤ c ∧ c ≤ 0x10FFFF :=
  decide_eq_true_iff

@[simp] theorem isBmpCodePoint_iff {c : Int} : isBmpCodePoint c = true ↔ 0 ≤ c ∧ c ≤ 0xFFFF :=
  decide_eq_true_iff

@[simp] theorem isSupplementaryCodePoint_iff {c : Int} :
    isSupplementaryCodePoint c = true ↔ 0xFFFF < c ∧ c ≤ 0x10FFFF := decide_eq_true_iff

/-! ## Values -/

/-- `static_cast<uint16_t>`. -/
def toUInt16 (x : Int) : Nat := (x % 0x10000).toNat

/-- `static_cast<uint32_t>`. -/
def toUInt32 (x : Int) : Nat := (x % 0x100000000).toNat

/-- `static_cast<int>` of a 32-bit value. -/
def toInt32 (v : Nat) : Int := if v < 0x80000000 then v else v - 0x100000000

theorem toInt32_toUInt32 {x : Int} (h₀ : 0 ≤ x) (h : x ≤ 0x10FFFF) : toInt32 (toUInt32 x) = x := by
  unfold toInt32 toUInt32
  split <;> omega

/-- `BMPCodePointRange(uint16_t, uint16_t)`. -/
def packBMP (first last : Int) : Nat := toUInt16 first * 0x10000 + toUInt16 last

def firstBMP (v : Nat) : Int := (v / 0x10000 % 0x10000 : Nat)

def lastBMP (v : Nat) : Int := (v % 0x10000 : Nat)

/-- `PackedNonBMPCodePointRange::firstNonBMP`. -/
def firstPacked (v : Nat) : Int := (v % 0x200000 : Nat)

/-- `PackedNonBMPCodePointRange::lastNonBMP`. -/
def lastPacked (v : Nat) : Int := firstPacked v + (v / 0x200000 : Nat)

/-- `NonBMPCodePointRange::firstNonBMP`, of two adjacent values. -/
def firstNonBMP (v : Nat × Nat) : Int := toInt32 v.1

def lastNonBMP (v : Nat × Nat) : Int := toInt32 v.2

theorem firstBMP_packBMP {first last : Int} (h₀ : 0 ≤ first) (h : first ≤ 0xFFFF) :
    firstBMP (packBMP first last) = first := by
  unfold firstBMP packBMP toUInt16
  omega

theorem lastBMP_packBMP {first last : Int} (h₀ : 0 ≤ last) (h : last ≤ 0xFFFF) :
    lastBMP (packBMP first last) = last := by
  unfold lastBMP packBMP toUInt16
  omega

theorem lastBMP_le (v : Nat) : lastBMP v ≤ 0xFFFF := by
  unfold lastBMP
  omega

theorem firstBMP_nonneg (v : Nat) : 0 ≤ firstBMP v := by
  unfold firstBMP
  omega

/-! ## Sets -/

/-- `CodePointSet`: the sizes of the first two parts, and the buffer. -/
structure CodePointSet where
  bmpSize : Nat := 0
  packedNonBmpSize : Nat := 0
  buf : List Nat := []
  deriving DecidableEq, Repr

namespace CodePointSet

/-- Two adjacent values a range. -/
def pairUp : List Nat → List (Nat × Nat)
  | v :: w :: rest => (v, w) :: pairUp rest
  | _ => []

variable (s : CodePointSet)

def getBMPRanges : List Nat := s.buf.take s.bmpSize

def getPackedNonBMPRanges : List Nat := (s.buf.drop s.bmpSize).take s.packedNonBmpSize

def getNonBMPRanges : List (Nat × Nat) := pairUp (s.buf.drop (s.bmpSize + s.packedNonBmpSize))

def contains (c : Int) : Bool :=
  if c < 0 then false
  else if c ≤ 0xFFFF then binarySearch firstBMP lastBMP s.getBMPRanges c
  else if s.packedNonBmpSize ≠ 0 ∧
      binarySearch firstPacked lastPacked s.getPackedNonBMPRanges c then true
  else binarySearch firstNonBMP lastNonBMP s.getNonBMPRanges c

/-- The ranges of the three parts. -/
def ranges : List (Int × Int) :=
  s.getBMPRanges.map (fun v => (firstBMP v, lastBMP v)) ++
    s.getPackedNonBMPRanges.map (fun v => (firstPacked v, lastPacked v)) ++
    s.getNonBMPRanges.map fun v => (firstNonBMP v, lastNonBMP v)

/-- What the tables of the generated properties and the sets that are built have in common:
each part ascends, and the last two parts are above the basic plane. -/
structure Wf : Prop where
  bmp : Separated (s.getBMPRanges.map fun v => (firstBMP v, lastBMP v))
  packed : Separated (s.getPackedNonBMPRanges.map fun v => (firstPacked v, lastPacked v))
  nonBMP : Separated (s.getNonBMPRanges.map fun v => (firstNonBMP v, lastNonBMP v))
  packed_bound : ∀ v ∈ s.getPackedNonBMPRanges, 0xFFFF < firstPacked v ∧ lastPacked v ≤ 0x10FFFF
  nonBMP_bound : ∀ v ∈ s.getNonBMPRanges, 0xFFFF < firstNonBMP v ∧ lastNonBMP v ≤ 0x10FFFF

variable {s} {c : Int}

theorem getPackedNonBMPRanges_eq_nil (h : s.packedNonBmpSize = 0) :
    s.getPackedNonBMPRanges = [] := by
  unfold getPackedNonBMPRanges
  rw [h, List.take_zero]

/-- The basic plane ends where the ranges above it begin. -/
theorem Wf.mem_ranges (h : s.Wf) :
    c ∈ points s.ranges ↔
      if c ≤ 0xFFFF then c ∈ points (s.getBMPRanges.map fun v => (firstBMP v, lastBMP v))
      else c ∈ points (s.getPackedNonBMPRanges.map fun v => (firstPacked v, lastPacked v)) ∨
        c ∈ points (s.getNonBMPRanges.map fun v => (firstNonBMP v, lastNonBMP v)) := by
  unfold ranges
  rw [mem_points_append, mem_points_append, or_assoc]
  split
  · next hc =>
    apply or_iff_left
    rintro (hm | hm)
    · simp only [mem_points, List.mem_map, exists_exists_and_eq_and] at hm
      obtain ⟨v, hv, hfirst, -⟩ := hm
      have := (h.packed_bound v hv).1
      omega
    · simp only [mem_points, List.mem_map, exists_exists_and_eq_and] at hm
      obtain ⟨v, hv, hfirst, -⟩ := hm
      have := (h.nonBMP_bound v hv).1
      omega
  · next hc =>
    apply or_iff_right
    intro hm
    simp only [mem_points, List.mem_map, exists_exists_and_eq_and] at hm
    obtain ⟨v, -, -, hlast⟩ := hm
    have := lastBMP_le v
    omega

theorem Wf.nonneg (h : s.Wf) (hc : c ∈ points s.ranges) : 0 ≤ c := by
  rw [h.mem_ranges] at hc
  split at hc
  · simp only [mem_points, List.mem_map, exists_exists_and_eq_and] at hc
    obtain ⟨v, -, hfirst, -⟩ := hc
    exact (firstBMP_nonneg v).trans hfirst
  · omega

/-- A set contains the points of its ranges. -/
theorem Wf.contains_iff (h : s.Wf) : s.contains c = true ↔ c ∈ points s.ranges := by
  rw [h.mem_ranges]
  unfold contains
  by_cases hneg : c < 0
  · rw [if_pos hneg, if_pos (by omega)]
    constructor
    · intro hf
      cases hf
    · intro hm
      have h₀ : 0 ≤ c := h.nonneg (by
        rw [h.mem_ranges, if_pos (by omega)]
        exact hm)
      omega
  rw [if_neg hneg]
  by_cases hc : c ≤ 0xFFFF
  · rw [if_pos hc, if_pos hc]
    exact h.bmp.binarySearch_iff
  rw [if_neg hc, if_neg hc, ← h.packed.binarySearch_iff, ← h.nonBMP.binarySearch_iff]
  by_cases hsize : s.packedNonBmpSize = 0
  · rw [getPackedNonBMPRanges_eq_nil hsize, if_neg (by simp [hsize])]
    simp [binarySearch]
  · split
    · next hp => simp [hp.2]
    · next hp => simp [hsize] at hp; simp [hp]

end CodePointSet

end Arsh
