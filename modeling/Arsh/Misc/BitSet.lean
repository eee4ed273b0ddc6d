import Mathlib.Data.List.Basic
import Mathlib.Data.List.GetD
import Mathlib.Data.List.Range
import Mathlib.Tactic.Common

/-!
# Bit sets

`BitSet` of `misc/bitset.hpp`; the words of 64 bits are one list. The set bits in their order are
`indices`: `getNthSetBitIndex` gives one by its number, and `nextSetBit` the one behind another.
-/

namespace Arsh

structure BitSet where
  bits : List Bool
  deriving DecidableEq, Repr

namespace BitSet

/-! ## The source -/

/-- `BitSet(nbits)`. -/
def new (nbits : Nat) : BitSet := ⟨List.replicate nbits false⟩

def size (s : BitSet) : Nat := s.bits.length

def test (s : BitSet) (pos : Nat) : Bool := s.bits.getD pos false

def set (s : BitSet) (pos : Nat) : BitSet := ⟨s.bits.set pos true⟩

def reset (s : BitSet) (pos : Nat) : BitSet := ⟨s.bits.set pos false⟩

def clear (s : BitSet) : BitSet := ⟨List.replicate s.size false⟩

def count (s : BitSet) : Nat := s.bits.count true

/-- The number of bits before the first set one. -/
def countTailZero (s : BitSet) : Nat := s.bits.findIdx id

def nextSetBit (s : BitSet) (fromIndex : Nat) : Nat :=
  if fromIndex = 0 then s.countTailZero
  else fromIndex + (s.bits.drop fromIndex).findIdx id

/-- The positions that `iterateSetBit` looks at. -/
def positions (s : BitSet) : List Nat :=
  List.range' s.countTailZero (s.size - s.countTailZero)

/-- The loop of `getNthSetBitIndex` over the positions. -/
def nthLoop (s : BitSet) (n : Nat) : List Nat → Nat → Nat → Nat
  | [], index, _ => index
  | setIndex :: rest, index, count =>
    if s.test setIndex then
      if count ≤ n then nthLoop s n rest setIndex (count + 1)
      else index
    else nthLoop s n rest index count

def getNthSetBitIndex (s : BitSet) (n : Nat) : Nat := s.nthLoop n s.positions 0 0

def resetIf (s : BitSet) (func : Nat → Bool) : BitSet :=
  s.positions.foldl (fun s i => if s.test i && func i then s.reset i else s) s

/-! ## Bits -/

section
variable {s : BitSet} {i j n k : Nat} {f : Nat → Bool} {l : List Nat}

/-- The set bits in their order. -/
def indices (s : BitSet) : List Nat := (List.range s.size).filter s.test

theorem test_of_le (h : s.size ≤ i) : s.test i = false := List.getD_eq_default _ _ h

@[simp] theorem size_set : (s.set i).size = s.size := List.length_set

@[simp] theorem size_reset : (s.reset i).size = s.size := List.length_set

@[simp] theorem size_new : (new n).size = n := List.length_replicate

@[simp] theorem size_clear : s.clear.size = s.size := List.length_replicate

@[simp] theorem test_new : (new n).test i = false := by
  unfold test new
  by_cases h : i < n
  · rw [List.getD_eq_getElem _ _ (by simpa using h), List.getElem_replicate]
  · exact List.getD_eq_default _ _ (by simpa using h)

@[simp] theorem test_clear : s.clear.test i = false := test_new

theorem test_set (h : i < s.size) : (s.set i).test j = (decide (i = j) || s.test j) := by
  unfold test set
  by_cases hij : i = j
  · subst hij
    have hlt : i < (s.bits.set i true).length := by
      rw [List.length_set]
      exact h
    rw [List.getD_eq_getElem _ _ hlt, List.getElem_set_self]
    simp
  · simp [List.getD_eq_getElem?_getD, List.getElem?_set_ne hij, hij]

theorem test_reset : (s.reset i).test j = (decide (i ≠ j) && s.test j) := by
  unfold test reset
  by_cases hij : i = j
  · subst hij
    by_cases h : i < s.bits.length
    · rw [List.getD_eq_getElem _ _ (by simpa using h), List.getElem_set_self]
      simp
    · rw [List.getD_eq_default _ _ (by simpa using h)]
      simp
  · simp [List.getD_eq_getElem?_getD, List.getElem?_set_ne hij, hij]

theorem mem_indices : i ∈ s.indices ↔ s.test i = true := by
  simp only [indices, List.mem_filter, List.mem_range, and_iff_right_iff_imp]
  intro h
  by_contra hlt
  rw [test_of_le (not_lt.1 hlt)] at h
  cases h

theorem bits_eq : s.bits = (List.range s.size).map s.test := by
  refine List.ext_getElem (by simp [size]) fun i h _ => ?_
  rw [List.getElem_map, List.getElem_range, test, List.getD_eq_getElem _ _ h]

theorem count_eq : s.count = s.indices.length := by
  rw [count, bits_eq, List.count_eq_countP, List.countP_map, indices,
    ← List.countP_eq_length_filter]
  congr 1
  funext i
  simp

theorem indices_sorted : s.indices.Pairwise (· < ·) :=
  List.Pairwise.filter _ List.pairwise_lt_range

theorem indices_lt_size (h : i ∈ s.indices) : i < s.size := by
  rw [indices, List.mem_filter, List.mem_range] at h
  exact h.1

theorem test_before (h : i < s.countTailZero) : s.test i = false := by
  have hlen : i < s.bits.length := Nat.lt_of_lt_of_le h List.findIdx_le_length
  have hnot := List.not_of_lt_findIdx h
  rw [test, List.getD_eq_getElem _ _ hlen]
  simpa using hnot

/-- No set bit is left out by the positions. -/
theorem filter_positions : s.positions.filter s.test = s.indices := by
  have hle : s.countTailZero ≤ s.size := List.findIdx_le_length
  have hsplit : List.range s.size = List.range s.countTailZero ++ s.positions := by
    have happ : List.range' 0 s.countTailZero ++ List.range' (0 + s.countTailZero) _ =
      List.range' 0 (_ + (s.size - s.countTailZero)) := List.range'_append_1
    rw [Nat.zero_add, Nat.add_sub_cancel' hle] at happ
    rw [List.range_eq_range', List.range_eq_range', positions, happ]
  have hnone : (List.range s.countTailZero).filter s.test = [] := by
    rw [List.filter_eq_nil_iff]
    intro i hi
    rw [test_before (List.mem_range.1 hi)]
    decide
  rw [indices, hsplit, List.filter_append, hnone, List.nil_append]

/-! ## The set bits by their number -/

theorem nthLoop_of_lt (h : n < k) : s.nthLoop n l i k = i := by
  induction l with
  | nil => rfl
  | cons j l ih =>
    rw [nthLoop]
    split
    · rw [if_neg (by omega)]
    · exact ih

theorem nthLoop_eq (hk : k ≤ n) (h : n - k < (l.filter s.test).length) :
    s.nthLoop n l i k = (l.filter s.test)[n - k] := by
  induction l generalizing i k with
  | nil => simp at h
  | cons j l ih =>
    rw [nthLoop]
    by_cases ht : s.test j = true
    · simp only [List.filter_cons, ht, if_true] at h ⊢
      rw [if_pos hk]
      rcases Nat.lt_or_eq_of_le hk with hlt | rfl
      · have hsub : n - k = n - (k + 1) + 1 := by omega
        simp only [hsub, List.length_cons, List.getElem_cons_succ] at h ⊢
        exact ih hlt (by omega)
      · rw [nthLoop_of_lt (Nat.lt_succ_self k)]
        simp
    · simp only [List.filter_cons, ht] at h ⊢
      exact ih hk h

theorem getNthSetBitIndex_eq (h : n < s.indices.length) :
    s.getNthSetBitIndex n = s.indices[n] := by
  have h' : n - 0 < (s.positions.filter s.test).length := by rwa [filter_positions]
  rw [getNthSetBitIndex, nthLoop_eq (Nat.zero_le n) h']
  simp only [filter_positions, Nat.sub_zero]

theorem nextSetBit_eq_findIdx : s.nextSetBit i = i + (s.bits.drop i).findIdx id := by
  unfold nextSetBit
  split
  · next h =>
    subst h
    simp [countTailZero]
  · rfl

/-- The next set bit is the first one from the position on. -/
theorem nextSetBit_eq (hij : i ≤ j) (ht : s.test j = true)
    (h : ∀ k, i ≤ k → k < j → s.test k = false) : s.nextSetBit i = j := by
  have hj : j < s.bits.length := by
    by_contra hge
    rw [test_of_le (not_lt.1 hge)] at ht
    cases ht
  have hidx : (s.bits.drop i).findIdx id = j - i := by
    rw [List.findIdx_eq (by rw [List.length_drop]; omega)]
    constructor
    · rw [List.getElem_drop]
      rw [test, List.getD_eq_getElem _ _ hj] at ht
      simpa [Nat.add_sub_cancel' hij] using ht
    · intro m hm
      have hf := h (i + m) (by omega) (by omega)
      rw [test, List.getD_eq_getElem _ _ (by omega)] at hf
      rw [List.getElem_drop]
      exact hf
  rw [nextSetBit_eq_findIdx, hidx]
  omega

theorem nextSetBit_getNth (h : n + 1 < s.indices.length) :
    s.nextSetBit (s.getNthSetBitIndex n + 1) = s.getNthSetBitIndex (n + 1) := by
  rw [getNthSetBitIndex_eq (Nat.lt_of_succ_lt h), getNthSetBitIndex_eq h]
  have hsorted := s.indices_sorted
  rw [List.pairwise_iff_getElem] at hsorted
  refine nextSetBit_eq (hsorted n (n + 1) _ h (Nat.lt_succ_self n))
    (mem_indices.1 (List.getElem_mem h)) fun k hk hlt => ?_
  rw [Bool.eq_false_iff]
  intro ht
  obtain ⟨m, hm, rfl⟩ := List.getElem_of_mem (mem_indices.2 ht)
  rcases Nat.lt_trichotomy m n with hmn | rfl | hmn
  · have := hsorted m n hm (Nat.lt_of_succ_lt h) hmn
    omega
  · omega
  · rcases Nat.lt_or_eq_of_le (show n + 1 ≤ m from hmn) with hlt' | heq
    · have := hsorted (n + 1) m h hm hlt'
      omega
    · subst heq
      exact absurd hlt (lt_irrefl _)

/-! ## Building and narrowing -/

/-- The loop that sets the bits with a property. -/
theorem foldl_set (hl : ∀ i ∈ l, i < s.size) :
    (l.foldl (fun s i => if f i then s.set i else s) s).size = s.size ∧
      ∀ j, (l.foldl (fun s i => if f i then s.set i else s) s).test j =
        (s.test j || (decide (j ∈ l) && f j)) := by
  induction l generalizing s with
  | nil => simp
  | cons i l ih =>
    have hi := hl i (.head _)
    rw [List.foldl_cons]
    cases hf : f i with
    | true =>
      obtain ⟨hsize, htest⟩ := @ih (s.set i) fun k hk => by
        rw [size_set]
        exact hl k (.tail _ hk)
      refine ⟨hsize.trans size_set, fun j => (htest j).trans ?_⟩
      rw [test_set hi]
      by_cases hij : i = j
      · subst hij
        simp [hf]
      · simp [hij, Ne.symm hij]
    | false =>
      obtain ⟨hsize, htest⟩ := @ih s fun k hk => hl k (.tail _ hk)
      refine ⟨hsize, fun j => (htest j).trans ?_⟩
      by_cases hij : i = j
      · subst hij
        simp [hf]
      · simp [Ne.symm hij]

theorem foldl_reset :
    (l.foldl (fun s i => if s.test i && f i then s.reset i else s) s).size = s.size ∧
      ∀ j, (l.foldl (fun s i => if s.test i && f i then s.reset i else s) s).test j =
        (s.test j && !(decide (j ∈ l) && f j)) := by
  induction l generalizing s with
  | nil => simp
  | cons i l ih =>
    rw [List.foldl_cons]
    cases hf : s.test i && f i with
    | true =>
      obtain ⟨hsize, htest⟩ := @ih (s.reset i)
      refine ⟨hsize.trans size_reset, fun j => (htest j).trans ?_⟩
      rw [Bool.and_eq_true] at hf
      rw [test_reset]
      by_cases hij : i = j
      · subst hij
        simp [hf.2]
      · simp [hij, Ne.symm hij]
    | false =>
      obtain ⟨hsize, htest⟩ := @ih s
      refine ⟨hsize, fun j => (htest j).trans ?_⟩
      by_cases hij : i = j
      · subst hij
        cases ht : s.test i <;> simp_all
      · simp [Ne.symm hij]

@[simp] theorem size_resetIf : (s.resetIf f).size = s.size := foldl_reset.1

theorem test_resetIf : (s.resetIf f).test j = (s.test j && !f j) := by
  rw [resetIf, foldl_reset.2]
  cases ht : s.test j with
  | false => rfl
  | true =>
    have hmem : j ∈ s.positions := by
      have h := mem_indices.2 ht
      rw [← filter_positions] at h
      exact List.mem_of_mem_filter h
    simp [hmem]

end

end BitSet

end Arsh
