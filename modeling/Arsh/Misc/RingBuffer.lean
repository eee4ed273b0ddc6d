import Mathlib.Data.List.Basic
import Mathlib.Data.Int.ModEq
import Mathlib.Tactic.Common

/-!
# Ring buffers

`RingBuffer` of `misc/ring_buffer.hpp`. Its two indices are unsigned integers that only grow and
wrap around; the storage has a power of two of slots and one slot more than the buffer can have
elements. `Holds r l` says that the buffer `r` is the list `l`. A slot without an object is `none`,
and so is what an operation makes of destroying or reading such a slot.
-/

namespace Arsh

variable {α : Type*}

/-- One more than the greatest `unsigned int`. -/
@[irreducible] def uintSize : Nat := 2 ^ 32

/-- `++` of an `unsigned int`. -/
def uintSucc (n : Nat) : Nat := if n + 1 = uintSize then 0 else n + 1

/-- `--` of an `unsigned int`. -/
def uintPred (n : Nat) : Nat := if n = 0 then uintSize - 1 else n - 1

theorem uintSize_eq : uintSize = 2 ^ 32 := by rw [uintSize]

theorem uintSize_pos : 0 < uintSize := by
  rw [uintSize_eq]
  exact Nat.two_pow_pos 32

theorem uintSucc_eq {n : Nat} (h : n < uintSize) : uintSucc n = (n + 1) % uintSize := by
  unfold uintSucc
  split
  · next he => rw [he, Nat.mod_self]
  · rw [Nat.mod_eq_of_lt (by omega)]

theorem uintPred_eq {n : Nat} (h : n < uintSize) :
    uintPred n = (n + (uintSize - 1)) % uintSize := by
  unfold uintPred
  split
  · next he => rw [he, Nat.zero_add, Nat.mod_eq_of_lt (by omega)]
  · have e : n + (uintSize - 1) = n - 1 + uintSize := by omega
    rw [e, Nat.add_mod_right, Nat.mod_eq_of_lt (by omega)]

theorem mod_uintSize_lt (n : Nat) : n % uintSize < uintSize := Nat.mod_lt _ uintSize_pos

theorem uintSucc_lt {n : Nat} (h : n < uintSize) : uintSucc n < uintSize := by
  rw [uintSucc_eq h]
  exact mod_uintSize_lt _

theorem uintSucc_mod (n : Nat) : uintSucc (n % uintSize) = (n + 1) % uintSize := by
  rw [uintSucc_eq (mod_uintSize_lt n), Nat.mod_add_mod]

theorem uintSucc_add {n : Nat} (h : n < uintSize) (j : Nat) :
    (uintSucc n + j) % uintSize = (n + (j + 1)) % uintSize := by
  rw [uintSucc_eq h, Nat.mod_add_mod, Nat.add_assoc, Nat.add_comm 1]

theorem uintPred_mod (n : Nat) : uintPred ((n + 1) % uintSize) = n % uintSize := by
  have e : n + 1 + (uintSize - 1) = n + uintSize := by
    have := uintSize_pos
    omega
  rw [uintPred_eq (mod_uintSize_lt _), Nat.mod_add_mod, e, Nat.add_mod_right]

structure RingBuffer (α : Type*) where
  frontIndex : Nat
  backIndex : Nat
  values : List (Option α)

namespace RingBuffer

/-- The loop of `alignAllocSize`; an `unsigned int` has at most `fuel` bits. -/
def countBits : Nat → Nat → Nat
  | 0, _ => 0
  | fuel + 1, cap => if cap = 0 then 0 else countBits fuel (cap / 2) + 1

def alignAllocSize (cap : Nat) : Nat :=
  let cap := if cap = 0 then 1 else cap
  2 ^ min (countBits 32 cap) 31

def new (allocSize : Nat) : RingBuffer α := ⟨0, 0, List.replicate (alignAllocSize allocSize) none⟩

variable (r : RingBuffer α)

def allocSize : Nat := r.values.length

def capacity : Nat := r.allocSize - 1

def size : Nat := (r.backIndex + uintSize - r.frontIndex) % uintSize

def empty : Bool := r.size = 0

def actualIndex (index : Nat) : Nat := index &&& r.capacity

/-- The object in a slot. -/
def slot (index : Nat) : Option α := (r.values[r.actualIndex index]?).join

/-- An object is constructed in a slot. -/
def construct (index : Nat) (v : α) : RingBuffer α :=
  { r with values := r.values.set (r.actualIndex index) (some v) }

/-- The object in a slot is destroyed. -/
def destroy (index : Nat) : Option (RingBuffer α) :=
  (r.slot index).map fun _ => { r with values := r.values.set (r.actualIndex index) none }

def popFront : Option (RingBuffer α) :=
  (r.destroy r.frontIndex).map fun r => { r with frontIndex := uintSucc r.frontIndex }

def popBack : Option (RingBuffer α) :=
  let r := { r with backIndex := uintPred r.backIndex }
  r.destroy r.backIndex

/-- `emplace_back`, and `push_back`. -/
def emplaceBack (v : α) : Option (RingBuffer α) :=
  let r := r.construct r.backIndex v
  let r := { r with backIndex := uintSucc r.backIndex }
  if r.size = r.allocSize then r.popFront else some r

def front : Option α := r.slot r.frontIndex

def back : Option α := r.slot (uintPred r.backIndex)

/-- `operator[]`. -/
def get (index : Nat) : Option α := r.slot ((r.frontIndex + index) % uintSize)

def full : Bool := r.size = r.capacity

/-! ## What a buffer holds -/

variable {r : RingBuffer α} {l : List α} {v : α}

/-- The buffer is the list: its elements are in the slots from the front index on, and the other
slots are free. -/
structure Holds (r : RingBuffer α) (l : List α) : Prop where
  alloc : ∃ k, 1 ≤ k ∧ k ≤ 31 ∧ r.allocSize = 2 ^ k
  length_le : l.length ≤ r.allocSize
  front_lt : r.frontIndex < uintSize
  back_eq : r.backIndex = (r.frontIndex + l.length) % uintSize
  slots : ∀ j < r.allocSize, r.values[(r.frontIndex + j) % r.allocSize]? = some l[j]?

theorem Holds.two_le (h : Holds r l) : 2 ≤ r.allocSize := by
  obtain ⟨k, hk, -, he⟩ := h.alloc
  rw [he]
  exact Nat.pow_le_pow_right Nat.two_pos hk

/-- The indices wrap around at a multiple of the size of the storage. -/
theorem Holds.dvd (h : Holds r l) : r.allocSize ∣ uintSize := by
  obtain ⟨k, -, hk, he⟩ := h.alloc
  rw [he, uintSize_eq]
  exact Nat.pow_dvd_pow 2 (by omega)

theorem Holds.alloc_lt (h : Holds r l) : r.allocSize < uintSize := by
  obtain ⟨k, -, hk, he⟩ := h.alloc
  rw [he, uintSize_eq]
  exact Nat.pow_lt_pow_right (by decide) (by omega)

theorem Holds.actualIndex_wrap (h : Holds r l) (index : Nat) :
    r.actualIndex (index % uintSize) = index % r.allocSize := by
  have hd := h.dvd
  obtain ⟨k, -, -, he⟩ := h.alloc
  rw [he] at hd
  rw [actualIndex, capacity, he, Nat.and_two_pow_sub_one_eq_mod, Nat.mod_mod_of_dvd _ hd]

theorem Holds.front_wrap (h : Holds r l) :
    r.actualIndex r.frontIndex = (r.frontIndex + 0) % r.allocSize := by
  have hw := h.actualIndex_wrap r.frontIndex
  rwa [Nat.mod_eq_of_lt h.front_lt] at hw

theorem Holds.size_eq (h : Holds r l) : r.size = l.length := by
  have hlt := h.front_lt
  have hlen := Nat.lt_of_le_of_lt h.length_le h.alloc_lt
  rw [size, h.back_eq]
  by_cases hw : r.frontIndex + l.length < uintSize
  · have e : r.frontIndex + l.length + uintSize - r.frontIndex = l.length + uintSize := by omega
    rw [Nat.mod_eq_of_lt hw, e, Nat.add_mod_right, Nat.mod_eq_of_lt hlen]
  · have hm : (r.frontIndex + l.length) % uintSize = r.frontIndex + l.length - uintSize := by
      rw [Nat.mod_eq_sub_mod (by omega), Nat.mod_eq_of_lt]
      omega
    have e : r.frontIndex + l.length - uintSize + uintSize - r.frontIndex = l.length := by omega
    rw [hm, e, Nat.mod_eq_of_lt hlen]

theorem Holds.slot_eq (h : Holds r l) {j : Nat} (hj : j < r.allocSize) :
    r.slot ((r.frontIndex + j) % uintSize) = l[j]? := by
  rw [slot, h.actualIndex_wrap, h.slots j hj]
  rfl

theorem Holds.slot_front (h : Holds r l) : r.slot r.frontIndex = l[0]? := by
  have hs := h.slot_eq (Nat.lt_of_lt_of_le (by decide) h.two_le : 0 < r.allocSize)
  rwa [Nat.add_zero, Nat.mod_eq_of_lt h.front_lt] at hs

/-- Two slots are the same at the same distance from the front index only. -/
theorem add_mod_inj {n a i j : Nat} (hi : i < n) (hj : j < n) (h : (a + i) % n = (a + j) % n) :
    i = j := by
  have hmod : i ≡ j [MOD n] := Nat.ModEq.add_left_cancel' a h
  rwa [Nat.ModEq, Nat.mod_eq_of_lt hi, Nat.mod_eq_of_lt hj] at hmod

/-- What is in the slots after one of them has changed. -/
theorem Holds.slots_set (h : Holds r l) {i j : Nat} (hi : i < r.allocSize) (hj : j < r.allocSize)
    (x : Option α) :
    (r.values.set ((r.frontIndex + i) % r.allocSize) x)[(r.frontIndex + j) % r.allocSize]? =
      some (if j = i then x else l[j]?) := by
  have hpos : 0 < r.allocSize := Nat.zero_lt_of_lt hi
  by_cases he : j = i
  · rw [if_pos he, he]
    exact List.getElem?_set_self (Nat.mod_lt _ hpos)
  · rw [if_neg he, List.getElem?_set_ne fun hm => he (add_mod_inj hj hi hm.symm), h.slots j hj]

/-! ## Operations -/

theorem countBits_pos {fuel cap : Nat} (h : 0 < cap) : 1 ≤ countBits (fuel + 1) cap := by
  rw [countBits, if_neg (Nat.ne_of_gt h)]
  omega

theorem holds_new (cap : Nat) : Holds (new cap : RingBuffer α) [] := by
  have hsize : (new cap : RingBuffer α).allocSize = alignAllocSize cap := List.length_replicate
  refine ⟨?_, Nat.zero_le _, uintSize_pos, (Nat.zero_mod _).symm, fun j hj => ?_⟩
  · rw [hsize]
    refine ⟨_, ?_, Nat.min_le_right _ _, rfl⟩
    refine Nat.le_min.2 ⟨countBits_pos ?_, by decide⟩
    split
    · exact Nat.one_pos
    · next h => exact Nat.pos_of_ne_zero h
  · rw [hsize] at hj ⊢
    have hlt : (0 + j) % alignAllocSize cap < alignAllocSize cap :=
      Nat.mod_lt _ (Nat.zero_lt_of_lt hj)
    show (List.replicate (alignAllocSize cap) none)[(0 + j) % alignAllocSize cap]? = _
    rw [List.getElem?_replicate, if_pos hlt]
    rfl

theorem Holds.pushed (h : Holds r l) (hl : l.length < r.allocSize) (v : α) :
    Holds { r.construct r.backIndex v with backIndex := uintSucc r.backIndex }
      (l ++ [v]) := by
  have hslot : r.actualIndex r.backIndex = (r.frontIndex + l.length) % r.allocSize := by
    rw [h.back_eq, h.actualIndex_wrap]
  have halloc : allocSize { r.construct r.backIndex v with
      backIndex := uintSucc r.backIndex } = r.allocSize := List.length_set
  refine ⟨?_, ?_, h.front_lt, ?_, ?_⟩
  · rw [halloc]
    exact h.alloc
  · rw [halloc, List.length_append, List.length_singleton]
    exact hl
  · rw [List.length_append, List.length_singleton]
    exact h.back_eq ▸ uintSucc_mod _
  · intro j hj
    rw [halloc] at hj ⊢
    show (r.values.set _ (some v))[(r.frontIndex + j) % r.allocSize]? = _
    rw [hslot, h.slots_set hl hj, List.getElem?_append]
    by_cases he : j = l.length
    · subst he
      simp
    · by_cases hlt : j < l.length
      · rw [if_neg he, if_pos hlt]
      · have hnone : [v][j - l.length]? = none := List.getElem?_eq_none (by simp; omega)
        rw [if_neg he, if_neg hlt, hnone, List.getElem?_eq_none (by omega)]

/-- What destroying the front element leaves. -/
theorem Holds.popFront (h : Holds r l) :
    (l = [] ∧ r.popFront = none) ∨
      l ≠ [] ∧ ∃ r', r.popFront = some r' ∧ Holds r' l.tail ∧ r'.allocSize = r.allocSize := by
  have hs := h.slot_front
  rcases l with _ | ⟨a, l⟩
  · refine .inl ⟨rfl, ?_⟩
    rw [RingBuffer.popFront, destroy, hs]
    rfl
  refine .inr ⟨List.cons_ne_nil _ _, { r with
    frontIndex := uintSucc r.frontIndex
    values := r.values.set (r.actualIndex r.frontIndex) none }, ?_, ?_, List.length_set⟩
  · rw [RingBuffer.popFront, destroy, hs]
    rfl
  have hpos : 0 < r.allocSize := Nat.lt_of_lt_of_le Nat.two_pos h.two_le
  have hle := h.length_le
  have halloc : allocSize { r with
      frontIndex := uintSucc r.frontIndex
      values := r.values.set (r.actualIndex r.frontIndex) none } = r.allocSize := List.length_set
  rw [List.length_cons] at hle
  refine ⟨?_, ?_, uintSucc_lt h.front_lt, ?_, ?_⟩
  · rw [halloc]
    exact h.alloc
  · rw [halloc]
    exact Nat.le_of_succ_le hle
  · rw [List.tail_cons, uintSucc_add h.front_lt]
    exact h.back_eq
  · intro j hj
    rw [halloc] at hj ⊢
    have e : (uintSucc r.frontIndex + j) % r.allocSize =
        (r.frontIndex + (j + 1)) % r.allocSize := by
      rw [← Nat.mod_mod_of_dvd _ h.dvd, uintSucc_add h.front_lt, Nat.mod_mod_of_dvd _ h.dvd]
    show (r.values.set _ none)[(uintSucc r.frontIndex + j) % r.allocSize]? = _
    rw [e, h.front_wrap]
    by_cases hlt : j + 1 < r.allocSize
    · rw [h.slots_set hpos hlt, if_neg (Nat.succ_ne_zero j)]
      rfl
    · -- the slot behind the last one is that of the front element
      have hj' : j + 1 = r.allocSize := by omega
      have hwrap :
          (r.frontIndex + r.allocSize) % r.allocSize = (r.frontIndex + 0) % r.allocSize := by
        rw [Nat.add_mod_right, Nat.add_zero]
      have hlen : l.length ≤ j := by omega
      rw [hj', hwrap, h.slots_set hpos hpos, if_pos rfl]
      exact congrArg some (List.getElem?_eq_none hlen).symm

/-- The index before the back index, counted from the front index. -/
theorem Holds.back_pred (h : Holds r l) {j : Nat}
    (hj : j + 1 = l.length ∨ l = [] ∧ j + 1 = r.allocSize) :
    r.actualIndex (uintPred r.backIndex) =
      (r.frontIndex + j) % r.allocSize := by
  rcases hj with hj | ⟨rfl, hj⟩
  · rw [h.back_eq, ← hj, ← Nat.add_assoc, uintPred_mod, h.actualIndex_wrap]
  · obtain ⟨c, hc⟩ := h.dvd
    obtain ⟨d, rfl⟩ : ∃ d, c = d + 1 := Nat.exists_eq_succ_of_ne_zero fun h0 => by
      rw [h0, Nat.mul_zero] at hc
      exact absurd hc (Nat.ne_of_gt uintSize_pos)
    have e : r.frontIndex + (uintSize - 1) = r.frontIndex + j + r.allocSize * d := by
      rw [Nat.mul_succ] at hc
      omega
    have hback : r.backIndex = r.frontIndex := by
      rw [h.back_eq]
      exact Nat.mod_eq_of_lt h.front_lt
    rw [hback, uintPred_eq h.front_lt, h.actualIndex_wrap, e, Nat.add_mul_mod_self_left]

theorem Holds.back_eq_getLast (h : Holds r l) (hl : l.length < r.allocSize) :
    r.back = l.getLast? := by
  have h2 := h.two_le
  rw [back, slot]
  rcases l.eq_nil_or_concat' with rfl | ⟨l, v, rfl⟩
  · rw [h.back_pred (j := r.allocSize - 1) (.inr ⟨rfl, by omega⟩), h.slots _ (by omega)]
    rfl
  · rw [List.length_append, List.length_singleton] at hl
    rw [h.back_pred (j := l.length) (.inl (by simp)), h.slots _ (by omega)]
    simp

theorem popBack_eq (r : RingBuffer α) : r.popBack =
    ({ r with backIndex := uintPred r.backIndex } : RingBuffer α).destroy (uintPred r.backIndex) :=
  rfl

theorem back_slot (r : RingBuffer α) : r.back = r.slot (uintPred r.backIndex) := rfl

/-- Only the slot matters for what is destroyed. -/
theorem destroy_backIndex (r : RingBuffer α) (index n : Nat) :
    ({ r with backIndex := n } : RingBuffer α).destroy index = (r.slot index).map fun _ => { r with
      backIndex := n
      values := r.values.set (r.actualIndex index) none } := rfl

theorem Holds.popBack (h : Holds r l) (hl : l.length < r.allocSize) :
    (l = [] ∧ r.popBack = none) ∨
      l ≠ [] ∧ ∃ r', r.popBack = some r' ∧ Holds r' l.dropLast ∧ r'.allocSize = r.allocSize := by
  rw [popBack_eq, destroy_backIndex, ← back_slot, h.back_eq_getLast hl]
  rcases l.eq_nil_or_concat' with rfl | ⟨l, v, rfl⟩
  · exact .inl ⟨rfl, rfl⟩
  rw [List.length_append, List.length_singleton] at hl
  have hj : l.length < r.allocSize := by omega
  have hslot := h.back_pred (j := l.length) (.inl (by simp))
  have halloc : allocSize { r with
      backIndex := uintPred r.backIndex
      values := r.values.set (r.actualIndex (uintPred r.backIndex)) none } =
      r.allocSize := List.length_set
  rw [List.getLast?_concat, Option.map_some]
  refine .inr ⟨List.append_ne_nil_of_right_ne_nil _ (List.cons_ne_nil _ _), _, rfl, ?_, halloc⟩
  rw [List.dropLast_concat]
  refine ⟨?_, ?_, h.front_lt, ?_, ?_⟩
  · rw [halloc]
    exact h.alloc
  · rw [halloc]
    exact hj.le
  · have hback := h.back_eq
    rw [List.length_append, List.length_singleton, ← Nat.add_assoc] at hback
    have hpred : uintPred r.backIndex = (r.frontIndex + l.length) % uintSize := by
      rw [hback, uintPred_mod]
    exact hpred
  · intro j hj'
    rw [halloc] at hj' ⊢
    show (r.values.set _ none)[(r.frontIndex + j) % r.allocSize]? = _
    rw [hslot, h.slots_set hj hj']
    rcases Nat.lt_trichotomy j l.length with hlt | rfl | hgt
    · rw [if_neg (Nat.ne_of_lt hlt), List.getElem?_append_left hlt]
    · rw [if_pos rfl, List.getElem?_eq_none (Nat.le_refl _)]
    · rw [if_neg (Nat.ne_of_gt hgt), List.getElem?_eq_none (by simp; omega),
        List.getElem?_eq_none hgt.le]

end RingBuffer

/-! ## Bounded queues -/

/-- A queue that forgets its first elements when there are too many. -/
def boundedPush (cap : Nat) (l : List α) (v : α) : List α := (l ++ [v]).drop (l.length + 1 - cap)

namespace RingBuffer

variable {r : RingBuffer α} {l : List α}

theorem emplaceBack_eq (r : RingBuffer α) (v : α) : r.emplaceBack v =
    (fun s : RingBuffer α => if s.size = s.allocSize then s.popFront else some s)
      { r.construct r.backIndex v with backIndex := uintSucc r.backIndex } := rfl

theorem Holds.emplaceBack (h : Holds r l) (hl : l.length < r.allocSize) (v : α) :
    ∃ r', r.emplaceBack v = some r' ∧ Holds r' (boundedPush r.capacity l v) ∧
      r'.allocSize = r.allocSize := by
  have hp := h.pushed hl v
  have halloc : allocSize { r.construct r.backIndex v with
      backIndex := uintSucc r.backIndex } = r.allocSize := List.length_set
  rw [emplaceBack_eq]
  generalize { r.construct r.backIndex v with backIndex := uintSucc r.backIndex } = s
    at hp halloc ⊢
  have hsize := hp.size_eq
  rw [List.length_append, List.length_singleton] at hsize
  dsimp only
  rw [hsize, halloc]
  split
  · next hfull =>
    rcases hp.popFront with ⟨hnil, -⟩ | ⟨-, r', hr', hh, ha⟩
    · simp at hnil
    · refine ⟨r', hr', ?_, ha.trans halloc⟩
      have e : l.length + 1 - r.capacity = 1 := by
        have h2 := h.two_le
        rw [capacity]
        omega
      rw [boundedPush, e, List.drop_one]
      exact hh
  · next hfull =>
    refine ⟨_, rfl, ?_, halloc⟩
    have e : l.length + 1 - r.capacity = 0 := by
      rw [capacity]
      omega
    rw [boundedPush, e]
    exact hp

/-- A call of an operation. -/
inductive Op (α : Type*) where
  | pushBack (v : α)
  | popBack
  | popFront

def step (r : RingBuffer α) : Op α → Option (RingBuffer α)
  | .pushBack v => r.emplaceBack v
  | .popBack => r.popBack
  | .popFront => r.popFront

def run (ops : List (Op α)) (r : RingBuffer α) : Option (RingBuffer α) := ops.foldlM step r

/-- The operation on a queue of at most `cap` elements; an empty queue has nothing to pop. -/
def queueStep (cap : Nat) (l : List α) : Op α → Option (List α)
  | .pushBack v => some (boundedPush cap l v)
  | .popBack => if l = [] then none else some l.dropLast
  | .popFront => if l = [] then none else some l.tail

def queueRun (cap : Nat) (ops : List (Op α)) (l : List α) : Option (List α) :=
  ops.foldlM (queueStep cap) l

/-! ## Runs -/

theorem length_boundedPush {cap : Nat} (v : α) (h : l.length ≤ cap) :
    (boundedPush cap l v).length ≤ cap := by
  rw [boundedPush, List.length_drop, List.length_append, List.length_singleton]
  omega

/-- The buffer is the queue `l`, with a slot to spare. -/
structure Refines (cap : Nat) (r : RingBuffer α) (l : List α) : Prop where
  holds : Holds r l
  capacity_eq : r.capacity = cap
  length_le : l.length ≤ cap

theorem refines_new (cap : Nat) :
    Refines (new cap : RingBuffer α).capacity (new cap : RingBuffer α) [] :=
  ⟨holds_new cap, rfl, Nat.zero_le _⟩

variable {cap : Nat}

theorem Refines.length_lt (h : Refines cap r l) : l.length < r.allocSize := by
  have h2 := h.holds.two_le
  have hc := h.capacity_eq
  have hl := h.length_le
  rw [capacity] at hc
  omega

/-- An operation does to the buffer what it does to the queue. -/
theorem Refines.step (h : Refines cap r l) (op : Op α) :
    (queueStep cap l op = none ∧ r.step op = none) ∨
      ∃ l' r', queueStep cap l op = some l' ∧ r.step op = some r' ∧ Refines cap r' l' := by
  have hcap {r' : RingBuffer α} (ha : r'.allocSize = r.allocSize) : r'.capacity = cap := by
    rw [capacity, ha]
    exact h.capacity_eq
  cases op with
  | pushBack v =>
    obtain ⟨r', hr', hh, ha⟩ := h.holds.emplaceBack h.length_lt v
    rw [h.capacity_eq] at hh
    exact .inr ⟨_, r', rfl, hr', hh, hcap ha, length_boundedPush v h.length_le⟩
  | popBack =>
    rcases h.holds.popBack h.length_lt with ⟨rfl, hr⟩ | ⟨hl, r', hr', hh, ha⟩
    · exact .inl ⟨rfl, hr⟩
    · refine .inr ⟨_, r', if_neg hl, hr', hh, hcap ha, ?_⟩
      rw [List.length_dropLast]
      exact (Nat.sub_le _ _).trans h.length_le
  | popFront =>
    rcases h.holds.popFront with ⟨rfl, hr⟩ | ⟨hl, r', hr', hh, ha⟩
    · exact .inl ⟨rfl, hr⟩
    · refine .inr ⟨_, r', if_neg hl, hr', hh, hcap ha, ?_⟩
      rw [List.length_tail]
      exact (Nat.sub_le _ _).trans h.length_le

theorem Refines.cap_pos (h : Refines cap r l) : 0 < cap := by
  have h2 := h.holds.two_le
  have hc := h.capacity_eq
  rw [capacity] at hc
  omega

theorem Refines.pushBack (h : Refines cap r l) (v : α) :
    ∃ r', r.emplaceBack v = some r' ∧ Refines cap r' (boundedPush cap l v) := by
  rcases h.step (.pushBack v) with ⟨hl, -⟩ | ⟨l', r', hl, hr, h'⟩
  · cases hl
  · cases hl
    exact ⟨r', hr, h'⟩

theorem Refines.popFront {v : α} (h : Refines cap r (v :: l)) :
    ∃ r', r.popFront = some r' ∧ Refines cap r' l := by
  rcases h.step .popFront with ⟨hl, -⟩ | ⟨l', r', hl, hr, h'⟩
  · cases hl
  · cases hl
    exact ⟨r', hr, h'⟩

theorem Refines.run (h : Refines cap r l) (ops : List (Op α)) :
    (queueRun cap ops l = none ∧ RingBuffer.run ops r = none) ∨
      ∃ l' r', queueRun cap ops l = some l' ∧ RingBuffer.run ops r = some r' ∧
        Refines cap r' l' := by
  induction ops generalizing r l with
  | nil => exact .inr ⟨l, r, rfl, rfl, h⟩
  | cons op ops ih =>
    unfold queueRun RingBuffer.run
    rw [List.foldlM_cons, List.foldlM_cons]
    rcases h.step op with ⟨hl, hr⟩ | ⟨l', r', hl, hr, h'⟩
    · rw [hl, hr]
      exact .inl ⟨rfl, rfl⟩
    · rw [hl, hr]
      exact ih h'

/-- What a buffer that is a queue shows. -/
structure Shows (r : RingBuffer α) (l : List α) : Prop where
  size : r.size = l.length
  empty : r.empty = l.isEmpty
  full : r.full = decide (l.length = r.capacity)
  get : ∀ i ≤ r.capacity, r.get i = l[i]?
  front : r.front = l.head?
  back : r.back = l.getLast?

theorem Refines.shows (h : Refines cap r l) : Shows r l where
  size := h.holds.size_eq
  empty := by
    rw [RingBuffer.empty, h.holds.size_eq]
    cases l <;> rfl
  full := by rw [RingBuffer.full, h.holds.size_eq]
  get i hi := by
    have h2 := h.holds.two_le
    rw [capacity] at hi
    exact h.holds.slot_eq (by omega)
  front := by
    rw [RingBuffer.front, h.holds.slot_front]
    cases l <;> rfl
  back := h.holds.back_eq_getLast h.length_lt

end RingBuffer

end Arsh
