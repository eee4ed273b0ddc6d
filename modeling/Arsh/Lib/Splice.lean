import Mathlib.Data.List.Basic
import Mathlib.Tactic.Common

/-!
# A list in an encoding

A list of characters is stored as a list of units, `f c` for each character `c`. `offset f cs k`
is where the first `k` characters end. Cutting and replacing at such offsets is cutting and
replacing the characters (`splice_offset`), and a separator is found where it stands among the
characters (`takeWhile_flatMap`).
-/

namespace Arsh.Splice

variable {α β : Type} (f : α → List β)

/-- `t` in place of the elements from `a` on and before `b`. -/
def splice (xs : List α) (a b : Nat) (t : List α) : List α := xs.take a ++ t ++ xs.drop b

/-- The size of the first `k` characters. -/
def offset (cs : List α) (k : Nat) : Nat := ((cs.take k).flatMap f).length

@[simp] theorem offset_zero (cs : List α) : offset f cs 0 = 0 := rfl

@[simp] theorem offset_nil (k : Nat) : offset f [] k = 0 := by
  unfold offset
  rw [List.take_nil]
  rfl

@[simp] theorem offset_cons_succ (c : α) (cs : List α) (k : Nat) :
    offset f (c :: cs) (k + 1) = (f c).length + offset f cs k := by
  unfold offset
  rw [List.take_succ_cons, List.flatMap_cons, List.length_append]

theorem offset_length (cs : List α) : offset f cs cs.length = (cs.flatMap f).length := by
  unfold offset
  rw [List.take_length]

theorem offset_add (cs : List α) (j k : Nat) :
    offset f cs (j + k) = offset f cs j + offset f (cs.drop j) k := by
  unfold offset
  rw [List.take_add, List.flatMap_append, List.length_append]

theorem offset_mono (cs : List α) {j k : Nat} (h : j ≤ k) : offset f cs j ≤ offset f cs k := by
  obtain ⟨d, rfl⟩ := Nat.exists_eq_add_of_le h
  rw [offset_add]
  omega

theorem offset_take (cs : List α) {j k : Nat} (h : k ≤ j) :
    offset f (cs.take j) k = offset f cs k := by
  unfold offset
  rw [List.take_take, Nat.min_eq_left h]

theorem offset_le (cs : List α) (k : Nat) : offset f cs k ≤ (cs.flatMap f).length := by
  rw [← offset_length]
  rcases Nat.le_total k cs.length with h | h
  · exact offset_mono f cs h
  · apply Nat.le_of_eq
    unfold offset
    rw [List.take_of_length_le h, List.take_length]

theorem take_offset (cs : List α) (k : Nat) :
    (cs.flatMap f).take (offset f cs k) = (cs.take k).flatMap f := by
  have h : cs.flatMap f = (cs.take k).flatMap f ++ (cs.drop k).flatMap f := by
    rw [← List.flatMap_append, List.take_append_drop]
  rw [h]
  exact List.take_left

theorem drop_offset (cs : List α) (k : Nat) :
    (cs.flatMap f).drop (offset f cs k) = (cs.drop k).flatMap f := by
  have h : cs.flatMap f = (cs.take k).flatMap f ++ (cs.drop k).flatMap f := by
    rw [← List.flatMap_append, List.take_append_drop]
  rw [h]
  exact List.drop_left

/-- To replace units between characters is to replace the characters. -/
theorem splice_offset (cs : List α) (a b : Nat) (t : List α) :
    splice (cs.flatMap f) (offset f cs a) (offset f cs b) (t.flatMap f) =
      (splice cs a b t).flatMap f := by
  unfold splice
  rw [take_offset, drop_offset, List.flatMap_append, List.flatMap_append]

variable {f}

/-- The units before the first separator are those of the characters before it. -/
theorem takeWhile_flatMap {p : α → Bool} {q : β → Bool}
    (hp : ∀ c, p c = true → ∀ x ∈ f c, q x = true)
    (hn : ∀ c, p c = false → ∃ x rest, f c = x :: rest ∧ q x = false) (cs : List α) :
    (cs.flatMap f).takeWhile q = (cs.takeWhile p).flatMap f := by
  induction cs with
  | nil => rfl
  | cons c cs ih =>
    rw [List.flatMap_cons]
    cases hc : p c with
    | true =>
      rw [List.takeWhile_append_of_pos (hp c hc), ih, List.takeWhile_cons_of_pos hc,
        List.flatMap_cons]
    | false =>
      obtain ⟨x, rest, hx, hq⟩ := hn c hc
      rw [hx, List.cons_append, List.takeWhile_cons_of_neg (by simp [hq]),
        List.takeWhile_cons_of_neg (by simp [hc])]
      rfl

theorem length_takeWhile_flatMap {p : α → Bool} {q : β → Bool}
    (hp : ∀ c, p c = true → ∀ x ∈ f c, q x = true)
    (hn : ∀ c, p c = false → ∃ x rest, f c = x :: rest ∧ q x = false) (cs : List α) :
    ((cs.flatMap f).takeWhile q).length = offset f cs (cs.takeWhile p).length := by
  have htake : cs.take (cs.takeWhile p).length = cs.takeWhile p :=
    (List.prefix_iff_eq_take.1 (List.takeWhile_prefix p)).symm
  unfold offset
  rw [takeWhile_flatMap hp hn, htake]

/-- An offset is the whole size only for all the characters. -/
theorem offset_lt {cs : List α} {k : Nat} (hpos : ∀ c ∈ cs, 0 < (f c).length)
    (h : k < cs.length) : offset f cs k < (cs.flatMap f).length := by
  have hk : offset f cs (k + 1) = offset f cs k + (f cs[k]).length := by
    rw [offset_add, List.drop_eq_getElem_cons h, offset_cons_succ, offset_zero, Nat.add_zero]
  have hc := hpos cs[k] (List.getElem_mem h)
  have := offset_le f cs (k + 1)
  omega

end Arsh.Splice
