import Mathlib.Data.List.Basic
import Mathlib.Tactic.Common

/-!
# A stack that can be popped below its bottom

A list of actions pushes elements on a stack, pops them, or skips; a pop of the empty stack does
nothing. What a list of actions does is two values that do not depend on the stack: how deep it goes
below the place where it began, and what it leaves on top of that (`run_eq`).
-/

namespace Arsh.PopStack

variable {α : Type*} (pop skip : α → Prop) [DecidablePred pop] [DecidablePred skip]

/-- One action. The top is the end of the list. -/
def act (stack : List α) (a : α) : List α :=
  if pop a then stack.dropLast else if skip a then stack else stack ++ [a]

def run (stack : List α) (as : List α) : List α := as.foldl (act pop skip) stack

/-- How far the actions go below the place where they begin. -/
def depth : List α → Nat
  | [] => 0
  | a :: as => if pop a then depth as + 1 else if skip a then depth as else depth as - 1

section
variable {pop skip} {stack as bs : List α} {a : α}

@[simp]
theorem run_nil : run pop skip stack [] = stack := rfl

@[simp]
theorem run_cons : run pop skip stack (a :: as) = run pop skip (act pop skip stack a) as := rfl

theorem run_append : run pop skip stack (as ++ bs) = run pop skip (run pop skip stack as) bs :=
  List.foldl_append

/-- The stack that remains of the one before, and what is left on top of it. -/
theorem run_eq (stack as : List α) : run pop skip stack as =
    stack.take (stack.length - depth pop skip as) ++ run pop skip [] as := by
  induction as generalizing stack with
  | nil => simp [depth]
  | cons a as ih =>
    rw [run_cons, run_cons, ih]
    by_cases hp : pop a
    · simp only [act, depth, if_pos hp, List.dropLast_nil, List.length_dropLast]
      rw [List.dropLast_eq_take, List.take_take]
      congr 2
      omega
    · by_cases hs : skip a
      · simp only [act, depth, if_neg hp, if_pos hs]
      · simp only [act, depth, if_neg hp, if_neg hs, List.nil_append]
        rw [ih [a], List.length_append, List.length_singleton]
        rcases Nat.eq_zero_or_pos (depth pop skip as) with h0 | h0
        · rw [h0, List.take_of_length_le (by simp), List.take_of_length_le (by simp),
            List.take_of_length_le (by simp), List.append_assoc]
        · have h1 : 1 - depth pop skip as = 0 := by omega
          rw [h1, List.take_zero, List.nil_append, List.take_append_of_le_length (by omega)]
          congr 2
          omega

/-- What is on the stack has been pushed. -/
theorem mem_run (h : a ∈ run pop skip stack as) : a ∈ stack ∨ a ∈ as ∧ ¬ pop a ∧ ¬ skip a := by
  induction as generalizing stack with
  | nil => exact .inl h
  | cons b as ih =>
    rcases ih h with h | ⟨h, h'⟩
    · unfold act at h
      split at h
      · exact .inl (List.dropLast_subset _ h)
      · split at h
        · exact .inl h
        · next hp hs =>
          rcases List.mem_append.1 h with h | h
          · exact .inl h
          · obtain rfl := List.mem_singleton.1 h
            exact .inr ⟨List.mem_cons_self, hp, hs⟩
    · exact .inr ⟨List.mem_cons_of_mem b h, h'⟩

/-- Pushes alone leave what they push. -/
theorem run_of_pushes (h : ∀ a ∈ as, ¬ pop a ∧ ¬ skip a) : run pop skip stack as = stack ++ as := by
  induction as generalizing stack with
  | nil => simp
  | cons a as ih =>
    obtain ⟨hp, hs⟩ := h a List.mem_cons_self
    rw [run_cons, ih fun b hb => h b (List.mem_cons_of_mem a hb), act, if_neg hp, if_neg hs,
      List.append_assoc, List.singleton_append]

theorem length_run_le : (run pop skip stack as).length ≤ stack.length + as.length := by
  induction as generalizing stack with
  | nil => simp
  | cons a as ih =>
    have := @ih (act pop skip stack a)
    have ha : (act pop skip stack a).length ≤ stack.length + 1 := by
      unfold act
      split
      · simp; omega
      · split <;> simp
    rw [run_cons, List.length_cons]
    omega

/-- With an action that is no push, less is on the stack than there are actions. -/
theorem length_run_lt (h : ∃ a ∈ as, pop a ∨ skip a) : (run pop skip [] as).length < as.length := by
  obtain ⟨a, ha, h⟩ := h
  obtain ⟨bs, cs, rfl⟩ := List.append_of_mem ha
  have hb : (run pop skip [] bs).length ≤ bs.length := by
    simpa using @length_run_le _ pop skip _ _ [] bs
  have hact : (act pop skip (run pop skip [] bs) a).length ≤ bs.length := by
    unfold act
    split
    · simp; omega
    · next hp => rw [if_pos (h.resolve_left hp)]; exact hb
  have := @length_run_le _ pop skip _ _ (act pop skip (run pop skip [] bs) a) cs
  rw [run_append, run_cons]
  simp only [List.length_append, List.length_cons]
  omega

end

end Arsh.PopStack
