import Mathlib.Data.List.Basic
import Mathlib.Logic.Function.Iterate
import Mathlib.Tactic.Common

/-!
# Histories with undo and redo

The contents that something had, as undo and redo walk over them. An edit makes a new content and
forgets what could be redone; only so many contents of the past are kept. Undo and redo are inverse
to each other, and lead to no content that was not there before.
-/

namespace Arsh.Undo

/-- The contents before and after the present one, the nearest first. -/
structure History (α : Type*) where
  past : List α
  now : α
  future : List α
  deriving DecidableEq, Repr

namespace History

variable {α : Type*} {h : History α} {x y : α} {cap k : Nat}

/-- A new content; `cap` contents of the past are kept. -/
def edit (h : History α) (cap : Nat) (y : α) : History α := ⟨(h.now :: h.past).take cap, y, []⟩

/-- A new content in the place of the present one. -/
def amend (h : History α) (y : α) : History α := ⟨h.past, y, []⟩

/-- Nothing can be redone, and `cap` contents of the past are kept. -/
def forget (h : History α) (cap : Nat) : History α := ⟨h.past.take cap, h.now, []⟩

def undo (h : History α) : History α :=
  match h.past with
  | [] => h
  | x :: past => ⟨past, x, h.now :: h.future⟩

def redo (h : History α) : History α :=
  match h.future with
  | [] => h
  | x :: future => ⟨h.now :: h.past, x, future⟩

/-- All contents of the history. -/
def contents (h : History α) : List α := h.now :: (h.past ++ h.future)

theorem redo_undo (hne : h.past ≠ []) : h.undo.redo = h := by
  obtain ⟨past, now, future⟩ := h
  cases past with
  | nil => exact absurd rfl hne
  | cons x past => rfl

theorem length_past_undo : h.undo.past.length = h.past.length - 1 := by
  obtain ⟨past, now, future⟩ := h
  cases past <;> rfl

/-- Redoing as often as there has been an undo leads back. -/
theorem redo_undo_iterate (hk : k ≤ h.past.length) : redo^[k] (undo^[k] h) = h := by
  induction k generalizing h with
  | zero => rfl
  | succ k ih =>
    have hne : h.past ≠ [] := List.ne_nil_of_length_pos (Nat.lt_of_lt_of_le k.succ_pos hk)
    have hk' : k ≤ h.undo.past.length := by
      rw [length_past_undo]
      omega
    rw [Function.iterate_succ_apply', Function.iterate_succ_apply, ih hk', redo_undo hne]

/-- What undo leads to, and what remains behind it. -/
theorem undo_iterate (hk : k ≤ h.past.length) :
    (h.now :: h.past)[k]? = some (undo^[k] h).now ∧ (undo^[k] h).past = h.past.drop k := by
  induction k generalizing h with
  | zero => exact ⟨rfl, rfl⟩
  | succ k ih =>
    obtain ⟨past, now, future⟩ := h
    cases past with
    | nil => exact absurd hk (Nat.not_succ_le_zero k)
    | cons x past =>
      have := ih (h := ⟨past, x, now :: future⟩) (Nat.le_of_succ_le_succ hk)
      exact this

theorem mem_contents_edit (hx : x ∈ (h.edit cap y).contents) : x = y ∨ x ∈ h.contents := by
  simp only [edit, contents, List.append_nil, List.mem_cons] at hx
  rcases hx with rfl | hx
  · exact .inl rfl
  · refine .inr ?_
    rcases List.mem_cons.1 (List.mem_of_mem_take hx) with rfl | hx
    · exact List.mem_cons_self
    · exact List.mem_cons_of_mem _ (List.mem_append_left _ hx)

theorem mem_contents_amend (hx : x ∈ (h.amend y).contents) : x = y ∨ x ∈ h.contents := by
  simp only [amend, contents, List.append_nil, List.mem_cons] at hx
  rcases hx with rfl | hx
  · exact .inl rfl
  · exact .inr (List.mem_cons_of_mem _ (List.mem_append_left _ hx))

theorem mem_contents_forget (hx : x ∈ (h.forget cap).contents) : x ∈ h.contents := by
  simp only [forget, contents, List.append_nil, List.mem_cons] at hx
  rcases hx with rfl | hx
  · exact List.mem_cons_self
  · exact List.mem_cons_of_mem _ (List.mem_append_left _ (List.mem_of_mem_take hx))

theorem mem_contents_undo : x ∈ h.undo.contents ↔ x ∈ h.contents := by
  obtain ⟨past, now, future⟩ := h
  cases past with
  | nil => rfl
  | cons z past =>
    simp only [undo, contents, List.mem_cons, List.mem_append]
    tauto

theorem mem_contents_redo : x ∈ h.redo.contents ↔ x ∈ h.contents := by
  obtain ⟨past, now, future⟩ := h
  cases future with
  | nil => rfl
  | cons z future =>
    simp only [redo, contents, List.mem_cons, List.mem_append]
    tauto

end History

end Arsh.Undo
