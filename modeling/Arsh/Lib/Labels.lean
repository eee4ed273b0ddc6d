import Mathlib.Data.List.Nodup

/-!
# Labels in code

Code is a list of instructions, and some of them mark the place of a label. `behind` is the code that
a jump to a label goes on with. If no label is marked twice, that is the code behind the mark wherever it
stands (`behind_of_suffix`).
-/

namespace Arsh.Labels

variable {ι κ : Type*} [DecidableEq κ] (mark : ι → Option κ)

/-- The labels that are marked, in order. -/
def marks (code : List ι) : List κ := code.filterMap mark

/-- The code behind the first mark of a label. -/
def behind (l : κ) : List ι → Option (List ι)
  | [] => none
  | i :: rest => if mark i = some l then some rest else behind l rest

section
variable {mark} {l : κ} {i : ι} {code code' pre rest : List ι}

omit [DecidableEq κ] in
@[simp]
theorem marks_append : marks mark (code ++ code') = marks mark code ++ marks mark code' :=
  List.filterMap_append

theorem behind_append (h : l ∉ marks mark pre) :
    behind mark l (pre ++ code) = behind mark l code := by
  induction pre with
  | nil => rfl
  | cons i pre ih =>
    have hi : mark i ≠ some l := fun hi => h (List.mem_filterMap.2 ⟨i, List.mem_cons_self, hi⟩)
    have hpre : l ∉ marks mark pre := fun hl => by
      obtain ⟨j, hj, hjl⟩ := List.mem_filterMap.1 hl
      exact h (List.mem_filterMap.2 ⟨j, List.mem_cons_of_mem i hj, hjl⟩)
    rw [List.cons_append, behind, if_neg hi]
    exact ih hpre

/-- The mark of a label is where it stands. -/
theorem behind_of_suffix (hn : (marks mark code).Nodup) (hs : i :: rest <:+ code)
    (hi : mark i = some l) : behind mark l code = some rest := by
  obtain ⟨pre, rfl⟩ := hs
  have hl : l ∉ marks mark pre := by
    intro hl
    rw [marks_append] at hn
    apply List.disjoint_of_nodup_append hn hl
    exact List.mem_filterMap.2 ⟨i, List.mem_cons_self, hi⟩
  rw [behind_append hl, behind, if_pos hi]

end

end Arsh.Labels
