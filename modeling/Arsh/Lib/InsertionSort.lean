import Mathlib.Data.List.DropRight
import Mathlib.Data.List.Pairwise
import Mathlib.Tactic.Common

/-!
# Insertion sort under any comparator

The insertion sort of `std::sort`: an element that comes before the first one goes to the front,
any other one goes back from the end past the elements that it comes before. The comparator need not
be an order. Still the first element of the result has every property that some element has and that
is enough, and needed, for coming before all others (`insertionSort_front`).
-/

namespace Arsh.InsertionSort

variable {α : Type*} {lt : α → α → Bool} {P : α → Prop} {a v : α} {l pre : List α}

/-- The element `v` goes into the sorted part `pre`. -/
def insertLinear (lt : α → α → Bool) (pre : List α) (v : α) : List α :=
  match pre with
  | [] => [v]
  | first :: rest =>
    if lt v first then v :: first :: rest
    else (first :: rest).rdropWhile (lt v) ++ v :: (first :: rest).rtakeWhile (lt v)

def insertionSort (lt : α → α → Bool) (l : List α) : List α := l.foldl (insertLinear lt) []

theorem insertLinear_perm (lt : α → α → Bool) (pre : List α) (v : α) :
    (insertLinear lt pre v).Perm (v :: pre) := by
  unfold insertLinear
  split
  · exact .refl _
  · split
    · exact .refl _
    · next first rest _ =>
      refine List.perm_middle.trans (.cons v ?_)
      rw [List.rdropWhile_append_rtakeWhile]

theorem foldl_insertLinear_perm (lt : α → α → Bool) (l pre : List α) :
    (l.foldl (insertLinear lt) pre).Perm (pre ++ l) := by
  induction l generalizing pre with
  | nil => rw [List.foldl_nil, List.append_nil]
  | cons v l ih =>
    refine (ih _).trans ?_
    apply ((insertLinear_perm lt pre v).append_right l).trans
    exact List.perm_middle.symm

theorem insertionSort_perm (lt : α → α → Bool) (l : List α) : (insertionSort lt l).Perm l :=
  foldl_insertLinear_perm lt l []

/-- The first element stays, or the new one comes before it. -/
theorem head?_insertLinear (h : pre.head? = some a) :
    (insertLinear lt pre v).head? = some (if lt v a then v else a) := by
  cases pre with
  | nil => cases h
  | cons first rest =>
    cases h
    unfold insertLinear
    dsimp only
    split
    · rfl
    · next hlt =>
      -- going back from the end stops at the first element
      have hne : (a :: rest).rdropWhile (lt v) ≠ [] := by
        rw [Ne, List.rdropWhile_eq_nil_iff]
        exact fun hall => hlt (hall a List.mem_cons_self)
      obtain ⟨x, xs, hx⟩ := List.exists_cons_of_ne_nil hne
      have hpre : x :: xs <+: a :: rest := hx ▸ List.rdropWhile_prefix _ _
      rw [hx, (List.cons_prefix_cons.1 hpre).1]
      rfl

/-- One step: the first element has the property as soon as an element that came has it. -/
theorem insertLinear_front (hlt : ∀ w ∈ pre, lt v w = true → P w → P v)
    (hP : ∀ w ∈ pre, P v → lt v w = true)
    (h : (∃ w ∈ pre, P w) → ∃ a, pre.head? = some a ∧ P a)
    (hex : ∃ w ∈ v :: pre, P w) : ∃ a, (insertLinear lt pre v).head? = some a ∧ P a := by
  cases pre with
  | nil =>
    obtain ⟨w, hw, hPw⟩ := hex
    rw [List.mem_singleton.1 hw] at hPw
    exact ⟨v, rfl, hPw⟩
  | cons first rest =>
    refine ⟨_, head?_insertLinear rfl, ?_⟩
    obtain ⟨w, hw, hPw⟩ := hex
    have hold (hmem : ∃ w ∈ first :: rest, P w) : P (if lt v first then v else first) := by
      obtain ⟨a, ha, hPa⟩ := h hmem
      cases ha
      split
      · next hl => exact hlt _ List.mem_cons_self hl hPa
      · exact hPa
    rcases List.mem_cons.1 hw with rfl | hw
    · rw [if_pos (hP first List.mem_cons_self hPw)]
      exact hPw
    · exact hold ⟨w, hw, hPw⟩

/-- An element whose property says that it comes before all others, and that is handed to what comes
before it, is the first one in the end, or another one with this property is. -/
theorem insertionSort_front (hn : l.Nodup)
    (hlt : ∀ v ∈ l, ∀ w ∈ l, lt v w = true → P w → P v)
    (hP : ∀ v ∈ l, ∀ w ∈ l, v ≠ w → P v → lt v w = true) (hex : ∃ w ∈ l, P w) :
    ∃ a, (insertionSort lt l).head? = some a ∧ P a := by
  have hgen : ∀ pre l' : List α, (pre ++ l').Perm l →
      ((∃ w ∈ pre, P w) → ∃ a, pre.head? = some a ∧ P a) → (∃ w ∈ pre ++ l', P w) →
      ∃ a, (l'.foldl (insertLinear lt) pre).head? = some a ∧ P a := by
    intro pre l'
    induction l' generalizing pre with
    | nil =>
      intro _ h hex
      rw [List.append_nil] at hex
      exact h hex
    | cons v l' ih =>
      intro hperm h hex
      have hins := insertLinear_perm lt pre v
      have hmove : (insertLinear lt pre v ++ l').Perm (pre ++ v :: l') :=
        (hins.append_right l').trans List.perm_middle.symm
      refine ih _ (hmove.trans hperm) ?_ ?_
      · rintro ⟨w, hw, hPw⟩
        have hv : v ∈ l := hperm.mem_iff.1 (by simp)
        refine insertLinear_front (fun x hx => hlt v hv x (hperm.mem_iff.1 (by simp [hx]))) ?_ h
          ⟨w, hins.mem_iff.1 hw, hPw⟩
        intro x hx hPv
        have hnodup : (pre ++ v :: l').Nodup := hperm.nodup_iff.2 hn
        have hne : v ≠ x := fun he =>
          (List.nodup_append.1 hnodup).2.2 x hx v List.mem_cons_self he.symm
        exact hP v hv x (hperm.mem_iff.1 (by simp [hx])) hne hPv
      · obtain ⟨w, hw, hPw⟩ := hex
        exact ⟨w, hmove.mem_iff.2 hw, hPw⟩
  exact hgen [] l (.refl _) (fun ⟨w, hw, _⟩ => by cases hw) hex

end Arsh.InsertionSort
