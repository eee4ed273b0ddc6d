import Arsh.Pager.Render

/-!
# Runs of the pager

After any operations the index designates an item that passes the filter, if there is one, and the
row of the cursor is in view.
-/

namespace Arsh.Pager

namespace ArrayPager

section
variable {c : Candidates} {p : ArrayPager} {i k : Nat}

/-- The item is there, and in filter mode it matches the query. -/
def Passes (c : Candidates) (p : ArrayPager) (i : Nat) : Prop :=
  i < c.items.length ∧ (p.filterMode = true → c.matchItemAt p.query i = true)

theorem mem_indices_iff (h : Filtered c p) (hf : p.filterMode = true) :
    i ∈ p.filteredItemSet.indices ↔ Passes c p i := by
  rw [BitSet.mem_indices]
  constructor
  · intro ht
    have hi : i < c.items.length := by
      rw [← h.size_eq hf]
      by_contra hc
      rw [BitSet.test_of_le (by omega)] at ht
      cases ht
    exact ⟨hi, fun _ => h.test_eq hf i hi ▸ ht⟩
  · rintro ⟨hi, hm⟩
    rw [h.test_eq hf i hi]
    exact hm hf

theorem size_pos_of_passes (h : Filtered c p) (hi : Passes c p i) : 0 < p.filteredItemSize c := by
  by_cases hf : p.filterMode = true
  · rw [h.size_eq_indices hf]
    exact List.length_pos_of_mem ((mem_indices_iff h hf).2 hi)
  · rw [filteredItemSize, if_neg hf]
    exact items_pos c

theorem passes_toActual (h : Filtered c p) (hk : k < p.filteredItemSize c) :
    Passes c p (p.toActualItemIndex k) := by
  by_cases hf : p.filterMode = true
  · obtain ⟨hk', heq⟩ := toActual_of_filter h hf hk
    rw [heq]
    exact (mem_indices_iff h hf).1 (List.getElem_mem hk')
  · rw [toActual_of_not_filter hf]
    exact ⟨Nat.lt_of_lt_of_le hk h.size_le, fun hc => absurd hc hf⟩

/-- The moves in two directions undo each other on the index. -/
structure Inverse (c : Candidates) (p : ArrayPager) : Prop where
  next_forward : ((p.moveCursorToForward c).moveCursorToNext c).index = p.index
  forward_next : ((p.moveCursorToNext c).moveCursorToForward c).index = p.index
  right_left : ∃ q, p.moveCursorToLeft c = some q ∧ (q.moveCursorToRight c).index = p.index
  left_right : ∃ q, (p.moveCursorToRight c).moveCursorToLeft c = some q ∧ q.index = p.index

/-- The index designates an item that passes, and the rows in view from the row of the cursor on
are rows of the pager. With a row for items the cursor is in one, and a pager that is shown renders
the selected item once. -/
structure Selected (c : Candidates) (p : ArrayPager) : Prop extends Inverse c p where
  index_lt : p.index < p.filteredItemSize c
  passes : Passes c p p.toCurItemIndex
  curRow_le : p.curRow ≤ p.index % p.getLogicalRows c
  fits : p.index % p.getLogicalRows c - p.curRow + p.getActualRows c ≤ p.getLogicalRows c
  curRow_lt : (p.filterMode = true → 2 ≤ p.rows) → p.curRow < p.getActualRows c
  once : (p.filterMode = true → 2 ≤ p.rows) → p.showPager = true →
    ((p.render c).flatten.filter fun cell => cell.1 = p.toCurItemIndex) =
      [(p.toCurItemIndex, p.showCursor)]

theorem Ready.selected (h : Ready c p) (hs : 0 < p.filteredItemSize c) : Selected c p := by
  have hp := h.placed hs
  obtain ⟨hcur, hle, hfits⟩ := hp.window
  refine ⟨⟨next_forward hp, forward_next hp, right_left hp, left_right hp⟩, hp.index_lt,
    passes_toActual h.toFiltered hp.index_lt, hle, by omega, fun hr => ?_, fun hr hshow =>
    render_once h hs hshow hr⟩
  have hactual := actualRows_pos h hs hr
  omega

/-- A pager keeps its cursor on an item that passes. -/
theorem run_selected {winSize : WindowSize} (hc : Narrows c) (hw : winSize ≠ ⟨0, 0⟩)
    (ops : List Op) : ∃ p, (create c winSize).bind (fun p => p.run c ops) = some p ∧
      ∀ i, Passes c p i → Selected c p := by
  obtain ⟨p, hp, hready⟩ := create_ready c hw
  obtain ⟨q, hq, hready'⟩ := run_ready hc ops hready
  refine ⟨q, ?_, fun i hi => hready'.selected (size_pos_of_passes hready'.toFiltered hi)⟩
  rw [hp]
  exact hq

/-- Two candidates in a window; every text is found in all of them. -/
def twoItems : Candidates :=
  ⟨[[97], [98]], [⟨1, 0⟩, ⟨1, 0⟩], 0, 40, fun _ _ => true, fun _ => 1, rfl, by decide⟩

theorem run_selected_two : ∃ p, (create twoItems ⟨24, 80⟩).bind
    (fun p => p.run twoItems [.toggle, .next]) = some p ∧ Passes twoItems p 0 ∧
      Selected twoItems p := by
  obtain ⟨p, hp, hsel⟩ := run_selected (c := twoItems) (fun _ _ _ _ => rfl)
    (show (⟨24, 80⟩ : WindowSize) ≠ ⟨0, 0⟩ by decide) [.toggle, .next]
  have h0 : Passes twoItems p 0 := ⟨by decide, fun _ => rfl⟩
  exact ⟨p, hp, h0, hsel 0 h0⟩

/-- In a window of two rows nothing is rendered. -/
theorem not_rendered : ∃ p, (create twoItems ⟨2, 80⟩).bind (fun p => p.run twoItems []) = some p ∧
    Passes twoItems p 0 ∧
    ((p.render twoItems).flatten.filter fun cell => cell.1 = p.toCurItemIndex) ≠
      [(p.toCurItemIndex, p.showCursor)] := by
  refine ⟨_, rfl, ⟨by decide, fun _ => rfl⟩, ?_⟩
  decide

end

end ArrayPager

end Arsh.Pager
