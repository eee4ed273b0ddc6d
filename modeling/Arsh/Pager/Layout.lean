import Arsh.Pager.Moves

/-!
# Layout and filter

`updateLayout` moves the cursor from the first item to its index, so it ends only if the index is
one of the items. Every operation keeps that, and the filter set has the items that match the query
(`Ready`).
-/

namespace Arsh.Pager

namespace ArrayPager

section
variable {c : Candidates} {p q : ArrayPager} {i k r n : Nat}

/-- The index is one of an item, and in filter mode the set has the items that match. -/
structure Filtered (c : Candidates) (p : ArrayPager) : Prop where
  index_lt : p.index < c.items.length
  set_size : p.filteredItemSet.size = 0 ∨ p.filteredItemSet.size = c.items.length
  size_eq : p.filterMode = true → p.filteredItemSet.size = c.items.length
  count_eq : p.filterMode = true → p.filteredItemCount = p.filteredItemSet.count
  test_eq : p.filterMode = true →
    ∀ i < c.items.length, p.filteredItemSet.test i = c.matchItemAt p.query i

/-- What holds of a pager between two operations. -/
structure Ready (c : Candidates) (p : ArrayPager) : Prop extends Filtered c p where
  rows_pos : 0 < p.rows
  panes_pos : 0 < p.panes
  placed : 0 < p.filteredItemSize c → Placed c p

theorem items_pos (c : Candidates) : 0 < c.items.length :=
  Nat.lt_of_le_of_lt (Nat.zero_le _) c.maxLen_lt

theorem Filtered.size_eq_indices (h : Filtered c p) (hf : p.filterMode = true) :
    p.filteredItemSize c = p.filteredItemSet.indices.length := by
  rw [filteredItemSize, if_pos hf, h.count_eq hf, BitSet.count_eq]

theorem Filtered.size_le (h : Filtered c p) : p.filteredItemSize c ≤ c.items.length := by
  by_cases hf : p.filterMode = true
  · rw [h.size_eq_indices hf, ← h.size_eq hf, BitSet.indices]
    exact Nat.le_trans (List.length_filter_le _ _) (Nat.le_of_eq List.length_range)
  · rw [filteredItemSize, if_neg hf]

theorem Filtered.moved (h : Filtered c p) (hi : i < c.items.length) : Filtered c (p.moved i r) :=
  ⟨hi, h.set_size, h.size_eq, h.count_eq, h.test_eq⟩

/-! ## Layout -/

theorem layout_rows_pos : 0 < (p.layout c).rows := by
  simp only [layout]
  split <;> omega

theorem layout_panes_pos : 0 < (p.layout c).panes :=
  Nat.lt_of_lt_of_le Nat.one_pos (Nat.le_max_right _ 1)

@[simp] theorem filteredItemSize_layout :
    (p.layout c).filteredItemSize c = p.filteredItemSize c := rfl

@[simp] theorem layout_index : (p.layout c).index = p.index := rfl

/-- The first item is in view. -/
theorem placed_first (hp : 0 < p.panes) (hs : 0 < p.filteredItemSize c) :
    Placed c (p.moved 0 0) := by
  refine ⟨hp, hs, ?_⟩
  rw [moved_index, Nat.zero_mod]
  exact .first getActualRows_le

/-- The loop of `updateLayout` ends at the index. -/
theorem replay_spec {org : Nat} (h : Placed c p) (hn : p.index + n = org)
    (horg : org < p.filteredItemSize c) :
    ∃ r, replay c org n p = some (p.moved org r) ∧ Placed c (p.moved org r) := by
  induction n generalizing p with
  | zero =>
    obtain rfl : p.index = org := hn
    refine ⟨p.curRow, ?_, h⟩
    rw [replay, if_pos (Nat.le_refl _)]
    rfl
  | succ n ih =>
    obtain ⟨i, r, hq, hp⟩ := moves_next h
    have hi := index_next h
    rw [if_neg (by omega), hq, moved_index] at hi
    rw [replay, if_neg (by omega), hq]
    exact ih hp (by rw [moved_index]; omega) horg

theorem updateLayout_ready (h : Filtered c p)
    (hi : 0 < p.filteredItemSize c → p.index < p.filteredItemSize c) :
    ∃ q, p.updateLayout c = some q ∧ Ready c q := by
  have hf : ∀ r, Filtered c ((p.layout c).moved p.index r) := fun r =>
    ⟨h.index_lt, h.set_size, h.size_eq, h.count_eq, h.test_eq⟩
  rw [updateLayout]
  by_cases hs : (p.layout c).filteredItemSize c = 0
  · rw [if_pos hs]
    refine ⟨_, rfl, ⟨hf p.curRow, layout_rows_pos, layout_panes_pos, fun hc => ?_⟩⟩
    exact absurd hs (by omega)
  · rw [if_neg hs, layout_index]
    rw [filteredItemSize_layout] at hs
    obtain ⟨r, hr, hp⟩ := replay_spec (placed_first layout_panes_pos (Nat.pos_of_ne_zero hs))
      (Nat.zero_add p.index) (hi (Nat.pos_of_ne_zero hs))
    exact ⟨_, hr, ⟨hf r, layout_rows_pos, layout_panes_pos, fun _ => hp⟩⟩

theorem updateWinSize_ready (h : Ready c p) (size : WindowSize) :
    ∃ q, p.updateWinSize c size = some q ∧ Ready c q := by
  rw [updateWinSize]
  split
  · exact ⟨p, rfl, h⟩
  · refine updateLayout_ready ⟨h.index_lt, h.set_size, h.size_eq, h.count_eq, h.test_eq⟩ ?_
    exact fun hs => (h.placed hs).index_lt

/-- A pager for a window is ready. -/
theorem create_ready (c : Candidates) {size : WindowSize} (h : size ≠ ⟨0, 0⟩) :
    ∃ q, create c size = some q ∧ Ready c q := by
  rw [create, updateWinSize, if_neg h.symm]
  exact updateLayout_ready ⟨items_pos c, .inl rfl, nofun, nofun, nofun⟩ fun hs => hs

/-! ## Moves -/

theorem Ready.of_moves (h : Ready c p) (hm : Moves c p q) : Ready c q := by
  obtain ⟨i, r, rfl, hp⟩ := hm
  have hi : i < c.items.length := Nat.lt_of_lt_of_le hp.index_lt h.size_le
  exact ⟨h.toFiltered.moved hi, h.rows_pos, h.panes_pos, fun _ => hp⟩

theorem next_ready (h : Ready c p) : Ready c (p.moveCursorToNext c) := by
  by_cases hs : p.filteredItemSize c = 0
  · rwa [moveCursorToNext, if_pos hs]
  · exact h.of_moves (moves_next (h.placed (Nat.pos_of_ne_zero hs)))

theorem forward_ready (h : Ready c p) : Ready c (p.moveCursorToForward c) := by
  by_cases hs : p.filteredItemSize c = 0
  · rwa [moveCursorToForward, if_pos hs]
  · exact h.of_moves (moves_forward (h.placed (Nat.pos_of_ne_zero hs)))

theorem right_ready (h : Ready c p) : Ready c (p.moveCursorToRight c) := by
  by_cases hs : p.filteredItemSize c = 0
  · rwa [moveCursorToRight, if_pos hs]
  · exact h.of_moves (right_spec (h.placed (Nat.pos_of_ne_zero hs))).1

theorem left_ready (h : Ready c p) : ∃ q, p.moveCursorToLeft c = some q ∧ Ready c q := by
  by_cases hs : p.filteredItemSize c = 0
  · refine ⟨p, ?_, h⟩
    rw [moveCursorToLeft, if_pos hs]
  · obtain ⟨q, hq, hm, -⟩ := left_spec (h.placed (Nat.pos_of_ne_zero hs))
    exact ⟨q, hq, h.of_moves hm⟩

/-! ## The filter -/

theorem resetIndex_spec : ∃ i r, p.resetIndex c = p.moved i r ∧ (i = 0 ∨ i = p.index) ∧
    (0 < p.filteredItemSize c → i < p.filteredItemSize c) := by
  rw [resetIndex]
  split
  · next h => exact ⟨0, 0, rfl, .inl rfl, fun hs => hs⟩
  · next h => exact ⟨p.index, p.curRow, rfl, .inr rfl, by omega⟩

/-- A pager in filter mode with the set of the items that match is laid out again. -/
theorem refilter_ready {set : BitSet} (hi : p.index < c.items.length)
    (hsize : set.size = c.items.length)
    (htest : ∀ i < c.items.length, set.test i = c.matchItemAt p.query i) :
    ∃ q, updateLayout c (resetIndex c
      { p with filteredItemSet := set, filteredItemCount := set.count }) = some q ∧ Ready c q := by
  obtain ⟨i, r, heq, hi', hlt⟩ := @resetIndex_spec c
    { p with filteredItemSet := set, filteredItemCount := set.count }
  have hindex : i < c.items.length := by
    rcases hi' with rfl | rfl
    · exact items_pos c
    · exact hi
  rw [heq]
  exact updateLayout_ready ⟨hindex, .inr hsize, fun _ => hsize, fun _ => rfl, fun _ => htest⟩ hlt

theorem rebuild_ready (hi : p.index < c.items.length)
    (hset : p.filteredItemSet.size = 0 ∨ p.filteredItemSet.size = c.items.length) :
    ∃ q, p.rebuildFilteredItemIndexes c = some q ∧ Ready c q := by
  rw [rebuildFilteredItemIndexes]
  have hempty : ∀ s : BitSet, s = (if p.filteredItemSet.size ≠ 0 then p.filteredItemSet.clear
      else .new c.items.length) → s.size = c.items.length ∧ ∀ i, s.test i = false := by
    rintro s rfl
    split
    · next h => exact ⟨BitSet.size_clear.trans (hset.resolve_left h), fun i => BitSet.test_clear⟩
    · exact ⟨BitSet.size_new, fun i => BitSet.test_new⟩
  obtain ⟨hsize, hnone⟩ := hempty _ rfl
  obtain ⟨hsize', htest⟩ := @BitSet.foldl_set _ (c.matchItemAt p.query) (List.range c.items.length)
    fun i hi => by
      rw [hsize]
      exact List.mem_range.1 hi
  apply refilter_ready hi (hsize'.trans hsize)
  intro i hi
  rw [htest, hnone]
  simp [hi]

theorem setQuery_ready (h : Ready c p) (ref : Bytes) :
    ∃ q, p.setQuery c ref = some q ∧ Ready c q := by
  rw [setQuery]
  split
  · exact rebuild_ready h.index_lt h.set_size
  · exact ⟨p, rfl, h⟩

/-- Behind a longer query there are only items that matched the shorter one. -/
theorem push_ready (h : Ready c p) (grapheme : Bytes)
    (hnarrow : ∀ can query, c.fuzzyFind can (query ++ grapheme) = true →
      c.fuzzyFind can query = true) :
    ∃ q, p.pushQueryChar c grapheme = some q ∧ Ready c q := by
  rw [pushQueryChar]
  split
  · exact ⟨p, rfl, h⟩
  · next hm =>
    have hf : p.filterMode = true := by
      by_contra hc
      exact hm (.inl hc)
    refine refilter_ready (p := { p with query := p.query ++ grapheme }) h.index_lt
      (BitSet.size_resetIf.trans (h.size_eq hf)) fun i hi => ?_
    rw [BitSet.test_resetIf, h.test_eq hf i hi, Bool.not_not]
    cases hmatch : c.matchItemAt (p.query ++ grapheme) i with
    | false => exact Bool.and_false _
    | true =>
      have hold : c.matchItemAt p.query i = true := hnarrow _ _ hmatch
      rw [hold]
      rfl

theorem pop_ready (h : Ready c p) : ∃ q, p.popQueryChar c = some q ∧ Ready c q := by
  rw [popQueryChar]
  split
  · exact ⟨p, rfl, h⟩
  · exact rebuild_ready (p := { p with query := _ }) h.index_lt h.set_size

theorem tryToEnable_ready (h : Ready c p) (hm : p.filterMode = false) :
    ∃ q, p.tryToEnableFilterMode c = some q ∧ Ready c q := by
  rw [tryToEnableFilterMode]
  dsimp only
  split
  · exact rebuild_ready (p := { p with filterMode := _ }) h.index_lt h.set_size
  · next hf =>
    have heq : { p with filterMode := decide (2 ≤ p.rows) } = p := by
      rw [Bool.eq_false_iff.2 hf, ← hm]
    rw [heq]
    exact ⟨p, rfl, h⟩

/-- Moves to the next item before the last one. -/
theorem iterate_next (h : p.index + k < p.filteredItemSize c) :
    ∃ r, (moveCursorToNext c)^[k] p = p.moved (p.index + k) r := by
  induction k with
  | zero => exact ⟨p.curRow, rfl⟩
  | succ k ih =>
    obtain ⟨r, hr⟩ := ih (by omega)
    rw [Function.iterate_succ_apply', hr, moveCursorToNext,
      if_neg (by rw [filteredItemSize_moved]; omega),
      if_neg (by rw [filteredItemSize_moved, moved_index]; omega)]
    exact ⟨_, rfl⟩

theorem toCurItemIndex_lt (h : Filtered c p) : p.toCurItemIndex < c.items.length := by
  rw [toCurItemIndex, toActualItemIndex]
  split
  · exact h.index_lt
  · next hm =>
    obtain ⟨hf, hlt⟩ := not_or.1 hm
    have hf := not_not.1 hf
    have hlen : p.index < p.filteredItemSet.indices.length := by
      rw [h.count_eq hf, BitSet.count_eq] at hlt
      omega
    rw [BitSet.getNthSetBitIndex_eq hlen, ← h.size_eq hf]
    exact BitSet.indices_lt_size (List.getElem_mem hlen)

theorem disable_ready (h : Ready c p) : ∃ q, p.disableFilterMode c = some q ∧ Ready c q := by
  have hcur := toCurItemIndex_lt h.toFiltered
  rw [disableFilterMode]
  dsimp only
  generalize hq : (if p.filteredItemSet.size ≠ 0 then
      { p with
        filterMode := false
        filteredItemSet := p.filteredItemSet.clear
        filteredItemCount := 0 }
    else { p with filterMode := false }) = q
  have hmode : q.filterMode = false := by
    subst hq
    split <;> rfl
  have hset : q.filteredItemSet.size = 0 ∨ q.filteredItemSet.size = c.items.length := by
    subst hq
    split
    · simpa only [BitSet.size_clear] using h.set_size
    · exact h.set_size
  have hsize : ∀ i r, filteredItemSize c { q with query := [], curRow := r, index := i } =
      c.items.length := fun i r => if_neg (by simp [hmode])
  obtain ⟨r, hr⟩ := @iterate_next c { q with query := [], curRow := 0, index := 0 }
    p.toCurItemIndex (by rw [hsize, Nat.zero_add]; exact hcur)
  rw [hr]
  have hno : ¬ q.filterMode = true := by simp [hmode]
  refine updateLayout_ready ⟨?_, hset, fun hc => absurd hc hno, fun hc => absurd hc hno,
    fun hc => absurd hc hno⟩ fun _ => ?_
  · rw [moved_index, Nat.zero_add]
    exact hcur
  · rw [filteredItemSize_moved, hsize, moved_index, Nat.zero_add]
    exact hcur

/-! ## Runs -/

/-- Extending a query only narrows. -/
def Narrows (c : Candidates) : Prop :=
  ∀ can query grapheme, c.fuzzyFind can (query ++ grapheme) = true → c.fuzzyFind can query = true

theorem apply_ready (hc : Narrows c) (h : Ready c p) (op : Op) :
    ∃ q, p.apply c op = some q ∧ Ready c q := by
  cases op with
  | next => exact ⟨_, rfl, next_ready h⟩
  | forward => exact ⟨_, rfl, forward_ready h⟩
  | left => exact left_ready h
  | right => exact ⟨_, rfl, right_ready h⟩
  | resize size => exact updateWinSize_ready h size
  | toggle =>
    rw [apply]
    split
    · exact disable_ready h
    · next hm => exact tryToEnable_ready h (Bool.eq_false_iff.2 hm)
  | setQuery ref => exact setQuery_ready h ref
  | push grapheme => exact push_ready h grapheme fun can query => hc can query grapheme
  | pop => exact pop_ready h
  | showCursor set =>
    exact ⟨_, rfl, ⟨⟨h.index_lt, h.set_size, h.size_eq, h.count_eq, h.test_eq⟩, h.rows_pos,
      h.panes_pos, fun hs => ⟨h.panes_pos, (h.placed hs).index_lt, (h.placed hs).window⟩⟩⟩

theorem run_ready (hc : Narrows c) (ops : List Op) (h : Ready c p) :
    ∃ q, p.run c ops = some q ∧ Ready c q := by
  induction ops generalizing p with
  | nil => exact ⟨p, rfl, h⟩
  | cons op ops ih =>
    obtain ⟨q, hq, hr⟩ := apply_ready hc h op
    rw [run, hq]
    exact ih hr

end

end ArrayPager

end Arsh.Pager
