import Arsh.Pager.Layout
import Mathlib.Data.List.Nodup
import Mathlib.Data.Finset.Sigma

/-!
# Rendering

`render` goes through the rows in view and through the panes of a row. The cells are the items of
the indexes in view (`shownIndexes`), without one of them twice.
-/

namespace Arsh.Pager

namespace ArrayPager

section
variable {c : Candidates} {p q : ArrayPager} {a i j k n rows start : Nat} {cache : List Nat}

/-! ## Items of indexes -/

theorem toActual_of_filter (h : Filtered c p) (hf : p.filterMode = true)
    (hk : k < p.filteredItemSize c) :
    ∃ hk' : k < p.filteredItemSet.indices.length,
      p.toActualItemIndex k = p.filteredItemSet.indices[k] := by
  have hk' : k < p.filteredItemSet.indices.length := by rwa [← h.size_eq_indices hf]
  refine ⟨hk', ?_⟩
  have hcount : ¬ (¬ p.filterMode = true ∨ p.filteredItemCount ≤ k) := by
    rw [h.count_eq hf, BitSet.count_eq]
    rintro (hc | hc)
    · exact hc hf
    · omega
  rw [toActualItemIndex, if_neg hcount, BitSet.getNthSetBitIndex_eq hk']

theorem toActual_of_not_filter (hf : ¬ p.filterMode = true) : p.toActualItemIndex k = k := by
  rw [toActualItemIndex, if_pos (.inl hf)]

theorem toActual_inj (h : Filtered c p) (hj : j < p.filteredItemSize c)
    (hk : k < p.filteredItemSize c) : p.toActualItemIndex j = p.toActualItemIndex k ↔ j = k := by
  by_cases hf : p.filterMode = true
  · obtain ⟨hj', hj⟩ := toActual_of_filter h hf hj
    obtain ⟨hk', hk⟩ := toActual_of_filter h hf hk
    have hnodup : p.filteredItemSet.indices.Nodup :=
      p.filteredItemSet.indices_sorted.imp fun hlt => Nat.ne_of_lt hlt
    rw [hj, hk, hnodup.getElem_inj_iff]
  · rw [toActual_of_not_filter hf, toActual_of_not_filter hf]

/-- The item behind the one of an index. -/
theorem toActual_succ (h : Filtered c p) (hk : k + 1 < p.filteredItemSize c) :
    (if p.filterMode then p.filteredItemSet.nextSetBit (p.toActualItemIndex k + 1)
      else p.toActualItemIndex k + 1) = p.toActualItemIndex (k + 1) := by
  by_cases hf : p.filterMode = true
  · obtain ⟨hk', heq⟩ := toActual_of_filter h hf (Nat.lt_of_succ_lt hk)
    obtain ⟨hk'', heq'⟩ := toActual_of_filter h hf hk
    rw [if_pos hf, heq, heq', ← BitSet.getNthSetBitIndex_eq hk',
      ← BitSet.getNthSetBitIndex_eq hk'']
    exact BitSet.nextSetBit_getNth hk''
  · rw [if_neg hf, toActual_of_not_filter hf, toActual_of_not_filter hf]

/-! ## Rows -/

/-- The cell at an index. -/
def cell (p : ArrayPager) (k : Nat) : Nat × Bool :=
  (p.toActualItemIndex k, decide (k = p.index) && p.showCursor)

/-- The cache has the items of the panes from the index `a` on. -/
def Cached (c : Candidates) (p : ArrayPager) (rows : Nat) : Nat → List Nat → Prop
  | _, [] => True
  | a, itemIndex :: cache =>
    (a < p.filteredItemSize c → itemIndex = p.toActualItemIndex a) ∧
      Cached c p rows (a + rows) cache

theorem cached_of_le (h : p.filteredItemSize c ≤ a) : Cached c p rows a cache := by
  induction cache generalizing a with
  | nil => trivial
  | cons x cache ih => exact ⟨fun hc => absurd hc (by omega), ih (by omega)⟩

theorem cached_map (l : Nat) : Cached c p rows (start + j * rows)
    ((List.range' j l).map fun j => p.toActualItemIndex (start + j * rows)) := by
  induction l generalizing j with
  | zero => trivial
  | succ l ih =>
    have hnext : start + j * rows + rows = start + (j + 1) * rows := by
      rw [Nat.succ_mul, Nat.add_assoc]
    exact ⟨fun _ => rfl, hnext ▸ ih⟩

theorem filter_of_le {l : Nat} (h : p.filteredItemSize c ≤ a) :
    (List.range' a l rows).filter (· < p.filteredItemSize c) = [] := by
  apply List.filter_eq_nil_iff.2
  intro k hk
  obtain ⟨m, -, rfl⟩ := List.mem_range'.1 hk
  rw [decide_eq_true_eq]
  have hle : a ≤ a + rows * m := Nat.le_add_right ..
  omega

theorem renderRow_spec (h : Filtered c p) (ha : a = start + i + j * rows)
    (hc : Cached c p rows a cache) :
    (p.renderRow c start rows i j cache).1 =
      ((List.range' a cache.length rows).filter (· < p.filteredItemSize c)).map p.cell ∧
    Cached c p rows (a + 1) (p.renderRow c start rows i j cache).2 ∧
    (p.renderRow c start rows i j cache).2.length = cache.length := by
  induction cache generalizing a j with
  | nil => exact ⟨rfl, trivial, rfl⟩
  | cons x cache ih =>
    obtain ⟨hx, hc'⟩ := hc
    rw [renderRow]
    split
    · next hle =>
      rw [← ha] at hle
      rw [filter_of_le hle]
      exact ⟨rfl, cached_of_le (by omega), rfl⟩
    · next hlt =>
      rw [← ha, Nat.not_le] at hlt
      have hnext : a + rows = start + i + (j + 1) * rows := by rw [ha, Nat.succ_mul, Nat.add_assoc]
      obtain ⟨hrow, hcache, hlen⟩ := ih hnext hc'
      obtain rfl := hx hlt
      refine ⟨?_, ⟨fun hlt' => ?_, ?_⟩, congrArg (· + 1) hlen⟩
      · show (_, _) :: (p.renderRow c start rows i (j + 1) cache).1 = _
        rw [hrow, List.length_cons, List.range'_succ, List.filter_cons, if_pos (decide_eq_true hlt),
          List.map_cons, cell, ← ha]
      · exact toActual_succ h hlt'
      · rw [Nat.add_right_comm]
        exact hcache

theorem renderRows_spec (h : Filtered c p) (hc : Cached c p rows (start + i) cache) :
    (p.renderRows c start rows n i cache).flatten =
      (((List.range' (start + i) n).flatMap fun a => List.range' a cache.length rows).filter
        (· < p.filteredItemSize c)).map p.cell := by
  induction n generalizing i cache with
  | zero => rfl
  | succ n ih =>
    obtain ⟨hrow, hcache, hlen⟩ := @renderRow_spec c p _ i 0 rows start cache h
      (by rw [Nat.zero_mul, Nat.add_zero]) hc
    rw [renderRows, List.flatten_cons, hrow, ih hcache, hlen, List.range'_succ, List.flatMap_cons,
      List.filter_append, List.map_append]
    rfl

/-! ## The selected item -/

/-- The indexes in view, in `panes` panes. -/
def shownIndexes (start actual rows panes : Nat) : List Nat :=
  (List.range' start actual).flatMap fun a => List.range' a panes rows

theorem nodup_shownIndexes {actual panes : Nat} (hr : 0 < rows) (h : start + actual ≤ rows) :
    (shownIndexes start actual rows panes).Nodup := by
  refine List.nodup_flatMap.2 ⟨fun a _ => List.nodup_range' rows hr, ?_⟩
  refine (List.nodup_range' 1 Nat.one_pos).imp_of_mem fun {a b} ha hb hne => ?_
  rw [Function.onFun, List.disjoint_left]
  rintro k hk hk'
  obtain ⟨m, -, rfl⟩ := List.mem_range'.1 hk
  obtain ⟨m', -, heq⟩ := List.mem_range'.1 hk'
  rw [List.mem_range'_1] at ha hb
  have hmod := congrArg (· % rows) heq
  simp only [Nat.add_mul_mod_self_left] at hmod
  rw [Nat.mod_eq_of_lt (by omega), Nat.mod_eq_of_lt (by omega)] at hmod
  exact hne hmod

theorem mem_shownIndexes {actual panes index : Nat} (hs : start ≤ index % rows)
    (hlt : index % rows < start + actual) (hp : index / rows < panes) :
    index ∈ shownIndexes start actual rows panes := by
  refine List.mem_flatMap.2 ⟨index % rows, List.mem_range'_1.2 ⟨hs, hlt⟩, ?_⟩
  exact List.mem_range'.2 ⟨index / rows, hp, (Nat.mod_add_div index rows).symm⟩

/-- There is a row for items. -/
theorem actualRows_pos (h : Ready c p) (hs : 0 < p.filteredItemSize c)
    (hr : p.filterMode = true → 2 ≤ p.rows) : 0 < p.getActualRows c := by
  have hl := (h.placed hs).rows_pos
  have hrows := h.rows_pos
  unfold getActualRows
  dsimp only
  split
  · next hc =>
    have := hr hc.1
    omega
  · omega

/-- The cells are those of the indexes in view. -/
theorem render_flatten (h : Ready c p) (hs : 0 < p.filteredItemSize c)
    (hshow : p.showPager = true) : (p.render c).flatten =
      ((shownIndexes (p.index % p.getLogicalRows c - p.curRow) (p.getActualRows c)
        (p.getLogicalRows c) p.panes).filter (· < p.filteredItemSize c)).map p.cell := by
  have hle := (h.placed hs).window.cur_le_row
  have hcache := @cached_map c p 0 (p.getLogicalRows c)
    (p.index % p.getLogicalRows c - p.curRow) p.panes
  rw [Nat.zero_mul, ← List.range_eq_range'] at hcache
  rw [render, if_neg (not_not.2 hshow), if_neg (by omega)]
  dsimp only
  rw [if_pos hle, renderRows_spec h.toFiltered hcache, List.length_map, List.length_range]
  rfl

/-- The selected item is rendered once. -/
theorem render_once (h : Ready c p) (hs : 0 < p.filteredItemSize c) (hshow : p.showPager = true)
    (hr : p.filterMode = true → 2 ≤ p.rows) :
    ((p.render c).flatten.filter fun cell => cell.1 = p.toCurItemIndex) =
      [(p.toCurItemIndex, p.showCursor)] := by
  have hp := h.placed hs
  have hactual := actualRows_pos h hs hr
  obtain ⟨hcur, hle, hfits⟩ := hp.window
  rw [render_flatten h hs hshow]
  generalize hstart : p.index % p.getLogicalRows c - p.curRow = start
  have hnodup : (shownIndexes start (p.getActualRows c) (p.getLogicalRows c) p.panes).Nodup :=
    nodup_shownIndexes hp.rows_pos (by omega)
  have hmem : p.index ∈ shownIndexes start (p.getActualRows c) (p.getLogicalRows c) p.panes :=
    mem_shownIndexes (by omega) (by omega) hp.pane_lt
  generalize shownIndexes start (p.getActualRows c) (p.getLogicalRows c) p.panes = l at *
  have hone : l.filter (fun k => decide (k = p.index)) = [p.index] := by
    rw [List.filter_eq, List.count_eq_one_of_mem hnodup hmem]
    rfl
  have hsel : (l.filter fun k => decide (k < p.filteredItemSize c)).filter
      (fun k => decide ((p.cell k).1 = p.toCurItemIndex)) = [p.index] := by
    rw [List.filter_filter, ← hone]
    apply List.filter_congr
    intro k _
    rw [← Bool.decide_and, decide_eq_decide]
    constructor
    · rintro ⟨heq, hlt⟩
      exact (toActual_inj h.toFiltered hlt hp.index_lt).1 heq
    · rintro rfl
      exact ⟨rfl, hp.index_lt⟩
  rw [List.filter_map]
  apply (congrArg (List.map p.cell) hsel).trans
  rw [List.map_singleton, cell, decide_eq_true rfl, Bool.true_and]
  rfl

end

end ArrayPager

end Arsh.Pager
