import Arsh.Pager.Model

/-!
# The moves of the cursor

The items stand in panes of `getLogicalRows` rows, of which `getActualRows` are in view. A move
keeps the cursor in view (`Window`), and the moves in two directions undo each other.
-/

namespace Arsh.Pager

/-! ## A window on rows -/

/-- Of `rows` rows `actual` are in view, and the cursor is at the row `r`, in the row `cur` of the
view. -/
structure Window (rows actual r cur : Nat) : Prop where
  cur_le : cur ≤ actual - 1
  cur_le_row : cur ≤ r
  fits : r + actual ≤ rows + cur

section
variable {rows actual r cur : Nat}

theorem Window.first (h : actual ≤ rows) : Window rows actual 0 0 := ⟨by omega, by omega, by omega⟩

theorem Window.last (h : actual ≤ rows) (hr : r < rows) :
    Window rows actual r (min (actual - 1) r) := ⟨by omega, by omega, by omega⟩

theorem Window.last_row (h : actual ≤ rows) (hr : 0 < rows) :
    Window rows actual (rows - 1) (actual - 1) := ⟨by omega, by omega, by omega⟩

theorem Window.down (h : Window rows actual r cur) (hr : r + 1 < rows) :
    Window rows actual (r + 1) (if cur = actual - 1 then actual - 1 else cur + 1) := by
  obtain ⟨h1, h2, h3⟩ := h
  split
  · exact ⟨by omega, by omega, by omega⟩
  · exact ⟨by omega, by omega, by omega⟩

theorem Window.up (h : Window rows actual r cur) (hr : 0 < r) :
    Window rows actual (r - 1) (cur - 1) := by
  obtain ⟨h1, h2, h3⟩ := h
  exact ⟨by omega, by omega, by omega⟩

end

/-! ## Rows and panes -/

namespace ArrayPager

section
variable {c : Candidates} {p q : ArrayPager} {i r : Nat}

/-- The pager with the cursor at another place. -/
def moved (p : ArrayPager) (index curRow : Nat) : ArrayPager := { p with index, curRow }

@[simp] theorem moved_index : (p.moved i r).index = i := rfl

@[simp] theorem moved_curRow : (p.moved i r).curRow = r := rfl

@[simp] theorem moved_panes : (p.moved i r).panes = p.panes := rfl

@[simp] theorem moved_rows : (p.moved i r).rows = p.rows := rfl

@[simp] theorem filteredItemSize_moved :
    (p.moved i r).filteredItemSize c = p.filteredItemSize c := rfl

@[simp] theorem getLogicalRows_moved : (p.moved i r).getLogicalRows c = p.getLogicalRows c := rfl

@[simp] theorem getActualRows_moved : (p.moved i r).getActualRows c = p.getActualRows c := rfl

/-- The pager has panes, rows and items, and the cursor is at an item in view. -/
structure Placed (c : Candidates) (p : ArrayPager) : Prop where
  panes_pos : 0 < p.panes
  index_lt : p.index < p.filteredItemSize c
  window : Window (p.getLogicalRows c) (p.getActualRows c) (p.index % p.getLogicalRows c) p.curRow

theorem getActualRows_le : p.getActualRows c ≤ p.getLogicalRows c := by
  unfold getActualRows
  dsimp only
  split <;> omega

theorem size_le_mul (h : 0 < p.panes) :
    p.filteredItemSize c ≤ p.getLogicalRows c * p.panes := by
  unfold getLogicalRows
  have hdiv := Nat.div_add_mod (p.filteredItemSize c) p.panes
  have hlt := Nat.mod_lt (p.filteredItemSize c) h
  split
  · rw [Nat.add_zero, Nat.mul_comm]
    omega
  · rw [Nat.add_mul, Nat.one_mul, Nat.mul_comm]
    omega

theorem logicalRows_pos (h : 0 < p.panes) (hs : 0 < p.filteredItemSize c) :
    0 < p.getLogicalRows c := by
  have hle := @size_le_mul c p h
  by_contra hz
  rw [Nat.eq_zero_of_not_pos hz, Nat.zero_mul] at hle
  omega

theorem logicalRows_le (h : 0 < p.panes) (hs : 0 < p.filteredItemSize c) :
    p.getLogicalRows c ≤ p.filteredItemSize c := by
  unfold getLogicalRows
  rcases Nat.lt_or_ge 1 p.panes with hp | hp
  · have hlt : p.filteredItemSize c / p.panes < p.filteredItemSize c := Nat.div_lt_self hs hp
    split <;> omega
  · have hone : p.panes = 1 := by omega
    rw [hone, Nat.div_one, if_pos (Nat.mod_one _)]
    exact Nat.le_refl _

theorem Placed.size_pos (h : Placed c p) : 0 < p.filteredItemSize c :=
  Nat.lt_of_le_of_lt (Nat.zero_le _) h.index_lt

theorem Placed.rows_pos (h : Placed c p) : 0 < p.getLogicalRows c :=
  logicalRows_pos h.panes_pos h.size_pos

theorem Placed.row_lt (h : Placed c p) : p.index % p.getLogicalRows c < p.getLogicalRows c :=
  Nat.mod_lt _ h.rows_pos

/-- The pane of the cursor is one of the panes. -/
theorem Placed.pane_lt (h : Placed c p) : p.index / p.getLogicalRows c < p.panes := by
  rw [Nat.div_lt_iff_lt_mul h.rows_pos, Nat.mul_comm]
  exact Nat.lt_of_lt_of_le h.index_lt (size_le_mul h.panes_pos)

theorem Placed.moved (h : Placed c p) (hi : i < p.filteredItemSize c)
    (hw : Window (p.getLogicalRows c) (p.getActualRows c) (i % p.getLogicalRows c) r) :
    Placed c (p.moved i r) := ⟨h.panes_pos, hi, hw⟩

/-! ## Next and forward -/

theorem succ_mod {n m : Nat} (h : n % m + 1 < m) : (n + 1) % m = n % m + 1 := by
  rw [Nat.add_mod, Nat.mod_eq_of_lt (a := 1) (by omega), Nat.mod_eq_of_lt h]

theorem succ_mod_last {n m : Nat} (h : n % m + 1 = m) : (n + 1) % m = 0 := by
  have hdiv := Nat.div_add_mod n m
  have heq : n + 1 = m * (n / m) + m := by omega
  rw [heq, ← Nat.mul_succ, Nat.mul_mod_right]

theorem pred_mod {n m : Nat} (h : 0 < n % m) : (n - 1) % m = n % m - 1 := by
  rcases Nat.eq_zero_or_pos m with rfl | hm
  · simp
  · have hlt := Nat.mod_lt n hm
    have hdiv := Nat.div_add_mod n m
    have heq : n - 1 = n % m - 1 + m * (n / m) := by omega
    rw [heq, Nat.add_mul_mod_self_left, Nat.mod_eq_of_lt (by omega)]

theorem pred_mod_zero {n m : Nat} (hm : 0 < m) (hn : 0 < n) (h : n % m = 0) :
    (n - 1) % m = m - 1 := by
  have hdiv := Nat.div_add_mod n m
  have hpos : 0 < n / m := Nat.div_pos (Nat.le_of_dvd hn (Nat.dvd_of_mod_eq_zero h)) hm
  obtain ⟨k, hk⟩ := Nat.exists_eq_add_of_lt hpos
  have heq : n - 1 = m - 1 + m * k := by
    rw [hk] at hdiv
    simp only [Nat.zero_add, Nat.mul_succ] at hdiv
    omega
  rw [heq, Nat.add_mul_mod_self_left, Nat.mod_eq_of_lt (by omega)]

theorem index_next (h : Placed c p) : (p.moveCursorToNext c).index =
    if p.index = p.filteredItemSize c - 1 then 0 else p.index + 1 := by
  have hs := h.size_pos
  rw [moveCursorToNext, if_neg (by omega)]
  split <;> rfl

theorem index_forward (h : Placed c p) : (p.moveCursorToForward c).index =
    if p.index = 0 then p.filteredItemSize c - 1 else p.index - 1 := by
  have hs := h.size_pos
  rw [moveCursorToForward, if_neg (by omega)]
  split <;> rfl

/-- A move gives the pager with the cursor at another item in view. -/
def Moves (c : Candidates) (p q : ArrayPager) : Prop :=
  ∃ i r, q = p.moved i r ∧ Placed c (p.moved i r)

theorem moves_next (h : Placed c p) : Moves c p (p.moveCursorToNext c) := by
  have hs := h.size_pos
  have hrow := h.row_lt
  rw [moveCursorToNext, if_neg (by omega)]
  split
  · refine ⟨0, 0, rfl, h.moved hs ?_⟩
    rw [Nat.zero_mod]
    exact .first getActualRows_le
  · next hlast =>
    refine ⟨p.index + 1, _, rfl, h.moved (by have := h.index_lt; omega) ?_⟩
    by_cases hbottom : p.index % p.getLogicalRows c = p.getLogicalRows c - 1
    · -- the row below the last one is the first one of the next pane
      have hcur : p.curRow = p.getActualRows c - 1 := by
        have hw := h.window
        have h1 := hw.cur_le
        have h2 := hw.fits
        omega
      rw [if_pos hcur, if_pos hbottom, succ_mod_last (by omega)]
      exact .first getActualRows_le
    · rw [if_neg hbottom, succ_mod (by omega)]
      exact h.window.down (by omega)

theorem moves_forward (h : Placed c p) : Moves c p (p.moveCursorToForward c) := by
  have hs := h.size_pos
  rw [moveCursorToForward, if_neg (by omega)]
  split
  · refine ⟨p.filteredItemSize c - 1, _, rfl, h.moved (by omega) ?_⟩
    exact .last getActualRows_le (Nat.mod_lt _ h.rows_pos)
  · next h0 =>
    refine ⟨p.index - 1, _, rfl, h.moved (by have := h.index_lt; omega) ?_⟩
    by_cases htop : p.index % p.getLogicalRows c = 0
    · have hcur : p.curRow = 0 := by
        have h1 := h.window.cur_le_row
        omega
      rw [if_pos hcur, if_neg (by omega), pred_mod_zero h.rows_pos (by omega) htop]
      exact .last_row getActualRows_le h.rows_pos
    · rw [pred_mod (by omega)]
      have hup := h.window.up (by omega)
      by_cases hcur : p.curRow = 0
      · rw [if_pos hcur, if_pos (by omega)]
        rwa [hcur] at hup
      · rwa [if_neg hcur]

/-! ## Left and right -/

/-- The loop ends at the last item of the row. -/
theorem wrapIndex_spec {size rows n x row : Nat} (hrow : row < size) (hmod : x % rows = row)
    (hx : x < size + n * rows) (hge : size ≤ x + rows) :
    ∃ j, wrapIndex size rows n x = some j ∧ j < size ∧ size ≤ j + rows ∧ j % rows = row := by
  induction n generalizing x with
  | zero =>
    rw [Nat.zero_mul, Nat.add_zero] at hx
    refine ⟨x, ?_, hx, hge, hmod⟩
    rw [wrapIndex, if_pos hx]
  | succ n ih =>
    rw [wrapIndex]
    split
    · next hlt => exact ⟨x, rfl, hlt, hge, hmod⟩
    · next hlt =>
      have hle : rows ≤ x := by
        by_contra hc
        rw [Nat.mod_eq_of_lt (not_le.1 hc)] at hmod
        omega
      apply ih
      · rw [← hmod, Nat.mod_eq_sub_mod hle]
      · rw [Nat.add_mul, Nat.one_mul] at hx
        omega
      · omega

theorem wrapIndex_last {size rows panes row : Nat} (hp : 0 < panes) (hr : row < rows)
    (hrow : row < size) (hle : size ≤ rows * panes) :
    ∃ j, wrapIndex size rows panes (row + rows * (panes - 1)) = some j ∧ j < size ∧
      size ≤ j + rows ∧ j % rows = row := by
  obtain ⟨k, rfl⟩ : ∃ k, panes = k + 1 := ⟨panes - 1, by omega⟩
  rw [Nat.mul_succ] at hle
  apply wrapIndex_spec hrow
  · rw [Nat.add_mul_mod_self_left, Nat.mod_eq_of_lt hr]
  · rw [Nat.add_sub_cancel, Nat.mul_comm (k + 1), Nat.mul_succ]
    omega
  · rw [Nat.add_sub_cancel]
    omega

/-- What `moveCursorToLeft` does. -/
theorem left_spec (h : Placed c p) : ∃ q, p.moveCursorToLeft c = some q ∧ Moves c p q ∧
    (p.getLogicalRows c ≤ p.index → q.index = p.index - p.getLogicalRows c) ∧
    (p.index < p.getLogicalRows c → p.filteredItemSize c ≤ q.index + p.getLogicalRows c ∧
      (p.index = 0 → q.index % p.getLogicalRows c = p.getLogicalRows c - 1) ∧
      (0 < p.index → q.index % p.getLogicalRows c = p.index - 1)) := by
  have hs := h.size_pos
  have hpos := h.rows_pos
  have hpanes := h.panes_pos
  have hle := logicalRows_le hpanes hs
  rw [moveCursorToLeft, if_neg (by omega)]
  dsimp only
  by_cases hlt : p.index < p.getLogicalRows c
  · rw [Nat.div_eq_of_lt hlt, if_neg (Nat.lt_irrefl 0), Nat.mod_eq_of_lt hlt]
    by_cases h0 : p.index = 0
    · obtain ⟨j, hj, hjlt, hjge, hjmod⟩ := wrapIndex_last hpanes
        (show p.getLogicalRows c - 1 < p.getLogicalRows c by omega)
        (show p.getLogicalRows c - 1 < p.filteredItemSize c by omega) (size_le_mul hpanes)
      have hnext : p.getLogicalRows c * p.panes - 1 =
          p.getLogicalRows c - 1 + p.getLogicalRows c * (p.panes - 1) := by
        obtain ⟨k, hk⟩ : ∃ k, p.panes = k + 1 := ⟨p.panes - 1, by omega⟩
        rw [hk, Nat.mul_succ, Nat.add_sub_cancel]
        omega
      simp only [if_pos h0, hnext, hj, Option.map_some]
      refine ⟨_, rfl, ⟨j, _, rfl, h.moved hjlt ?_⟩, fun hc => absurd hlt (not_lt.2 hc), fun _ =>
        ⟨hjge, fun _ => hjmod, fun hc => absurd h0 (by omega)⟩⟩
      rw [hjmod]
      exact .last_row getActualRows_le hpos
    · obtain ⟨j, hj, hjlt, hjge, hjmod⟩ := wrapIndex_last hpanes
        (show p.index - 1 < p.getLogicalRows c by omega)
        (show p.index - 1 < p.filteredItemSize c by omega) (size_le_mul hpanes)
      simp only [if_neg h0, hj, Option.map_some]
      refine ⟨_, rfl, ⟨j, _, rfl, h.moved hjlt ?_⟩, fun hc => absurd hlt (not_lt.2 hc), fun _ =>
        ⟨hjge, fun hc => absurd hc h0, fun _ => hjmod⟩⟩
      have hw := h.window
      rw [Nat.mod_eq_of_lt hlt] at hw
      rw [hjmod]
      have hup := hw.up (by omega)
      by_cases hcur : p.curRow = 0
      · rw [hcur] at hup
        rwa [if_neg (by omega), hcur]
      · rwa [if_pos (by omega)]
  · have hge : p.getLogicalRows c ≤ p.index := not_lt.1 hlt
    rw [if_pos (Nat.div_pos hge hpos)]
    refine ⟨_, rfl, ⟨_, p.curRow, rfl, h.moved (by have := h.index_lt; omega) ?_⟩, fun _ => rfl,
      fun hc => absurd hc hlt⟩
    rw [← Nat.mod_eq_sub_mod hge]
    exact h.window

/-- What `moveCursorToRight` does. -/
theorem right_spec (h : Placed c p) : Moves c p (p.moveCursorToRight c) ∧
    (p.index + p.getLogicalRows c < p.filteredItemSize c →
      (p.moveCursorToRight c).index = p.index + p.getLogicalRows c) ∧
    (p.filteredItemSize c ≤ p.index + p.getLogicalRows c →
      (p.index % p.getLogicalRows c + 1 < p.getLogicalRows c →
        (p.moveCursorToRight c).index = p.index % p.getLogicalRows c + 1) ∧
      (p.index % p.getLogicalRows c + 1 = p.getLogicalRows c →
        (p.moveCursorToRight c).index = 0)) := by
  have hs := h.size_pos
  have hpos := h.rows_pos
  have hrow := h.row_lt
  have hle := logicalRows_le h.panes_pos hs
  have hdiv := Nat.div_add_mod p.index (p.getLogicalRows c)
  rw [moveCursorToRight, if_neg (by omega)]
  dsimp only
  by_cases hnext : p.index + p.getLogicalRows c < p.filteredItemSize c
  · have hpane : p.index / p.getLogicalRows c < p.panes - 1 := by
      have hdiv' : (p.index + p.getLogicalRows c) / p.getLogicalRows c < p.panes := by
        rw [Nat.div_lt_iff_lt_mul hpos, Nat.mul_comm]
        exact Nat.lt_of_lt_of_le hnext (size_le_mul h.panes_pos)
      rw [Nat.add_div_right _ hpos] at hdiv'
      omega
    rw [if_pos ⟨hpane, hnext⟩]
    refine ⟨⟨_, p.curRow, rfl, h.moved hnext ?_⟩, fun _ => rfl, fun hc =>
      absurd hnext (not_lt.2 hc)⟩
    rw [Nat.add_mod_right]
    exact h.window
  · have hindex : p.index + 1 - p.getLogicalRows c * (p.index / p.getLogicalRows c) =
        p.index % p.getLogicalRows c + 1 := by omega
    rw [if_neg fun hc => hnext hc.2, hindex]
    by_cases hdown : p.index % p.getLogicalRows c + 1 < p.getLogicalRows c
    · rw [if_pos ⟨by omega, by omega⟩]
      refine ⟨⟨_, _, rfl, h.moved (by omega) ?_⟩, fun hc => absurd hc hnext, fun _ =>
        ⟨fun _ => rfl, fun hc => absurd hdown (by omega)⟩⟩
      rw [Nat.mod_eq_of_lt hdown]
      have hdn := h.window.down hdown
      have hcur := h.window.cur_le
      by_cases hlast : p.curRow = p.getActualRows c - 1
      · rw [if_pos hlast] at hdn
        rwa [if_neg (by omega), hlast]
      · rw [if_neg hlast] at hdn
        rwa [if_pos (by omega)]
    · rw [if_neg fun hc => hdown (by omega)]
      refine ⟨⟨0, 0, rfl, h.moved hs ?_⟩, fun hc => absurd hc hnext, fun _ =>
        ⟨fun hc => absurd hc hdown, fun _ => rfl⟩⟩
      rw [Nat.zero_mod]
      exact .first getActualRows_le

/-! ## Moves that undo each other -/

theorem forward_next (h : Placed c p) :
    ((p.moveCursorToNext c).moveCursorToForward c).index = p.index := by
  obtain ⟨i, r, hq, hp⟩ := moves_next h
  have hlt := h.index_lt
  have hi := index_next h
  rw [hq] at hi ⊢
  rw [index_forward hp]
  simp only [moved_index, filteredItemSize_moved] at hi ⊢
  rw [hi]
  split <;> split <;> omega

theorem next_forward (h : Placed c p) :
    ((p.moveCursorToForward c).moveCursorToNext c).index = p.index := by
  obtain ⟨i, r, hq, hp⟩ := moves_forward h
  have hlt := h.index_lt
  have hi := index_forward h
  rw [hq] at hi ⊢
  rw [index_next hp]
  simp only [moved_index, filteredItemSize_moved] at hi ⊢
  rw [hi]
  split <;> split <;> omega

/-- The last item of a row is the only one. -/
theorem eq_of_mod_eq {n m i j : Nat} (hi : i < n) (hi' : n ≤ i + m) (hj : j < n)
    (hj' : n ≤ j + m) (h : i % m = j % m) : i = j := by
  have hdi := Nat.div_add_mod i m
  have hdj := Nat.div_add_mod j m
  rcases Nat.lt_trichotomy (i / m) (j / m) with hlt | heq | hlt
  · have hmul : m * (i / m) + m ≤ m * (j / m) := by
      rw [← Nat.mul_succ]
      exact Nat.mul_le_mul_left m hlt
    omega
  · rw [heq] at hdi
    omega
  · have hmul : m * (j / m) + m ≤ m * (i / m) := by
      rw [← Nat.mul_succ]
      exact Nat.mul_le_mul_left m hlt
    omega

theorem right_left (h : Placed c p) :
    ∃ q, p.moveCursorToLeft c = some q ∧ (q.moveCursorToRight c).index = p.index := by
  obtain ⟨q, hleft, ⟨i, r, rfl, hp⟩, hge, hlt⟩ := left_spec h
  refine ⟨_, hleft, ?_⟩
  have hrow := h.row_lt
  have hindex := h.index_lt
  obtain ⟨-, hnext, hwrap⟩ := right_spec hp
  simp only [moved_index, filteredItemSize_moved, getLogicalRows_moved] at hge hlt hnext hwrap
  by_cases hpane : p.index < p.getLogicalRows c
  · obtain ⟨hn, hzero, hpos⟩ := hlt hpane
    obtain ⟨hdown, hfirst⟩ := hwrap hn
    by_cases h0 : p.index = 0
    · rw [hfirst (by rw [hzero h0]; omega), h0]
    · rw [hdown (by rw [hpos (by omega)]; omega), hpos (by omega)]
      omega
  · have hi := hge (not_lt.1 hpane)
    rw [hnext (by omega)]
    omega

theorem left_right (h : Placed c p) :
    ∃ q, (p.moveCursorToRight c).moveCursorToLeft c = some q ∧ q.index = p.index := by
  obtain ⟨⟨i, r, hq, hp⟩, hnext, hwrap⟩ := right_spec h
  rw [hq] at hnext hwrap ⊢
  obtain ⟨q, hleft, ⟨j, s, rfl, hpj⟩, hge, hlt⟩ := left_spec hp
  refine ⟨_, hleft, ?_⟩
  have hrow := h.row_lt
  have hindex := h.index_lt
  have hj : j < p.filteredItemSize c := hpj.index_lt
  simp only [moved_index, filteredItemSize_moved, getLogicalRows_moved] at hnext hwrap hge hlt ⊢
  by_cases hright : p.index + p.getLogicalRows c < p.filteredItemSize c
  · have hi := hnext hright
    have hj' := hge (by omega)
    omega
  · obtain ⟨hdown, hfirst⟩ := hwrap (not_lt.1 hright)
    by_cases hlast : p.index % p.getLogicalRows c + 1 = p.getLogicalRows c
    · have hi := hfirst hlast
      obtain ⟨hn, hzero, -⟩ := hlt (by omega)
      exact eq_of_mod_eq hj hn hindex (not_lt.1 hright) ((hzero hi).trans (by omega))
    · have hi := hdown (by omega)
      obtain ⟨hn, -, hpos⟩ := hlt (by omega)
      exact eq_of_mod_eq hj hn hindex (not_lt.1 hright) ((hpos (by omega)).trans (by omega))

end

end ArrayPager

end Arsh.Pager
