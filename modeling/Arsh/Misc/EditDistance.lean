import Arsh.Lib.Levenshtein
import Mathlib.Data.List.Infix
import Mathlib.Logic.Function.Basic
import Mathlib.Algebra.Group.Nat.Defs

/-!
# Edit distance

`EditDistance` of `misc/edit_distance.hpp`: the table of the Levenshtein distance in one row, which
stays from call to call. An `unsigned int` is a number below `uintSize`, and sums wrap around. An
access behind the row, which the assertion of `FlexBuffer` forbids, gives `none`.

The row holds the table with wrapped sums (`call_eq`). It is the table of the distance if and only
if no sum wraps around (`call_eq_lev_iff`).
-/

namespace Arsh

def EditDistance.uintSize : Nat := 2 ^ 32

def EditDistance.toUInt (n : Nat) : Nat := n % uintSize

structure EditDistance where
  row : List Nat
  substitutionCost : Nat
  cost_lt : substitutionCost < EditDistance.uintSize

namespace EditDistance

/-! ## The row -/

def resize (row : List Nat) (afterSize : Nat) : List Nat :=
  row.take afterSize ++ List.replicate (afterSize - row.length) 0

def read (row : List Nat) (index : Nat) : Option Nat := row[toUInt index]?

def write (row : List Nat) (index value : Nat) : Option (List Nat) :=
  if toUInt index < row.length then some (row.set (toUInt index) value) else none

/-! ## The loops -/

/-- The loop of `n` rounds that fills the row from `i` on. -/
def fill : Nat → Nat → List Nat → Option (List Nat)
  | 0, _, row => some row
  | n + 1, i, row => (write row i (toUInt i)).bind (fill n (i + 1))

/-- The loop over the target from the column `j` on; `cur` is the value that is replaced last. -/
def columns (cost a : Nat) : List Nat → Nat → Nat → List Nat → Option (List Nat)
  | [], _, _, row => some row
  | b :: target, j, cur, row =>
    (read row (j + 1)).bind fun prev =>
      (read row j).bind fun left =>
        let deletion := toUInt (prev + 1)
        let insertion := toUInt (left + 1)
        let substitution := toUInt (cur + if a = b then 0 else cost)
        (write row (j + 1) (min deletion (min insertion substitution))).bind
          (columns cost a target (j + 1) prev)

/-- The loop over the source from the row `i` on. -/
def rows (cost : Nat) (target : List Nat) : List Nat → Nat → List Nat → Option (List Nat)
  | [], _, row => some row
  | a :: src, i, row =>
    (write row 0 (toUInt (i + 1))).bind fun row =>
      (columns cost a target 0 (toUInt i) row).bind (rows cost target src (i + 1))

/-- The operator `()`: the distance, and the object with the row that it leaves. -/
def call (d : EditDistance) (src target : List Nat) : Option (Nat × EditDistance) :=
  (fill (target.length + 1) 0 (resize d.row (toUInt (target.length + 1)))).bind fun row =>
    (rows d.substitutionCost target src 0 row).bind fun row =>
      (read row target.length).map fun result => (result, { d with row })

/-! ## Rows as functions -/

section
variable {a b c i j k m n v : Nat} {f g old new : Nat → Nat} {row l xs ys src target : List Nat}

/-- The row of the columns up to `n`. -/
def rowOf (n : Nat) (f : Nat → Nat) : List Nat := (List.range (n + 1)).map f

theorem toUInt_of_lt (h : n < uintSize) : toUInt n = n := Nat.mod_eq_of_lt h

theorem read_rowOf (hn : n + 1 < uintSize) (hk : k ≤ n) : read (rowOf n f) k = some (f k) := by
  rw [read, toUInt_of_lt (by omega), rowOf, List.getElem?_map, List.getElem?_range (by omega)]
  rfl

theorem write_rowOf (hn : n + 1 < uintSize) (hk : k ≤ n) :
    write (rowOf n f) k v = some (rowOf n (Function.update f k v)) := by
  have hlen : (rowOf n f).length = n + 1 := by rw [rowOf, List.length_map, List.length_range]
  rw [write, toUInt_of_lt (by omega), if_pos (by omega), Option.some_inj]
  refine List.ext_getElem (by simp [rowOf]) fun i hi hi' => ?_
  rw [List.getElem_set]
  simp only [rowOf, List.getElem_map, List.getElem_range]
  split
  · next h => rw [← h, Function.update_self]
  · next h => rw [Function.update_of_ne (Ne.symm h)]

theorem length_resize (row : List Nat) (n : Nat) : (resize row n).length = n := by
  rw [resize, List.length_append, List.length_take, List.length_replicate]
  omega

theorem fill_spec (hn : n + 1 < uintSize) (hm : i + m = n + 1) (hlen : row.length = n + 1)
    (hrow : ∀ k < i, row[k]? = some k) : fill m i row = some (rowOf n id) := by
  induction m generalizing i row with
  | zero =>
    rw [fill, Option.some_inj]
    refine List.ext_getElem? fun k => ?_
    rcases Nat.lt_or_ge k (n + 1) with hk | hk
    · rw [hrow k (by omega), rowOf, List.map_id, List.getElem?_range hk]
    · rw [List.getElem?_eq_none (by omega), List.getElem?_eq_none]
      simpa [rowOf] using hk
  | succ m ih =>
    rw [fill, write, toUInt_of_lt (by omega), if_pos (by omega)]
    refine ih (by omega) (by rw [List.length_set, hlen]) fun k hk => ?_
    rcases Nat.lt_or_eq_of_le (Nat.le_of_lt_succ hk) with hlt | rfl
    · rw [List.getElem?_set_ne (by omega), hrow k hlt]
    · rw [List.getElem?_set_self (by omega)]

/-- A row that is too short for its index. -/
theorem fill_none (hlen : row.length < uintSize) (hi : i ≤ row.length) (hm : row.length < i + m) :
    fill m i row = none := by
  induction m generalizing i row with
  | zero => omega
  | succ m ih =>
    rw [fill, write, toUInt_of_lt (by omega)]
    split
    · exact ih (by rwa [List.length_set]) (by rw [List.length_set]; omega)
        (by rw [List.length_set]; omega)
    · rfl

/-! ## The table with wrapped sums -/

/-- The table that the loops compute, on the reversed strings. -/
def wrapped (c : Nat) : List Nat → List Nat → Nat
  | [], ys => toUInt ys.length
  | x :: xs, [] => toUInt (x :: xs).length
  | x :: xs, y :: ys =>
    min (toUInt (wrapped c xs (y :: ys) + 1))
      (min (toUInt (wrapped c (x :: xs) ys + 1))
        (toUInt (wrapped c xs ys + if x = y then 0 else c)))
termination_by xs ys => xs.length + ys.length

theorem wrapped_nil_left : wrapped c [] ys = toUInt ys.length := by rw [wrapped]

theorem wrapped_nil_right : wrapped c xs [] = toUInt xs.length := by cases xs <;> rw [wrapped]

theorem wrapped_cons_cons : wrapped c (a :: xs) (b :: ys) =
    min (toUInt (wrapped c xs (b :: ys) + 1))
      (min (toUInt (wrapped c (a :: xs) ys + 1))
        (toUInt (wrapped c xs ys + if a = b then 0 else c))) := by rw [wrapped]

theorem wrapped_lt : wrapped c xs ys < uintSize := by
  have hpos : 0 < uintSize := by decide
  cases xs with
  | nil => exact wrapped_nil_left ▸ Nat.mod_lt _ hpos
  | cons x xs =>
    cases ys with
    | nil => exact wrapped_nil_right ▸ Nat.mod_lt _ hpos
    | cons y ys =>
      rw [wrapped_cons_cons]
      exact Nat.lt_of_le_of_lt (Nat.min_le_left ..) (Nat.mod_lt _ hpos)

/-- The row behind the loop over the target: the columns up to `j` are new. -/
theorem columns_spec (hn : n + 1 < uintSize) (hl : j + l.length = n)
    (hnew : ∀ k b, l[k]? = some b → new (j + k + 1) = min (toUInt (old (j + k + 1) + 1))
      (min (toUInt (new (j + k) + 1)) (toUInt (old (j + k) + if a = b then 0 else c)))) :
    columns c a l j (old j) (rowOf n fun k => if k ≤ j then new k else old k) =
      some (rowOf n new) := by
  induction l generalizing j with
  | nil =>
    obtain rfl : j = n := hl
    rw [columns, rowOf, rowOf]
    refine congrArg some (List.map_congr_left fun k hk => if_pos ?_)
    rw [List.mem_range] at hk
    omega
  | cons b l ih =>
    rw [List.length_cons] at hl
    have hcell : new (j + 1) = _ := hnew 0 b rfl
    simp only [Nat.add_zero] at hcell
    rw [columns, read_rowOf hn (by omega), read_rowOf hn (by omega), if_neg (by omega),
      if_pos (Nat.le_refl j)]
    simp only [Option.bind_some]
    rw [write_rowOf hn (by omega), ← hcell, Option.bind_some]
    have hupdate : Function.update (fun k => if k ≤ j then new k else old k) (j + 1)
        (new (j + 1)) = fun k => if k ≤ j + 1 then new k else old k := by
      funext k
      rcases Nat.lt_trichotomy k (j + 1) with hk | rfl | hk
      · rw [Function.update_of_ne (by omega), if_pos (by omega), if_pos (by omega)]
      · rw [Function.update_self, if_pos (Nat.le_refl _)]
      · rw [Function.update_of_ne (by omega), if_neg (by omega), if_neg (by omega)]
    refine (congrArg (fun f => columns c a l (j + 1) (old (j + 1)) (rowOf n f)) hupdate).trans ?_
    refine ih (by omega) fun k b' hk => ?_
    have hk' := hnew (k + 1) b' hk
    rw [Nat.add_right_comm j 1 k]
    exact hk'

theorem rows_spec (hn : target.length + 1 < uintSize) :
    rows c target src xs.length
        (rowOf target.length fun k => wrapped c xs (target.take k).reverse) =
      some (rowOf target.length fun k =>
        wrapped c (src.reverse ++ xs) (target.take k).reverse) := by
  induction src generalizing xs with
  | nil => rfl
  | cons a src ih =>
    rw [rows, write_rowOf hn (Nat.zero_le _), Option.bind_some]
    have hupdate : Function.update (fun k => wrapped c xs (target.take k).reverse) 0
        (toUInt (xs.length + 1)) = fun k =>
          if k ≤ 0 then wrapped c (a :: xs) (target.take k).reverse
          else wrapped c xs (target.take k).reverse := by
      funext k
      cases k with
      | zero =>
        rw [Function.update_self, if_pos (Nat.le_refl 0)]
        exact (@wrapped_nil_right c (a :: xs)).symm
      | succ k => rw [Function.update_of_ne (by omega), if_neg (by omega)]
    have hcur : toUInt xs.length = wrapped c xs (target.take 0).reverse := wrapped_nil_right.symm
    have hcolumns := @columns_spec a c 0 target.length
      (fun k => wrapped c xs (target.take k).reverse)
      (fun k => wrapped c (a :: xs) (target.take k).reverse) target hn (Nat.zero_add _)
      fun k b hk => by
        obtain ⟨hlt, rfl⟩ := List.getElem?_eq_some_iff.1 hk
        rw [Nat.zero_add, List.take_succ_eq_append_getElem hlt, List.reverse_append]
        exact wrapped_cons_cons
    rw [hupdate, hcur, hcolumns, Option.bind_some, List.reverse_cons, List.append_assoc]
    exact @ih (a :: xs)

/-- What a call computes. -/
theorem call_eq (d : EditDistance) (h : target.length + 1 < uintSize) : d.call src target =
    some (wrapped d.substitutionCost src.reverse target.reverse,
      { d with row := rowOf target.length fun k =>
          wrapped d.substitutionCost src.reverse (target.take k).reverse }) := by
  have hfill := fill_spec h (Nat.zero_add _) (length_resize d.row (target.length + 1)) nofun
  have hid : rowOf target.length id =
      rowOf target.length fun k => wrapped d.substitutionCost [] (target.take k).reverse := by
    apply List.map_congr_left
    intro k hk
    rw [List.mem_range] at hk
    rw [wrapped_nil_left, List.length_reverse, List.length_take,
      Nat.min_eq_left (show k ≤ target.length by omega), toUInt_of_lt (by omega)]
    rfl
  have hrows := @rows_spec d.substitutionCost [] src target h
  rw [List.append_nil, List.length_nil] at hrows
  rw [call, toUInt_of_lt h, hfill, Option.bind_some, hid, hrows, Option.bind_some,
    read_rowOf h (Nat.le_refl _), List.take_length]
  rfl

theorem call_none (d : EditDistance) (h : uintSize ≤ target.length + 1) :
    d.call src target = none := by
  have hlt : toUInt (target.length + 1) < uintSize := Nat.mod_lt _ (by decide)
  rw [call, fill_none (by rwa [length_resize]) (Nat.zero_le _) (by rw [length_resize]; omega)]
  rfl

/-! ## No sum wraps around -/

/-- The strings are short enough for the row, and every sum of the definition of the distance on
their prefixes is an `unsigned int`. -/
structure Fits (c : Nat) (src target : List Nat) : Prop where
  src_lt : src.length < uintSize
  target_lt : target.length + 1 < uintSize
  sums : ∀ s a t b, s ++ [a] <+: src → t ++ [b] <+: target →
    lev c s (t ++ [b]) + 1 < uintSize ∧ lev c (s ++ [a]) t + 1 < uintSize ∧
      (a ≠ b → lev c s t + c < uintSize)

theorem wrapped_concat {s t : List Nat} :
    wrapped c (s ++ [a]).reverse (t ++ [b]).reverse =
      min (toUInt (wrapped c s.reverse (t ++ [b]).reverse + 1))
        (min (toUInt (wrapped c (s ++ [a]).reverse t.reverse + 1))
          (toUInt (wrapped c s.reverse t.reverse + if a = b then 0 else c))) := by
  simp only [List.reverse_append, List.reverse_cons, List.reverse_nil, List.nil_append,
    List.cons_append]
  exact wrapped_cons_cons

theorem Fits.mono {s t : List Nat} (h : Fits c src target) (hs : s <+: src)
    (ht : t <+: target) : Fits c s t := by
  refine ⟨Nat.lt_of_le_of_lt hs.length_le h.src_lt, ?_, fun s' a t' b hs' ht' =>
    h.sums s' a t' b (hs'.trans hs) (ht'.trans ht)⟩
  have hle := ht.length_le
  have hlt := h.target_lt
  omega

/-- Where no sum wraps around, the table is that of the distance. -/
theorem Fits.wrapped_eq {s t : List Nat} (h : Fits c s t) :
    wrapped c s.reverse t.reverse = lev c s t := by
  induction s using List.reverseRecOn generalizing t with
  | nil =>
    have hlt := h.target_lt
    rw [List.reverse_nil, wrapped_nil_left, List.length_reverse, lev_nil_left,
      toUInt_of_lt (by omega)]
  | append_singleton s a ihs =>
    induction t using List.reverseRecOn with
    | nil =>
      rw [List.reverse_nil, wrapped_nil_right, List.length_reverse, lev_nil_right,
        toUInt_of_lt h.src_lt]
    | append_singleton t b iht =>
      obtain ⟨hup, hleft, hdiag⟩ := h.sums s a t b (List.prefix_refl _) (List.prefix_refl _)
      have hs : s <+: s ++ [a] := List.prefix_append ..
      have ht : t <+: t ++ [b] := List.prefix_append ..
      rw [wrapped_concat, lev_concat, ihs (h.mono hs (List.prefix_refl _)),
        iht (h.mono (List.prefix_refl _) ht), ihs (h.mono hs ht), toUInt_of_lt hup,
        toUInt_of_lt hleft]
      split
      · rw [toUInt_of_lt (by have := @lev_le_concat_right _ _ c b s t; omega)]
      · next hne => rw [toUInt_of_lt (hdiag hne)]

/-- A sum that wraps around is too small for a distance. -/
theorem sums_of_wrapped {s t : List Nat} (hc : c < uintSize)
    (h : ∀ s' t', s' <+: s ++ [a] → t' <+: t ++ [b] →
      wrapped c s'.reverse t'.reverse = lev c s' t') :
    lev c s (t ++ [b]) + 1 < uintSize ∧ lev c (s ++ [a]) t + 1 < uintSize ∧
      (a ≠ b → lev c s t + c < uintSize) := by
  have hs : s <+: s ++ [a] := List.prefix_append ..
  have ht : t <+: t ++ [b] := List.prefix_append ..
  have hup := h s (t ++ [b]) hs (List.prefix_refl _)
  have hleft := h (s ++ [a]) t (List.prefix_refl _) ht
  have hdiag := h s t hs ht
  have hcell := h (s ++ [a]) (t ++ [b]) (List.prefix_refl _) (List.prefix_refl _)
  rw [wrapped_concat, hup, hleft, hdiag] at hcell
  have hup' : lev c s (t ++ [b]) < uintSize := hup ▸ wrapped_lt
  have hleft' : lev c (s ++ [a]) t < uintSize := hleft ▸ wrapped_lt
  have hdiag' : lev c s t < uintSize := hdiag ▸ wrapped_lt
  have hge := @lev_le_concat_left _ _ c a s (t ++ [b])
  have hge' := @lev_le_concat_right _ _ c b (s ++ [a]) t
  have hge'' := @lev_le_concat_concat _ _ c a b s t
  have hsize : uintSize = 4294967296 := rfl
  simp only [toUInt, hsize] at *
  refine ⟨by omega, by omega, fun hne => ?_⟩
  rw [if_neg hne] at hcell
  omega

/-- The distances of the prefixes are right if and only if no sum wraps around. -/
theorem wrapped_eq_iff (hc : c < uintSize) (ht : target.length + 1 < uintSize) :
    (∀ s t, s <+: src → t <+: target → wrapped c s.reverse t.reverse = lev c s t) ↔
      Fits c src target := by
  constructor
  · intro h
    refine ⟨?_, ht, fun s a t b hs ht => sums_of_wrapped hc fun s' t' hs' ht' =>
      h s' t' (hs'.trans hs) (ht'.trans ht)⟩
    have hsrc := h src [] (List.prefix_refl _) List.nil_prefix
    rw [lev_nil_right] at hsrc
    exact hsrc ▸ wrapped_lt
  · intro h s t hs ht
    exact (h.mono hs ht).wrapped_eq

/-- The row that is left from the calls before does not count, and a call gives the distance, for
the strings and their prefixes, if and only if no sum wraps around. -/
theorem call_eq_lev_iff (d : EditDistance) (src target : List Nat) :
    (∀ row, { d with row }.call src target = d.call src target) ∧
    ((∀ s t, s <+: src → t <+: target →
      (d.call s t).map Prod.fst = some (lev d.substitutionCost s t)) ↔
      Fits d.substitutionCost src target) := by
  have hcall : ∀ s t, t.length + 1 < uintSize → (d.call s t).map Prod.fst =
      some (wrapped d.substitutionCost s.reverse t.reverse) := fun s t h => by
    rw [call_eq d h]
    rfl
  constructor
  · intro row
    rcases Nat.lt_or_ge (target.length + 1) uintSize with h | h
    · rw [call_eq _ h, call_eq d h]
    · rw [call_none _ h, call_none d h]
  · constructor
    · intro h
      have ht : target.length + 1 < uintSize := by
        by_contra hge
        have hcall := h src target (List.prefix_refl _) (List.prefix_refl _)
        rw [call_none d (by omega)] at hcall
        cases hcall
      apply (wrapped_eq_iff d.cost_lt ht).1
      intro s t hs ht'
      have hle := ht'.length_le
      rw [← Option.some_inj, ← hcall s t (by omega), h s t hs ht']
    · intro h s t hs ht
      rw [hcall s t (h.mono hs ht).target_lt, (h.mono hs ht).wrapped_eq]

/-- With the greatest cost the second substitution costs nothing. -/
theorem call_ne_lev :
    ((⟨[], 2 ^ 32 - 1, by decide⟩ : EditDistance).call [97] [98, 99]).map Prod.fst ≠
      some (lev (2 ^ 32 - 1) [97] [98, 99]) := by
  have hlev : lev (2 ^ 32 - 1) [97] [98, 99] = 3 := by simp [lev_cons_cons]
  rw [hlev]
  decide

end

end EditDistance

end Arsh
