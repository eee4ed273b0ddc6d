import Arsh.Lib.Vec
import Mathlib.Data.Set.Basic

/-!
# Lists of ranges

A set of points as a list of inclusive ranges. The ranges of a `Separated` list ascend and do
not meet, so that a point is found by binary search; those of a `Compact` list of integers
have a gap between them besides, which bounds how many there are.
-/

namespace Arsh.Ranges

/-! ## Points -/

section
variable {α : Type*} [LinearOrder α] {rs ss : List (α × α)} {r : α × α} {c : α}

/-- The points in some range. -/
def points (rs : List (α × α)) : Set α := {c | ∃ r ∈ rs, r.1 ≤ c ∧ c ≤ r.2}

theorem mem_points : c ∈ points rs ↔ ∃ r ∈ rs, r.1 ≤ c ∧ c ≤ r.2 := Iff.rfl

@[simp] theorem points_nil : points ([] : List (α × α)) = ∅ := by
  ext c
  simp [mem_points]

@[simp] theorem mem_points_cons :
    c ∈ points (r :: rs) ↔ (r.1 ≤ c ∧ c ≤ r.2) ∨ c ∈ points rs := by
  simp [mem_points]

@[simp] theorem mem_points_append :
    c ∈ points (rs ++ ss) ↔ c ∈ points rs ∨ c ∈ points ss := by
  simp only [mem_points, List.mem_append, or_and_right, exists_or]

theorem points_perm (h : rs.Perm ss) : points rs = points ss := by
  ext c
  simp only [mem_points, h.mem_iff]

/-- Every range holds a point, and each ends before the next begins. -/
structure Separated (rs : List (α × α)) : Prop where
  le : ∀ r ∈ rs, r.1 ≤ r.2
  lt : rs.Pairwise fun r s => r.2 < s.1

end

/-! ## Binary search -/

section
variable {α β : Type*} [LinearOrder α] {first last : β → α} {xs : List β} {c : α}

/-- `std::binary_search` of a list of ranges for a point: the first range that does not end
before the point has it. -/
def binarySearch (first last : β → α) (xs : List β) (c : α) : Bool :=
  match xs[Vec.lowerBound last xs c]? with
  | some x => decide (first x ≤ c)
  | none => false

theorem binarySearch_eq_true :
    binarySearch first last xs c = true ↔
      ∃ x, xs[Vec.lowerBound last xs c]? = some x ∧ first x ≤ c := by
  unfold binarySearch
  cases xs[Vec.lowerBound last xs c]? with
  | none => simp
  | some x => simp

theorem Separated.binarySearch_iff (hs : Separated (xs.map fun x => (first x, last x))) :
    binarySearch first last xs c = true ↔ c ∈ points (xs.map fun x => (first x, last x)) := by
  rw [binarySearch_eq_true]
  simp only [mem_points, List.mem_map, exists_exists_and_eq_and]
  constructor
  · rintro ⟨x, hx, hc⟩
    exact ⟨x, List.mem_of_getElem? hx, hc, Vec.le_key_of_getElem? hx⟩
  · rintro ⟨x, hx, hfirst, hlast⟩
    have hdrop : x ∈ xs.drop (Vec.lowerBound last xs c) := by
      rw [← List.take_append_drop (Vec.lowerBound last xs c) xs, List.mem_append] at hx
      rcases hx with hx | hx
      · exact absurd (Vec.key_lt_of_mem_take hx) hlast.not_gt
      · exact hx
    cases hd : xs.drop (Vec.lowerBound last xs c) with
    | nil => rw [hd] at hdrop; cases hdrop
    | cons y ys =>
      have hget : xs[Vec.lowerBound last xs c]? = some y := by
        rw [← List.head?_drop, hd]
        rfl
      refine ⟨y, hget, ?_⟩
      rw [hd] at hdrop
      rcases List.mem_cons.1 hdrop with rfl | hmem
      · exact hfirst
      · -- the range found would end before the one that holds the point begins
        have hpair := (List.pairwise_map.1 hs.lt).sublist
          (List.drop_sublist (Vec.lowerBound last xs c) xs)
        rw [hd] at hpair
        have hlt := (List.pairwise_cons.1 hpair).1 x hmem
        exact absurd (Vec.le_key_of_getElem? hget) (hlt.trans_le hfirst).not_ge

end

/-! ## Gaps -/

section
variable {rs ss : List (Int × Int)} {r : Int × Int} {c lo hi : Int}

/-- Every range holds a point, and there is a point between two ranges that is in neither. -/
structure Compact (rs : List (Int × Int)) : Prop where
  le : ∀ r ∈ rs, r.1 ≤ r.2
  gap : rs.Pairwise fun r s => r.2 + 1 < s.1

theorem Compact.nil : Compact [] := ⟨by simp, .nil⟩

theorem compact_cons :
    Compact (r :: rs) ↔ r.1 ≤ r.2 ∧ (∀ s ∈ rs, r.2 + 1 < s.1) ∧ Compact rs := by
  constructor
  · rintro ⟨hle, hgap⟩
    rw [List.pairwise_cons] at hgap
    exact ⟨hle r List.mem_cons_self, hgap.1, fun s hs => hle s (List.mem_cons_of_mem r hs), hgap.2⟩
  · rintro ⟨hr, hrs, hle, hgap⟩
    exact ⟨List.forall_mem_cons.2 ⟨hr, hle⟩, List.pairwise_cons.2 ⟨hrs, hgap⟩⟩

theorem compact_append :
    Compact (rs ++ ss) ↔ Compact rs ∧ Compact ss ∧ ∀ r ∈ rs, ∀ s ∈ ss, r.2 + 1 < s.1 := by
  constructor
  · rintro ⟨hle, hgap⟩
    rw [List.pairwise_append] at hgap
    exact ⟨⟨fun r hr => hle r (List.mem_append_left ss hr), hgap.1⟩,
      ⟨fun s hs => hle s (List.mem_append_right rs hs), hgap.2.1⟩, hgap.2.2⟩
  · rintro ⟨⟨hle, hgap⟩, ⟨hle', hgap'⟩, hcross⟩
    refine ⟨?_, List.pairwise_append.2 ⟨hgap, hgap', hcross⟩⟩
    intro r hr
    rcases List.mem_append.1 hr with hr | hr
    · exact hle r hr
    · exact hle' r hr

theorem Compact.separated (h : Compact rs) : Separated rs :=
  ⟨h.le, h.gap.imp fun hgap => by omega⟩

/-- Ranges with gaps between them take two points each, the last one aside. -/
theorem Compact.length_le (h : Compact rs) (hb : ∀ r ∈ rs, lo ≤ r.1 ∧ r.2 ≤ hi)
    (hlo : lo ≤ hi + 1) : 2 * (rs.length : Int) ≤ hi - lo + 2 := by
  induction rs generalizing lo with
  | nil =>
    simp only [List.length_nil]
    omega
  | cons r rs ih =>
    obtain ⟨hr, hgap, hrs⟩ := compact_cons.1 h
    obtain ⟨hfirst, hlast⟩ := hb r List.mem_cons_self
    cases rs with
    | nil =>
      simp only [List.length_cons, List.length_nil]
      omega
    | cons s rs =>
      have hs := hgap s List.mem_cons_self
      have hsle := hrs.le s List.mem_cons_self
      have hshi := (hb s (List.mem_cons_of_mem r List.mem_cons_self)).2
      have hrest : ∀ t ∈ s :: rs, r.2 + 2 ≤ t.1 ∧ t.2 ≤ hi := by
        intro t ht
        have := hgap t ht
        exact ⟨by omega, (hb t (List.mem_cons_of_mem r ht)).2⟩
      have := ih hrs hrest (by omega)
      simp only [List.length_cons] at this ⊢
      omega

end

end Arsh.Ranges
