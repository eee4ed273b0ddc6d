import Arsh.Unicode.SetBuilder
import Mathlib.Data.Set.Image

/-!
# What the set builder denotes

`Denotes b S`: the ranges of `b` are ranges of code points, they are apart when `b` is not
dirty, and their points are `S`. Every operation of the builder is an operation on `S`, and the
set that is built contains the members of `S`.
-/

namespace Arsh.CodePointSetBuilder

open Ranges

variable {rs ss ts : List (Int × Int)} {r : Int × Int} {c first last cur : Int} {invert : Bool}

/-- The ranges hold code points, at least one each. -/
def Valid (rs : List (Int × Int)) : Prop := ∀ r ∈ rs, 0 ≤ r.1 ∧ r.1 ≤ r.2 ∧ r.2 ≤ 0x10FFFF

theorem Valid.append (hr : Valid rs) (hs : Valid ss) : Valid (rs ++ ss) := by
  intro r h
  rcases List.mem_append.1 h with h | h
  · exact hr r h
  · exact hs r h

/-- All code points. -/
def allCodePoints : Set Int := {c | 0 ≤ c ∧ c ≤ 0x10FFFF}

@[simp] theorem mem_allCodePoints : c ∈ allCodePoints ↔ 0 ≤ c ∧ c ≤ 0x10FFFF := Iff.rfl

theorem Valid.points_subset (h : Valid rs) : points rs ⊆ allCodePoints := by
  rintro c ⟨r, hr, hfirst, hlast⟩
  obtain ⟨h₀, -, h₁⟩ := h r hr
  exact ⟨h₀.trans hfirst, hlast.trans h₁⟩

/-! ## Sorting and merging -/

theorem points_mergeFrom (hs : ∀ s ∈ rs, r.1 ≤ s.1) (hrs : rs.Pairwise fun x y => x.1 ≤ y.1)
    (hr : r.1 ≤ r.2) (hle : ∀ s ∈ rs, s.1 ≤ s.2) :
    points (mergeFrom r rs) = points (r :: rs) := by
  induction rs generalizing r with
  | nil => rfl
  | cons s rest ih =>
    obtain ⟨hsrest, hrest⟩ := List.pairwise_cons.1 hrs
    obtain ⟨hrs₁, hrrest⟩ := List.forall_mem_cons.1 hs
    obtain ⟨hsle, hlerest⟩ := List.forall_mem_cons.1 hle
    unfold mergeFrom
    ext c
    split
    · next hmerge =>
      have hmax : r.1 ≤ max r.2 s.2 := hr.trans (le_max_left _ _)
      rw [ih (r := (r.1, max r.2 s.2)) hrrest hrest hmax hlerest]
      simp only [mem_points_cons, ← or_assoc]
      apply or_congr_left
      omega
    · rw [mem_points_cons, ih hsrest hrest hsle hlerest, mem_points_cons (r := r)]

theorem compact_mergeFrom (hs : ∀ s ∈ rs, r.1 ≤ s.1) (hrs : rs.Pairwise fun x y => x.1 ≤ y.1)
    (hr : r.1 ≤ r.2) (hle : ∀ s ∈ rs, s.1 ≤ s.2) :
    Compact (mergeFrom r rs) ∧ ∀ s ∈ mergeFrom r rs, r.1 ≤ s.1 := by
  induction rs generalizing r with
  | nil =>
    unfold mergeFrom
    simp [compact_cons, Compact.nil, hr]
  | cons s rest ih =>
    obtain ⟨hsrest, hrest⟩ := List.pairwise_cons.1 hrs
    obtain ⟨hrs₁, hrrest⟩ := List.forall_mem_cons.1 hs
    obtain ⟨hsle, hlerest⟩ := List.forall_mem_cons.1 hle
    unfold mergeFrom
    split
    · exact ih hrrest hrest (hr.trans (le_max_left _ _)) hlerest
    · next hgap =>
      obtain ⟨hcompact, hfirst⟩ := ih hsrest hrest hsle hlerest
      refine ⟨compact_cons.2 ⟨hr, ?_, hcompact⟩, ?_⟩
      · intro t ht
        have := hfirst t ht
        omega
      · rintro t (_ | ⟨_, ht⟩)
        · exact le_rfl
        · exact hrs₁.trans (hfirst t ht)

theorem pairwise_insertionSort_fst (rs : List (Int × Int)) :
    (rs.insertionSort Before).Pairwise fun x y => x.1 ≤ y.1 := by
  apply (List.pairwise_insertionSort Before rs).imp
  intro x y h
  unfold Before at h
  omega

theorem merge_spec (hrs : rs.Pairwise fun x y => x.1 ≤ y.1) (hle : ∀ s ∈ rs, s.1 ≤ s.2) :
    Compact (merge rs) ∧ points (merge rs) = points rs := by
  cases rs with
  | nil => exact ⟨Compact.nil, rfl⟩
  | cons r rest =>
    obtain ⟨hr, hrest⟩ := List.pairwise_cons.1 hrs
    obtain ⟨hrle, hlerest⟩ := List.forall_mem_cons.1 hle
    exact ⟨(compact_mergeFrom hr hrest hrle hlerest).1, points_mergeFrom hr hrest hrle hlerest⟩

theorem sortAndCompact_spec (hle : ∀ s ∈ rs, s.1 ≤ s.2) :
    Compact (sortAndCompact rs) ∧ points (sortAndCompact rs) = points rs := by
  unfold sortAndCompact
  split
  · next hlen =>
    match rs, hlen with
    | [], _ => exact ⟨Compact.nil, rfl⟩
    | [r], _ => exact ⟨compact_cons.2 ⟨hle r List.mem_cons_self, by simp, Compact.nil⟩, rfl⟩
  · have hperm := List.perm_insertionSort Before rs
    have := merge_spec (pairwise_insertionSort_fst rs) fun s hs => hle s (hperm.mem_iff.1 hs)
    rwa [points_perm hperm] at this

/-! ## Denotation -/

/-- The builder `b` stands for the set `S`. -/
structure Denotes (b : CodePointSetBuilder) (S : Set Int) : Prop where
  valid : Valid b.codePointRanges
  compact : b.dirty = false → Compact b.codePointRanges
  points : points b.codePointRanges = S

variable {b other : CodePointSetBuilder} {S T : Set Int}

theorem Denotes.subset (h : b.Denotes S) : S ⊆ allCodePoints := h.points ▸ h.valid.points_subset

theorem denotes_empty : Denotes {} ∅ := ⟨by simp [Valid], fun _ => Compact.nil, points_nil⟩

theorem Denotes.of_eq (h : b.Denotes S) (hS : S = T) : b.Denotes T := hS ▸ h

/-- Points between code points are code points, so it is enough to know the points. -/
theorem Compact.valid (hc : Compact rs) (h : points rs ⊆ allCodePoints) : Valid rs := by
  intro r hr
  have hle := hc.le r hr
  have h₁ : r.1 ∈ allCodePoints := h ⟨r, hr, le_rfl, hle⟩
  have h₂ : r.2 ∈ allCodePoints := h ⟨r, hr, hle, le_rfl⟩
  exact ⟨h₁.1, hle, h₂.2⟩

theorem Denotes.of_compact (hc : Compact b.codePointRanges)
    (hS : Ranges.points b.codePointRanges = S) (hu : S ⊆ allCodePoints) : b.Denotes S :=
  ⟨Compact.valid hc (hS ▸ hu), fun _ => hc, hS⟩

theorem Denotes.tryToSortAndCompact (h : b.Denotes S) :
    b.tryToSortAndCompact.Denotes S ∧ Compact b.tryToSortAndCompact.codePointRanges := by
  unfold CodePointSetBuilder.tryToSortAndCompact
  split
  · obtain ⟨hcompact, hpoints⟩ := sortAndCompact_spec fun s hs => (h.valid s hs).2.1
    exact ⟨.of_compact hcompact (hpoints.trans h.points) h.subset, hcompact⟩
  · next hdirty => exact ⟨h, h.compact (by simpa using hdirty)⟩

/-! ## Union -/

/-- Ranges may be appended in any order once the builder is dirty. -/
theorem Denotes.append (h : b.Denotes S) (hrs : Valid rs) :
    Denotes { dirty := true, codePointRanges := b.codePointRanges ++ rs } (S ∪ Ranges.points rs) where
  valid := h.valid.append hrs
  compact := by simp
  points := by
    ext c
    rw [mem_points_append, h.points]
    rfl

/-- The ranges of a set are ranges of code points. -/
theorem valid_ranges {ref : CodePointSet} (href : ref.Wf) : Valid ref.ranges := by
  unfold CodePointSet.ranges
  refine .append (.append ?_ ?_) ?_
  · intro r hr
    have hle := href.bmp.le r hr
    obtain ⟨v, -, rfl⟩ := List.mem_map.1 hr
    have := lastBMP_le v
    exact ⟨firstBMP_nonneg v, hle, by dsimp only; omega⟩
  · intro r hr
    have hle := href.packed.le r hr
    obtain ⟨v, hv, rfl⟩ := List.mem_map.1 hr
    obtain ⟨hfirst, hlast⟩ := href.packed_bound v hv
    exact ⟨by dsimp only; omega, hle, hlast⟩
  · intro r hr
    have hle := href.nonBMP.le r hr
    obtain ⟨v, hv, rfl⟩ := List.mem_map.1 hr
    obtain ⟨hfirst, hlast⟩ := href.nonBMP_bound v hv
    exact ⟨by dsimp only; omega, hle, hlast⟩

theorem Denotes.addRef {ref : CodePointSet} (h : b.Denotes S) (href : ref.Wf) :
    (b.addRef ref).Denotes (S ∪ {c | ref.contains c = true}) := by
  refine (h.append (valid_ranges href)).of_eq (congrArg (S ∪ ·) ?_)
  ext c
  exact href.contains_iff.symm

theorem denotes_addRef {ref : CodePointSet} (href : ref.Wf) :
    (CodePointSetBuilder.addRef {} ref).Denotes {c | ref.contains c = true} :=
  (denotes_empty.addRef href).of_eq (Set.empty_union _)

theorem Denotes.clear : b.clear.Denotes ∅ := ⟨by simp [Valid, CodePointSetBuilder.clear],
  fun _ => Compact.nil, points_nil⟩

theorem Denotes.addBuilder (h : b.Denotes S) (ho : other.Denotes T) :
    (b.addBuilder other).Denotes (S ∪ T) :=
  ho.points ▸ h.append ho.valid

/-! ## Difference and intersection -/

theorem Compact.lt_of_mem (h : Compact (r :: rs)) (hc : c ∈ points rs) : r.2 + 1 < c := by
  obtain ⟨s, hs, hfirst, -⟩ := hc
  have := (compact_cons.1 h).2.1 s hs
  omega

section
variable {t : Int × Int}

/-- The part in front of `t`, or the part in `t`. -/
theorem mem_points_overlap (hlast : t.1 ≤ last) (ht : t.1 ≤ t.2) :
    c ∈ points (overlap invert last cur t) ↔
      cur ≤ c ∧ c ≤ min last t.2 ∧ (t.1 ≤ c ↔ invert = true) := by
  unfold overlap
  cases invert with
  | false =>
    simp only [Bool.false_eq_true, if_false, iff_false]
    split <;> simp only [mem_points_cons, points_nil, Set.mem_empty_iff_false] <;> grind
  | true =>
    simp only [if_true, iff_true, mem_points_cons, points_nil, Set.mem_empty_iff_false]
    grind

theorem bound_of_mem_overlap (hcur : cur ≤ t.2) (hlast : t.1 ≤ last) (hle : cur ≤ last)
    (ht : t.1 ≤ t.2) (hr : r ∈ overlap invert last cur t) :
    cur ≤ r.1 ∧ r.1 ≤ r.2 ∧ r.2 ≤ last ∧ r.2 ≤ t.2 ∧
      if invert = true then t.1 ≤ r.1 else r.2 < t.1 := by
  unfold overlap at hr
  cases invert with
  | false =>
    simp only [Bool.false_eq_true, if_false] at hr ⊢
    split at hr
    · next hlt =>
      rw [List.mem_singleton.1 hr]
      exact ⟨le_rfl, by omega, by omega, by omega, by omega⟩
    · cases hr
  | true =>
    simp only [if_true] at hr ⊢
    rw [List.mem_singleton.1 hr]
    exact ⟨le_max_left _ _, by omega, min_le_left _ _, min_le_right _ _, le_max_right _ _⟩

theorem compact_overlap (hcur : cur ≤ t.2) (hlast : t.1 ≤ last) (hle : cur ≤ last)
    (ht : t.1 ≤ t.2) : Compact (overlap invert last cur t) where
  le r hr := (bound_of_mem_overlap hcur hlast hle ht hr).2.1
  gap := by
    unfold overlap
    dsimp only
    split
    · exact List.pairwise_singleton _ _
    · split
      · exact List.pairwise_singleton _ _
      · exact List.Pairwise.nil

end

/-- The targets that are left hold what the targets hold behind the range. -/
theorem removeRange_rest (invert : Bool) (last cur : Int) (hts : Compact ts) :
    Compact (removeRange invert last cur ts).2 ∧
      ∀ c, last < c → (c ∈ points (removeRange invert last cur ts).2 ↔ c ∈ points ts) := by
  induction ts generalizing cur with
  | nil => exact ⟨Compact.nil, fun _ _ => Iff.rfl⟩
  | cons t ts ih =>
    have hrest := (compact_cons.1 hts).2.2
    have hskip : t.2 ≤ last → ∀ c, last < c → (c ∈ points ts ↔ c ∈ points (t :: ts)) := by
      intro hle c hc
      rw [mem_points_cons]
      refine (or_iff_right ?_).symm
      omega
    unfold removeRange
    split
    · exact ⟨hts, fun _ _ => Iff.rfl⟩
    · next hcur =>
      split
      · next hbefore =>
        obtain ⟨hcompact, hmem⟩ := ih cur hrest
        exact ⟨hcompact, fun c hc => (hmem c hc).trans (hskip (by omega) c hc)⟩
      split
      · exact ⟨hts, fun _ _ => Iff.rfl⟩
      split
      · next hle =>
        obtain ⟨hcompact, hmem⟩ := ih (min last t.2 + 1) hrest
        exact ⟨hcompact, fun c hc => (hmem c hc).trans (hskip hle c hc)⟩
      · exact ⟨hts, fun _ _ => Iff.rfl⟩

/-- The new ranges hold the points of the range that are in the targets, or not in them. -/
theorem mem_points_removeRange (hts : Compact ts) :
    c ∈ points (removeRange invert last cur ts).1 ↔
      cur ≤ c ∧ c ≤ last ∧ (c ∈ points ts ↔ invert = true) := by
  induction ts generalizing cur with
  | nil =>
    unfold removeRange
    cases invert with
    | false =>
      split
      · simp
      · next h => simp at h ⊢; omega
    | true => simp
  | cons t ts ih =>
    obtain ⟨ht, -, hrest⟩ := compact_cons.1 hts
    have hlt : c ∈ points ts → t.2 + 1 < c := Compact.lt_of_mem hts
    unfold removeRange
    rw [mem_points_cons]
    split
    · refine iff_of_false (by simp) ?_
      rintro ⟨hfirst, hlast, -⟩
      omega
    split
    · rw [ih hrest]
      grind
    split
    · cases invert with
      | false =>
        simp only [Bool.false_eq_true, if_false, iff_false, mem_points_cons, points_nil,
          Set.mem_empty_iff_false]
        grind
      | true =>
        simp only [if_true, iff_true, points_nil, Set.mem_empty_iff_false]
        grind
    split
    · rw [mem_points_append, ih hrest, mem_points_overlap (by omega) ht]
      grind
    · rw [mem_points_overlap (by omega) ht]
      grind

/-- The new ranges have gaps between them and lie in the range; in an intersection each begins
in a target. -/
theorem compact_removeRange (invert : Bool) (last cur : Int) (hts : Compact ts) :
    Compact (removeRange invert last cur ts).1 ∧
      ∀ p ∈ (removeRange invert last cur ts).1, cur ≤ p.1 ∧ p.2 ≤ last ∧
        (invert = true → ∃ t ∈ ts, t.1 ≤ p.1) := by
  induction ts generalizing cur with
  | nil =>
    unfold removeRange
    split
    · next h =>
      obtain ⟨hle, hinvert⟩ := h
      rw [Bool.not_eq_true'] at hinvert
      exact ⟨compact_cons.2 ⟨hle, by simp, Compact.nil⟩, by simp [hinvert]⟩
    · exact ⟨Compact.nil, by simp⟩
  | cons t ts ih =>
    obtain ⟨ht, hgap, hrest⟩ := compact_cons.1 hts
    unfold removeRange
    split
    · exact ⟨Compact.nil, by simp⟩
    next hcur =>
    split
    · obtain ⟨hcompact, hbound⟩ := ih cur hrest
      refine ⟨hcompact, fun p hp => ?_⟩
      obtain ⟨hfirst, hlast, htarget⟩ := hbound p hp
      refine ⟨hfirst, hlast, fun hinvert => ?_⟩
      obtain ⟨s, hs, hle⟩ := htarget hinvert
      exact ⟨s, List.mem_cons_of_mem t hs, hle⟩
    split
    · split
      · exact ⟨Compact.nil, by simp⟩
      · next hinvert => exact ⟨compact_cons.2 ⟨not_lt.1 hcur, by simp, Compact.nil⟩, by simp [hinvert]⟩
    next hbefore hafter =>
    have hcompact : Compact (overlap invert last cur t) :=
      compact_overlap (by omega) (by omega) (by omega) ht
    have hoverlap : ∀ p ∈ overlap invert last cur t, cur ≤ p.1 ∧ p.1 ≤ p.2 ∧ p.2 ≤ last ∧
        p.2 ≤ t.2 ∧ if invert = true then t.1 ≤ p.1 else p.2 < t.1 := fun p hp =>
      bound_of_mem_overlap (by omega) (by omega) (by omega) ht hp
    have htarget : ∀ p ∈ overlap invert last cur t, cur ≤ p.1 ∧ p.2 ≤ last ∧
        (invert = true → ∃ s ∈ t :: ts, s.1 ≤ p.1) := by
      intro p hp
      obtain ⟨hfirst, -, hlast, -, hpart⟩ := hoverlap p hp
      refine ⟨hfirst, hlast, fun hinvert => ⟨t, List.mem_cons_self, ?_⟩⟩
      rwa [if_pos hinvert] at hpart
    split
    · next hle =>
      -- the targets behind `t` begin past a gap, and so does what is left of the range
      obtain ⟨hrestcompact, hbound⟩ := ih (min last t.2 + 1) hrest
      refine ⟨compact_append.2 ⟨hcompact, hrestcompact, ?_⟩, ?_⟩
      · intro p hp q hq
        obtain ⟨-, -, -, hpt, hpart⟩ := hoverlap p hp
        obtain ⟨hq₁, -, hq₂⟩ := hbound q hq
        cases invert with
        | false =>
          rw [if_neg Bool.false_ne_true] at hpart
          omega
        | true =>
          obtain ⟨s, hs, hsq⟩ := hq₂ rfl
          have := hgap s hs
          omega
      · intro p hp
        rcases List.mem_append.1 hp with hp | hp
        · exact htarget p hp
        · obtain ⟨hfirst, hlast, hs⟩ := hbound p hp
          refine ⟨by omega, hlast, fun hinvert => ?_⟩
          obtain ⟨s, hs, hle⟩ := hs hinvert
          exact ⟨s, List.mem_cons_of_mem t hs, hle⟩
    · exact ⟨hcompact, htarget⟩

theorem mem_points_removeRanges (hrs : Compact rs) (hts : Compact ts) :
    c ∈ points (removeRanges invert rs ts) ↔
      c ∈ points rs ∧ (c ∈ points ts ↔ invert = true) := by
  induction rs generalizing ts with
  | nil => simp [removeRanges]
  | cons r rs ih =>
    obtain ⟨hrest, hmem⟩ := removeRange_rest invert r.2 r.1 hts
    unfold removeRanges
    rw [mem_points_append, mem_points_removeRange hts, ih (compact_cons.1 hrs).2.2 hrest,
      mem_points_cons, ← and_assoc, or_and_right]
    -- the targets that were passed over lie in front of the ranges behind `r`
    refine or_congr_right (and_congr_right fun hc => ?_)
    have := Compact.lt_of_mem hrs hc
    rw [hmem c (by omega)]

theorem compact_removeRanges (hrs : Compact rs) (hts : Compact ts) :
    Compact (removeRanges invert rs ts) ∧
      ∀ p ∈ removeRanges invert rs ts, ∃ r ∈ rs, r.1 ≤ p.1 := by
  induction rs generalizing ts with
  | nil => exact ⟨Compact.nil, by simp [removeRanges]⟩
  | cons r rs ih =>
    obtain ⟨hr, hgap, hrest⟩ := compact_cons.1 hrs
    obtain ⟨hcompact, hbound⟩ :=
      compact_removeRange invert r.2 r.1 hts
    obtain ⟨htail, htailbound⟩ :=
      ih hrest (removeRange_rest invert r.2 r.1 hts).1
    unfold removeRanges
    refine ⟨compact_append.2 ⟨hcompact, htail, ?_⟩, ?_⟩
    · intro p hp q hq
      have := (hbound p hp).2.1
      obtain ⟨s, hs, hle⟩ := htailbound q hq
      have := hgap s hs
      omega
    · intro p hp
      rcases List.mem_append.1 hp with hp | hp
      · exact ⟨r, List.mem_cons_self, (hbound p hp).1⟩
      · obtain ⟨s, hs, hle⟩ := htailbound p hp
        exact ⟨s, List.mem_cons_of_mem r hs, hle⟩

theorem Denotes.remove (h : b.Denotes S) (invert : Bool) (ho : other.Denotes T) :
    (b.remove other invert).Denotes {c | c ∈ S ∧ (c ∈ T ↔ invert = true)} := by
  obtain ⟨hb, hbc⟩ := h.tryToSortAndCompact
  obtain ⟨ho, hoc⟩ := ho.tryToSortAndCompact
  refine .of_compact (compact_removeRanges hbc hoc).1 ?_ fun c hc => h.subset hc.1
  ext c
  unfold CodePointSetBuilder.remove
  rw [mem_points_removeRanges hbc hoc, hb.points, ho.points]
  rfl

theorem Denotes.sub (h : b.Denotes S) (ho : other.Denotes T) : (b.sub other).Denotes (S \ T) := by
  apply (h.remove false ho).of_eq
  ext c
  simp

theorem Denotes.intersect (h : b.Denotes S) (ho : other.Denotes T) :
    (b.intersect other).Denotes (S ∩ T) := by
  apply (h.remove true ho).of_eq
  ext c
  simp

/-! ## Complement -/

theorem mem_points_gapsAfter (hrs : Compact rs) (hlow : ∀ r ∈ rs, last + 1 < r.1)
    (hlast : last ≤ 0x10FFFF) (hv : Valid rs) :
    c ∈ points (gapsAfter last rs) ↔ last < c ∧ c ≤ 0x10FFFF ∧ c ∉ points rs := by
  induction rs generalizing last with
  | nil =>
    unfold gapsAfter
    simp only [points_nil, Set.mem_empty_iff_false, not_false_iff, and_true]
    split
    · simp only [mem_points_cons, points_nil, Set.mem_empty_iff_false, or_false]
      omega
    · simp only [points_nil, Set.mem_empty_iff_false, false_iff]
      omega
  | cons r rs ih =>
    obtain ⟨hr, hgap, hrest⟩ := compact_cons.1 hrs
    obtain ⟨hvr, hvrest⟩ := List.forall_mem_cons.1 hv
    have hr₁ := hlow r List.mem_cons_self
    have hlt : c ∈ points rs → r.2 + 1 < c := Compact.lt_of_mem hrs
    unfold gapsAfter
    rw [mem_points_cons, ih hrest hgap hvr.2.2 hvrest, mem_points_cons]
    grind

theorem compact_gapsAfter (hrs : Compact rs) (hlow : ∀ r ∈ rs, last + 1 < r.1)
    (hlast : last ≤ 0x10FFFF) (hv : Valid rs) :
    Compact (gapsAfter last rs) ∧ ∀ p ∈ gapsAfter last rs, last < p.1 := by
  induction rs generalizing last with
  | nil =>
    unfold gapsAfter
    split
    · refine ⟨compact_cons.2 ⟨?_, by simp, Compact.nil⟩, ?_⟩
      · dsimp only
        omega
      · intro p hp
        rw [List.mem_singleton.1 hp]
        exact Int.lt_succ last
    · exact ⟨Compact.nil, by simp⟩
  | cons r rs ih =>
    obtain ⟨hr, hgap, hrest⟩ := compact_cons.1 hrs
    obtain ⟨hvr, hvrest⟩ := List.forall_mem_cons.1 hv
    have hr₁ := hlow r List.mem_cons_self
    obtain ⟨hcompact, hbound⟩ := ih hrest hgap hvr.2.2 hvrest
    unfold gapsAfter
    refine ⟨compact_cons.2 ⟨?_, ?_, hcompact⟩, ?_⟩
    · dsimp only
      omega
    · intro p hp
      have := hbound p hp
      dsimp only
      omega
    · rintro p (_ | ⟨_, hp⟩)
      · dsimp only
        omega
      · have := hbound p hp
        omega

theorem gaps_spec (hrs : Compact rs) (hv : Valid rs) :
    Compact (gaps rs) ∧ points (gaps rs) = allCodePoints \ points rs := by
  cases rs with
  | nil =>
    refine ⟨compact_cons.2 ⟨by decide, by simp, Compact.nil⟩, ?_⟩
    ext c
    simp [gaps, allCodePoints]
  | cons r rs =>
    obtain ⟨hr, hgap, hrest⟩ := compact_cons.1 hrs
    obtain ⟨hvr, hvrest⟩ := List.forall_mem_cons.1 hv
    obtain ⟨hcompact, hbound⟩ := compact_gapsAfter hrest hgap hvr.2.2 hvrest
    unfold gaps
    dsimp only
    constructor
    · split
      · exact hcompact
      · refine compact_append.2 ⟨compact_cons.2 ⟨?_, by simp, Compact.nil⟩, hcompact, ?_⟩
        · dsimp only
          omega
        · intro p hp q hq
          have := hbound q hq
          rw [List.mem_singleton.1 hp]
          dsimp only
          omega
    · ext c
      have hmem := mem_points_gapsAfter (c := c) hrest hgap hvr.2.2 hvrest
      have hlt : c ∈ points rs → r.2 + 1 < c := Compact.lt_of_mem hrs
      rw [mem_points_append, hmem, Set.mem_sdiff, mem_points_cons]
      rw [mem_allCodePoints]
      split <;> simp only [mem_points_cons, points_nil, Set.mem_empty_iff_false] <;> grind

theorem Denotes.complement (h : b.Denotes S) : b.complement.Denotes (allCodePoints \ S) := by
  obtain ⟨hb, hbc⟩ := h.tryToSortAndCompact
  obtain ⟨hcompact, hpoints⟩ := gaps_spec hbc hb.valid
  rw [hb.points] at hpoints
  exact .of_compact hcompact hpoints Set.sdiff_subset

/-- No gap between ranges is empty. -/
theorem Denotes.gapsAsserts (h : b.Denotes S) :
    gapsAsserts b.tryToSortAndCompact.codePointRanges = true := by
  obtain ⟨hb, hbc⟩ := h.tryToSortAndCompact
  unfold CodePointSetBuilder.gapsAsserts
  rw [List.all_eq_true]
  intro r hr
  exact decide_eq_true ((gaps_spec hbc hb.valid).1.le r hr)

/-! ## Code points and ranges -/

@[simp] theorem mem_upTo : c ∈ upTo first last ↔ first ≤ c ∧ c ≤ last := by
  unfold upTo
  simp only [List.mem_map, List.mem_range]
  constructor
  · rintro ⟨i, hi, rfl⟩
    omega
  · rintro ⟨hfirst, hlast⟩
    exact ⟨(c - first).toNat, by omega, by omega⟩

/-- A range of one code point each. -/
theorem mem_points_map_diag {l : List Int} {f : Int → Int} :
    c ∈ points (l.map fun x => (f x, f x)) ↔ c ∈ f '' {x | x ∈ l} := by
  simp only [mem_points, List.mem_map, exists_exists_and_eq_and, Set.mem_image, Set.mem_ofPred_eq,
    ← le_antisymm_iff]

theorem valid_map_diag {l : List Int} {f : Int → Int} (h : ∀ x ∈ l, f x ∈ allCodePoints) :
    Valid (l.map fun x => (f x, f x)) := by
  intro r hr
  obtain ⟨x, hx, rfl⟩ := List.mem_map.1 hr
  exact ⟨(h x hx).1, le_rfl, (h x hx).2⟩

theorem Denotes.addCodePoints (h : b.Denotes S) (data : List Int) :
    (b.addCodePoints data).Denotes (S ∪ {c | c ∈ data ∧ c ∈ allCodePoints}) := by
  have hvalid : Valid ((data.filter isCodePoint).map fun c => (c, c)) := by
    apply valid_map_diag (f := id)
    intro c hc
    exact isCodePoint_iff.1 (List.mem_filter.1 hc).2
  have hpoints : Ranges.points ((data.filter isCodePoint).map fun c => (c, c)) =
      {c | c ∈ data ∧ c ∈ allCodePoints} := by
    ext c
    apply (mem_points_map_diag (f := id)).trans
    simp [allCodePoints]
  exact hpoints ▸ h.append hvalid

/-- The code points of a range given by its ends, in either order. -/
def between (first last : Int) : Set Int :=
  {c | min first last ≤ c ∧ c ≤ max first last} ∩ allCodePoints

theorem mem_between :
    c ∈ between first last ↔ max 0 (min first last) ≤ c ∧ c ≤ min 0x10FFFF (max first last) := by
  unfold between
  rw [Set.mem_inter_iff, mem_allCodePoints, Set.mem_ofPred_eq]
  omega

section
variable {doSimpleCaseFolding : Int → Int}
  (hfold : ∀ c ∈ allCodePoints, doSimpleCaseFolding c ∈ allCodePoints)
include hfold

/-- The range that is added has to hold a code point: the clamped ends are a range then. -/
theorem Denotes.addRange (h : b.Denotes S) (first last : Int) (caseFold : Bool)
    (hin : caseFold = false → 0 ≤ max first last ∧ min first last ≤ 0x10FFFF) :
    (b.addRange doSimpleCaseFolding first last caseFold).Denotes
      (S ∪ if caseFold = true then doSimpleCaseFolding '' between first last
        else between first last) := by
  unfold CodePointSetBuilder.addRange
  dsimp only
  cases caseFold with
  | false =>
    obtain ⟨hmax, hmin⟩ := hin rfl
    have hpoints : Ranges.points [(max 0 (min first last), min 0x10FFFF (max first last))] =
        between first last := by
      ext c
      rw [mem_points_cons, mem_between]
      exact or_iff_left (by simp)
    simp only [Bool.false_eq_true, if_false]
    apply hpoints ▸ h.append
    intro r hr
    rw [List.mem_singleton.1 hr]
    dsimp only
    omega
  | true =>
    have hupTo : {x | x ∈ upTo (max 0 (min first last)) (min 0x10FFFF (max first last))} =
        between first last := by
      ext c
      rw [Set.mem_ofPred_eq, mem_upTo, mem_between]
    have hpoints : Ranges.points ((upTo (max 0 (min first last)) (min 0x10FFFF (max first last))).map
        fun c => (doSimpleCaseFolding c, doSimpleCaseFolding c)) =
        doSimpleCaseFolding '' between first last := by
      ext c
      rw [mem_points_map_diag, hupTo]
    simp only [if_true]
    refine hpoints ▸ h.append (valid_map_diag fun x hx => hfold x ?_)
    exact (mem_between.2 (mem_upTo.1 hx)).2

/-! ## Case folding -/

theorem denotes_foldl_addRange {l : List Int} (h : b.Denotes S) (hl : ∀ x ∈ l, x ∈ allCodePoints) :
    (l.foldl (fun o c => o.addRange doSimpleCaseFolding c c false) b).Denotes
      (S ∪ {x | x ∈ l}) := by
  induction l generalizing b S with
  | nil => simpa using h
  | cons x l ih =>
    obtain ⟨hx, hrest⟩ := List.forall_mem_cons.1 hl
    have hpoint : between x x = {x} := by
      ext c
      rw [mem_between, Set.mem_singleton_iff]
      have := mem_allCodePoints.1 hx
      omega
    have hadd := h.addRange hfold x x false (by
      have := mem_allCodePoints.1 hx
      omega)
    rw [if_neg Bool.false_ne_true, hpoint] at hadd
    apply (ih hadd hrest).of_eq
    rw [Set.union_assoc]
    apply congrArg (S ∪ ·)
    ext c
    simp

omit hfold in
theorem mem_affected : c ∈ affected doSimpleCaseFolding rs ↔
    c ∈ points rs ∧ c ≠ doSimpleCaseFolding c := by
  unfold affected
  simp only [List.mem_filter, List.mem_flatMap, mem_upTo, decide_eq_true_eq]
  rfl

/-- The code points that folding changes are taken out, and what they fold to is put in. -/
theorem Denotes.foldCase (h : b.Denotes S) :
    (b.foldCase doSimpleCaseFolding).Denotes (doSimpleCaseFolding '' S) := by
  obtain ⟨hb, -⟩ := h.tryToSortAndCompact
  have hmem : ∀ x, x ∈ affected doSimpleCaseFolding b.tryToSortAndCompact.codePointRanges ↔
      x ∈ S ∧ x ≠ doSimpleCaseFolding x := by
    intro x
    rw [mem_affected, hb.points]
  unfold CodePointSetBuilder.foldCase
  dsimp only
  split
  · have holds := denotes_foldl_addRange hfold (l := affected doSimpleCaseFolding
      b.tryToSortAndCompact.codePointRanges) denotes_empty fun x hx => h.subset ((hmem x).1 hx).1
    refine ((hb.sub holds).addCodePoints _).of_eq ?_
    ext c
    simp only [Set.mem_union, Set.mem_ofPred_eq, Set.mem_empty_iff_false, false_or, hmem,
      List.mem_map, Set.mem_image, Set.mem_sdiff]
    constructor
    · rintro (⟨hc, hkeep⟩ | ⟨⟨x, ⟨hx, -⟩, rfl⟩, -⟩)
      · exact ⟨c, hc, by_contra fun hne => hkeep ⟨hc, Ne.symm hne⟩⟩
      · exact ⟨x, hx, rfl⟩
    · rintro ⟨x, hx, rfl⟩
      by_cases hfix : x = doSimpleCaseFolding x
      · rw [← hfix]
        exact .inl ⟨hx, fun hne => hne.2 hfix⟩
      · exact .inr ⟨⟨x, ⟨hx, hfix⟩, rfl⟩, hfold x (h.subset hx)⟩
  · next hnone =>
    rw [List.length_map, ne_eq, not_not, List.length_eq_zero_iff] at hnone
    have hfix : ∀ x ∈ S, doSimpleCaseFolding x = x := by
      intro x hx
      by_contra hne
      have hx := (hmem x).2 ⟨hx, Ne.symm hne⟩
      rw [hnone] at hx
      cases hx
    apply hb.of_eq
    rw [Set.image_congr hfix, Set.image_id']

theorem Denotes.complementWithFoldCase (h : b.Denotes S) :
    (b.complementWithFoldCase doSimpleCaseFolding).Denotes
      (doSimpleCaseFolding '' allCodePoints \ S) := by
  have hall := (denotes_empty.addRange hfold 0 0x10FFFF false
    (by simp)).foldCase hfold
  have hrange : between 0 0x10FFFF = allCodePoints := by
    ext c
    rw [mem_between, mem_allCodePoints]
    simp
  rw [if_neg Bool.false_ne_true, Set.empty_union, hrange] at hall
  apply (hall.sub h).of_eq
  ext c
  simp

end

/-! ## Packing -/

theorem map_pairUp_packNonBMP (hv : Valid rs) :
    (CodePointSet.pairUp (packNonBMP rs)).map (fun v => (firstNonBMP v, lastNonBMP v)) = rs := by
  induction rs with
  | nil => rfl
  | cons r rs ih =>
    obtain ⟨⟨h₀, hle, h₁⟩, hvrest⟩ := List.forall_mem_cons.1 hv
    unfold packNonBMP CodePointSet.pairUp firstNonBMP lastNonBMP
    rw [List.map_cons]
    refine congrArg₂ List.cons ?_ (ih hvrest)
    dsimp only
    rw [toInt32_toUInt32 h₀ (hle.trans h₁), toInt32_toUInt32 (h₀.trans hle) h₁]

/-- The ranges of the basic plane and the ones above it that `pack` makes of `rs`; a range that
crosses the boundary is cut there. -/
structure Parts (rs lows highs : List (Int × Int)) : Prop where
  pack_eq : pack rs = (lows.length, lows.map (fun r => packBMP r.1 r.2) ++ packNonBMP highs)
  lows_bound : ∀ r ∈ lows, 0 ≤ r.1 ∧ r.2 ≤ 0xFFFF
  highs_bound : ∀ r ∈ highs, 0xFFFF < r.1
  lows_compact : Compact lows
  highs_compact : Compact highs
  lows_first : ∀ r ∈ lows, ∃ s ∈ rs, s.1 ≤ r.1
  mem_points : ∀ c, c ∈ points rs ↔ c ∈ points lows ∨ c ∈ points highs

theorem exists_parts (hrs : Compact rs) (hv : Valid rs) : ∃ lows highs, Parts rs lows highs := by
  induction rs with
  | nil => exact ⟨[], [], rfl, by simp, by simp, Compact.nil, Compact.nil, by simp, by simp⟩
  | cons r rs ih =>
    obtain ⟨hr, hgap, hrest⟩ := compact_cons.1 hrs
    obtain ⟨⟨h₀, -, h₁⟩, hvrest⟩ := List.forall_mem_cons.1 hv
    by_cases hfirst : r.1 ≤ 0xFFFF
    · by_cases hlast : r.2 ≤ 0xFFFF
      · -- in the basic plane
        obtain ⟨lows, highs, h⟩ := ih hrest hvrest
        refine ⟨r :: lows, highs, ?_, ?_, h.highs_bound, ?_, h.highs_compact, ?_, ?_⟩
        · unfold pack
          rw [if_pos (by simp; omega), if_pos (by simp; omega), h.pack_eq]
          rfl
        · exact List.forall_mem_cons.2 ⟨⟨h₀, hlast⟩, h.lows_bound⟩
        · refine compact_cons.2 ⟨hr, fun s hs => ?_, h.lows_compact⟩
          obtain ⟨t, ht, hle⟩ := h.lows_first s hs
          have := hgap t ht
          omega
        · refine List.forall_mem_cons.2 ⟨⟨r, List.mem_cons_self, le_rfl⟩, fun s hs => ?_⟩
          obtain ⟨t, ht, hle⟩ := h.lows_first s hs
          exact ⟨t, List.mem_cons_of_mem r ht, hle⟩
        · intro c
          rw [mem_points_cons, mem_points_cons, h.mem_points c, or_assoc]
      · -- across the boundary
        refine ⟨[(r.1, 0xFFFF)], (0x10000, r.2) :: rs, ?_, ?_, ?_, ?_, ?_, ?_, ?_⟩
        · unfold pack
          rw [if_pos (by simp; omega), if_neg (by simp; omega)]
          rfl
        · simpa using h₀
        · refine List.forall_mem_cons.2 ⟨by simp, fun s hs => ?_⟩
          have := hgap s hs
          omega
        · exact compact_cons.2 ⟨hfirst, by simp, Compact.nil⟩
        · exact compact_cons.2 ⟨by dsimp only; omega, hgap, hrest⟩
        · simp
        · intro c
          simp only [mem_points_cons, points_nil, Set.mem_empty_iff_false, or_false, ← or_assoc]
          apply or_congr_left
          omega
    · -- above the basic plane, and all ranges behind it
      refine ⟨[], r :: rs, ?_, by simp, ?_, Compact.nil, hrs, by simp, by simp⟩
      · unfold pack
        rw [if_neg (by simp; omega)]
        rfl
      · refine List.forall_mem_cons.2 ⟨by omega, fun s hs => ?_⟩
        have := hgap s hs
        omega

/-- Fewer than 2 ^ 16 ranges with gaps between them fit in the basic plane. -/
theorem Parts.length_lt {lows highs : List (Int × Int)} (h : Parts rs lows highs) :
    lows.length < 0x10000 := by
  have := h.lows_compact.length_le h.lows_bound (by decide)
  omega

theorem packNonBMPAsserts_of_valid (hv : Valid rs) (hlow : ∀ r ∈ rs, 0xFFFF < r.1) :
    packNonBMPAsserts rs = true := by
  unfold packNonBMPAsserts
  rw [List.all_eq_true]
  intro r hr
  obtain ⟨-, hle, h₁⟩ := hv r hr
  have := hlow r hr
  simp only [Bool.and_eq_true, isSupplementaryCodePoint_iff]
  omega

theorem packAsserts_of_valid (hrs : Compact rs) (hv : Valid rs) : packAsserts rs = true := by
  induction rs with
  | nil => rfl
  | cons r rs ih =>
    obtain ⟨hr, hgap, hrest⟩ := compact_cons.1 hrs
    obtain ⟨hvr, hvrest⟩ := List.forall_mem_cons.1 hv
    unfold packAsserts
    split
    · split
      · exact ih hrest hvrest
      · next hlast =>
        apply packNonBMPAsserts_of_valid hvrest
        intro s hs
        have := hgap s hs
        rw [isBmpCodePoint_iff] at hlast
        omega
    · next hfirst =>
      rw [isBmpCodePoint_iff] at hfirst
      refine packNonBMPAsserts_of_valid hv (List.forall_mem_cons.2 ⟨by omega, fun s hs => ?_⟩)
      have := hgap s hs
      omega

/-- The assertions of `build` hold. -/
theorem Denotes.packAsserts (h : b.Denotes S) :
    packAsserts b.tryToSortAndCompact.codePointRanges = true := by
  obtain ⟨hb, hbc⟩ := h.tryToSortAndCompact
  exact packAsserts_of_valid hbc hb.valid

theorem Denotes.build (h : b.Denotes S) : b.build.Wf ∧ Ranges.points b.build.ranges = S := by
  obtain ⟨hb, hbc⟩ := h.tryToSortAndCompact
  obtain ⟨lows, highs, hp⟩ := exists_parts hbc hb.valid
  have hhighs : Valid highs := Compact.valid hp.highs_compact fun c hc =>
    hb.valid.points_subset ((hp.mem_points c).2 (.inr hc))
  have hsize : b.build.bmpSize = (lows.map fun r => packBMP r.1 r.2).length := by
    unfold CodePointSetBuilder.build
    rw [hp.pack_eq, List.length_map]
    exact Nat.mod_eq_of_lt hp.length_lt
  have hbuf : b.build.buf = lows.map (fun r => packBMP r.1 r.2) ++ packNonBMP highs := by
    unfold CodePointSetBuilder.build
    rw [hp.pack_eq]
  have hbmp : b.build.getBMPRanges.map (fun v => (firstBMP v, lastBMP v)) = lows := by
    unfold CodePointSet.getBMPRanges
    rw [hbuf, hsize, List.take_left, List.map_map]
    refine (List.map_congr_left fun r hr => ?_).trans (List.map_id lows)
    obtain ⟨h₀, h₁⟩ := hp.lows_bound r hr
    have hle := hp.lows_compact.le r hr
    simp only [Function.comp_apply, id_eq]
    rw [firstBMP_packBMP h₀ (hle.trans h₁), lastBMP_packBMP (h₀.trans hle) h₁]
  have hpacked : b.build.getPackedNonBMPRanges = [] := CodePointSet.getPackedNonBMPRanges_eq_nil rfl
  have hnon : b.build.getNonBMPRanges.map (fun v => (firstNonBMP v, lastNonBMP v)) = highs := by
    unfold CodePointSet.getNonBMPRanges
    rw [show b.build.packedNonBmpSize = 0 from rfl, Nat.add_zero, hbuf, hsize, List.drop_left]
    exact map_pairUp_packNonBMP hhighs
  have hbound : ∀ v ∈ b.build.getNonBMPRanges, (firstNonBMP v, lastNonBMP v) ∈ highs := fun v hv =>
    hnon ▸ List.mem_map_of_mem hv
  refine ⟨⟨?_, ?_, ?_, ?_, ?_⟩, ?_⟩
  · rw [hbmp]
    exact hp.lows_compact.separated
  · rw [hpacked]
    exact Compact.nil.separated
  · rw [hnon]
    exact hp.highs_compact.separated
  · rw [hpacked]
    simp
  · intro v hv
    exact ⟨hp.highs_bound _ (hbound v hv), (hhighs _ (hbound v hv)).2.2⟩
  · ext c
    unfold CodePointSet.ranges
    rw [hbmp, hpacked, hnon, List.map_nil, List.append_nil, mem_points_append, ← hp.mem_points,
      hb.points]

/-- The set that is built contains the members. -/
theorem Denotes.contains_build (h : b.Denotes S) : b.build.contains c = true ↔ c ∈ S := by
  obtain ⟨hwf, hpoints⟩ := h.build
  rw [hwf.contains_iff, hpoints]

end Arsh.CodePointSetBuilder
