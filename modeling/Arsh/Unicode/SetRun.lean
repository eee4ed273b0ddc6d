import Arsh.Unicode.SetAlgebra
import Mathlib.Logic.Function.Basic

/-!
# Runs of set builders

A program works on builders, which are numbered here, and passes them to each other. `run` is
what it does to them, `none` when an assertion fails; `denote` is the set algebra it means.
`run_denotes` says that the two agree as long as no range is added that lies outside the code
points: such a range is stored with its ends swapped, and `addRange_iff` shows that the set is
wrong, or an assertion fails, right then.
-/

namespace Arsh.CodePointSetBuilder

open Ranges

/-- An operation on the builder `i`; `j` is another one, or the same. -/
inductive Op where
  | addRef (i : Nat) (ref : {s : CodePointSet // s.Wf})
  | addRange (i : Nat) (first last : Int) (caseFold : Bool)
  | addCodePoints (i : Nat) (data : List Int)
  | addBuilder (i j : Nat)
  | subRef (i : Nat) (ref : {s : CodePointSet // s.Wf})
  | intersectRef (i : Nat) (ref : {s : CodePointSet // s.Wf})
  | sub (i j : Nat)
  | intersect (i j : Nat)
  | complement (i : Nat)
  | foldCase (i : Nat)
  | complementWithFoldCase (i : Nat)
  | build (i : Nat)
  | clear (i : Nat)

/-- The builders of a program. -/
abbrev Store := Nat → CodePointSetBuilder

variable (doSimpleCaseFolding : Int → Int)

open Function in
/-- What an operation does; `none` when an assertion fails. -/
def step (s : Store) : Op → Option Store
  | .addRef i ref => some (update s i ((s i).addRef ref))
  | .addRange i first last caseFold =>
    some (update s i ((s i).addRange doSimpleCaseFolding first last caseFold))
  | .addCodePoints i data => some (update s i ((s i).addCodePoints data))
  | .addBuilder i j => some (update s i ((s i).addBuilder (s j)))
  | .subRef i ref => some (update s i ((s i).subRef ref))
  | .intersectRef i ref => some (update s i ((s i).intersectRef ref))
  | .sub i j => some (update (update s j (s j).tryToSortAndCompact) i ((s i).sub (s j)))
  | .intersect i j => some (update (update s j (s j).tryToSortAndCompact) i ((s i).intersect (s j)))
  | .complement i =>
    if gapsAsserts (s i).tryToSortAndCompact.codePointRanges then
      some (update s i (s i).complement)
    else none
  | .foldCase i => some (update s i ((s i).foldCase doSimpleCaseFolding))
  | .complementWithFoldCase i => some (update s i ((s i).complementWithFoldCase doSimpleCaseFolding))
  | .build i =>
    if packAsserts (s i).tryToSortAndCompact.codePointRanges then
      some (update s i (s i).tryToSortAndCompact)
    else none
  | .clear i => some (update s i (s i).clear)

/-- A run from empty builders. -/
def run (ops : List Op) : Option Store := ops.foldlM (step doSimpleCaseFolding) fun _ => {}

open Function in
/-- What an operation means. -/
def Op.denote (D : Nat → Set Int) : Op → Nat → Set Int
  | .addRef i ref => update D i (D i ∪ {c | ref.1.contains c = true})
  | .addRange i first last caseFold =>
    update D i (D i ∪ if caseFold = true then doSimpleCaseFolding '' between first last
      else between first last)
  | .addCodePoints i data => update D i (D i ∪ {c | c ∈ data ∧ c ∈ allCodePoints})
  | .addBuilder i j => update D i (D i ∪ D j)
  | .subRef i ref => update D i (D i \ {c | ref.1.contains c = true})
  | .intersectRef i ref => update D i (D i ∩ {c | ref.1.contains c = true})
  | .sub i j => update D i (D i \ D j)
  | .intersect i j => update D i (D i ∩ D j)
  | .complement i => update D i (allCodePoints \ D i)
  | .foldCase i => update D i (doSimpleCaseFolding '' D i)
  | .complementWithFoldCase i => update D i (doSimpleCaseFolding '' allCodePoints \ D i)
  | .build _ => D
  | .clear i => update D i ∅

/-- What a run means. -/
def denote (ops : List Op) : Nat → Set Int :=
  ops.foldl (Op.denote doSimpleCaseFolding) fun _ => ∅

/-- A range that is added as it is has a code point. -/
def Op.Ok : Op → Prop
  | .addRange _ first last caseFold =>
    caseFold = false → 0 ≤ max first last ∧ min first last ≤ 0x10FFFF
  | _ => True

variable {doSimpleCaseFolding} {s : Store} {D : Nat → Set Int} {i : Nat}

theorem denotes_update {b : CodePointSetBuilder} {S : Set Int} (h : ∀ i, (s i).Denotes (D i))
    (hb : b.Denotes S) :
    ∀ k, (Function.update s i b k).Denotes (Function.update D i S k) := by
  intro k
  by_cases hk : k = i
  · subst hk
    rwa [Function.update_self, Function.update_self]
  · rw [Function.update_of_ne hk, Function.update_of_ne hk]
    exact h k

/-- Sorting a builder changes nothing. -/
theorem denotes_update_sorted (h : ∀ i, (s i).Denotes (D i)) :
    ∀ k, (Function.update s i (s i).tryToSortAndCompact k).Denotes (D k) := by
  have := denotes_update (i := i) h (h i).tryToSortAndCompact.1
  rwa [Function.update_eq_self] at this

theorem step_denotes (hfold : ∀ c ∈ allCodePoints, doSimpleCaseFolding c ∈ allCodePoints)
    (h : ∀ i, (s i).Denotes (D i)) (op : Op) (hop : op.Ok) :
    ∃ s', step doSimpleCaseFolding s op = some s' ∧
      ∀ i, (s' i).Denotes (op.denote doSimpleCaseFolding D i) := by
  cases op with
  | addRef i ref => exact ⟨_, rfl, denotes_update h ((h i).addRef ref.2)⟩
  | addRange i first last caseFold =>
    exact ⟨_, rfl, denotes_update h ((h i).addRange hfold first last caseFold hop)⟩
  | addCodePoints i data => exact ⟨_, rfl, denotes_update h ((h i).addCodePoints data)⟩
  | addBuilder i j => exact ⟨_, rfl, denotes_update h ((h i).addBuilder (h j))⟩
  | subRef i ref => exact ⟨_, rfl, denotes_update h ((h i).sub (denotes_addRef ref.2))⟩
  | intersectRef i ref => exact ⟨_, rfl, denotes_update h ((h i).intersect (denotes_addRef ref.2))⟩
  | sub i j => exact ⟨_, rfl, denotes_update (denotes_update_sorted h) ((h i).sub (h j))⟩
  | intersect i j =>
    exact ⟨_, rfl, denotes_update (denotes_update_sorted h) ((h i).intersect (h j))⟩
  | complement i =>
    exact ⟨_, if_pos (h i).gapsAsserts, denotes_update h (h i).complement⟩
  | foldCase i => exact ⟨_, rfl, denotes_update h ((h i).foldCase hfold)⟩
  | complementWithFoldCase i =>
    exact ⟨_, rfl, denotes_update h ((h i).complementWithFoldCase hfold)⟩
  | build i => exact ⟨_, if_pos (h i).packAsserts, denotes_update_sorted h⟩
  | clear i => exact ⟨_, rfl, denotes_update h .clear⟩

theorem foldlM_denotes (hfold : ∀ c ∈ allCodePoints, doSimpleCaseFolding c ∈ allCodePoints)
    (h : ∀ i, (s i).Denotes (D i)) (ops : List Op) (hops : ∀ op ∈ ops, op.Ok) :
    ∃ s', ops.foldlM (step doSimpleCaseFolding) s = some s' ∧
      ∀ i, (s' i).Denotes (ops.foldl (Op.denote doSimpleCaseFolding) D i) := by
  induction ops generalizing s D with
  | nil => exact ⟨s, rfl, h⟩
  | cons op ops ih =>
    obtain ⟨hop, hrest⟩ := List.forall_mem_cons.1 hops
    obtain ⟨s₁, hs₁, h₁⟩ := step_denotes hfold h op hop
    obtain ⟨s₂, hs₂, h₂⟩ := ih h₁ hrest
    refine ⟨s₂, ?_, h₂⟩
    rw [List.foldlM_cons, hs₁]
    exact hs₂

/-- The builders of a run denote what the run means. -/
theorem run_denotes (hfold : ∀ c ∈ allCodePoints, doSimpleCaseFolding c ∈ allCodePoints)
    (ops : List Op) (hops : ∀ op ∈ ops, op.Ok) :
    ∃ s, run doSimpleCaseFolding ops = some s ∧
      ∀ i, (s i).Denotes (denote doSimpleCaseFolding ops i) :=
  foldlM_denotes hfold (fun _ => denotes_empty) ops hops

/-- Whatever a program does to its builders, with ranges that hold code points: no assertion
fails, and the set built of a builder contains exactly the members of the set it stands for. -/
theorem contains_build_iff (hfold : ∀ c ∈ allCodePoints, doSimpleCaseFolding c ∈ allCodePoints)
    (ops : List Op) (hops : ∀ op ∈ ops, op.Ok) :
    ∃ s, run doSimpleCaseFolding ops = some s ∧ ∀ i,
      packAsserts (s i).tryToSortAndCompact.codePointRanges = true ∧
      ∀ c, (s i).build.contains c = true ↔ c ∈ denote doSimpleCaseFolding ops i := by
  obtain ⟨s, hs, h⟩ := run_denotes hfold ops hops
  exact ⟨s, hs, fun i => ⟨(h i).packAsserts, fun c => (h i).contains_build⟩⟩

/-- The folding of the ASCII letters. -/
def asciiFolding (c : Int) : Int := if 65 ≤ c ∧ c ≤ 90 then c + 32 else c

theorem asciiFolding_mem : ∀ c ∈ allCodePoints, asciiFolding c ∈ allCodePoints := by
  intro c hc
  rw [mem_allCodePoints] at *
  unfold asciiFolding
  split <;> omega

/-- A range across the boundary of the basic plane, its complement, letters folded and taken
out. -/
def sampleOps : List Op :=
  [.addRange 0 0x10001 0xFFFE false, .complement 0, .addRange 1 90 65 false, .foldCase 1,
    .sub 0 1, .build 0]

theorem sampleOps_ok : ∀ op ∈ sampleOps, op.Ok := by
  simp [sampleOps, Op.Ok]

theorem contains_build_iff_sample :
    ∃ s, run asciiFolding sampleOps = some s ∧ ∀ i,
      packAsserts (s i).tryToSortAndCompact.codePointRanges = true ∧
      ∀ c, (s i).build.contains c = true ↔ c ∈ denote asciiFolding sampleOps i :=
  contains_build_iff asciiFolding_mem sampleOps sampleOps_ok

/-! ## A range that has no code point -/

theorem not_mem_between_of_neg {first last c : Int} (h : max first last < 0) :
    c ∉ between first last := by
  rw [mem_between]
  omega

theorem ranges_addRange {b : CodePointSetBuilder} (hb : b.codePointRanges = []) (first last : Int) :
    (b.addRange doSimpleCaseFolding first last false).tryToSortAndCompact.codePointRanges =
      [(max 0 (min first last), min 0x10FFFF (max first last))] := by
  unfold CodePointSetBuilder.addRange
  rw [hb]
  rfl

/-- A range below the code points is stored as one from `0` to a negative end, and the whole
basic plane is built of it. -/
theorem contains_below {b : CodePointSetBuilder} {first last : Int}
    (hb : b.codePointRanges = []) (h : max first last < 0) :
    (b.addRange doSimpleCaseFolding first last false).build.contains 65 = true := by
  have hpack : pack [(max 0 (min first last), min 0x10FFFF (max first last))] =
      (1, [packBMP 0 0xFFFF, 0x10000, toUInt32 (max first last)]) := by
    have hfirst : max 0 (min first last) = 0 := by omega
    have hlast : min 0x10FFFF (max first last) = max first last := by omega
    rw [hfirst, hlast, pack, if_pos (by simp), if_neg (by rw [isBmpCodePoint_iff]; omega)]
    rfl
  unfold CodePointSetBuilder.build
  rw [ranges_addRange hb, hpack]
  rfl

/-- A range above the code points fails the assertion of `build`. -/
theorem asserts_above {b : CodePointSetBuilder} {first last : Int}
    (hb : b.codePointRanges = []) (h : 0x10FFFF < min first last) :
    packAsserts (b.addRange doSimpleCaseFolding first last false).tryToSortAndCompact.codePointRanges
      = false := by
  have hfirst : max 0 (min first last) = min first last := by omega
  rw [ranges_addRange hb, hfirst, packAsserts, if_neg (by rw [isBmpCodePoint_iff]; omega)]
  unfold packNonBMPAsserts
  rw [List.all_cons, Bool.and_eq_false_iff, Bool.and_eq_false_iff]
  refine .inl (.inl ?_)
  rw [← Bool.not_eq_true, isSupplementaryCodePoint_iff]
  omega

/-- The set of a single range is right exactly if the range has a code point. -/
theorem addRange_iff (hfold : ∀ c ∈ allCodePoints, doSimpleCaseFolding c ∈ allCodePoints)
    (first last : Int) :
    (packAsserts (({} : CodePointSetBuilder).addRange doSimpleCaseFolding first last
        false).tryToSortAndCompact.codePointRanges = true ∧
      ∀ c, (({} : CodePointSetBuilder).addRange doSimpleCaseFolding first last
        false).build.contains c = true ↔ c ∈ between first last) ↔
      0 ≤ max first last ∧ min first last ≤ 0x10FFFF := by
  constructor
  · rintro ⟨hasserts, hmem⟩
    refine ⟨?_, ?_⟩
    · by_contra hneg
      exact not_mem_between_of_neg (by omega) ((hmem 65).1 (contains_below rfl (by omega)))
    · by_contra hlarge
      rw [asserts_above rfl (by omega)] at hasserts
      cases hasserts
  · intro h
    have hd := denotes_empty.addRange hfold first last false fun _ => h
    rw [if_neg Bool.false_ne_true, Set.empty_union] at hd
    exact ⟨hd.packAsserts, fun c => hd.contains_build⟩

/-- No code point lies between -2 and -1, but the set built of that range contains a letter. -/
theorem contains_build_below : ∃ s, run asciiFolding [.addRange 0 (-2) (-1) false] = some s ∧
    packAsserts (s 0).tryToSortAndCompact.codePointRanges = true ∧
    (s 0).build.contains 65 = true ∧
    65 ∉ denote asciiFolding [.addRange 0 (-2) (-1) false] 0 := by
  refine ⟨_, rfl, by decide, by decide, ?_⟩
  rintro (h | h)
  · cases h
  · rw [if_neg Bool.false_ne_true] at h
    exact not_mem_between_of_neg (by decide) h

end Arsh.CodePointSetBuilder
