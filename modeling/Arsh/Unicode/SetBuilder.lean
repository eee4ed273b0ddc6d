import Arsh.Unicode.CodePointSet
import Mathlib.Data.List.Sort

/-!
# Code point set builder

`CodePointSetBuilder` (`unicode/set_builder.cpp`). Ranges are appended as they come; they are
sorted and merged when an operation needs them so, and `dirty` says that this is due. A loop
over a vector with an index is a recursion over what is left of it. The code folds case by a
generated table, `doSimpleCaseFolding` here.
-/

namespace Arsh

open Ranges

structure CodePointSetBuilder where
  dirty : Bool := false
  codePointRanges : List (Int × Int) := []
  deriving DecidableEq, Repr

namespace CodePointSetBuilder

/-! ## Sorting and merging -/

/-- `Compare`, of a pair that may stand before another. -/
def Before (x y : Int × Int) : Prop := x.1 < y.1 ∨ (x.1 = y.1 ∧ x.2 ≤ y.2)

instance : DecidableRel Before := fun _ _ => inferInstanceAs (Decidable (_ ∨ _))

instance : Std.Total Before := ⟨fun x y => by unfold Before; omega⟩

instance : IsTrans (Int × Int) Before := ⟨fun x y z => by unfold Before; omega⟩

/-- The loop of `sortAndCompact` behind the range it is at. -/
def mergeFrom (last : Int × Int) : List (Int × Int) → List (Int × Int)
  | [] => [last]
  | r :: rest =>
    if r.1 ≤ last.2 + 1 then mergeFrom (last.1, max last.2 r.2) rest
    else last :: mergeFrom r rest

/-- The merging loop of `sortAndCompact`. -/
def merge : List (Int × Int) → List (Int × Int)
  | [] => []
  | r :: rest => mergeFrom r rest

def sortAndCompact (ranges : List (Int × Int)) : List (Int × Int) :=
  if ranges.length < 2 then ranges else merge (ranges.insertionSort Before)

def tryToSortAndCompact (b : CodePointSetBuilder) : CodePointSetBuilder :=
  if b.dirty then { dirty := false, codePointRanges := sortAndCompact b.codePointRanges } else b

/-! ## Union -/

/-- `add(CodePointSetRef)`. -/
def addRef (b : CodePointSetBuilder) (ref : CodePointSet) : CodePointSetBuilder :=
  { dirty := true, codePointRanges := b.codePointRanges ++ ref.ranges }

/-- `add(const CodePointSetBuilder &)`. -/
def addBuilder (b other : CodePointSetBuilder) : CodePointSetBuilder :=
  { dirty := true, codePointRanges := b.codePointRanges ++ other.codePointRanges }

/-- `add(const int *, unsigned int)`. -/
def addCodePoints (b : CodePointSetBuilder) (data : List Int) : CodePointSetBuilder :=
  { dirty := true
    codePointRanges := b.codePointRanges ++ (data.filter isCodePoint).map fun c => (c, c) }

/-- The integers from `first` to `last`, in order. -/
def upTo (first last : Int) : List Int :=
  (List.range (last + 1 - first).toNat).map fun i : Nat => first + i

def addRange (doSimpleCaseFolding : Int → Int) (b : CodePointSetBuilder) (first last : Int)
    (caseFold : Bool) : CodePointSetBuilder :=
  let actualFirst := max 0 (min first last)
  let actualLast := min 0x10FFFF (max first last)
  { dirty := true
    codePointRanges := b.codePointRanges ++
      if caseFold then (upTo actualFirst actualLast).map fun c =>
        (doSimpleCaseFolding c, doSimpleCaseFolding c)
      else [(actualFirst, actualLast)] }

/-! ## Complement -/

/-- The loop of `complement` behind a range that ends at `last`. -/
def gapsAfter (last : Int) : List (Int × Int) → List (Int × Int)
  | [] => if last ≠ 0x10FFFF then [(last + 1, 0x10FFFF)] else []
  | r :: rest => (last + 1, r.1 - 1) :: gapsAfter r.2 rest

/-- The loop of `complement`. -/
def gaps : List (Int × Int) → List (Int × Int)
  | [] => [(0, 0x10FFFF)]
  | r :: rest => (if r.1 = 0 then [] else [(0, r.1 - 1)]) ++ gapsAfter r.2 rest

/-- The assertion of the loop of `complement`: no gap is empty. -/
def gapsAsserts (ranges : List (Int × Int)) : Bool :=
  (gaps ranges).all fun r => decide (r.1 ≤ r.2)

def complement (b : CodePointSetBuilder) : CodePointSetBuilder :=
  let b := b.tryToSortAndCompact
  { b with codePointRanges := gaps b.codePointRanges }

/-! ## Difference and intersection -/

/-- What the loop of `remove` keeps of the range from `cur` to `last` where it overlaps `t`. -/
def overlap (invert : Bool) (last cur : Int) (t : Int × Int) : List (Int × Int) :=
  let overlapFirst := max cur t.1
  let overlapLast := min last t.2
  if invert then [(overlapFirst, overlapLast)]
  else if cur < overlapFirst then [(cur, overlapFirst - 1)]
  else []

/-- The loop of `remove` over one range from `cur` on: the new ranges, and the targets that are
left for the next range. -/
def removeRange (invert : Bool) (last cur : Int) :
    List (Int × Int) → List (Int × Int) × List (Int × Int)
  | [] => (if cur ≤ last ∧ !invert then [(cur, last)] else [], [])
  | t :: ts =>
    if last < cur then ([], t :: ts)
    else if t.2 < cur then removeRange invert last cur ts
    else if last < t.1 then (if invert then [] else [(cur, last)], t :: ts)
    else if t.2 ≤ last then
      (overlap invert last cur t ++ (removeRange invert last (min last t.2 + 1) ts).1,
        (removeRange invert last (min last t.2 + 1) ts).2)
    else (overlap invert last cur t, t :: ts)

/-- The loop of `remove`. -/
def removeRanges (invert : Bool) : List (Int × Int) → List (Int × Int) → List (Int × Int)
  | [], _ => []
  | r :: rs, ts =>
    (removeRange invert r.2 r.1 ts).1 ++ removeRanges invert rs (removeRange invert r.2 r.1 ts).2

/-- `remove(CodePointSetBuilder &, bool)`; the target is left sorted. -/
def remove (b target : CodePointSetBuilder) (invert : Bool) : CodePointSetBuilder :=
  { dirty := false
    codePointRanges := removeRanges invert b.tryToSortAndCompact.codePointRanges
      target.tryToSortAndCompact.codePointRanges }

/-- `remove(CodePointSetRef, bool)`. -/
def removeRef (b : CodePointSetBuilder) (ref : CodePointSet) (invert : Bool) :
    CodePointSetBuilder :=
  b.remove (addRef {} ref) invert

def sub (b target : CodePointSetBuilder) : CodePointSetBuilder := b.remove target false

def intersect (b target : CodePointSetBuilder) : CodePointSetBuilder := b.remove target true

/-- `sub(CodePointSetRef)`. -/
def subRef (b : CodePointSetBuilder) (ref : CodePointSet) : CodePointSetBuilder :=
  b.removeRef ref false

/-- `intersect(CodePointSetRef)`. -/
def intersectRef (b : CodePointSetBuilder) (ref : CodePointSet) : CodePointSetBuilder :=
  b.removeRef ref true

/-! ## Case folding -/

section
variable (doSimpleCaseFolding : Int → Int)

/-- The code points that `foldCase` finds to fold. -/
def affected (ranges : List (Int × Int)) : List Int :=
  (ranges.flatMap fun r => upTo r.1 r.2).filter fun c => c ≠ doSimpleCaseFolding c

def foldCase (b : CodePointSetBuilder) : CodePointSetBuilder :=
  let b := b.tryToSortAndCompact
  let olds := affected doSimpleCaseFolding b.codePointRanges
  let folds := olds.map doSimpleCaseFolding
  if folds.length ≠ 0 then
    let oldBuilder := olds.foldl (fun o c => addRange doSimpleCaseFolding o c c false) {}
    (b.sub oldBuilder).addCodePoints folds
  else b

def complementWithFoldCase (b : CodePointSetBuilder) : CodePointSetBuilder :=
  (foldCase doSimpleCaseFolding (addRange doSimpleCaseFolding {} 0 0x10FFFF false)).sub b

end

/-! ## Packing -/

/-- The second loop of `build`. -/
def packNonBMP : List (Int × Int) → List Nat
  | [] => []
  | r :: rest => toUInt32 r.1 :: toUInt32 r.2 :: packNonBMP rest

/-- The first loop of `build`, which counts the values of the basic plane. -/
def pack : List (Int × Int) → Nat × List Nat
  | [] => (0, [])
  | r :: rest =>
    if isBmpCodePoint r.1 then
      if isBmpCodePoint r.2 then
        ((pack rest).1 + 1, packBMP r.1 r.2 :: (pack rest).2)
      else (1, packBMP r.1 0xFFFF :: 0x10000 :: toUInt32 r.2 :: packNonBMP rest)
    else (0, packNonBMP (r :: rest))

/-- The assertions of the second loop of `build`. -/
def packNonBMPAsserts (ranges : List (Int × Int)) : Bool :=
  ranges.all fun r => isSupplementaryCodePoint r.1 && isSupplementaryCodePoint r.2

/-- The assertions of `build`. -/
def packAsserts : List (Int × Int) → Bool
  | [] => true
  | r :: rest =>
    if isBmpCodePoint r.1 then
      if isBmpCodePoint r.2 then packAsserts rest else packNonBMPAsserts rest
    else packNonBMPAsserts (r :: rest)

/-- `build`: the set; the builder is left sorted. -/
def build (b : CodePointSetBuilder) : CodePointSet :=
  { bmpSize := (pack b.tryToSortAndCompact.codePointRanges).1 % 0x10000
    buf := (pack b.tryToSortAndCompact.codePointRanges).2 }

def clear (b : CodePointSetBuilder) : CodePointSetBuilder := { b with codePointRanges := [] }

end CodePointSetBuilder

end Arsh
