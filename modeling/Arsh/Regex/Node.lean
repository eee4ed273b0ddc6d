import Arsh.Unicode.RadixLookup

/-!
# The lowered regex tree

The tree that `Lowering` hands to `CodeGen` (`regex/node.h`, `regex/transform.h`): non-capturing
groups are gone, modifiers sit in the nodes, and character classes are code point sets or string
sets. The four nodes that match a single code point (`Any`, `Char`, `FoldChar`, `CharSet`) are
one constructor, `atom`.
-/

namespace Arsh.Regex

/-- `CodePointSet`: closed ranges of code points. -/
structure CodePointSet where
  ranges : List (Nat × Nat)
  deriving DecidableEq, Repr

def CodePointSet.contains (s : CodePointSet) (c : Nat) : Bool :=
  s.ranges.any fun r => r.1 ≤ c && c ≤ r.2

/-- What the build generates from the Unicode data files, and the grapheme scanner that runs on
such tables. -/
structure Tables where
  /-- `doSimpleCaseFolding` -/
  simpleCaseFolding : Nat → Nat
  /-- `doSimpleCaseUnfold` -/
  simpleCaseUnfold : Nat → List Nat
  /-- `isExtendWord`, the property `ESRegexClassExtendWord` -/
  isExtendWord : Nat → Bool
  /-- the byte size of the first grapheme cluster of a text -/
  graphemeSize : List Nat → Nat
  /-- `ucp::getEmojiTrie` -/
  emojiTrie : RadixTree

inductive Atom where
  | any (dotAll : Bool)
  | char (codePoint : Nat)
  | foldChar (codePoint : Nat)
  | charSet (set : CodePointSet) (invert ignoreCase : Bool)
  deriving DecidableEq, Repr

/-- `BoundaryNode` with the modifiers it reads. -/
inductive Boundary where
  | start (multiline : Bool)
  | stop (multiline : Bool)
  | word (ignoreCase : Bool)
  | notWord (ignoreCase : Bool)
  deriving DecidableEq, Repr

/-- `StrSetNode`; `emoji` are the flags of `RGIEmojiSeq` without `CASE_IGNORE`. -/
structure StrSet where
  emoji : Nat
  radix : RadixTree
  chars : Option Atom
  ignoreCase : Bool
  /-- `StrSetBuilder` adds valid strings only -/
  texts : radix.Texts

/-- A lowered node. An `alt` of one element is that element or nothing. The `first` and `last`
of a repeat are the capture groups inside it, `first = 0` when there are none. -/
inductive Node where
  | empty
  | atom (a : Atom)
  | grapheme
  | boundary (b : Boundary)
  | backRef (index : Nat) (named ignoreCase : Bool)
  | repeated (loopIndex first last min max : Nat) (greedy : Bool) (p : Node)
  | seq (ps : List Node)
  | alt (ps : List Node)
  | lookAround (lookAhead negate : Bool) (p : Node)
  | group (index : Nat) (p : Node)
  | strSet (s : StrSet)

namespace Node

def unlimit : Nat := 2 ^ 32 - 1

def quantifierMax : Nat := 2 ^ 16 - 1

def isEmpty : Node → Bool
  | .empty => true
  | _ => false

/-- Induction over a tree, with one hypothesis for the whole list below a `seq` or an `alt`. -/
@[elab_as_elim]
theorem induct {motive : Node → Prop} (empty : motive .empty) (atom : ∀ a, motive (.atom a))
    (grapheme : motive .grapheme) (boundary : ∀ b, motive (.boundary b))
    (backRef : ∀ index named ignoreCase, motive (.backRef index named ignoreCase))
    (repeated : ∀ loopIndex first last min max greedy p, motive p →
      motive (.repeated loopIndex first last min max greedy p))
    (seq : ∀ ps, (∀ p ∈ ps, motive p) → motive (.seq ps))
    (alt : ∀ ps, (∀ p ∈ ps, motive p) → motive (.alt ps))
    (lookAround : ∀ lookAhead negate p, motive p → motive (.lookAround lookAhead negate p))
    (group : ∀ index p, motive p → motive (.group index p))
    (strSet : ∀ s, motive (.strSet s)) (p : Node) : motive p :=
  @Node.rec motive (fun ps => ∀ p ∈ ps, motive p) empty atom grapheme boundary backRef repeated seq
    alt lookAround group strSet (by simp) (fun p ps hp hps => by simpa using ⟨hp, hps⟩) p

/-! ## Indices

Every repeat has a loop counter of its own and every capture group an index of its own. -/

/-- The capture groups `first..last`, none when `first = 0`. -/
def groupRange (first last : Nat) : List Nat :=
  if first = 0 then [] else List.range' first (last + 1 - first)

mutual

/-- The groups that matching the node can touch; a repeat resets all of `first..last`. -/
def groups : Node → List Nat
  | .repeated _ first last _ _ _ _ => groupRange first last
  | .seq ps => groupsList ps
  | .alt ps => groupsList ps
  | .lookAround _ _ p => groups p
  | .group index p => index :: groups p
  | _ => []

def groupsList : List Node → List Nat
  | [] => []
  | p :: ps => groups p ++ groupsList ps

end

mutual

/-- The loop counters of the node. -/
def loops : Node → List Nat
  | .repeated loopIndex _ _ _ _ _ p => loopIndex :: loops p
  | .seq ps => loopsList ps
  | .alt ps => loopsList ps
  | .lookAround _ _ p => loops p
  | .group _ p => loops p
  | _ => []

def loopsList : List Node → List Nat
  | [] => []
  | p :: ps => loops p ++ loopsList ps

end

mutual

/-- The loop counters outside of look-arounds. -/
def shallowLoops : Node → List Nat
  | .repeated loopIndex _ _ _ _ _ p => loopIndex :: shallowLoops p
  | .seq ps => shallowLoopsList ps
  | .alt ps => shallowLoopsList ps
  | .group _ p => shallowLoops p
  | _ => []

def shallowLoopsList : List Node → List Nat
  | [] => []
  | p :: ps => shallowLoops p ++ shallowLoopsList ps

end

mutual

/-- What the parser and the lowering guarantee of a tree: characters are code points, indices
are not shared, a repeat covers the groups inside it and has `min ≤ max ≤ UNLIMIT`, and a grapheme
is never matched backwards. -/
def wf : Node → Bool → Bool
  | .atom (.char c), _ => decide (c ≤ UnicodeUtil.codePointMax)
  | .grapheme, forward => forward
  | .repeated loopIndex first last min max _ p, forward =>
    wf p forward && decide (p.groups.Nodup) && decide ((loopIndex :: p.loops).Nodup) &&
      p.groups.all (fun g => (groupRange first last).contains g) && decide (min ≤ max) &&
      decide (min ≤ quantifierMax ∧ max ≤ unlimit)
  | .seq ps, forward =>
    wfList ps forward && decide (groupsList ps).Nodup && decide (loopsList ps).Nodup
  | .alt ps, forward =>
    wfList ps forward && decide (groupsList ps).Nodup && decide (loopsList ps).Nodup &&
      !ps.isEmpty
  | .lookAround lookAhead _ p, _ => wf p lookAhead
  | .group index p, forward => wf p forward && decide (index :: p.groups).Nodup && index != 0
  | _, _ => true

def wfList : List Node → Bool → Bool
  | [], _ => true
  | p :: ps, forward => wf p forward && wfList ps forward

end

mutual

/-- A tree of plain pattern nodes: no back-references, grapheme clusters or string sets. -/
def plain : Node → Bool
  | .grapheme => false
  | .backRef .. => false
  | .strSet _ => false
  | .repeated _ _ _ _ _ _ p => plain p
  | .seq ps => plainList ps
  | .alt ps => plainList ps
  | .lookAround _ _ p => plain p
  | .group _ p => plain p
  | _ => true

def plainList : List Node → Bool
  | [] => true
  | p :: ps => plain p && plainList ps

end

end Node

end Arsh.Regex
