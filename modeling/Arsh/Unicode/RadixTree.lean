import Arsh.Misc.Unicode

/-!
# The radix tree of strings

`RadixTree` of `unicode/radix_tree.h`: a string set in which every string carries a non-zero
property byte. `PackedRadixTree` is the same tree laid out in bytes; the searches it offers are
defined on the tree here, and `serialize` keeps the one thing its layout can do wrong, namely
not having enough bytes for a child offset.
-/

namespace Arsh

open UnicodeUtil

/-- `RadixTree`: the bytes shared by all strings below, the property of the string that ends
here (`0` for none), and the children by their first byte. -/
inductive RadixTree where
  | node (pre : List Nat) (property : Nat) (children : List (Nat × RadixTree))

namespace RadixTree

def maxStringSize : Nat := 2 ^ 15 - 1

/-- A tree with no string. -/
def nil : RadixTree := .node [] 0 []

def pre : RadixTree → List Nat
  | .node pre _ _ => pre

def property : RadixTree → Nat
  | .node _ property _ => property

def children : RadixTree → List (Nat × RadixTree)
  | .node _ _ children => children

def empty (t : RadixTree) : Bool := t.pre.isEmpty && t.children.isEmpty

inductive AddStatus where
  | ok
  | added
  | empty
  | noneProperty
  | tooLarge
  deriving DecidableEq, Repr

/-- The size of `findCommonPrefix`. -/
def commonSize : List Nat → List Nat → Nat
  | x :: xs, y :: ys => if x = y then commonSize xs ys + 1 else 0
  | _, _ => 0

mutual

/-- The loop of `add`, for a non-empty `seq`. -/
def addLoop : RadixTree → List Nat → Nat → AddStatus × RadixTree
  | .node pre property children, seq, p =>
    let common := commonSize pre seq
    let rest := seq.drop common
    if common = pre.length then
      match rest with
      | [] =>
        if property = 0 then (.ok, .node pre p children)
        else (.added, .node pre property children)
      | b :: _ =>
        if pre.isEmpty && children.isEmpty && property == 0 then (.ok, .node rest p [])
        else
          let (status, children) := addChild children b rest p
          (status, .node pre property children)
    else
      -- split: the old node becomes the child of its own common part
      let child := RadixTree.node (pre.drop common) property children
      let key := (pre.drop common).headD 0
      match rest with
      | [] => (.ok, .node (pre.take common) p [(key, child)])
      | b :: _ => (.ok, .node (pre.take common) 0 [(key, child), (b, .node rest p [])])

/-- `getOrCreate` followed by the next round of the loop; a new child takes all of `rest`. -/
def addChild : List (Nat × RadixTree) → Nat → List Nat → Nat → AddStatus × List (Nat × RadixTree)
  | [], b, rest, p => (.ok, [(b, .node rest p [])])
  | (k, t) :: children, b, rest, p =>
    if k = b then
      let (status, t) := addLoop t rest p
      (status, (k, t) :: children)
    else
      let (status, children) := addChild children b rest p
      (status, (k, t) :: children)

end

def add (t : RadixTree) (seq : List Nat) (p : Nat) : AddStatus × RadixTree :=
  if seq.isEmpty then (.empty, t)
  else if p = 0 then (.noneProperty, t)
  else if seq.length > maxStringSize then (.tooLarge, t)
  else t.addLoop seq p

mutual

/-- The loop of `PackedRadixTree::findLongestMatched`: `consumed` bytes have been matched, and
`latest` is the longest string found among their prefixes. -/
def findLongestLoop : RadixTree → List Nat → Nat → Nat × Nat → Nat × Nat
  | .node pre property children, ref, consumed, latest =>
    if pre.isPrefixOf ref then
      let consumed := consumed + pre.length
      let latest := if property = 0 then latest else (consumed, property)
      match ref.drop pre.length with
      | [] => latest
      | b :: rest => findLongestChild children b (b :: rest) consumed latest
    else latest

def findLongestChild : List (Nat × RadixTree) → Nat → List Nat → Nat → Nat × Nat → Nat × Nat
  | [], _, _, _, latest => latest
  | (k, t) :: children, b, ref, consumed, latest =>
    if k = b then findLongestLoop t ref consumed latest
    else findLongestChild children b ref consumed latest

end

/-- `PackedRadixTree::findLongestMatched`: the size and the property of the longest string of
the tree that `ref` starts with, `(0, 0)` when there is none. -/
def findLongestMatched (t : RadixTree) (ref : List Nat) : Nat × Nat :=
  t.findLongestLoop ref 0 (0, 0)

def find (t : RadixTree) (ref : List Nat) : Nat :=
  let (size, p) := t.findLongestMatched ref
  if ref.length = size then p else 0

mutual

/-- `iterate`: every string with its property. -/
def iterate : List Nat → RadixTree → List (List Nat × Nat)
  | buf, .node pre property children =>
    (if property = 0 then [] else [(buf ++ pre, property)]) ++ iterateChildren (buf ++ pre) children

def iterateChildren : List Nat → List (Nat × RadixTree) → List (List Nat × Nat)
  | _, [] => []
  | buf, (_, t) :: children => iterate buf t ++ iterateChildren buf children

end

/-- The count of `maxCodePointCount` for one string: a byte that starts no valid character
counts as one. -/
def codePointCount : Nat → List Nat → Nat
  | 0, _ => 0
  | _, [] => 0
  | fuel + 1, ref@(_ :: _) => codePointCount fuel (ref.drop (max 1 (wtf8ValidateChar ref))) + 1

def maxCodePointCount (t : RadixTree) : Nat :=
  ((t.iterate []).map fun e => codePointCount e.1.length e.1).foldl max 0

/-! ## Serialisation -/

def packedSize (t : RadixTree) (childOffsetBytes : Nat) : Nat :=
  3 + t.pre.length + 1 + t.children.length * childOffsetBytes

mutual

def nodeCount : RadixTree → Nat
  | .node _ _ children => nodeCounts children + 1

def nodeCounts : List (Nat × RadixTree) → Nat
  | [] => 0
  | (_, t) :: children => nodeCount t + nodeCounts children

end

/-- The children in the order of their first bytes. -/
def sortedChildren (t : RadixTree) : List RadixTree :=
  (t.children.map (·.2)).mergeSort fun x y => x.pre.headD 0 ≤ y.pre.headD 0

/-- Writing the child offsets of one node: the offset after the last target so far, `none` when
it does not fit in `childOffsetBytes`. -/
def childOffsets (childOffsetBytes : Nat) : List RadixTree → Nat → Option Nat
  | [], next => some next
  | t :: ts, next =>
    if next > 2 ^ (8 * childOffsetBytes) - 1 then none
    else childOffsets childOffsetBytes ts (next + t.packedSize childOffsetBytes)

/-- The breadth-first loop of `serialize`; `next` is the offset after the last target. Every
round takes one node off the queue, so `fuel` only has to be the number of nodes. -/
def serializeLoop (childOffsetBytes : Nat) : Nat → List RadixTree → Nat → Bool
  | 0, _, _ => true
  | _, [], _ => true
  | fuel + 1, t :: queue, next =>
    match childOffsets childOffsetBytes t.sortedChildren next with
    | none => false
    | some next => serializeLoop childOffsetBytes fuel (queue ++ t.sortedChildren) next

/-- `serialize`: whether the tree can be laid out with child offsets of two or three bytes. -/
def serialize (t : RadixTree) : Bool :=
  serializeLoop 2 t.nodeCount [t] (1 + t.packedSize 2) ||
    serializeLoop 3 t.nodeCount [t] (1 + t.packedSize 3)

end RadixTree

end Arsh
