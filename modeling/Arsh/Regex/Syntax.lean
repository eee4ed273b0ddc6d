import Arsh.Misc.Unicode

/-!
# The syntax tree of a pattern

The nodes that `Parser` makes (`regex/node.h`), before the lowering. Tokens only serve the
positions of errors and are left out. An `AltNode` that is still open ends in a null pointer; it
is part of the parser's frame here, and the tree has finished nodes only.
-/

namespace Arsh.Regex

inductive Mode where
  | bmp
  | unicode
  | unicodeSet
  deriving DecidableEq, Repr

def Mode.isEitherUnicodeMode : Mode → Bool
  | .bmp => false
  | .unicode | .unicodeSet => true

/-- `Modifier`, a set of flags. -/
structure Modifier where
  ignoreCase : Bool
  multiline : Bool
  dotAll : Bool
  deriving DecidableEq, Repr

def Modifier.none : Modifier := ⟨false, false, false⟩

structure Flag where
  mode : Mode
  modifiers : Modifier
  deriving DecidableEq, Repr

/-- `PropertyNode::Type` with the data of its node; `range`, `intersect` and `subtract` are the
operators inside of a character class. -/
inductive Property where
  | range
  | intersect
  | subtract
  | digit
  | notDigit
  | word
  | notWord
  | space
  | notSpace
  | unicode (name value : Nat)
  | notUnicode (name value : Nat)
  | emoji (seq : Nat)
  | grapheme
  deriving DecidableEq, Repr

def Property.isCharClassOp : Property → Bool
  | .range | .intersect | .subtract => true
  | _ => false

def Property.mayContainString : Property → Bool
  | .emoji _ | .grapheme => true
  | _ => false

/-- `CharClassNode::Type`. -/
inductive CharClassType where
  | union
  | range
  | intersect
  | subtract
  deriving DecidableEq, Repr

/-- `BoundaryNode::Type`. -/
inductive BoundaryType where
  | start
  | stop
  | word
  | notWord
  deriving DecidableEq, Repr

/-- `LookAroundNode::Type`. -/
inductive LookAroundType where
  | lookAhead
  | lookAheadNot
  | lookBehind
  | lookBehindNot
  deriving DecidableEq, Repr

/-- `GroupNode::Type`. -/
inductive GroupType where
  | capture
  | nonCapture
  | modifier
  deriving DecidableEq, Repr

/-- A node. The `name` of a back reference is empty when it is not a named one; the `first` and
`last` of a repeat are `firstGroupIndex` and `lastGroupIndex`. -/
inductive Tree where
  | empty
  | any
  | char (codePoint : Nat)
  | charClass (type : CharClassType) (invert mayContainStrings : Bool) (chars : List Tree)
  | property (p : Property)
  | boundary (type : BoundaryType)
  | backRef (index : Nat) (name : List Nat)
  | repeated (loopIndex first last min max : Nat) (greedy : Bool) (pattern : Tree)
  | seq (patterns : List Tree)
  | alt (patterns : List Tree)
  | lookAround (type : LookAroundType) (pattern : Tree)
  | group (type : GroupType) (groupIndex : Nat) (set unset : Modifier) (pattern : Tree)
  deriving Repr

namespace Tree

/-- Induction over a tree, with one hypothesis for the whole list below a node. -/
@[elab_as_elim]
theorem induct {motive : Tree → Prop} (empty : motive .empty) (any : motive .any)
    (char : ∀ c, motive (.char c))
    (charClass : ∀ type invert strings ps, (∀ p ∈ ps, motive p) →
      motive (.charClass type invert strings ps))
    (property : ∀ p, motive (.property p)) (boundary : ∀ type, motive (.boundary type))
    (backRef : ∀ index name, motive (.backRef index name))
    (repeated : ∀ loopIndex first last min max greedy p, motive p →
      motive (.repeated loopIndex first last min max greedy p))
    (seq : ∀ ps, (∀ p ∈ ps, motive p) → motive (.seq ps))
    (alt : ∀ ps, (∀ p ∈ ps, motive p) → motive (.alt ps))
    (lookAround : ∀ type p, motive p → motive (.lookAround type p))
    (group : ∀ type groupIndex set unset p, motive p →
      motive (.group type groupIndex set unset p)) (t : Tree) : motive t :=
  @Tree.rec motive (fun ps => ∀ p ∈ ps, motive p) empty any char charClass property boundary
    backRef repeated seq alt lookAround group (by simp)
    (fun p ps hp hps => by simpa using ⟨hp, hps⟩) t

def isEmpty : Tree → Bool
  | .empty => true
  | _ => false

def isSeq : Tree → Bool
  | .seq _ => true
  | _ => false

def isCharClassOp : Tree → Bool
  | .property p => p.isCharClassOp
  | _ => false

/-- `mayContainStringsImpl`. -/
def mayContainStrings : Tree → Bool
  | .property p => p.mayContainString
  | .charClass _ _ strings _ => strings
  | .alt ps => ps.any fun p => p.isEmpty || p.isSeq
  | _ => false

mutual

/-- `countGroupsImpl`: the first and the last capture group, `0` for none. -/
def countGroupsFrom (count : Nat × Nat) : Tree → Nat × Nat
  | .repeated _ first last _ _ _ _ =>
    if first ≠ 0 then (if count.1 = 0 then first else count.1, last) else count
  | .seq ps => countGroupsList count ps
  | .alt ps => countGroupsList count ps
  | .lookAround _ p => countGroupsFrom count p
  | .group .capture groupIndex _ _ p =>
    countGroupsFrom (if count.1 = 0 then groupIndex else count.1, groupIndex) p
  | .group _ _ _ _ p => countGroupsFrom count p
  | _ => count

def countGroupsList (count : Nat × Nat) : List Tree → Nat × Nat
  | [] => count
  | p :: ps => countGroupsList (countGroupsFrom count p) ps

end

def countGroups (p : Tree) : Nat × Nat := countGroupsFrom (0, 0) p

/-- `RepeatNode`'s constructor. -/
def repeatNode (loopIndex : Nat) (p : Tree) (min max : Nat) (greedy : Bool) : Tree :=
  .repeated loopIndex p.countGroups.1 p.countGroups.2 min max greedy p

def unlimit : Nat := 2 ^ 32 - 1

def quantifierMax : Nat := 2 ^ 16 - 1

def loopIndexMax : Nat := 2 ^ 16 - 1

def captureGroupIndexMax : Nat := 2 ^ 16 - 1

/-- What a sequence of items is, empty, one item or a `SeqNode` (`Parser::append`). -/
def ofItems : List Tree → Tree
  | [] => .empty
  | [p] => p
  | ps => .seq ps

/-- What finished alternatives and the items of the last one are. -/
def ofAlternatives (alternatives items : List Tree) : Tree :=
  if alternatives = [] then ofItems items else .alt (alternatives ++ [ofItems items])

end Tree

/-! ## Character classes -/

/-- A `CharClassNode` that is still open. -/
structure CharClass where
  type : CharClassType
  invert : Bool
  chars : List Tree

namespace CharClass

def add (cls : CharClass) (node : Tree) : CharClass := { cls with chars := cls.chars ++ [node] }

def isUnionOrRange (cls : CharClass) : Bool := cls.type = .union || cls.type = .range

def hasUnterminatedCharOp (cls : CharClass) : Bool :=
  match cls.chars.getLast? with
  | some node => node.isCharClassOp
  | none => false

def isCompatible (cls : CharClass) (other : CharClassType) : Bool :=
  cls.chars.length = 1 || cls.type = other || (cls.type = .union && other = .range) ||
    (cls.type = .range && other = .union)

/-- `mayContainStrings` as `finalize` sets it. -/
def mayContainStrings (cls : CharClass) : Bool :=
  match cls.type with
  | .union | .range => cls.chars.any Tree.mayContainStrings
  | .intersect => cls.chars.all fun node => node.isCharClassOp || node.mayContainStrings
  | .subtract => (cls.chars.head?.map Tree.mayContainStrings).getD false

/-- `finalize`: the node, unless it is a negated class that may contain strings. -/
def finalize (cls : CharClass) : Option Tree :=
  if cls.invert && cls.mayContainStrings then none
  else some (.charClass cls.type cls.invert cls.mayContainStrings cls.chars)

end CharClass

end Arsh.Regex
