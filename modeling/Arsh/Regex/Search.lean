import Arsh.Regex.Vm

/-!
# The search of a node

`Node.search` says what the virtual machine does with a lowered node, without the code and the
stack: the node succeeds at a position, and when it is asked again it goes on to its next
success, until it fails. Captures are a global state that the successes and failures hand on,
as in the virtual machine, so that `Search.found` is resumed with the captures left behind by
whatever came after it.

`Search.bind` is sequencing and `Search.orElse` ordered choice.
-/

namespace Arsh.Regex

/-- Captures to be restored, the last one changed first. -/
abbrev Undo := List (Nat × Capture)

/-- Restores captures. -/
def applyUndo : Undo → Captures → Captures
  | [], captures => captures
  | (i, c) :: u, captures => applyUndo u (Function.update captures i c)

/-- The successes of a node, in order: the position and the captures of each, and the captures
set since the innermost look-around began. -/
inductive Search where
  | fail (captures : Captures)
  | found (iter : Nat) (captures : Captures) (undo : Undo) (next : Captures → Search)

namespace Search

/-- A single success. -/
def one (iter : Nat) (captures : Captures) (undo : Undo) : Search :=
  .found iter captures undo .fail

def ofOption (captures : Captures) (undo : Undo) : Option Nat → Search
  | some iter => .one iter captures undo
  | none => .fail captures

/-- First the successes of `r`, then those of `f`. -/
def orElse (r : Search) (f : Captures → Search) : Search :=
  match r with
  | .fail captures => f captures
  | .found iter captures undo next =>
    .found iter captures undo fun captures => (next captures).orElse f

/-- For each success of `r` those of `f` from there. -/
def bind (r : Search) (f : Nat → Captures → Undo → Search) : Search :=
  match r with
  | .fail captures => .fail captures
  | .found iter captures undo next =>
    (f iter captures undo).orElse fun captures => (next captures).bind f

-- The equations are made here, once, and not inside the proofs that unfold a definition.
attribute [local grind =] applyUndo orElse bind

/-- A search that restores captures when it fails. -/
def restoring (undo : Undo) (r : Search) : Search :=
  r.orElse fun captures => .fail (applyUndo undo captures)

theorem orElse_fail (r : Search) : r.orElse .fail = r := by
  induction r with
  | fail c => rfl
  | found p c u next ih =>
    rw [orElse]
    exact congrArg _ (funext ih)

theorem orElse_assoc (r : Search) (f g : Captures → Search) :
    (r.orElse f).orElse g = r.orElse fun c => (f c).orElse g := by
  induction r with
  | fail c => rfl
  | found p c u next ih =>
    rw [orElse, orElse, orElse]
    exact congrArg _ (funext ih)

theorem one_bind (p : Nat) (c : Captures) (u : Undo) (f : Nat → Captures → Undo → Search) :
    (one p c u).bind f = f p c u := by
  rw [one, bind]
  exact orElse_fail _

theorem bind_one (r : Search) : r.bind .one = r := by
  induction r with
  | fail c => rfl
  | found p c u next ih =>
    rw [bind, one, orElse]
    exact congrArg _ (funext ih)

theorem orElse_bind (r : Search) (f : Captures → Search) (g : Nat → Captures → Undo → Search) :
    (r.orElse f).bind g = (r.bind g).orElse fun c => (f c).bind g := by
  induction r with
  | fail c => rfl
  | found p c u next ih =>
    rw [orElse, bind, bind, orElse_assoc]
    exact congrArg _ (funext ih)

theorem bind_assoc (r : Search) (f g : Nat → Captures → Undo → Search) :
    (r.bind f).bind g = r.bind fun p c u => (f p c u).bind g := by
  induction r with
  | fail c => rfl
  | found p c u next ih =>
    rw [bind, orElse_bind, bind]
    exact congrArg _ (funext ih)

end Search

/-! ## Leaves -/

/-- Whether an atom matches a code point. -/
def Atom.test (T : Tables) : Atom → Nat → Bool
  | .any dotAll, c => dotAll || !isLineTerminator c
  | .char x, c => c == x
  | .foldChar x, c => T.simpleCaseFolding c == x
  | .charSet set invert ignoreCase, c =>
    set.contains (if ignoreCase then T.simpleCaseFolding c else c) != invert

/-- The position after an atom. -/
def Atom.iter (S : Subject) (a : Atom) (forward : Bool) (iter : Nat) : Option Nat :=
  match consume S.bytes forward iter with
  | some (c, iter) => if a.test S.tables c then some iter else none
  | none => none

def Boundary.test (S : Subject) (iter : Nat) : Boundary → Bool
  | .start multiline => isLineBoundary S.bytes false multiline iter
  | .stop multiline => isLineBoundary S.bytes true multiline iter
  | .word ignoreCase =>
    isWordBoundary S.bytes (if ignoreCase then S.tables.isExtendWord else isWord) false iter
  | .notWord ignoreCase =>
    isWordBoundary S.bytes (if ignoreCase then S.tables.isExtendWord else isWord) true iter

/-! ## String sets -/

namespace StrSet

def tree (s : StrSet) : Option RadixTree := if s.radix.empty then none else some s.radix

/-- The longest string of the set within `size` bytes, then the shorter ones, then the single
code points. The sizes decrease, so `fuel` only has to be larger than the first one. -/
def searchLoop (S : Subject) (s : StrSet) (forward : Bool) (iter : Nat) (undo : Undo) :
    Nat → Nat → Captures → Search
  | 0, _, captures => .fail captures
  | fuel + 1, size, captures =>
    if size != 0 && (consume S.bytes forward iter).isSome then
      let found := consumedSize S.tables forward s.emoji s.tree s.ignoreCase
        (radixRef S.bytes forward iter size)
      if found != 0 then
        .found (if forward then iter + found else iter - found) captures undo fun captures =>
          searchLoop S s forward iter undo fuel (shortenSize S.bytes forward iter found) captures
      else match s.chars with
        | some a => .ofOption captures undo (a.iter S forward iter)
        | none => .fail captures
    else .fail captures

/-- The positions `searchLoop` comes to. -/
def positionsLoop (S : Subject) (s : StrSet) (forward : Bool) (iter : Nat) : Nat → Nat → List Nat
  | 0, _ => []
  | fuel + 1, size =>
    if size != 0 && (consume S.bytes forward iter).isSome then
      let found := consumedSize S.tables forward s.emoji s.tree s.ignoreCase
        (radixRef S.bytes forward iter size)
      if found != 0 then
        (if forward then iter + found else iter - found) ::
          positionsLoop S s forward iter fuel (shortenSize S.bytes forward iter found)
      else match s.chars with
        | some a => (a.iter S forward iter).toList
        | none => []
    else []

/-- The byte size a string of the set can have at most. -/
def maxSize (S : Subject) (s : StrSet) (forward : Bool) (iter : Nat) : Nat :=
  remainSize S.bytes forward
    (maxCodePoints S.tables s.emoji (s.tree.map (·.maxCodePointCount % 2 ^ 16))) iter

def search (S : Subject) (s : StrSet) (forward : Bool) (iter : Nat) (captures : Captures)
    (undo : Undo) : Search :=
  let size := s.maxSize S forward iter
  s.searchLoop S forward iter undo (size + 1) size captures

/-- The positions after the strings and code points of the set, in the order in which they are
tried. -/
def positions (S : Subject) (s : StrSet) (forward : Bool) (iter : Nat) : List Nat :=
  let size := s.maxSize S forward iter
  s.positionsLoop S forward iter (size + 1) size

end StrSet

/-! ## Loops -/

/-- `ResetCaptures`. -/
def resetAll : List Nat → Captures → Captures
  | [], captures => captures
  | g :: gs, captures => resetAll gs (Function.update captures g .unset)

/-- The captures that `ResetCaptures` saves. -/
def savedAll : List Nat → Captures → Undo
  | [], _ => []
  | g :: gs, captures => savedAll gs (Function.update captures g .unset) ++ [(g, captures g)]

/-- A loop at its `count`-th round, which began at `last`. Every round but the first `min` moves
the position, so `fuel` only has to be larger than `min` and the distance to the end. With
`counted` a loop without a limit ends after `UNLIMIT` rounds, where the counter of the virtual
machine does; this takes a stack of as many entries. -/
def loopSearch (counted : Bool) (min max : Nat) (greedy : Bool) (groups : List Nat)
    (body : Nat → Captures → Undo → Search) :
    Nat → Nat → Nat → Nat → Captures → Undo → Search
  | 0, _, _, _, captures, _ => .fail captures
  | fuel + 1, count, last, iter, captures, undo =>
    let enter (captures : Captures) : Search :=
      let saved := savedAll groups captures
      ((body iter (resetAll groups captures) (saved ++ undo)).bind fun iter' captures undo =>
        loopSearch counted min max greedy groups body fuel (count + 1) iter iter' captures undo).restoring
          saved
    if last = iter && decide (count > min) then .fail captures
    else if count < min then enter captures
    else if count = max && (counted || max != Node.unlimit) then .one iter captures undo
    else if greedy then (enter captures).orElse fun captures => .one iter captures undo
    else .found iter captures undo enter

/-- The end of a capture group. -/
def closeCapture (forward : Bool) (iter : Nat) (c : Capture) : Capture :=
  if forward then ⟨c.offset, sub32 iter c.offset⟩ else ⟨iter, sub32 c.endOffset iter⟩

/-- The search of a look-around, given that of its body. With `keep` a positive look-around
restores the captures it has set when the search goes back past it; the virtual machine does
not. -/
def lookAroundSearch (keep negate : Bool) (body : Search) (iter : Nat) (undo : Undo) : Search :=
  match body with
  | .fail captures => if negate then .one iter captures undo else .fail captures
  | .found _ captures inner _ =>
    if negate then .fail (applyUndo inner captures)
    else if keep then (Search.one iter captures (inner ++ undo)).restoring inner
    else .one iter captures undo

/-! ## Nodes -/

namespace Node

mutual

/-- The search of a node from a position. -/
def search (counted : Bool) (S : Subject) (keep : Bool) (forward : Bool) :
    Node → Nat → Captures → Undo → Search
  | .empty, iter, captures, undo => .one iter captures undo
  | .atom a, iter, captures, undo => .ofOption captures undo (a.iter S forward iter)
  | .grapheme, iter, captures, undo =>
    .ofOption captures undo
      (if iter ≠ S.bytes.length then some (iter + S.tables.graphemeSize (S.bytes.drop iter))
      else none)
  | .boundary b, iter, captures, undo =>
    if b.test S iter then .one iter captures undo else .fail captures
  | .backRef index named ignoreCase, iter, captures, undo =>
    .ofOption captures undo (backRefIter S captures forward index named ignoreCase iter)
  | .repeated _ first last min max greedy p, iter, captures, undo =>
    loopSearch counted min max greedy (groupRange first last) (search counted S keep forward p)
      (min + S.bytes.length + 2) 0 0 iter captures undo
  | .seq ps, iter, captures, undo =>
    if forward then searchSeq counted S keep ps iter captures undo
    else searchLBSeq counted S keep ps iter captures undo
  | .alt ps, iter, captures, undo =>
    match ps with
    | [p] => (search counted S keep forward p iter captures undo).orElse fun captures =>
        .one iter captures undo
    | ps => searchAlt counted S keep forward ps iter captures undo
  | .lookAround lookAhead negate p, iter, captures, undo =>
    lookAroundSearch keep negate (search counted S keep lookAhead p iter captures []) iter undo
  | .group index p, iter, captures, undo =>
    ((search counted S keep forward p iter (Function.update captures index ⟨iter, 0⟩)
      ((index, .unset) :: undo)).bind fun iter captures undo =>
        .one iter (Function.update captures index (closeCapture forward iter (captures index)))
          undo).restoring [(index, .unset)]
  | .strSet s, iter, captures, undo => s.search S forward iter captures undo

def searchSeq (counted : Bool) (S : Subject) (keep : Bool) : List Node → Nat → Captures → Undo → Search
  | [], iter, captures, undo => .one iter captures undo
  | p :: ps, iter, captures, undo =>
    (search counted S keep true p iter captures undo).bind (searchSeq counted S keep ps)

def searchLBSeq (counted : Bool) (S : Subject) (keep : Bool) : List Node → Nat → Captures → Undo → Search
  | [], iter, captures, undo => .one iter captures undo
  | p :: ps, iter, captures, undo =>
    (searchLBSeq counted S keep ps iter captures undo).bind (search counted S keep false p)

def searchAlt (counted : Bool) (S : Subject) (keep : Bool) (forward : Bool) :
    List Node → Nat → Captures → Undo → Search
  | [], _, captures, _ => .fail captures
  | [p], iter, captures, undo => search counted S keep forward p iter captures undo
  | p :: ps, iter, captures, undo =>
    (search counted S keep forward p iter captures undo).orElse fun captures =>
      searchAlt counted S keep forward ps iter captures undo

end

theorem searchSeq_append (counted : Bool) (S : Subject) (keep : Bool) (ps qs : List Node) (iter : Nat)
    (captures : Captures) (undo : Undo) :
    searchSeq counted S keep (ps ++ qs) iter captures undo =
      (searchSeq counted S keep ps iter captures undo).bind (searchSeq counted S keep qs) := by
  induction ps generalizing iter captures undo with
  | nil => exact (Search.one_bind ..).symm
  | cons p ps ih =>
    rw [List.cons_append, searchSeq, searchSeq, Search.bind_assoc]
    exact congrArg _ (funext fun p => funext fun c => funext fun u => ih p c u)

theorem searchLBSeq_append (counted : Bool) (S : Subject) (keep : Bool) (ps qs : List Node) (iter : Nat)
    (captures : Captures) (undo : Undo) :
    searchLBSeq counted S keep (ps ++ qs) iter captures undo =
      (searchLBSeq counted S keep qs iter captures undo).bind (searchLBSeq counted S keep ps) := by
  induction ps with
  | nil =>
    show _ = Search.bind _ .one
    rw [Search.bind_one, List.nil_append]
  | cons p ps ih =>
    rw [List.cons_append, searchLBSeq, ih, Search.bind_assoc]
    rfl

end Node

end Arsh.Regex
