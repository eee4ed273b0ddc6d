import Arsh.Misc.Unicode

/-!
# Incremental changes of a source

`tools/analyzer/source.cpp`: how the server turns the range of a change, whose characters are
UTF-16 units, into a token of its UTF-8 text, and replaces it. Texts are lists of bytes.
-/

namespace Arsh.Lsp

open UnicodeUtil

/-- Line and character are 0-based and based on UTF-16. -/
structure Position where
  line : Int
  character : Int
  deriving DecidableEq, Repr

/-- `stop` is the `end` of the source (exclusive). -/
structure Range where
  start : Position
  stop : Position
  deriving DecidableEq, Repr

/-- Without a range `text` is the full content. `rangeLength` is deprecated. -/
structure TextDocumentContentChangeEvent where
  range : Option Range
  rangeLength : Option Nat
  text : List Nat
  deriving DecidableEq, Repr

structure Token where
  pos : Nat
  size : Nat
  deriving DecidableEq, Repr

def uint32Max : Nat := 0xFFFFFFFF

/-- The byte size of the next character and its number of UTF-16 units; an invalid byte is one
character of one unit. -/
def nextChar (iter : List Nat) : Nat × Nat :=
  let (byteSize, codePoint) := utf8ToCodePoint iter
  (if byteSize = 0 then 1 else byteSize,
    match codePoint with
    | none => 1
    | some c => if c ≤ 0xFFFF then 1 else 2)

/-- The loop of `utf16Len`; `fuel` bounds the characters left. -/
def utf16LenLoop : Nat → List Nat → Nat → Nat
  | 0, _, count => count
  | fuel + 1, iter, count =>
    if iter = [] then count
    else utf16LenLoop fuel (iter.drop (nextChar iter).1) (count + (nextChar iter).2)

/-- `utf16Len`. No text of at most `uint32Max` bytes has more units than that. -/
def utf16Len (ref : List Nat) : Nat := utf16LenLoop ref.length ref 0

/-- `StringRef::find` of a newline from `pos` on. -/
def findNewline (content : List Nat) (pos : Nat) : Option Nat :=
  let n := ((content.drop pos).takeWhile (· ≠ 10)).length
  if pos + n < content.length then some (pos + n) else none

/-- The loop of `findLineStartPos`: `count` lines more from `pos`. -/
def findLineStartLoop (content : List Nat) : Nat → Nat → Nat
  | 0, pos => pos
  | count + 1, pos =>
    match findNewline content pos with
    | none => pos
    | some ret => findLineStartLoop content count (ret + 1)

def findLineStartPos (content : List Nat) (count : Nat) : Nat := findLineStartLoop content count 0

/-- The loop of `count` from `iter`, after `i` units: the bytes it consumes. -/
def countLoop (count : Nat) : Nat → List Nat → Nat → Nat
  | 0, _, _ => 0
  | fuel + 1, iter, i =>
    if i < count ∧ iter ≠ [] then
      (nextChar iter).1 + countLoop count fuel (iter.drop (nextChar iter).1) (i + (nextChar iter).2)
    else 0

/-- `count`: the position `count` units after `offset`, on a line that includes its newline. -/
def count (content : List Nat) (offset count : Nat) : Nat :=
  let limit := offset + ((content.drop offset).takeWhile (· ≠ 10)).length
  let line := (content.drop offset).take (limit + 1 - offset)
  offset + countLoop count line.length line 0

def toTokenPos (content : List Nat) (position : Position) : Option Nat :=
  if position.line < 0 ∨ position.character < 0 ∨ uint32Max < content.length then none
  else
    let offset := findLineStartPos content position.line.toNat
    let pos := count content offset position.character.toNat
    if uint32Max < pos then none else some pos

/-- `toToken`. The size is an unsigned difference. -/
def toToken (content : List Nat) (range : Range) : Option Token :=
  match toTokenPos content range.start with
  | none => none
  | some start =>
    match toTokenPos content range.stop with
    | none => none
    | some stop => some ⟨start, (stop + (uint32Max + 1) - start) % (uint32Max + 1)⟩

/-- `std::string::replace`. -/
def replace (content : List Nat) (pos size : Nat) (text : List Nat) : List Nat :=
  content.take pos ++ text ++ content.drop (pos + size)

/-- `applyChange`: whether the change is accepted, and the content after it. -/
def applyChange (content : List Nat) (change : TextDocumentContentChangeEvent) :
    Bool × List Nat :=
  match change.range with
  | none => (true, change.text)
  | some range =>
    match toToken content range with
    | none => (false, content)
    | some token =>
      let ref := (content.drop token.pos).take token.size
      match change.rangeLength with
      | none => (true, replace content token.pos token.size change.text)
      | some rangeLength =>
        if utf16Len ref ≠ rangeLength then (false, content)
        else (true, replace content token.pos token.size change.text)

end Arsh.Lsp
