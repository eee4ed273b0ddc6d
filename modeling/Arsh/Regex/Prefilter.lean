import Arsh.Regex.Vm

/-!
# The prefilter

`createFirstBitSet` of `regex/prefilter.cpp`: the bytes a match can begin with, read off the
instructions; `searchPrefix` skips the positions where none of them stands. A set of bytes is a
list, an empty one means that nothing is known.
-/

namespace Arsh.Regex

open UnicodeUtil

/-- `fill` for one code point: the first byte of it, and with `fold` of what folds to it. -/
def fillCodePoint (T : Tables) (fold : Bool) (c : Nat) : List Nat :=
  (codePointToUtf8 c).take 1 ++
    if fold then (T.simpleCaseUnfold c).flatMap fun d => (codePointToUtf8 d).take 1 else []

/-- `fill` for a code point set. -/
def fillSet (T : Tables) (fold : Bool) (set : CodePointSet) : List Nat :=
  set.ranges.flatMap fun r => (List.range' r.1 (r.2 + 1 - r.1)).flatMap (fillCodePoint T fold)

/-- `fill` for an ascii set. -/
def fillAscii (T : Tables) (fold : Bool) (set : AsciiSet) : List Nat :=
  ((List.range 128).filter set.contains).flatMap (fillCodePoint T fold)

/-- `fill` for a string, by its first code point. -/
def fillString (T : Tables) (fold : Bool) (str : List Nat) : List Nat :=
  fillCodePoint T fold (decodeFirst str)

/-- `fill` for the matcher of a character set. -/
def fillMatcher (T : Tables) (fold : Bool) : Matcher → List Nat
  | .ascii set => fillAscii T fold set
  | .codePointSet set => fillSet T fold set
  | _ => []

/-- `fill` for the emoji sequences with `flags`. -/
def fillEmoji (T : Tables) (fold : Bool) (flags : Nat) : List Nat :=
  ((T.emojiTrie.iterate []).filter fun e => hasFlag (rawFlags flags fold) e.2).flatMap fun e =>
    fillString T fold e.1

/-- `fill` for the strings of a radix tree. -/
def fillRadix (T : Tables) (fold : Bool) (tree : RadixTree) : List Nat :=
  (tree.iterate []).flatMap fun e => fillString T fold e.1

/-- The bytes of a string set instruction. -/
def fillRadixIns (T : Tables) (re : CompiledRegex) (ins : RadixIns) : List Nat :=
  (if ins.hasEmoji then fillEmoji T ins.ignoreCase ins.emoji else []) ++
    match re.radix ins with
    | some m => fillRadix T ins.ignoreCase m.asRadixTree
    | none => []

/-- `FirstBytesCollector::collect` from `begin` to `stop`; none when the code between them may
consume nothing or anything. Every round moves `begin` forwards, so `fuel` only has to be larger
than the number of instructions. -/
def collect (T : Tables) (re : CompiledRegex) : Nat → Nat → Nat → Option (List Nat)
  | 0, _, _ => none
  | fuel + 1, begin, stop =>
    if begin = stop then none
    else match re.instSeq[begin]? with
      | none => none
      | some ins =>
        match ins with
        | .nop | .matchIns | .jump _ | .word _ | .iword _ | .prepareRadix | .beginCapture _
        | .endCapture _ | .resetCaptures .. | .endLoop _ | .endLookAround =>
          collect T re fuel (begin + 1) stop
        | .alt second => do
          let first ← collect T re fuel (begin + 1) second
          let rest ← collect T re fuel second stop
          return first ++ rest
        | .char c => some (fillCodePoint T false c)
        | .ichar c => some (fillCodePoint T true c)
        | .charSet index invert =>
          if !invert then some (fillMatcher T false (re.matcher index)) else none
        | .icharSet index invert =>
          if !invert then some (fillMatcher T true (re.matcher index)) else none
        | .radixOrEmoji ins => do
          let bytes := fillRadixIns T re ins
          let rest ← if ins.nextOffset != 0 then collect T re fuel (begin + 1) stop else some []
          return bytes ++ rest
        | .string index => some (fillString T false (re.matcher index).asStrRef)
        | .beginLoop ins =>
          if ins.min > 0 then collect T re fuel (begin + 1) ins.outer else none
        | .beginLookAround target _ => collect T re fuel target stop
        | _ => none

def createFirstBitSet (T : Tables) (re : CompiledRegex) : List Nat :=
  (collect T re (re.instSeq.length + 1) 0 re.instSeq.length).getD []

/-- `CodeGen::operator()`, for a tree that has been lowered. -/
def CodeGen.compile (T : Tables) (named : List NamedCaptureEntry) (p : Node) :
    Option CompiledRegex := do
  let (code, matchers) ← generate true 0 [] p
  let re : CompiledRegex := { instSeq := code ++ [.matchIns], matchers, firstBitSet := [], named }
  return { re with firstBitSet := createFirstBitSet T re }

end Arsh.Regex
