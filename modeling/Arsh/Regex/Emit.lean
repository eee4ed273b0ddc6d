import Arsh.Regex.Node

/-!
# Code generation

`CodeGen` of `regex/emit.cpp`. Addresses count instructions, not bytes. The source reserves room
for an instruction whose target it does not know yet and writes it afterwards; here the code of
the operand is generated first and the instruction is put in front of it, at the same place.
-/

namespace Arsh.Regex

open UnicodeUtil

/-! ## Matchers -/

/-- `AsciiSet`: bit `c` for code point `c`. -/
structure AsciiSet where
  bits : Nat
  deriving DecidableEq, Repr

namespace AsciiSet

def add (s : AsciiSet) (c : Nat) : AsciiSet :=
  if c ≤ 127 then { bits := s.bits ||| 2 ^ c } else s

def contains (s : AsciiSet) (c : Nat) : Bool := decide (c ≤ 127) && s.bits.testBit c

end AsciiSet

/-- `Matcher`: what an instruction refers to by index. -/
inductive Matcher where
  | ascii (set : AsciiSet)
  | codePointSet (set : CodePointSet)
  | radix (tree : RadixTree) (maxCodePointCount : Nat)
  | string (bytes : List Nat)

namespace Matcher

def withinAsciiSet (c : Nat) : Bool := decide (8 ≤ c) && decide (c ≤ 127)

/-- The constructor from an `AsciiSet`: the first eight bits hold the matcher's type. -/
def ofAsciiSet (s : AsciiSet) : Matcher := .ascii { bits := s.bits / 2 ^ 8 * 2 ^ 8 }

def contains : Matcher → Nat → Bool
  | .ascii s, c => s.contains c
  | .codePointSet s, c => s.contains c
  | _, _ => false

def asStrRef : Matcher → List Nat
  | .string bytes => bytes
  | _ => []

def asRadixTree : Matcher → RadixTree
  | .radix tree _ => tree
  | _ => .nil

/-- `getMaxCodePointCount` of `asRadixTree`. -/
def maxCodePointCount : Matcher → Nat
  | .radix _ count => count
  | _ => 0

end Matcher

def tryToGenerateAsciiSet (set : CodePointSet) : Option AsciiSet :=
  if set.ranges.all fun r => Matcher.withinAsciiSet r.1 && Matcher.withinAsciiSet r.2 then
    some (set.ranges.foldl
      (fun s r => (List.range' r.1 (r.2 + 1 - r.1)).foldl AsciiSet.add s) { bits := 0 })
  else none

/-! ## Instructions -/

/-- The operands of `RadixOrEmojiIns` and `LBRadixOrEmojiIns`. -/
structure RadixIns where
  emoji : Nat
  ignoreCase : Bool
  hasRadix : Bool
  index : Nat
  nextOffset : Nat
  deriving DecidableEq, Repr

def RadixIns.hasEmoji (ins : RadixIns) : Bool := ins.emoji != 0

/-- The operands of `BeginLoopIns`. -/
structure BeginLoopIns where
  loopIndex : Nat
  min : Nat
  max : Nat
  greedy : Bool
  outer : Nat
  deriving DecidableEq, Repr

inductive Inst where
  | nop
  | matchIns
  | jump (target : Nat)
  | alt (second : Nat)
  | start (multiline : Bool)
  | stop (multiline : Bool)
  | word (invert : Bool)
  | iword (invert : Bool)
  | any
  | anyExceptNL
  | lbAny (dotAll : Bool)
  | grapheme
  | char (codePoint : Nat)
  | ichar (codePoint : Nat)
  | lbChar (codePoint : Nat) (ignoreCase : Bool)
  | charSet (matcherIndex : Nat) (invert : Bool)
  | icharSet (matcherIndex : Nat) (invert : Bool)
  | lbCharSet (matcherIndex : Nat) (invert ignoreCase : Bool)
  | prepareRadix
  | radixOrEmoji (ins : RadixIns)
  | prepareLBRadix
  | lbRadixOrEmoji (ins : RadixIns)
  | string (index : Nat)
  | lbString (index : Nat)
  | beginCapture (index : Nat)
  | endCapture (index : Nat)
  | lbEndCapture (index : Nat)
  | resetCaptures (first last : Nat)
  | backRef (index : Nat) (named : Bool)
  | ibackRef (index : Nat) (named : Bool)
  | lbBackRef (index : Nat) (named ignoreCase : Bool)
  | beginLoop (ins : BeginLoopIns)
  | endLoop (target : Nat)
  | beginLookAround (target : Nat) (negate : Bool)
  | endLookAround
  deriving DecidableEq, Repr

/-! ## CodeGen -/

namespace CodeGen

/-- `emitMatcher`: the index of the new matcher; there is room for 2^16 of them. -/
def emitMatcher (matchers : List Matcher) (m : Matcher) : Option (Nat × List Matcher) :=
  if matchers.length > 2 ^ 16 - 1 then none else some (matchers.length, matchers ++ [m])

/-- The part of `generate` for nodes that match one code point. -/
def generateAtom (forward : Bool) (matchers : List Matcher) : Atom → Option (Inst × List Matcher)
  | .any dotAll =>
    some (if !forward then .lbAny dotAll else if dotAll then .any else .anyExceptNL, matchers)
  | .char c => some (if !forward then .lbChar c false else .char c, matchers)
  | .foldChar c => some (if !forward then .lbChar c true else .ichar c, matchers)
  | .charSet set invert ignoreCase => do
    let m := match tryToGenerateAsciiSet set with
      | some s => Matcher.ofAsciiSet s
      | none => .codePointSet set
    let (index, matchers) ← emitMatcher matchers m
    return (if !forward then .lbCharSet index invert ignoreCase
      else if ignoreCase then .icharSet index invert
      else .charSet index invert, matchers)

def generateBoundary : Boundary → Inst
  | .start multiline => .start multiline
  | .stop multiline => .stop multiline
  | .word ignoreCase => if ignoreCase then .iword false else .word false
  | .notWord ignoreCase => if ignoreCase then .iword true else .word true

def generateBackRef (forward : Bool) (index : Nat) (named ignoreCase : Bool) : Inst :=
  if !forward then .lbBackRef index named ignoreCase
  else if ignoreCase then .ibackRef index named
  else .backRef index named

/-- A run of `Char` nodes inside a sequence: one instruction for a single character, a string
for more. -/
def generateChars (forward : Bool) (matchers : List Matcher) :
    List Nat → Option (List Inst × List Matcher)
  | [] => some ([], matchers)
  | [c] => some ([if !forward then .lbChar c false else .char c], matchers)
  | cs => do
    let (index, matchers) ← emitMatcher matchers (.string (encode cs))
    return ([if !forward then .lbString index else .string index], matchers)

/-- The matcher for the strings of a set. -/
def emitRadix (matchers : List Matcher) (tree : RadixTree) : Option (Nat × List Matcher) :=
  if tree.empty then some (0, matchers)
  else if !tree.serialize then none
  else emitMatcher matchers (.radix tree (tree.maxCodePointCount % 2 ^ 16))

/-- The code for the single code points of a set. -/
def generateChild (forward : Bool) (matchers : List Matcher) :
    Option Atom → Option (List Inst × List Matcher)
  | some a => (generateAtom forward matchers a).map fun (ins, matchers) => ([ins], matchers)
  | none => some ([], matchers)

def generateStrSet (forward : Bool) (matchers : List Matcher) (s : StrSet) :
    Option (List Inst × List Matcher) := do
  let (index, matchers) ← emitRadix matchers s.radix
  let (chars, matchers) ← generateChild forward matchers s.chars
  let ins : RadixIns := {
    emoji := s.emoji, ignoreCase := s.ignoreCase, hasRadix := !s.radix.empty, index := index,
    nextOffset := chars.length }
  return (if !forward then .prepareLBRadix :: .lbRadixOrEmoji ins :: chars
    else .prepareRadix :: .radixOrEmoji ins :: chars, matchers)

/-- The code point of a `Char` node. -/
def charNode : Node → Option Nat
  | .atom (.char c) => some c
  | _ => none

mutual

/-- `generate`: the code of a node placed at `addr`, and the matchers with those it adds. -/
def generate (forward : Bool) (addr : Nat) (matchers : List Matcher) :
    Node → Option (List Inst × List Matcher)
  | .empty => some ([], matchers)
  | .atom a => do
    let (ins, matchers) ← generateAtom forward matchers a
    return ([ins], matchers)
  | .grapheme => some ([.grapheme], matchers)
  | .boundary b => some ([generateBoundary b], matchers)
  | .backRef index named ignoreCase =>
    some ([generateBackRef forward index named ignoreCase], matchers)
  | .repeated loopIndex first last min max greedy p => do
    let reset := if first ≠ 0 then [Inst.resetCaptures first last] else []
    let (body, matchers) ← generate forward (addr + 1 + reset.length) matchers p
    let outer := addr + 1 + reset.length + body.length + 1
    return (.beginLoop { loopIndex, min, max, greedy, outer } :: reset ++ body ++ [.endLoop addr],
      matchers)
  | .seq ps =>
    if forward then generateSeq addr matchers [] ps
    else do
      let (code, matchers, pending) ← generateLBSeq addr matchers ps
      let (chars, matchers) ← generateChars false matchers pending
      return (code ++ chars, matchers)
  | .alt ps =>
    match ps with
    | [p] => do
      let (code, matchers) ← generate forward (addr + 1) matchers p
      return (.alt (addr + 1 + code.length) :: code, matchers)
    | ps => generateAlt forward addr matchers ps
  | .lookAround lookAhead negate p => do
    let (body, matchers) ← generate lookAhead (addr + 1) matchers p
    return (.beginLookAround (addr + 1 + body.length) negate :: body ++ [.endLookAround], matchers)
  | .group index p => do
    let (body, matchers) ← generate forward (addr + 1) matchers p
    return (.beginCapture index :: body ++
      [if !forward then .lbEndCapture index else .endCapture index], matchers)
  | .strSet s => generateStrSet forward matchers s

/-- `generateSeq` forwards; `pending` is the run of `Char` nodes just read. -/
def generateSeq (addr : Nat) (matchers : List Matcher) (pending : List Nat) :
    List Node → Option (List Inst × List Matcher)
  | [] => generateChars true matchers pending
  | p :: ps =>
    match charNode p with
    | some c => generateSeq addr matchers (pending ++ [c]) ps
    | none => do
      let (chars, matchers) ← generateChars true matchers pending
      let (code, matchers) ← generate true (addr + chars.length) matchers p
      let (rest, matchers) ←
        generateSeq (addr + chars.length + code.length) matchers [] ps
      return (chars ++ code ++ rest, matchers)

/-- `generateSeq` backwards, from the last element on; the run of `Char` nodes read last has not
been emitted yet. -/
def generateLBSeq (addr : Nat) (matchers : List Matcher) :
    List Node → Option (List Inst × List Matcher × List Nat)
  | [] => some ([], matchers, [])
  | p :: ps => do
    let (code, matchers, pending) ← generateLBSeq addr matchers ps
    match charNode p with
    | some c => return (code, matchers, c :: pending)
    | none =>
      let (chars, matchers) ← generateChars false matchers pending
      let (body, matchers) ←
        generate false (addr + code.length + chars.length) matchers p
      return (code ++ chars ++ body, matchers, [])

/-- `generateAlt` for two or more alternatives. Every jump goes to the end of the last one. -/
def generateAlt (forward : Bool) (addr : Nat) (matchers : List Matcher) :
    List Node → Option (List Inst × List Matcher)
  | [] => some ([], matchers)
  | [p] => generate forward addr matchers p
  | p :: ps => do
    let (code, matchers) ← generate forward (addr + 1) matchers p
    let jumpSize := if ps.length = 1 && ps.all Node.isEmpty then 0 else 1
    let second := addr + 1 + code.length + jumpSize
    let (rest, matchers) ← generateAlt forward second matchers ps
    return (.alt second :: code ++ List.replicate jumpSize (.jump (second + rest.length)) ++ rest,
      matchers)

end

end CodeGen

end Arsh.Regex
