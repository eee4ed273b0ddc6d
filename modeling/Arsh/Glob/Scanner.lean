import Arsh.Lib.Machine
import Arsh.Misc.Unicode

/-!
# The scanner of glob patterns

`GlobPatternScanner` of `glob.{h,cpp}`. A position in the pattern is what is left of the pattern
there, a position in the name what is left of the name. The loop of `match` is a machine; the
bracket expressions are read by functions of their own.

The classes of characters are those of the C library (`isalnum_l` and so on, in the C locale): the
model takes them as a parameter `isctype`. The code point `-1` of an invalid byte is `none`. What
the scanner leaves of the pattern when it fails is not kept.
-/

namespace Arsh.Glob

open UnicodeUtil

abbrev Bytes := List Nat

/-- The bytes of ASCII characters. -/
def ascii (s : String) : Bytes := s.toList.map Char.toNat

abbrev chQuestion : Nat := 0x3F
abbrev chStar : Nat := 0x2A
abbrev chOpen : Nat := 0x5B
abbrev chClose : Nat := 0x5D
abbrev chBackslash : Nat := 0x5C
abbrev chSlash : Nat := 0x2F
abbrev chDot : Nat := 0x2E
abbrev chNot : Nat := 0x21
abbrev chHat : Nat := 0x5E
abbrev chMinus : Nat := 0x2D
abbrev chColon : Nat := 0x3A

def isEndOrSep : Bytes → Bool
  | [] => true
  | c :: _ => c = chSlash

def expect (ch : Nat) : Bytes → Bool
  | [] => false
  | c :: _ => c = ch

/-! ## Bracket expressions -/

inductive CharClass where
  | alnum
  | alpha
  | ascii
  | blank
  | cntrl
  | digit
  | graph
  | lower
  | print
  | punct
  | space
  | upper
  | word
  | xdigit
  deriving DecidableEq, Repr

def lookupGlobCharClassOp (className : Bytes) : Option CharClass :=
  if className = ascii "alnum" then some .alnum
  else if className = ascii "alpha" then some .alpha
  else if className = ascii "ascii" then some .ascii
  else if className = ascii "blank" then some .blank
  else if className = ascii "cntrl" then some .cntrl
  else if className = ascii "digit" then some .digit
  else if className = ascii "graph" then some .graph
  else if className = ascii "lower" then some .lower
  else if className = ascii "print" then some .print
  else if className = ascii "punct" then some .punct
  else if className = ascii "space" then some .space
  else if className = ascii "upper" then some .upper
  else if className = ascii "word" then some .word
  else if className = ascii "xdigit" then some .xdigit
  else none

section
variable (isctype : CharClass → Option Nat → Bool)

/-- The operation of a class: `isword_l`, `isascii_l`, or one of the C library. -/
def CharClass.op (c : CharClass) (codePoint : Option Nat) : Bool :=
  match c with
  | .word => isctype .alnum codePoint || codePoint = some 0x5F
  | .ascii => match codePoint with
    | some ch => ch < 0x80
    | none => false
  | c => isctype c codePoint

def needCloseBracket : String := "bracket expression must end with `]'"

def charClassInRange : String := "`[:' is not allowed in character range"

/-- `CharSetStatus`, with what is left of the pattern or the message. -/
inductive CharSetStatus where
  | matched (iter : Bytes)
  | unmatched (iter : Bytes)
  | syntaxError (err : String)
  | noClass
  | badClass (err : String)
  deriving DecidableEq, Repr

/-- The name of a class: the lower case letters from here on. -/
def className (iter : Bytes) : Bytes := iter.takeWhile fun ch => 0x61 ≤ ch ∧ ch ≤ 0x7A

def tryMatchCharClass (codePoint : Option Nat) (iter : Bytes) : CharSetStatus :=
  let iter := iter.drop 1
  if expect chColon iter then
    let name := className (iter.drop 1)
    let iter := iter.drop (1 + name.length)
    if expect chColon iter && expect chClose (iter.drop 1) then
      match lookupGlobCharClassOp name with
      | some c => if c.op isctype codePoint then .matched (iter.drop 2) else .unmatched (iter.drop 2)
      | none => .badClass ("undefined character class: " ++ String.ofList (name.map Char.ofNat))
    else .syntaxError "character class must end with `:]'"
  else .noClass

/-- The end of `consumeCharSetPart`: one character. -/
def consumeCodePoint (iter : Bytes) : Except String (Nat × Bytes) :=
  match utf8ToCodePoint iter with
  | (byteSize, some codePoint) => .ok (codePoint, iter.drop byteSize)
  | (_, none) => .error "invalid UTF-8 sequence"

def consumeCharSetPart (first : Bool) (iter : Bytes) : Except String (Nat × Bytes) :=
  if expect chMinus iter then
    if first || expect chClose (iter.drop 1) then .ok (chMinus, iter.drop 1)
    else .error "unescaped `-' is only available in first or last"
  else if expect chClose iter && first then .ok (chClose, iter.drop 1)
  else if expect chOpen iter then
    if expect chColon (iter.drop 1) then .error charClassInRange else consumeCodePoint iter
  else if expect chBackslash iter then
    if isEndOrSep (iter.drop 1) then .error "need character after `\\'"
    else consumeCodePoint (iter.drop 1)
  else consumeCodePoint iter

/-- The part of a round of `matchCharSetImpl` that is about a single character or a range: its
bounds. -/
def consumeRange (first : Bool) (iter : Bytes) : Except String (Nat × Nat × Bytes) :=
  match consumeCharSetPart first iter with
  | .error err => .error err
  | .ok (lower, iter) =>
    if isEndOrSep iter then .error needCloseBracket
    else if expect chMinus iter && !(isEndOrSep (iter.drop 1) || expect chClose (iter.drop 1)) then
      match consumeCharSetPart false (iter.drop 1) with
      | .error err => .error err
      | .ok (upper, iter) =>
        if lower > upper then .error "character range is out of order" else .ok (lower, upper, iter)
    else .ok (lower, lower, iter)

/-- `codePoint >= lower && codePoint <= upper`. -/
def inRange (codePoint : Option Nat) (lower upper : Nat) : Bool :=
  match codePoint with
  | some c => lower ≤ c ∧ c ≤ upper
  | none => false

/-- A class must not begin a range. -/
def afterCharClass (iter : Bytes) : Except String Bytes :=
  if expect chMinus iter && !expect chClose (iter.drop 1) then .error charClassInRange
  else .ok iter

/-- A round of the loop of `matchCharSetImpl`, behind the negation: whether the code point is in
this item. -/
def matchCharSetItem (codePoint : Option Nat) (first : Bool) (iter : Bytes) :
    Except String (Bool × Bytes) :=
  let range := match consumeRange first iter with
    | .error err => .error err
    | .ok (lower, upper, iter) => .ok (inRange codePoint lower upper, iter)
  if expect chOpen iter then
    match tryMatchCharClass isctype codePoint iter with
    | .matched iter => (afterCharClass iter).map (true, ·)
    | .unmatched iter => (afterCharClass iter).map (false, ·)
    | .syntaxError err | .badClass err => .error err
    | .noClass => range
  else range

/-- The loop of `matchCharSetImpl` after its first round. -/
def matchCharSetLoop (codePoint : Option Nat) (negate : Bool) :
    Nat → Nat → Bytes → Except String (Bool × Bytes)
  | 0, _, _ => .error needCloseBracket
  | fuel + 1, matchCount, iter =>
    if isEndOrSep iter then .error needCloseBracket
    else if expect chClose iter then .ok (negate != decide (matchCount > 0), iter.drop 1)
    else
      match matchCharSetItem isctype codePoint false iter with
      | .error err => .error err
      | .ok (r, iter) => matchCharSetLoop codePoint negate fuel (matchCount + r.toNat) iter

/-- `matchCharSetImpl`: the first round may negate, and then reads `]` as a character. -/
def matchCharSetImpl (codePoint : Option Nat) (iter : Bytes) : Except String (Bool × Bytes) :=
  let iter := iter.drop 1
  if isEndOrSep iter then .error needCloseBracket
  else if expect chClose iter then .ok (false, iter.drop 1)
  else
    let negate := expect chNot iter || expect chHat iter
    let iter := if negate then iter.drop 1 else iter
    if isEndOrSep iter then .error needCloseBracket
    else
      match matchCharSetItem isctype codePoint true iter with
      | .error err => .error err
      | .ok (r, iter) => matchCharSetLoop isctype codePoint negate iter.length r.toNat iter

/-! ## The loop -/

inductive Status where
  | dot
  | dotdot
  | matched
  | unmatched
  | unmatchedDot
  | unmatchedDotPrefix
  | badPattern (err : String)
  deriving DecidableEq, Repr

/-- What the scanner is used for: the name matches. -/
def Status.success : Status → Bool
  | .dot | .dotdot | .matched => true
  | _ => false

/-- The variables of the loop; `old` is `oldName` and `oldIter` when they are set. -/
structure State where
  name : Bytes
  iter : Bytes
  old : Option (Bytes × Bytes)
  deriving DecidableEq, Repr

/-- The size of the first character of the name; an invalid byte stands for itself. -/
def charSize (name : Bytes) : Nat :=
  let byteSize := utf8ValidateChar name
  if byteSize = 0 then 1 else byteSize

/-- The name behind its first character. -/
def nextChar (name : Bytes) : Bytes := name.drop (charSize name)

def State.backtrack (s : State) : State ⊕ Status × Bytes :=
  match s.old with
  | some (oldName, oldIter) => .inl ⟨oldName, oldIter, some (oldName.tail, oldIter)⟩
  | none => .inr (.unmatched, s.iter)

/-- The name is to go on with the byte `ch`, the pattern goes on with `iter`. -/
def State.literal (s : State) (ch : Nat) (iter : Bytes) : State ⊕ Status × Bytes :=
  if expect ch s.name then .inl { s with name := s.name.drop 1, iter := iter } else s.backtrack

/-- Behind the name only stars may be left. -/
def State.finish (s : State) : Status × Bytes :=
  let iter := s.iter.dropWhile (· = chStar)
  (if isEndOrSep iter then .matched else .unmatched, iter)

/-- A round of the loop of `match`, or what comes behind it. -/
def step (s : State) : State ⊕ Status × Bytes :=
  if s.name = [] then .inr s.finish
  else
    match s.iter with
    | [] => s.backtrack
    | ch :: iter =>
      if ch = chSlash then s.backtrack
      else if ch = chQuestion then .inl { s with name := nextChar s.name, iter := iter }
      else if ch = chOpen then
        match matchCharSetImpl isctype (utf8ToCodePoint s.name).2 (ch :: iter) with
        | .ok (true, iter) => .inl { s with name := nextChar s.name, iter := iter }
        | .ok (false, _) => s.backtrack
        | .error err => .inr (.badPattern err, iter)
      else if ch = chStar then
        if isEndOrSep iter then .inr (.matched, iter)
        else .inl { s with iter := iter, old := some (s.name.tail, iter) }
      else if ch = chBackslash then
        match iter with
        | [] => s.literal ch iter
        | ch :: iter => s.literal ch iter
      else s.literal ch iter

/-- `matchDots`: 1 for `.`, 2 for `..`, 0 if the pattern is not the same. -/
def matchDots (name iter : Bytes) : Nat × Bytes :=
  if expect chDot name && expect chDot iter then
    let (name', iter') := (name.drop 1, iter.drop 1)
    if name' = [] && isEndOrSep iter' then (1, iter')
    else if expect chDot name' && expect chDot iter' then
      let (name', iter') := (name'.drop 1, iter'.drop 1)
      if name' = [] && isEndOrSep iter' then (2, iter') else (0, iter)
    else (0, iter)
  else (0, iter)

/-- `match` before its loop: a result, or the state in which the loop begins. -/
def start (name iter : Bytes) (dotglob allowEmptyPattern : Bool) : State ⊕ Status × Bytes :=
  if name = [chDot] ∨ name = [chDot, chDot] then
    match matchDots name iter with
    | (1, iter) => .inr (.dot, iter)
    | (2, iter) => .inr (.dotdot, iter)
    | (_, iter) => .inr (.unmatchedDot, iter)
  else if expect chDot name && (isEndOrSep iter || !expect chDot iter) && !dotglob then
    .inr (.unmatchedDotPrefix, iter)
  else if allowEmptyPattern && isEndOrSep iter then .inr (.matched, iter)
  else .inl ⟨name, iter, none⟩

/-- `match` returns `r`: the status, and what is left of the pattern. -/
def Returns (name iter : Bytes) (dotglob allowEmptyPattern : Bool) (r : Status × Bytes) : Prop :=
  match start name iter dotglob allowEmptyPattern with
  | .inr r' => r = r'
  | .inl s => Machine.Halts (step isctype) s r

end

end Arsh.Glob
