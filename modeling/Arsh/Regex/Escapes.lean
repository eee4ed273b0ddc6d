import Arsh.Lib.Machine
import Arsh.Regex.Syntax

/-!
# Reading escapes, names and numbers

The functions of `Parser` (`regex/parser.cpp`) that only read text. A position in the pattern is
what is left of the pattern there; `slice start rest` is the text between two positions. Where a
function reports an error, the model returns it; what is then left of the pattern is not kept.
-/

namespace Arsh.Regex.Parser

open UnicodeUtil

abbrev Bytes := List Nat

/-- The byte of an ASCII character. -/
abbrev byte (ch : Char) : Nat := ch.toNat

/-- The errors that the parser reports, with the arguments of their messages. -/
inductive Error where
  | invalidByte (b : Nat)
  | unmatchedBracket
  | loneQuantifierBracket (ch : Nat)
  | deeplyNested
  | unmatchedParen
  | unclosedGroup
  | invalidGroup (text : Bytes)
  | invalidModifierByte
  | invalidModifier (text : Bytes)
  | duplicatedModifier (ch : Char)
  | repeatedModifier (ch : Char)
  | captureGroupLimit
  | quantifierLimit
  | backslashAtEnd
  | invalidEscape (text : Bytes)
  | variableLengthInLookBehind
  | invalidUnicodeEscape (text : Bytes)
  | invalidPropertyEscape (text : Bytes)
  | unrecognizedProperty (err : Bytes)
  | invalidDecimalEscape (digits : Bytes)
  | tooLargeBackRef (digits : Bytes)
  | undefinedName (name : Bytes)
  | duplicatedName (name : Bytes)
  | notFollowedByLess (text : Bytes)
  | unclosedName (name : Bytes)
  | invalidName (name : Bytes)
  | notFollowAtom (text : Bytes)
  | invalidQuantifier (text : Bytes)
  | notDecimal (digits : Bytes)
  | tooLargeQuantifier (digits : Bytes)
  | unclosedQuantifier (text : Bytes)
  | outOfOrderQuantifier
  | negatedStrings
  | invalidRange
  | outOfOrderRange
  | mixedSetOperation
  | invalidClassChar (ch : Nat)
  | invalidSetOperation (op : Bytes)
  | missingOperand (op : Bytes)
  | unclosedCharClass
  | unclosedSubstring
  deriving DecidableEq, Repr

def startsWith (p : List Char) (rest : Bytes) : Bool := (p.map Char.toNat).isPrefixOf rest

/-- The text from `start` to `rest`. -/
def slice (start rest : Bytes) : Bytes := start.take (start.length - rest.length)

/-! ## Characters -/

def isDigit (ch : Nat) : Bool := byte '0' ≤ ch && ch ≤ byte '9'

def isOctal (ch : Nat) : Bool := byte '0' ≤ ch && ch < byte '8'

def isLetter (ch : Nat) : Bool :=
  (byte 'a' ≤ ch && ch ≤ byte 'z') || (byte 'A' ≤ ch && ch ≤ byte 'Z')

def isHex (ch : Nat) : Bool :=
  isDigit ch || (byte 'A' ≤ ch && ch ≤ byte 'F') || (byte 'a' ≤ ch && ch ≤ byte 'f')

/-- A character of an identifier of C. -/
def isWordChar (ch : Nat) : Bool := isLetter ch || isDigit ch || ch = byte '_'

def hexToNum (ch : Nat) : Nat :=
  if isDigit ch then ch - byte '0'
  else if byte 'a' ≤ ch && ch ≤ byte 'f' then ch - byte 'a' + 10
  else ch - byte 'A' + 10

def isSyntaxChar (ch : Nat) : Bool :=
  ch ∈ ['^', '$', '\\', '.', '*', '+', '?', '(', ')', '[', ']', '{', '}', '|'].map Char.toNat

def isClassSetReservedPunctuator (ch : Nat) : Bool :=
  ch ∈ [ '&', '-', '!', '#', '%', ',', ':', ';', '<', '=', '>', '@', '`', '~'].map Char.toNat

def isClassSetSyntaxCharacter (ch : Nat) : Bool :=
  ch ∈ [ '(', ')', '[', ']', '{', '}', '/', '-', '\\', '|'].map Char.toNat

def startsWithClassSetReservedDoublePunctuator : Bytes → Bool
  | ch :: ch' :: _ =>
    ch ∈ [ '&', '!', '#', '$', '%', '*', '+', ',', '.', ':', ';', '<', '=', '>', '?', '@', '^',
      '`', '~'].map Char.toNat && ch = ch'
  | _ => false

/-- What the parser asks the Unicode tables. The names of the properties there are words. -/
structure Ucp where
  /-- `ucp::parseEmojiProperty` -/
  parseEmojiProperty : Bytes → Option Nat
  /-- `ucp::parseProperty`, of a name (may be empty) and a value -/
  parseProperty : Bytes → Bytes → Except Bytes (Nat × Nat)
  /-- the property `ID_Start`, asked above ASCII -/
  idStart : Nat → Bool
  /-- the property `ID_Continue`, asked above ASCII -/
  idContinue : Nat → Bool
  emoji_word : ∀ left seq, parseEmojiProperty left = some seq → ∀ ch ∈ left, isWordChar ch
  property_word : ∀ left right p, parseProperty left right = .ok p →
    ∀ ch ∈ left ++ right, isWordChar ch

/-! ## Code points -/

/-- `nextValidCodePoint`, of a position that is not the end. -/
def nextValidCodePoint (rest : Bytes) : Except Error (Nat × Bytes) :=
  if wtf8ValidateChar rest = 0 then .error (.invalidByte (rest.headD 0))
  else .ok (decodeFirst rest, rest.drop (wtf8ValidateChar rest))

def isHighSurrogate (c : Nat) : Bool := 0xD800 ≤ c && c ≤ 0xDBFF

def isLowSurrogate (c : Nat) : Bool := 0xDC00 ≤ c && c ≤ 0xDFFF

def utf16ToCodePoint (high low : Nat) : Option Nat :=
  if isHighSurrogate high && isLowSurrogate low then
    some ((high - 0xD800) * 1024 + (low - 0xDC00) + 0x10000)
  else none

/-- A loop over `n` hex digits: their value after `v`, if there are so many. -/
def hexDigits : Nat → Nat → Bytes → Option Nat × Bytes
  | 0, v, rest => (some v, rest)
  | _ + 1, _, [] => (none, [])
  | n + 1, v, ch :: rest =>
    if isHex ch then hexDigits n (v * 16 + hexToNum ch) rest else (none, rest)

/-- `parseUnicodeEscapeBMP`: the code point, if there is one, and where the function stops. -/
def parseUnicodeEscapeBMP (rest : Bytes) : Option Nat × Bytes :=
  let invalid (rest : Bytes) : Option Nat × Bytes :=
    (none, if startsWith ['\\'] rest then rest.drop 1 else rest)
  if startsWith ['\\', 'u'] rest then
    match hexDigits 4 0 (rest.drop 2) with
    | (some codePoint, rest) => (some codePoint, rest)
    | (none, rest) => invalid rest
  else invalid rest

/-- The value of hex digits. What overflows an `int` is no code point either. -/
def hexValue (digits : Bytes) : Nat := digits.foldl (fun v ch => v * 16 + hexToNum ch) 0

/-- `parseUnicodeEscape`; `unicode` allows the form with braces. -/
def parseUnicodeEscape (unicode : Bool) (old : Bytes) : Option Nat × Bytes :=
  if unicode && startsWith ['\\', 'u', '{'] old then
    let digits := (old.drop 3).takeWhile isHex
    let rest := (old.drop 3).dropWhile isHex
    if startsWith ['}'] rest && digits ≠ [] && hexValue digits ≤ codePointMax then
      (some (hexValue digits), rest.drop 1)
    else (none, rest.drop 1)
  else
    match parseUnicodeEscapeBMP old with
    | (none, rest) => (none, rest)
    | (some high, rest) =>
      match (parseUnicodeEscapeBMP rest).1.bind (utf16ToCodePoint high) with
      | some codePoint => (some codePoint, (parseUnicodeEscapeBMP rest).2)
      | none => (some high, rest)

/-! ## Unicode properties -/

/-- A property of a character class, or its complement. -/
def Property.ofUcp (p : Nat × Nat) (invert : Bool) : Property :=
  if invert then .notUnicode p.1 p.2 else .unicode p.1 p.2

/-- The end of `parseUnicodePropertyEscape`. -/
def propertyNode (U : Ucp) (left right : Bytes) (invert : Bool) (rest : Bytes) :
    Except Error (Tree × Bytes) :=
  match U.parseProperty left right with
  | .ok p => .ok (.property (Property.ofUcp p invert), rest)
  | .error err => .error (.unrecognizedProperty err)

/-- `parseUnicodePropertyEscape`, at a `\p` or a `\P`. -/
def parseUnicodePropertyEscape (U : Ucp) (mode : Mode) (old : Bytes) :
    Except Error (Tree × Bytes) :=
  let invert := startsWith ['\\', 'P'] old
  let invalid (rest : Bytes) : Except Error (Tree × Bytes) :=
    .error (.invalidPropertyEscape (slice old rest))
  if startsWith ['{'] (old.drop 2) then
    let left := (old.drop 3).takeWhile fun ch => ch ≠ byte '}' ∧ ch ≠ byte '='
    let rest := (old.drop 3).drop left.length
    if startsWith ['}'] rest then
      match if mode = .unicodeSet && !invert then U.parseEmojiProperty left else none with
      | some seq => .ok (.property (.emoji seq), rest.drop 1)
      | none => propertyNode U [] left invert (rest.drop 1)
    else if startsWith ['='] rest then
      let right := (rest.drop 1).takeWhile fun ch => ch ≠ byte '}'
      let rest := (rest.drop 1).drop right.length
      if !startsWith ['}'] rest || left = [] then invalid rest
      else propertyNode U left right invert (rest.drop 1)
    else invalid rest
  else invalid (old.drop 2)

/-! ## Names of groups -/

def isJSIdStartAscii (c : Nat) : Bool := isLetter c || c = byte '_' || c = byte '$'

def isJSIdStart (U : Ucp) (c : Nat) : Bool := if c ≤ 127 then isJSIdStartAscii c else U.idStart c

def isJSIdContinue (U : Ucp) (c : Nat) : Bool :=
  if c ≤ 127 then isJSIdStartAscii c || isDigit c else U.idContinue c

/-- A failure in a group name: an empty name where errors may be ignored. -/
def nameFailure (mayIgnoreError : Bool) (err : Error) : Except Error (Bytes × Bytes) :=
  if mayIgnoreError then .ok ([], []) else .error err

/-- One character of a name, perhaps an escape. -/
def nameCodePoint (mayIgnoreError : Bool) (old : Bytes) : Except Error (Option Nat × Bytes) :=
  if startsWith ['\\'] old then
    match parseUnicodeEscape true old with
    | (some c, rest) => .ok (some c, rest)
    | (none, rest) =>
      if mayIgnoreError then .ok (none, rest)
      else .error (.invalidUnicodeEscape (slice old rest))
  else (nextValidCodePoint old).map fun r => (some r.1, r.2)

/-- The character is to be in the name: it goes on with `next`. -/
def nameChar (isJSId : Nat → Bool) (mayIgnoreError : Bool) (name rest : Bytes) :
    (Bytes × Bytes) ⊕ Except Error (Bytes × Bytes) :=
  match nameCodePoint mayIgnoreError rest with
  | .error err => .inr (.error err)
  | .ok (none, rest) => .inr (.ok ([], rest))
  | .ok (some c, rest) =>
    let name := name ++ codePointToUtf8 c
    if isJSId c then .inl (name, rest) else .inr (nameFailure mayIgnoreError (.invalidName name))

/-- A round of the second loop of `parseCaptureGroupName`, with the name so far. -/
def nameStep (U : Ucp) (mayIgnoreError : Bool) (s : Bytes × Bytes) :
    (Bytes × Bytes) ⊕ Except Error (Bytes × Bytes) :=
  if s.2 = [] then .inr (nameFailure mayIgnoreError (.unclosedName s.1))
  else if startsWith ['>'] s.2 then .inr (.ok (s.1, s.2.drop 1))
  else nameChar (isJSIdContinue U) mayIgnoreError s.1 s.2

/-- `parseCaptureGroupName`: the name and what follows it. -/
def parseCaptureGroupName (U : Ucp) (mayIgnoreError : Bool) (prefixStart old : Bytes) :
    Except Error (Bytes × Bytes) :=
  if !startsWith ['<'] old then
    nameFailure mayIgnoreError (.notFollowedByLess (slice prefixStart old))
  else if old.drop 1 = [] || startsWith ['>'] (old.drop 1) then
    nameFailure mayIgnoreError (.invalidName [])
  else
    match nameChar (isJSIdStart U) mayIgnoreError [] (old.drop 1) with
    | .inr r => r
    | .inl s =>
      Machine.runTo (nameStep U mayIgnoreError)
        (fun s => nameFailure mayIgnoreError (.unclosedName s.1)) s.2.length s

/-! ## Quantifiers -/

/-- The loop of `parseInteger`, in base 10, for an unsigned type of `bits` bits. -/
def parseInteger (bits value : Nat) : Bytes → Option Nat
  | [] => some value
  | ch :: rest =>
    if isDigit ch && value * 10 + hexToNum ch < 2 ^ bits then
      parseInteger bits (value * 10 + hexToNum ch) rest
    else none

/-- `convertToNum10`, for an unsigned type of `bits` bits. -/
def convertToNum10 (bits : Nat) (digits : Bytes) : Option Nat :=
  let digits := if startsWith ['+'] digits then digits.drop 1 else digits
  if digits = [] then none else parseInteger bits 0 digits

/-- `parseQuantifierDigits`; the caller drops the error where errors are ignored. -/
def parseQuantifierDigits (prefixStart : Bytes) (last : Char) (old : Bytes) :
    Except Error (Nat × Bytes) :=
  let digits := old.takeWhile fun ch => ch ≠ byte last ∧ ch ≠ byte '}'
  let rest := old.drop digits.length
  if digits = [] then .error (.invalidQuantifier (slice prefixStart (rest.drop 1)))
  else
    match convertToNum10 64 digits with
    | none => .error (.notDecimal digits)
    | some value =>
      if value > Tree.quantifierMax then .error (.tooLargeQuantifier digits) else .ok (value, rest)

/-- The upper bound of a quantifier, behind the lower one. -/
def parseQuantifierMax (old : Bytes) (min : Nat) (rest : Bytes) : Except Error (Nat × Bytes) :=
  if startsWith [','] rest then
    if startsWith ['}'] (rest.drop 1) then .ok (Tree.unlimit, rest.drop 1)
    else parseQuantifierDigits old '}' (rest.drop 1)
  else .ok (min, rest)

/-- The part of `tryToParseQuantifier` on a `{`, up to the closing brace: the two bounds. -/
def parseQuantifierBounds (old : Bytes) : Except Error (Nat × Nat × Bytes) :=
  match parseQuantifierDigits old ',' (old.drop 1) with
  | .error err => .error err
  | .ok (min, rest) =>
    if rest = [] then .error (.unclosedQuantifier (slice old rest))
    else
      match parseQuantifierMax old min rest with
      | .error err => .error err
      | .ok (max, rest) =>
        if startsWith ['}'] rest then .ok (min, max, rest.drop 1)
        else .error (.unclosedQuantifier (slice old (rest.drop 1)))

/-- A `?` makes a quantifier lazy. -/
def parseGreedy (rest : Bytes) : Bool × Bytes :=
  if startsWith ['?'] rest then (false, rest.drop 1) else (true, rest)

/-! ## Modifiers -/

def parseModifier (modifiers : Modifier) : Bytes → Except Error Modifier
  | [] => .ok modifiers
  | ch :: rest =>
    if ch = byte 'i' then
      if modifiers.ignoreCase then .error (.duplicatedModifier 'i')
      else parseModifier { modifiers with ignoreCase := true } rest
    else if ch = byte 'm' then
      if modifiers.multiline then .error (.duplicatedModifier 'm')
      else parseModifier { modifiers with multiline := true } rest
    else if ch = byte 's' then
      if modifiers.dotAll then .error (.duplicatedModifier 's')
      else parseModifier { modifiers with dotAll := true } rest
    else if wtf8ValidateChar (ch :: rest) = 0 then .error .invalidModifierByte
    else .error (.invalidModifier ((ch :: rest).take (wtf8ValidateChar (ch :: rest))))

def parseModifiers (last : Char) (old : Bytes) : Except Error (Modifier × Bytes) :=
  let value := old.takeWhile fun ch => ch ≠ byte last ∧ ch ≠ byte ':' ∧ ch ≠ byte ')'
  match parseModifier .none value with
  | .error err => .error err
  | .ok modifiers => .ok (modifiers, old.drop value.length)

end Arsh.Regex.Parser
