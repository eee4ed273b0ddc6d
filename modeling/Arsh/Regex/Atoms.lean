import Arsh.Regex.Escapes

/-!
# Reading atoms

The functions of `Parser` that read one atom: an escape, a back reference, a character class. They
move the position and may trigger the look-ahead for capture groups, but leave the frames alone.
-/

namespace Arsh.Regex.Parser

open UnicodeUtil

/-- The fields of `Parser` that are about capture groups. The map `namedCaptureGroups` is kept in
the order of the first indices, which is also the order that `operator()` sorts it into. -/
structure Groups where
  captureGroupResolved : Bool
  captureGroupCount : Nat
  prefetchedCaptureGroupCount : Nat
  prefetchedNamedCaptureGroupCount : Nat
  namedCaptureGroups : List (Bytes × List Nat)
  /-- the names of `namedRefNodes` -/
  namedRefs : List Bytes
  deriving DecidableEq, Repr

def Groups.hasNameCaptureGroup (g : Groups) : Bool := 0 < g.prefetchedNamedCaptureGroupCount

/-- The fields that an atom reads and writes. -/
structure Cursor where
  rest : Bytes
  groups : Groups

/-- The settings of a parser. -/
structure Config where
  mode : Mode
  extension : Bool
  ucp : Ucp
  /-- duplicated names of groups are refused -/
  checkNames : Bool

/-- `flag.isEitherUnicodeMode()`. -/
abbrev Config.unicode (C : Config) : Bool := C.mode.isEitherUnicodeMode

/-! ## The look-ahead -/

/-- The loop of `resolveCaptureGroups`: what it adds to the two counters. -/
def lookahead (set : Bool) : Nat → Bytes → Nat × Nat
  | _, [] => (0, 0)
  | classLevel, ch :: rest =>
    if ch = byte '\\' then
      match rest with
      | [] => (0, 0)
      | _ :: rest => lookahead set classLevel rest
    else if ch = byte '(' && classLevel = 0 then
      match rest with
      | [] => (1, 0)
      | ch :: rest =>
        if ch = byte '?' then
          match rest with
          | [] => (0, 0)
          | ch :: rest =>
            if ch = byte '<' then
              let r := lookahead set classLevel rest
              if !startsWith ['='] rest && !startsWith ['!'] rest then (r.1 + 1, r.2 + 1) else r
            else lookahead set classLevel (ch :: rest)
        else
          let r := lookahead set classLevel (ch :: rest)
          (r.1 + 1, r.2)
    else if ch = byte '[' then
      lookahead set (if classLevel = 0 || set then classLevel + 1 else classLevel) rest
    else if ch = byte ']' then lookahead set (classLevel - 1) rest
    else lookahead set classLevel rest

theorem lookahead_escape {set : Bool} {level ch : Nat} {r : Bytes} :
    lookahead set level (byte '\\' :: ch :: r) = lookahead set level r := by
  rw [lookahead.eq_def]
  simp only [if_true]

def resolveCaptureGroups (C : Config) (rest : Bytes) (g : Groups) : Groups :=
  if g.captureGroupResolved then g
  else
    let r := lookahead (C.mode = .unicodeSet) 0 rest
    { g with
      captureGroupResolved := true
      prefetchedCaptureGroupCount := g.captureGroupCount + r.1
      prefetchedNamedCaptureGroupCount := g.namedCaptureGroups.length + r.2 }

/-! ## Back references -/

/-- The loop over at most `n` octal digits, up to the value `UINT8_MAX`. -/
def parseOctal : Nat → Nat → Bytes → Nat × Bytes
  | 0, codePoint, rest => (codePoint, rest)
  | _ + 1, codePoint, [] => (codePoint, [])
  | n + 1, codePoint, ch :: rest =>
    if isOctal ch && codePoint * 8 + (ch - byte '0') ≤ 255 then
      parseOctal n (codePoint * 8 + (ch - byte '0')) rest
    else (codePoint, ch :: rest)

/-- The end of `parseBackRefOrOctal`, behind the backslash. -/
def parseLegacyOctal (old : Bytes) : Tree × Bytes :=
  if isOctal (old.headD 0) then
    let r := parseOctal 3 0 old
    (.char r.1, r.2)
  else (.char (old.headD 0), old.drop 1)

inductive EscapeParseOp where
  | default
  | inCharClass
  | inClassString
  deriving DecidableEq, Repr

/-- `inCharClass`. -/
def EscapeParseOp.isInCharClass : EscapeParseOp → Bool
  | .default => false
  | .inCharClass | .inClassString => true

variable (C : Config)

def parseBackRefOrOctal (inCharClass : Bool) (start : Cursor) : Except Error (Tree × Cursor) :=
  let old := start.rest.drop 1
  let tmp := old.takeWhile isDigit
  let rest := old.drop tmp.length
  let octal (g : Groups) : Except Error (Tree × Cursor) :=
    if C.unicode then .error (.invalidDecimalEscape tmp)
    else .ok ((parseLegacyOctal old).1, ⟨(parseLegacyOctal old).2, g⟩)
  if tmp = [byte '0'] then .ok (.char 0, ⟨rest, start.groups⟩)
  else if startsWith ['0'] tmp then octal start.groups
  else if inCharClass then octal start.groups
  else
    let g := resolveCaptureGroups C rest start.groups
    match (convertToNum10 32 tmp).filter fun n => n ≤ g.prefetchedCaptureGroupCount && 0 < n with
    | some index => .ok (.backRef index [], ⟨rest, g⟩)
    | none => if C.unicode then .error (.tooLargeBackRef tmp) else octal g

def parseNamedBackRef (inCharClass : Bool) (old : Cursor) : Except Error (Tree × Cursor) :=
  if inCharClass then
    if C.unicode then .error (.invalidEscape (old.rest.take 2))
    else .ok (.char (byte 'k'), { old with rest := old.rest.drop 2 })
  else
    match parseCaptureGroupName C.ucp (C.mode = .bmp) old.rest (old.rest.drop 2) with
    | .error err => .error err
    | .ok (name, rest) =>
      let g := if name = [] then old.groups else resolveCaptureGroups C rest old.groups
      if name = [] || !g.hasNameCaptureGroup then
        if C.mode = .bmp then .ok (.char (byte 'k'), ⟨old.rest.drop 2, g⟩)
        else .error (.undefinedName name)
      else .ok (.backRef 0 name, ⟨rest, { g with namedRefs := g.namedRefs ++ [name] }⟩)

/-! ## Escapes -/

/-- The escapes of the form `\f`: the character and its code point. -/
def controlEscape (ch : Nat) : Option Nat :=
  if ch = byte 'f' then some 0x0C
  else if ch = byte 'n' then some 0x0A
  else if ch = byte 'r' then some 0x0D
  else if ch = byte 't' then some 0x09
  else if ch = byte 'v' then some 0x0B
  else none

/-- The escapes for a class of characters. -/
def propertyEscape (ch : Nat) : Option Property :=
  if ch = byte 'd' then some .digit
  else if ch = byte 'D' then some .notDigit
  else if ch = byte 's' then some .space
  else if ch = byte 'S' then some .notSpace
  else if ch = byte 'w' then some .word
  else if ch = byte 'W' then some .notWord
  else none

/-- The `default` case of `parseAtomEscape`: the text behind the backslash. -/
def parseIdentityEscape (op : EscapeParseOp) (forward : Bool) (start rest : Bytes) :
    Except Error (Tree × Bytes) :=
  let ch := rest.headD 0
  if C.unicode && ch = byte 'X' && C.extension && op = .default then
    if forward then .ok (.property .grapheme, rest.drop 1) else .error .variableLengthInLookBehind
  else if C.unicode && (isSyntaxChar ch || ch = byte '/') then .ok (.char ch, rest.drop 1)
  else if op.isInCharClass && C.mode = .unicodeSet && isClassSetReservedPunctuator ch then
    .ok (.char ch, rest.drop 1)
  else
    match nextValidCodePoint rest with
    | .error err => .error err
    | .ok (c, rest) =>
      if C.mode = .bmp then .ok (.char c, rest) else .error (.invalidEscape (slice start rest))

/-- The cases of `parseAtomEscape` that only read text, for the character `ch` behind the
backslash and the text `rest` behind that. -/
def parseCharEscape (op : EscapeParseOp) (forward : Bool) (start : Bytes) (ch : Nat)
    (rest : Bytes) : Except Error (Tree × Bytes) :=
  let invalidEscape (rest : Bytes) : Except Error (Tree × Bytes) :=
    .error (.invalidEscape (slice start rest))
  if let some c := controlEscape ch then .ok (.char c, rest)
  else if ch = byte 'c' then
    if isLetter (rest.headD 0) then .ok (.char (rest.headD 0 % 32), rest.drop 1)
    -- only the backslash is consumed
    else if C.mode = .bmp then .ok (.char (byte '\\'), ch :: rest)
    else invalidEscape (rest.drop (wtf8ValidateChar rest))
  else if ch = byte 'b' then
    .ok (if op.isInCharClass then .char 8 else .boundary .word, rest)
  else if ch = byte 'B' then
    if !op.isInCharClass then .ok (.boundary .notWord, rest)
    else if C.unicode then invalidEscape rest
    else .ok (.char (byte 'B'), rest)
  else if let some p := propertyEscape ch then
    if op = .inClassString then invalidEscape rest else .ok (.property p, rest)
  else if ch = byte 'p' || ch = byte 'P' then
    if op = .inClassString then invalidEscape rest
    else if C.mode = .bmp then .ok (.char ch, rest)
    else parseUnicodePropertyEscape C.ucp C.mode start
  else if ch = byte 'x' then
    match hexDigits 2 0 rest with
    | (some c, rest) => .ok (.char c, rest)
    | (none, rest') => if C.mode = .bmp then .ok (.char ch, rest) else invalidEscape rest'
  else if ch = byte 'u' then
    match parseUnicodeEscape C.unicode start with
    | (some c, rest) => .ok (.char c, rest)
    | (none, rest') =>
      if C.mode = .bmp then .ok (.char ch, rest)
      else .error (.invalidUnicodeEscape (slice start rest'))
  else if ch = byte '-' && (op.isInCharClass || !C.unicode) then .ok (.char ch, rest)
  else if ch = byte '-' then invalidEscape rest
  else parseIdentityEscape C op forward start (ch :: rest)

/-- `parseAtomEscape`; `forward` is `direction()`. -/
def parseAtomEscape (op : EscapeParseOp) (forward : Bool) (start : Cursor) :
    Except Error (Tree × Cursor) :=
  match start.rest.drop 1 with
  | [] => .error .backslashAtEnd
  | ch :: rest =>
    if isDigit ch then parseBackRefOrOctal C op.isInCharClass start
    else if ch = byte 'k' then parseNamedBackRef C op.isInCharClass start
    else
      match parseCharEscape C op forward start.rest ch rest with
      | .error err => .error err
      | .ok (node, rest) => .ok (node, { start with rest := rest })

end Arsh.Regex.Parser
