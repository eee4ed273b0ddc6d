import Arsh.Regex.Atoms

/-!
# Reading character classes

`parseCharClass` of `regex/parser.cpp`. Its frames are the classes that are open, innermost first;
`depth` is the number of frames below them. In the unicode-sets mode a class may hold nested
classes, set operations and strings.
-/

namespace Arsh.Regex

namespace CharClass

/-- The element before the last one. -/
def beforeLast (cls : CharClass) : Option Tree := cls.chars.dropLast.getLast?

/-- `isProperty` of the element before the last one, for `RANGE`. -/
def isAfterRange (cls : CharClass) : Bool :=
  match cls.beforeLast with
  | some (.property p) => p = .range
  | _ => false

/-- The code point of the `CharNode` at the left end of a range. -/
def leftCodePoint (cls : CharClass) : Nat :=
  match cls.beforeLast with
  | some (.char c) => c
  | _ => 0

end CharClass

namespace Parser

def stackDepthLimit : Nat := 256

def isChar : Tree → Bool
  | .char _ => true
  | _ => false

/-- "check char range": the class before `node` is added to it. -/
def checkRange (mode : Mode) (cls : CharClass) (node : Tree) : Except Error CharClass :=
  if cls.hasUnterminatedCharOp && cls.isUnionOrRange then
    match node with
    | .char right => if cls.leftCodePoint > right then .error .outOfOrderRange else .ok cls
    | _ =>
      if mode = .bmp then
        .ok { cls with chars := cls.chars.dropLast ++ [.char (byte '-')] }
      else .error .invalidRange
  else .ok cls

/-- The set operator at a position, with the type it gives to the class and its text. -/
def parseSetOperator (rest : Bytes) :
    Except Error (Option (CharClassType × Property × Bytes)) :=
  if startsWith ['&', '&'] rest then
    if startsWith ['&'] (rest.drop 2) then .error (.invalidClassChar (byte '&'))
    else .ok (some (.intersect, .intersect, rest.take 2))
  else if startsWith ['-', '-'] rest then .ok (some (.subtract, .subtract, rest.take 2))
  else if startsWith ['-'] rest then .ok (some (.range, .range, rest.take 1))
  else .ok none

/-- "resolve set operation" in the unicode-sets mode: `node` is added to the class. -/
def resolveSetOperation (cls : CharClass) (node : Tree) (old : Bytes) :
    Except Error (CharClass × Bytes) :=
  if !(cls.hasUnterminatedCharOp || cls.isUnionOrRange) then .error .mixedSetOperation
  else
    let cls := cls.add node
    match parseSetOperator old with
    | .error err => .error err
    | .ok none => .ok (cls, old)
    | .ok (some (type, p, op)) =>
      let rest := old.drop op.length
      if !cls.isCompatible type then .error .mixedSetOperation
      else if type = .range && (!isChar node || cls.isAfterRange) then .error .invalidRange
      else if rest = [] || startsWith [ ']'] rest then .error (.missingOperand op)
      else .ok ({ cls with type := type }.add (.property p), rest)

/-- "resolve set operation" in the other modes, where a `-` is the only operator. -/
def resolveRange (mode : Mode) (cls : CharClass) (node : Tree) (old : Bytes) :
    Except Error (CharClass × Bytes) :=
  let cls := cls.add node
  if startsWith ['-'] old then
    let rest := old.drop 1
    let literal := cls.add (.char (byte '-'))
    if rest = [] || startsWith [ ']'] rest then .ok (literal, rest)
    else if !isChar node then if mode = .bmp then .ok (literal, rest) else .error .invalidRange
    else if !cls.isAfterRange then
      .ok ({ cls with type := .range }.add (.property .range), rest)
    else .ok (literal, rest)
  else .ok (cls, old)

def parseCodePointInCharClass (mode : Mode) (rest : Bytes) : Except Error (Tree × Bytes) :=
  if mode = .unicodeSet && startsWithClassSetReservedDoublePunctuator rest then
    .error (.invalidSetOperation (rest.take 2))
  else if mode = .unicodeSet && isClassSetSyntaxCharacter (rest.headD 0) then
    .error (.invalidClassChar (rest.headD 0))
  else (nextValidCodePoint rest).map fun r => (.char r.1, r.2)

variable (C : Config) (forward : Bool)

/-! ## Strings -/

/-- The variables of the loop of `parseClassString`: the open `AltNode` and the position. -/
structure ClassString where
  alternatives : List Tree
  items : List Tree
  cursor : Cursor

/-- `appendToLast`. -/
def ClassString.append (s : ClassString) (node : Tree) (cursor : Cursor) : ClassString :=
  { s with items := s.items ++ [node], cursor := cursor }

/-- A round of the loop of `parseClassString`. -/
def classStringStep (s : ClassString) : ClassString ⊕ Except Error (Tree × Cursor) :=
  match s.cursor.rest with
  | [] => .inr (.error .unclosedSubstring)
  | ch :: rest =>
    if ch = byte '\\' then
      match parseAtomEscape C .inClassString forward s.cursor with
      | .error err => .inr (.error err)
      | .ok (node, cursor) => .inl (s.append node cursor)
    else if ch = byte '}' then
      .inr (.ok (.alt (s.alternatives ++ [Tree.ofItems s.items]), { s.cursor with rest := rest }))
    else if ch = byte '|' then
      .inl ⟨s.alternatives ++ [Tree.ofItems s.items], [], { s.cursor with rest := rest }⟩
    else
      match parseCodePointInCharClass C.mode s.cursor.rest with
      | .error err => .inr (.error err)
      | .ok (node, rest) => .inl (s.append node { s.cursor with rest := rest })

/-- `parseClassString`, at a `\q`. -/
def parseClassString (old : Cursor) : Except Error (Tree × Cursor) :=
  if !startsWith ['{'] (old.rest.drop 2) then .error (.invalidEscape (old.rest.take 2))
  else
    Machine.runTo (classStringStep C forward) (fun _ => .error .unclosedSubstring)
      old.rest.length ⟨[], [], { old with rest := old.rest.drop 3 }⟩

/-! ## Classes -/

/-- The variables of the loop of `parseCharClass` behind the first bracket. -/
structure ClassState where
  top : CharClass
  below : List CharClass
  cursor : Cursor

/-- A new class, behind the opening bracket. -/
def openClass (below : List CharClass) (cursor : Cursor) : ClassState :=
  let invert := startsWith ['^'] cursor.rest
  ⟨⟨.union, invert, []⟩, below,
    { cursor with rest := if invert then cursor.rest.drop 1 else cursor.rest }⟩

/-- The end of a round: `node` is added to the class. -/
def ClassState.add (s : ClassState) (node : Tree) : ClassState ⊕ Except Error (Tree × Cursor) :=
  match checkRange C.mode s.top node with
  | .error err => .inr (.error err)
  | .ok cls =>
    match if C.mode = .unicodeSet then resolveSetOperation cls node s.cursor.rest
      else resolveRange C.mode cls node s.cursor.rest with
    | .error err => .inr (.error err)
    | .ok (cls, rest) => .inl { s with top := cls, cursor := { s.cursor with rest := rest } }

/-- One element of a class that is no class itself. -/
def parseClassAtom (cursor : Cursor) : Except Error (Tree × Cursor) :=
  if C.mode = .unicodeSet && startsWith ['\\', 'q'] cursor.rest then
    parseClassString C forward cursor
  else if startsWith ['\\'] cursor.rest then parseAtomEscape C .inCharClass forward cursor
  else if startsWith [ '['] cursor.rest then
    .ok (.char (byte '['), { cursor with rest := cursor.rest.drop 1 })
  else
    match parseCodePointInCharClass C.mode cursor.rest with
    | .error err => .error err
    | .ok (node, rest) => .ok (node, { cursor with rest := rest })

/-- A round of the loop of `parseCharClass`. -/
def classStep (depth : Nat) (s : ClassState) : ClassState ⊕ Except Error (Tree × Cursor) :=
  match s.cursor.rest with
  | [] => .inr (.error .unclosedCharClass)
  | ch :: rest =>
    if ch = byte '[' && C.mode = .unicodeSet then
      if depth + s.below.length + 1 = stackDepthLimit then .inr (.error .deeplyNested)
      else .inl (openClass (s.top :: s.below) { s.cursor with rest := rest })
    else if ch = byte ']' then
      match s.top.finalize, s.below with
      | none, _ => .inr (.error .negatedStrings)
      | some node, [] => .inr (.ok (node, { s.cursor with rest := rest }))
      | some node, cls :: below =>
        ClassState.add C ⟨cls, below, { s.cursor with rest := rest }⟩ node
    else
      match parseClassAtom C forward s.cursor with
      | .error err => .inr (.error err)
      | .ok (node, cursor) => ClassState.add C { s with cursor := cursor } node

/-- `parseCharClass`, at a bracket. -/
def parseCharClass (depth : Nat) (old : Cursor) : Except Error (Tree × Cursor) :=
  if depth = stackDepthLimit then .error .deeplyNested
  else
    Machine.runTo (classStep C forward depth) (fun _ => .error .unclosedCharClass)
      old.rest.length (openClass [] { old with rest := old.rest.drop 1 })

end Parser

end Arsh.Regex
