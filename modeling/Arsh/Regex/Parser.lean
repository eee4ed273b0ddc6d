import Arsh.Regex.CharClasses
import Arsh.Regex.Vm

/-!
# The parser of patterns

`Parser` of `regex/parser.{h,cpp}`: the loop of `parse` with its stack of frames, groups and
quantifiers, and `operator()` around it. The loop is a machine.

`Config.checkNames` tells whether `newNamedCaptureGroup` refuses duplicated names. The source does;
without the check the parser accepts the patterns that have no other fault.
-/

namespace Arsh.Regex

namespace Parser

open UnicodeUtil

/-- `FrameType`, with the fields of the frame that it uses. -/
inductive FrameType where
  | none
  | group (type : GroupType) (groupIndex : Nat) (set unset : Modifier)
  | lookAround (type : LookAroundType)
  deriving DecidableEq, Repr

/-- `Frame`. Its `node` is a finished alternative for each `|` so far, and the items of the
alternative that is open. -/
structure Frame where
  type : FrameType
  alternatives : List Tree
  items : List Tree
  existingGroupNames : List Bytes
  mergedExistingGroupNames : List Bytes

namespace Frame

def new (type : FrameType) : Frame := ⟨type, [], [], [], []⟩

/-- The node of a frame that is closed. -/
def node (f : Frame) : Tree := Tree.ofAlternatives f.alternatives f.items

def append (f : Frame) (node : Tree) : Frame := { f with items := f.items ++ [node] }

def clearAndMergeGroupNames (f : Frame) : Frame :=
  { f with
    existingGroupNames := []
    mergedExistingGroupNames := f.mergedExistingGroupNames ++ f.existingGroupNames }

/-- What `|` does to a frame. -/
def nextAlternative (f : Frame) : Frame :=
  { f.clearAndMergeGroupNames with
    alternatives := f.alternatives ++ [Tree.ofItems f.items], items := [] }

/-- The node that a frame leaves in the frame below it. -/
def wrap (f : Frame) : Tree :=
  match f.type with
  | .none => f.node
  | .group type groupIndex set unset => .group type groupIndex set unset f.node
  | .lookAround type => .lookAround type f.node

end Frame

/-- The fields of `Parser` that change; the frames are not empty, `top` is the last one. -/
structure State where
  cursor : Cursor
  loopCount : Nat
  top : Frame
  below : List Frame
  directions : List Bool

namespace State

def groups (s : State) : Groups := s.cursor.groups

def rest (s : State) : Bytes := s.cursor.rest

def direction (s : State) : Bool := s.directions.headD true

def append (s : State) (node : Tree) : State := { s with top := s.top.append node }

def moveTo (s : State) (rest : Bytes) : State := { s with cursor := { s.cursor with rest := rest } }

/-- A new frame. -/
def push (s : State) (type : FrameType) (rest : Bytes) (g : Groups) : State :=
  { s with cursor := ⟨rest, g⟩, top := .new type, below := s.top :: s.below }

end State

variable (C : Config)

/-! ## Quantifiers -/

def isRepeatable (mode : Mode) : Option Tree → Bool
  | none => false
  | some (.lookAround .lookAhead _) | some (.lookAround .lookAheadNot _) => mode = .bmp
  | some (.lookAround .lookBehind _) | some (.lookAround .lookBehindNot _) => false
  | some _ => true

/-- The end of `tryToParseQuantifier`: `checkRepeatable` and `newLoopIndex`. -/
def repeatAtom (mode : Mode) (node : Option Tree) (loopCount : Nat) (old : Bytes)
    (min max : Nat) (rest : Bytes) : Except Error (Option Tree × Nat × Bytes) :=
  let (greedy, rest) := parseGreedy rest
  if min > max then .error .outOfOrderQuantifier
  else
    match node, isRepeatable mode node with
    | some p, true =>
      if loopCount = Tree.loopIndexMax then .error .quantifierLimit
      else .ok (some (p.repeatNode loopCount min max greedy), loopCount + 1, rest)
    | _, _ => .error (.notFollowAtom (slice old rest))

/-- `tryToParseQuantifier`: the node, `loopCount` and the position after it. -/
def tryToParseQuantifier (node : Option Tree) (loopCount : Nat) (old : Bytes) :
    Except Error (Option Tree × Nat × Bytes) :=
  match old with
  | [] => .ok (node, loopCount, old)
  | ch :: rest =>
    if ch = byte '?' then repeatAtom C.mode node loopCount old 0 1 rest
    else if ch = byte '*' then repeatAtom C.mode node loopCount old 0 Tree.unlimit rest
    else if ch = byte '+' then repeatAtom C.mode node loopCount old 1 Tree.unlimit rest
    else if ch = byte '{' then
      match parseQuantifierBounds old with
      | .error err => if C.mode = .bmp then .ok (node, loopCount, old) else .error err
      | .ok (min, max, rest) => repeatAtom C.mode node loopCount old min max rest
    else .ok (node, loopCount, old)

/-! ## Groups -/

def newCaptureGroup (g : Groups) : Except Error (Nat × Groups) :=
  if g.captureGroupCount = Tree.captureGroupIndexMax then .error .captureGroupLimit
  else .ok (g.captureGroupCount + 1, { g with captureGroupCount := g.captureGroupCount + 1 })

/-- The index is added to the entry of the name in `namedCaptureGroups`. -/
def addName (name : Bytes) (index : Nat) : List (Bytes × List Nat) → List (Bytes × List Nat)
  | [] => [(name, [index])]
  | e :: es => if e.1 = name then (e.1, e.2 ++ [index]) :: es else e :: addName name index es

/-- The name is in `existingGroupNames` of a frame. -/
def State.nameExists (s : State) (name : Bytes) : Bool :=
  (s.top :: s.below).any fun f => name ∈ f.existingGroupNames

/-- `newNamedCaptureGroup`: the index, with the name in the frame on top and in the map. -/
def newNamedCaptureGroup (s : State) (name : Bytes) : Except Error (Nat × State) :=
  if C.checkNames && s.nameExists name then .error (.duplicatedName name)
  else
    match newCaptureGroup s.groups with
    | .error err => .error err
    | .ok (index, g) =>
      .ok (index, { s with
        top := { s.top with existingGroupNames := name :: s.top.existingGroupNames }
        cursor :=
          { s.cursor with
            groups := { g with namedCaptureGroups := addName name index g.namedCaptureGroups } } })

/-- The look-around that begins at a position behind `(?`. -/
def lookAroundType (rest : Bytes) : Option (LookAroundType × Bytes) :=
  if startsWith ['='] rest then some (.lookAhead, rest.drop 1)
  else if startsWith ['!'] rest then some (.lookAheadNot, rest.drop 1)
  else if startsWith ['<', '='] rest then some (.lookBehind, rest.drop 2)
  else if startsWith ['<', '!'] rest then some (.lookBehindNot, rest.drop 2)
  else none

/-- The direction of matching in a look-around. -/
def isForward : LookAroundType → Bool
  | .lookAhead | .lookAheadNot => true
  | .lookBehind | .lookBehindNot => false

/-- "repeated modifier in group": the first one, in the order of `EACH_RE_MODIFIER`. -/
def repeatedModifier (set unset : Modifier) : Option Char :=
  if set.ignoreCase && unset.ignoreCase then some 'i'
  else if set.multiline && unset.multiline then some 'm'
  else if set.dotAll && unset.dotAll then some 's'
  else none

/-- The modifiers behind a `-`. -/
def parseUnsetModifiers (rest : Bytes) : Except Error (Modifier × Bytes) :=
  if startsWith ['-'] rest then parseModifiers ':' (rest.drop 1) else .ok (.none, rest)

/-- "parse modifiers" of `enterGroup`: the modifiers and the position behind the colon. -/
def parseGroupModifiers (old rest : Bytes) : Except Error (Modifier × Modifier × Bytes) :=
  match parseModifiers '-' rest with
  | .error err => .error err
  | .ok (set, rest) =>
    match parseUnsetModifiers rest with
    | .error err => .error err
    | .ok (unset, rest) =>
      if (set = .none && unset = .none) || !startsWith [':'] rest then
        .error (.invalidGroup (slice old rest))
      else
        match repeatedModifier set unset with
        | some ch => .error (.repeatedModifier ch)
        | none => .ok (set, unset, rest.drop 1)

/-- `enterGroup`, at a parenthesis. -/
def enterGroup (s : State) : Except Error State :=
  let old := s.rest
  let rest := old.drop 2
  if s.below.length + 1 = stackDepthLimit then .error .deeplyNested
  else if !startsWith ['?'] (old.drop 1) then
    match newCaptureGroup s.groups with
    | .error err => .error err
    | .ok (index, g) => .ok (s.push (.group .capture index .none .none) (old.drop 1) g)
  else if let some (type, rest) := lookAroundType rest then
    let s := s.push (.lookAround type) rest s.groups
    .ok { s with directions := isForward type :: s.directions }
  else if rest = [] then .error (.invalidGroup (slice old rest))
  else if startsWith [':'] rest then
    .ok (s.push (.group .nonCapture 0 .none .none) (rest.drop 1) s.groups)
  else if startsWith ['<'] rest then
    match parseCaptureGroupName C.ucp false old rest with
    | .error err => .error err
    | .ok (name, rest) =>
      match newNamedCaptureGroup C s name with
      | .error err => .error err
      | .ok (index, s) => .ok (s.push (.group .capture index .none .none) rest s.groups)
  else
    match parseGroupModifiers old rest with
    | .error err => .error err
    | .ok (set, unset, rest) => .ok (s.push (.group .modifier 0 set unset) rest s.groups)

/-- `exitGroup`, at a parenthesis: the node, and the state without the frame on top. -/
def exitGroup (s : State) : Except Error (Tree × State) :=
  match s.below with
  | [] => .error .unmatchedParen
  | parent :: below =>
    let names := s.top.clearAndMergeGroupNames.mergedExistingGroupNames
    let directions := match s.top.type with
      | .lookAround _ => s.directions.drop 1
      | _ => s.directions
    .ok (s.top.wrap, { s.moveTo (s.rest.drop 1) with
      top := { parent with existingGroupNames := names ++ parent.existingGroupNames }
      below := below
      directions := directions })

/-! ## The loop -/

/-- The end of `parse`. -/
def State.finish (s : State) : Except Error (Tree × State) :=
  if s.below ≠ [] then .error .unclosedGroup else .ok (s.top.node, s)

/-- `REPEAT`: the atom, if there is one, with its quantifier. -/
def State.quantify (s : State) (node : Option Tree) : State ⊕ Except Error (Tree × State) :=
  match tryToParseQuantifier C node s.loopCount s.rest with
  | .error err => .inr (.error err)
  | .ok (some p, loopCount, rest) => .inl ({ s.moveTo rest with loopCount := loopCount }.append p)
  -- a brace that begins no quantifier
  | .ok (none, _, rest) => .inl ((s.moveTo (rest.drop 1)).append (.char (rest.headD 0)))

/-- The cases of `parse` that make an atom, at the character `ch`: the atom (none where a quantifier
has nothing to repeat) and the cursor behind it. -/
def parseAtom (s : State) (ch : Nat) (rest : Bytes) : Except Error (Option Tree × Cursor) :=
  let char : Except Error (Option Tree × Cursor) :=
    .ok (some (.char ch), { s.cursor with rest := rest })
  if ch = byte '\\' then
    (parseAtomEscape C .default s.direction s.cursor).map fun r => (some r.1, r.2)
  else if ch = byte '.' then .ok (some .any, { s.cursor with rest := rest })
  else if ch = byte '*' || ch = byte '+' || ch = byte '?' || ch = byte '{' then .ok (none, s.cursor)
  else if ch = byte '[' then
    (parseCharClass C s.direction (s.below.length + 1) s.cursor).map fun r => (some r.1, r.2)
  else if ch = byte ']' then if C.unicode then .error .unmatchedBracket else char
  else if ch = byte '}' then if C.unicode then .error (.loneQuantifierBracket ch) else char
  else
    (nextValidCodePoint s.rest).map fun r => (some (.char r.1), { s.cursor with rest := r.2 })

/-- A round of the loop of `parse`, or what comes behind it. -/
def step (s : State) : State ⊕ Except Error (Tree × State) :=
  match s.rest with
  | [] => .inr s.finish
  | ch :: rest =>
    if ch = byte '^' then .inl ((s.moveTo rest).append (.boundary .start))
    else if ch = byte '$' then .inl ((s.moveTo rest).append (.boundary .stop))
    else if ch = byte '(' then
      match enterGroup C s with
      | .error err => .inr (.error err)
      | .ok s => .inl s
    else if ch = byte ')' then
      match exitGroup s with
      | .error err => .inr (.error err)
      | .ok (node, s) => s.quantify C (some node)
    else if ch = byte '|' then .inl { s.moveTo rest with top := s.top.nextAlternative }
    else
      match parseAtom C s ch rest with
      | .error err => .inr (.error err)
      -- only an escape is a boundary
      | .ok (some (.boundary type), cursor) =>
        .inl ({ s with cursor := cursor }.append (.boundary type))
      | .ok (node, cursor) => { s with cursor := cursor }.quantify C node

/-- The fields at the start of `operator()`. -/
def State.init (text : Bytes) : State where
  cursor := ⟨text, ⟨false, 0, 0, 0, [], []⟩⟩
  loopCount := 0
  top := .new .none
  below := []
  directions := [true]

/-- `parse`, with the state that it leaves. -/
def parse (text : Bytes) : Except Error (Tree × State) :=
  Machine.runTo (step C) State.finish text.length (.init text)

end Parser

/-! ## The syntax tree -/

/-- An entry of `NamedCaptureGroups`, of the indices with one name. -/
def NamedCaptureEntry.ofIndices : List Nat → NamedCaptureEntry
  | [index] => .single index
  | indices => .multiple indices

def NamedCaptureEntry.indices : NamedCaptureEntry → List Nat
  | .single index => [index]
  | .multiple indices => indices

mutual

/-- `setIndex` on the named back references: the offset of the entry of the name. -/
def Tree.setIndices (offset : List Nat → Nat) : Tree → Tree
  | .charClass type invert strings ps =>
    .charClass type invert strings (Tree.setIndicesList offset ps)
  | .backRef index name => .backRef (if name = [] then index else offset name) name
  | .repeated loopIndex first last min max greedy p =>
    .repeated loopIndex first last min max greedy (p.setIndices offset)
  | .seq ps => .seq (Tree.setIndicesList offset ps)
  | .alt ps => .alt (Tree.setIndicesList offset ps)
  | .lookAround type p => .lookAround type (p.setIndices offset)
  | .group type groupIndex set unset p => .group type groupIndex set unset (p.setIndices offset)
  | t => t

def Tree.setIndicesList (offset : List Nat → Nat) : List Tree → List Tree
  | [] => []
  | p :: ps => p.setIndices offset :: Tree.setIndicesList offset ps

end

structure SyntaxTree where
  flag : Flag
  loopCount : Nat
  captureGroupCount : Nat
  pattern : Tree
  namedCaptureGroups : List (List Nat × NamedCaptureEntry)

namespace Parser

variable (C : Config)

/-- `operator()` behind `parse`: every named back reference gets its entry. -/
def resolveNames (modifiers : Modifier) (r : Tree × State) : Except Error SyntaxTree :=
  let g := r.2.groups
  match g.namedRefs.find? fun name => name ∉ g.namedCaptureGroups.map (·.1) with
  | some name => .error (.undefinedName name)
  | none =>
    .ok {
      flag := ⟨C.mode, modifiers⟩
      loopCount := r.2.loopCount
      captureGroupCount := g.captureGroupCount
      pattern := r.1.setIndices fun name => g.namedCaptureGroups.findIdx (·.1 = name)
      namedCaptureGroups :=
        g.namedCaptureGroups.map fun e => (e.1, NamedCaptureEntry.ofIndices e.2) }

/-- `operator()`. -/
def parser (modifiers : Modifier) (text : Bytes) : Except Error SyntaxTree :=
  (parse C text).bind (resolveNames C modifiers)

end Parser

end Arsh.Regex
