import Arsh.Lib.Machine
import Arsh.Regex.Emit
import Arsh.Regex.Input

/-!
# The regex virtual machine

`match` of `regex/vm.cpp` as a machine. Its labels `START`, `BACKTRACK`, `LOOP`,
`RADIX_OR_EMOJI` and `LBRADIX_OR_EMOJI` are the machine's control states, beside the dispatch of
the instruction at `inst`; the loop of `BacktrackStack::backtrack` takes one step for each entry
it pops. Pointers into the input are byte offsets, pointers into the code are indices.

The `uint32_t` fields of captures and loop counters wrap as in the source.
-/

namespace Arsh.Regex

open UnicodeUtil

/-! ## Captures, loops and the backtrack stack -/

structure Capture where
  offset : Nat
  size : Nat
  deriving DecidableEq, Repr

namespace Capture

/-- The default value, both fields `UINT32_MAX`. -/
def unset : Capture := ⟨2 ^ 32 - 1, 2 ^ 32 - 1⟩

def isUnset (c : Capture) : Bool := c.offset == 2 ^ 32 - 1 && c.size == 2 ^ 32 - 1

def endOffset (c : Capture) : Nat := (c.offset + c.size) % 2 ^ 32

end Capture

abbrev Captures := Nat → Capture

/-- `a - b` on `uint32_t`. -/
def sub32 (a b : Nat) : Nat := (a + 2 ^ 32 - b) % 2 ^ 32

structure LoopState where
  count : Nat
  inputOffset : Nat
  deriving DecidableEq, Repr

def LoopState.init : LoopState := ⟨0, 0⟩

abbrev Loops := Nat → LoopState

inductive Backtrack where
  | setIns (target iter : Nat)
  | setCapture (index : Nat) (capture : Capture)
  | setLoopState (loopIndex : Nat) (state : LoopState)
  | nonGreedyLoop (loopIndex : Nat) (state : LoopState)
  | lookAround (negate matched : Bool) (target iter : Nat)
  | radixState (consumedSize : Nat)
  deriving DecidableEq, Repr

def maxStackDepth : Nat := 0xFFFFFF

/-- The loop of `computeMaxStackCap`; the capacity grows by half from `INIT_CAP`. -/
def maxStackCapLoop : Nat → Nat → Nat → Nat
  | 0, cap, _ => cap
  | fuel + 1, cap, newCap =>
    if newCap ≤ maxStackDepth then maxStackCapLoop fuel newCap (newCap + newCap / 2) else cap

def maxStackCap : Nat := maxStackCapLoop 64 0 6

/-- `BacktrackStack`, the last entry pushed first. Its largest capacity is a parameter: that of the
source is `MAX_STACK_CAP`, and a stack without one never gets full. -/
structure BacktrackStack (cap : Option Nat := some maxStackCap) where
  entries : List Backtrack
  size_le : ∀ c ∈ cap, entries.length ≤ c

namespace BacktrackStack

variable {cap : Option Nat}

def nil : BacktrackStack cap := ⟨[], fun _ _ => Nat.zero_le _⟩

/-- `push`; it fails when the largest capacity is used up. -/
def push (s : BacktrackStack cap) (e : Backtrack) : Option (BacktrackStack cap) :=
  if h : cap = some s.entries.length then none
  else some ⟨e :: s.entries, fun c hc =>
    Nat.lt_of_le_of_ne (s.size_le c hc) fun he => h (he ▸ hc)⟩

/-- A stack made of entries of `s`. -/
def shrink (s : BacktrackStack cap) (es : List Backtrack) (h : es.length ≤ s.entries.length) :
    BacktrackStack cap := ⟨es, fun c hc => Nat.le_trans h (s.size_le c hc)⟩

def pop (s : BacktrackStack cap) : Option (Backtrack × BacktrackStack cap) :=
  match h : s.entries with
  | [] => none
  | e :: es => some (e, s.shrink es (by rw [h]; exact Nat.le_succ _))

/-- The loops of `cleanupLookAround`: the captures, `matched` and `iter` of the innermost
look-around entry and the entries below it. A negated look-around resets the captures set since
it began. -/
def cleanupLoop (negate : Bool) :
    List Backtrack → Captures → Option (Captures × Bool × Nat × List Backtrack)
  | [], _ => none
  | .lookAround _ matched _ iter :: es, captures => some (captures, matched, iter, es)
  | .setCapture index capture :: es, captures =>
    cleanupLoop negate es (if negate then Function.update captures index capture else captures)
  | _ :: es, captures => cleanupLoop negate es captures

/-- `negate` of the innermost look-around entry. -/
def findNegate : List Backtrack → Bool
  | [] => false
  | .lookAround negate .. :: _ => negate
  | _ :: es => findNegate es

/-- The entries that record captures set since the innermost look-around began. -/
def captureEntries : List Backtrack → List Backtrack
  | [] => []
  | .lookAround .. :: _ => []
  | .setCapture index capture :: es => .setCapture index capture :: captureEntries es
  | _ :: es => captureEntries es

theorem cleanupLoop_length {negate : Bool} {es : List Backtrack} {captures : Captures}
    {r : Captures × Bool × Nat × List Backtrack} (h : cleanupLoop negate es captures = some r) :
    (captureEntries es).length + r.2.2.2.length ≤ es.length := by
  induction es generalizing captures with
  | nil => cases h
  | cons e es ih =>
    cases e with
    | lookAround =>
      simp only [cleanupLoop, Option.some.injEq] at h
      subst h
      simp [captureEntries]
    | setCapture => simpa [captureEntries, Nat.add_right_comm] using ih h
    | _ => exact Nat.le_succ_of_le (ih h)

/-- `cleanupLookAround`: everything down to the look-around entry is popped. With `keep` the
entries that undo captures stay on the stack when the look-around is a positive one; the source
drops them (`keep = false`). -/
def cleanupLookAround (keep : Bool) (s : BacktrackStack cap) (captures : Captures) :
    Option (Captures × Bool × Nat × BacktrackStack cap) :=
  match h : cleanupLoop (findNegate s.entries) s.entries captures with
  | none => none
  | some (captures, matched, iter, es) =>
    some (captures, matched, iter, s.shrink
      ((if keep && !findNegate s.entries then captureEntries s.entries else []) ++ es) (by
        have := cleanupLoop_length h
        rw [List.length_append]
        split
        · exact this
        · exact Nat.le_trans (Nat.add_le_add_right (Nat.zero_le _) _) this))

/-- `updateRadixState`, of the topmost entry. -/
def updateRadixState (s : BacktrackStack cap) (size : Nat) : BacktrackStack cap :=
  match h : s.entries with
  | [] => s
  | _ :: es => s.shrink (.radixState size :: es) (by rw [h]; exact Nat.le_refl _)

def getRadixState (s : BacktrackStack cap) : Nat :=
  match s.entries with
  | .radixState size :: _ => size
  | _ => 0

end BacktrackStack

/-! ## Reading the input -/

def isLineTerminator (c : Nat) : Bool := c == 10 || c == 13 || c == 0x2028 || c == 0x2029

def isWord (c : Nat) : Bool :=
  (65 ≤ c && c ≤ 90) || (97 ≤ c && c ≤ 122) || (48 ≤ c && c ≤ 57) || c == 95

/-- `consumeForward` or `consumeBackward`, when there is a character to consume. -/
def consume (bytes : List Nat) (forward : Bool) (iter : Nat) : Option (Nat × Nat) :=
  if forward then if iter ≠ bytes.length then some (unsafeNextUtf8 bytes iter) else none
  else if iter ≠ 0 then some (unsafePrevUtf8 bytes iter) else none

/-- Whether the character after the cursor, or backwards before it, is a word character. -/
def isWordAt (bytes : List Nat) (word : Nat → Bool) (forward : Bool) (iter : Nat) : Bool :=
  match consume bytes forward iter with
  | some (c, _) => word c
  | none => false

/-- `\b` and `\B`. -/
def isWordBoundary (bytes : List Nat) (word : Nat → Bool) (invert : Bool) (iter : Nat) : Bool :=
  let prevIsWord := isWordAt bytes word false iter
  let curIsWord := isWordAt bytes word true iter
  if invert then prevIsWord == curIsWord else prevIsWord != curIsWord

/-- `$`, or backwards `^`. -/
def isLineBoundary (bytes : List Nat) (forward multiline : Bool) (iter : Nat) : Bool :=
  match consume bytes forward iter with
  | some (c, _) => multiline && isLineTerminator c
  | none => true

/-- `expectForward` and `expectBackward`: the position after the needle. -/
def expect (bytes : List Nat) (forward : Bool) (iter : Nat) (needle : List Nat) : Option Nat :=
  if forward then
    if needle.isPrefixOf (bytes.drop iter) then some (iter + needle.length) else none
  else if needle.isSuffixOf (bytes.take iter) then some (iter - needle.length) else none

/-- The loop of `remainForwardOfCodePoints` and `remainBackwardOfCodePoints`: the position
`count` characters away, or the end of the input. -/
def skipCodePoints (bytes : List Nat) (forward : Bool) : Nat → Nat → Nat
  | 0, iter => iter
  | count + 1, iter =>
    if forward then
      if iter < bytes.length then
        skipCodePoints bytes forward count (iter + utf8ByteSize (bytes.getD iter 0))
      else iter
    else if iter > 0 then skipCodePoints bytes forward count (unsafePrevUtf8 bytes iter).2
    else iter

/-- The bytes `from..to`. -/
def slice (bytes : List Nat) (i j : Nat) : List Nat := (bytes.take j).drop i

/-- The folded copy of a text. Every round reads at least one byte, so `fuel` only has to be
the number of bytes. -/
def foldLoop (T : Tables) (ref : List Nat) : Nat → Nat → List Nat
  | 0, _ => []
  | fuel + 1, iter =>
    if iter = ref.length then []
    else
      let (c, iter) := unsafeNextUtf8 ref iter
      codePointToUtf8 (T.simpleCaseFolding c) ++ foldLoop T ref fuel iter

/-- Steps over the same number of characters in two texts until one of them ends. -/
def remapLoop (xs ys : List Nat) : Nat → Nat → Nat → Nat
  | 0, _, j => j
  | fuel + 1, i, j =>
    if i = xs.length || j = ys.length then j
    else remapLoop xs ys fuel (i + utf8ByteSize (xs.getD i 0)) (j + utf8ByteSize (ys.getD j 0))

/-- The remapping of a match in the folded text to the byte size in the original one. -/
def remap (folded : List Nat) (caseFold : Bool) (ref : List Nat) (r : Nat × Nat) : Nat × Nat :=
  if caseFold && r.2 != 0 then (remapLoop (folded.take r.1) ref r.1 0 0, r.2) else r

/-- `findLongestMatched` of the virtual machine. -/
def findLongestMatched (T : Tables) (tree : RadixTree) (ref : List Nat) (caseFold : Bool) :
    Nat × Nat :=
  let folded := if caseFold then foldLoop T ref ref.length 0 else ref
  remap folded caseFold ref (tree.findLongestMatched folded)

/-- The loop of `findBackwardLongestMatched` over the suffixes of `ref` (and of the text `old`
it was folded from). -/
def findBackwardLoop (tree : RadixTree) (caseFold : Bool) : Nat → List Nat → List Nat → Nat × Nat
  | 0, _, _ => (0, 0)
  | fuel + 1, ref, old =>
    if ref.isEmpty then (0, 0)
    else
      let r := remap ref caseFold old (tree.findLongestMatched ref)
      if r.1 = old.length then r
      else
        let ref := ref.drop (utf8ByteSize (ref.getD 0 0))
        findBackwardLoop tree caseFold fuel ref
          (if caseFold then old.drop (utf8ByteSize (old.getD 0 0)) else ref)

def findBackwardLongestMatched (T : Tables) (tree : RadixTree) (ref : List Nat)
    (caseFold : Bool) : Nat × Nat :=
  let folded := if caseFold then foldLoop T ref ref.length 0 else ref
  findBackwardLoop tree caseFold folded.length folded ref

/-- `hasFlag` on the emoji flags. -/
def hasFlag (flags p : Nat) : Bool := flags &&& p == p

/-- The flags as the instruction keeps them: `CASE_IGNORE` is one of them. -/
def rawFlags (flags : Nat) (ignoreCase : Bool) : Nat := if ignoreCase then flags ||| 0x80 else flags

/-- The size of the longest string of a set (emoji sequences with `flags`, the strings of
`radix`) that starts, or backwards ends, at the cursor and lies within `ref`. -/
def consumedSize (T : Tables) (forward : Bool) (flags : Nat) (radix : Option RadixTree)
    (ignoreCase : Bool) (ref : List Nat) : Nat :=
  let find := if forward then findLongestMatched T else findBackwardLongestMatched T
  let emoji :=
    if flags != 0 then
      let (s, p) := find T.emojiTrie ref ignoreCase
      if p != 0 && hasFlag (rawFlags flags ignoreCase) p then s else 0
    else 0
  match radix with
  | some tree =>
    let (s, p) := find tree ref ignoreCase
    if p != 0 then max emoji s else emoji
  | none => emoji

/-- The code point count that bounds the strings of such a set. -/
def maxCodePoints (T : Tables) (flags : Nat) (radixCount : Option Nat) : Nat :=
  let emoji := if flags != 0 then T.emojiTrie.maxCodePointCount else 0
  match radixCount with
  | some count => max emoji count
  | none => emoji

/-! ## Back-references -/

inductive NamedCaptureEntry where
  | single (index : Nat)
  | multiple (indices : List Nat)
  deriving DecidableEq, Repr

/-- What matching depends on beside the program. -/
structure Subject where
  tables : Tables
  bytes : List Nat
  named : List NamedCaptureEntry

def resolveBackRef (named : List NamedCaptureEntry) (captures : Captures) (index : Nat) :
    Bool → Capture
  | false => captures index
  | true =>
    match named.getD index (.multiple []) with
    | .single i => captures i
    | .multiple is => ((is.map captures).find? (!·.isUnset)).getD .unset

/-- The loop of a back-reference that ignores case: the characters of `ref` (read from its start,
or backwards from its end) against the input. -/
def ibackRefLoop (T : Tables) (bytes ref : List Nat) (forward : Bool) :
    Nat → Nat → Nat → Option Nat
  | 0, _, iter => some iter
  | fuel + 1, i, iter =>
    match consume ref forward i with
    | none => some iter
    | some (x, i) =>
      match consume bytes forward iter with
      | some (c, iter) =>
        if T.simpleCaseFolding x = T.simpleCaseFolding c then
          ibackRefLoop T bytes ref forward fuel i iter
        else none
      | none => none

/-- The position after a back-reference. -/
def backRefIter (S : Subject) (captures : Captures) (forward : Bool) (index : Nat)
    (named ignoreCase : Bool) (iter : Nat) : Option Nat :=
  let capture := resolveBackRef S.named captures index named
  if capture.isUnset then some iter
  else
    let ref := slice S.bytes capture.offset (capture.offset + capture.size)
    if ignoreCase then
      ibackRefLoop S.tables S.bytes ref forward ref.length (if forward then 0 else ref.length) iter
    else expect S.bytes forward iter ref

/-! ## The machine -/

/-- `Regex`: what `CodeGen` produces. -/
structure CompiledRegex where
  instSeq : List Inst
  matchers : List Matcher
  firstBitSet : List Nat
  named : List NamedCaptureEntry

/-- The matcher of an instruction. -/
def CompiledRegex.matcher (re : CompiledRegex) (index : Nat) : Matcher :=
  re.matchers.getD index (.string [])

/-- The radix tree of a string set instruction, if it has one. -/
def CompiledRegex.radix (re : CompiledRegex) (ins : RadixIns) : Option Matcher :=
  if ins.hasRadix then some (re.matcher ins.index) else none

inductive TimerStatus where
  | none
  | canceled
  | expired
  deriving DecidableEq, Repr

/-- The parameters of a call of `match`. The answers of `Timer::check` are given by `timer`, in
the order of the calls. -/
structure Env where
  tables : Tables
  regex : CompiledRegex
  bytes : List Nat
  prefilter : Bool
  timer : Option (Nat → TimerStatus)

def Env.subject (E : Env) : Subject := ⟨E.tables, E.bytes, E.regex.named⟩

@[simp] theorem Env.subject_tables (E : Env) : E.subject.tables = E.tables := rfl

@[simp] theorem Env.subject_bytes (E : Env) : E.subject.bytes = E.bytes := rfl

inductive MatchStatus where
  | ok
  | fail
  | cancel
  | timeout
  | stackLimit
  /-- a failed assertion, which the source does not expect -/
  | stuck
  deriving DecidableEq, Repr

structure MatchResult where
  status : MatchStatus
  captures : Captures
  iter : Nat

inductive Label where
  | start
  | dispatch
  | backtrack
  | loop
  | radixOrEmoji
  | lbRadixOrEmoji
  deriving DecidableEq, Repr

structure State (cap : Option Nat := some maxStackCap) where
  label : Label
  inst : Nat
  iter : Nat
  oldIter : Nat
  captures : Captures
  loops : Loops
  stack : BacktrackStack cap
  btCount : Nat
  ticks : Nat

abbrev Step (cap : Option Nat := some maxStackCap) := State cap ⊕ MatchResult

variable {cap : Option Nat}

namespace State

/-- The state at the beginning of `match`, with the cursor at `iter`. -/
def init (iter : Nat) : State cap where
  label := .start
  inst := 0
  iter := iter
  oldIter := iter
  captures := fun _ => .unset
  loops := fun _ => .init
  stack := .nil
  btCount := 0
  ticks := 0

def halt (s : State cap) (status : MatchStatus) : Step cap := .inr ⟨status, s.captures, s.iter⟩

/-- The next instruction. -/
def next (s : State cap) : State cap := { s with label := .dispatch, inst := s.inst + 1 }

def goto (s : State cap) (inst : Nat) : State cap := { s with label := .dispatch, inst := inst }

/-- `goto BACKTRACK`. -/
def backtrack (s : State cap) : State cap := { s with label := .backtrack }

/-- `TRY(bts.push(e))`, then `k`. -/
def tryPush (s : State cap) (e : Backtrack) (k : State cap → Step cap) : Step cap :=
  match s.stack.push e with
  | none => s.halt .stackLimit
  | some stack => k { s with stack := stack }

end State

/-- The instructions that consume one character. -/
def single (E : Env) (s : State cap) (forward : Bool) (test : Nat → Bool) : Step cap :=
  match consume E.bytes forward s.iter with
  | some (c, iter) =>
    let s := { s with iter := iter }
    if test c then .inl s.next else .inl s.backtrack
  | none => .inl s.backtrack

/-- The zero-width instructions. -/
def check (s : State cap) (test : Bool) : Step cap := if test then .inl s.next else .inl s.backtrack

/-- `String` and `LBString`. -/
def stringIns (E : Env) (s : State cap) (forward : Bool) (index : Nat) : Step cap :=
  match expect E.bytes forward s.iter (E.regex.matcher index).asStrRef with
  | some iter => .inl { s with iter := iter }.next
  | none => .inl s.backtrack

/-- `BackRef`, `IBackRef` and `LBBackRef`. -/
def backRefIns (E : Env) (s : State cap) (forward : Bool) (index : Nat) (named ignoreCase : Bool) :
    Step cap :=
  match backRefIter E.subject s.captures forward index named ignoreCase s.iter with
  | some iter => .inl { s with iter := iter }.next
  | none => .inl s.backtrack

/-- The loop of `ResetCaptures`, over `n` groups from `i` on. -/
def resetCaptures : Nat → Nat → State cap → Step cap
  | 0, _, s => .inl s.next
  | n + 1, i, s => s.tryPush (.setCapture i (s.captures i)) fun s =>
    resetCaptures n (i + 1) { s with captures := Function.update s.captures i .unset }

/-- `prepareLoopBody`, and on to the body of the loop. -/
def prepareLoopBody (s : State cap) (begin loopIndex : Nat) : Step cap :=
  s.tryPush (.setLoopState loopIndex (s.loops loopIndex)) fun s =>
    let loop := s.loops loopIndex
    .inl ({ s with
      loops := Function.update s.loops loopIndex ⟨(loop.count + 1) % 2 ^ 32, s.iter⟩ }.goto
        (begin + 1))

/-- The code at `LOOP`; `inst` is the `BeginLoop` instruction. -/
def loopStep (s : State cap) (ins : BeginLoopIns) : Step cap :=
  let loop := s.loops ins.loopIndex
  if loop.inputOffset = s.iter && decide (loop.count > ins.min) then .inl s.backtrack
  else if loop.count < ins.min then prepareLoopBody s s.inst ins.loopIndex
  else if loop.count = ins.max then .inl (s.goto ins.outer)
  else if ins.greedy then
    s.tryPush (.setIns ins.outer s.iter) fun s => prepareLoopBody s s.inst ins.loopIndex
  else
    s.tryPush (.setIns s.inst s.iter) fun s =>
      s.tryPush (.nonGreedyLoop ins.loopIndex loop) fun s => .inl (s.goto ins.outer)

/-- The text that `RadixState` allows a string set to look at. -/
def radixRef (bytes : List Nat) (forward : Bool) (iter size : Nat) : List Nat :=
  if forward then slice bytes iter (iter + size) else slice bytes (iter - size) iter

/-- The byte size of the next `count` characters. -/
def remainSize (bytes : List Nat) (forward : Bool) (count iter : Nat) : Nat :=
  let stop := skipCodePoints bytes forward count iter
  if forward then stop - iter else iter - stop

/-- The size of `radixRef` without the character farthest from the cursor. -/
def shortenSize (bytes : List Nat) (forward : Bool) (iter size : Nat) : Nat :=
  let ref := radixRef bytes forward iter size
  if forward then (unsafePrevUtf8 ref ref.length).2
  else ref.length - utf8ByteSize (ref.getD 0 0)

/-- `PrepareRadix` and `PrepareLBRadix`. -/
def prepareRadix (E : Env) (s : State cap) (forward : Bool) (ins : RadixIns) : Step cap :=
  let count := maxCodePoints E.tables ins.emoji ((E.regex.radix ins).map (·.maxCodePointCount))
  let size := remainSize E.bytes forward count s.iter
  s.tryPush (.radixState size) fun s =>
    .inl { s with
      label := if forward then .radixOrEmoji else .lbRadixOrEmoji, inst := s.inst + 1 }

/-- `RadixOrEmoji` and `LBRadixOrEmoji` on being resumed: the last string found is shortened by
one character. -/
def shortenRadix (E : Env) (s : State cap) (forward : Bool) : Step cap :=
  .inl { s with
    label := if forward then .radixOrEmoji else .lbRadixOrEmoji
    stack := s.stack.updateRadixState
      (shortenSize E.bytes forward s.iter s.stack.getRadixState) }

/-- The code at `RADIX_OR_EMOJI` and `LBRADIX_OR_EMOJI`. -/
def radixStep (E : Env) (s : State cap) (forward : Bool) (ins : RadixIns) : Step cap :=
  let strSize := s.stack.getRadixState
  if strSize != 0 && (consume E.bytes forward s.iter).isSome then
    let ref := radixRef E.bytes forward s.iter strSize
    let size := consumedSize E.tables forward ins.emoji ((E.regex.radix ins).map (·.asRadixTree))
      ins.ignoreCase ref
    if size != 0 then
      { s with stack := s.stack.updateRadixState size }.tryPush (.setIns s.inst s.iter) fun s =>
        .inl ({ s with iter := if forward then s.iter + size else s.iter - size }.goto
          (s.inst + 1 + ins.nextOffset))
    else if ins.nextOffset != 0 then .inl s.next
    else .inl s.backtrack
  else .inl s.backtrack

/-- The instruction at `inst`. -/
def dispatch (keep : Bool) (E : Env) (s : State cap) : Inst → Step cap
  | .nop => .inl s.next
  | .matchIns =>
    { s with captures := Function.update s.captures 0 ⟨s.oldIter, sub32 s.iter s.oldIter⟩ }.halt .ok
  | .jump target => .inl (s.goto target)
  | .alt second => s.tryPush (.setIns second s.iter) fun s => .inl s.next
  | .start multiline => check s (isLineBoundary E.bytes false multiline s.iter)
  | .stop multiline => check s (isLineBoundary E.bytes true multiline s.iter)
  | .word invert => check s (isWordBoundary E.bytes isWord invert s.iter)
  | .iword invert => check s (isWordBoundary E.bytes E.tables.isExtendWord invert s.iter)
  | .any => single E s true fun _ => true
  | .anyExceptNL => single E s true fun c => !isLineTerminator c
  | .lbAny dotAll => single E s false fun c => dotAll || !isLineTerminator c
  | .grapheme =>
    if s.iter ≠ E.bytes.length then
      .inl { s with iter := s.iter + E.tables.graphemeSize (E.bytes.drop s.iter) }.next
    else .inl s.backtrack
  | .char codePoint => single E s true fun c => c == codePoint
  | .ichar codePoint => single E s true fun c => E.tables.simpleCaseFolding c == codePoint
  | .lbChar codePoint ignoreCase => single E s false fun c =>
    (if ignoreCase then E.tables.simpleCaseFolding c else c) == codePoint
  | .charSet index invert => single E s true fun c =>
    (E.regex.matcher index).contains c != invert
  | .icharSet index invert => single E s true fun c =>
    (E.regex.matcher index).contains (E.tables.simpleCaseFolding c) != invert
  | .lbCharSet index invert ignoreCase => single E s false fun c =>
    (E.regex.matcher index).contains
      (if ignoreCase then E.tables.simpleCaseFolding c else c) != invert
  | .prepareRadix =>
    match E.regex.instSeq[s.inst + 1]? with
    | some (.radixOrEmoji ins) => prepareRadix E s true ins
    | _ => s.halt .stuck
  | .radixOrEmoji _ => shortenRadix E s true
  | .prepareLBRadix =>
    match E.regex.instSeq[s.inst + 1]? with
    | some (.lbRadixOrEmoji ins) => prepareRadix E s false ins
    | _ => s.halt .stuck
  | .lbRadixOrEmoji _ => shortenRadix E s false
  | .string index => stringIns E s true index
  | .lbString index => stringIns E s false index
  | .beginCapture index =>
    { s with captures := Function.update s.captures index ⟨s.iter, 0⟩ }.tryPush
      (.setCapture index .unset) fun s => .inl s.next
  | .endCapture index =>
    let offset := (s.captures index).offset
    .inl { s with
      captures := Function.update s.captures index ⟨offset, sub32 s.iter offset⟩ }.next
  | .lbEndCapture index =>
    let actualEndOffset := (s.captures index).endOffset
    .inl { s with
      captures := Function.update s.captures index
        ⟨s.iter, sub32 actualEndOffset s.iter⟩ }.next
  | .resetCaptures first last => resetCaptures (last + 1 - first) first s
  | .backRef index named => backRefIns E s true index named false
  | .ibackRef index named => backRefIns E s true index named true
  | .lbBackRef index named ignoreCase => backRefIns E s false index named ignoreCase
  | .beginLoop ins =>
    s.tryPush (.setLoopState ins.loopIndex (s.loops ins.loopIndex)) fun s =>
      .inl { s with label := .loop, loops := Function.update s.loops ins.loopIndex .init }
  | .endLoop target => .inl { s with label := .loop, inst := target }
  | .beginLookAround target negate =>
    s.tryPush (.lookAround negate (!negate) target s.iter) fun s => .inl s.next
  | .endLookAround =>
    match s.stack.cleanupLookAround keep s.captures with
    | none => s.halt .stuck
    | some (captures, matched, iter, stack) =>
      let s := { s with captures := captures, iter := iter, stack := stack }
      if matched then .inl s.next else .inl s.backtrack

/-- The assertions of `EndCapture` and `LBEndCapture`. -/
def Inst.Asserts (s : State cap) : Inst → Prop
  | .endCapture index => (s.captures index).offset ≤ s.iter
  | .lbEndCapture index => s.iter ≤ (s.captures index).endOffset
  | _ => True

def timerCheckInterval : Nat := (2 ^ 16 - 1) / 2

/-- The timer check after a successful `backtrack`. -/
def checkTimer (E : Env) (s : State cap) : Step cap :=
  if s.btCount + 1 = timerCheckInterval then
    let s' := { s with btCount := 0 }
    match E.timer with
    | none => .inl s'
    | some check =>
      match check s.ticks with
      | .none => .inl { s' with ticks := s.ticks + 1 }
      | .canceled => s'.halt .cancel
      | .expired => s'.halt .timeout
  else .inl { s with btCount := s.btCount + 1 }

/-- One round of the loop of `BacktrackStack::backtrack`, for the entry just popped. -/
def undo (E : Env) (s : State cap) : Backtrack → Step cap
  | .setIns target iter => checkTimer E ({ s with iter := iter }.goto target)
  | .setCapture index capture =>
    .inl { s with captures := Function.update s.captures index capture }
  | .setLoopState loopIndex state =>
    .inl { s with loops := Function.update s.loops loopIndex state }
  | .nonGreedyLoop loopIndex state =>
    let s := { s with loops := Function.update s.loops loopIndex state }
    match s.stack.pop with
    | some (.setIns target iter, stack) =>
      match prepareLoopBody { s with iter := iter, stack := stack } target loopIndex with
      | .inl s => checkTimer E s
      | .inr r => .inr r
    | _ => s.halt .stuck
  | .lookAround negate _ target iter =>
    s.tryPush (.lookAround negate negate target iter) fun s => checkTimer E (s.goto target)
  | .radixState _ => .inl s

/-- The end of an attempt: the next one starts one character later. -/
def restart (E : Env) (s : State cap) : Step cap :=
  match consume E.bytes true s.oldIter with
  | some (_, iter) =>
    .inl { s with
      label := .start, inst := 0, iter := iter, oldIter := iter
      captures := fun _ => .unset, loops := fun _ => .init }
  | none => { s with iter := s.oldIter }.halt .fail

/-- `StringRef::find`. -/
def findBytes (needle : List Nat) : List Nat → Option Nat
  | [] => if needle.isEmpty then some 0 else none
  | b :: bs => if needle.isPrefixOf (b :: bs) then some 0 else (findBytes needle bs).map (· + 1)

/-- `searchPrefix` for code that begins with a character or string: the state behind its next
occurrence. -/
def findNeedle (E : Env) (s : State cap) (needle : List Nat) : Bool × State cap :=
  match findBytes needle (E.bytes.drop s.iter) with
  | some pos =>
    (true, { s.next with iter := s.iter + pos + needle.length, oldIter := s.iter + pos })
  | none => (false, { s.next with oldIter := E.bytes.length })

/-- `searchPrefix` for other code: the state at the next byte that can begin a match. -/
def findFirstByte (E : Env) (s : State cap) : Bool × State cap :=
  if !E.regex.firstBitSet.isEmpty then
    let rest := E.bytes.drop s.iter
    let skipped := rest.takeWhile fun b => !E.regex.firstBitSet.contains b
    let iter := s.iter + skipped.length
    (decide (skipped.length < rest.length), { s with iter := iter, oldIter := iter })
  else (true, s)

/-- `searchPrefix`: whether a start position was found, and the state to go on with. -/
def searchPrefix (E : Env) (s : State cap) : Bool × State cap :=
  match E.regex.instSeq[s.inst]? with
  | some (.char codePoint) => findNeedle E s (codePointToUtf8 codePoint)
  | some (.string index) => findNeedle E s (E.regex.matcher index).asStrRef
  | _ => findFirstByte E s

/-- One step of `match`. -/
def stepWith (keep : Bool) (E : Env) (s : State cap) : Step cap :=
  match s.label with
  | .start =>
    if E.prefilter then
      let (found, s) := searchPrefix E s
      if found then .inl { s with label := .dispatch } else .inl s.backtrack
    else .inl { s with label := .dispatch }
  | .dispatch =>
    match E.regex.instSeq[s.inst]? with
    | some ins => dispatch keep E s ins
    | none => s.halt .stuck
  | .backtrack =>
    match s.stack.pop with
    | some (e, stack) => undo E { s with stack := stack } e
    | none => restart E s
  | .loop =>
    match E.regex.instSeq[s.inst]? with
    | some (.beginLoop ins) => loopStep s ins
    | _ => s.halt .stuck
  | .radixOrEmoji =>
    match E.regex.instSeq[s.inst]? with
    | some (.radixOrEmoji ins) => radixStep E s true ins
    | _ => s.halt .stuck
  | .lbRadixOrEmoji =>
    match E.regex.instSeq[s.inst]? with
    | some (.lbRadixOrEmoji ins) => radixStep E s false ins
    | _ => s.halt .stuck

/-- The virtual machine of the source. -/
def step (E : Env) (s : State) : Step := stepWith false E s

end Arsh.Regex
