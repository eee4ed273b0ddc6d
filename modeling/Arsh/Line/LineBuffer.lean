import Mathlib.Algebra.Group.Nat.Defs
import Mathlib.Tactic.Common

/-!
# The line buffer

The editing operations of `line_buffer.{h,cpp}`, their history, and `intoAtomicEdit`. The content
is the used part of the buffer. A change of the history is a list of entries, the newest first: the
entry itself and the chain behind its `prev`. The ring buffer of changes is a list, oldest first,
that forgets its front when it is full.

The positions of newlines are a list that no edit updates. Where it is out of date, a move by line
can leave the cursor behind the content, and the next insertion fails an assertion: the operations
with `?` have no result then.

What an operation captures for the kill ring is left out.
-/

namespace Arsh.Line

inductive ChangeOp where
  | insert
  | deleteTo
  | deleteFrom
  deriving DecidableEq, Repr

structure Entry where
  type : ChangeOp
  merge : Bool
  /-- the cursor after the change -/
  cursor : Nat
  delta : List Nat
  deriving DecidableEq, Repr

/-- `Change`: an entry, and those it was chained to by an atomic edit. -/
structure Change where
  entry : Entry
  prev : List Entry
  deriving DecidableEq, Repr

/-- The capacity of the ring buffer that is asked to hold ten changes. -/
def changesCapacity : Nat := 15

structure LineBuffer where
  bufSize : Nat
  buf : List Nat
  cursor : Nat
  newlinePosList : List Nat
  changes : List Change
  changeIndex : Nat
  atomicEdit : Bool
  deriving DecidableEq, Repr

/-- `tryMerge`: the change `c` with `o` merged into it. -/
def Change.tryMerge (c o : Change) : Option Change :=
  if !c.entry.merge || !o.entry.merge || c.entry.type != o.entry.type then none
  else
    match c.entry.type with
    | .insert =>
      if c.entry.cursor + o.entry.delta.length = o.entry.cursor then
        some { c with entry := { c.entry with
          cursor := o.entry.cursor, delta := c.entry.delta ++ o.entry.delta } }
      else none
    | .deleteTo =>
      if c.entry.cursor = o.entry.cursor + o.entry.delta.length then
        some { c with entry := { c.entry with
          cursor := o.entry.cursor, delta := o.entry.delta ++ c.entry.delta } }
      else none
    | .deleteFrom =>
      if c.entry.cursor = o.entry.cursor then
        some { c with entry := { c.entry with delta := c.entry.delta ++ o.entry.delta } }
      else none

def Change.setMerge (c : Change) (merge : Bool) : Change :=
  { c with entry := { c.entry with merge := merge } }

/-- `push_back` of the ring buffer. -/
def pushBack (changes : List Change) (c : Change) : List Change :=
  let changes := changes ++ [c]
  if changes.length = changesCapacity + 1 then changes.tail else changes

namespace LineBuffer

/-- The buffer over `bufSize` bytes, one of which is for the final null. -/
def new (bufSize : Nat) : LineBuffer := ⟨bufSize - 1, [], 0, [], [], 0, false⟩

def trackChange (b : LineBuffer) (op : ChangeOp) (delta : List Nat) (merge : Bool) : LineBuffer :=
  let changes := b.changes.take b.changeIndex
  let newChange : Change := ⟨⟨op, merge, b.cursor, delta⟩, []⟩
  match changes.getLast? with
  | some back =>
    match back.tryMerge newChange with
    | some back => { b with changes := changes.dropLast ++ [back.setMerge true] }
    | none =>
      let back := back.setMerge false
      let changes :=
        if b.atomicEdit then
          pushBack changes.dropLast { newChange with prev := back.entry :: back.prev }
        else pushBack (changes.dropLast ++ [back]) newChange
      { b with changes := changes, changeIndex := changes.length }
  | none =>
    let changes := pushBack changes newChange
    { b with changes := changes, changeIndex := changes.length }

/-- The content with `ref` inserted at the cursor, if there is room for it. -/
def insertRaw (b : LineBuffer) (ref : List Nat) : Option LineBuffer :=
  if b.buf.length + ref.length ≤ b.bufSize then
    some { b with
      buf := b.buf.take b.cursor ++ ref ++ b.buf.drop b.cursor, cursor := b.cursor + ref.length }
  else none

def insertToCursor (b : LineBuffer) (ref : List Nat) (merge : Bool) : Bool × LineBuffer :=
  match b.insertRaw ref with
  | some b => (true, b.trackChange .insert ref merge)
  | none => (false, b)

/-- What `deleteToCursor` deletes, and the rest. -/
def deleteToRaw (b : LineBuffer) (size : Nat) : Option (List Nat × LineBuffer) :=
  if 0 < b.cursor ∧ 0 < b.buf.length ∧ 0 < size ∧ size ≤ b.cursor then
    some ((b.buf.drop (b.cursor - size)).take size, { b with
      buf := b.buf.take (b.cursor - size) ++ b.buf.drop b.cursor, cursor := b.cursor - size })
  else none

def deleteToCursor (b : LineBuffer) (size : Nat) (merge : Bool) : Bool × LineBuffer :=
  match b.deleteToRaw size with
  | some (delta, b) => (true, b.trackChange .deleteTo delta merge)
  | none => (false, b)

/-- What `deleteFromCursor` deletes, and the rest. -/
def deleteFromRaw (b : LineBuffer) (size : Nat) : Option (List Nat × LineBuffer) :=
  if 0 < b.buf.length ∧ b.cursor < b.buf.length ∧ 0 < size ∧ size ≤ b.buf.length - b.cursor then
    some ((b.buf.drop b.cursor).take size, { b with
      buf := b.buf.take b.cursor ++ b.buf.drop (b.cursor + size) })
  else none

def deleteFromCursor (b : LineBuffer) (size : Nat) (merge : Bool) : Bool × LineBuffer :=
  match b.deleteFromRaw size with
  | some (delta, b) => (true, b.trackChange .deleteFrom delta merge)
  | none => (false, b)

def setCursor (b : LineBuffer) (v : Nat) : LineBuffer := { b with cursor := min v b.buf.length }

def commitLastChange (b : LineBuffer) : LineBuffer :=
  if b.changeIndex > 0 then
    { b with changes := b.changes.modify (b.changeIndex - 1) (·.setMerge false) }
  else b

/-- One round of the loop of `undo`. -/
def revert (b : LineBuffer) (e : Entry) : LineBuffer :=
  let b := { b with cursor := e.cursor }
  match e.type with
  | .insert => match b.deleteToRaw e.delta.length with
    | some (_, b) => b
    | none => b
  | .deleteTo => (b.insertRaw e.delta).getD b
  | .deleteFrom => { (b.insertRaw e.delta).getD b with cursor := e.cursor }

def undo (b : LineBuffer) : Bool × LineBuffer :=
  if b.changeIndex = 0 then (false, b)
  else
    match b.changes[b.changeIndex - 1]? with
    | none => (false, b)
    | some change =>
      let b := { b with
        changeIndex := b.changeIndex - 1
        changes := b.changes.set (b.changeIndex - 1) (change.setMerge false) }
      (true, (change.entry :: change.prev).foldl revert b)

/-- One round of the loop of `redo`. -/
def replay (b : LineBuffer) (e : Entry) : LineBuffer :=
  match e.type with
  | .insert =>
    let b := { b with cursor := e.cursor - e.delta.length }
    (b.insertRaw e.delta).getD b
  | .deleteTo =>
    let b := { b with cursor := e.cursor + e.delta.length }
    match b.deleteToRaw e.delta.length with
    | some (_, b) => b
    | none => b
  | .deleteFrom =>
    let b := { b with cursor := e.cursor }
    match b.deleteFromRaw e.delta.length with
    | some (_, b) => b
    | none => b

def redo (b : LineBuffer) : Bool × LineBuffer :=
  match b.changes[b.changeIndex]? with
  | none => (false, b)
  | some change =>
    let b := { b with
      changeIndex := b.changeIndex + 1
      changes := b.changes.set b.changeIndex (change.setMerge false) }
    (true, (change.entry :: change.prev).reverse.foldl replay b)

def intoAtomicEdit (b : LineBuffer) (func : LineBuffer → Bool × LineBuffer) : Bool × LineBuffer :=
  let old := b.cursor
  let b := (b.insertToCursor [] false).2
  let (r, b) := func { b with atomicEdit := true }
  let b := { b with atomicEdit := false }
  if r then (r, b)
  else
    let b := b.undo.2
    (r, { b with changes := b.changes.take b.changeIndex }.setCursor old)

/-! ## Lines -/

def syncNewlinePosList (b : LineBuffer) : LineBuffer :=
  { b with newlinePosList := (List.range b.buf.length).filter fun pos => b.buf[pos]? = some 10 }

def isSingleLine (b : LineBuffer) : Bool := b.newlinePosList.isEmpty

/-- `findCurNewlineIndex`: the first newline that is not before the cursor. -/
def findCurNewlineIndex (b : LineBuffer) : Nat := b.newlinePosList.findIdx (b.cursor ≤ ·)

def newlinePos (b : LineBuffer) (index : Nat) : Nat := (b.newlinePosList[index]?).getD 0

/-- A difference of unsigned numbers. -/
def sub32 (x y : Nat) : Nat := (x + 2 ^ 32 - y) % 2 ^ 32

structure Interval where
  pos : Nat
  len : Nat

def findCurLineInterval (b : LineBuffer) (wholeLine : Bool) : Interval :=
  if b.isSingleLine then ⟨0, if wholeLine then b.buf.length else b.cursor⟩
  else
    let index := b.findCurNewlineIndex
    if index = 0 then ⟨0, if wholeLine then b.newlinePos index else b.cursor⟩
    else
      let pos := b.newlinePos (index - 1) + 1
      if index < b.newlinePosList.length then
        ⟨pos, sub32 (if wholeLine then b.newlinePos index else b.cursor) pos⟩
      else ⟨pos, sub32 (if wholeLine then b.buf.length else b.cursor) pos⟩

def startOfLine (b : LineBuffer) : Nat :=
  if b.isSingleLine then 0
  else
    let index := b.findCurNewlineIndex
    if index = 0 then 0 else b.newlinePos (index - 1) + 1

def endOfLine (b : LineBuffer) : Nat :=
  if b.isSingleLine then b.buf.length
  else
    let index := b.findCurNewlineIndex
    if index = b.newlinePosList.length then b.buf.length else b.newlinePos index

def moveCursorTo (b : LineBuffer) (newCursor : Nat) : Bool × LineBuffer :=
  if b.cursor ≠ newCursor then (true, { b with cursor := newCursor }) else (false, b)

def moveCursorToStartOfLine (b : LineBuffer) : Bool × LineBuffer := b.moveCursorTo b.startOfLine

def moveCursorToEndOfLine (b : LineBuffer) : Bool × LineBuffer := b.moveCursorTo b.endOfLine

/-- `moveCursorToLeftByChar` and `moveCursorToLeftByWord`, over so many bytes. -/
def moveCursorToLeft (b : LineBuffer) (size : Nat) : Bool × LineBuffer :=
  if 0 < b.cursor then (true, { b with cursor := b.cursor - size }) else (false, b)

/-- `moveCursorToRightByChar` and `moveCursorToRightByWord`; `substr` asserts that there is a rest of
the content. -/
def moveCursorToRight? (b : LineBuffer) (size : Nat) : Option (Bool × LineBuffer) :=
  if b.cursor = b.buf.length then some (false, b)
  else if b.cursor < b.buf.length then
    some (true, { b with cursor := b.cursor + min size (b.buf.length - b.cursor) })
  else none

/-- `moveCursorUpDown`, which ends so many bytes behind the start of the other line. All of that line
is read, and there may be no memory for it. -/
def moveCursorUpDown? (b : LineBuffer) (up : Bool) (offset : Nat) : Option (Bool × LineBuffer) :=
  let moved := if up then b.moveCursorToStartOfLine.2 else b.moveCursorToEndOfLine.2
  if moved.cursor = if up then 0 else b.buf.length then some (false, b)
  else
    let moved := { moved with cursor := if up then moved.cursor - 1 else moved.cursor + 1 }
    let dest := moved.findCurLineInterval true
    if dest.pos + dest.len ≤ b.bufSize then
      some (true, { b with cursor := dest.pos + min offset dest.len })
    else none

/-- `insertToCursor`, which asserts that the cursor is in the content. -/
def insertToCursor? (b : LineBuffer) (ref : List Nat) (merge : Bool) : Option (Bool × LineBuffer) :=
  if b.cursor ≤ b.buf.length then some (b.insertToCursor ref merge) else none

/-- `deleteToCursor`; what it moves wraps around if the cursor is behind the content. -/
def deleteToCursor? (b : LineBuffer) (size : Nat) (merge : Bool) : Option (Bool × LineBuffer) :=
  if b.buf.length < b.cursor ∧ (b.deleteToRaw size).isSome then none
  else some (b.deleteToCursor size merge)

/-- `deleteNextChar` and `deleteNextWord`, of so many bytes. -/
def deleteNext? (b : LineBuffer) (size : Nat) (merge : Bool) : Option (Bool × LineBuffer) :=
  if b.cursor ≤ b.buf.length then some (b.deleteFromCursor size merge) else none

/-- `deleteLineToCursor`. -/
def deleteLineToCursor? (b : LineBuffer) (wholeLine : Bool) : Option (Bool × LineBuffer) :=
  let line := b.findCurLineInterval wholeLine
  { b with cursor := (line.pos + line.len) % 2 ^ 32 }.deleteToCursor? line.len false

def deleteLineFromCursor (b : LineBuffer) : Bool × LineBuffer :=
  b.deleteFromCursor (sub32 b.endOfLine b.cursor) false

/-! ## Atomic edits with assertions -/

/-- What the function of an atomic edit is run on. -/
def marked (b : LineBuffer) : LineBuffer := { (b.insertToCursor [] false).2 with atomicEdit := true }

/-- `intoAtomicEdit` with a function that may fail an assertion. -/
def intoAtomicEdit? (b : LineBuffer) (func : LineBuffer → Option (Bool × LineBuffer)) :
    Option (Bool × LineBuffer) :=
  if b.cursor ≤ b.buf.length then
    (func b.marked).map fun result => b.intoAtomicEdit fun _ => result
  else none

end LineBuffer

/-! ## Edits -/

/-- The operations that change the content, and `setCursor`. -/
inductive Edit where
  | insertToCursor (ref : List Nat) (merge : Bool)
  | deleteToCursor (size : Nat) (merge : Bool)
  | deleteFromCursor (size : Nat) (merge : Bool)
  | setCursor (v : Nat)
  | commitLastChange
  deriving DecidableEq, Repr

def Edit.run (b : LineBuffer) : Edit → LineBuffer
  | .insertToCursor ref merge => (b.insertToCursor ref merge).2
  | .deleteToCursor size merge => (b.deleteToCursor size merge).2
  | .deleteFromCursor size merge => (b.deleteFromCursor size merge).2
  | .setCursor v => b.setCursor v
  | .commitLastChange => b.commitLastChange

/-- A function that does nothing to the buffer but edit it, whatever it finds there. -/
def EditFunction (func : LineBuffer → Bool × LineBuffer) : Prop :=
  ∀ b, ∃ edits : List Edit, (func b).2 = edits.foldl Edit.run b

/-- The buffers that editing leads to. -/
inductive Reachable : LineBuffer → Prop
  | new (bufSize : Nat) : Reachable (LineBuffer.new bufSize)
  | run {b : LineBuffer} (edit : Edit) : Reachable b → Reachable (edit.run b)
  | undo {b : LineBuffer} : Reachable b → Reachable b.undo.2
  | redo {b : LineBuffer} : Reachable b → Reachable b.redo.2
  | intoAtomicEdit {b : LineBuffer} {func : LineBuffer → Bool × LineBuffer} :
    EditFunction func → Reachable b → Reachable (b.intoAtomicEdit func).2

/-! ## Edits by line -/

/-- All operations. Deleting what is before the cursor is `deleteToCursor`, and moving to the start
or the end of the content is `setCursor`. -/
inductive LineEdit where
  | edit (edit : Edit)
  | syncNewlinePosList
  | moveCursorToStartOfLine
  | moveCursorToEndOfLine
  | moveCursorUpDown (up : Bool) (offset : Nat)
  | moveCursorToLeft (size : Nat)
  | moveCursorToRight (size : Nat)
  | deleteNext (size : Nat) (merge : Bool)
  | deleteLineToCursor (wholeLine : Bool)
  | deleteLineFromCursor

/-- What the operation returns, and the buffer after it, unless an assertion fails. -/
def LineEdit.run (b : LineBuffer) : LineEdit → Option (Bool × LineBuffer)
  | .edit (.insertToCursor ref merge) => b.insertToCursor? ref merge
  | .edit (.deleteToCursor size merge) => b.deleteToCursor? size merge
  | .edit (.deleteFromCursor size merge) => some (b.deleteFromCursor size merge)
  | .edit (.setCursor v) => some (true, b.setCursor v)
  | .edit .commitLastChange => some (true, b.commitLastChange)
  | .syncNewlinePosList => some (true, b.syncNewlinePosList)
  | .moveCursorToStartOfLine => some b.moveCursorToStartOfLine
  | .moveCursorToEndOfLine => some b.moveCursorToEndOfLine
  | .moveCursorUpDown up offset => b.moveCursorUpDown? up offset
  | .moveCursorToLeft size => some (b.moveCursorToLeft size)
  | .moveCursorToRight size => b.moveCursorToRight? size
  | .deleteNext size merge => b.deleteNext? size merge
  | .deleteLineToCursor wholeLine => b.deleteLineToCursor? wholeLine
  | .deleteLineFromCursor => some b.deleteLineFromCursor

/-- A function that does nothing to the buffer but these operations, until an assertion fails. -/
def LineFunction (func : LineBuffer → Option (Bool × LineBuffer)) : Prop :=
  ∀ b, ∃ edits : List LineEdit,
    (func b).map Prod.snd = edits.foldlM (fun b edit => (edit.run b).map Prod.snd) b

/-- The buffers that all operations lead to, as long as no assertion fails. -/
inductive LineReachable : LineBuffer → Prop
  | new (bufSize : Nat) : LineReachable (LineBuffer.new bufSize)
  | run {b b' : LineBuffer} {r : Bool} (edit : LineEdit) :
    LineReachable b → edit.run b = some (r, b') → LineReachable b'
  | undo {b : LineBuffer} : LineReachable b → LineReachable b.undo.2
  | redo {b : LineBuffer} : LineReachable b → LineReachable b.redo.2
  | intoAtomicEdit {b b' : LineBuffer} {r : Bool} {func : LineBuffer → Option (Bool × LineBuffer)} :
    LineFunction func → LineReachable b → b.intoAtomicEdit? func = some (r, b') → LineReachable b'

end Arsh.Line
