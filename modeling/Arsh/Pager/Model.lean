import Arsh.Misc.BitSet
import Mathlib.Data.Nat.Digits.Defs

/-!
# The pager

`ArrayPager` of `pager.h` and `pager.cpp`. The sizes of the items are computed at the creation and
given here with the candidates; of what is rendered there are the cells, an item with its selection.
A loop that does not end gives `none`.
-/

namespace Arsh.Pager

abbrev Bytes := List Nat

/-! ## Items -/

def tabWidth : Nat := 4

def colMargin : Nat := 1

def rowMargin : Nat := 3

structure WindowSize where
  rows : Nat
  cols : Nat
  deriving DecidableEq, Repr

structure ItemEntry where
  len : Nat
  tabs : Nat
  deriving DecidableEq, Repr

def ItemEntry.itemLen (e : ItemEntry) : Nat :=
  e.len + (tabWidth - e.len % tabWidth) + e.tabs * tabWidth

/-- What a pager is created with: the candidates, of which there is one at least, their sizes, and
the functions on graphemes that the filter uses. -/
structure Candidates where
  obj : List Bytes
  items : List ItemEntry
  maxLenItemIndex : Nat
  rowRatio : Nat
  fuzzyFind : Bytes → Bytes → Bool
  /-- The size of the last grapheme of a text. -/
  lastGrapheme : Bytes → Nat
  size_eq : items.length = obj.length
  maxLen_lt : maxLenItemIndex < items.length

structure ArrayPager where
  winSize : WindowSize
  paneLen : Nat
  rows : Nat
  panes : Nat
  index : Nat
  curRow : Nat
  showPager : Bool
  showCursor : Bool
  showRowNum : Bool
  showDesc : Bool
  filterMode : Bool
  filteredItemCount : Nat
  filteredItemSet : BitSet
  query : Bytes
  deriving DecidableEq, Repr

def countDigits (n : Nat) : Nat := if n = 0 then 1 else (Nat.digits 10 n).length

def Candidates.matchItemAt (c : Candidates) (query : Bytes) (itemIndex : Nat) : Bool :=
  c.fuzzyFind (c.obj.getD itemIndex []) query

namespace ArrayPager

variable (c : Candidates)

/-! ## Sizes -/

def filteredItemSize (p : ArrayPager) : Nat :=
  if p.filterMode then p.filteredItemCount else c.items.length

def getLogicalRows (p : ArrayPager) : Nat :=
  p.filteredItemSize c / p.panes + if p.filteredItemSize c % p.panes = 0 then 0 else 1

def getActualRows (p : ArrayPager) : Nat :=
  let actual := min (p.getLogicalRows c) p.rows
  if p.filterMode ∧ p.rows < actual + 1 then actual - 1 else actual

def toActualItemIndex (p : ArrayPager) (filteredIndex : Nat) : Nat :=
  if ¬ p.filterMode ∨ p.filteredItemCount ≤ filteredIndex then filteredIndex
  else p.filteredItemSet.getNthSetBitIndex filteredIndex

def toCurItemIndex (p : ArrayPager) : Nat := p.toActualItemIndex p.index

/-! ## Moves -/

def moveCursorToForward (p : ArrayPager) : ArrayPager :=
  if p.filteredItemSize c = 0 then p
  else if p.index = 0 then
    let index := p.filteredItemSize c - 1
    { p with index, curRow := min (p.getActualRows c - 1) (index % p.getLogicalRows c) }
  else
    let curRow :=
      if p.curRow = 0 then
        if 0 < p.index % p.getLogicalRows c then 0 else p.getActualRows c - 1
      else p.curRow - 1
    { p with index := p.index - 1, curRow }

def moveCursorToNext (p : ArrayPager) : ArrayPager :=
  if p.filteredItemSize c = 0 then p
  else if p.index = p.filteredItemSize c - 1 then { p with index := 0, curRow := 0 }
  else
    let curRow :=
      if p.curRow = p.getActualRows c - 1 then
        if p.index % p.getLogicalRows c = p.getLogicalRows c - 1 then 0
        else p.getActualRows c - 1
      else p.curRow + 1
    { p with index := p.index + 1, curRow }

/-- The loop of `moveCursorToLeft`. -/
def wrapIndex (size logicalRows : Nat) : Nat → Nat → Option Nat
  | n, nextIndex =>
    if nextIndex < size then some nextIndex
    else
      match n with
      | 0 => none
      | n + 1 => wrapIndex size logicalRows n (nextIndex - logicalRows)

/-- `index - 1` wraps around only where it is not used. -/
def moveCursorToLeft (p : ArrayPager) : Option ArrayPager :=
  if p.filteredItemSize c = 0 then some p
  else
    let logicalRows := p.getLogicalRows c
    if 0 < p.index / logicalRows then some { p with index := p.index - logicalRows }
    else
      let curLogicalRows := p.index % logicalRows
      let nextIndex :=
        if curLogicalRows = 0 then logicalRows * p.panes - 1
        else p.index - 1 + logicalRows * (p.panes - 1)
      let curRow :=
        if curLogicalRows = 0 then p.getActualRows c - 1
        else if 0 < p.curRow then p.curRow - 1
        else p.curRow
      (wrapIndex (p.filteredItemSize c) logicalRows p.panes nextIndex).map fun index =>
        { p with index, curRow }

def moveCursorToRight (p : ArrayPager) : ArrayPager :=
  if p.filteredItemSize c = 0 then p
  else
    let logicalRows := p.getLogicalRows c
    let curCols := p.index / logicalRows
    if curCols < p.panes - 1 ∧ p.index + logicalRows < p.filteredItemSize c then
      { p with index := p.index + logicalRows }
    else
      let nextIndex := p.index + 1 - logicalRows * curCols
      let curLogicalRows := p.index % logicalRows
      if nextIndex < p.filteredItemSize c ∧ curLogicalRows < logicalRows - 1 then
        let curRow := if p.curRow < p.getActualRows c - 1 then p.curRow + 1 else p.curRow
        { p with index := nextIndex, curRow }
      else { p with index := 0, curRow := 0 }

/-! ## Layout -/

/-- The loop that moves the cursor back to its index. -/
def replay (orgIndex : Nat) : Nat → ArrayPager → Option ArrayPager
  | n, p =>
    if orgIndex ≤ p.index then some p
    else
      match n with
      | 0 => none
      | n + 1 => replay orgIndex n (p.moveCursorToNext c)

/-- The sizes of `updateLayout`. -/
def layout (p : ArrayPager) : ArrayPager :=
  let winSize := p.winSize
  let rows := min (winSize.rows * c.rowRatio / 100) (winSize.rows - rowMargin)
  let showPager := rows != 0
  let rows := if rows = 0 then 1 else rows
  let paneLen := (c.items.get ⟨c.maxLenItemIndex, c.maxLen_lt⟩).itemLen
  let panes := max ((winSize.cols - colMargin) / paneLen) 1
  let colLimit := (winSize.cols - colMargin) / tabWidth * tabWidth
  let narrow := panes == 1 && decide (colLimit < paneLen)
  let paneLen := if narrow then colLimit else paneLen
  let p := { p with rows, showPager, paneLen, panes, showDesc := !narrow }
  let footerSize := 5 + countDigits (p.getLogicalRows c) * 3 + 2
  { p with
    showRowNum := decide (p.getActualRows c + 1 ≤ winSize.rows) &&
      decide (p.getActualRows c < p.getLogicalRows c) && decide (footerSize < panes * paneLen) }

def updateLayout (p : ArrayPager) : Option ArrayPager :=
  let p := p.layout c
  if p.filteredItemSize c = 0 then some p
  else replay c p.index p.index { p with index := 0, curRow := 0 }

def updateWinSize (p : ArrayPager) (size : WindowSize) : Option ArrayPager :=
  if p.winSize = size then some p
  else updateLayout c { p with winSize := size }

/-- `create`; the members have their initial values. -/
def create (winSize : WindowSize) : Option ArrayPager :=
  updateWinSize c ⟨⟨0, 0⟩, 0, 0, 0, 0, 0, true, true, false, true, false, 0, .new 0, []⟩ winSize

/-! ## The filter -/

/-- An index behind the items that are left is set to the first of them. -/
def resetIndex (p : ArrayPager) : ArrayPager :=
  if 0 < p.filteredItemSize c ∧ p.filteredItemSize c ≤ p.index then
    { p with index := 0, curRow := 0 }
  else p

def rebuildFilteredItemIndexes (p : ArrayPager) : Option ArrayPager :=
  let set := if p.filteredItemSet.size ≠ 0 then p.filteredItemSet.clear
    else .new c.items.length
  let set := (List.range c.items.length).foldl
    (fun s i => if c.matchItemAt p.query i then s.set i else s) set
  let p := { p with filteredItemSet := set, filteredItemCount := set.count }
  updateLayout c (p.resetIndex c)

def setQuery (p : ArrayPager) (ref : Bytes) : Option ArrayPager :=
  if p.filterMode then rebuildFilteredItemIndexes c { p with query := ref } else some p

def pushQueryChar (p : ArrayPager) (grapheme : Bytes) : Option ArrayPager :=
  if ¬ p.filterMode ∨ grapheme = [] then some p
  else
    let query := p.query ++ grapheme
    let set := p.filteredItemSet.resetIf fun setIndex => !c.matchItemAt query setIndex
    let p := { p with query, filteredItemSet := set, filteredItemCount := set.count }
    updateLayout c (p.resetIndex c)

def popQueryChar (p : ArrayPager) : Option ArrayPager :=
  if ¬ p.filterMode ∨ p.query = [] then some p
  else
    let byteSize := c.lastGrapheme p.query
    rebuildFilteredItemIndexes c { p with query := p.query.take (p.query.length - byteSize) }

/-- `tryToEnableFilterMode`; the answer is the mode. -/
def tryToEnableFilterMode (p : ArrayPager) : Option ArrayPager :=
  let p := { p with filterMode := decide (2 ≤ p.rows) }
  if p.filterMode then rebuildFilteredItemIndexes c p else some p

def disableFilterMode (p : ArrayPager) : Option ArrayPager :=
  let newIndex := p.toCurItemIndex
  let p := { p with filterMode := false }
  let p := if p.filteredItemSet.size ≠ 0 then
      { p with filteredItemSet := p.filteredItemSet.clear, filteredItemCount := 0 }
    else p
  let p := { p with query := [], curRow := 0, index := 0 }
  updateLayout c ((moveCursorToNext c)^[newIndex] p)

/-! ## Rendering -/

/-- A row from the pane `j` on, and the items that are next in the panes. The cells are the items
with their selection. -/
def renderRow (p : ArrayPager) (startIndex maxRowSize i : Nat) :
    Nat → List Nat → List (Nat × Bool) × List Nat
  | _, [] => ([], [])
  | j, itemIndex :: cache =>
    let actualIndex := startIndex + i + j * maxRowSize
    if p.filteredItemSize c ≤ actualIndex then ([], itemIndex :: cache)
    else
      let selected := decide (actualIndex = p.index) && p.showCursor
      let next := if p.filterMode then p.filteredItemSet.nextSetBit (itemIndex + 1)
        else itemIndex + 1
      let (row, cache) := p.renderRow startIndex maxRowSize i (j + 1) cache
      ((itemIndex, selected) :: row, next :: cache)

/-- The rows from the row `i` on. -/
def renderRows (p : ArrayPager) (startIndex maxRowSize : Nat) :
    Nat → Nat → List Nat → List (List (Nat × Bool))
  | 0, _, _ => []
  | n + 1, i, cache =>
    let (row, cache) := p.renderRow c startIndex maxRowSize i 0 cache
    row :: p.renderRows startIndex maxRowSize n (i + 1) cache

/-- The cells of `render`. -/
def render (p : ArrayPager) : List (List (Nat × Bool)) :=
  if ¬ p.showPager then []
  else if p.filterMode ∧ p.filteredItemSize c = 0 then []
  else
    let maxRowSize := p.getLogicalRows c
    let row := p.index % maxRowSize
    let startIndex := if p.curRow ≤ row then row - p.curRow else row
    let cache := (List.range p.panes).map fun j => p.toActualItemIndex (startIndex + j * maxRowSize)
    p.renderRows c startIndex maxRowSize (p.getActualRows c) 0 cache

/-! ## Runs -/

/-- What is done to a pager. The mode is toggled as `waitPagerAction` does it. -/
inductive Op where
  | next
  | forward
  | left
  | right
  | resize (size : WindowSize)
  | toggle
  | setQuery (ref : Bytes)
  | push (grapheme : Bytes)
  | pop
  | showCursor (set : Bool)
  deriving DecidableEq, Repr

def apply (p : ArrayPager) : Op → Option ArrayPager
  | .next => some (p.moveCursorToNext c)
  | .forward => some (p.moveCursorToForward c)
  | .left => p.moveCursorToLeft c
  | .right => some (p.moveCursorToRight c)
  | .resize size => p.updateWinSize c size
  | .toggle => if p.filterMode then p.disableFilterMode c else p.tryToEnableFilterMode c
  | .setQuery ref => p.setQuery c ref
  | .push grapheme => p.pushQueryChar c grapheme
  | .pop => p.popQueryChar c
  | .showCursor set => some { p with showCursor := set }

def run (p : ArrayPager) : List Op → Option ArrayPager
  | [] => some p
  | op :: ops => (p.apply c op).bind fun p => p.run ops

end ArrayPager

end Arsh.Pager
