import Arsh.Line.History

/-!
# Failed atomic edits

An atomic edit pushes a marker and chains every further change to it, so the newest change leads
from the content before the edit to the present one. Every edit keeps this, and a failed atomic edit
therefore restores the content and the cursor. Of the history it keeps what its marker has left: the
changes that could be redone are gone, and so is the oldest one of a full history.
-/

namespace Arsh.Line

section
variable {b b' : LineBuffer} {x delta : List Nat} {c : Change} {cs front : List Change} {n : Nat}
  {func : LineBuffer → Bool × LineBuffer}

/-! ## Edits on top of a history -/

/-- The buffer during an atomic edit that began with the content `x` and the changes `front`: one
more change, and its entries lead from `x` to the content. -/
structure Editing (front : List Change) (n : Nat) (x : List Nat) (b : LineBuffer) : Prop where
  room : front.length < changesCapacity
  bufSize : b.bufSize = n
  atomicEdit : b.atomicEdit = true
  cursor : b.cursor ≤ b.buf.length
  fits : b.buf.length ≤ b.bufSize
  changeIndex : b.changeIndex = front.length + 1
  changes : ∃ top : Change, b.changes = front ++ [top] ∧ LeadsAll n top.trail x b.buf

/-- The changes to which `push_back` adds one. -/
theorem pushBack_eq (cs : List Change) (c : Change) :
    pushBack cs c = (if cs.length = changesCapacity then cs.tail else cs) ++ [c] := by
  unfold pushBack
  have hlen : (cs ++ [c]).length = cs.length + 1 := by simp
  simp only [hlen, Nat.add_right_cancel_iff]
  split
  · next hcap =>
    cases cs with
    | nil => cases hcap
    | cons c' cs => rfl
  · rfl

/-- A tracked change of an atomic edit. -/
theorem Editing.trackChange {op : ChangeOp} (h : Editing front n x b)
    (hmove : Moves op delta b b') (merge : Bool) :
    Editing front n x (b'.trackChange op delta merge) := by
  obtain ⟨top, htop, m, hm, he, hes⟩ := h.changes
  have hroom := h.room
  have hindex := h.changeIndex
  have hatomic := h.atomicEdit
  have hsize := h.bufSize
  have hfits₀ := h.fits
  have hcursor := hmove.cursor
  have hfits := hmove.fits
  have hleads := hmove.leads merge
  rw [hmove.eq]
  generalize b'.buf = buf at *
  generalize b'.cursor = cursor at *
  have htake : b.changes.take b.changeIndex = front ++ [top] := by
    rw [htop, hindex]
    exact List.take_of_length_le (by simp)
  unfold LineBuffer.trackChange
  simp only [htake, List.getLast?_concat, List.dropLast_concat, hatomic, if_true]
  split
  · next back hmerge =>
    obtain ⟨hprev, hlead⟩ := Change.tryMerge_leads hmerge he hleads
    refine ⟨hroom, hsize, rfl, hcursor, hfits, hindex, back.setMerge true, rfl, m, hm, hlead, ?_⟩
    rw [Change.setMerge, hprev]
    exact hes
  · next hmerge =>
    rw [pushBack_eq, if_neg (Nat.ne_of_lt hroom)]
    refine ⟨hroom, hsize, rfl, hcursor, hfits, by simp, _, rfl, b.buf, ?_, hleads, m, hm, he, hes⟩
    rw [← hsize]
    exact hfits₀

theorem Editing.insertToCursor (h : Editing front n x b) (ref : List Nat) (merge : Bool) :
    Editing front n x (b.insertToCursor ref merge).2 := by
  unfold LineBuffer.insertToCursor
  split
  · next b' hins => exact h.trackChange (LineBuffer.insertRaw_moves hins h.cursor) merge
  · exact h

theorem Editing.deleteToCursor (h : Editing front n x b) (size : Nat) (merge : Bool) :
    Editing front n x (b.deleteToCursor size merge).2 := by
  unfold LineBuffer.deleteToCursor
  split
  · next b' hdel => exact h.trackChange (LineBuffer.deleteToRaw_moves hdel h.cursor h.fits) merge
  · exact h

theorem Editing.deleteFromCursor (h : Editing front n x b) (size : Nat) (merge : Bool) :
    Editing front n x (b.deleteFromCursor size merge).2 := by
  unfold LineBuffer.deleteFromCursor
  split
  · next b' hdel => exact h.trackChange (LineBuffer.deleteFromRaw_moves hdel h.cursor h.fits) merge
  · exact h

theorem modify_concat (cs : List Change) (c : Change) (f : Change → Change) :
    (cs ++ [c]).modify cs.length f = cs ++ [f c] := by
  induction cs with
  | nil => rfl
  | cons c' cs ih =>
    show c' :: (cs ++ [c]).modify cs.length f = _
    rw [ih]
    rfl

theorem Editing.commitLastChange (h : Editing front n x b) :
    Editing front n x b.commitLastChange := by
  obtain ⟨top, htop, hall⟩ := h.changes
  unfold LineBuffer.commitLastChange
  split
  · refine { h with changes := ⟨top.setMerge false, ?_, hall⟩ }
    show b.changes.modify (b.changeIndex - 1) (·.setMerge false) = _
    rw [htop, h.changeIndex, Nat.add_sub_cancel, modify_concat]
  · exact h

/-- Every edit keeps the chain. -/
theorem Editing.run (h : Editing front n x b) (edit : Edit) : Editing front n x (edit.run b) := by
  cases edit with
  | insertToCursor ref merge => exact h.insertToCursor ref merge
  | deleteToCursor size merge => exact h.deleteToCursor size merge
  | deleteFromCursor size merge => exact h.deleteFromCursor size merge
  | setCursor v => exact { h with cursor := Nat.min_le_right _ _ }
  | commitLastChange => exact h.commitLastChange

theorem Editing.foldl_run (h : Editing front n x b) (edits : List Edit) :
    Editing front n x (edits.foldl Edit.run b) := by
  induction edits generalizing b with
  | nil => exact h
  | cons edit edits ih =>
    apply ih
    exact h.run edit

/-! ## The marker -/

/-- What the marker of an atomic edit leaves of the history: nothing to redo, no change open for
merging, and room for the marker. -/
def LineBuffer.remaining (b : LineBuffer) : List Change :=
  let changes := b.changes.take b.changeIndex
  let changes := changes.modify (changes.length - 1) (·.setMerge false)
  if changes.length = changesCapacity then changes.tail else changes

theorem LineBuffer.remaining_length (h : b.Ok) : b.remaining.length < changesCapacity := by
  have hindex := h.changeIndex
  have hcap := h.capacity
  unfold LineBuffer.remaining
  simp only
  split
  · next hlen =>
    rw [List.length_tail, hlen]
    decide
  · next hlen =>
    rw [List.length_modify, List.length_take] at hlen ⊢
    omega

theorem LineBuffer.trackChange_marker (b : LineBuffer) (h : b.atomicEdit = false) :
    b.trackChange .insert [] false = { b with
      changes := b.remaining ++ [⟨⟨.insert, false, b.cursor, []⟩, []⟩]
      changeIndex := b.remaining.length + 1 } := by
  unfold LineBuffer.trackChange LineBuffer.remaining
  simp only
  generalize b.changes.take b.changeIndex = cs
  rcases List.eq_nil_or_concat cs with rfl | ⟨front, back, rfl⟩
  · rfl
  · have hmerge : back.tryMerge ⟨⟨.insert, false, b.cursor, []⟩, []⟩ = none := by
      simp [Change.tryMerge]
    have hlen : (front ++ [back]).length - 1 = front.length := by simp
    rw [List.concat_eq_append, hlen, modify_concat]
    simp only [List.getLast?_concat, List.dropLast_concat, hmerge, h, Bool.false_eq_true, if_false]
    rw [pushBack_eq, List.length_append, List.length_append, List.length_singleton]
    rfl

/-- The insertion that begins an atomic edit. -/
theorem LineBuffer.insertToCursor_marker (h : b.Ok) :
    (b.insertToCursor [] false).2 = { b with
      changes := b.remaining ++ [⟨⟨.insert, false, b.cursor, []⟩, []⟩]
      changeIndex := b.remaining.length + 1 } := by
  have hins : b.insertRaw [] = some b := by
    unfold LineBuffer.insertRaw
    rw [if_pos (by rw [List.length_nil, Nat.add_zero]; exact h.fits), List.append_nil,
      List.take_append_drop]
    rfl
  unfold LineBuffer.insertToCursor
  rw [hins]
  exact b.trackChange_marker h.atomicEdit

theorem Editing.start (h : b.Ok) :
    Editing b.remaining b.bufSize b.buf
      { (b.insertToCursor [] false).2 with atomicEdit := true } := by
  rw [LineBuffer.insertToCursor_marker h]
  refine ⟨LineBuffer.remaining_length h, rfl, rfl, h.cursor, h.fits, rfl, _, rfl, b.buf, h.fits, ?_,
    rfl⟩
  refine ⟨b.buf.take b.cursor, b.buf.drop b.cursor, (List.take_append_drop _ _).symm, ?_, ?_⟩
  · show b.buf = b.buf.take b.cursor ++ [] ++ b.buf.drop b.cursor
    rw [List.append_nil, List.take_append_drop]
  · show b.cursor = (b.buf.take b.cursor).length + 0
    rw [List.length_take, Nat.min_eq_left h.cursor]
    rfl

/-- The function of an atomic edit leaves one change on top of what the marker has left. -/
theorem Editing.afterFunc (h : b.Ok) (hfunc : EditFunction func) :
    Editing b.remaining b.bufSize b.buf
      (func { (b.insertToCursor [] false).2 with atomicEdit := true }).2 := by
  obtain ⟨edits, hedits⟩ := hfunc { (b.insertToCursor [] false).2 with atomicEdit := true }
  rw [hedits]
  exact (Editing.start h).foldl_run edits

/-! ## Wherever the cursor is -/

/-- The buffer with the cursor at its start. -/
def LineBuffer.atStart (b : LineBuffer) : LineBuffer := { b with cursor := 0 }

/-- What an operation does: it moves the cursor, maybe behind the content, and may make the list of
newlines anew; or it is an edit at a place in the content; or it closes the newest change. -/
inductive Effect (b : LineBuffer) : LineBuffer → Prop
  | moves (cursor : Nat) (newlines : List Nat) :
    Effect b { b with cursor := cursor, newlinePosList := newlines }
  | edits (edit : Edit) (cursor : Nat) (h : cursor ≤ b.buf.length) :
    Effect b (edit.run { b with cursor := cursor })
  | commits : Effect b b.commitLastChange

theorem Effect.refl (b : LineBuffer) : Effect b b := .moves b.cursor b.newlinePosList

theorem Effect.moveCursorTo (b : LineBuffer) (newCursor : Nat) :
    Effect b (b.moveCursorTo newCursor).2 := by
  unfold LineBuffer.moveCursorTo
  split
  · exact .moves newCursor b.newlinePosList
  · exact .refl b

theorem Effect.deleteFromCursor (b : LineBuffer) (size : Nat) (merge : Bool) :
    Effect b (b.deleteFromCursor size merge).2 := by
  by_cases h : b.cursor ≤ b.buf.length
  · exact .edits (.deleteFromCursor size merge) b.cursor h
  · have hraw : b.deleteFromRaw size = none := if_neg fun hc => h (Nat.le_of_lt hc.2.1)
    unfold LineBuffer.deleteFromCursor
    rw [hraw]
    exact .refl b

theorem Effect.of_some {r : Bool} {result : Bool × LineBuffer} (h : some result = some (r, b'))
    (e : Effect b result.2) : Effect b b' := by
  have hsnd : result.2 = b' := congrArg Prod.snd (Option.some.inj h)
  rw [← hsnd]
  exact e

theorem Effect.deleteToCursor {r : Bool} {size cursor : Nat} {merge : Bool}
    (h : { b with cursor := cursor }.deleteToCursor? size merge = some (r, b')) : Effect b b' := by
  unfold LineBuffer.deleteToCursor? at h
  split at h
  · cases h
  · next hfault =>
    refine .of_some h ?_
    by_cases hc : cursor ≤ b.buf.length
    · exact .edits (.deleteToCursor size merge) cursor hc
    · have hraw : { b with cursor := cursor }.deleteToRaw size = none := by
        rw [← Option.not_isSome_iff_eq_none]
        exact fun hs => hfault ⟨Nat.lt_of_not_le hc, hs⟩
      unfold LineBuffer.deleteToCursor
      rw [hraw]
      exact .moves cursor b.newlinePosList

/-- What an operation can do, unless an assertion fails. -/
theorem LineEdit.effect {r : Bool} (edit : LineEdit) (h : edit.run b = some (r, b')) :
    Effect b b' := by
  cases edit with
  | edit edit =>
    cases edit with
    | insertToCursor ref merge =>
      obtain ⟨hc, h⟩ := Option.ite_none_right_eq_some.1 h
      exact .of_some h (.edits (.insertToCursor ref merge) b.cursor hc)
    | deleteToCursor size merge => exact @Effect.deleteToCursor b b' r size b.cursor merge h
    | deleteFromCursor size merge => exact .of_some h (.deleteFromCursor b size merge)
    | setCursor v => exact .of_some h (.moves _ b.newlinePosList)
    | commitLastChange => exact .of_some h .commits
  | syncNewlinePosList => exact .of_some h (.moves b.cursor _)
  | moveCursorToStartOfLine => exact .of_some h (.moveCursorTo b _)
  | moveCursorToEndOfLine => exact .of_some h (.moveCursorTo b _)
  | moveCursorUpDown up offset =>
    change b.moveCursorUpDown? up offset = _ at h
    unfold LineBuffer.moveCursorUpDown? at h
    dsimp only at h
    by_cases hstop : (if up = true then b.moveCursorToStartOfLine.2
      else b.moveCursorToEndOfLine.2).cursor = if up = true then 0 else b.buf.length
    · rw [if_pos hstop] at h
      exact .of_some h (.refl b)
    · rw [if_neg hstop] at h
      obtain ⟨-, h⟩ := Option.ite_none_right_eq_some.1 h
      exact .of_some h (.moves _ b.newlinePosList)
  | moveCursorToLeft size =>
    refine .of_some h ?_
    unfold LineBuffer.moveCursorToLeft
    split
    · exact .moves _ b.newlinePosList
    · exact .refl b
  | moveCursorToRight size =>
    change b.moveCursorToRight? size = _ at h
    unfold LineBuffer.moveCursorToRight? at h
    split at h
    · exact .of_some h (.refl b)
    · obtain ⟨-, h⟩ := Option.ite_none_right_eq_some.1 h
      exact .of_some h (.moves _ b.newlinePosList)
  | deleteNext size merge =>
    obtain ⟨hc, h⟩ := Option.ite_none_right_eq_some.1 h
    exact .of_some h (.edits (.deleteFromCursor size merge) b.cursor hc)
  | deleteLineToCursor wholeLine => exact Effect.deleteToCursor h
  | deleteLineFromCursor => exact .of_some h (.deleteFromCursor b _ false)

theorem Editing.atStart (h : Editing front n x b) : Editing front n x b.atStart :=
  { h with cursor := Nat.zero_le _ }

theorem Editing.effect (h : Editing front n x b.atStart) (e : Effect b b') :
    Editing front n x b'.atStart := by
  cases e with
  | moves cursor newlines => exact { h with }
  | edits edit cursor hc =>
    have hcursor : Editing front n x { b with cursor := cursor } := { h with cursor := hc }
    exact (hcursor.run edit).atStart
  | commits =>
    have hcommit : b.commitLastChange.atStart = b.atStart.commitLastChange := by
      unfold LineBuffer.commitLastChange LineBuffer.atStart
      dsimp only
      split <;> rfl
    rw [hcommit]
    exact h.commitLastChange

/-- The operations of an edit function, until an assertion fails. -/
theorem Editing.foldlM_run (h : Editing front n x b.atStart) {edits : List LineEdit}
    (hedits : edits.foldlM (fun b edit => (LineEdit.run b edit).map Prod.snd) b = some b') :
    Editing front n x b'.atStart := by
  induction edits generalizing b with
  | nil =>
    cases hedits
    exact h
  | cons edit edits ih =>
    rw [List.foldlM_cons] at hedits
    obtain ⟨b₁, hrun, hedits⟩ := Option.bind_eq_some_iff.1 hedits
    obtain ⟨result, hresult, rfl⟩ := Option.map_eq_some_iff.1 hrun
    exact ih (h.effect (edit.effect (r := result.1) hresult)) hedits

/-- Undoing sets the cursor first. -/
theorem LineBuffer.undo_atStart (hindex : b.changeIndex ≠ 0)
    (hchange : b.changes[b.changeIndex - 1]? = some c) : b.undo = b.atStart.undo := by
  unfold LineBuffer.undo LineBuffer.atStart
  simp only [hindex, if_false, hchange]
  rfl

/-! ## The end of an atomic edit -/

/-- Undoing the change on top gives the content before the atomic edit. -/
theorem Editing.undo (h : Editing front n x b.atStart) : ∃ cursor top,
    LineBuffer.undo { b with atomicEdit := false } =
      (true, ⟨n, x, cursor, b.newlinePosList, front ++ [top], front.length, false⟩) := by
  obtain ⟨top, htop, hall⟩ := h.changes
  have hsize := h.bufSize
  have hindex := h.changeIndex
  obtain ⟨bufSize, buf, cursor₀, newlines, changes, changeIndex, atomicEdit⟩ := b
  unfold LineBuffer.atStart at htop hall hsize hindex
  dsimp only at htop hall hsize hindex
  subst htop hsize hindex
  have hget : (front ++ [top])[front.length]? = some top := by simp
  obtain ⟨cursor, -, hfold⟩ := LineBuffer.foldl_revert_leads (b :=
    ⟨bufSize, buf, 0, newlines, front ++ [top.setMerge false], front.length, false⟩) hall
    (Nat.zero_le _)
  have hfold' : (top.entry :: top.prev).foldl LineBuffer.revert
    ⟨bufSize, buf, 0, newlines, front ++ [top.setMerge false], front.length, false⟩ = _ := hfold
  refine ⟨cursor, top.setMerge false, ?_⟩
  rw [LineBuffer.undo_atStart (Nat.succ_ne_zero _) hget]
  unfold LineBuffer.undo LineBuffer.atStart
  simp only [Nat.add_sub_cancel, Nat.add_eq_zero_iff, Nat.one_ne_zero, and_false, if_false, hget,
    List.set_append_right front.length _ (Nat.le_refl _), Nat.sub_self, List.set_cons_zero, hfold']

/-- A failed atomic edit changes nothing but the list of newlines, and the history to what the
marker has left of it. -/
theorem LineBuffer.intoAtomicEdit_rollback (h : b.Ok)
    (hedit : Editing b.remaining b.bufSize b.buf b'.atStart) :
    (b.intoAtomicEdit fun _ => (false, b')).2 = { b with
      newlinePosList := b'.newlinePosList
      changes := b.remaining
      changeIndex := b.remaining.length } := by
  obtain ⟨cursor, top, hundo⟩ := hedit.undo
  unfold LineBuffer.intoAtomicEdit
  simp only [Bool.false_eq_true, if_false, hundo, LineBuffer.setCursor, List.take_left,
    Nat.min_eq_left h.cursor]
  rw [h.atomicEdit]

theorem LineBuffer.intoAtomicEdit_fail (h : b.Ok) (hfunc : EditFunction func)
    (hfail : (b.intoAtomicEdit func).1 = false) :
    (b.intoAtomicEdit func).2 = { b with
      newlinePosList := (func b.marked).2.newlinePosList
      changes := b.remaining
      changeIndex := b.remaining.length } := by
  have hedit := (Editing.afterFunc h hfunc).atStart
  change (b.intoAtomicEdit fun _ => func b.marked).1 = false at hfail
  change (b.intoAtomicEdit fun _ => func b.marked).2 = _
  change Editing _ _ _ (func b.marked).2.atStart at hedit
  generalize func b.marked = result at *
  obtain ⟨r, e⟩ := result
  cases r with
  | true =>
    unfold LineBuffer.intoAtomicEdit at hfail
    cases hfail
  | false => exact LineBuffer.intoAtomicEdit_rollback h hedit

/-- What the marker leaves is the end of the way to the present content. -/
theorem LineBuffer.remaining_leads (h : b.Ok) :
    ∃ y, LeadsAll b.bufSize (trails b.remaining) y b.buf := by
  obtain ⟨y, hy⟩ := h.past
  unfold LineBuffer.remaining
  simp only
  generalize b.changes.take b.changeIndex = cs at *
  have htrails : trails (cs.modify (cs.length - 1) (·.setMerge false)) = trails cs := by
    unfold trails
    rw [trails_modify]
  rw [← htrails] at hy
  split
  · generalize cs.modify (cs.length - 1) (·.setMerge false) = cs' at *
    cases cs' with
    | nil => exact ⟨y, hy⟩
    | cons c cs' =>
      rw [trails_cons] at hy
      obtain ⟨z, -, hz, -⟩ := leadsAll_append hy h.fits
      exact ⟨z, hz⟩
  · exact ⟨y, hy⟩

theorem LineBuffer.Ok.atStart (h : b.Ok) : b.atStart.Ok := { h with cursor := Nat.zero_le _ }

/-- The history after an atomic edit. -/
theorem LineBuffer.Ok.finish (h : b.Ok) (r : Bool)
    (hedit : Editing b.remaining b.bufSize b.buf b'.atStart) :
    (b.intoAtomicEdit fun _ => (r, b')).2.atStart.Ok := by
  obtain ⟨y, hy⟩ := LineBuffer.remaining_leads h
  have hroom := LineBuffer.remaining_length h
  cases r with
  | false =>
    rw [LineBuffer.intoAtomicEdit_rollback h hedit]
    refine { h with
      cursor := Nat.zero_le _, changeIndex := Nat.le_refl _, capacity := Nat.le_of_lt hroom
      past := ⟨y, ?_⟩, future := ⟨b.buf, h.fits, ?_⟩ }
    · simp only [LineBuffer.atStart, List.take_length]
      exact hy
    · simp only [LineBuffer.atStart, List.drop_length]
      rfl
  | true =>
    obtain ⟨top, htop, hall⟩ := hedit.changes
    have hindex := hedit.changeIndex
    have hlen : b'.changes.length = b'.changeIndex := by
      change b'.changes = _ at htop
      rw [htop, List.length_append, List.length_singleton]
      exact hindex.symm
    refine ⟨Nat.zero_le _, hedit.fits, rfl, Nat.le_of_eq hlen.symm, ?_, ⟨y, ?_⟩, b'.buf, hedit.fits,
      ?_⟩
    · show b'.changes.length ≤ _
      rw [hlen]
      exact hindex ▸ hroom
    · show LeadsAll b'.bufSize (trails (b'.changes.take b'.changeIndex)) y b'.buf
      have hsize : b'.bufSize = b.bufSize := hedit.bufSize
      rw [← hlen, List.take_length, show b'.changes = _ from htop, trails_concat, hsize]
      exact hall.append hy
    · show LeadsAll b'.bufSize (trails (b'.changes.drop b'.changeIndex)) b'.buf b'.buf
      rw [← hlen, List.drop_length]
      rfl

theorem LineBuffer.Ok.intoAtomicEdit (h : b.Ok) (hfunc : EditFunction func) :
    (b.intoAtomicEdit func).2.Ok := by
  have hedit := Editing.afterFunc h hfunc
  have hfinish := h.finish (func b.marked).1 hedit.atStart
  refine { hfinish with cursor := ?_ }
  cases hr : (b.intoAtomicEdit func).1 with
  | false =>
    rw [LineBuffer.intoAtomicEdit_fail h hfunc hr]
    exact h.cursor
  | true =>
    unfold LineBuffer.intoAtomicEdit at hr ⊢
    simp only at hr ⊢
    generalize func { (b.insertToCursor [] false).2 with atomicEdit := true } = result at *
    obtain ⟨r, e⟩ := result
    cases r with
    | false => cases hr
    | true => exact hedit.cursor

/-- Whatever editing leads to is sound. -/
theorem Reachable.ok (h : Reachable b) : b.Ok := by
  induction h with
  | new bufSize => exact LineBuffer.Ok.new bufSize
  | run edit _ ih => exact ih.run edit
  | undo _ ih => exact ih.undo
  | redo _ ih => exact ih.redo
  | intoAtomicEdit hfunc _ ih => exact ih.intoAtomicEdit hfunc

theorem LineBuffer.Ok.effect (h : b.atStart.Ok) (e : Effect b b') : b'.atStart.Ok := by
  cases e with
  | moves cursor newlines => exact { h with }
  | edits edit cursor hc =>
    have hcursor : LineBuffer.Ok { b with cursor := cursor } := { h with cursor := hc }
    exact (hcursor.run edit).atStart
  | commits =>
    have hcommit : b.commitLastChange.atStart = b.atStart.commitLastChange := by
      unfold LineBuffer.commitLastChange LineBuffer.atStart
      dsimp only
      split <;> rfl
    rw [hcommit]
    exact h.commitLastChange

theorem LineBuffer.undo_cases (b : LineBuffer) : b.undo = (false, b) ∨ b.undo = b.atStart.undo := by
  by_cases hindex : b.changeIndex = 0
  · exact .inl (if_pos hindex)
  · cases hchange : b.changes[b.changeIndex - 1]? with
    | none =>
      left
      unfold LineBuffer.undo
      rw [if_neg hindex, hchange]
    | some c => exact .inr (LineBuffer.undo_atStart hindex hchange)

theorem LineBuffer.replay_atStart (b : LineBuffer) (e : Entry) :
    b.atStart.replay e = b.replay e := by
  unfold LineBuffer.replay LineBuffer.atStart
  cases e.type <;> rfl

/-- Redoing sets the cursor first. -/
theorem LineBuffer.redo_cases (b : LineBuffer) : b.redo = (false, b) ∨ b.redo = b.atStart.redo := by
  unfold LineBuffer.redo LineBuffer.atStart
  dsimp only
  cases b.changes[b.changeIndex]? with
  | none => exact .inl rfl
  | some c =>
    right
    dsimp only
    cases hback : (c.entry :: c.prev).reverse with
    | nil => simp at hback
    | cons e es =>
      rw [List.foldl_cons, List.foldl_cons, ← LineBuffer.replay_atStart]
      rfl

/-- With the cursor in the content the buffer is sound. -/
theorem LineBuffer.Ok.of_atStart (h : b.atStart.Ok) (hcursor : b.cursor ≤ b.buf.length) : b.Ok :=
  { h with cursor := hcursor }

/-- The function of an atomic edit ends as before, or not at all. -/
theorem Editing.afterLineFunction (h : b.Ok) {func : LineBuffer → Option (Bool × LineBuffer)}
    (hfunc : LineFunction func) {r : Bool} (hrun : func b.marked = some (r, b')) :
    Editing b.remaining b.bufSize b.buf b'.atStart := by
  obtain ⟨edits, hedits⟩ := hfunc b.marked
  rw [hrun] at hedits
  exact (Editing.start h).atStart.foldlM_run hedits.symm

/-- The history is sound wherever the operations leave the cursor. -/
theorem LineReachable.ok (h : LineReachable b) : b.atStart.Ok := by
  induction h with
  | new bufSize => exact (LineBuffer.Ok.new bufSize).atStart
  | run edit _ hrun ih => exact ih.effect (edit.effect hrun)
  | @undo b _ ih =>
    rcases b.undo_cases with heq | heq
    · rw [heq]
      exact ih
    · rw [heq]
      exact ih.undo.atStart
  | @redo b _ ih =>
    rcases b.redo_cases with heq | heq
    · rw [heq]
      exact ih
    · rw [heq]
      exact ih.redo.atStart
  | @intoAtomicEdit b b' r func hfunc _ hrun ih =>
    obtain ⟨hcursor, hrun⟩ := Option.ite_none_right_eq_some.1 hrun
    obtain ⟨⟨r', e⟩, hmarked, heq⟩ := Option.map_eq_some_iff.1 hrun
    have hok := ih.of_atStart hcursor
    have hfinish := hok.finish r' (Editing.afterLineFunction hok hfunc hmarked)
    rw [heq] at hfinish
    exact hfinish

/-! ## The trace of a failed atomic edit -/

/-- The content, the cursor and the history of the two buffers are the same. -/
def LineBuffer.SameState (b b' : LineBuffer) : Prop :=
  b'.buf = b.buf ∧ b'.cursor = b.cursor ∧ b'.changes = b.changes ∧ b'.changeIndex = b.changeIndex

/-- The same, but changes may have been closed to merging. -/
def LineBuffer.SameEntries (b b' : LineBuffer) : Prop :=
  b'.buf = b.buf ∧ b'.cursor = b.cursor ∧
    b'.changes.map Change.trail = b.changes.map Change.trail ∧ b'.changeIndex = b.changeIndex

/-- There is nothing to redo, and room for a change more. -/
def LineBuffer.Roomy (b : LineBuffer) : Prop :=
  b.changeIndex = b.changes.length ∧ b.changes.length < changesCapacity

/-- The newest change is not open for merging. -/
def LineBuffer.Closed (b : LineBuffer) : Prop :=
  ∀ c, b.changes.getLast? = some c → c.entry.merge = false

theorem LineBuffer.remaining_roomy (h : b.Roomy) :
    b.remaining = b.changes.modify (b.changes.length - 1) (·.setMerge false) := by
  obtain ⟨hindex, hroom⟩ := h
  unfold LineBuffer.remaining
  simp only [hindex, List.take_length, List.length_modify]
  rw [if_neg (Nat.ne_of_lt hroom)]

/-- The marker takes away a change unless there is room for it and nothing to redo. -/
theorem LineBuffer.remaining_trail (h : b.Ok) :
    (b.remaining.map Change.trail = b.changes.map Change.trail ∧
      b.remaining.length = b.changeIndex) ↔ b.Roomy := by
  constructor
  · rintro ⟨hmap, hindex⟩
    have hlen : b.remaining.length = b.changes.length := by
      rw [← List.length_map Change.trail, hmap, List.length_map]
    have hroom := LineBuffer.remaining_length h
    exact ⟨by omega, by omega⟩
  · intro hroomy
    rw [LineBuffer.remaining_roomy hroomy, trails_modify, List.length_modify]
    exact ⟨rfl, hroomy.1.symm⟩

theorem LineBuffer.remaining_changes (h : b.Ok) :
    (b.remaining = b.changes ∧ b.remaining.length = b.changeIndex) ↔ b.Roomy ∧ b.Closed := by
  have hclosed : b.changes.modify (b.changes.length - 1) (·.setMerge false) = b.changes ↔
      b.Closed := by
    unfold LineBuffer.Closed
    rcases List.eq_nil_or_concat b.changes with hnil | ⟨front, back, hback⟩
    · simp [hnil]
    · have hlen : (front ++ [back]).length - 1 = front.length := by simp
      rw [hback, List.concat_eq_append, hlen, modify_concat, List.getLast?_concat]
      constructor
      · intro heq c hc
        cases hc
        obtain ⟨-, heq⟩ := List.append_inj heq rfl
        rw [← List.head_eq_of_cons_eq heq]
        rfl
      · intro hmerge
        have hback := hmerge back rfl
        obtain ⟨⟨type, merge, cursor, delta⟩, prev⟩ := back
        cases (hback : merge = false)
        rfl
  constructor
  · rintro ⟨heq, hindex⟩
    have hroomy := (LineBuffer.remaining_trail h).1 ⟨by rw [heq], hindex⟩
    rw [LineBuffer.remaining_roomy hroomy] at heq
    exact ⟨hroomy, hclosed.1 heq⟩
  · rintro ⟨hroomy, hc⟩
    obtain ⟨-, hindex⟩ := (LineBuffer.remaining_trail h).2 hroomy
    exact ⟨by rw [LineBuffer.remaining_roomy hroomy, hclosed.2 hc], hindex⟩

/-- No assertion fails: the cursor is in the content, and again wherever the function edits. -/
def LineBuffer.Runs (b : LineBuffer) (func : LineBuffer → Option (Bool × LineBuffer)) : Prop :=
  b.cursor ≤ b.buf.length ∧ (func b.marked).isSome

/-- A failed atomic edit restores the content and the cursor if no assertion fails. It leaves the
history as it was if and only if moreover nothing could be redone, the history was not full, and its
newest change was not open for merging; the first two alone decide that no entry is lost. -/
theorem intoAtomicEdit_failed {func : LineBuffer → Option (Bool × LineBuffer)}
    (h : LineReachable b) (hfunc : LineFunction func)
    (hfail : ∀ r b', b.intoAtomicEdit? func = some (r, b') → r = false) :
    ((∃ b', b.intoAtomicEdit? func = some (false, b') ∧ b.SameState b') ↔
        b.Runs func ∧ b.Roomy ∧ b.Closed) ∧
      ((∃ b', b.intoAtomicEdit? func = some (false, b') ∧ b.SameEntries b') ↔
        b.Runs func ∧ b.Roomy) ∧
      ((∃ b', b.intoAtomicEdit? func = some (false, b') ∧ b'.buf = b.buf ∧ b'.cursor = b.cursor) ↔
        b.Runs func) := by
  by_cases hruns : b.Runs func
  · obtain ⟨hcursor, hsome⟩ := id hruns
    have hok := h.ok.of_atStart hcursor
    obtain ⟨⟨r, e⟩, hrun⟩ := Option.isSome_iff_exists.1 hsome
    have hedit := Editing.afterLineFunction hok hfunc hrun
    have hcall : b.intoAtomicEdit? func = some (b.intoAtomicEdit fun _ => (r, e)) := by
      unfold LineBuffer.intoAtomicEdit?
      rw [if_pos hcursor, hrun]
      rfl
    have hr : r = false := by
      cases r with
      | false => rfl
      | true => exact hfail true _ hcall
    subst hr
    -- the buffer after the rollback is the only one there is
    have hroll : b.intoAtomicEdit? func = some (false, { b with
        newlinePosList := e.newlinePosList
        changes := b.remaining
        changeIndex := b.remaining.length }) := by
      rw [hcall, ← LineBuffer.intoAtomicEdit_rollback hok hedit]
      rfl
    simp only [hroll, Option.some.injEq, Prod.mk.injEq, true_and, exists_eq_left',
      LineBuffer.SameState, LineBuffer.SameEntries, and_self]
    rw [← LineBuffer.remaining_changes hok, ← LineBuffer.remaining_trail hok]
    exact ⟨(and_iff_right hruns).symm, (and_iff_right hruns).symm, iff_of_true trivial hruns⟩
  · have hnone : b.intoAtomicEdit? func = none := by
      unfold LineBuffer.intoAtomicEdit?
      by_cases hcursor : b.cursor ≤ b.buf.length
      · have hrun : func b.marked = none :=
          Option.not_isSome_iff_eq_none.1 fun hs => hruns ⟨hcursor, hs⟩
        rw [if_pos hcursor, hrun]
        rfl
      · rw [if_neg hcursor]
    simp [hnone, hruns]

end

/-! ## Edit functions -/

theorem LineFunction.run (edit : LineBuffer → LineEdit) :
    LineFunction fun b => (edit b).run b := by
  intro b
  refine ⟨[edit b], ?_⟩
  show ((edit b).run b).map Prod.snd = _
  rw [List.foldlM_cons]
  cases (edit b).run b <;> rfl

theorem LineFunction.pure (r : Bool) : LineFunction fun b => some (r, b) := fun _ => ⟨[], rfl⟩

/-- One after the other; the second may look at the first buffer. -/
theorem LineFunction.bind {f : LineBuffer → Option (Bool × LineBuffer)}
    {g : LineBuffer → Bool → LineBuffer → Option (Bool × LineBuffer)} (hf : LineFunction f)
    (hg : ∀ b r, LineFunction (g b r)) :
    LineFunction fun b => (f b).bind fun result => g b result.1 result.2 := by
  intro b
  obtain ⟨edits, hedits⟩ := hf b
  dsimp only
  cases hrun : f b with
  | none =>
    rw [hrun] at hedits
    exact ⟨edits, hedits⟩
  | some result =>
    obtain ⟨edits', hedits'⟩ := hg b result.1 result.2
    refine ⟨edits ++ edits', ?_⟩
    rw [hrun] at hedits
    rw [List.foldlM_append, ← hedits]
    exact hedits'

/-- Over the next byte, and what was cut before it is behind it. -/
def insertBehindNext (cut : List Nat) (b : LineBuffer) : Option (Bool × LineBuffer) :=
  (LineEdit.run b (.moveCursorToRight 1)).bind fun moved =>
    if moved.1 then LineEdit.run moved.2 (.edit (.insertToCursor cut false)) else some moved

theorem insertBehindNext_function (cut : List Nat) : LineFunction (insertBehindNext cut) := by
  refine .bind (g := fun _ moved b =>
    if moved then LineEdit.run b (.edit (.insertToCursor cut false)) else some (moved, b))
    (.run fun _ => .moveCursorToRight 1) fun _ moved => ?_
  cases moved with
  | false => exact .pure false
  | true => exact .run fun _ => .edit (.insertToCursor cut false)

/-- Swaps the bytes around the cursor, as Ctrl-T does with characters. -/
def swapBytes (b : LineBuffer) : Option (Bool × LineBuffer) :=
  let size := min 1 b.cursor
  (LineEdit.run b (.edit (.deleteToCursor size false))).bind fun deleted =>
    if deleted.1 then insertBehindNext ((b.buf.drop (b.cursor - size)).take size) deleted.2
    else some deleted

theorem swapBytes_function : LineFunction swapBytes := by
  let size (b : LineBuffer) := min 1 b.cursor
  refine .bind (g := fun b deleted b' =>
    if deleted then insertBehindNext ((b.buf.drop (b.cursor - size b)).take (size b)) b'
    else some (deleted, b'))
    (.run fun b => .edit (.deleteToCursor (size b) false)) fun b deleted => ?_
  cases deleted with
  | false => exact .pure false
  | true => exact insertBehindNext_function _

/-- Two insertions, one of which has been taken back, with the cursor at the start. -/
def undoneInsert : LineBuffer :=
  ((((LineBuffer.new 16).insertToCursor [97] false).2.insertToCursor [98] false).2.undo.2
    ).moveCursorToLeft 1 |>.2

theorem undoneInsert_reachable : LineReachable undoneInsert := by
  have h₁ := LineReachable.run (.edit (.insertToCursor [97] false)) (.new 16) rfl
  have h₂ := LineReachable.run (.edit (.insertToCursor [98] false)) h₁ rfl
  exact .run (.moveCursorToLeft 1) (.undo h₂) rfl

/-- With a change to redo, a failed edit forgets it. -/
theorem intoAtomicEdit_not_traceless :
    ¬ ∀ b func, LineReachable b → LineFunction func →
      (∀ r b', b.intoAtomicEdit? func = some (r, b') → r = false) →
      ∃ b', b.intoAtomicEdit? func = some (false, b') ∧ b.SameState b' := by
  intro h
  have hcall : undoneInsert.intoAtomicEdit? swapBytes =
      some (false, { undoneInsert with changes := undoneInsert.changes.take 1 }) := by decide
  obtain ⟨b', hb', hsame⟩ := h undoneInsert swapBytes undoneInsert_reachable swapBytes_function
    fun r b' hr => by
      rw [hcall] at hr
      exact (Prod.mk.inj (Option.some.inj hr)).1.symm
  cases hcall.symm.trans hb'
  exact absurd hsame.2.2.1 (by decide)

/-- Deletes two bytes and inserts what is too long. -/
def replaceByLong (b : LineBuffer) : Option (Bool × LineBuffer) :=
  (LineEdit.run b (.edit (.deleteToCursor 2 false))).bind fun deleted =>
    LineEdit.run deleted.2 (.edit (.insertToCursor (List.replicate 20 97) false))

theorem replaceByLong_function : LineFunction replaceByLong :=
  .bind (.run fun _ => .edit (.deleteToCursor 2 false)) fun _ _ =>
    .run fun _ => .edit (.insertToCursor (List.replicate 20 97) false)

/-- Three bytes in two changes. -/
def twoInserts : LineBuffer :=
  (((LineBuffer.new 16).insertToCursor [97, 98] false).2.insertToCursor [99] false).2

theorem intoAtomicEdit_failed_replaceByLong :
    twoInserts.changes.length = 2 ∧ (replaceByLong twoInserts.marked).map (·.2.buf) = some [97] ∧
      ∃ b', twoInserts.intoAtomicEdit? replaceByLong = some (false, b') ∧ twoInserts.SameState b' := by
  refine ⟨rfl, by decide, ?_⟩
  have h₁ := LineReachable.run (.edit (.insertToCursor [97, 98] false)) (.new 16) rfl
  have h₂ : LineReachable twoInserts := .run (.edit (.insertToCursor [99] false)) h₁ rfl
  have hfst : (twoInserts.intoAtomicEdit? replaceByLong).map Prod.fst = some false := by decide
  refine (intoAtomicEdit_failed h₂ replaceByLong_function fun r b' hr => ?_).1.2
    ⟨⟨by decide, by decide⟩, ⟨rfl, by decide⟩, fun c hc => ?_⟩
  · rw [hr] at hfst
    exact Option.some.inj hfst
  · cases hc
    rfl

end Arsh.Line
