import Arsh.Line.LineBuffer

/-!
# The history of a line buffer

An entry of the history leads from one content to another. In every buffer that editing leads to,
the entries behind the index lead from some content to the present one and those from the index on
lead further: undo and redo walk along this way, to contents that fit into the buffer.
-/

namespace Arsh.Line

/-! ## What an entry does -/

/-- The entry records the way from the content `x` to the content `y`. -/
def Entry.Leads (e : Entry) (x y : List Nat) : Prop :=
  match e.type with
  | .insert => ∃ l r, x = l ++ r ∧ y = l ++ e.delta ++ r ∧ e.cursor = l.length + e.delta.length
  | _ => ∃ l r, x = l ++ e.delta ++ r ∧ y = l ++ r ∧ e.cursor = l.length

/-- The entries, the newest first, record the way from `x` to `y`; no content before `y` is longer
than the buffer. -/
def LeadsAll (bufSize : Nat) : List Entry → List Nat → List Nat → Prop
  | [], x, y => x = y
  | e :: es, x, y => ∃ z, z.length ≤ bufSize ∧ e.Leads z y ∧ LeadsAll bufSize es x z

/-- The entries of a change, the newest first; that the change is open for merging is no part of
the way. -/
def Change.trail (c : Change) : List Entry := { c.entry with merge := false } :: c.prev

/-- The entries of the changes, the newest first. -/
def trails (changes : List Change) : List Entry := (changes.map Change.trail).reverse.flatten

/-- `b'` is `b` with a content that an entry of the given kind leads to. -/
structure Moves (op : ChangeOp) (delta : List Nat) (b b' : LineBuffer) : Prop where
  eq : b' = { b with buf := b'.buf, cursor := b'.cursor }
  cursor : b'.cursor ≤ b'.buf.length
  fits : b'.buf.length ≤ b.bufSize
  leads (merge : Bool) : Entry.Leads ⟨op, merge, b'.cursor, delta⟩ b.buf b'.buf

section
variable {b b' : LineBuffer} {e : Entry} {es es' : List Entry} {x y z ref delta : List Nat}
  {c o c' : Change} {cs : List Change} {size n : Nat} {merge : Bool}

theorem leadsAll_append (h : LeadsAll n (es ++ es') x y) (hy : y.length ≤ n) :
    ∃ z, z.length ≤ n ∧ LeadsAll n es z y ∧ LeadsAll n es' x z := by
  induction es generalizing y with
  | nil => exact ⟨y, hy, rfl, h⟩
  | cons e es ih =>
    obtain ⟨z, hz, he, hes⟩ := h
    obtain ⟨m, hm, hzm, hxm⟩ := ih hes hz
    exact ⟨m, hm, ⟨z, hz, he, hzm⟩, hxm⟩

theorem LeadsAll.append (h : LeadsAll n es z y) (h' : LeadsAll n es' x z) :
    LeadsAll n (es ++ es') x y := by
  induction es generalizing y with
  | nil => cases h; exact h'
  | cons e es ih =>
    obtain ⟨m, hm, he, hes⟩ := h
    exact ⟨m, hm, he, ih hes⟩

@[simp] theorem Change.trail_setMerge (c : Change) (merge : Bool) :
    (c.setMerge merge).trail = c.trail := rfl

theorem trails_concat (cs : List Change) (c : Change) : trails (cs ++ [c]) = c.trail ++ trails cs := by
  simp [trails]

theorem trails_cons (cs : List Change) (c : Change) : trails (c :: cs) = trails cs ++ c.trail := by
  simp [trails]

/-- Merging two changes joins what they record. -/
theorem Change.tryMerge_leads (h : c.tryMerge o = some c') (hc : c.entry.Leads x y)
    (ho : o.entry.Leads y z) : c'.prev = c.prev ∧ c'.entry.Leads x z := by
  unfold Change.tryMerge at h
  split at h
  · cases h
  · next hcond =>
    simp only [Bool.or_eq_true, Bool.not_eq_true', bne_iff_ne, ne_eq, not_or, not_not] at hcond
    obtain ⟨-, htype⟩ := hcond
    unfold Entry.Leads at hc ho
    rw [← htype] at ho
    cases htc : c.entry.type with
    | insert =>
      simp only [htc] at h hc ho
      obtain ⟨l, r, rfl, rfl, hcur⟩ := hc
      obtain ⟨l', r', hy, rfl, hcur'⟩ := ho
      split at h
      · next heq =>
        cases h
        obtain ⟨rfl, rfl⟩ := List.append_inj hy (by rw [List.length_append]; omega)
        refine ⟨rfl, ?_⟩
        simp only [Entry.Leads]
        refine ⟨l, r, rfl, by simp, ?_⟩
        rw [List.length_append]
        omega
      · cases h
    | deleteTo =>
      simp only [htc] at h hc ho
      obtain ⟨l, r, rfl, rfl, hcur⟩ := hc
      obtain ⟨l', r', hy, rfl, hcur'⟩ := ho
      split at h
      · next heq =>
        cases h
        obtain ⟨rfl, rfl⟩ := List.append_inj hy (by rw [List.length_append]; omega)
        refine ⟨rfl, ?_⟩
        simp only [Entry.Leads]
        exact ⟨l', r, by simp, rfl, hcur'⟩
      · cases h
    | deleteFrom =>
      simp only [htc] at h hc ho
      obtain ⟨l, r, rfl, rfl, hcur⟩ := hc
      obtain ⟨l', r', hy, rfl, hcur'⟩ := ho
      split at h
      · next heq =>
        cases h
        rw [List.append_assoc] at hy
        obtain ⟨rfl, rfl⟩ := List.append_inj hy (by omega)
        refine ⟨rfl, ?_⟩
        simp only [Entry.Leads]
        exact ⟨l, r', by simp, rfl, hcur⟩
      · cases h

/-! ## The contents of the operations -/

theorem LineBuffer.insertRaw_moves (h : b.insertRaw ref = some b') (hcursor : b.cursor ≤ b.buf.length) :
    Moves .insert ref b b' := by
  unfold LineBuffer.insertRaw at h
  split at h
  · next hroom =>
    cases h
    have hlen : (b.buf.take b.cursor ++ ref ++ b.buf.drop b.cursor).length =
        b.buf.length + ref.length := by
      simp only [List.length_append, List.length_take, List.length_drop]
      omega
    refine ⟨rfl, ?_, ?_, fun merge => ?_⟩
    · show b.cursor + ref.length ≤ _
      rw [hlen]
      omega
    · show List.length _ ≤ b.bufSize
      rw [hlen]
      exact hroom
    · refine ⟨b.buf.take b.cursor, b.buf.drop b.cursor, (List.take_append_drop _ _).symm, rfl, ?_⟩
      show b.cursor + ref.length = _
      rw [List.length_take, Nat.min_eq_left hcursor]
  · cases h

theorem LineBuffer.deleteToRaw_moves (h : b.deleteToRaw size = some (delta, b'))
    (hcursor : b.cursor ≤ b.buf.length) (hfits : b.buf.length ≤ b.bufSize) :
    Moves .deleteTo delta b b' := by
  unfold LineBuffer.deleteToRaw at h
  split at h
  · next hcond =>
    cases h
    have hlen : (b.buf.take (b.cursor - size) ++ b.buf.drop b.cursor).length =
        b.buf.length - size := by
      simp only [List.length_append, List.length_take, List.length_drop]
      omega
    refine ⟨rfl, ?_, ?_, fun merge => ?_⟩
    · show b.cursor - size ≤ _
      rw [hlen]
      omega
    · show List.length _ ≤ b.bufSize
      rw [hlen]
      omega
    · refine ⟨b.buf.take (b.cursor - size), b.buf.drop b.cursor, ?_, rfl, ?_⟩
      · show b.buf = b.buf.take (b.cursor - size) ++ (b.buf.drop (b.cursor - size)).take size ++ _
        have hdrop : b.buf.drop b.cursor = (b.buf.drop (b.cursor - size)).drop size := by
          rw [List.drop_drop]
          congr 1
          omega
        rw [hdrop, List.append_assoc, List.take_append_drop, List.take_append_drop]
      · show b.cursor - size = _
        rw [List.length_take, Nat.min_eq_left (by omega)]
  · cases h

theorem LineBuffer.deleteFromRaw_moves (h : b.deleteFromRaw size = some (delta, b'))
    (hcursor : b.cursor ≤ b.buf.length) (hfits : b.buf.length ≤ b.bufSize) :
    Moves .deleteFrom delta b b' := by
  unfold LineBuffer.deleteFromRaw at h
  split at h
  · next hcond =>
    cases h
    have hlen : (b.buf.take b.cursor ++ b.buf.drop (b.cursor + size)).length =
        b.buf.length - size := by
      simp only [List.length_append, List.length_take, List.length_drop]
      omega
    refine ⟨rfl, ?_, ?_, fun merge => ?_⟩
    · show b.cursor ≤ _
      rw [hlen]
      omega
    · show List.length _ ≤ b.bufSize
      rw [hlen]
      omega
    · refine ⟨b.buf.take b.cursor, b.buf.drop (b.cursor + size), ?_, rfl, ?_⟩
      · show b.buf = b.buf.take b.cursor ++ (b.buf.drop b.cursor).take size ++ _
        rw [← List.drop_drop, List.append_assoc, List.take_append_drop, List.take_append_drop]
      · show b.cursor = _
        rw [List.length_take, Nat.min_eq_left hcursor]
  · cases h

/-! ## Undo and redo of an entry -/

variable {l r d : List Nat}

theorem LineBuffer.insertRaw_at (hbuf : b.buf = l ++ r) (hcursor : b.cursor = l.length)
    (hroom : (l ++ ref ++ r).length ≤ b.bufSize) :
    b.insertRaw ref = some { b with buf := l ++ ref ++ r, cursor := l.length + ref.length } := by
  unfold LineBuffer.insertRaw
  rw [hbuf, hcursor, if_pos (by simp only [List.length_append] at hroom ⊢; omega), List.take_left,
    List.drop_left]

theorem LineBuffer.deleteToRaw_at (hbuf : b.buf = l ++ d ++ r)
    (hcursor : b.cursor = l.length + d.length) (hd : d ≠ []) :
    b.deleteToRaw d.length = some (d, { b with buf := l ++ r, cursor := l.length }) := by
  have hpos := List.length_pos_iff.2 hd
  unfold LineBuffer.deleteToRaw
  rw [hbuf, hcursor, if_pos (by simp only [List.length_append]; omega), Nat.add_sub_cancel,
    ← List.length_append, List.drop_left, List.append_assoc, List.take_left, List.drop_left,
    List.take_left]

theorem LineBuffer.deleteFromRaw_at (hbuf : b.buf = l ++ d ++ r) (hcursor : b.cursor = l.length)
    (hd : d ≠ []) :
    b.deleteFromRaw d.length = some (d, { b with buf := l ++ r }) := by
  have hpos := List.length_pos_iff.2 hd
  unfold LineBuffer.deleteFromRaw
  rw [hbuf, hcursor, if_pos (by simp only [List.length_append]; omega), ← List.length_append,
    List.drop_left, List.append_assoc, List.take_left, List.drop_left, List.take_left]

theorem LineBuffer.deleteToRaw_zero : b.deleteToRaw 0 = none := by
  simp [LineBuffer.deleteToRaw]

theorem LineBuffer.deleteFromRaw_zero : b.deleteFromRaw 0 = none := by
  simp [LineBuffer.deleteFromRaw]

/-- Reverting an entry gives the content before it. -/
theorem LineBuffer.revert_leads (h : e.Leads x b.buf) (hx : x.length ≤ b.bufSize) :
    ∃ cursor, cursor ≤ x.length ∧ b.revert e = { b with buf := x, cursor := cursor } := by
  unfold Entry.Leads at h
  unfold LineBuffer.revert
  cases ht : e.type with
  | insert =>
    simp only [ht] at h ⊢
    obtain ⟨l, r, rfl, hy, hcur⟩ := h
    by_cases hd : e.delta = []
    · rw [hd, List.append_nil] at hy
      rw [hd, List.length_nil] at hcur ⊢
      rw [LineBuffer.deleteToRaw_zero, ← hy]
      exact ⟨e.cursor, by rw [hy, List.length_append]; omega, rfl⟩
    · rw [LineBuffer.deleteToRaw_at (b := { b with cursor := e.cursor }) hy hcur hd]
      exact ⟨l.length, by rw [List.length_append]; omega, rfl⟩
  | deleteTo =>
    simp only [ht] at h ⊢
    obtain ⟨l, r, rfl, hy, hcur⟩ := h
    rw [LineBuffer.insertRaw_at (b := { b with cursor := e.cursor }) hy hcur hx]
    exact ⟨l.length + e.delta.length, by simp only [List.length_append]; omega, rfl⟩
  | deleteFrom =>
    simp only [ht] at h ⊢
    obtain ⟨l, r, rfl, hy, hcur⟩ := h
    rw [LineBuffer.insertRaw_at (b := { b with cursor := e.cursor }) hy hcur hx]
    exact ⟨e.cursor, by simp only [List.length_append]; omega, rfl⟩

/-- Replaying an entry gives the content after it. -/
theorem LineBuffer.replay_leads (h : e.Leads b.buf y) (hy : y.length ≤ b.bufSize) :
    ∃ cursor, cursor ≤ y.length ∧ b.replay e = { b with buf := y, cursor := cursor } := by
  unfold Entry.Leads at h
  unfold LineBuffer.replay
  cases ht : e.type with
  | insert =>
    simp only [ht] at h ⊢
    obtain ⟨l, r, hx, rfl, hcur⟩ := h
    have hcursor : e.cursor - e.delta.length = l.length := by omega
    rw [LineBuffer.insertRaw_at (b := { b with cursor := e.cursor - e.delta.length }) hx hcursor hy]
    exact ⟨l.length + e.delta.length, by simp only [List.length_append]; omega, rfl⟩
  | deleteTo =>
    simp only [ht] at h ⊢
    obtain ⟨l, r, hx, rfl, hcur⟩ := h
    by_cases hd : e.delta = []
    · rw [hd, List.append_nil] at hx
      rw [hd, List.length_nil, LineBuffer.deleteToRaw_zero, ← hx]
      exact ⟨e.cursor + 0, by rw [hx, List.length_append]; omega, rfl⟩
    · have hcursor : e.cursor + e.delta.length = l.length + e.delta.length := by rw [hcur]
      rw [LineBuffer.deleteToRaw_at (b := { b with cursor := e.cursor + e.delta.length }) hx hcursor hd]
      exact ⟨l.length, by rw [List.length_append]; omega, rfl⟩
  | deleteFrom =>
    simp only [ht] at h ⊢
    obtain ⟨l, r, hx, rfl, hcur⟩ := h
    by_cases hd : e.delta = []
    · rw [hd, List.append_nil] at hx
      rw [hd, List.length_nil, LineBuffer.deleteFromRaw_zero, ← hx]
      exact ⟨e.cursor, by rw [hx, List.length_append]; omega, rfl⟩
    · rw [LineBuffer.deleteFromRaw_at (b := { b with cursor := e.cursor }) hx hcur hd]
      exact ⟨e.cursor, by rw [List.length_append]; omega, rfl⟩

theorem LineBuffer.foldl_revert_leads (h : LeadsAll b.bufSize es x b.buf)
    (hcursor : b.cursor ≤ b.buf.length) :
    ∃ cursor, cursor ≤ x.length ∧
      es.foldl LineBuffer.revert b = { b with buf := x, cursor := cursor } := by
  induction es generalizing b with
  | nil =>
    cases (h : x = b.buf)
    exact ⟨b.cursor, hcursor, rfl⟩
  | cons e es ih =>
    obtain ⟨z, hz, he, hes⟩ := h
    obtain ⟨cursor, hle, hrevert⟩ := LineBuffer.revert_leads he hz
    obtain ⟨cursor', hle', hfold⟩ := @ih { b with buf := z, cursor := cursor } hes hle
    exact ⟨cursor', hle', by rw [List.foldl_cons, hrevert, hfold]⟩

theorem LineBuffer.foldl_replay_leads (h : LeadsAll b.bufSize es b.buf y)
    (hcursor : b.cursor ≤ b.buf.length) (hy : y.length ≤ b.bufSize) :
    ∃ cursor, cursor ≤ y.length ∧
      es.reverse.foldl LineBuffer.replay b = { b with buf := y, cursor := cursor } := by
  induction es generalizing y with
  | nil =>
    cases (h : b.buf = y)
    exact ⟨b.cursor, hcursor, rfl⟩
  | cons e es ih =>
    obtain ⟨z, hz, he, hes⟩ := h
    obtain ⟨cursor, hle, hfold⟩ := ih hes hz
    have hstep := @LineBuffer.replay_leads { b with buf := z, cursor := cursor } e y he hy
    obtain ⟨cursor', hle', hreplay⟩ := hstep
    refine ⟨cursor', hle', ?_⟩
    rw [List.reverse_cons, List.foldl_append, hfold, List.foldl_cons, List.foldl_nil, hreplay]

/-! ## The invariant -/

/-- What holds of the buffer between edits, undo and redo. -/
structure LineBuffer.Ok (b : LineBuffer) : Prop where
  cursor : b.cursor ≤ b.buf.length
  fits : b.buf.length ≤ b.bufSize
  atomicEdit : b.atomicEdit = false
  changeIndex : b.changeIndex ≤ b.changes.length
  capacity : b.changes.length ≤ changesCapacity
  past : ∃ x, LeadsAll b.bufSize (trails (b.changes.take b.changeIndex)) x b.buf
  future : ∃ y, y.length ≤ b.bufSize ∧
    LeadsAll b.bufSize (trails (b.changes.drop b.changeIndex)) b.buf y

theorem LineBuffer.Ok.new (bufSize : Nat) : (LineBuffer.new bufSize).Ok where
  cursor := Nat.le_refl _
  fits := Nat.zero_le _
  atomicEdit := rfl
  changeIndex := Nat.le_refl _
  capacity := Nat.zero_le _
  past := ⟨[], rfl⟩
  future := ⟨[], Nat.zero_le _, rfl⟩

theorem pushBack_length (h : cs.length ≤ changesCapacity) :
    (pushBack cs c).length ≤ changesCapacity := by
  unfold pushBack
  have hlen : (cs ++ [c]).length = cs.length + 1 := by simp
  simp only [hlen]
  split
  · rw [List.length_tail, hlen]
    omega
  · omega

/-- Forgetting the oldest change cuts the way off at its beginning. -/
theorem trails_pushBack (h : ∃ x, LeadsAll n (trails (cs ++ [c])) x y) (hy : y.length ≤ n) :
    ∃ x, LeadsAll n (trails (pushBack cs c)) x y := by
  unfold pushBack
  simp only
  split
  · obtain ⟨x, hx⟩ := h
    cases hcs : cs ++ [c] with
    | nil => exact ⟨y, rfl⟩
    | cons c' cs' =>
      rw [hcs, trails_cons] at hx
      obtain ⟨z, -, hz, -⟩ := leadsAll_append hx hy
      exact ⟨z, hz⟩
  · exact h

/-- Changes that differ in what is open for merging record the same way. -/
theorem trails_modify (cs : List Change) (i : Nat) (merge : Bool) :
    (cs.modify i (·.setMerge merge)).map Change.trail = cs.map Change.trail := by
  induction cs generalizing i with
  | nil => rw [List.modify_nil]
  | cons c cs ih =>
    cases i with
    | zero => rfl
    | succ i => rw [List.modify_succ_cons, List.map_cons, List.map_cons, ih]

theorem trails_setMerge (front : List Change) (c : Change) (merge : Bool) :
    trails (front ++ [c.setMerge merge]) = trails (front ++ [c]) := by
  rw [trails_concat, trails_concat, Change.trail_setMerge]

/-- A tracked change, outside an atomic edit. -/
theorem LineBuffer.Ok.trackChange {op : ChangeOp} (h : b.Ok) (hmove : Moves op delta b b')
    (merge : Bool) : (b'.trackChange op delta merge).Ok := by
  obtain ⟨x, hx⟩ := h.past
  have hatomic := h.atomicEdit
  have hcursor := hmove.cursor
  have hfits := hmove.fits
  have hleads := hmove.leads merge
  have hfits₀ := h.fits
  rw [hmove.eq]
  generalize b'.buf = buf at *
  generalize b'.cursor = cursor at *
  have hlen : (b.changes.take b.changeIndex).length = b.changeIndex := by
    rw [List.length_take, Nat.min_eq_left h.changeIndex]
  have hcap : b.changeIndex ≤ changesCapacity := Nat.le_trans h.changeIndex h.capacity
  -- whatever is pushed on top of changes that record the old way
  have hpush : ∀ cs : List Change, cs.length ≤ changesCapacity →
      LeadsAll b.bufSize (trails cs) x b.buf →
      ∀ cs', cs' = pushBack cs ⟨⟨op, merge, cursor, delta⟩, []⟩ →
      LineBuffer.Ok { b with
        buf := buf, cursor := cursor, changes := cs', changeIndex := cs'.length } := by
    rintro cs hcs hway cs' rfl
    refine ⟨hcursor, hfits, hatomic, Nat.le_refl _, pushBack_length hcs, ?_, buf, hfits, ?_⟩
    · simp only [List.take_length]
      refine trails_pushBack ⟨x, ?_⟩ hfits
      rw [trails_concat]
      exact LeadsAll.append ⟨b.buf, hfits₀, hleads, rfl⟩ hway
    · simp only [List.drop_length]
      rfl
  unfold LineBuffer.trackChange
  simp only
  generalize b.changes.take b.changeIndex = cs at *
  rcases List.eq_nil_or_concat cs with rfl | ⟨front, back, rfl⟩
  · simp only [List.getLast?_nil]
    exact hpush [] (Nat.zero_le _) hx _ rfl
  · rw [List.concat_eq_append] at hx hlen ⊢
    simp only [List.getLast?_concat, List.dropLast_concat, hatomic, Bool.false_eq_true, if_false]
    split
    · next back' hmerge =>
      rw [trails_concat] at hx
      obtain ⟨z, -, ⟨m, hm, he, hes⟩, hway⟩ := leadsAll_append hx hfits₀
      obtain ⟨hprev, hlead⟩ := Change.tryMerge_leads hmerge he hleads
      have hlen' : (front ++ [back'.setMerge true]).length = b.changeIndex := by
        rw [← hlen, List.length_append, List.length_append]
        rfl
      refine ⟨hcursor, hfits, rfl, Nat.le_of_eq hlen'.symm, Nat.le_trans (Nat.le_of_eq hlen') hcap,
        ⟨x, ?_⟩, buf, hfits, ?_⟩
      · simp only [← hlen', List.take_length]
        rw [trails_setMerge, trails_concat]
        refine LeadsAll.append ⟨m, hm, hlead, ?_⟩ hway
        rw [hprev]
        exact hes
      · simp only [← hlen', List.drop_length]
        rfl
    · have hlen' : (front ++ [back.setMerge false]).length ≤ changesCapacity := by
        rw [List.length_append] at hlen ⊢
        exact Nat.le_trans (Nat.le_of_eq hlen) hcap
      have hok := hpush _ hlen' (by rw [trails_setMerge]; exact hx) _ rfl
      rw [hatomic] at hok
      exact hok

theorem LineBuffer.Ok.insertToCursor (h : b.Ok) (ref : List Nat) (merge : Bool) :
    (b.insertToCursor ref merge).2.Ok := by
  unfold LineBuffer.insertToCursor
  split
  · next b' hins => exact h.trackChange (LineBuffer.insertRaw_moves hins h.cursor) merge
  · exact h

theorem LineBuffer.Ok.deleteToCursor (h : b.Ok) (size : Nat) (merge : Bool) :
    (b.deleteToCursor size merge).2.Ok := by
  unfold LineBuffer.deleteToCursor
  split
  · next b' hdel => exact h.trackChange (LineBuffer.deleteToRaw_moves hdel h.cursor h.fits) merge
  · exact h

theorem LineBuffer.Ok.deleteFromCursor (h : b.Ok) (size : Nat) (merge : Bool) :
    (b.deleteFromCursor size merge).2.Ok := by
  unfold LineBuffer.deleteFromCursor
  split
  · next b' hdel => exact h.trackChange (LineBuffer.deleteFromRaw_moves hdel h.cursor h.fits) merge
  · exact h

/-- The way depends on the changes without their openness for merging. -/
theorem LineBuffer.Ok.of_trail (h : b.Ok) (hmap : cs.map Change.trail = b.changes.map Change.trail) :
    LineBuffer.Ok { b with changes := cs } := by
  have hlen : cs.length = b.changes.length := by
    rw [← List.length_map Change.trail, hmap, List.length_map]
  refine { h with changeIndex := ?_, capacity := ?_, past := ?_, future := ?_ }
  · exact hlen ▸ h.changeIndex
  · exact hlen ▸ h.capacity
  · show ∃ x, LeadsAll b.bufSize (trails (cs.take b.changeIndex)) x b.buf
    unfold trails
    rw [List.map_take, hmap, ← List.map_take]
    exact h.past
  · show ∃ y, y.length ≤ b.bufSize ∧ LeadsAll b.bufSize (trails (cs.drop b.changeIndex)) b.buf y
    unfold trails
    rw [List.map_drop, hmap, ← List.map_drop]
    exact h.future

theorem LineBuffer.Ok.commitLastChange (h : b.Ok) : b.commitLastChange.Ok := by
  unfold LineBuffer.commitLastChange
  split
  · exact h.of_trail (trails_modify _ _ _)
  · exact h

theorem LineBuffer.Ok.run (h : b.Ok) (edit : Edit) : (edit.run b).Ok := by
  cases edit with
  | insertToCursor ref merge => exact h.insertToCursor ref merge
  | deleteToCursor size merge => exact h.deleteToCursor size merge
  | deleteFromCursor size merge => exact h.deleteFromCursor size merge
  | setCursor v => exact { h with cursor := Nat.min_le_right _ _ }
  | commitLastChange => exact h.commitLastChange

theorem set_trail {i : Nat} (h : cs[i]? = some c) (merge : Bool) :
    (cs.set i (c.setMerge merge)).map Change.trail = cs.map Change.trail := by
  obtain ⟨hi, hc⟩ := List.getElem?_eq_some_iff.1 h
  rw [List.map_set, Change.trail_setMerge, ← hc, ← List.map_set, List.set_getElem_self]

/-- One change back on the way. -/
theorem LineBuffer.Ok.back (h : b.Ok) {i : Nat} (hi : b.changeIndex = i + 1)
    (hc : b.changes[i]? = some c) :
    ∃ z, LeadsAll b.bufSize c.trail z b.buf ∧ ∀ cursor ≤ z.length,
      LineBuffer.Ok { b with buf := z, cursor := cursor, changeIndex := i } := by
  obtain ⟨hlt, hget⟩ := List.getElem?_eq_some_iff.1 hc
  obtain ⟨x, hx⟩ := h.past
  obtain ⟨y, hy, hway⟩ := h.future
  rw [hi, List.take_succ_eq_append_getElem hlt, hget, trails_concat] at hx
  obtain ⟨z, hz, hlead, hrest⟩ := leadsAll_append hx h.fits
  refine ⟨z, hlead, fun cursor hcursor => ?_⟩
  refine ⟨hcursor, hz, h.atomicEdit, Nat.le_of_lt hlt, h.capacity, ⟨x, hrest⟩, y, hy, ?_⟩
  show LeadsAll b.bufSize (trails (b.changes.drop i)) z y
  rw [List.drop_eq_getElem_cons hlt, hget, trails_cons, ← hi]
  exact hway.append hlead

/-- One change further on the way. -/
theorem LineBuffer.Ok.forth (h : b.Ok) (hc : b.changes[b.changeIndex]? = some c) :
    ∃ z, z.length ≤ b.bufSize ∧ LeadsAll b.bufSize c.trail b.buf z ∧ ∀ cursor ≤ z.length,
      LineBuffer.Ok { b with buf := z, cursor := cursor, changeIndex := b.changeIndex + 1 } := by
  obtain ⟨hlt, hget⟩ := List.getElem?_eq_some_iff.1 hc
  obtain ⟨x, hx⟩ := h.past
  obtain ⟨y, hy, hway⟩ := h.future
  rw [List.drop_eq_getElem_cons hlt, hget, trails_cons] at hway
  obtain ⟨z, hz, hrest, hlead⟩ := leadsAll_append hway hy
  refine ⟨z, hz, hlead, fun cursor hcursor => ?_⟩
  refine ⟨hcursor, hz, h.atomicEdit, hlt, h.capacity, ⟨x, ?_⟩, y, hy, hrest⟩
  show LeadsAll b.bufSize (trails (b.changes.take (b.changeIndex + 1))) x z
  rw [List.take_succ_eq_append_getElem hlt, hget, trails_concat]
  exact hlead.append hx

theorem LineBuffer.Ok.undo (h : b.Ok) : b.undo.2.Ok := by
  unfold LineBuffer.undo
  split
  · exact h
  · next hindex =>
    split
    · exact h
    · next c hc =>
      obtain ⟨i, hi⟩ : ∃ i, b.changeIndex = i + 1 := ⟨b.changeIndex - 1, by omega⟩
      simp only [hi, Nat.add_sub_cancel] at hc ⊢
      have hlt := (List.getElem?_eq_some_iff.1 hc).1
      have hok := h.of_trail (set_trail hc false)
      obtain ⟨z, hlead, hback⟩ := hok.back hi (List.getElem?_set_self hlt)
      obtain ⟨cursor, hle, hfold⟩ := LineBuffer.foldl_revert_leads (b := { b with
        changeIndex := i, changes := b.changes.set i (c.setMerge false) }) hlead h.cursor
      have heq : (c.entry :: c.prev).foldl LineBuffer.revert { b with
          changeIndex := i, changes := b.changes.set i (c.setMerge false) } = _ := hfold
      rw [heq]
      exact hback cursor hle

theorem LineBuffer.Ok.redo (h : b.Ok) : b.redo.2.Ok := by
  unfold LineBuffer.redo
  split
  · exact h
  · next c hc =>
    have hlt := (List.getElem?_eq_some_iff.1 hc).1
    have hok := h.of_trail (set_trail hc false)
    obtain ⟨z, hz, hlead, hforth⟩ := hok.forth (List.getElem?_set_self hlt)
    obtain ⟨cursor, hle, hfold⟩ := LineBuffer.foldl_replay_leads (b := { b with
      changeIndex := b.changeIndex + 1
      changes := b.changes.set b.changeIndex (c.setMerge false) }) hlead h.cursor hz
    have hrev : ((c.setMerge false).trail).reverse.foldl LineBuffer.replay { b with
        changeIndex := b.changeIndex + 1
        changes := b.changes.set b.changeIndex (c.setMerge false) } =
        (c.entry :: c.prev).reverse.foldl LineBuffer.replay { b with
          changeIndex := b.changeIndex + 1
          changes := b.changes.set b.changeIndex (c.setMerge false) } := by
      simp only [Change.trail, Change.setMerge, List.reverse_cons, List.foldl_append,
        List.foldl_cons, List.foldl_nil]
      rfl
    rw [hrev] at hfold
    simp only
    rw [hfold]
    exact hforth cursor hle

end

end Arsh.Line
