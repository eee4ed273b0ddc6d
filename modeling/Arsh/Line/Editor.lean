import Arsh.Lib.Undo
import Arsh.Line.AtomicEdit

/-!
# The line buffer as an editor with a history

What the history of the line buffer is for: `Undo.History` of contents. A change of the ring buffer
stands for the step from one content to the next, a merged change for a content put in the place of
the present one, and a full ring for a past that is cut off. Every run of the line buffer is a run
of such an editor with the same answers and the same contents (`run_simulates`). So undo leads to
contents that the buffer had, and as many redos lead back (`undo_redo_run`).
-/

namespace Arsh.Line

open Undo

/-! ## The contents along the changes -/

/-- The changes, the newest first, lead from each content of the past to the one after it. -/
def Back (n : Nat) : List Change → List (List Nat) → List Nat → Prop
  | [], [], _ => True
  | c :: cs, z :: zs, y => z.length ≤ n ∧ LeadsAll n c.trail z y ∧ Back n cs zs z
  | _, _, _ => False

/-- The changes, the oldest first, lead on to the contents of the future. -/
def Forth (n : Nat) : List Change → List (List Nat) → List Nat → Prop
  | [], [], _ => True
  | c :: cs, z :: zs, x => z.length ≤ n ∧ LeadsAll n c.trail x z ∧ Forth n cs zs z
  | _, _, _ => False

/-- The buffer shows the present content of the history, and its changes lead to the others. -/
structure Presents (n : Nat) (b : LineBuffer) (h : History (List Nat)) : Prop where
  cursor : b.cursor ≤ b.buf.length
  fits : b.buf.length ≤ b.bufSize
  atomicEdit : b.atomicEdit = false
  changeIndex : b.changeIndex ≤ b.changes.length
  capacity : b.changes.length ≤ changesCapacity
  now : h.now = b.buf
  past : Back b.bufSize (b.changes.take b.changeIndex).reverse h.past b.buf
  future : Forth b.bufSize (b.changes.drop b.changeIndex) h.future b.buf
  bufSize : b.bufSize = n

/-! ## Calls -/

/-- What an edit answers; moving the cursor and committing answer nothing. -/
def Edit.answer (b : LineBuffer) : Edit → Bool
  | .insertToCursor ref merge => (b.insertToCursor ref merge).1
  | .deleteToCursor size merge => (b.deleteToCursor size merge).1
  | .deleteFromCursor size merge => (b.deleteFromCursor size merge).1
  | .setCursor _ | .commitLastChange => true

inductive Call where
  | edit (edit : Edit)
  | undo
  | redo
  | intoAtomicEdit (func : LineBuffer → Bool × LineBuffer) (h : EditFunction func)

def Call.run (b : LineBuffer) : Call → Bool × LineBuffer
  | .edit e => (e.answer b, e.run b)
  | .undo => b.undo
  | .redo => b.redo
  | .intoAtomicEdit func _ => b.intoAtomicEdit func

/-- The answer and the content after each call, and the buffer after all of them. -/
def observe (b : LineBuffer) : List Call → List (Bool × List Nat) × LineBuffer
  | [] => ([], b)
  | call :: calls =>
    let (r, b) := call.run b
    let (seen, b') := observe b calls
    ((r, b.buf) :: seen, b')

/-- A tracked edit: a step of the history, or merged into the last one, if that is asked for. -/
def Tracked (merge : Bool) (h : History (List Nat)) (y : List Nat) (h' : History (List Nat)) :
    Prop :=
  h' = h.edit changesCapacity y ∨ merge = true ∧ h.past ≠ [] ∧ h' = h.amend y

/-- What a call does to the contents of a buffer of `n` bytes, and what it answers. -/
inductive Does (n : Nat) : Call → History (List Nat) → Bool → History (List Nat) → Prop
  | inserted {h h' : History (List Nat)} {ref l r : List Nat} {merge : Bool} (hnow : h.now = l ++ r)
    (hsize : (l ++ ref ++ r).length ≤ n) (ht : Tracked merge h (l ++ ref ++ r) h') :
    Does n (.edit (.insertToCursor ref merge)) h true h'
  | full {h : History (List Nat)} {ref : List Nat} {merge : Bool}
    (hsize : n < h.now.length + ref.length) :
    Does n (.edit (.insertToCursor ref merge)) h false h
  | deletedTo {h h' : History (List Nat)} {l d r : List Nat} {merge : Bool}
    (hnow : h.now = l ++ d ++ r) (hd : d ≠ []) (ht : Tracked merge h (l ++ r) h') :
    Does n (.edit (.deleteToCursor d.length merge)) h true h'
  | deletedFrom {h h' : History (List Nat)} {l d r : List Nat} {merge : Bool}
    (hnow : h.now = l ++ d ++ r) (hd : d ≠ []) (ht : Tracked merge h (l ++ r) h') :
    Does n (.edit (.deleteFromCursor d.length merge)) h true h'
  | notDeletedTo {h : History (List Nat)} {size : Nat} {merge : Bool} :
    Does n (.edit (.deleteToCursor size merge)) h false h
  | notDeletedFrom {h : History (List Nat)} {size : Nat} {merge : Bool} :
    Does n (.edit (.deleteFromCursor size merge)) h false h
  | setCursor {h : History (List Nat)} {v : Nat} : Does n (.edit (.setCursor v)) h true h
  | commitLastChange {h : History (List Nat)} : Does n (.edit .commitLastChange) h true h
  | undo {h : History (List Nat)} : Does n .undo h (!h.past.isEmpty) h.undo
  | redo {h : History (List Nat)} : Does n .redo h (!h.future.isEmpty) h.redo
  | done {h : History (List Nat)} {func : LineBuffer → Bool × LineBuffer} {hf : EditFunction func}
    {y : List Nat} (hsize : y.length ≤ n) :
    Does n (.intoAtomicEdit func hf) h true (h.edit changesCapacity y)
  | failed {h : History (List Nat)} {func : LineBuffer → Bool × LineBuffer}
    {hf : EditFunction func} :
    Does n (.intoAtomicEdit func hf) h false (h.forget (changesCapacity - 1))

/-- A run of the editor with its answers and contents. -/
inductive Runs (n : Nat) :
    History (List Nat) → List Call → List (Bool × List Nat) → History (List Nat) → Prop
  | nil {h : History (List Nat)} : Runs n h [] [] h
  | cons {h h' h'' : History (List Nat)} {call : Call} {calls : List Call} {r : Bool}
    {seen : List (Bool × List Nat)} (hdoes : Does n call h r h')
    (hruns : Runs n h' calls seen h'') :
    Runs n h (call :: calls) ((r, h'.now) :: seen) h''

/-- The buffer after `k` undos. -/
def LineBuffer.undos (b : LineBuffer) (k : Nat) : LineBuffer := (fun b => b.undo.2)^[k] b

def LineBuffer.redos (b : LineBuffer) (k : Nat) : LineBuffer := (fun b => b.redo.2)^[k] b

section
variable {b b' : LineBuffer} {h : History (List Nat)} {n k : Nat} {cs cs' : List Change}
  {zs : List (List Nat)} {x y : List Nat} {c : Change}

theorem Back.length_eq (h : Back n cs zs y) : cs.length = zs.length := by
  induction cs generalizing zs y with
  | nil => cases zs with
    | nil => rfl
    | cons z zs => exact h.elim
  | cons c cs ih => cases zs with
    | nil => exact h.elim
    | cons z zs => exact congrArg (· + 1) (ih h.2.2)

theorem Back.take (h : Back n cs zs y) (k : Nat) : Back n (cs.take k) (zs.take k) y := by
  induction k generalizing cs zs y with
  | zero =>
    rw [List.take_zero, List.take_zero]
    trivial
  | succ k ih =>
    cases cs with
    | nil => cases zs with
      | nil => trivial
      | cons z zs => exact h.elim
    | cons c cs => cases zs with
      | nil => exact h.elim
      | cons z zs => exact ⟨h.1, h.2.1, ih h.2.2⟩

/-- Whether a change is open for merging does not matter. -/
theorem Back.of_map (h : Back n cs zs y) (hmap : cs'.map Change.trail = cs.map Change.trail) :
    Back n cs' zs y := by
  induction cs generalizing cs' zs y with
  | nil => rwa [List.map_eq_nil_iff.1 hmap]
  | cons c cs ih =>
    cases cs' with
    | nil => cases hmap
    | cons c' cs' =>
      rw [List.map_cons, List.map_cons, List.cons.injEq] at hmap
      cases zs with
      | nil => exact h.elim
      | cons z zs => exact ⟨h.1, hmap.1 ▸ h.2.1, ih h.2.2 hmap.2⟩

theorem Forth.length_eq (h : Forth n cs zs x) : cs.length = zs.length := by
  induction cs generalizing zs x with
  | nil => cases zs with
    | nil => rfl
    | cons z zs => exact h.elim
  | cons c cs ih => cases zs with
    | nil => exact h.elim
    | cons z zs => exact congrArg (· + 1) (ih h.2.2)

theorem Forth.of_map (h : Forth n cs zs x) (hmap : cs'.map Change.trail = cs.map Change.trail) :
    Forth n cs' zs x := by
  induction cs generalizing cs' zs x with
  | nil => rwa [List.map_eq_nil_iff.1 hmap]
  | cons c cs ih =>
    cases cs' with
    | nil => cases hmap
    | cons c' cs' =>
      rw [List.map_cons, List.map_cons, List.cons.injEq] at hmap
      cases zs with
      | nil => exact h.elim
      | cons z zs => exact ⟨h.1, hmap.1 ▸ h.2.1, ih h.2.2 hmap.2⟩

/-- The ring keeps the newest changes. -/
theorem reverse_pushBack (h : cs.length ≤ changesCapacity) (c : Change) :
    (pushBack cs c).reverse = (c :: cs.reverse).take changesCapacity := by
  rw [pushBack_eq, List.reverse_append, List.reverse_singleton, List.singleton_append]
  split
  · next hlen =>
    cases cs with
    | nil => cases hlen
    | cons c' cs =>
      rw [List.tail_cons, List.reverse_cons, ← List.cons_append]
      have : (c :: cs.reverse).length = changesCapacity := by
        rw [List.length_cons, List.length_reverse]
        exact hlen
      rw [List.take_append_of_le_length (Nat.le_of_eq this.symm), ← this, List.take_length]
  · next hlen =>
    rw [List.take_of_length_le]
    rw [List.length_cons, List.length_reverse]
    omega

theorem Presents.of_trail (hr : Presents n b h)
    (hmap : cs.map Change.trail = b.changes.map Change.trail) :
    Presents n { b with changes := cs } h := by
  have hlen : cs.length = b.changes.length := by
    rw [← List.length_map Change.trail, hmap, List.length_map]
  refine { hr with changeIndex := ?_, capacity := ?_, past := ?_, future := ?_ }
  · exact hlen ▸ hr.changeIndex
  · exact hlen ▸ hr.capacity
  · apply hr.past.of_map
    rw [List.map_reverse, List.map_reverse, List.map_take, List.map_take, hmap]
  · apply hr.future.of_map
    rw [List.map_drop, List.map_drop, hmap]

theorem Presents.new (bufSize : Nat) :
    Presents (bufSize - 1) (LineBuffer.new bufSize) ⟨[], [], []⟩ where
  cursor := Nat.le_refl _
  fits := Nat.zero_le _
  atomicEdit := rfl
  changeIndex := Nat.le_refl _
  capacity := Nat.zero_le _
  now := rfl
  past := trivial
  future := trivial
  bufSize := rfl

/-! ## Undo and redo -/

theorem take_succ_reverse {i : Nat} (hc : cs[i]? = some c) :
    (cs.take (i + 1)).reverse = c :: (cs.take i).reverse := by
  rw [List.take_add_one, hc, List.reverse_append]
  rfl

theorem drop_eq_cons {i : Nat} (hc : cs[i]? = some c) : cs.drop i = c :: cs.drop (i + 1) := by
  rw [List.drop_eq_getElem?_toList_append, hc]
  rfl

theorem Presents.undo (hr : Presents n b h) :
    Presents n b.undo.2 h.undo ∧ b.undo.1 = !h.past.isEmpty ∧
      b.undo.2.changes.map Change.trail = b.changes.map Change.trail := by
  obtain ⟨past, now, future⟩ := h
  obtain rfl : now = b.buf := hr.now
  have hlen := hr.past.length_eq
  rw [List.length_reverse, List.length_take, Nat.min_eq_left hr.changeIndex] at hlen
  cases past with
  | nil =>
    have hzero : b.changeIndex = 0 := hlen
    unfold LineBuffer.undo
    rw [if_pos hzero]
    exact ⟨hr, rfl, rfl⟩
  | cons z past =>
    have hi : b.changeIndex = past.length + 1 := hlen
    have hlt : past.length < b.changes.length := by
      have := hr.changeIndex
      omega
    obtain ⟨c, hc⟩ : ∃ c, b.changes[past.length]? = some c :=
      ⟨_, List.getElem?_eq_getElem hlt⟩
    have htrail := set_trail hc false
    have hr' := hr.of_trail htrail
    have hc' := List.getElem?_set_self (a := c.setMerge false) hlt
    generalize hcs : b.changes.set past.length (c.setMerge false) = cs at htrail hr' hc'
    obtain ⟨hz, hlead, hrest⟩ : z.length ≤ b.bufSize ∧ LeadsAll b.bufSize c.trail z b.buf ∧
        Back b.bufSize (cs.take past.length).reverse past z := by
      have := hr'.past
      dsimp only at this
      rwa [hi, take_succ_reverse hc'] at this
    obtain ⟨cursor, hle, hfold⟩ := LineBuffer.foldl_revert_leads (b := { b with
      changeIndex := past.length, changes := cs }) hlead hr.cursor
    have hundo : b.undo = (true, { b with
        changeIndex := past.length, changes := cs, buf := z, cursor := cursor }) := by
      unfold LineBuffer.undo
      rw [if_neg (by omega), hi, Nat.add_sub_cancel, hc]
      dsimp only
      rw [hcs]
      exact congrArg _ hfold
    rw [hundo]
    refine ⟨⟨hle, hz, hr.atomicEdit, ?_, hr'.capacity, rfl, hrest, ?_, hr.bufSize⟩, rfl, htrail⟩
    · exact Nat.le_of_lt (by rw [← hcs, List.length_set]; exact hlt)
    · show Forth b.bufSize (cs.drop past.length) (b.buf :: future) z
      rw [drop_eq_cons hc', ← hi]
      exact ⟨hr.fits, hlead, hr'.future⟩

theorem Presents.redo (hr : Presents n b h) :
    Presents n b.redo.2 h.redo ∧ b.redo.1 = !h.future.isEmpty ∧
      b.redo.2.changes.map Change.trail = b.changes.map Change.trail := by
  obtain ⟨past, now, future⟩ := h
  obtain rfl : now = b.buf := hr.now
  have hlen := hr.future.length_eq
  rw [List.length_drop] at hlen
  cases future with
  | nil =>
    have hnone : b.changes[b.changeIndex]? = none := by
      rw [List.getElem?_eq_none_iff]
      have : b.changes.length - b.changeIndex = 0 := hlen
      omega
    unfold LineBuffer.redo
    rw [hnone]
    exact ⟨hr, rfl, rfl⟩
  | cons z future =>
    have hlt : b.changeIndex < b.changes.length := by
      have : b.changes.length - b.changeIndex = future.length + 1 := hlen
      omega
    obtain ⟨c, hc⟩ : ∃ c, b.changes[b.changeIndex]? = some c :=
      ⟨_, List.getElem?_eq_getElem hlt⟩
    have htrail := set_trail hc false
    have hr' := hr.of_trail htrail
    have hc' := List.getElem?_set_self (a := c.setMerge false) hlt
    generalize hcs : b.changes.set b.changeIndex (c.setMerge false) = cs at htrail hr' hc'
    obtain ⟨hz, hlead, hrest⟩ : z.length ≤ b.bufSize ∧ LeadsAll b.bufSize c.trail b.buf z ∧
        Forth b.bufSize (cs.drop (b.changeIndex + 1)) future z := by
      have := hr'.future
      dsimp only at this
      rwa [drop_eq_cons hc'] at this
    obtain ⟨cursor, hle, hfold⟩ := LineBuffer.foldl_replay_leads (b := { b with
      changeIndex := b.changeIndex + 1, changes := cs }) hlead hr.cursor hz
    have hredo : b.redo = (true, { b with
        changeIndex := b.changeIndex + 1, changes := cs, buf := z, cursor := cursor }) := by
      unfold LineBuffer.redo
      rw [hc]
      dsimp only
      rw [hcs]
      simp only [Change.trail, List.reverse_cons, List.foldl_append, List.foldl_cons,
        List.foldl_nil] at hfold ⊢
      exact congrArg _ hfold
    rw [hredo]
    refine ⟨⟨hle, hz, hr.atomicEdit, ?_, hr'.capacity, rfl, ?_, hrest, hr.bufSize⟩, rfl, htrail⟩
    · exact Nat.succ_le_of_lt (by rw [← hcs, List.length_set]; exact hlt)
    · show Back b.bufSize (cs.take (b.changeIndex + 1)).reverse (b.buf :: past) z
      rw [take_succ_reverse hc']
      exact ⟨hr.fits, hlead, hr'.past⟩

/-! ## Edits -/

/-- Merging is something both changes have to be open for. -/
theorem Change.merge_of_tryMerge {o c' : Change} (h : c.tryMerge o = some c') :
    o.entry.merge = true := by
  unfold Change.tryMerge at h
  split at h
  · cases h
  · next hcond =>
    simp only [Bool.or_eq_true, Bool.not_eq_true', not_or, Bool.not_eq_false] at hcond
    exact hcond.1.2

/-- A tracked change is a step of the history, or merged into its last step. -/
theorem Presents.trackChange {op : ChangeOp} {delta : List Nat} (hr : Presents n b h)
    (hmove : Moves op delta b b') (merge : Bool) :
    ∃ h', Tracked merge h b'.buf h' ∧ Presents n (b'.trackChange op delta merge) h' := by
  obtain ⟨past, now, future⟩ := h
  obtain rfl : now = b.buf := hr.now
  have hpast := hr.past
  have hfits₀ := hr.fits
  have hcursor := hmove.cursor
  have hfits := hmove.fits
  have hleads := hmove.leads
  have hatomic := hr.atomicEdit
  have hlen : (b.changes.take b.changeIndex).length = b.changeIndex := by
    rw [List.length_take, Nat.min_eq_left hr.changeIndex]
  have hcap : b.changeIndex ≤ changesCapacity := Nat.le_trans hr.changeIndex hr.capacity
  rw [hmove.eq]
  generalize b'.buf = buf at *
  generalize b'.cursor = cursor at *
  -- pushing on top of changes that lead along the same contents
  have hpush : ∀ cs : List Change, cs.length ≤ changesCapacity →
      Back b.bufSize cs.reverse past b.buf →
      ∀ cs', cs' = pushBack cs ⟨⟨op, merge, cursor, delta⟩, []⟩ →
      Presents n { b with
        buf := buf, cursor := cursor, changes := cs', changeIndex := cs'.length }
        (History.edit ⟨past, b.buf, future⟩ changesCapacity buf) := by
    rintro cs hcs hback cs' rfl
    refine ⟨hcursor, hfits, hatomic, Nat.le_refl _, pushBack_length hcs, rfl, ?_, ?_, hr.bufSize⟩
    · dsimp only
      rw [List.take_length, reverse_pushBack hcs]
      have hall : Back b.bufSize (⟨⟨op, merge, cursor, delta⟩, []⟩ :: cs.reverse) (b.buf :: past)
          buf :=
        ⟨hfits₀, ⟨b.buf, hfits₀, hleads merge, rfl⟩, hback⟩
      exact hall.take _
    · dsimp only
      rw [List.drop_length]
      trivial
  unfold LineBuffer.trackChange
  dsimp only at hpast ⊢
  generalize b.changes.take b.changeIndex = cs at *
  rcases List.eq_nil_or_concat cs with rfl | ⟨front, back, rfl⟩
  · exact ⟨_, .inl rfl, hpush [] (Nat.zero_le _) hpast _ rfl⟩
  · rw [List.concat_eq_append] at hpast hlen ⊢
    simp only [List.getLast?_concat, List.dropLast_concat, hatomic, Bool.false_eq_true, if_false]
    cases hmerge : back.tryMerge ⟨⟨op, merge, cursor, delta⟩, []⟩ with
    | some back' =>
      rw [List.reverse_append, List.reverse_singleton, List.singleton_append] at hpast
      cases past with
      | nil => exact hpast.elim
      | cons z past =>
        obtain ⟨hz, ⟨m, hm, he, hes⟩, hrest⟩ := hpast
        obtain ⟨hprev, hlead⟩ := Change.tryMerge_leads hmerge he (hleads merge)
        have hlen' : (front ++ [back'.setMerge true]).length = b.changeIndex := by
          rw [← hlen, List.length_append, List.length_append]
          rfl
        refine ⟨_, .inr ⟨Change.merge_of_tryMerge hmerge, List.cons_ne_nil _ _, rfl⟩, hcursor,
          hfits, rfl, Nat.le_of_eq hlen'.symm, Nat.le_trans (Nat.le_of_eq hlen') hcap, rfl, ?_, ?_,
          hr.bufSize⟩
        · dsimp only
          rw [← hlen', List.take_length, List.reverse_append, List.reverse_singleton,
            List.singleton_append]
          refine ⟨hz, ⟨m, hm, hlead, ?_⟩, hrest⟩
          rw [Change.setMerge, hprev]
          exact hes
        · dsimp only
          rw [← hlen', List.drop_length]
          trivial
    | none =>
      have hlen' : (front ++ [back.setMerge false]).length ≤ changesCapacity := by
        rw [List.length_append] at hlen ⊢
        exact Nat.le_trans (Nat.le_of_eq hlen) hcap
      have hback : Back b.bufSize (front ++ [back.setMerge false]).reverse past b.buf := by
        apply hpast.of_map
        rw [List.reverse_append, List.reverse_append]
        rfl
      have hr' := hpush _ hlen' hback _ rfl
      rw [hatomic] at hr'
      exact ⟨_, .inl rfl, hr'⟩

theorem length_deleteToRaw {size : Nat} {delta : List Nat}
    (h : b.deleteToRaw size = some (delta, b')) (hcursor : b.cursor ≤ b.buf.length) :
    delta.length = size ∧ delta ≠ [] := by
  unfold LineBuffer.deleteToRaw at h
  split at h
  · next hcond =>
    cases h
    have hlen : ((b.buf.drop (b.cursor - size)).take size).length = size := by
      rw [List.length_take, List.length_drop]
      omega
    exact ⟨hlen, List.ne_nil_of_length_pos (by rw [hlen]; exact hcond.2.2.1)⟩
  · cases h

theorem length_deleteFromRaw {size : Nat} {delta : List Nat}
    (h : b.deleteFromRaw size = some (delta, b')) : delta.length = size ∧ delta ≠ [] := by
  unfold LineBuffer.deleteFromRaw at h
  split at h
  · next hcond =>
    cases h
    have hlen : ((b.buf.drop b.cursor).take size).length = size := by
      rw [List.length_take, List.length_drop]
      omega
    exact ⟨hlen, List.ne_nil_of_length_pos (by rw [hlen]; exact hcond.2.2.1)⟩
  · cases h

theorem Presents.edit (hr : Presents n b h) (e : Edit) :
    ∃ h', Does n (.edit e) h (e.answer b) h' ∧ Presents n (e.run b) h' := by
  have hnow := hr.now
  have hsize := hr.bufSize
  cases e with
  | insertToCursor ref merge =>
    simp only [Edit.answer, Edit.run, LineBuffer.insertToCursor]
    cases hins : b.insertRaw ref with
    | none =>
      have hroom : n < h.now.length + ref.length := by
        unfold LineBuffer.insertRaw at hins
        split at hins
        · cases hins
        · next hroom =>
          rw [hnow, ← hsize]
          exact Nat.lt_of_not_le hroom
      exact ⟨h, .full hroom, hr⟩
    | some b₁ =>
      have hmove := LineBuffer.insertRaw_moves hins hr.cursor
      obtain ⟨h', ht, hr'⟩ := hr.trackChange hmove merge
      obtain ⟨l, r, hx, hy, -⟩ := hmove.leads merge
      have hfits := hmove.fits
      rw [hy] at ht hfits
      exact ⟨h', .inserted (hnow.trans hx) (hsize ▸ hfits) ht, hr'⟩
  | deleteToCursor size merge =>
    simp only [Edit.answer, Edit.run, LineBuffer.deleteToCursor]
    cases hdel : b.deleteToRaw size with
    | none => exact ⟨h, .notDeletedTo, hr⟩
    | some r =>
      obtain ⟨delta, b₁⟩ := r
      have hmove := LineBuffer.deleteToRaw_moves hdel hr.cursor hr.fits
      obtain ⟨h', ht, hr'⟩ := hr.trackChange hmove merge
      obtain ⟨l, r, hx, hy, -⟩ := hmove.leads merge
      obtain ⟨rfl, hd⟩ := length_deleteToRaw hdel hr.cursor
      rw [hy] at ht
      exact ⟨h', .deletedTo (hnow.trans hx) hd ht, hr'⟩
  | deleteFromCursor size merge =>
    simp only [Edit.answer, Edit.run, LineBuffer.deleteFromCursor]
    cases hdel : b.deleteFromRaw size with
    | none => exact ⟨h, .notDeletedFrom, hr⟩
    | some r =>
      obtain ⟨delta, b₁⟩ := r
      have hmove := LineBuffer.deleteFromRaw_moves hdel hr.cursor hr.fits
      obtain ⟨h', ht, hr'⟩ := hr.trackChange hmove merge
      obtain ⟨l, r, hx, hy, -⟩ := hmove.leads merge
      obtain ⟨rfl, hd⟩ := length_deleteFromRaw hdel
      rw [hy] at ht
      exact ⟨h', .deletedFrom (hnow.trans hx) hd ht, hr'⟩
  | setCursor v => exact ⟨h, .setCursor, { hr with cursor := Nat.min_le_right _ _ }⟩
  | commitLastChange =>
    refine ⟨h, .commitLastChange, ?_⟩
    show Presents n b.commitLastChange h
    unfold LineBuffer.commitLastChange
    split
    · exact hr.of_trail (trails_modify _ _ _)
    · exact hr

/-! ## Atomic edits -/

theorem Back.leadsAll (h : Back n cs zs y) : ∃ x, LeadsAll n (trails cs.reverse) x y := by
  induction cs generalizing zs y with
  | nil => exact ⟨y, rfl⟩
  | cons c cs ih =>
    cases zs with
    | nil => exact h.elim
    | cons z zs =>
      obtain ⟨x, hx⟩ := ih h.2.2
      rw [List.reverse_cons, trails_concat]
      exact ⟨x, h.2.1.append hx⟩

theorem Forth.leadsAll (h : Forth n cs zs x) (hx : x.length ≤ n) :
    ∃ y, y.length ≤ n ∧ LeadsAll n (trails cs) x y := by
  induction cs generalizing zs x with
  | nil => exact ⟨x, hx, rfl⟩
  | cons c cs ih =>
    cases zs with
    | nil => exact h.elim
    | cons z zs =>
      obtain ⟨y, hy, hlead⟩ := ih h.2.2 h.1
      rw [trails_cons]
      exact ⟨y, hy, hlead.append h.2.1⟩

theorem Presents.ok (hr : Presents n b h) : b.Ok where
  cursor := hr.cursor
  fits := hr.fits
  atomicEdit := hr.atomicEdit
  changeIndex := hr.changeIndex
  capacity := hr.capacity
  past := by
    have hpast := hr.past.leadsAll
    rwa [List.reverse_reverse] at hpast
  future := hr.future.leadsAll hr.fits

/-- The marker of an atomic edit leaves room for itself. -/
theorem Presents.remaining (hr : Presents n b h) :
    Back b.bufSize b.remaining.reverse (h.past.take (changesCapacity - 1)) b.buf := by
  have hpast := hr.past
  have hlen : (b.changes.take b.changeIndex).length ≤ changesCapacity := by
    have := hr.capacity
    rw [List.length_take]
    omega
  unfold LineBuffer.remaining
  dsimp only
  generalize b.changes.take b.changeIndex = cs at hpast hlen
  have hpast' : Back b.bufSize (cs.modify (cs.length - 1) (·.setMerge false)).reverse h.past
      b.buf := by
    apply hpast.of_map
    rw [List.map_reverse, List.map_reverse, trails_modify]
  have hlen' := List.length_modify (l := cs) (i := cs.length - 1) (f := (·.setMerge false))
  generalize cs.modify (cs.length - 1) (·.setMerge false) = cs' at hpast' hlen'
  have htake := hpast'.take (changesCapacity - 1)
  split
  · next hfull =>
    rw [← List.drop_one, List.reverse_drop, hfull]
    exact htake
  · next hroom =>
    rwa [List.take_of_length_le] at htake
    rw [List.length_reverse]
    omega

theorem Presents.intoAtomicEdit (hr : Presents n b h) {func : LineBuffer → Bool × LineBuffer}
    (hfunc : EditFunction func) :
    ∃ h', Does n (.intoAtomicEdit func hfunc) h (b.intoAtomicEdit func).1 h' ∧
      Presents n (b.intoAtomicEdit func).2 h' := by
  have hpast := hr.remaining
  have hroom := LineBuffer.remaining_length hr.ok
  cases hfail : (b.intoAtomicEdit func).1 with
  | false =>
    refine ⟨_, .failed, ?_⟩
    rw [LineBuffer.intoAtomicEdit_fail hr.ok hfunc hfail]
    refine { hr with
      changeIndex := Nat.le_refl _, capacity := Nat.le_of_lt hroom, past := ?_, future := ?_ }
    · dsimp only
      rw [List.take_length]
      exact hpast
    · dsimp only
      rw [List.drop_length]
      trivial
  | true =>
    have hedit := Editing.afterFunc hr.ok hfunc
    unfold LineBuffer.intoAtomicEdit at hfail ⊢
    dsimp only at hfail ⊢
    generalize func { (b.insertToCursor [] false).2 with atomicEdit := true } = result at *
    obtain ⟨r, e⟩ := result
    cases r with
    | false => cases hfail
    | true =>
      obtain ⟨top, htop, hall⟩ := hedit.changes
      have hindex := hedit.changeIndex
      have hlen : e.changes.length = e.changeIndex := by
        rw [htop, hindex, List.length_append, List.length_singleton]
      have hsize : e.bufSize = n := hedit.bufSize.trans hr.bufSize
      have hfits := hedit.fits
      rw [hsize] at hfits
      refine ⟨_, .done hfits, ?_⟩
      rw [if_pos rfl]
      refine ⟨hedit.cursor, hedit.fits, rfl, Nat.le_of_eq hlen.symm, ?_, rfl, ?_, ?_, hsize⟩
      · show e.changes.length ≤ _
        rw [hlen, hindex]
        exact hroom
      · show Back e.bufSize (e.changes.take e.changeIndex).reverse
          ((h.now :: h.past).take changesCapacity) e.buf
        rw [← hlen, List.take_length, htop, List.reverse_append, hedit.bufSize, hr.now]
        exact ⟨hr.fits, hall, hpast⟩
      · show Forth e.bufSize (e.changes.drop e.changeIndex) [] e.buf
        rw [← hlen, List.drop_length]
        trivial

/-! ## Runs -/

/-- Every call does to the contents what the editor does. -/
theorem Presents.call (hr : Presents n b h) (call : Call) :
    ∃ h', Does n call h (call.run b).1 h' ∧ Presents n (call.run b).2 h' := by
  cases call with
  | edit e => exact hr.edit e
  | undo =>
    obtain ⟨hr', hanswer, -⟩ := hr.undo
    refine ⟨_, ?_, hr'⟩
    show Does n .undo h b.undo.1 _
    rw [hanswer]
    exact .undo
  | redo =>
    obtain ⟨hr', hanswer, -⟩ := hr.redo
    refine ⟨_, ?_, hr'⟩
    show Does n .redo h b.redo.1 _
    rw [hanswer]
    exact .redo
  | intoAtomicEdit func hfunc => exact hr.intoAtomicEdit hfunc

theorem Presents.observe (hr : Presents n b h) (calls : List Call) :
    ∃ h', Runs n h calls (observe b calls).1 h' ∧ Presents n (observe b calls).2 h' := by
  induction calls generalizing b h with
  | nil => exact ⟨h, .nil, hr⟩
  | cons call calls ih =>
    obtain ⟨h₁, hdoes, hr₁⟩ := hr.call call
    obtain ⟨h', hruns, hr'⟩ := ih hr₁
    have hcons := Runs.cons hdoes hruns
    rw [hr₁.now] at hcons
    exact ⟨h', hcons, hr'⟩

/-- A call leaves no content in the history but those that were there and its own. -/
theorem Does.contents {call : Call} {r : Bool} {h' : History (List Nat)}
    (hdoes : Does n call h r h') (hx : x ∈ h'.contents) : x ∈ h.contents ∨ x = h'.now := by
  have htracked {merge : Bool} {y : List Nat} (ht : Tracked merge h y h') :
      x ∈ h.contents ∨ x = h'.now := by
    rcases ht with rfl | ⟨-, -, rfl⟩
    · exact (History.mem_contents_edit hx).symm
    · exact (History.mem_contents_amend hx).symm
  cases hdoes with
  | inserted _ _ ht | deletedTo _ _ ht | deletedFrom _ _ ht => exact htracked ht
  | full | notDeletedTo | notDeletedFrom | setCursor | commitLastChange => exact .inl hx
  | undo => exact .inl (History.mem_contents_undo.1 hx)
  | redo => exact .inl (History.mem_contents_redo.1 hx)
  | done => exact (History.mem_contents_edit hx).symm
  | failed => exact .inl (History.mem_contents_forget hx)

/-- The history holds what was there at the beginning or has been seen since. -/
theorem Runs.contents {h' : History (List Nat)} {calls : List Call} {seen : List (Bool × List Nat)}
    (hruns : Runs n h calls seen h') (hx : x ∈ h'.contents) :
    x ∈ h.contents ∨ x ∈ seen.map Prod.snd := by
  induction hruns with
  | nil => exact .inl hx
  | cons hdoes hruns ih =>
    rw [List.map_cons, List.mem_cons]
    rcases ih hx with hx | hx
    · exact (hdoes.contents hx).imp_right .inl
    · exact .inr (.inr hx)

/-- The buffer does what an editor with a history of contents does: it gives the same answers and
shows the same contents, whatever it is called for. -/
theorem run_simulates (bufSize : Nat) (calls : List Call) : ∃ h,
    Runs (bufSize - 1) ⟨[], [], []⟩ calls (observe (LineBuffer.new bufSize) calls).1 h ∧
      Presents (bufSize - 1) (observe (LineBuffer.new bufSize) calls).2 h :=
  (Presents.new bufSize).observe calls

theorem Presents.changeIndex_eq (hr : Presents n b h) : b.changeIndex = h.past.length := by
  have hlen := hr.past.length_eq
  rwa [List.length_reverse, List.length_take, Nat.min_eq_left hr.changeIndex] at hlen

theorem Presents.undos (hr : Presents n b h) (k : Nat) :
    Presents n (b.undos k) (History.undo^[k] h) ∧
      (b.undos k).changes.map Change.trail = b.changes.map Change.trail := by
  induction k generalizing b h with
  | zero => exact ⟨hr, rfl⟩
  | succ k ih =>
    obtain ⟨hr₁, -, htrail₁⟩ := hr.undo
    obtain ⟨hr', htrail'⟩ := ih hr₁
    exact ⟨hr', htrail'.trans htrail₁⟩

theorem Presents.redos (hr : Presents n b h) (k : Nat) :
    Presents n (b.redos k) (History.redo^[k] h) ∧
      (b.redos k).changes.map Change.trail = b.changes.map Change.trail := by
  induction k generalizing b h with
  | zero => exact ⟨hr, rfl⟩
  | succ k ih =>
    obtain ⟨hr₁, -, htrail₁⟩ := hr.redo
    obtain ⟨hr', htrail'⟩ := ih hr₁
    exact ⟨hr', htrail'.trans htrail₁⟩

/-- After any run, undo leads to contents that the buffer had before, and as many redos lead back to
the content and the history from which the undos began. -/
theorem undo_redo_run {bufSize : Nat} {calls : List Call} {seen : List (Bool × List Nat)}
    (hobserve : observe (LineBuffer.new bufSize) calls = (seen, b)) (hk : k ≤ b.changeIndex) :
    (b.undos k).buf ∈ [] :: seen.map Prod.snd ∧ (b.undos k).changeIndex = b.changeIndex - k ∧
      ((b.undos k).redos k).buf = b.buf ∧ ((b.undos k).redos k).changeIndex = b.changeIndex ∧
      ((b.undos k).redos k).changes.map Change.trail = b.changes.map Change.trail := by
  obtain ⟨h, hruns, hr⟩ := (Presents.new bufSize).observe calls
  rw [hobserve] at hruns hr
  dsimp only at hruns hr
  rw [hr.changeIndex_eq] at hk
  obtain ⟨hundone, htrail⟩ := hr.undos k
  obtain ⟨hredone, htrail'⟩ := hundone.redos k
  obtain ⟨hnow, hpast⟩ := History.undo_iterate hk
  rw [History.redo_undo_iterate hk] at hredone
  refine ⟨?_, ?_, ?_, ?_, htrail'.trans htrail⟩
  · have hmem : (b.undos k).buf ∈ h.contents := by
      rw [← hundone.now]
      exact List.mem_append_left h.future (List.mem_of_getElem? hnow)
    rcases hruns.contents hmem with hmem | hmem
    · rw [show (b.undos k).buf = [] from List.mem_singleton.1 hmem]
      exact List.mem_cons_self
    · exact List.mem_cons_of_mem _ hmem
  · rw [hundone.changeIndex_eq, hpast, List.length_drop, hr.changeIndex_eq]
  · rw [← hredone.now, hr.now]
  · rw [hredone.changeIndex_eq, hr.changeIndex_eq]

/-- The second insertion is merged into the first one, the third one is not. -/
def threeInserts : List Call :=
  [.edit (.insertToCursor [97] true), .edit (.insertToCursor [98] true),
    .edit (.insertToCursor [99] false)]

def threeInserted : LineBuffer := (observe (LineBuffer.new 16) threeInserts).2

theorem undo_redo_run_threeInserts :
    (threeInserted.undos 2).buf = [] ∧
      (threeInserted.undos 2).changeIndex = threeInserted.changeIndex - 2 ∧
      ((threeInserted.undos 2).redos 2).buf = threeInserted.buf := by
  have h := undo_redo_run (k := 2) (Eq.refl (observe (LineBuffer.new 16) threeInserts)) (by decide)
  exact ⟨by decide, h.2.1, h.2.2.1⟩

end

end Arsh.Line
