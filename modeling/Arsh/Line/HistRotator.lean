import Arsh.Lib.Assoc
import Mathlib.Data.List.Infix

/-!
# History rotation

`HistRotator` of `pager.{h,cpp}`: the line editor goes through the history in place. The buffer
takes an artificial last entry, what is edited replaces the entries it came from, and their texts
are kept by index until `revertAll`. The indices are those of the time an entry was edited, and the
limit of the history may remove entries in front of it later.
-/

namespace Arsh.Line

abbrev HistText := List Nat

/-! ## The source -/

/-- `SYS_LIMIT_HIST_SIZE`. -/
def histLimit : Nat := 0xFFFF

inductive HistOp where
  | prev
  | next
  deriving DecidableEq, Repr

def HistOp.delta : HistOp → Int
  | .prev => 1
  | .next => -1

def HistOp.opposite : HistOp → HistOp
  | .prev => .next
  | .next => .prev

structure HistRotator where
  oldEntries : List (Nat × HistText)
  history : List HistText
  histIndex : Int
  maxSize : Nat

namespace HistRotator

/-- `truncateUntilLimit` on the array. -/
def truncateUntilLimit (history : List HistText) (maxSize : Nat) (beforeAppend : Bool) :
    List HistText :=
  let offset := if beforeAppend then 1 else 0
  if maxSize < history.length + offset then history.drop (history.length + offset - maxSize)
  else history

/-- The constructor. -/
def new (history : List HistText) : HistRotator :=
  ⟨[], truncateUntilLimit history histLimit true ++ [[]], 0, histLimit⟩

def setMaxSize (r : HistRotator) (size : Nat) : HistRotator :=
  { r with maxSize := min size histLimit }

/-- `save`: the old text of an entry is kept the first time. -/
def save (r : HistRotator) (index : Int) (curBuf : HistText) : Option HistRotator :=
  if index < r.history.length ∧ -1 < index then
    let actualIndex := index.toNat
    let org := r.history.getD actualIndex []
    some { r with
      oldEntries := (Assoc.emplace r.oldEntries actualIndex org).2
      history := r.history.set actualIndex curBuf }
  else none

/-- `rotate`: whether it succeeds, the buffer, and the rotator afterwards. -/
def rotate (r : HistRotator) (curBuf : HistText) (op : HistOp) : Bool × HistText × HistRotator :=
  let r := { r with history := truncateUntilLimit r.history r.maxSize false }
  let histSize : Int := r.history.length
  let newHistIndex := r.histIndex + op.delta
  if newHistIndex < 0 then (false, curBuf, { r with histIndex := 0 })
  else if histSize ≤ newHistIndex then (false, curBuf, { r with histIndex := histSize - 1 })
  else
    match r.save (histSize - 1 - r.histIndex) curBuf with
    | none => (false, curBuf, { r with histIndex := 0 })
    | some r =>
      let bufIndex := histSize - 1 - newHistIndex
      (true, r.history.getD bufIndex.toNat [], { r with histIndex := newHistIndex })

/-- The entries that were modified get their old texts back. -/
def restore (oldEntries : List (Nat × HistText)) (history : List HistText) : List HistText :=
  oldEntries.foldl (fun history e =>
    if e.1 < history.length then history.set e.1 e.2 else history) history

/-- The array after `revertAll`. -/
def revertAll (r : HistRotator) : List HistText :=
  restore r.oldEntries (truncateUntilLimit r.history.dropLast r.maxSize false)

/-! ## Runs -/

inductive Call where
  | setMaxSize (size : Nat)
  | rotate (curBuf : HistText) (op : HistOp)

def call (r : HistRotator) : Call → HistRotator
  | .setMaxSize size => r.setMaxSize size
  | .rotate curBuf op => (r.rotate curBuf op).2.2

def run (history : List HistText) (calls : List Call) : HistRotator :=
  calls.foldl call (new history)

def lower (m : Nat) : Call → Nat
  | .setMaxSize size => min m size
  | .rotate _ _ => m

/-- The smallest limit that was in force. -/
def lowest (calls : List Call) : Nat := calls.foldl lower histLimit

/-- No text is kept of an entry in front of the artificial one. -/
def Unsaved (r : HistRotator) : Prop := ∀ e ∈ r.oldEntries, r.history.length - 1 ≤ e.1

/-- A call that has to remove entries comes when no text of an entry is kept. -/
def SafeCall (r : HistRotator) : Call → Prop
  | .setMaxSize _ => True
  | .rotate _ _ => r.maxSize < r.history.length → r.Unsaved

def SafeRevert (r : HistRotator) : Prop := r.maxSize < r.history.length - 1 → r.Unsaved

/-- Every call of a run is one. -/
def Safe (r : HistRotator) : List Call → Prop
  | [] => r.SafeRevert
  | c :: calls => r.SafeCall c ∧ Safe (r.call c) calls

/-- Going back and forth gives the buffer back, and in the end a part of the history that reaches to
its end is left. -/
structure NoTrace (history : List HistText) (calls : List Call) : Prop where
  back : ∀ curBuf op buf buf' r r', (run history calls).rotate curBuf op = (true, buf, r) →
    r.rotate buf op.opposite = (true, buf', r') → buf' = curBuf
  suffix : (run history calls).revertAll <:+ history
  survive : min history.length (lowest calls - 1) ≤ (run history calls).revertAll.length

section
variable {r r' : HistRotator} {history base : List HistText} {old : List (Nat × HistText)}
  {buf buf' curBuf : HistText} {op : HistOp} {calls : List Call} {m n : Nat}

theorem truncate_eq_drop (history : List HistText) (maxSize : Nat) :
    truncateUntilLimit history maxSize false = history.drop (history.length - maxSize) := by
  unfold truncateUntilLimit
  simp only [Bool.false_eq_true, if_false, Nat.add_zero]
  split
  · rfl
  · rw [Nat.sub_eq_zero_of_le (by omega), List.drop_zero]

theorem truncate_of_le (h : history.length ≤ n) : truncateUntilLimit history n false = history := by
  rw [truncate_eq_drop, Nat.sub_eq_zero_of_le h, List.drop_zero]

theorem length_truncate (history : List HistText) (maxSize : Nat) :
    (truncateUntilLimit history maxSize false).length = min history.length maxSize := by
  rw [truncate_eq_drop, List.length_drop]
  omega

theorem save_eq_some {index : Int} (h : r.save index curBuf = some r') :
    ∃ i : Nat, index = i ∧ i < r.history.length ∧
      r'.oldEntries = (Assoc.emplace r.oldEntries i (r.history.getD i [])).2 ∧
      r'.history = r.history.set i curBuf ∧ r'.maxSize = r.maxSize ∧
      r'.histIndex = r.histIndex := by
  unfold save at h
  split at h
  · next hi =>
    obtain rfl := Option.some.inj h
    refine ⟨index.toNat, by omega, by omega, rfl, rfl, rfl, rfl⟩
  · cases h

/-! ## Back and forth -/

/-- A rotation that succeeds: the buffer replaces the entry of the index, and the entry of the new
index is the buffer. -/
theorem rotate_eq_true (h : r.rotate curBuf op = (true, buf, r')) : ∃ i j : Nat,
    i < r'.history.length ∧ j < r'.history.length ∧ r'.history.length ≤ r'.maxSize ∧
    r'.history[i]? = some curBuf ∧ r'.history[j]? = some buf ∧
    (i : Int) = r'.history.length - 1 - r.histIndex ∧
    (j : Int) = r'.history.length - 1 - r'.histIndex ∧
    r'.histIndex = r.histIndex + op.delta := by
  unfold rotate at h
  dsimp only at h
  split at h
  · cases h
  · next h0 =>
    split at h
    · cases h
    · next hle =>
      split at h
      · cases h
      · next r₁ hs =>
        obtain ⟨i, hi, hlt, -, hh, hm, -⟩ := save_eq_some hs
        obtain ⟨-, h⟩ := Prod.mk.inj h
        obtain ⟨rfl, rfl⟩ := Prod.mk.inj h
        have hlen := length_truncate r.history r.maxSize
        dsimp only at hi hlt hh hm ⊢
        have hr : r₁.history.length = (truncateUntilLimit r.history r.maxSize false).length := by
          rw [hh, List.length_set]
        have hj : ((truncateUntilLimit r.history r.maxSize false).length - 1 -
            (r.histIndex + op.delta)).toNat < r₁.history.length := by omega
        refine ⟨i, _, by omega, hj, by omega, ?_, ?_, by omega, by omega, rfl⟩
        · rw [hh, List.getElem?_set_self hlt]
        · rw [List.getD_eq_getElem?_getD, List.getElem?_eq_getElem hj, Option.getD_some]

theorem delta_opposite : op.opposite.delta = -op.delta := by
  cases op <;> rfl

/-- `PREV` and `NEXT` undo each other, whatever the limit has removed: the step back saves what is
there already, and finds the buffer. -/
theorem rotate_opposite {r'' : HistRotator} (h : r.rotate curBuf op = (true, buf, r'))
    (h' : r'.rotate buf op.opposite = (true, buf', r'')) : buf' = curBuf := by
  obtain ⟨i, j, hi, hj, hsize, hcur, hbuf, hii, hjj, hidx⟩ := rotate_eq_true h
  unfold rotate at h'
  dsimp only at h'
  rw [truncate_of_le hsize, delta_opposite] at h'
  split at h'
  · cases h'
  · split at h'
    · cases h'
    · split at h'
      · cases h'
      · next r₂ hs =>
        obtain ⟨k, hk, hlt, -, hh, -, -⟩ := save_eq_some hs
        obtain rfl := (Prod.mk.inj (Prod.mk.inj h').2).1
        dsimp only at hk hh
        obtain rfl : k = j := by omega
        have hset : r'.history.set k buf = r'.history := by
          obtain ⟨hk', hk''⟩ := List.getElem?_eq_some_iff.1 hbuf
          rw [← hk'', List.set_getElem_self]
        have hback : ((r'.history.length : Int) - 1 - (r'.histIndex + -op.delta)).toNat = i := by
          omega
        rw [hh, hset, hback, List.getD_eq_getElem?_getD, hcur, Option.getD_some]

/-! ## What is kept -/

/-- The array is `base`, a part of the history that reaches to its end, and the artificial entry;
what is not in its place in it has been saved. -/
structure Keeps (history : List HistText) (m : Nat) (r : HistRotator) (base : List HistText) :
    Prop where
  suffix : base <:+ history
  survive : min history.length (m - 1) ≤ base.length
  length : r.history.length = base.length + 1
  saved : ∀ k v, (k, v) ∈ r.oldEntries → k < base.length → base[k]? = some v
  unsaved : ∀ k, k < base.length → (∀ v, (k, v) ∉ r.oldEntries) → r.history[k]? = base[k]?

/-- Either that, or a limit of zero has removed everything. -/
def Inv (history : List HistText) (m : Nat) (r : HistRotator) : Prop :=
  m ≤ r.maxSize ∧ ((∃ base, Keeps history m r base) ∨ r.history = [] ∧ m = 0)

theorem mem_emplace {k : Nat} {v : HistText} {e : Nat × HistText} :
    e ∈ (Assoc.emplace old k v).2 ↔ e ∈ old ∨ (∀ w, (k, w) ∉ old) ∧ e = (k, v) := by
  unfold Assoc.emplace
  split
  · next h =>
    obtain ⟨w, hw⟩ := Option.isSome_iff_exists.1 h
    exact ⟨.inl, fun he => he.elim id fun he => absurd (Assoc.mapFind_mem hw) (he.1 w)⟩
  · next h =>
    have hn : ∀ w, (k, w) ∉ old := fun w hw => h (by
      unfold Assoc.mapFind
      rw [Option.isSome_map, List.find?_isSome]
      exact ⟨_, hw, by simp⟩)
    simp [hn]

theorem Keeps.save {index : Int} (h : Keeps history m r base) (hs : r.save index curBuf = some r') :
    Keeps history m r' base := by
  obtain ⟨i, rfl, hi, ho, hh, -, -⟩ := save_eq_some hs
  refine ⟨h.suffix, h.survive, by rw [hh, List.length_set, h.length], ?_, ?_⟩
  · intro k v hk hlt
    rw [ho, mem_emplace] at hk
    rcases hk with hk | ⟨hn, he⟩
    · exact h.saved k v hk hlt
    · obtain ⟨rfl, rfl⟩ := Prod.mk.inj he
      rw [← h.unsaved k hlt hn, List.getD_eq_getElem?_getD, List.getElem?_eq_getElem hi,
        Option.getD_some]
  · intro k hlt hn
    simp only [ho, mem_emplace, not_or, not_and] at hn
    have hne : i ≠ k := by
      rintro rfl
      exact (hn _).2 (fun w => (hn w).1) rfl
    rw [hh, List.getElem?_set_ne hne, h.unsaved k hlt fun v => (hn v).1]

/-- With nothing saved, the limit removes entries of the history. -/
theorem Keeps.truncate (h : Keeps history m r base) (hm : m ≤ r.maxSize)
    (hs : r.maxSize < r.history.length → r.Unsaved) (h0 : 0 < r.maxSize) :
    ∃ base', Keeps history m { r with history := truncateUntilLimit r.history r.maxSize false }
      base' := by
  have hlen := h.length
  rcases Nat.lt_or_ge r.maxSize r.history.length with hlt | hle
  · have hu : ∀ k, k < base.length → ∀ v, (k, v) ∉ r.oldEntries := fun k hk v hv => by
      have := hs hlt _ hv
      dsimp only at this
      omega
    have hsurvive := h.survive
    refine ⟨base.drop (r.history.length - r.maxSize),
      (List.drop_suffix _ _).trans h.suffix, ?_, ?_, ?_, ?_⟩
    · rw [List.length_drop]
      omega
    · rw [length_truncate, List.length_drop]
      omega
    · intro k v hv hk
      rw [List.length_drop] at hk
      exact absurd hv (hu k (by omega) v)
    · intro k hk _
      rw [List.length_drop] at hk
      rw [truncate_eq_drop, List.getElem?_drop, List.getElem?_drop]
      exact h.unsaved _ (by omega) (hu _ (by omega))
  · rw [truncate_of_le hle]
    exact ⟨base, h⟩

theorem restore_nil (old : List (Nat × HistText)) : restore old [] = [] := by
  induction old with
  | nil => rfl
  | cons e old ih => exact ih

/-- All entries that are not in their place get their texts back. -/
theorem restore_eq (hlen : history.length = base.length)
    (hs : ∀ k v, (k, v) ∈ old → k < base.length → base[k]? = some v)
    (hu : ∀ k, k < base.length → (∀ v, (k, v) ∉ old) → history[k]? = base[k]?) :
    restore old history = base := by
  induction old generalizing history with
  | nil =>
    refine List.ext_getElem? fun k => ?_
    rcases Nat.lt_or_ge k base.length with hk | hk
    · exact hu k hk fun v => List.not_mem_nil
    · change history[k]? = _
      rw [List.getElem?_eq_none (by omega), List.getElem?_eq_none hk]
  | cons e old ih =>
    obtain ⟨i, w⟩ := e
    refine @ih (if i < history.length then history.set i w else history) ?_
      (fun k v hv => hs k v (List.mem_cons_of_mem _ hv)) fun k hk hn => ?_
    · split
      · rw [List.length_set, hlen]
      · exact hlen
    · by_cases hik : i = k
      · subst hik
        rw [if_pos (by omega), List.getElem?_set_self (by omega)]
        exact (hs i w List.mem_cons_self hk).symm
      · have := hu k hk fun v hv => by
          rcases List.mem_cons.1 hv with hv | hv
          · exact hik (Prod.mk.inj hv).1.symm
          · exact hn v hv
        split
        · rw [List.getElem?_set_ne hik, this]
        · exact this

theorem Keeps.revertAll (h : Keeps history m r base) (hm : m ≤ r.maxSize) (hs : r.SafeRevert) :
    r.revertAll <:+ history ∧ min history.length (m - 1) ≤ r.revertAll.length := by
  have hlen := h.length
  have hsurvive := h.survive
  have hr : r.revertAll = base.drop (base.length - r.maxSize) := by
    have hd : r.history.dropLast.length = base.length := by
      rw [List.length_dropLast]
      omega
    have hget : ∀ k, k < base.length → r.history.dropLast[k]? = r.history[k]? := fun k hk => by
      rw [List.dropLast_eq_take, List.getElem?_take_of_lt (by omega)]
    rw [HistRotator.revertAll, truncate_eq_drop, hd]
    rcases Nat.lt_or_ge r.maxSize base.length with hlt | hle
    · have hu : ∀ k, k < base.length → ∀ v, (k, v) ∉ r.oldEntries := fun k hk v hv => by
        have := hs (by omega) _ hv
        dsimp only at this
        omega
      refine restore_eq (by rw [List.length_drop, List.length_drop, hd]) ?_ ?_
      · intro k v hv hk
        rw [List.length_drop] at hk
        exact absurd hv (hu k (by omega) v)
      · intro k hk _
        rw [List.length_drop] at hk
        rw [List.getElem?_drop, List.getElem?_drop, hget _ (by omega)]
        exact h.unsaved _ (by omega) (hu _ (by omega))
    · rw [Nat.sub_eq_zero_of_le hle, List.drop_zero, List.drop_zero]
      apply restore_eq hd h.saved
      intro k hk hn
      rw [hget k hk]
      exact h.unsaved k hk hn
  rw [hr, List.length_drop]
  exact ⟨(List.drop_suffix _ _).trans h.suffix, by omega⟩

/-! ## Runs -/

theorem inv_new (history : List HistText) (hm : m ≤ histLimit) : Inv history m (new history) := by
  refine ⟨hm, .inl ⟨truncateUntilLimit history histLimit true, ?_, ?_, ?_, ?_, ?_⟩⟩
  · simp only [truncateUntilLimit, if_true]
    split
    · exact List.drop_suffix _ _
    · exact List.suffix_refl _
  · simp only [truncateUntilLimit, if_true]
    split
    · rw [List.length_drop]
      omega
    · exact Nat.min_le_left _ _
  · simp [new]
  · intro k v hv
    cases hv
  · intro k hk _
    exact List.getElem?_append_left hk

theorem inv_setMaxSize (h : Inv history m r) (hm : m ≤ histLimit) (hn : m ≤ n) :
    Inv history m (r.setMaxSize n) := by
  refine ⟨Nat.le_min.2 ⟨hn, hm⟩, ?_⟩
  rcases h.2 with ⟨base, hb⟩ | h0
  · exact .inl ⟨base, hb.suffix, hb.survive, hb.length, hb.saved, hb.unsaved⟩
  · exact .inr h0

/-- A change of the index alone. -/
theorem inv_histIndex (h : Inv history m r) (i : Int) :
    Inv history m { r with histIndex := i } := by
  refine ⟨h.1, ?_⟩
  rcases h.2 with ⟨base, hb⟩ | h0
  · exact .inl ⟨base, hb.suffix, hb.survive, hb.length, hb.saved, hb.unsaved⟩
  · exact .inr h0

theorem inv_truncate (h : Inv history m r) (hs : r.maxSize < r.history.length → r.Unsaved) :
    Inv history m { r with history := truncateUntilLimit r.history r.maxSize false } := by
  obtain ⟨hm, h⟩ := h
  refine ⟨hm, ?_⟩
  rcases Nat.eq_zero_or_pos r.maxSize with h0 | h0
  · refine .inr ⟨List.eq_nil_of_length_eq_zero ?_, by omega⟩
    rw [length_truncate, h0, Nat.min_zero]
  · rcases h with ⟨base, hb⟩ | ⟨hnil, hm0⟩
    · exact .inl (hb.truncate hm hs h0)
    · refine .inr ⟨?_, hm0⟩
      dsimp only
      rw [hnil, truncate_eq_drop, List.drop_nil]

theorem inv_save {index : Int} (h : Inv history m r) (hs : r.save index curBuf = some r') :
    Inv history m r' := by
  obtain ⟨i, -, hi, -, hh, hm, -⟩ := save_eq_some hs
  refine ⟨hm ▸ h.1, ?_⟩
  rcases h.2 with ⟨base, hb⟩ | ⟨hnil, h0⟩
  · exact .inl ⟨base, hb.save hs⟩
  · rw [hnil] at hi
    cases hi

theorem inv_rotate (h : Inv history m r) (hs : r.maxSize < r.history.length → r.Unsaved) :
    Inv history m (r.rotate curBuf op).2.2 := by
  have ht := inv_truncate h hs
  unfold rotate
  dsimp only
  split
  · exact inv_histIndex ht 0
  · split
    · exact inv_histIndex ht _
    · split
      · exact inv_histIndex ht 0
      · next r₁ hsave => exact inv_histIndex (inv_save ht hsave) _

theorem inv_run (hm : m ≤ histLimit) (hl : ∀ n, Call.setMaxSize n ∈ calls → m ≤ n)
    (h : Inv history m r) (hs : Safe r calls) :
    Inv history m (calls.foldl call r) ∧ (calls.foldl call r).SafeRevert := by
  induction calls generalizing r with
  | nil => exact ⟨h, hs⟩
  | cons c calls ih =>
    refine ih (fun n hn => hl n (List.mem_cons_of_mem c hn)) ?_ hs.2
    cases c with
    | setMaxSize n => exact inv_setMaxSize h hm (hl n List.mem_cons_self)
    | rotate curBuf op => exact inv_rotate h hs.1

theorem foldl_lower (calls : List Call) (m : Nat) : calls.foldl lower m ≤ m ∧
    ∀ n, Call.setMaxSize n ∈ calls → calls.foldl lower m ≤ n := by
  induction calls generalizing m with
  | nil => exact ⟨Nat.le_refl m, fun n hn => absurd hn List.not_mem_nil⟩
  | cons c calls ih =>
    cases c with
    | setMaxSize size =>
      obtain ⟨h1, h2⟩ := ih (min m size)
      refine ⟨h1.trans (Nat.min_le_left m size), fun n hn => ?_⟩
      rcases List.mem_cons.1 hn with hn | hn
      · cases hn
        exact h1.trans (Nat.min_le_right m _)
      · exact h2 n hn
    | rotate curBuf op =>
      obtain ⟨h1, h2⟩ := ih m
      refine ⟨h1, fun n hn => h2 n ?_⟩
      rcases List.mem_cons.1 hn with hn | hn
      · cases hn
      · exact hn

/-- If no call removes entries while a text is kept, rotation leaves no trace. -/
theorem noTrace (history : List HistText) (calls : List Call) (h : Safe (new history) calls) :
    NoTrace history calls := by
  obtain ⟨hm, hl⟩ := foldl_lower calls histLimit
  obtain ⟨⟨hmax, hinv⟩, hs⟩ := inv_run hm hl (inv_new history hm) h
  have key : (run history calls).revertAll <:+ history ∧
      min history.length (lowest calls - 1) ≤ (run history calls).revertAll.length := by
    rcases hinv with ⟨base, hb⟩ | ⟨hnil, h0⟩
    · exact hb.revertAll hmax hs
    · have hr : (run history calls).revertAll = [] := by
        unfold revertAll run
        rw [hnil, List.dropLast_nil, truncate_eq_drop, List.drop_nil, restore_nil]
      have h0 : lowest calls = 0 := h0
      rw [hr, h0]
      exact ⟨List.nil_suffix, by simp⟩
  exact ⟨fun _ _ _ _ _ _ hr hb => rotate_opposite hr hb, key.1, key.2⟩

/-- The limit removes two entries at the first step back, and the text of the last one is edited
before the step forth. -/
def limitedSample : List Call := [.setMaxSize 2, .rotate [120] .prev, .rotate [121] .next]

theorem noTrace_limited : NoTrace [[97], [98], [99]] limitedSample ∧
    (run [[97], [98], [99]] limitedSample).oldEntries = [(1, []), (0, [99])] ∧
    (run [[97], [98], [99]] limitedSample).revertAll = [[99]] := by
  refine ⟨noTrace _ _ ⟨trivial, ?_, ?_, ?_⟩, by decide, by decide⟩
  · exact fun _ e he => absurd he List.not_mem_nil
  · exact fun h => absurd h (by decide)
  · exact fun h => absurd h (by decide)

/-- One step back in a history of two entries, and another one after its text was edited. -/
def callsSample : List Call :=
  [.rotate [120] .prev, .rotate [121] .prev]

/-- The limit becomes smaller when the last entry is edited: the edited text stays. -/
theorem not_noTrace : ¬ NoTrace [[97], [98]] (callsSample ++ [.setMaxSize 1]) := fun h =>
  absurd h.suffix (by decide)

end

end HistRotator

end Arsh.Line
