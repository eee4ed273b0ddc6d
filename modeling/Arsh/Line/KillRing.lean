import Arsh.Misc.RingBuffer

/-!
# The kill ring

`KillRing` of `line_buffer.{h,cpp}`: killed texts in a ring buffer, and the index of the text that
is yanked. The editor resets and rotates a ring that has a text only. Then the index is that of a
text as soon as there is one, whatever falls out of the ring and however often its capacity changes
(`reachable_current`).
-/

namespace Arsh.Line

abbrev KillText := List Nat

structure KillRing where
  buf : RingBuffer KillText
  rotateIndex : Nat

namespace KillRing

open RingBuffer

def initSize : Nat := 15

def new : KillRing := ⟨.new initSize, 0⟩

variable (k : KillRing)

def add (value : KillText) : Option KillRing :=
  if value = [] then some k else (k.buf.emplaceBack value).map fun buf => { k with buf := buf }

def reset : KillRing := { k with rotateIndex := uintPred k.buf.size }

def getCurrent : Option KillText := k.buf.get k.rotateIndex

def rotate : KillRing :=
  if 0 < k.rotateIndex ∧ k.rotateIndex < k.buf.size then
    { k with rotateIndex := k.rotateIndex - 1 }
  else { k with rotateIndex := uintPred k.buf.size }

/-- The loop of `expand`; `fuel` is the size of the old buffer. -/
def transfer : Nat → RingBuffer KillText → RingBuffer KillText → Option (RingBuffer KillText)
  | 0, _, newBuf => some newBuf
  | fuel + 1, buf, newBuf =>
    if buf.empty then some newBuf
    else do
      let v ← buf.front
      let newBuf ← newBuf.emplaceBack v
      let buf ← buf.popFront
      transfer fuel buf newBuf

def expand (afterCap : Nat) : Option KillRing :=
  if k.buf.allocSize = alignAllocSize afterCap then some k
  else (transfer k.buf.size k.buf (.new afterCap)).map fun buf =>
    let k := { k with buf := buf }
    if k.buf.empty then k else k.reset

/-- A call of an operation. -/
inductive Op where
  | add (value : KillText)
  | reset
  | rotate
  | expand (afterCap : Nat)

def step : Op → Option KillRing
  | .add value => k.add value
  | .reset => some k.reset
  | .rotate => some k.rotate
  | .expand afterCap => k.expand afterCap

def run (ops : List Op) (k : KillRing) : Option KillRing := ops.foldlM step k

/-- The editor calls `reset` and `rotate` when there is something to yank. -/
def Op.NeedsText : Op → Prop
  | .reset | .rotate => True
  | _ => False

/-- The rings of the runs in which `reset` and `rotate` find a text. -/
inductive Reachable : KillRing → Prop
  | new : Reachable new
  | step {k k' : KillRing} {op : Op} (h : Reachable k)
      (hop : op.NeedsText → k.buf.empty = false) (hs : k.step op = some k') : Reachable k'

/-! ## The index -/

variable {k : KillRing} {l : List KillText}

/-- The ring is a queue of texts, and its index is that of one of them. -/
structure Inv (k : KillRing) (l : List KillText) : Prop where
  refines : ∃ cap, Refines cap k.buf l
  index_lt : k.rotateIndex < max l.length 1

theorem Inv.size_eq (h : Inv k l) : k.buf.size = l.length := by
  obtain ⟨cap, hr⟩ := h.refines
  exact hr.shows.size

theorem Inv.empty_iff (h : Inv k l) : k.buf.empty = false ↔ l ≠ [] := by
  obtain ⟨cap, hr⟩ := h.refines
  rw [hr.shows.empty]
  simp

/-- The last index of a queue. -/
theorem uintPred_size {cap : Nat} {buf : RingBuffer KillText} (h : Refines cap buf l)
    (hl : l ≠ []) : uintPred buf.size < l.length := by
  have hlt : l.length < uintSize := Nat.lt_trans h.length_lt h.holds.alloc_lt
  obtain ⟨n, hn⟩ := Nat.exists_eq_succ_of_ne_zero (mt List.length_eq_zero_iff.1 hl)
  rw [h.shows.size, hn]
  rw [hn] at hlt
  have hpred := uintPred_mod n
  rw [Nat.mod_eq_of_lt hlt, Nat.mod_eq_of_lt (Nat.lt_of_succ_lt hlt)] at hpred
  rw [Nat.succ_eq_add_one, hpred]
  exact Nat.lt_succ_self n

theorem inv_new : Inv new [] := ⟨⟨_, refines_new initSize⟩, Nat.one_pos⟩

@[simp]
theorem reset_buf (k : KillRing) : k.reset.buf = k.buf := by rw [KillRing.reset]

@[simp]
theorem reset_rotateIndex (k : KillRing) : k.reset.rotateIndex = uintPred k.buf.size := by
  rw [KillRing.reset]

theorem Inv.reset (h : Inv k l) (hl : l ≠ []) : Inv k.reset l := by
  obtain ⟨cap, hr⟩ := h.refines
  have hlt := uintPred_size hr hl
  rw [← reset_rotateIndex] at hlt
  rw [← reset_buf] at hr
  exact ⟨⟨cap, hr⟩, Nat.lt_of_lt_of_le hlt (Nat.le_max_left _ _)⟩

/-- A rotation goes one text back, or starts again at the last one. -/
theorem rotate_cases (k : KillRing) :
    k.rotate = k.reset ∨ (0 < k.rotateIndex ∧ k.rotate.rotateIndex = k.rotateIndex - 1 ∧
      k.rotate.buf = k.buf) := by
  by_cases hc : 0 < k.rotateIndex ∧ k.rotateIndex < k.buf.size
  · have hrot : k.rotate = { k with rotateIndex := k.rotateIndex - 1 } := by
      rw [KillRing.rotate, if_pos hc]
    rw [hrot]
    exact .inr ⟨hc.1, rfl, rfl⟩
  · left
    rw [KillRing.rotate, if_neg hc, KillRing.reset]

theorem Inv.rotate (h : Inv k l) (hl : l ≠ []) : Inv k.rotate l := by
  rcases rotate_cases k with hr | ⟨-, hindex, hbuf⟩
  · rw [hr]
    exact h.reset hl
  · refine ⟨?_, ?_⟩
    · rw [hbuf]
      exact h.refines
    · rw [hindex]
      exact Nat.lt_of_le_of_lt (Nat.sub_le _ _) h.index_lt

/-- A text that is pushed makes the queue longer, or an old one falls out. -/
theorem le_length_boundedPush {cap : Nat} (v : KillText) (h : l.length ≤ cap) (hc : 0 < cap) :
    max l.length 1 ≤ (boundedPush cap l v).length := by
  rw [boundedPush, List.length_drop, List.length_append, List.length_singleton]
  omega

theorem Inv.add (h : Inv k l) (value : KillText) :
    ∃ k' l', k.add value = some k' ∧ Inv k' l' := by
  unfold KillRing.add
  split
  · exact ⟨k, l, rfl, h⟩
  obtain ⟨cap, hr⟩ := h.refines
  obtain ⟨buf, hbuf, hr'⟩ := hr.pushBack value
  rw [hbuf]
  refine ⟨{ k with buf := buf }, _, rfl, ⟨cap, hr'⟩, ?_⟩
  have hle := le_length_boundedPush value hr.length_le hr.cap_pos
  exact Nat.lt_of_lt_of_le h.index_lt (hle.trans (Nat.le_max_left _ _))

/-- The loop of `expand` moves the first text. -/
theorem transfer_cons {fuel : Nat} {v : KillText} {buf buf' newBuf newBuf' : RingBuffer KillText}
    (hempty : buf.empty = false) (hfront : buf.front = some v) (hpop : buf.popFront = some buf')
    (hpush : newBuf.emplaceBack v = some newBuf') :
    transfer (fuel + 1) buf newBuf = transfer fuel buf' newBuf' := by
  rw [transfer, hempty, hfront, hpop]
  rw [if_neg Bool.false_ne_true]
  rw [Option.bind_eq_bind, Option.bind_some, hpush]
  rfl

/-- The texts of a ring go to another one, which keeps the last of them. -/
theorem transfer_eq {cap cap' : Nat} {buf newBuf : RingBuffer KillText} {m : List KillText}
    (h : Refines cap buf l) (h' : Refines cap' newBuf m) :
    ∃ b, transfer l.length buf newBuf = some b ∧ Refines cap' b (l.foldl (boundedPush cap') m) := by
  induction l generalizing buf newBuf m with
  | nil => exact ⟨newBuf, rfl, h'⟩
  | cons v l ih =>
    obtain ⟨buf', hpop, hr⟩ := h.popFront
    obtain ⟨newBuf', hpush, hr'⟩ := h'.pushBack v
    obtain ⟨b, hb, hrb⟩ := ih hr hr'
    refine ⟨b, ?_, hrb⟩
    rw [List.length_cons, transfer_cons h.shows.empty h.shows.front hpop hpush]
    exact hb

/-- A queue into which something is pushed is not empty. -/
theorem foldl_boundedPush_eq_nil {cap : Nat} {m : List KillText} (hc : 0 < cap)
    (h : l.foldl (boundedPush cap) m = []) : l = [] := by
  induction l generalizing m with
  | nil => rfl
  | cons v l ih =>
    have hl := ih h
    rw [hl, List.foldl_cons, List.foldl_nil, boundedPush] at h
    have hlen := congrArg List.length h
    rw [List.length_drop, List.length_append, List.length_singleton, List.length_nil] at hlen
    omega

/-- `expand` resets the index of a ring that has a text. -/
theorem Inv.refill (h : Inv k l) {cap : Nat} {b : RingBuffer KillText} {l' : List KillText}
    (hb : Refines cap b l') (hnil : l' = [] → l = []) :
    Inv (if b.empty then { k with buf := b } else { k with buf := b }.reset) l' := by
  have hempty := hb.shows.empty
  split
  · next he =>
    rw [he] at hempty
    have hl' : l' = [] := List.isEmpty_iff.1 hempty.symm
    have hlt := h.index_lt
    rw [hnil hl'] at hlt
    refine ⟨⟨cap, hb⟩, ?_⟩
    rw [hl']
    exact hlt
  · next he =>
    have hl' : l' ≠ [] := fun hl => he (by rw [hempty, hl]; rfl)
    have hlt := uintPred_size hb hl'
    refine ⟨⟨cap, by rw [reset_buf]; exact hb⟩, ?_⟩
    rw [reset_rotateIndex]
    exact Nat.lt_of_lt_of_le hlt (Nat.le_max_left _ _)

theorem Inv.expand (h : Inv k l) (afterCap : Nat) :
    ∃ k' l', k.expand afterCap = some k' ∧ Inv k' l' := by
  unfold KillRing.expand
  split
  · exact ⟨k, l, rfl, h⟩
  obtain ⟨cap, hr⟩ := h.refines
  obtain ⟨b, hb, hrb⟩ := transfer_eq hr (refines_new afterCap)
  rw [h.size_eq, hb, Option.map_some]
  refine ⟨if b.empty then { k with buf := b } else { k with buf := b }.reset,
    l.foldl (boundedPush (RingBuffer.new afterCap : RingBuffer KillText).capacity) [], rfl, ?_⟩
  exact h.refill hrb (foldl_boundedPush_eq_nil hrb.cap_pos)

/-! ## Runs -/

/-- Every operation is defined, and keeps the index. -/
theorem Inv.step (h : Inv k l) {op : Op} (hop : op.NeedsText → k.buf.empty = false) :
    ∃ k' l', k.step op = some k' ∧ Inv k' l' := by
  cases op with
  | add value => exact h.add value
  | reset => exact ⟨_, l, rfl, h.reset (h.empty_iff.1 (hop trivial))⟩
  | rotate => exact ⟨_, l, rfl, h.rotate (h.empty_iff.1 (hop trivial))⟩
  | expand afterCap => exact h.expand afterCap

theorem Reachable.inv (h : Reachable k) : ∃ l, Inv k l := by
  induction h with
  | new => exact ⟨[], inv_new⟩
  | step _ hop hs ih =>
    obtain ⟨l, hl⟩ := ih
    obtain ⟨k', l', hs', hl'⟩ := hl.step hop
    rw [hs] at hs'
    cases hs'
    exact ⟨l', hl'⟩

/-- The index of a ring that has a text is that of a text. -/
theorem Inv.current (h : Inv k l) (hk : k.buf.empty = false) :
    k.rotateIndex < k.buf.size ∧ k.getCurrent = l[k.rotateIndex]? ∧ k.getCurrent.isSome := by
  have hl := h.empty_iff.1 hk
  have hpos : 0 < l.length := List.length_pos_iff.2 hl
  have hlt : k.rotateIndex < l.length := by
    have hlt := h.index_lt
    rwa [max_eq_left hpos] at hlt
  obtain ⟨cap, hr⟩ := h.refines
  have hcur : k.getCurrent = l[k.rotateIndex]? := by
    have hle := hr.length_le
    rw [← hr.capacity_eq] at hle
    exact hr.shows.get _ (by omega)
  refine ⟨by rwa [h.size_eq], hcur, ?_⟩
  rw [hcur, List.getElem?_eq_getElem hlt]
  rfl

/-- A ring buffer is a queue of its capacity through every run of its operations, and a ring whose
index is reset and rotated when there is a text has the index of a text whenever there is one. -/
theorem reachable_current :
    (∀ (α : Type) (cap : Nat) (ops : List (RingBuffer.Op α)),
      let r : RingBuffer α := .new cap
      (queueRun r.capacity ops [] = none ∧ RingBuffer.run ops r = none) ∨
        ∃ l r', queueRun r.capacity ops [] = some l ∧ RingBuffer.run ops r = some r' ∧ Shows r' l) ∧
    ∀ k, Reachable k →
      (∀ op : Op, (op.NeedsText → k.buf.empty = false) → (k.step op).isSome) ∧
      (k.buf.empty = false → k.rotateIndex < k.buf.size ∧ k.getCurrent.isSome) := by
  refine ⟨?_, ?_⟩
  · intro α cap ops r
    rcases (refines_new cap).run ops with h | ⟨l, r', hl, hr, h⟩
    · exact .inl h
    · exact .inr ⟨l, r', hl, hr, h.shows⟩
  · intro k hk
    obtain ⟨l, hl⟩ := hk.inv
    refine ⟨?_, ?_⟩
    · intro op hop
      obtain ⟨k', -, hs, -⟩ := hl.step hop
      rw [hs]
      rfl
    · intro he
      obtain ⟨hlt, -, hsome⟩ := hl.current he
      exact ⟨hlt, hsome⟩

theorem new_add : ∃ k, new.add [97] = some k ∧ k.buf.size = 1 ∧ k.rotateIndex = 0 := by
  obtain ⟨buf, hbuf, hr⟩ := (refines_new initSize).pushBack ([97] : KillText)
  have hcap : (RingBuffer.new initSize : RingBuffer KillText).capacity = 15 := by
    rw [RingBuffer.capacity, RingBuffer.allocSize, RingBuffer.new, List.length_replicate]
    decide
  rw [hcap] at hr
  refine ⟨⟨buf, 0⟩, ?_, hr.shows.size, rfl⟩
  have hbuf' : new.buf.emplaceBack [97] = some buf := hbuf
  rw [KillRing.add, if_neg (List.cons_ne_nil _ _), hbuf']
  rfl

instance : DecidablePred Op.NeedsText
  | .reset | .rotate => .isTrue trivial
  | .add _ | .expand _ => .isFalse id

/-- In a run, `reset` and `rotate` find a text. -/
def findsText : List Op → KillRing → Bool
  | [], _ => true
  | op :: ops, k => (!op.NeedsText || !k.buf.empty) && (k.step op).all (findsText ops)

theorem Reachable.run {k' : KillRing} {ops : List Op} (h : Reachable k)
    (hops : findsText ops k = true) (hrun : k.run ops = some k') : Reachable k' := by
  induction ops generalizing k with
  | nil =>
    cases hrun
    exact h
  | cons op ops ih =>
    rw [findsText, Bool.and_eq_true] at hops
    rw [KillRing.run, List.foldlM_cons] at hrun
    obtain ⟨k₁, hs, hrun⟩ := Option.bind_eq_some_iff.1 hrun
    have hop : op.NeedsText → k.buf.empty = false := fun hneeds => by
      simpa [hneeds] using hops.1
    have hops₁ : findsText ops k₁ = true := by simpa [hs] using hops.2
    exact ih (h.step hop hs) hops₁ hrun

/-- Of five texts, the ring has room for three after a change of its capacity. -/
def smallerRing : List Op :=
  [.add [97], .add [98], .add [99], .add [100], .add [101], .reset, .rotate, .expand 3, .rotate,
    .add [102]]

theorem reachable_current_smallerRing : ∃ k, run smallerRing new = some k ∧ k.buf.size = 3 ∧
    k.rotateIndex < k.buf.size ∧ k.getCurrent = some [101] := by
  have hsome : (run smallerRing new).any
      (fun k => k.buf.size = 3 ∧ k.getCurrent = some [101]) = true := by decide +kernel
  obtain ⟨k, hk, hfacts⟩ := (Option.any_eq_true _ _).1 hsome
  obtain ⟨hsize, hcur⟩ := of_decide_eq_true hfacts
  have hreach : Reachable k := Reachable.new.run (by decide +kernel) hk
  have he : k.buf.empty = false := by rw [RingBuffer.empty, hsize]; rfl
  exact ⟨k, hk, hsize, ((reachable_current.2 k hreach).2 he).1, hcur⟩

/-- An empty ring that is reset gets no index of a text, not even when a text is added. -/
theorem reset_before_add : ∃ k, run [.reset, .add [97]] new = some k ∧ k.buf.size = 1 ∧
    ¬k.rotateIndex < k.buf.size := by
  obtain ⟨k, hk, hsize, -⟩ := new_add
  have hsize0 : new.buf.size = 0 := inv_new.size_eq
  have hrun :
      run [.reset, .add [97]] new = some { k with rotateIndex := new.reset.rotateIndex } := by
    rw [KillRing.add, if_neg (List.cons_ne_nil _ _)] at hk
    obtain ⟨buf, hbuf, rfl⟩ := Option.map_eq_some_iff.1 hk
    have hstep : new.reset.step (.add [97]) = some { new.reset with buf := buf } := by
      rw [KillRing.step, KillRing.add, if_neg (List.cons_ne_nil _ _), reset_buf, hbuf]
      rfl
    rw [run, List.foldlM_cons, KillRing.step, Option.bind_eq_bind, Option.bind_some,
      List.foldlM_cons, hstep]
    rfl
  refine ⟨_, hrun, hsize, ?_⟩
  have hpred : new.reset.rotateIndex = uintSize - 1 := by
    rw [reset_rotateIndex, hsize0, uintPred, if_pos rfl]
  have hk1 : ({ k with rotateIndex := new.reset.rotateIndex } : KillRing).buf.size = 1 := hsize
  have hindex : ({ k with rotateIndex := new.reset.rotateIndex } : KillRing).rotateIndex
      = uintSize - 1 := hpred
  have hbig := uintSize_eq
  rw [hk1, hindex]
  omega

end KillRing

end Arsh.Line
