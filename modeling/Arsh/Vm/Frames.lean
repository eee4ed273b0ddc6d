import Mathlib.Order.Monotone.Basic
import Arsh.Vm.Stack

/-!
# Frames of the operand stack

A run of the machine as its callers use the stack: a frame that was entered by `wind` pushes no
more operands above its bottom than its code says, or than it reserved; it pops its own operands
only; calls return in the opposite order. `limit` and `calls` record this and are no data of the
program, except for what a call of a native function keeps for `nativeUnwind`.

`resize` may stop at a capacity that is the requested index itself, which is then outside of the
array. A run without such a request (`Sized`) makes no access outside of the array, and whoever
calls gets its frame back.
-/

namespace Arsh.Vm

variable {V : Type}

/-! ## Capacities -/

/-- The capacities that the stack can have. -/
def capacity : Nat → Nat
  | 0 => 64
  | n + 1 => capacity n + capacity n / 2

theorem le_capacity (n : Nat) : 64 ≤ capacity n := by
  induction n with
  | zero => exact Nat.le_refl 64
  | succ n ih => simp only [capacity]; omega

theorem capacity_lt_succ (n : Nat) : capacity n < capacity (n + 1) := by
  have := le_capacity n
  simp only [capacity]
  omega

theorem lt_capacity (n : Nat) : n < capacity n := by
  induction n with
  | zero => exact Nat.zero_lt_succ 63
  | succ n ih =>
    have := capacity_lt_succ n
    omega

instance (size : Nat) : Decidable (∃ n, capacity n = size) :=
  decidable_of_iff (∃ n, n < size ∧ capacity n = size)
    ⟨fun ⟨n, _, hn⟩ => ⟨n, hn⟩, fun ⟨n, hn⟩ => ⟨n, hn ▸ lt_capacity n, hn⟩⟩

namespace VMState

/-- The request is for an index that is itself a capacity to come. -/
def Short (s : VMState V) (add : Nat) : Prop :=
  s.operandsSize < s.top + add ∧ ∃ n, capacity n = s.top + add

/-- A request that `resize` can meet. -/
def Sized (s : VMState V) (add : Nat) : Prop := s.top + add < 2 ^ 31 ∧ ¬ s.Short add

instance (s : VMState V) (add : Nat) : Decidable (s.Sized add) :=
  inferInstanceAs (Decidable (_ ∧ ¬ (_ ∧ _)))

/-- The growth loop ends at the first later capacity that is not below the request. -/
theorem grow_spec {afterSize : Nat} (hlt : afterSize < 2 ^ 31) (rounds : Nat) :
    ∀ k, capacity k ≤ afterSize → afterSize - capacity k < rounds →
      ∃ j, k < j ∧ grow afterSize rounds (capacity k) = some (capacity j) ∧
        afterSize ≤ capacity j ∧ ∀ i, k < i → i < j → capacity i < afterSize := by
  induction rounds with
  | zero =>
    intro k _ h
    omega
  | succ rounds ih =>
    intro k hk h
    have hsucc := capacity_lt_succ k
    have hadd : add32 (capacity k) (capacity k / 2) = capacity (k + 1) := by
      apply add32_of_lt
      unfold word
      omega
    simp only [grow, hadd]
    split
    · next hmore =>
      obtain ⟨j, hj, hgrow, hle, hfirst⟩ := ih (k + 1) (Nat.le_of_lt hmore) (by omega)
      refine ⟨j, by omega, hgrow, hle, fun i hi hij => ?_⟩
      by_cases heq : i = k + 1
      · rw [heq]
        exact hmore
      · exact hfirst i (by omega) hij
    · next hmore => exact ⟨k + 1, by omega, rfl, by omega, fun i hi hij => by omega⟩

/-- Two arrays agree up to an index, and the second is not shorter. -/
def Keeps (s s' : VMState V) (i : Nat) : Prop :=
  s.operandsSize ≤ s'.operandsSize ∧ ∀ j, j ≤ i → s'.operands[j]? = s.operands[j]?

theorem Keeps.refl (s : VMState V) (i : Nat) : Keeps s s i := ⟨Nat.le_refl _, fun _ _ => rfl⟩

theorem Keeps.mono {s s' : VMState V} {i j : Nat} (h : Keeps s s' i) (hj : j ≤ i) :
    Keeps s s' j := ⟨h.1, fun k hk => h.2 k (by omega)⟩

theorem Keeps.trans {s₁ s₂ s₃ : VMState V} {i : Nat} (h : Keeps s₁ s₂ i) (h' : Keeps s₂ s₃ i) :
    Keeps s₁ s₃ i :=
  ⟨Nat.le_trans h.1 h'.1, fun j hj => (h'.2 j hj).trans (h.2 j hj)⟩

/-- After `reserve` the requested index is in the array unless the request was short of it. -/
theorem reserve_spec {s : VMState V} {k add : Nat} (hk : s.operandsSize = capacity k)
    (htop : s.top < s.operandsSize) (hlt : s.top + add < 2 ^ 31) :
    ∃ operands : List (Option V), s.reserve add = some { s with operands := operands } ∧
      (∃ j, operands.length = capacity j) ∧ (s.top + add < operands.length ↔ ¬ s.Short add) ∧
      Keeps s { s with operands := operands } s.top := by
  have hadd : add32 s.top add = s.top + add := add32_of_lt (by unfold word; omega)
  simp only [reserve, hadd]
  split
  · next hroom =>
    refine ⟨s.operands, rfl, ⟨k, hk⟩, iff_of_true hroom ?_, Keeps.refl s _⟩
    intro hshort
    exact Nat.lt_asymm hroom hshort.1
  · next hroom =>
    obtain ⟨j, hj, hgrow, hle, hfirst⟩ :=
      grow_spec hlt word k (by omega) (by unfold word; omega)
    have hmono : StrictMono capacity := strictMono_nat_of_lt_succ capacity_lt_succ
    have hlonger : capacity k < capacity j := hmono hj
    simp only [resize, hk, hgrow, Option.bind_some]
    rw [if_pos (by omega)]
    have hlen : (s.operands.take (s.top + 1) ++
        List.replicate (capacity j - (s.top + 1)) none).length = capacity j := by
      have : s.operands.length = capacity k := hk
      simp only [List.length_append, List.length_take, List.length_replicate]
      omega
    refine ⟨_, rfl, ⟨j, hlen⟩, ?_, ?_, ?_⟩
    · rw [hlen]
      constructor
      · rintro hroom ⟨hshort, n, hn⟩
        -- the loop would have stopped at the capacity that was requested
        have hkn : k < n := hmono.lt_iff_lt.1 (by omega)
        have hnj : n < j := hmono.lt_iff_lt.1 (by omega)
        have := hfirst n hkn hnj
        omega
      · intro hshort
        by_contra hroom'
        have heq : capacity j = s.top + add := by omega
        exact hshort ⟨by omega, j, heq⟩
    · change s.operandsSize ≤ (s.operands.take (s.top + 1) ++
        List.replicate (capacity j - (s.top + 1)) none).length
      rw [hlen, hk]
      exact Nat.le_of_lt hlonger
    · intro i hi
      have hi' : i < s.operands.length := by
        change i < s.operandsSize
        omega
      rw [List.getElem?_append_left (by rw [List.length_take]; omega)]
      rw [List.getElem?_take_of_lt (by omega)]

theorem keeps_set {s s' : VMState V} {i j : Nat} {v : Option V}
    (hs : s'.operands = s.operands.set i v) (hj : j < i) : Keeps s s' j := by
  constructor
  · simp only [operandsSize, hs, List.length_set, Nat.le_refl]
  · intro l hl
    rw [hs, List.getElem?_set_ne (by omega)]

theorem push_spec {s : VMState V} (v : V) (h : s.top + 1 < s.operandsSize)
    (hw : s.top + 1 < word) : s.push v =
      some { s.setTop (s.top + 1) with operands := s.operands.set (s.top + 1) (some v) } := by
  simp only [push, add32_of_lt hw, store]
  exact if_pos h

theorem popNoReturn_spec {s : VMState V} (h : s.top < s.operandsSize) (hw : s.top < word)
    (hpos : 0 < s.top) : s.popNoReturn =
      some { s.setTop (s.top - 1) with operands := s.operands.set s.top none } := by
  simp only [popNoReturn, sub32_of_le hpos hw, store]
  exact if_pos h

theorem pop_spec {s : VMState V} (h : s.top < s.operandsSize) (hw : s.top < word)
    (hpos : 0 < s.top) : s.pop = some (s.operands[s.top]?.join,
      { s.setTop (s.top - 1) with operands := s.operands.set s.top none }) := by
  have hstore : s.pop = s.popNoReturn.map fun s' => (s.operands[s.top]?.join, s') := rfl
  rw [hstore, popNoReturn_spec h hw hpos]
  rfl

/-- Popping until a lower index keeps what is below. -/
theorem popUntil_spec (old n : Nat) : ∀ s : VMState V, s.top < s.operandsSize → s.top < word →
    old ≤ s.top → s.top - old ≤ n →
    ∃ operands, popUntil old n s = some { s.setTop old with operands := operands } ∧
      operands.length = s.operands.length ∧ ∀ j, j ≤ old → operands[j]? = s.operands[j]? := by
  induction n with
  | zero =>
    intro s _ _ hold hn
    have heq : s.top = old := by omega
    subst heq
    exact ⟨s.operands, rfl, rfl, fun _ _ => rfl⟩
  | succ n ih =>
    intro s hsize hw hold hn
    simp only [popUntil]
    split
    · next hmore =>
      rw [popNoReturn_spec hsize hw (by omega), Option.bind_some]
      obtain ⟨operands, hpop, hlen, hkeep⟩ := ih
        { s.setTop (s.top - 1) with operands := s.operands.set s.top none }
        (by simp only [operandsSize, List.length_set]; exact Nat.lt_of_le_of_lt (Nat.sub_le _ _) hsize)
        (Nat.lt_of_le_of_lt (Nat.sub_le _ _) hw) (by change old ≤ s.top - 1; omega)
        (by change s.top - 1 - old ≤ n; omega)
      refine ⟨operands, hpop, by rw [hlen, List.length_set], fun j hj => ?_⟩
      rw [hkeep j hj, List.getElem?_set_ne (by omega)]
    · next hmore =>
      have heq : s.top = old := by omega
      subst heq
      exact ⟨s.operands, rfl, rfl, fun _ _ => rfl⟩

end VMState

/-! ## Runs -/

inductive Op (V : Type) where
  | push (v : V)
  | pop
  | reserve (add : Nat)
  | wind (stackTopOffset paramSize : Nat) (code : ARCode)
  | unwind
  | nativeWind (paramSize : Nat)
  | nativeUnwind
  /-- The instruction pointer moves inside the current code. -/
  | jump (ip : Nat)

/-- A call that has not returned, with the limit of its caller. -/
inductive Call where
  | code (limit : Nat)
  | native (old : VMState.Native) (limit : Nat)
deriving DecidableEq

/-- The stack, the calls that have not returned, and the highest index that the current frame may
push to. -/
structure Machine (V : Type) where
  vm : VMState V := {}
  calls : List Call := []
  limit : Nat := 0
deriving DecidableEq

namespace Machine

/-- One operation; `none` when an access is outside of the array. -/
def step (m : Machine V) : Op V → Option (Machine V)
  | .push v => (m.vm.push v).map fun vm => { m with vm := vm }
  | .pop => m.vm.pop.map fun r => { m with vm := r.2 }
  | .reserve add =>
    (m.vm.reserve add).map fun vm => { m with vm := vm, limit := max m.limit (m.vm.top + add) }
  | .wind stackTopOffset paramSize code =>
    (m.vm.wind stackTopOffset paramSize code).map fun r =>
      if r.1 then ⟨r.2, .code m.limit :: m.calls, r.2.bottom + code.stackDepth⟩
      else { m with vm := r.2 }
  | .unwind =>
    match m.calls with
    | .code limit :: calls => m.vm.unwind.map fun vm => ⟨vm, calls, limit⟩
    | _ => none
  | .nativeWind paramSize =>
    let r := m.vm.nativeWind paramSize
    some ⟨r.2, .native r.1 m.limit :: m.calls, m.limit⟩
  | .nativeUnwind =>
    match m.calls with
    | .native old limit :: calls => (m.vm.nativeUnwind old).map fun vm => ⟨vm, calls, limit⟩
    | _ => none
  | .jump ip => some { m with vm := { m.vm with frame := { m.vm.frame with ip := ip } } }

def exec (m : Machine V) (ops : List (Op V)) : Option (Machine V) := ops.foldlM step m

/-- What the callers of an operation keep to. -/
def Legal (m : Machine V) : Op V → Prop
  | .push _ => m.vm.top < m.limit
  | .pop => m.vm.bottom < m.vm.top
  | .wind stackTopOffset paramSize code =>
    m.vm.bottom + stackTopOffset ≤ m.vm.top ∧ paramSize ≤ code.localVarNum
  | .unwind => ∃ limit calls, m.calls = .code limit :: calls
  | .nativeWind paramSize => m.vm.bottom + paramSize ≤ m.vm.top
  | .nativeUnwind => ∃ old limit calls, m.calls = .native old limit :: calls
  | .reserve _ | .jump _ => True

/-- No request is for an index that is itself a capacity to come. -/
def Sized (m : Machine V) : Op V → Prop
  | .reserve add => m.vm.Sized add
  -- on a full frame table `wind` returns before it reserves
  | .wind _ paramSize code => m.vm.frames.length ≠ maxFrameSize →
    m.vm.Sized (code.localVarNum - paramSize + code.stackDepth)
  | _ => True

/-- Every operation of a run is legal. -/
def Disciplined (m : Machine V) : List (Op V) → Prop
  | [] => True
  | op :: ops => m.Legal op ∧ ∀ m', m.step op = some m' → m'.Disciplined ops

/-- Every request of a run is one that `resize` can meet. -/
def AllSized (m : Machine V) : List (Op V) → Prop
  | [] => True
  | op :: ops => m.Sized op ∧ ∀ m', m.step op = some m' → m'.AllSized ops

instance (m : Machine V) : ∀ op : Op V, Decidable (m.Legal op)
  | .push _ => inferInstanceAs (Decidable (_ < _))
  | .pop => inferInstanceAs (Decidable (_ < _))
  | .reserve _ => .isTrue trivial
  | .wind _ _ _ => inferInstanceAs (Decidable (_ ∧ _))
  | .unwind =>
    match h : m.calls with
    | .code limit :: calls => .isTrue ⟨limit, calls, h⟩
    | .native _ _ :: _ => .isFalse fun ⟨_, _, h'⟩ => nomatch h.symm.trans h'
    | [] => .isFalse fun ⟨_, _, h'⟩ => nomatch h.symm.trans h'
  | .nativeWind _ => inferInstanceAs (Decidable (_ ≤ _))
  | .nativeUnwind =>
    match h : m.calls with
    | .native old limit :: calls => .isTrue ⟨old, limit, calls, h⟩
    | .code _ :: _ => .isFalse fun ⟨_, _, _, h'⟩ => nomatch h.symm.trans h'
    | [] => .isFalse fun ⟨_, _, _, h'⟩ => nomatch h.symm.trans h'
  | .jump _ => .isTrue trivial

instance (m : Machine V) : ∀ op : Op V, Decidable (m.Sized op)
  | .reserve add => inferInstanceAs (Decidable (m.vm.Sized add))
  | .wind _ _ _ => inferInstanceAs (Decidable (_ ≠ _ → _))
  | .push _ | .pop | .unwind | .nativeWind _ | .nativeUnwind | .jump _ => .isTrue trivial

instance decidableDisciplined : ∀ (ops : List (Op V)) (m : Machine V),
    Decidable (m.Disciplined ops)
  | [], _ => .isTrue trivial
  | op :: ops, m =>
    match h : m.step op with
    | none => decidable_of_iff (m.Legal op)
        ⟨fun hl => ⟨hl, fun _ h' => nomatch h.symm.trans h'⟩, fun hl => hl.1⟩
    | some m' =>
      have := decidableDisciplined ops m'
      decidable_of_iff (m.Legal op ∧ m'.Disciplined ops)
        ⟨fun hl => ⟨hl.1, fun _ h' => Option.some.inj (h.symm.trans h') ▸ hl.2⟩,
          fun hl => ⟨hl.1, hl.2 m' h⟩⟩

instance decidableAllSized : ∀ (ops : List (Op V)) (m : Machine V), Decidable (m.AllSized ops)
  | [], _ => .isTrue trivial
  | op :: ops, m =>
    match h : m.step op with
    | none => decidable_of_iff (m.Sized op)
        ⟨fun hl => ⟨hl, fun _ h' => nomatch h.symm.trans h'⟩, fun hl => hl.1⟩
    | some m' =>
      have := decidableAllSized ops m'
      decidable_of_iff (m.Sized op ∧ m'.AllSized ops)
        ⟨fun hl => ⟨hl.1, fun _ h' => Option.some.inj (h.symm.trans h') ▸ hl.2⟩,
          fun hl => ⟨hl.1, hl.2 m' h⟩⟩

/-! ## The invariant -/

/-- What the current frame may push is in the array. -/
structure Room (m : Machine V) : Prop where
  bottom_le : m.vm.bottom ≤ m.vm.top
  top_le : m.vm.top ≤ m.limit
  limit_lt : m.limit < m.vm.operandsSize
  small : m.limit < 2 ^ 31
  size : ∃ k, m.vm.operandsSize = capacity k

/-- Whoever waits has its own operands below the bottom of who it called. -/
inductive Waiting (size : Nat) : Nat → List Call → List ControlFrame → Prop
  | nil {b : Nat} : Waiting size b [] []
  | code {b limit : Nat} {f : ControlFrame} {calls : List Call} {frames : List ControlFrame} :
      f.stackBottomIndex ≤ f.stackTopIndex → f.stackTopIndex ≤ b → f.stackTopIndex ≤ limit →
      limit < size → limit < 2 ^ 31 → Waiting size f.stackBottomIndex calls frames →
      Waiting size b (.code limit :: calls) (f :: frames)
  | native {b limit : Nat} {old : VMState.Native} {calls : List Call}
      {frames : List ControlFrame} :
      old.stackBottomIndex ≤ old.stackTopIndex → old.stackTopIndex ≤ b →
      old.stackTopIndex ≤ limit → limit < size → limit < 2 ^ 31 →
      Waiting size old.stackBottomIndex calls frames →
      Waiting size b (.native old limit :: calls) frames

theorem Waiting.mono {size size' b : Nat} {calls : List Call} {frames : List ControlFrame}
    (h : Waiting size b calls frames) (hsize : size ≤ size') : Waiting size' b calls frames := by
  induction h with
  | nil => exact .nil
  | code h₁ h₂ h₃ h₄ h₅ _ ih => exact .code h₁ h₂ h₃ (Nat.lt_of_lt_of_le h₄ hsize) h₅ ih
  | native h₁ h₂ h₃ h₄ h₅ _ ih => exact .native h₁ h₂ h₃ (Nat.lt_of_lt_of_le h₄ hsize) h₅ ih

structure Inv (m : Machine V) : Prop where
  room : m.Room
  waiting : Waiting m.vm.operandsSize m.vm.bottom m.calls m.vm.frames

theorem inv_init : Inv ({} : Machine V) where
  room := ⟨Nat.le_refl 0, Nat.le_refl 0, Nat.zero_lt_succ 63, Nat.two_pow_pos 31, 0, rfl⟩
  waiting := .nil

/-- `wind` entered a frame. -/
structure Entered (m m' : Machine V) (stackTopOffset : Nat) : Prop where
  own : m.vm.bottom + stackTopOffset ≤ m.vm.top
  calls : m'.calls = .code m.limit :: m.calls
  frames : m'.vm.frames =
    { m.vm.frame with stackTopIndex := m.vm.top - stackTopOffset } :: m.vm.frames
  bottom : m.vm.top ≤ m'.vm.bottom
  room : m'.Room
  keeps : VMState.Keeps m.vm m'.vm m.vm.top

/-- `unwind` went back to the frame `f`. -/
structure Left (m m' : Machine V) (f : ControlFrame) (limit : Nat) : Prop where
  calls : m.calls = .code limit :: m'.calls
  frames : m.vm.frames = f :: m'.vm.frames
  limit_eq : m'.limit = limit
  frame : m'.vm.frame = f
  size : m'.vm.operandsSize = m.vm.operandsSize
  keeps : VMState.Keeps m.vm m'.vm f.stackTopIndex

/-- What an operation can do to the frames. -/
inductive Effect (m m' : Machine V) : Prop
  | stay : m'.calls = m.calls → m'.vm.frames = m.vm.frames → m'.vm.bottom = m.vm.bottom →
      m'.Room → VMState.Keeps m.vm m'.vm m.vm.bottom → Effect m m'
  | enter (stackTopOffset : Nat) : Entered m m' stackTopOffset → Effect m m'
  | leave (f : ControlFrame) (limit : Nat) : Left m m' f limit → Effect m m'
  | enterNative (paramSize : Nat) :
      m.vm.bottom + paramSize ≤ m.vm.top →
      m'.calls = .native ⟨m.vm.top - paramSize, m.vm.bottom, m.vm.frame.localVarOffset⟩ m.limit ::
        m.calls → m'.vm.frames = m.vm.frames → m'.vm.bottom = m.vm.top → m'.Room →
      m'.vm.operands = m.vm.operands → Effect m m'
  | leaveNative (old : VMState.Native) (limit : Nat) (calls : List Call) :
      m.calls = .native old limit :: calls → m'.vm.frames = m.vm.frames → m'.calls = calls →
      m'.limit = limit → m'.vm.top = old.stackTopIndex → m'.vm.bottom = old.stackBottomIndex →
      m'.vm.operandsSize = m.vm.operandsSize → VMState.Keeps m.vm m'.vm old.stackTopIndex →
      Effect m m'

theorem Inv.effect {m m' : Machine V} (h : Inv m) (e : Effect m m') : Inv m' := by
  obtain ⟨hroom, hwait⟩ := h
  cases e with
  | stay hcalls hframes hbottom hroom' hkeep =>
    refine ⟨hroom', ?_⟩
    rw [hcalls, hframes, hbottom]
    exact hwait.mono hkeep.1
  | enter stackTopOffset e =>
    refine ⟨e.room, ?_⟩
    rw [e.calls, e.frames]
    have hoff := e.own
    have hbottom := e.bottom
    have hlt := Nat.lt_of_lt_of_le hroom.limit_lt e.keeps.1
    have hle := hroom.top_le
    exact .code (by change m.vm.bottom ≤ m.vm.top - _; omega)
      (by change m.vm.top - _ ≤ _; omega) (by change m.vm.top - _ ≤ _; omega) hlt hroom.small
      (hwait.mono e.keeps.1)
  | leave f limit e =>
    rw [e.calls, e.frames, ← e.size] at hwait
    cases hwait with
    | code h₁ h₂ h₃ h₄ h₅ h₆ =>
      refine ⟨⟨?_, ?_, ?_, ?_, ?_⟩, ?_⟩
      · simpa only [VMState.bottom, VMState.top, e.frame] using h₁
      · simpa only [VMState.top, e.frame, e.limit_eq] using h₃
      · rw [e.limit_eq]; exact h₄
      · rw [e.limit_eq]; exact h₅
      · rw [e.size]; exact hroom.size
      · simpa only [VMState.bottom, e.frame] using h₆
  | enterNative paramSize hoff hcalls hframes hbottom hroom' hoperands =>
    have hsize : m'.vm.operandsSize = m.vm.operandsSize := by
      simp only [VMState.operandsSize, hoperands]
    have hle := hroom.top_le
    refine ⟨hroom', ?_⟩
    rw [hcalls, hframes, hbottom, hsize]
    exact .native (by change m.vm.bottom ≤ m.vm.top - _; omega)
      (by change m.vm.top - _ ≤ _; omega) (by change m.vm.top - _ ≤ _; omega) hroom.limit_lt
      hroom.small hwait
  | leaveNative old limit calls hcalls hframes hcalls' hlimit htop hbottom hsize hkeep =>
    rw [hcalls, ← hsize] at hwait
    cases hwait with
    | native h₁ h₂ h₃ h₄ h₅ h₆ =>
      refine ⟨⟨?_, ?_, ?_, ?_, ?_⟩, ?_⟩
      · rw [hbottom, htop]; exact h₁
      · rw [htop, hlimit]; exact h₃
      · rw [hlimit]; exact h₄
      · rw [hlimit]; exact h₅
      · rw [hsize]; exact hroom.size
      · rw [hcalls', hframes, hbottom]
        exact h₆

/-! ## One operation -/

theorem Inv.push {m : Machine V} (h : Inv m) (v : V) (hl : m.vm.top < m.limit) :
    ∃ m', m.step (.push v) = some m' ∧ Effect m m' := by
  have hlt := h.room.limit_lt
  have hsmall := h.room.small
  have hbottom := h.room.bottom_le
  have hpush := VMState.push_spec v (by omega : m.vm.top + 1 < m.vm.operandsSize)
    (by unfold word; omega)
  simp only [step, hpush, Option.map_some]
  refine ⟨_, rfl, ?_⟩
  refine .stay rfl rfl rfl ⟨?_, ?_, ?_, hsmall, ?_⟩ (VMState.keeps_set rfl (by omega))
  · exact Nat.le_succ_of_le hbottom
  · exact hl
  · simpa only [VMState.operandsSize, List.length_set] using hlt
  · simpa only [VMState.operandsSize, List.length_set] using h.room.size

theorem Inv.pop {m : Machine V} (h : Inv m) (hl : m.vm.bottom < m.vm.top) :
    ∃ m', m.step .pop = some m' ∧ Effect m m' := by
  have hlt := h.room.limit_lt
  have hsmall := h.room.small
  have htop := h.room.top_le
  have hpop := VMState.pop_spec (by omega : m.vm.top < m.vm.operandsSize)
    (by unfold word; omega) (by omega)
  simp only [step, hpop, Option.map_some]
  refine ⟨_, rfl, ?_⟩
  refine .stay rfl rfl rfl ⟨?_, ?_, ?_, hsmall, ?_⟩ (VMState.keeps_set rfl hl)
  · exact Nat.le_sub_one_of_lt hl
  · exact Nat.le_trans (Nat.sub_le _ _) htop
  · simpa only [VMState.operandsSize, List.length_set] using hlt
  · simpa only [VMState.operandsSize, List.length_set] using h.room.size

theorem Inv.reserve {m : Machine V} (h : Inv m) {add : Nat} (hs : m.vm.Sized add) :
    ∃ m', m.step (.reserve add) = some m' ∧ Effect m m' := by
  have hlt := h.room.limit_lt
  have hsmall := h.room.small
  have htop := h.room.top_le
  have hbottom := h.room.bottom_le
  obtain ⟨k, hk⟩ := h.room.size
  obtain ⟨operands, hreserve, hsize, hroom, hkeep⟩ :=
    VMState.reserve_spec hk (by omega) hs.1
  simp only [step, hreserve, Option.map_some]
  refine ⟨_, rfl, ?_⟩
  refine .stay rfl rfl rfl ⟨hbottom, ?_, ?_, ?_, hsize⟩ (hkeep.mono hbottom)
  · exact Nat.le_trans htop (Nat.le_max_left _ _)
  · exact Nat.max_lt.2 ⟨Nat.lt_of_lt_of_le hlt hkeep.1, hroom.2 hs.2⟩
  · exact Nat.max_lt.2 ⟨hsmall, hs.1⟩

theorem Inv.wind {m : Machine V} (h : Inv m) {stackTopOffset paramSize : Nat} {code : ARCode}
    (hl : m.Legal (.wind stackTopOffset paramSize code))
    (hs : m.Sized (.wind stackTopOffset paramSize code)) :
    ∃ m', m.step (.wind stackTopOffset paramSize code) = some m' ∧
      (m' = m ∨ Entered m m' stackTopOffset) := by
  obtain ⟨hoff, hparam⟩ := hl
  have hlt := h.room.limit_lt
  have hsmall := h.room.small
  have htop := h.room.top_le
  have hvar : sub32 code.localVarNum paramSize = code.localVarNum - paramSize :=
    sub32_of_le hparam (by unfold word; omega)
  have hwinding : VMState.winding paramSize code =
      code.localVarNum - paramSize + code.stackDepth := by
    unfold VMState.winding
    rw [hvar]
    exact add32_of_lt (by unfold word; omega)
  have hsub : sub32 m.vm.top stackTopOffset = m.vm.top - stackTopOffset :=
    sub32_of_le (by omega) (by unfold word; omega)
  simp only [step, VMState.wind, hwinding, hvar, hsub]
  split
  · exact ⟨_, rfl, .inl rfl⟩
  · next hfull =>
    have hs : m.vm.Sized (code.localVarNum - paramSize + code.stackDepth) := hs hfull
    obtain ⟨k, hk⟩ := h.room.size
    -- saving the frame does not change what `reserve` looks at
    let s : VMState V := { m.vm with frames :=
      { m.vm.frame with stackTopIndex := m.vm.top - stackTopOffset } :: m.vm.frames }
    have hs' : s.Sized (code.localVarNum - paramSize + code.stackDepth) := hs
    obtain ⟨operands, hreserve, hsize, hroom, hkeep⟩ :=
      VMState.reserve_spec (s := s) hk (by change m.vm.top < m.vm.operandsSize; omega) hs'.1
    have hnew : add32 m.vm.top (code.localVarNum - paramSize) =
        m.vm.top + (code.localVarNum - paramSize) := by
      apply add32_of_lt
      have := hs.1
      unfold word
      omega
    have hroom' : m.vm.top + (code.localVarNum - paramSize + code.stackDepth) <
      operands.length := hroom.2 hs'.2
    have hsmall' := hs.1
    rw [hreserve]
    refine ⟨_, rfl, .inr ⟨hoff, rfl, rfl, ?_, ⟨?_, ?_, ?_, ?_, hsize⟩, hkeep⟩⟩
    · change m.vm.top ≤ add32 m.vm.top (code.localVarNum - paramSize)
      omega
    · exact Nat.le_refl _
    · exact Nat.le_add_right _ _
    · change add32 m.vm.top (code.localVarNum - paramSize) + code.stackDepth < operands.length
      omega
    · change add32 m.vm.top (code.localVarNum - paramSize) + code.stackDepth < 2 ^ 31
      omega

theorem Inv.unwind {m : Machine V} (h : Inv m) (hl : m.Legal .unwind) :
    ∃ m' f limit, m.step .unwind = some m' ∧ Left m m' f limit := by
  obtain ⟨limit, calls, hcalls⟩ := hl
  have hlt := h.room.limit_lt
  have hsmall := h.room.small
  have htop := h.room.top_le
  have hbottom := h.room.bottom_le
  have hwait := h.waiting
  rw [hcalls] at hwait
  cases hframes : m.vm.frames with
  | nil =>
    rw [hframes] at hwait
    cases hwait
  | cons f frames =>
    rw [hframes] at hwait
    cases hwait with
    | code _ hb _ _ _ _ =>
      let s : VMState V := ⟨{ f with stackTopIndex := m.vm.top }, f :: frames, m.vm.operands⟩
      obtain ⟨operands, hpop, hlen, hkeep⟩ := VMState.popUntil_spec f.stackTopIndex m.vm.top s
        (by change m.vm.top < m.vm.operandsSize; omega)
        (by change m.vm.top < word; unfold word; omega)
        (by change f.stackTopIndex ≤ m.vm.top; omega) (Nat.sub_le _ _)
      simp only [step, hcalls, VMState.unwind, hframes]
      change ∃ m' f' limit', ((VMState.popUntil f.stackTopIndex m.vm.top s).map _).map _ = some m' ∧
        Left m m' f' limit'
      rw [hpop]
      exact ⟨_, f, limit, rfl, hcalls, hframes, rfl, rfl, hlen, Nat.le_of_eq hlen.symm, hkeep⟩

theorem Inv.nativeWind {m : Machine V} (h : Inv m) {paramSize : Nat}
    (hl : m.vm.bottom + paramSize ≤ m.vm.top) :
    ∃ m', m.step (.nativeWind paramSize) = some m' ∧ Effect m m' := by
  have hsmall := h.room.small
  have htop := h.room.top_le
  have hsub : sub32 m.vm.top paramSize = m.vm.top - paramSize :=
    sub32_of_le (by omega) (by unfold word; omega)
  simp only [step, VMState.nativeWind, hsub]
  exact ⟨_, rfl, .enterNative paramSize hl rfl rfl rfl
    ⟨Nat.le_refl _, htop, h.room.limit_lt, hsmall, h.room.size⟩ rfl⟩

theorem Inv.nativeUnwind {m : Machine V} (h : Inv m) (hl : m.Legal .nativeUnwind) :
    ∃ m', m.step .nativeUnwind = some m' ∧ Effect m m' := by
  obtain ⟨old, limit, calls, hcalls⟩ := hl
  have hlt := h.room.limit_lt
  have hsmall := h.room.small
  have htop := h.room.top_le
  have hbottom := h.room.bottom_le
  have hwait := h.waiting
  rw [hcalls] at hwait
  cases hwait with
  | native _ hb _ _ _ _ =>
    obtain ⟨operands, hpop, hlen, hkeep⟩ := VMState.popUntil_spec old.stackTopIndex m.vm.top m.vm
      (by omega) (by unfold word; omega) (by omega) (Nat.sub_le _ _)
    simp only [step, hcalls, VMState.nativeUnwind, hpop, Option.map_some]
    exact ⟨_, rfl, .leaveNative old limit calls hcalls rfl rfl rfl rfl rfl hlen
      ⟨Nat.le_of_eq hlen.symm, hkeep⟩⟩

/-- A legal operation whose request can be met makes no access outside of the array. -/
theorem Inv.step {m : Machine V} (h : Inv m) {op : Op V} (hl : m.Legal op) (hs : m.Sized op) :
    ∃ m', m.step op = some m' ∧ Effect m m' := by
  cases op with
  | push v => exact h.push v hl
  | pop => exact h.pop hl
  | reserve add => exact h.reserve hs
  | wind stackTopOffset paramSize code =>
    obtain ⟨m', hstep, heq | he⟩ := h.wind hl hs
    · subst heq
      exact ⟨m', hstep, .stay rfl rfl rfl h.room (VMState.Keeps.refl _ _)⟩
    · exact ⟨m', hstep, .enter stackTopOffset he⟩
  | unwind =>
    obtain ⟨m', f, limit, hstep, he⟩ := h.unwind hl
    exact ⟨m', hstep, .leave f limit he⟩
  | nativeWind paramSize => exact h.nativeWind hl
  | nativeUnwind => exact h.nativeUnwind hl
  | jump ip =>
    refine ⟨_, rfl, .stay rfl rfl rfl ?_ (VMState.Keeps.refl _ _)⟩
    exact ⟨h.room.bottom_le, h.room.top_le, h.room.limit_lt, h.room.small, h.room.size⟩

/-! ## A call and its return -/

/-- The frame `f` of a caller waits below `b`, with `calls` and `frames` under it. -/
inductive Suspended (f : ControlFrame) (limit : Nat) (calls : List Call)
    (frames : List ControlFrame) : Nat → List Call → List ControlFrame → Prop
  | here {b : Nat} : f.stackTopIndex ≤ b →
      Suspended f limit calls frames b (.code limit :: calls) (f :: frames)
  | code {b l : Nat} {g : ControlFrame} {cs : List Call} {gs : List ControlFrame} :
      g.stackBottomIndex ≤ g.stackTopIndex → g.stackTopIndex ≤ b →
      Suspended f limit calls frames g.stackBottomIndex cs gs →
      Suspended f limit calls frames b (.code l :: cs) (g :: gs)
  | native {b l : Nat} {old : VMState.Native} {cs : List Call} {gs : List ControlFrame} :
      old.stackBottomIndex ≤ old.stackTopIndex → old.stackTopIndex ≤ b →
      Suspended f limit calls frames old.stackBottomIndex cs gs →
      Suspended f limit calls frames b (.native old l :: cs) gs

section
variable {f : ControlFrame} {limit b : Nat} {calls cs : List Call} {frames gs : List ControlFrame}

theorem Suspended.top_le (h : Suspended f limit calls frames b cs gs) : f.stackTopIndex ≤ b := by
  induction h with
  | here hf => exact hf
  | code hg hb _ ih => omega
  | native hg hb _ ih => omega

theorem Suspended.length (h : Suspended f limit calls frames b cs gs) :
    calls.length < cs.length := by
  induction h with
  | here _ => exact Nat.lt_succ_self _
  | code _ _ _ ih => exact Nat.lt_succ_of_lt ih
  | native _ _ _ ih => exact Nat.lt_succ_of_lt ih

/-- While the call has not returned its frame is the next to be restored or waits further below. -/
theorem Suspended.of_length (h : Suspended f limit calls frames b cs gs)
    (hlen : cs.length = calls.length + 1) : cs = .code limit :: calls ∧ gs = f :: frames := by
  cases h with
  | here _ => exact ⟨rfl, rfl⟩
  | code _ _ h =>
    have := h.length
    simp only [List.length_cons] at hlen
    omega
  | native _ _ h =>
    have := h.length
    simp only [List.length_cons] at hlen
    omega

/-- An operation that does not return from the call keeps the frame of the caller, and the operands
that it has below. -/
theorem Suspended.effect {m m' : Machine V}
    (h : Suspended f limit calls frames m.vm.bottom m.calls m.vm.frames) (hinv : Inv m)
    (e : Effect m m') (hlen : calls.length < m'.calls.length) :
    Suspended f limit calls frames m'.vm.bottom m'.calls m'.vm.frames ∧
      VMState.Keeps m.vm m'.vm f.stackTopIndex := by
  have hle := h.top_le
  have hbottom := hinv.room.bottom_le
  cases e with
  | stay hcalls hframes hbottom' _ hkeep =>
    rw [hcalls, hframes, hbottom']
    exact ⟨h, hkeep.mono hle⟩
  | enter stackTopOffset e =>
    have hoff := e.own
    have hbottom' := e.bottom
    rw [e.calls, e.frames]
    exact ⟨.code (by change m.vm.bottom ≤ m.vm.top - _; omega)
      (by change m.vm.top - _ ≤ _; omega) h, e.keeps.mono (by omega)⟩
  | leave g l e =>
    rw [e.calls, e.frames] at h
    cases hcs : m'.calls with
    | nil =>
      rw [hcs] at hlen
      exact absurd hlen (Nat.not_lt_zero _)
    | cons c cs =>
      rw [hcs] at h hlen
      cases h with
      | here => exact absurd hlen (Nat.lt_irrefl _)
      | code hg hb h =>
        have hfg := h.top_le
        simp only [VMState.bottom, e.frame]
        exact ⟨h, e.keeps.mono (by omega)⟩
  | enterNative paramSize hoff hcalls hframes hbottom' _ hoperands =>
    rw [hcalls, hframes, hbottom']
    refine ⟨.native (by change m.vm.bottom ≤ m.vm.top - _; omega)
      (by change m.vm.top - _ ≤ _; omega) h, ?_, ?_⟩
    · exact Nat.le_of_eq (congrArg List.length hoperands.symm)
    · intro j _
      rw [hoperands]
  | leaveNative old l cs hcalls hframes hcalls' _ htop hbottom' hsize hkeep =>
    rw [hcalls] at h
    rw [hcalls', hframes, hbottom'] at *
    cases h with
    | native hg hb h =>
      have hfg := h.top_le
      exact ⟨h, hkeep.mono (by omega)⟩

end

/-- The operations between a call and its return: the calls are never fewer than `depth`, and in the
end as many. -/
def Matched (depth : Nat) (m : Machine V) : List (Op V) → Prop
  | [] => m.calls.length = depth
  | op :: ops => ∀ m', m.step op = some m' → depth ≤ m'.calls.length ∧ m'.Matched depth ops

/-- The caller has its frame back, with the arguments of the call gone. -/
structure Restored (s s' : VMState V) (stackTopOffset : Nat) : Prop where
  code : s'.frame.code = s.frame.code
  ip : s'.frame.ip = s.frame.ip
  bottom : s'.bottom = s.bottom
  localVarOffset : s'.frame.localVarOffset = s.frame.localVarOffset
  top : s'.top + stackTopOffset = s.top
  frames : s'.frames = s.frames
  operands : ∀ i, i ≤ s'.top → s'.operands[i]? = s.operands[i]?

theorem exec_cons (m : Machine V) (op : Op V) (ops : List (Op V)) :
    m.exec (op :: ops) = (m.step op).bind fun m' => m'.exec ops := List.foldlM_cons

/-- A run keeps the invariant, and is never stopped by an access outside of the array. -/
theorem Inv.exec (ops : List (Op V)) : ∀ m : Machine V, Inv m → m.Disciplined ops →
    m.AllSized ops → ∃ m', m.exec ops = some m' ∧ Inv m' := by
  induction ops with
  | nil =>
    intro m h _ _
    exact ⟨m, rfl, h⟩
  | cons op ops ih =>
    intro m h hl hs
    obtain ⟨m₁, hstep, heffect⟩ := h.step hl.1 hs.1
    obtain ⟨m', hexec, h'⟩ := ih m₁ (h.effect heffect) (hl.2 m₁ hstep) (hs.2 m₁ hstep)
    exact ⟨m', by rw [exec_cons, hstep]; exact hexec, h'⟩

/-- What comes later in a run is legal, and its requests can be met. -/
theorem Disciplined.append {xs ys : List (Op V)} : ∀ {m m' : Machine V},
    m.Disciplined (xs ++ ys) → m.AllSized (xs ++ ys) → m.exec xs = some m' →
    (m.Disciplined xs ∧ m.AllSized xs) ∧ m'.Disciplined ys ∧ m'.AllSized ys := by
  induction xs with
  | nil =>
    intro m m' hl hs h
    cases h
    exact ⟨⟨trivial, trivial⟩, hl, hs⟩
  | cons op xs ih =>
    intro m m' hl hs h
    rw [exec_cons] at h
    obtain ⟨m₁, hstep, h⟩ := Option.bind_eq_some_iff.1 h
    have ih' := ih (hl.2 m₁ hstep) (hs.2 m₁ hstep) h
    refine ⟨⟨⟨hl.1, fun m₂ h₂ => ?_⟩, hs.1, fun m₂ h₂ => ?_⟩, ih'.2⟩
    · cases hstep.symm.trans h₂
      exact ih'.1.1
    · cases hstep.symm.trans h₂
      exact ih'.1.2

/-- Up to the return of a call the frame of the caller waits. -/
theorem Suspended.exec {f : ControlFrame} {limit : Nat} {calls : List Call}
    {frames : List ControlFrame} (ops : List (Op V)) : ∀ m : Machine V, Inv m →
    Suspended f limit calls frames m.vm.bottom m.calls m.vm.frames → m.Disciplined ops →
    m.AllSized ops → m.Matched (calls.length + 1) ops → ∀ m', m.exec ops = some m' →
    m'.calls = .code limit :: calls ∧ m'.vm.frames = f :: frames ∧ Inv m' ∧
      VMState.Keeps m.vm m'.vm f.stackTopIndex := by
  induction ops with
  | nil =>
    intro m h hsus _ _ hmatched m' hexec
    cases hexec
    obtain ⟨hcalls, hframes⟩ := hsus.of_length hmatched
    exact ⟨hcalls, hframes, h, VMState.Keeps.refl _ _⟩
  | cons op ops ih =>
    intro m h hsus hl hs hmatched m' hexec
    obtain ⟨m₁, hstep, heffect⟩ := h.step hl.1 hs.1
    obtain ⟨hdepth, hmatched⟩ := hmatched m₁ hstep
    obtain ⟨hsus, hkeep⟩ := hsus.effect h heffect hdepth
    rw [exec_cons, hstep] at hexec
    obtain ⟨hcalls, hframes, h', hkeep'⟩ :=
      ih m₁ (h.effect heffect) hsus (hl.2 m₁ hstep) (hs.2 m₁ hstep) hmatched m' hexec
    exact ⟨hcalls, hframes, h', hkeep.trans hkeep'⟩

/-- `wind`, the callee, and the matching `unwind`. -/
theorem Inv.call {m m₁ m₂ m₃ : Machine V} (h : Inv m) {stackTopOffset paramSize : Nat}
    {code : ARCode} {inside : List (Op V)}
    (hl : m.Disciplined (.wind stackTopOffset paramSize code :: inside))
    (hs : m.AllSized (.wind stackTopOffset paramSize code :: inside))
    (hwind : m.step (.wind stackTopOffset paramSize code) = some m₁)
    (hentered : m₁.calls.length = m.calls.length + 1)
    (hmatched : m₁.Matched m₁.calls.length inside) (hinside : m₁.exec inside = some m₂)
    (hunwind : m₂.step .unwind = some m₃) : Restored m.vm m₃.vm stackTopOffset := by
  obtain ⟨m', hstep, heq | he⟩ := h.wind hl.1 hs.1
  · cases hstep.symm.trans hwind
    rw [heq] at hentered
    exact absurd hentered (Nat.ne_of_lt (Nat.lt_succ_self _))
  · cases hstep.symm.trans hwind
    have hoff := he.own
    have hbottom := he.bottom
    have hsus : Suspended { m.vm.frame with stackTopIndex := m.vm.top - stackTopOffset } m.limit
        m.calls m.vm.frames m₁.vm.bottom m₁.calls m₁.vm.frames := by
      rw [he.calls, he.frames]
      exact .here (by change m.vm.top - stackTopOffset ≤ _; omega)
    rw [hentered] at hmatched
    obtain ⟨hcalls, hframes, h₂, hkeep⟩ := hsus.exec inside m₁
      (h.effect (.enter stackTopOffset he)) (hl.2 m₁ hwind) (hs.2 m₁ hwind) hmatched m₂ hinside
    obtain ⟨m', f, limit, hstep, e⟩ := h₂.unwind ⟨_, _, hcalls⟩
    cases hstep.symm.trans hunwind
    have hf := hframes.symm.trans e.frames
    rw [List.cons.injEq] at hf
    obtain ⟨hf, hrest⟩ := hf
    have hframe : m₃.vm.frame =
        { m.vm.frame with stackTopIndex := m.vm.top - stackTopOffset } := e.frame.trans hf.symm
    have htop : m₃.vm.top = m.vm.top - stackTopOffset := congrArg (·.stackTopIndex) hframe
    refine ⟨?_, ?_, ?_, ?_, ?_, hrest.symm, fun i hi => ?_⟩
    · rw [hframe]
    · rw [hframe]
    · simp only [VMState.bottom, hframe]
    · rw [hframe]
    · omega
    · have hi' : i ≤ f.stackTopIndex := by
        rw [← hf]
        change i ≤ m.vm.top - stackTopOffset
        omega
      rw [e.keeps.2 i hi']
      rw [hkeep.2 i (by change i ≤ m.vm.top - stackTopOffset; omega)]
      exact he.keeps.2 i (by omega)

/-- A call in a run, from before its `wind` to after the matching `unwind`. -/
inductive CallIn (ops : List (Op V)) (stackTopOffset : Nat) (m m' : Machine V) : Prop
  | mk (before inside after : List (Op V)) (paramSize : Nat) (code : ARCode)
      (m₁ m₂ : Machine V) :
      ops = before ++ .wind stackTopOffset paramSize code :: (inside ++ .unwind :: after) →
      exec {} before = some m → m.step (.wind stackTopOffset paramSize code) = some m₁ →
      m₁.calls.length = m.calls.length + 1 → m₁.Matched m₁.calls.length inside →
      m₁.exec inside = some m₂ → m₂.step .unwind = some m' → CallIn ops stackTopOffset m m'

/-- A run whose requests can all be met makes no access outside of the array, and every call gives
the caller its frame back. -/
theorem exec_safe (ops : List (Op V)) (hl : Disciplined {} ops) (hs : AllSized {} ops) :
    (∃ m, exec {} ops = some m ∧ m.vm.top < m.vm.operandsSize) ∧
      ∀ stackTopOffset m m', CallIn ops stackTopOffset m m' →
        Restored m.vm m'.vm stackTopOffset := by
  constructor
  · obtain ⟨m, hexec, h⟩ := inv_init.exec ops _ hl hs
    exact ⟨m, hexec, Nat.lt_of_le_of_lt h.room.top_le h.room.limit_lt⟩
  · rintro stackTopOffset m m' ⟨before, inside, after, paramSize, code, m₁, m₂, hops, hbefore,
      hwind, hentered, hmatched, hinside, hunwind⟩
    subst hops
    obtain ⟨⟨hlb, hsb⟩, hl', hs'⟩ := Disciplined.append hl hs hbefore
    obtain ⟨m₀, hexec, h⟩ := inv_init.exec before _ hlb hsb
    cases hexec.symm.trans hbefore
    rw [← List.cons_append] at hl' hs'
    have hcall : m.exec (.wind stackTopOffset paramSize code :: inside) = some m₂ := by
      rw [exec_cons, hwind]
      exact hinside
    obtain ⟨⟨hlc, hsc⟩, -⟩ := Disciplined.append hl' hs' hcall
    exact h.call hlc hsc hwind hentered hmatched hinside hunwind

/-- A frame with two variables calls a function of one parameter. -/
theorem exec_safe_call :
    (∃ m, exec {} [.wind 0 0 ⟨2, 3, 100⟩, .push 7, .push 8, .wind 1 1 ⟨1, 1, 200⟩, .push 9,
        .unwind] = some m ∧ m.vm.top < m.vm.operandsSize) ∧
      ∀ stackTopOffset m m', CallIn [.wind 0 0 ⟨2, 3, 100⟩, .push 7, .push 8,
        .wind 1 1 ⟨1, 1, 200⟩, .push 9, .unwind] stackTopOffset m m' →
        Restored m.vm m'.vm stackTopOffset :=
  exec_safe _ (by decide) (by decide)

/-- Code with 95 variables and one operand: `resize` stops at the capacity 96, and the operand is
written to the index 96. -/
theorem exec_capacity : Disciplined {} [.wind 0 0 ⟨95, 1, 0⟩, .push ()] ∧
    exec {} [.wind 0 0 ⟨95, 1, 0⟩, .push ()] = none := by
  decide

end Machine

end Arsh.Vm
