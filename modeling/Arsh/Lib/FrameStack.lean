import Mathlib.Algebra.Order.BigOperators.Group.List
import Mathlib.Tactic.Common
import Mathlib.Algebra.GroupWithZero.Nat

/-!
# Recursion with a stack of frames

A recursion that is written as a loop over a stack of frames: a step looks at the top frame, and goes
back to the frame below it or pushes a frame for a part of it, from which it comes back to a changed
top frame. There is a limit on the frames. `run_of_below`: the loop does what the recursion does, down
to a depth. `below_traverse`: a frame whose steps go over a list does what is done for each item.
-/

namespace Arsh.FrameStack

variable {F σ ε C : Type*}

inductive Action (F : Type*) where
  | pop
  /-- the top frame, changed, and the one above it -/
  | push (parent child : F)

inductive Stop (ε : Type*) where
  | halt (e : ε)
  /-- too many frames -/
  | overflow
  deriving DecidableEq, Repr

/-- A step may end the run. -/
abbrev StepFun (F σ ε : Type*) := σ → F → Except ε (σ × Action F)

variable (step : StepFun F σ ε)

/-- The loop; `fuel` bounds its steps. -/
def run (limit : Nat) : Nat → σ → List F → Option (Except (Stop ε) σ)
  | 0, _, _ => none
  | _ + 1, s, [] => some (.ok s)
  | fuel + 1, s, f :: fs =>
    match step s f with
    | .error e => some (.error (.halt e))
    | .ok (s, .pop) => run limit fuel s fs
    | .ok (s, .push parent child) =>
      if (child :: parent :: fs).length = limit then some (.error .overflow)
      else run limit fuel s (child :: parent :: fs)

/-- What is left to do when a frame is done. -/
def resume (limit fuel : Nat) (fs : List F) : Except (Stop ε) σ → Option (Except (Stop ε) σ)
  | .ok s => run step limit fuel s fs
  | .error e => some (.error e)

/-! ## The recursion -/

/-- What becomes of a frame within so many steps, when there is room for so many more frames. -/
inductive Eval : Nat → Nat → σ → F → Except (Stop ε) σ → Prop
  | halt {b r : Nat} {s : σ} {f : F} {e : ε} (h : step s f = .error e) :
    Eval (b + 1) r s f (.error (.halt e))
  | pop {b r : Nat} {s s' : σ} {f : F} (h : step s f = .ok (s', .pop)) : Eval (b + 1) r s f (.ok s')
  | overflow {b : Nat} {s s' : σ} {f parent child : F}
    (h : step s f = .ok (s', .push parent child)) : Eval (b + 1) 0 s f (.error .overflow)
  | stop {b c r : Nat} {s s' : σ} {f parent child : F} {e : Stop ε}
    (h : step s f = .ok (s', .push parent child)) (hchild : Eval b r s' child (.error e)) :
    Eval (b + c + 1) (r + 1) s f (.error e)
  | push {b c r : Nat} {s s' t : σ} {f parent child : F} {o : Except (Stop ε) σ}
    (h : step s f = .ok (s', .push parent child)) (hchild : Eval b r s' child (.ok t))
    (hparent : Eval c (r + 1) t parent o) : Eval (b + c + 1) (r + 1) s f o

/-- What becomes of a frame that is pushed when there is room for so many. -/
def Below (b : Nat) : Nat → σ → F → Except (Stop ε) σ → Prop
  | 0, _, _, o => o = .error .overflow
  | r + 1, s, f, o => Eval step b r s f o

variable {step} {limit b r : Nat} {s : σ} {f : F} {o : Except (Stop ε) σ}

theorem Eval.mono (h : Eval step b r s f o) {c : Nat} (hle : b ≤ c) : Eval step c r s f o := by
  obtain ⟨d, rfl⟩ := Nat.exists_eq_add_of_le hle
  induction h generalizing d with
  | @halt b r s f e h => exact Nat.add_right_comm b 1 d ▸ .halt h
  | @pop b r s s' f h => exact Nat.add_right_comm b 1 d ▸ .pop h
  | @overflow b s s' f parent child h => exact Nat.add_right_comm b 1 d ▸ .overflow h
  | @stop b c r s s' f parent child e h hchild _ =>
    rw [Nat.add_right_comm, Nat.add_assoc b c d]
    exact .stop h hchild
  | @push b c r s s' t f parent child o h hchild _ _ ih =>
    rw [Nat.add_right_comm, Nat.add_assoc b c d]
    exact .push h hchild (ih d (Nat.le_add_right _ _))

theorem Below.mono (h : Below step b r s f o) {c : Nat} (hle : b ≤ c) : Below step c r s f o := by
  cases r with
  | zero => exact h
  | succ r => exact Eval.mono h hle

/-- More room changes an overflow only. -/
theorem Eval.more_room (h : Eval step b r s f o) (ho : o ≠ .error .overflow) {q : Nat} (hle : r ≤ q) :
    Eval step b q s f o := by
  induction h generalizing q with
  | halt h => exact .halt h
  | pop h => exact .pop h
  | overflow h => exact absurd rfl ho
  | stop h _ ih =>
    obtain ⟨q, rfl⟩ : ∃ k, q = k + 1 := ⟨q - 1, by omega⟩
    exact .stop h (ih ho (by omega))
  | push h _ _ ihchild ihparent =>
    obtain ⟨q, rfl⟩ : ∃ k, q = k + 1 := ⟨q - 1, by omega⟩
    exact .push h (ihchild nofun (by omega)) (ihparent ho hle)

theorem Below.more_room (h : Below step b r s f o) (ho : o ≠ .error .overflow) {q : Nat}
    (hle : r ≤ q) : Below step b q s f o := by
  cases r with
  | zero => exact absurd h ho
  | succ r =>
    obtain ⟨q, rfl⟩ : ∃ k, q = k + 1 := ⟨q - 1, by omega⟩
    exact Eval.more_room h ho (by omega)

/-- The loop comes back to the frames below, or ends. -/
theorem run_of_eval (h : Eval step b r s f o) {fs : List F} (hroom : fs.length + r + 2 = limit)
    (fuel : Nat) : ∃ left, fuel ≤ left ∧
      run step limit (b + fuel) s (f :: fs) = resume step limit left fs o := by
  induction h generalizing fs fuel with
  | @halt b r s f e h =>
    exact ⟨_, Nat.le_add_left fuel b, by rw [Nat.add_right_comm, run, h]; rfl⟩
  | @pop b r s s' f h =>
    exact ⟨_, Nat.le_add_left fuel b, by rw [Nat.add_right_comm, run, h]; rfl⟩
  | @overflow b s s' f parent child h =>
    refine ⟨_, Nat.le_add_left fuel b, ?_⟩
    rw [Nat.add_right_comm, run, h]
    exact if_pos hroom
  | @stop b c r s s' f parent child e h _ ih =>
    obtain ⟨left, hleft, hrun⟩ := @ih (parent :: fs) (by rw [List.length_cons]; omega) (c + fuel)
    refine ⟨left, by omega, ?_⟩
    rw [Nat.add_right_comm, run, h]
    dsimp only
    rw [if_neg (by simp only [List.length_cons]; omega), Nat.add_assoc, hrun]
    rfl
  | @push b c r s s' t f parent child o h _ _ ihchild ihparent =>
    obtain ⟨left, hleft, hrun⟩ := @ihchild (parent :: fs) (by rw [List.length_cons]; omega) (c + fuel)
    obtain ⟨d, rfl⟩ := Nat.exists_eq_add_of_le hleft
    obtain ⟨left, hleft', hrun'⟩ := @ihparent fs hroom (fuel + d)
    refine ⟨left, by omega, ?_⟩
    rw [Nat.add_right_comm, run, h]
    dsimp only
    rw [if_neg (by simp only [List.length_cons]; omega), Nat.add_assoc, hrun]
    show run step limit (c + fuel + d) t (parent :: fs) = _
    rw [Nat.add_assoc, hrun']

/-- From one frame on, the loop does what the recursion does. -/
theorem run_of_below (h : Below step b (limit + 1) s f o) {fuel : Nat} (hfuel : b < fuel) :
    run step (limit + 2) fuel s [f] = some o := by
  have hroom : ([] : List F).length + limit + 2 = limit + 2 := by rw [List.length_nil, Nat.zero_add]
  obtain ⟨k, rfl⟩ := Nat.exists_eq_add_of_lt hfuel
  obtain ⟨left, hleft, hrun⟩ := run_of_eval h hroom (k + 1)
  obtain ⟨n, rfl⟩ : ∃ n, left = n + 1 := ⟨left - 1, by omega⟩
  rw [Nat.add_assoc, hrun]
  cases o <;> rfl

/-! ## Frames that go over lists -/

/-- Something before each item, what is done for the item, and something at the end. -/
def traverse (pre : C → σ → Except ε σ) (item : C → σ → Except (Stop ε) σ)
    (finish : σ → Except ε σ) : List C → σ → Except (Stop ε) σ
  | [], s => (finish s).mapError .halt
  | c :: cs, s => do
    let s ← (pre c s).mapError .halt
    let s ← item c s
    traverse pre item finish cs s

/-- `P f cs`: the frame has the items `cs` ahead of it. -/
theorem below_traverse {P : F → List C → Prop} {pre : C → σ → Except ε σ} {child : C → F}
    {item : C → σ → Except (Stop ε) σ} {finish : σ → Except ε σ} {cost : C → Nat}
    (hnil : ∀ f s, P f [] → step s f = (finish s).map fun s => (s, .pop))
    (hcons : ∀ f c cs s, P f (c :: cs) → ∃ f', P f' cs ∧
      step s f = (pre c s).map fun s => (s, .push f' (child c)))
    {cs : List C} (hitem : ∀ c ∈ cs, ∀ s, Below step (cost c) r s (child c) (item c s))
    (hf : P f cs) :
    Below step ((cs.map fun c => cost c + 1).sum + 1) (r + 1) s f
      (traverse pre item finish cs s) := by
  show Eval step _ r s f _
  induction cs generalizing f s with
  | nil =>
    have h := hnil f s hf
    unfold traverse
    cases hfinish : finish s with
    | error e => exact .halt (by rw [h, hfinish]; rfl)
    | ok s => exact .pop (by rw [h, hfinish]; rfl)
  | cons c cs ih =>
    obtain ⟨hc, hcs⟩ := List.forall_mem_cons.1 hitem
    obtain ⟨f', hf', h⟩ := hcons f c cs s hf
    have hcost : cost c + ((cs.map fun c => cost c + 1).sum + 1) + 1 =
        ((c :: cs).map fun c => cost c + 1).sum + 1 := by
      rw [List.map_cons, List.sum_cons]
      omega
    rw [← hcost]
    unfold traverse
    cases hpre : pre c s with
    | error e => exact .halt (by rw [h, hpre]; rfl)
    | ok s' =>
      rw [hpre] at h
      have hbelow := hc s'
      show Eval step _ r s f (item c s' >>= traverse pre item finish cs)
      cases r with
      | zero =>
        rw [show item c s' = .error .overflow from hbelow]
        exact .overflow h
      | succ r =>
        have hchild : Eval step (cost c) r s' (child c) (item c s') := hbelow
        cases hdone : item c s' with
        | error e =>
          rw [hdone] at hchild
          exact .stop h hchild
        | ok t =>
          rw [hdone] at hchild
          exact .push h hchild (ih hcs hf')

end Arsh.FrameStack
