import Mathlib.Data.List.Basic
import Mathlib.Tactic.Common

/-!
# ECMAScript pattern semantics

The matchers of the ECMAScript specification in continuation-passing style: a matcher takes a
state (the position reached and the captures so far) and a continuation, and tries its ways to
match in order of priority until the continuation succeeds. The text is a list of characters of
any type.

Every matcher has a list of outcomes, the states it hands to its continuation in order
(`Represents`); lists are what the proofs work with.
-/

namespace Arsh.Es

/-- The position reached and the captured spans. -/
@[ext]
structure State where
  endIndex : Nat
  captures : Nat → Option (Nat × Nat)

abbrev Cont := State → Option State

abbrev Matcher := State → Cont → Option State

abbrev Outcomes := State → List State

/-- The matcher tries the outcomes in order. -/
def Represents (m : Matcher) (o : Outcomes) : Prop := ∀ x k, m x k = (o x).findSome? k

/-- The state before any group has matched. -/
def State.init (i : Nat) : State := ⟨i, fun _ => none⟩

/-- The state with the captures of the groups `parens` undefined. -/
def State.reset (x : State) (parens : List Nat) : State :=
  { x with captures := fun g => if g ∈ parens then none else x.captures g }

/-! ## Characters and assertions -/

section
variable {α : Type} (text : List α)

/-- The position after the next character, if it passes the test. -/
def step (forward : Bool) (test : α → Bool) (i : Nat) : Option Nat :=
  if forward then
    match text[i]? with
    | some a => if test a then some (i + 1) else none
    | none => none
  else
    match i with
    | 0 => none
    | i + 1 =>
      match text[i]? with
      | some a => if test a then some i else none
      | none => none

/-- The `len` characters from `s` on are the same as those from `g` on. -/
def copies (same : α → α → Bool) (s g len : Nat) : Bool :=
  (List.range len).all fun i =>
    match text[s + i]?, text[g + i]? with
    | some a, some b => same a b
    | _, _ => false

/-- `BackreferenceMatcher`: the position after a copy of the first defined capture of `groups`. -/
def backStep (forward : Bool) (same : α → α → Bool) (groups : List Nat) (x : State) : Option Nat :=
  match groups.findSome? x.captures with
  | none => some x.endIndex
  | some (s, e) =>
    let len := e - s
    if forward then
      if x.endIndex + len ≤ text.length && copies text same s x.endIndex len then
        some (x.endIndex + len)
      else none
    else if len ≤ x.endIndex && copies text same s (x.endIndex - len) len then
      some (x.endIndex - len)
    else none

end

/-- A matcher with at most one outcome that leaves the captures alone. -/
def move (f : State → Option Nat) : Matcher := fun x k =>
  match f x with
  | some i => k { x with endIndex := i }
  | none => none

def moveOutcomes (f : State → Option Nat) : Outcomes := fun x =>
  match f x with
  | some i => [{ x with endIndex := i }]
  | none => []

theorem represents_move (f : State → Option Nat) : Represents (move f) (moveOutcomes f) := by
  intro x k
  unfold move moveOutcomes
  cases f x with
  | none => rfl
  | some i => simp

/-! ## Combination -/

/-- The empty pattern. -/
def empty : Matcher := fun x k => k x

theorem represents_empty : Represents empty fun x => [x] := by
  intro x k
  simp [empty]

/-- First `m₁`, then `m₂`. -/
def seq (m₁ m₂ : Matcher) : Matcher := fun x k => m₁ x fun y => m₂ y k

theorem findSome?_flatMap {α β γ : Type} (xs : List α) (f : α → List β) (k : β → Option γ) :
    (xs.flatMap f).findSome? k = xs.findSome? fun a => (f a).findSome? k := by
  induction xs with
  | nil => rfl
  | cons a xs ih =>
    rw [List.flatMap_cons, List.findSome?_append, List.findSome?_cons, ih]
    cases (f a).findSome? k <;> rfl

theorem represents_seq {m₁ m₂ : Matcher} {o₁ o₂ : Outcomes} (h₁ : Represents m₁ o₁)
    (h₂ : Represents m₂ o₂) : Represents (seq m₁ m₂) fun x => (o₁ x).flatMap o₂ := by
  intro x k
  rw [seq, h₁, findSome?_flatMap]
  exact congrArg (fun f => (o₁ x).findSome? f) (funext fun y => h₂ y k)

/-- `m₁`, or else `m₂`. -/
def alt (m₁ m₂ : Matcher) : Matcher := fun x k => (m₁ x k).or (m₂ x k)

theorem represents_alt {m₁ m₂ : Matcher} {o₁ o₂ : Outcomes} (h₁ : Represents m₁ o₁)
    (h₂ : Represents m₂ o₂) : Represents (alt m₁ m₂) fun x => o₁ x ++ o₂ x := by
  intro x k
  rw [alt, h₁, h₂, List.findSome?_append]

/-- The end of a capture group that began at `s`. -/
def State.close (forward : Bool) (index s : Nat) (y : State) : State :=
  { y with
    captures := Function.update y.captures index
      (some (if forward then (s, y.endIndex) else (y.endIndex, s))) }

/-- A capture group. -/
def group (forward : Bool) (index : Nat) (m : Matcher) : Matcher := fun x k =>
  m x fun y => k (y.close forward index x.endIndex)

def groupOutcomes (forward : Bool) (index : Nat) (o : Outcomes) : Outcomes := fun x =>
  (o x).map fun y => y.close forward index x.endIndex

theorem represents_group {forward : Bool} {index : Nat} {m : Matcher} {o : Outcomes}
    (h : Represents m o) :
    Represents (group forward index m) (groupOutcomes forward index o) := by
  intro x k
  rw [group, h, groupOutcomes, List.findSome?_map]
  rfl

/-- A positive or negative look-around. -/
def lookAround (negate : Bool) (m : Matcher) : Matcher := fun x k =>
  match m x some with
  | some y => if negate then none else k { x with captures := y.captures }
  | none => if negate then k x else none

def lookAroundOutcomes (negate : Bool) (o : Outcomes) : Outcomes := fun x =>
  match o x with
  | y :: _ => if negate then [] else [{ x with captures := y.captures }]
  | [] => if negate then [x] else []

theorem represents_lookAround {negate : Bool} {m : Matcher} {o : Outcomes} (h : Represents m o) :
    Represents (lookAround negate m) (lookAroundOutcomes negate o) := by
  intro x k
  unfold lookAround lookAroundOutcomes
  rw [h]
  cases o x with
  | nil => cases negate <;> simp
  | cons y ys => cases negate <;> simp

/-- `RepeatMatcher`: at least `min` and at most `max` rounds are left. A round that is not
required must move the position, so `fuel` only has to be larger than `min` and the size of the
text (`repeatOutcomes_fuel`). -/
def repeated (greedy : Bool) (parens : List Nat) (m : Matcher) :
    Nat → Nat → Option Nat → Matcher
  | 0, _, _, _, _ => none
  | fuel + 1, min, max, x, k =>
    if max = some 0 then k x
    else
      let d : Cont := fun y =>
        if min = 0 ∧ y.endIndex = x.endIndex then none
        else repeated greedy parens m fuel (min - 1) (max.map (· - 1)) y k
      if min ≠ 0 then m (x.reset parens) d
      else if greedy then (m (x.reset parens) d).or (k x)
      else (k x).or (m (x.reset parens) d)

def repeatOutcomes (greedy : Bool) (parens : List Nat) (o : Outcomes) :
    Nat → Nat → Option Nat → Outcomes
  | 0, _, _, _ => []
  | fuel + 1, min, max, x =>
    if max = some 0 then [x]
    else
      let rounds := (o (x.reset parens)).flatMap fun y =>
        if min = 0 ∧ y.endIndex = x.endIndex then []
        else repeatOutcomes greedy parens o fuel (min - 1) (max.map (· - 1)) y
      if min ≠ 0 then rounds
      else if greedy then rounds ++ [x]
      else x :: rounds

theorem represents_repeated {greedy : Bool} {parens : List Nat} {m : Matcher} {o : Outcomes}
    (h : Represents m o) (fuel min : Nat) (max : Option Nat) :
    Represents (repeated greedy parens m fuel min max)
      (repeatOutcomes greedy parens o fuel min max) := by
  induction fuel generalizing min max with
  | zero => exact fun x k => rfl
  | succ fuel ih =>
    intro x k
    rw [repeated, repeatOutcomes]
    split
    · simp
    · have hrounds : (m (x.reset parens) fun y =>
          if min = 0 ∧ y.endIndex = x.endIndex then none
          else repeated greedy parens m fuel (min - 1) (max.map (· - 1)) y k) =
          ((o (x.reset parens)).flatMap fun y =>
            if min = 0 ∧ y.endIndex = x.endIndex then []
            else repeatOutcomes greedy parens o fuel (min - 1) (max.map (· - 1)) y).findSome? k := by
        rw [h, findSome?_flatMap]
        refine congrArg (fun f => (o (x.reset parens)).findSome? f) (funext fun y => ?_)
        split
        · rfl
        · exact ih _ _ y k
      simp only [hrounds]
      split
      · rfl
      · split
        · rw [List.findSome?_append]
          simp
        · rw [List.findSome?_cons]
          cases k x <;> simp

/-! ## Bounds -/

/-- `j` is not behind `i` in the direction of matching. -/
def Ahead (forward : Bool) (i j : Nat) : Prop := if forward then i ≤ j else j ≤ i

theorem Ahead.refl (forward : Bool) (i : Nat) : Ahead forward i i := by
  cases forward <;> exact Nat.le_refl i

theorem Ahead.trans {forward : Bool} {i j k : Nat} (h : Ahead forward i j)
    (h' : Ahead forward j k) : Ahead forward i k := by
  cases forward
  · exact Nat.le_trans h' h
  · exact Nat.le_trans h h'

/-- The characters left in the direction of matching. -/
def left (n : Nat) (forward : Bool) (i : Nat) : Nat := if forward then n - i else i

theorem left_le {n i j : Nat} {forward : Bool} (h : Ahead forward i j) :
    left n forward j ≤ left n forward i := by
  cases forward with
  | true => exact Nat.sub_le_sub_left h n
  | false => exact h

theorem left_lt {n i j : Nat} {forward : Bool} (hj : j ≤ n) (h : Ahead forward i j) (hne : j ≠ i) :
    left n forward j < left n forward i := by
  cases forward with
  | true =>
    have : i ≤ j := h
    show n - j < n - i
    omega
  | false => exact Nat.lt_of_le_of_ne h hne

theorem left_le_length {n i : Nat} (forward : Bool) (h : i ≤ n) : left n forward i ≤ n := by
  cases forward with
  | true => exact Nat.sub_le n i
  | false => exact h

/-- In a text of `n` characters the outcomes stay inside the text and do not go back. -/
def Bounded (n : Nat) (forward : Bool) (o : Outcomes) : Prop :=
  ∀ x, x.endIndex ≤ n → ∀ y ∈ o x, y.endIndex ≤ n ∧ Ahead forward x.endIndex y.endIndex

section
variable {n : Nat} {forward : Bool} {o o₁ o₂ : Outcomes}

theorem bounded_empty : Bounded n forward fun x => [x] := by
  intro x hx y hy
  rw [List.mem_singleton.1 hy]
  exact ⟨hx, .refl _ _⟩

theorem bounded_move {f : State → Option Nat}
    (h : ∀ x i, x.endIndex ≤ n → f x = some i → i ≤ n ∧ Ahead forward x.endIndex i) :
    Bounded n forward (moveOutcomes f) := by
  intro x hx y hy
  unfold moveOutcomes at hy
  split at hy
  · next i hi =>
    rw [List.mem_singleton.1 hy]
    exact h x i hx hi
  · cases hy

theorem bounded_step {α : Type} {text : List α} {test : α → Bool} :
    Bounded text.length forward (moveOutcomes fun x => step text forward test x.endIndex) := by
  apply bounded_move
  intro x i hx h
  unfold step at h
  split at h
  · next hf =>
    subst hf
    split at h
    · next a ha =>
      split at h
      · cases h
        have := (List.getElem?_eq_some_iff.1 ha).1
        exact ⟨this, Nat.le_succ _⟩
      · cases h
    · cases h
  · next hf =>
    rw [Bool.not_eq_true] at hf
    subst hf
    split at h
    · cases h
    · next j hj =>
      split at h
      · split at h
        · cases h
          rw [hj]
          exact ⟨by omega, Nat.le_succ _⟩
        · cases h
      · cases h

theorem bounded_backStep {α : Type} {text : List α} {same : α → α → Bool} {groups : List Nat} :
    Bounded text.length forward (moveOutcomes (backStep text forward same groups)) := by
  apply bounded_move
  intro x i hx h
  unfold backStep at h
  split at h
  · cases h
    exact ⟨hx, .refl _ _⟩
  · simp only at h
    split at h
    · next hf =>
      subst hf
      split at h
      · next hc =>
        cases h
        simp only [Bool.and_eq_true, decide_eq_true_eq] at hc
        exact ⟨hc.1, Nat.le_add_right _ _⟩
      · cases h
    · next hf =>
      rw [Bool.not_eq_true] at hf
      subst hf
      split at h
      · cases h
        exact ⟨Nat.le_trans (Nat.sub_le _ _) hx, Nat.sub_le _ _⟩
      · cases h

theorem bounded_seq (h₁ : Bounded n forward o₁) (h₂ : Bounded n forward o₂) :
    Bounded n forward fun x => (o₁ x).flatMap o₂ := by
  intro x hx z hz
  obtain ⟨y, hy, hz⟩ := List.mem_flatMap.1 hz
  obtain ⟨h, ha⟩ := h₁ x hx y hy
  obtain ⟨h', ha'⟩ := h₂ y h z hz
  exact ⟨h', ha.trans ha'⟩

theorem bounded_alt (h₁ : Bounded n forward o₁) (h₂ : Bounded n forward o₂) :
    Bounded n forward fun x => o₁ x ++ o₂ x := by
  intro x hx y hy
  rcases List.mem_append.1 hy with hy | hy
  · exact h₁ x hx y hy
  · exact h₂ x hx y hy

theorem bounded_group {index : Nat} (h : Bounded n forward o) :
    Bounded n forward (groupOutcomes forward index o) := by
  intro x hx z hz
  obtain ⟨y, hy, rfl⟩ := List.mem_map.1 hz
  exact h x hx y hy

theorem bounded_lookAround {negate : Bool} : Bounded n forward (lookAroundOutcomes negate o) := by
  intro x hx y hy
  unfold lookAroundOutcomes at hy
  split at hy
  · split at hy
    · cases hy
    · rw [List.mem_singleton.1 hy]
      exact ⟨hx, .refl _ _⟩
  · split at hy
    · rw [List.mem_singleton.1 hy]
      exact ⟨hx, .refl _ _⟩
    · cases hy

theorem bounded_repeat {greedy : Bool} {parens : List Nat} (h : Bounded n forward o)
    (fuel min : Nat) (max : Option Nat) :
    Bounded n forward (repeatOutcomes greedy parens o fuel min max) := by
  induction fuel generalizing min max with
  | zero => exact fun x _ y hy => by cases hy
  | succ fuel ih =>
    intro x hx
    have hrounds : ∀ z ∈ (o (x.reset parens)).flatMap fun y =>
        if min = 0 ∧ y.endIndex = x.endIndex then []
        else repeatOutcomes greedy parens o fuel (min - 1) (max.map (· - 1)) y,
        z.endIndex ≤ n ∧ Ahead forward x.endIndex z.endIndex := by
      intro z hz
      obtain ⟨y, hy, hz⟩ := List.mem_flatMap.1 hz
      obtain ⟨hyn, ha⟩ := h (x.reset parens) hx y hy
      split at hz
      · cases hz
      · obtain ⟨hzn, ha'⟩ := ih _ _ y hyn z hz
        exact ⟨hzn, ha.trans ha'⟩
    have hself : x.endIndex ≤ n ∧ Ahead forward x.endIndex x.endIndex := ⟨hx, .refl _ _⟩
    intro z hz
    rw [repeatOutcomes] at hz
    split at hz
    · rw [List.mem_singleton.1 hz]
      exact hself
    · split at hz
      · exact hrounds z hz
      split at hz
      · rcases List.mem_append.1 hz with hz | hz
        · exact hrounds z hz
        · rw [List.mem_singleton.1 hz]
          exact hself
      · rcases List.mem_cons.1 hz with rfl | hz
        · exact hself
        · exact hrounds z hz

/-- Enough fuel for the rounds left: the required ones, and one for every character. -/
def Fuel (n : Nat) (forward : Bool) (fuel min i : Nat) : Prop := min + left n forward i + 1 ≤ fuel

theorem Fuel.next {fuel min i j : Nat} (h : Fuel n forward (fuel + 1) min i) (hj : j ≤ n)
    (ha : Ahead forward i j) (hne : ¬ (min = 0 ∧ j = i)) : Fuel n forward fuel (min - 1) j := by
  unfold Fuel at *
  have hle := left_le (n := n) ha
  by_cases hm : min = 0
  · have := left_lt hj ha fun e => hne ⟨hm, e⟩
    omega
  · omega

/-- More fuel makes no difference. -/
theorem repeatOutcomes_fuel {greedy : Bool} {parens : List Nat} (h : Bounded n forward o)
    {fuel fuel' min : Nat} {max : Option Nat} {x : State} (hx : x.endIndex ≤ n)
    (hf : Fuel n forward fuel min x.endIndex) (hf' : Fuel n forward fuel' min x.endIndex) :
    repeatOutcomes greedy parens o fuel min max x = repeatOutcomes greedy parens o fuel' min max x := by
  induction fuel generalizing fuel' min max x with
  | zero => exact absurd hf (Nat.not_succ_le_zero _)
  | succ fuel ih =>
    cases fuel' with
    | zero => exact absurd hf' (Nat.not_succ_le_zero _)
    | succ fuel' =>
      have hrounds : (o (x.reset parens)).flatMap (fun y =>
            if min = 0 ∧ y.endIndex = x.endIndex then []
            else repeatOutcomes greedy parens o fuel (min - 1) (max.map (· - 1)) y) =
          (o (x.reset parens)).flatMap (fun y =>
            if min = 0 ∧ y.endIndex = x.endIndex then []
            else repeatOutcomes greedy parens o fuel' (min - 1) (max.map (· - 1)) y) := by
        apply List.flatMap_congr
        intro y hy
        obtain ⟨hyn, ha⟩ := h (x.reset parens) hx y hy
        split
        · rfl
        · next hne => exact ih hyn (hf.next hyn ha hne) (hf'.next hyn ha hne)
      rw [repeatOutcomes, repeatOutcomes, hrounds]

end

/-! ## Execution -/

/-- The first position from `i` on at which the pattern matches, and the state in which it ends. -/
def exec {α : Type} (text : List α) (m : Matcher) (i : Nat) : Option (Nat × State) :=
  (List.range' i (text.length + 1 - i)).findSome? fun j => (m (.init j) some).map (j, ·)

end Arsh.Es
