import Arsh.Test.Evaluator

/-!
# Steps of the evaluator

What each label of `evalBase` does with the arguments that are left. The expressions of up to four
arguments have fixed interpretations (`fixed`); another one begins with `!`, with `(` or with a leaf
of one to three arguments (`leafLength`).
-/

namespace Arsh.Test

-- The equations are made here, once, and not inside the proofs that unfold a definition.
attribute [local grind =] evalOrExpr evalAndExpr evalBase evalInit evalOther

/-- The arguments from the offset on. -/
structure At (argvObj : List Bytes) (ev : Evaluator) (rest : List Bytes) : Prop where
  size : ev.offset + rest.length = argvObj.length
  drop : argvObj.drop ev.offset = rest

namespace Evaluator

def skip (ev : Evaluator) (k : Nat) : Evaluator := { ev with offset := ev.offset + k }

@[simp] theorem skip_offset (ev : Evaluator) (k : Nat) : (ev.skip k).offset = ev.offset + k := rfl

@[simp] theorem skip_depth (ev : Evaluator) (k : Nat) : (ev.skip k).depth = ev.depth := rfl

@[simp] theorem skip_skip (ev : Evaluator) (k l : Nat) : (ev.skip k).skip l = ev.skip (k + l) := by
  simp [skip, Nat.add_assoc]

@[simp] theorem skip_zero (ev : Evaluator) : ev.skip 0 = ev := rfl

end Evaluator

/-- The fixed interpretations of `INIT`. -/
def fixed (sys : System) : List Bytes → Option Status
  | [] => some (.ofBool false)
  | [arg] => some (eval1ArgExpr arg)
  | [arg1, arg2] => some (eval2ArgsExpr sys arg1 arg2)
  | [arg1, arg2, arg3] => some (eval3ArgsExpr sys arg1 arg2 arg3)
  | [arg1, arg2, arg3, arg4] =>
    if arg1 = word ['!'] then some (negateStatus (eval3ArgsExpr sys arg2 arg3 arg4))
    else if arg1 = word ['('] then
      if arg4 = word [')'] then some (eval2ArgsExpr sys arg2 arg3)
      else some (needCloseParen arg4)
    else none
  | _ => none

/-- The number of arguments of the leaf at the label `OTHER`. -/
def leafLength : List Bytes → Nat
  | [] => 0
  | [_] => 1
  | [a, _] => if isUnaryOp a then 2 else 1
  | a :: op :: _ :: _ =>
    if (resolveBinaryOp op).isSome then 3
    else if isUnaryOp a then 2
    else 1

/-- The status of a leaf. -/
def leafStatus (sys : System) (rest : List Bytes) : Status :=
  (fixed sys (rest.take (leafLength rest))).getD (.ofBool false)

/-- What `OTHER` does behind the expression in parentheses. -/
def closeParen (argvObj : List Bytes) (limitOffset : Nat) (s : Status) (ev : Evaluator) :
    Outcome := do
  if ¬ s.Decided then return (s, ev)
  else
    let (close, ev) ← if ev.offset < limitOffset then ev.consume argvObj else .ok ([], ev)
    if close ≠ word [')'] then return (needCloseParen close, ev)
    else return (s, ev)

section
variable {sys : System} {argvObj xs rest : List Bytes} {ev : Evaluator} {a b op : Bytes}
  {limitOffset level n i : Nat}

theorem At.tail (h : At argvObj ev (a :: rest)) : At argvObj (ev.skip 1) rest where
  size := by
    have hs := h.size
    simp only [List.length_cons] at hs
    simp only [Evaluator.skip_offset]
    omega
  drop := by
    rw [Evaluator.skip_offset, ← List.drop_drop, h.drop]
    rfl

theorem At.skip (h : At argvObj ev (xs ++ rest)) : At argvObj (ev.skip xs.length) rest := by
  induction xs generalizing ev with
  | nil => exact h
  | cons a xs ih =>
    have ht := ih h.tail
    rw [Evaluator.skip_skip, Nat.add_comm] at ht
    exact ht

theorem At.get (h : At argvObj ev rest) (hi : rest[i]? = some a) :
    get argvObj (ev.offset + i) = .ok a := by
  rw [Test.get, ← List.getElem?_drop, h.drop, hi]

theorem At.consume (h : At argvObj ev (a :: rest)) :
    ev.consume argvObj = .ok (a, ev.skip 1) := by
  have hg : Test.get argvObj (ev.offset + 0) = .ok a := h.get rfl
  rw [Nat.add_zero] at hg
  rw [Evaluator.consume, hg]
  rfl

theorem At.current (h : At argvObj ev (a :: rest)) : ev.current argvObj = .ok a := by
  have hg : Test.get argvObj (ev.offset + 0) = .ok a := h.get rfl
  exact hg

theorem At.current_nil (h : At argvObj ev []) : ev.current argvObj = .error .bounds := by
  rw [Evaluator.current, Test.get, List.getElem?_eq_none]
  have hs := h.size
  simp only [List.length_nil] at hs
  omega

theorem At.lt_iff (h : At argvObj ev rest) : ev.offset < argvObj.length ↔ rest ≠ [] := by
  have hs := h.size
  rw [← List.length_pos_iff]
  omega

/-! ## `INIT` -/

/-- `INIT` interprets the arguments up to the limit, or goes on with `OTHER`. -/
theorem evalInit_eq (h : At argvObj ev (xs ++ rest)) (hl : limitOffset = ev.offset + xs.length) :
    evalInit sys argvObj (n + 1) limitOffset level ev =
      match fixed sys xs with
      | some s => .ok (s, ev.skip xs.length)
      | none => evalOther sys argvObj n limitOffset level ev := by
  have hrem : limitOffset - ev.offset = xs.length := by omega
  rw [evalInit, if_neg (by omega), hrem]
  rcases xs with _ | ⟨a, _ | ⟨b, _ | ⟨c, _ | ⟨d, _ | ⟨e, xs⟩⟩⟩⟩⟩
  · rfl
  · have h0 : At argvObj ev (a :: rest) := h
    simp [h0.consume, fixed, bind, Except.bind, pure, Except.pure]
  · have h0 : At argvObj ev (a :: b :: rest) := h
    have h1 : At argvObj (ev.skip 1) (b :: rest) := h0.tail
    simp [h0.consume, h1.consume, fixed, bind, Except.bind, pure, Except.pure]
  · have h0 : At argvObj ev (a :: b :: c :: rest) := h
    have h1 : At argvObj (ev.skip 1) (b :: c :: rest) := h0.tail
    have h2 : At argvObj (ev.skip 2) (c :: rest) := h1.tail
    simp [h0.consume, h1.consume, h2.consume, fixed, bind, Except.bind, pure, Except.pure]
  · have h0 : At argvObj ev (a :: b :: c :: d :: rest) := h
    have h1 : At argvObj (ev.skip 1) (b :: c :: d :: rest) := h0.tail
    have h2 : At argvObj (ev.skip 2) (c :: d :: rest) := h1.tail
    have h3 : At argvObj (ev.skip 3) (d :: rest) := h2.tail
    simp only [h0.consume, h1.consume, h2.consume, h3.consume, fixed, bind, Except.bind, pure,
      Except.pure, List.length_cons, List.length_nil, Evaluator.skip_skip, Nat.reduceAdd]
    split
    · rfl
    · split
      · split <;> rfl
      · rfl
  · rfl

/-! ## `OTHER` -/

theorem evalOther_nil (h : At argvObj ev []) :
    evalOther sys argvObj (n + 1) limitOffset level ev = .error .bounds := by
  rw [evalOther, h.current_nil]
  rfl

/-- The negation is lost. -/
theorem evalOther_bang (h : At argvObj ev (word ['!'] :: rest)) :
    evalOther sys argvObj (n + 1) limitOffset level ev =
      evalInit sys argvObj n limitOffset level (ev.skip 1) := by
  rw [evalOther, h.current]
  simp [h.consume, bind, Except.bind]

theorem evalOther_open (h : At argvObj ev (word ['('] :: rest)) :
    evalOther sys argvObj (n + 1) limitOffset level ev =
      (evalOrExpr sys argvObj n limitOffset (level + 1) 1 (ev.skip 1)).bind fun r =>
        closeParen argvObj limitOffset r.1 r.2 := by
  have hne : word ['('] ≠ word ['!'] := by decide
  rw [evalOther, h.current]
  simp only [bind, Except.bind, if_neg hne, if_true, h.consume]
  rfl

theorem fixed_take (h : rest ≠ []) :
    fixed sys (rest.take (leafLength rest)) = some (leafStatus sys rest) := by
  have hsome : (fixed sys (rest.take (leafLength rest))).isSome := by
    rcases rest with _ | ⟨a, _ | ⟨b, _ | ⟨c, rest⟩⟩⟩
    · exact absurd rfl h
    · rfl
    · simp only [leafLength]
      split <;> rfl
    · simp only [leafLength]
      split
      · rfl
      · split <;> rfl
  obtain ⟨s, hs⟩ := Option.isSome_iff_exists.1 hsome
  rw [leafStatus, hs]
  rfl

theorem leafLength_le (rest : List Bytes) : leafLength rest ≤ rest.length := by
  rcases rest with _ | ⟨a, _ | ⟨b, _ | ⟨c, rest⟩⟩⟩
  · exact Nat.le_refl 0
  · exact Nat.le_refl 1
  · simp only [leafLength]
    split <;> simp
  · simp only [leafLength]
    split
    · simp
    · split <;> simp

theorem leafLength_pos : 0 < leafLength (a :: rest) := by
  rcases rest with _ | ⟨b, _ | ⟨c, rest⟩⟩
  · exact Nat.one_pos
  · simp only [leafLength]
    split <;> simp
  · simp only [leafLength]
    split
    · simp
    · split <;> simp

/-- `INIT` with the limit behind the leaf. -/
theorem evalInit_leaf (h : At argvObj ev rest) (hne : rest ≠ []) :
    evalInit sys argvObj (n + 1) (ev.offset + leafLength rest) level ev =
      .ok (leafStatus sys rest, ev.skip (leafLength rest)) := by
  have hlen : (rest.take (leafLength rest)).length = leafLength rest :=
    List.length_take_of_le (leafLength_le rest)
  have hat : At argvObj ev (rest.take (leafLength rest) ++ rest.drop (leafLength rest)) := by
    rwa [List.take_append_drop]
  rw [evalInit_eq hat (by rw [hlen]), fixed_take hne, hlen]

theorem evalOther_leaf (h : At argvObj ev (a :: rest)) (hbang : a ≠ word ['!'])
    (hopen : a ≠ word ['(']) :
    evalOther sys argvObj (n + 2) argvObj.length level ev =
      .ok (leafStatus sys (a :: rest), ev.skip (leafLength (a :: rest))) := by
  have hs := h.size
  have hrem : argvObj.length - ev.offset = (a :: rest).length := by omega
  have hleaf := @evalInit_leaf sys argvObj (a :: rest) ev level n h (by simp)
  rw [evalOther, h.current, ← hleaf]
  simp only [bind, Except.bind, if_neg hbang, if_neg hopen, hrem,
    if_neg (show ¬ argvObj.length < ev.offset by omega)]
  have h0 : Test.get argvObj ev.offset = .ok a := h.current
  rcases rest with _ | ⟨b, _ | ⟨c, rest⟩⟩
  · simp [pure, Except.pure, leafLength]
  · cases hu : isUnaryOp a <;> simp [pure, Except.pure, leafLength, h0, hu]
  · have h1 : Test.get argvObj (ev.offset + 1) = .ok b := h.get rfl
    cases hb : (resolveBinaryOp b).isSome <;> cases hu : isUnaryOp a <;>
      simp [pure, Except.pure, leafLength, h0, h1, hu, hb]

/-! ## `evalBase` -/

/-- The cleanup of `evalBase`. -/
def leave (r : Status × Evaluator) : Status × Evaluator :=
  (r.1, { r.2 with depth := r.2.depth - 1 })

theorem evalBase_deep (h : ev.depth + 1 = recursionLimit) :
    evalBase sys argvObj (n + 1) limitOffset level ev = .ok (⟨3, some .tooManyNesting⟩, ev) := by
  rw [evalBase]
  dsimp only
  rw [if_pos h]
  rfl

theorem evalBase_init (h : ev.depth + 1 ≠ recursionLimit) :
    evalBase sys argvObj (n + 1) limitOffset 0 ev =
      (evalInit sys argvObj n limitOffset 0 { ev with depth := ev.depth + 1 }).map leave := by
  rw [evalBase]
  dsimp only
  rw [if_neg h, if_neg (by simp)]
  rfl

theorem evalBase_other (h : ev.depth + 1 ≠ recursionLimit) (hl : level ≠ 0) :
    evalBase sys argvObj (n + 1) limitOffset level ev =
      (evalOther sys argvObj n limitOffset level { ev with depth := ev.depth + 1 }).map leave := by
  rw [evalBase]
  dsimp only
  rw [if_neg h, if_pos hl]
  rfl

/-! ## The loops -/

/-- `s1 == 0 && s2 == 0 ? 0 : 1`. -/
def both (s1 s2 : Nat) : Nat := if s1 = 0 ∧ s2 = 0 then 0 else 1

/-- `s1 == 0 || s2 == 0 ? 0 : 1`. -/
def either (s1 s2 : Nat) : Nat := if s1 = 0 ∨ s2 = 0 then 0 else 1

variable {e : Stop} {s : Status} {s1 : Nat} {ev' : Evaluator}

theorem evalAndExpr_error (h : evalBase sys argvObj n limitOffset level ev = .error e) :
    evalAndExpr sys argvObj (n + 1) limitOffset level s1 ev = .error e := by
  rw [evalAndExpr, h]
  rfl

theorem evalAndExpr_undecided (h : evalBase sys argvObj n limitOffset level ev = .ok (s, ev'))
    (hs : ¬ s.Decided) :
    evalAndExpr sys argvObj (n + 1) limitOffset level s1 ev = .ok (s, ev') := by
  rw [evalAndExpr, h]
  simp [bind, Except.bind, hs, pure, Except.pure]

theorem evalAndExpr_more (h : evalBase sys argvObj n argvObj.length level ev = .ok (s, ev'))
    (hs : s.Decided) (hat : At argvObj ev' (word ['-', 'a'] :: rest)) :
    evalAndExpr sys argvObj (n + 1) argvObj.length level s1 ev =
      evalAndExpr sys argvObj n argvObj.length level (both s1 s.code) (ev'.skip 1) := by
  have hlt := hat.lt_iff.2 (by simp)
  rw [evalAndExpr, h]
  simp [bind, Except.bind, hs, pure, Except.pure, hlt, hat.current, hat.consume, both]

theorem evalAndExpr_done (h : evalBase sys argvObj n argvObj.length level ev = .ok (s, ev'))
    (hs : s.Decided) (hat : At argvObj ev' rest) (hne : rest.head? ≠ some (word ['-', 'a'])) :
    evalAndExpr sys argvObj (n + 1) argvObj.length level s1 ev =
      .ok (⟨both s1 s.code, none⟩, ev') := by
  rw [evalAndExpr, h]
  cases rest with
  | nil =>
    have hlt : ¬ ev'.offset < argvObj.length := fun hc => hat.lt_iff.1 hc rfl
    simp [bind, Except.bind, hs, pure, Except.pure, hlt, both]
  | cons a rest =>
    have hlt := hat.lt_iff.2 (by simp)
    have hne : a ≠ word ['-', 'a'] := fun hc => hne (congrArg some hc)
    simp [bind, Except.bind, hs, pure, Except.pure, hlt, hat.current, hne, both]

theorem evalOrExpr_error (h : evalAndExpr sys argvObj n limitOffset level 0 ev = .error e) :
    evalOrExpr sys argvObj (n + 1) limitOffset level s1 ev = .error e := by
  rw [evalOrExpr, h]
  rfl

theorem evalOrExpr_undecided
    (h : evalAndExpr sys argvObj n limitOffset level 0 ev = .ok (s, ev')) (hs : ¬ s.Decided) :
    evalOrExpr sys argvObj (n + 1) limitOffset level s1 ev = .ok (s, ev') := by
  rw [evalOrExpr, h]
  simp [bind, Except.bind, hs, pure, Except.pure]

theorem evalOrExpr_more
    (h : evalAndExpr sys argvObj n argvObj.length level 0 ev = .ok (s, ev')) (hs : s.Decided)
    (hat : At argvObj ev' (word ['-', 'o'] :: rest)) :
    evalOrExpr sys argvObj (n + 1) argvObj.length level s1 ev =
      evalOrExpr sys argvObj n argvObj.length level (either s1 s.code) (ev'.skip 1) := by
  have hlt := hat.lt_iff.2 (by simp)
  rw [evalOrExpr, h]
  simp [bind, Except.bind, hs, pure, Except.pure, hlt, hat.current, hat.consume, either]

theorem evalOrExpr_done
    (h : evalAndExpr sys argvObj n argvObj.length level 0 ev = .ok (s, ev')) (hs : s.Decided)
    (hat : At argvObj ev' rest) (hne : rest.head? ≠ some (word ['-', 'o'])) :
    evalOrExpr sys argvObj (n + 1) argvObj.length level s1 ev =
      .ok (⟨either s1 s.code, none⟩, ev') := by
  rw [evalOrExpr, h]
  cases rest with
  | nil =>
    have hlt : ¬ ev'.offset < argvObj.length := fun hc => hat.lt_iff.1 hc rfl
    simp [bind, Except.bind, hs, pure, Except.pure, hlt, either]
  | cons a rest =>
    have hlt := hat.lt_iff.2 (by simp)
    have hne : a ≠ word ['-', 'o'] := fun hc => hne (congrArg some hc)
    simp [bind, Except.bind, hs, pure, Except.pure, hlt, hat.current, hne, either]

end

end Arsh.Test
