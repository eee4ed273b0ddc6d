import Arsh.Test.Grammar

/-!
# The fixed interpretations

Of an unambiguous derivation that is one operand, the fixed interpretation of up to four arguments
gives the value.
-/

namespace Arsh.Test

section
variable {sys : System} {e : NotExpr} {a : AndExpr} {t : OrExpr} {x y z op : Bytes} {v : Bool}
  {all : List Bytes}

/-! ## Operators -/

theorem isUnaryOp_iff : isUnaryOp op = true ↔
    ∃ o, op = [45, o] ∧ ((o = 122 ∨ o = 110) ∨ (resolveFileOp o).isSome = true) := by
  constructor
  · intro h
    unfold isUnaryOp at h
    split at h
    · next o => exact ⟨o, rfl, by simpa using h⟩
    · cases h
  · rintro ⟨o, rfl, h⟩
    simpa [isUnaryOp] using h

theorem eval2ArgsExpr_unary (h : isUnaryOp op = true) (hv : unaryValue sys op x = some v) :
    eval2ArgsExpr sys op x = .ofBool v := by
  obtain ⟨o, rfl, ho⟩ := isUnaryOp_iff.1 h
  have hbang : [45, o] ≠ word ['!'] := by
    rintro ⟨⟩
  simp only [unaryValue, Char.reduceToNat] at hv
  simp only [eval2ArgsExpr, if_neg hbang, Char.reduceToNat]
  by_cases hz : o = 122
  · rw [if_pos hz] at hv ⊢
    cases hv
    rfl
  · by_cases hn : o = 110
    · rw [if_neg hz, if_pos hn] at hv ⊢
      cases hv
      rfl
    · obtain ⟨f, hf⟩ := Option.isSome_iff_exists.1 (ho.resolve_left (not_or.2 ⟨hz, hn⟩))
      rw [if_neg hz, if_neg hn, hf] at hv ⊢
      simp only [Option.bind_some] at hv
      dsimp only
      split at hv
      · cases hv
      · next hc =>
        cases hv
        rw [if_neg hc]

theorem evalBinary_value {o : BinaryOp} (hv : binaryValue sys x o y = some v) :
    evalBinary sys x o y = .ofBool v := by
  unfold binaryValue at hv
  by_cases hi : isIntOp o = true
  · rw [if_pos hi] at hv
    have hint : evalBinary sys x o y = compareIntArgs x o y := by
      cases o <;> first | rfl | cases hi
    obtain ⟨n1, h1, hv⟩ := Option.bind_eq_some_iff.1 hv
    obtain ⟨n2, h2, hv⟩ := Option.bind_eq_some_iff.1 hv
    cases hv
    rw [hint, compareIntArgs, h1, h2]
  · rw [if_neg hi] at hv
    cases o <;> first | exact absurd rfl hi | (cases hv; rfl)

theorem eval3ArgsExpr_binary {o : BinaryOp} (h : resolveBinaryOp op = some o)
    (hv : binaryValue sys x o y = some v) : eval3ArgsExpr sys x op y = .ofBool v := by
  simp only [eval3ArgsExpr, h]
  exact evalBinary_value hv

theorem eval2ArgsExpr_bang : eval2ArgsExpr sys (word ['!']) x = .ofBool !(decide (x ≠ [])) :=
  (if_pos rfl).trans (negateStatus_ofBool _)

/-! ## Operands -/

theorem eval2ArgsExpr_text (h : e.text = [x, y]) (hv : e.value sys = some v) :
    eval2ArgsExpr sys x y = .ofBool v := by
  cases e with
  | neg e =>
    simp only [NotExpr.text, List.cons.injEq] at h
    obtain ⟨rfl, h⟩ := h
    obtain rfl := NotExpr.eq_arg h
    rw [eval2ArgsExpr_bang]
    cases hv
    rfl
  | paren e =>
    have he := e.text_pos
    have hl := congrArg List.length h
    simp only [NotExpr.text, List.length_cons, List.length_append, List.length_nil] at hl
    omega
  | unary op arg =>
    simp only [NotExpr.text, List.cons.injEq, and_true] at h
    obtain ⟨rfl, rfl⟩ := h
    exact eval2ArgsExpr_unary op.2 hv
  | binary left op right => simp [NotExpr.text] at h
  | arg a => simp [NotExpr.text] at h

/-- Three arguments that are one operand only are not two words with a connective between. -/
theorem ne_connective (hu : (OrExpr.one (.one e)).Unambiguous) (h : e.text = [x, y, z]) :
    y ≠ word ['-', 'a'] ∧ y ≠ word ['-', 'o'] := by
  constructor
  · rintro rfl
    have heq := hu (.one (.more (.arg x) (.one (.arg z)))) h.symm
    cases heq
  · rintro rfl
    have heq := hu (.more (.one (.arg x)) (.one (.one (.arg z)))) h.symm
    cases heq

theorem eq_binary (hu : (OrExpr.one (.one e)).Unambiguous) (h : e.text = [x, y, z])
    (hy : (resolveBinaryOp y).isSome = true) : e = .binary x ⟨y, hy⟩ z := by
  have heq := hu (.one (.one (.binary x ⟨y, hy⟩ z))) h.symm
  injection heq with heq
  injection heq with heq
  exact heq.symm

theorem eval3ArgsExpr_text (hu : (OrExpr.one (.one e)).Unambiguous) (h : e.text = [x, y, z])
    (hv : e.value sys = some v) : eval3ArgsExpr sys x y z = .ofBool v := by
  obtain ⟨hand, hor⟩ := ne_connective hu h
  cases hy : resolveBinaryOp y with
  | some o =>
    obtain rfl := eq_binary hu h (by simp [hy])
    simp only [NotExpr.value, hy, Option.bind_some] at hv
    exact eval3ArgsExpr_binary hy hv
  | none =>
    simp only [eval3ArgsExpr, hy, if_neg hand, if_neg hor]
    cases e with
    | neg e =>
      simp only [NotExpr.text, List.cons.injEq] at h
      obtain ⟨rfl, h⟩ := h
      obtain ⟨w, hw, rfl⟩ := Option.map_eq_some_iff.1 hv
      rw [if_pos rfl, eval2ArgsExpr_text h hw, negateStatus_ofBool]
    | paren e =>
      have hne : word ['('] ≠ word ['!'] := by decide
      simp only [NotExpr.text, List.cons.injEq] at h
      obtain ⟨rfl, h⟩ := h
      obtain ⟨he, rfl⟩ : e.text = [y] ∧ word [')'] = z := by
        simpa using List.append_inj' (show e.text ++ [word [')']] = [y] ++ [z] from h) rfl
      obtain rfl := OrExpr.eq_arg he
      cases hv
      rw [if_neg hne, if_pos rfl, if_pos rfl]
      rfl
    | unary op arg => simp [NotExpr.text] at h
    | binary left op right =>
      simp only [NotExpr.text, List.cons.injEq, and_true] at h
      obtain ⟨rfl, rfl, rfl⟩ := h
      have hsome := op.2
      rw [hy] at hsome
      cases hsome
    | arg a => simp [NotExpr.text] at h

/-- The fixed interpretation of an operand gives its value. -/
theorem fixed_text (hu : (OrExpr.one (.one e)).Unambiguous) (hf : isFixed e.text = true)
    (hv : e.value sys = some v) : fixed sys e.text = some (.ofBool v) := by
  generalize ht : e.text = all at hf ⊢
  rcases all with _ | ⟨x, _ | ⟨y, _ | ⟨z, _ | ⟨w, _ | ⟨_, all⟩⟩⟩⟩⟩
  · have hpos := e.text_pos
    rw [ht] at hpos
    cases hpos
  · obtain rfl := NotExpr.eq_arg ht
    cases hv
    rfl
  · exact congrArg some (eval2ArgsExpr_text ht hv)
  · exact congrArg some (eval3ArgsExpr_text hu ht hv)
  · cases e with
    | neg e =>
      simp only [NotExpr.text, List.cons.injEq] at ht
      obtain ⟨rfl, ht⟩ := ht
      obtain ⟨v', hv', rfl⟩ := Option.map_eq_some_iff.1 hv
      simp only [fixed, if_true]
      rw [eval3ArgsExpr_text (unambiguous_of_neg hu) ht hv', negateStatus_ofBool]
    | paren e =>
      have hne : word ['('] ≠ word ['!'] := by decide
      simp only [NotExpr.text, List.cons.injEq] at ht
      obtain ⟨rfl, ht⟩ := ht
      obtain ⟨he, rfl⟩ : e.text = [y, z] ∧ word [')'] = w := by
        simpa using List.append_inj' (show e.text ++ [word [')']] = [y, z] ++ [w] from ht) rfl
      obtain ⟨e, rfl⟩ := OrExpr.eq_one (t := e) (by rw [he]; simp)
      simp only [fixed, if_neg hne, if_true]
      rw [eval2ArgsExpr_text (e := e) he hv]
    | unary op arg => simp [NotExpr.text] at ht
    | binary left op right => simp [NotExpr.text] at ht
    | arg a => simp [NotExpr.text] at ht
  · have hle := isFixed_length_le hf
    rw [List.length_cons, List.length_cons, List.length_cons, List.length_cons, List.length_cons]
      at hle
    omega

/-- Two words with an operator between them. -/
theorem fixed_and : fixed sys [x, word ['-', 'a'], y] =
    some (.ofBool (decide (x ≠ []) && decide (y ≠ []))) := by
  have hnone : resolveBinaryOp (word ['-', 'a']) = none := by decide
  simp only [fixed, eval3ArgsExpr, hnone, if_true, eval1ArgExpr]
  by_cases hx : x = [] <;> by_cases hy : y = [] <;> simp [hx, hy]

theorem fixed_or : fixed sys [x, word ['-', 'o'], y] =
    some (.ofBool (decide (x ≠ []) || decide (y ≠ []))) := by
  have hnone : resolveBinaryOp (word ['-', 'o']) = none := by decide
  have hne : word ['-', 'o'] ≠ word ['-', 'a'] := by decide
  simp only [fixed, eval3ArgsExpr, hnone, if_neg hne, if_true, eval1ArgExpr]
  by_cases hx : x = [] <;> by_cases hy : y = [] <;> simp [hx, hy]

end

end Arsh.Test
