import Arsh.Test.Steps

/-!
# The bounds of `test`

Inside of parentheses an operand is read without a check that an argument is left. The evaluation
leaves the arguments exactly if they end where such an operand is missing (`lacksOperand`); it ends
in every case, and the assertions hold.
-/

namespace Arsh.Test

/-- `INIT` interprets the arguments at once. -/
def isFixed : List Bytes → Bool
  | [arg1, _, _, _] => arg1 == word ['!'] || arg1 == word ['(']
  | args => decide (args.length ≤ 3)

def isFileOp (op : Bytes) : Bool :=
  match op with
  | [45, o] => o != 'z'.toNat && o != 'n'.toNat && (resolveFileOp o).isSome
  | _ => false

def isIntOp : BinaryOp → Bool
  | .eq | .ne | .lt | .gt | .le | .ge => true
  | _ => false

/-- The operands are of the kind that the operator takes: integers, or a path without a NUL. -/
def operandsOk : List Bytes → Bool
  | [op, arg] => !(isFileOp op && arg.contains 0)
  | [left, opStr, right] =>
    match resolveBinaryOp opStr with
    | some op => !isIntOp op || (convertToNum10 left).isSome && (convertToNum10 right).isSome
    | none => true
  | _ => true

/-- The operands of the leaf in front. -/
def leafOk (rest : List Bytes) : Bool := operandsOk (rest.take (leafLength rest))

/-- `evalBase` goes on with `OTHER` for an operand inside of `d` parentheses. -/
def enters (d : Nat) (rest : List Bytes) : Bool :=
  decide (d + 1 < recursionLimit) && (d != 0 || !isFixed rest)

mutual

/-- Read as an operand inside of `d` parentheses, the arguments end where one is missing. -/
def lacksOperand (d : Nat) : List Bytes → Bool
  | [] => true
  | a :: rest =>
    if a = word ['!'] then !isFixed rest && lacksOperand d rest
    else if a = word ['('] then enters (d + 1) rest && lacksOperand (d + 1) rest
    else
      leafOk (a :: rest) &&
        match rest with
        | [] => lacksBehind d []
        | [b] => if isUnaryOp a then lacksBehind d [] else lacksBehind d [b]
        | op :: b :: rest' =>
          if (resolveBinaryOp op).isSome then lacksBehind d rest'
          else if isUnaryOp a then lacksBehind d (b :: rest')
          else lacksBehind d (op :: b :: rest')
termination_by structural rest => rest

/-- The same behind an operand. -/
def lacksBehind (d : Nat) : List Bytes → Bool
  | [] => false
  | a :: rest =>
    if a = word ['-', 'a'] ∨ a = word ['-', 'o'] then enters d rest && lacksOperand d rest
    else if a = word [')'] then decide (0 < d) && lacksBehind (d - 1) rest
    else false
termination_by structural rest => rest

end

/-- The same behind an expression. -/
def lacksClose (d : Nat) : List Bytes → Bool
  | [] => false
  | a :: rest => decide (a = word [')']) && (decide (0 < d) && lacksBehind (d - 1) rest)

/-- The same behind operands with `-a` between them. -/
def lacksAnd (d : Nat) : List Bytes → Bool
  | [] => false
  | a :: rest =>
    if a = word ['-', 'o'] then enters d rest && lacksOperand d rest
    else lacksClose d (a :: rest)

-- The equations are made here, once, and not inside the proofs that unfold a definition.
attribute [local grind =] isFixed operandsOk lacksOperand lacksBehind lacksClose lacksAnd

/-! ## The status of a leaf -/

section
variable {sys : System} {argvObj xs rest : List Bytes} {ev : Evaluator} {a b op : Bytes}
  {d n i : Nat}

theorem isFixed_length_le (h : isFixed xs = true) : xs.length ≤ 4 := by
  unfold isFixed at h
  split at h
  · exact Nat.le_refl _
  · exact Nat.le_succ_of_le (of_decide_eq_true h)

theorem fixed_isSome : (fixed sys xs).isSome = isFixed xs := by
  rcases xs with _ | ⟨a, _ | ⟨b, _ | ⟨c, _ | ⟨d, _ | ⟨e, xs⟩⟩⟩⟩⟩
  · rfl
  · rfl
  · rfl
  · rfl
  · simp only [fixed, isFixed]
    by_cases hbang : a = word ['!']
    · simp [hbang]
    · by_cases hopen : a = word ['(']
      · subst hopen
        simp only [if_neg hbang, if_true]
        split <;> rfl
      · simp [hbang, hopen]
  · simp [fixed, isFixed]

theorem fixed_code {s : Status} (h : fixed sys xs = some s) : s.code ≤ 2 := by
  rcases xs with _ | ⟨a, _ | ⟨b, _ | ⟨c, _ | ⟨d, _ | ⟨e, xs⟩⟩⟩⟩⟩
  · cases h
    decide
  · cases h
    exact Status.code_ofBool_le _
  · cases h
    exact eval2ArgsExpr_code
  · cases h
    exact eval3ArgsExpr_code
  · simp only [fixed] at h
    split at h
    · cases h
      exact code_negateStatus_le (by omega) eval3ArgsExpr_code
    · split at h
      · split at h
        · cases h
          exact eval2ArgsExpr_code
        · cases h
          exact Nat.le_refl 2
      · cases h
  · cases h

theorem Status.two_le {s : Status} (h : ¬ s.Decided) : 2 ≤ s.code := by
  unfold Status.Decided at h
  omega

theorem decided_eval2ArgsExpr (h : isUnaryOp op = true) :
    (eval2ArgsExpr sys op a).Decided ↔ operandsOk [op, a] = true := by
  obtain ⟨o, rfl⟩ : ∃ o, op = [45, o] := by
    unfold isUnaryOp at h
    split at h
    · next o => exact ⟨o, rfl⟩
    · cases h
  have hbang : [45, o] ≠ word ['!'] := by
    rintro ⟨⟩
  simp only [isUnaryOp, Char.reduceToNat, Bool.or_eq_true, beq_iff_eq] at h
  simp only [eval2ArgsExpr, if_neg hbang, operandsOk, isFileOp, Char.reduceToNat]
  by_cases hz : o = 122
  · simp [hz]
  · by_cases hn : o = 110
    · simp [hn]
    · obtain ⟨f, hf⟩ := Option.isSome_iff_exists.1 (h.resolve_left (not_or.2 ⟨hz, hn⟩))
      simp only [if_neg hz, if_neg hn, hf]
      cases hc : a.contains 0 <;> simp [hz, hn]

theorem decided_compareIntArgs {o : BinaryOp} : (compareIntArgs a o b).Decided ↔
    ((convertToNum10 a).isSome && (convertToNum10 b).isSome) = true := by
  unfold compareIntArgs
  cases convertToNum10 a with
  | none => simp
  | some n1 => cases convertToNum10 b <;> simp

theorem decided_eval3ArgsExpr (h : (resolveBinaryOp op).isSome = true) :
    (eval3ArgsExpr sys a op b).Decided ↔ operandsOk [a, op, b] = true := by
  obtain ⟨o, ho⟩ := Option.isSome_iff_exists.1 h
  simp only [eval3ArgsExpr, operandsOk, ho]
  cases o <;> simp [evalBinary, isIntOp, decided_compareIntArgs]

theorem decided_leafStatus (h : rest ≠ []) :
    (leafStatus sys rest).Decided ↔ leafOk rest = true := by
  rcases rest with _ | ⟨a, _ | ⟨b, _ | ⟨c, rest⟩⟩⟩
  · exact absurd rfl h
  · simp [leafStatus, leafOk, leafLength, fixed, operandsOk]
  · cases hu : isUnaryOp a
    · simp [leafStatus, leafOk, leafLength, fixed, operandsOk, hu]
    · simpa [leafStatus, leafOk, leafLength, fixed, hu] using decided_eval2ArgsExpr hu
  · cases hb : (resolveBinaryOp b).isSome
    · cases hu : isUnaryOp a
      · simp [leafStatus, leafOk, leafLength, fixed, operandsOk, hu, hb]
      · simpa [leafStatus, leafOk, leafLength, fixed, hu, hb] using decided_eval2ArgsExpr hu
    · simpa [leafStatus, leafOk, leafLength, fixed, hb] using decided_eval3ArgsExpr hb

/-! ## What is missing behind an operand -/

theorem lacksOperand_bang :
    lacksOperand d (word ['!'] :: rest) = (!isFixed rest && lacksOperand d rest) := by
  rw [lacksOperand.eq_def]
  exact if_pos rfl

theorem lacksOperand_open : lacksOperand d (word ['('] :: rest) =
    (enters (d + 1) rest && lacksOperand (d + 1) rest) := by
  have hne : word ['('] ≠ word ['!'] := by decide
  rw [lacksOperand.eq_def]
  exact (if_neg hne).trans (if_pos rfl)

theorem lacksOperand_leaf (hbang : a ≠ word ['!']) (hopen : a ≠ word ['(']) :
    lacksOperand d (a :: rest) =
      (leafOk (a :: rest) && lacksBehind d ((a :: rest).drop (leafLength (a :: rest)))) := by
  rw [lacksOperand.eq_def]
  dsimp only
  rw [if_neg hbang, if_neg hopen]
  congr 1
  rcases rest with _ | ⟨b, _ | ⟨c, rest⟩⟩
  · rfl
  · cases hu : isUnaryOp a <;> simp [leafLength, hu]
  · cases hb : (resolveBinaryOp b).isSome <;> cases hu : isUnaryOp a <;>
      simp [leafLength, hu, hb]

theorem lacksBehind_more : lacksBehind d (word ['-', 'a'] :: rest) =
    (enters d rest && lacksOperand d rest) := by
  rw [lacksBehind, if_pos (.inl rfl)]

theorem lacksAnd_more : lacksAnd d (word ['-', 'o'] :: rest) =
    (enters d rest && lacksOperand d rest) := by
  rw [lacksAnd, if_pos rfl]

theorem lacksBehind_done (h : rest.head? ≠ some (word ['-', 'a'])) :
    lacksBehind d rest = lacksAnd d rest := by
  cases rest with
  | nil => simp [lacksBehind, lacksAnd]
  | cons a rest =>
    have hne : a ≠ word ['-', 'a'] := fun hc => h (congrArg some hc)
    rw [lacksBehind, lacksAnd, lacksClose]
    by_cases ho : a = word ['-', 'o']
    · rw [if_pos (.inr ho), if_pos ho]
    · rw [if_neg (not_or.2 ⟨hne, ho⟩), if_neg ho]
      by_cases hc : a = word [')'] <;> simp [hc]

theorem lacksAnd_done (h : rest.head? ≠ some (word ['-', 'o'])) :
    lacksAnd d rest = lacksClose d rest := by
  cases rest with
  | nil => rfl
  | cons a rest => exact if_neg fun hc => h (congrArg some hc)

theorem lacksClose_close : lacksClose (d + 1) (word [')'] :: rest) = lacksBehind d rest := by
  simp [lacksClose]

theorem lacksClose_ne (h : a ≠ word [')']) : lacksClose d (a :: rest) = false := by
  simp [lacksClose, h]

/-- An operand has to follow. -/
def Opening (a : Bytes) : Prop := a = word ['('] ∨ a = word ['-', 'a'] ∨ a = word ['-', 'o']

theorem getLastD_drop {k : Nat} (h : xs.drop k ≠ []) (x : Bytes) :
    xs.getLastD x = (xs.drop k).getLastD x := by
  have hne : xs ≠ [] := by
    rintro rfl
    exact h (by simp)
  rw [List.getLastD_eq_getLast?, List.getLastD_eq_getLast?, List.getLast?_eq_some_getLast hne,
    List.getLast?_eq_some_getLast h, List.getLast_drop]

/-- Where an operand is missing, the last argument is one that an operand has to follow. -/
theorem opening_getLastD (m : Nat) : ∀ (d : Nat) (rest : List Bytes), rest.length ≤ m →
    (lacksOperand d rest = true → rest = [] ∨ ∀ x, Opening (rest.getLastD x)) ∧
      (lacksBehind d rest = true → ∀ x, Opening (rest.getLastD x)) := by
  induction m with
  | zero =>
    intro d rest hle
    obtain rfl : rest = [] := List.eq_nil_of_length_eq_zero (by omega)
    exact ⟨fun _ => .inl rfl, fun h => by simp [lacksBehind] at h⟩
  | succ m ih =>
    intro d rest hle
    cases rest with
    | nil => exact ⟨fun _ => .inl rfl, fun h => by simp [lacksBehind] at h⟩
    | cons a rest =>
      simp only [List.length_cons] at hle
      have hle' : rest.length ≤ m := by omega
      have hlast : ∀ x, (a :: rest).getLastD x = rest.getLastD a := fun x => List.getLastD_cons
      constructor
      · intro h
        refine .inr fun x => ?_
        by_cases hbang : a = word ['!']
        · rw [hbang, lacksOperand_bang, Bool.and_eq_true] at h
          rcases (ih d rest hle').1 h.2 with rfl | hall
          · exact absurd h.1 (by decide)
          · exact hlast x ▸ hall a
        · by_cases hopen : a = word ['(']
          · rw [hopen, lacksOperand_open, Bool.and_eq_true] at h
            rcases (ih (d + 1) rest hle').1 h.2 with rfl | hall
            · exact .inl hopen
            · exact hlast x ▸ hall a
          · rw [lacksOperand_leaf hbang hopen, Bool.and_eq_true] at h
            have hne : (a :: rest).drop (leafLength (a :: rest)) ≠ [] := fun hc => by
              rw [hc] at h
              simp [lacksBehind] at h
            rw [getLastD_drop hne]
            refine (ih d _ ?_).2 h.2 x
            have hpos : 0 < leafLength (a :: rest) := leafLength_pos
            simp only [List.length_drop, List.length_cons]
            omega
      · intro h x
        rw [lacksBehind.eq_def] at h
        dsimp only at h
        split at h
        · next ha =>
          rw [Bool.and_eq_true] at h
          rcases (ih d rest hle').1 h.2 with rfl | hall
          · exact .inr ha
          · exact hlast x ▸ hall a
        · split at h
          · rw [Bool.and_eq_true] at h
            exact hlast x ▸ (ih (d - 1) rest hle').2 h.2 a
          · cases h

/-! ## How an evaluation ends -/

/-- The evaluation of at most `len` arguments leaves them if `lacks`, gives an error or a truth
value; then `behind` says of what is left whether an operand is missing. -/
inductive Ends (argvObj : List Bytes) (depth len : Nat) (lacks : Bool)
    (behind : List Bytes → Bool) : Outcome → Prop where
  | bounds (h : lacks = true) : Ends argvObj depth len lacks behind (.error .bounds)
  | undecided (s : Status) (ev' : Evaluator) (hs : ¬ s.Decided) (hle : s.code ≤ 3)
      (h : lacks = false) : Ends argvObj depth len lacks behind (.ok (s, ev'))
  | decided (s : Status) (ev' : Evaluator) (rest' : List Bytes) (hs : s.Decided)
      (hat : At argvObj ev' rest') (hle : rest'.length ≤ len) (hd : ev'.depth = depth)
      (h : lacks = behind rest') : Ends argvObj depth len lacks behind (.ok (s, ev'))

variable {lacks : Bool} {behind : List Bytes → Bool} {out : Outcome} {depth len len' : Nat}

theorem Ends.of_le (h : Ends argvObj depth len lacks behind out) (hle : len ≤ len') :
    Ends argvObj depth len' lacks behind out := by
  cases h with
  | bounds h => exact .bounds h
  | undecided s ev' hs hcode h => exact .undecided s ev' hs hcode h
  | decided s ev' rest' hs hat hl hd h =>
    exact .decided s ev' rest' hs hat (Nat.le_trans hl hle) hd h

/-- What is true of the functions with fuel `n`. -/
structure Spec (sys : System) (argvObj : List Bytes) (n : Nat) : Prop where
  other : ∀ {ev rest d}, At argvObj ev rest → ev.depth = d + 1 → d + 1 < recursionLimit →
    5 * rest.length + 1 ≤ n →
    Ends argvObj ev.depth rest.length (lacksOperand d rest) (lacksBehind d)
      (evalOther sys argvObj n argvObj.length d ev)
  init : ∀ {ev rest d}, At argvObj ev rest → ev.depth = d + 1 → d + 1 < recursionLimit →
    5 * rest.length + 2 ≤ n →
    Ends argvObj ev.depth rest.length (!isFixed rest && lacksOperand d rest) (lacksBehind d)
      (evalInit sys argvObj n argvObj.length d ev)
  base : ∀ {ev rest d}, At argvObj ev rest → ev.depth = d → d < recursionLimit →
    5 * rest.length + 3 ≤ n →
    Ends argvObj ev.depth rest.length (enters d rest && lacksOperand d rest) (lacksBehind d)
      (evalBase sys argvObj n argvObj.length d ev)
  and : ∀ {ev rest d s1}, At argvObj ev rest → ev.depth = d → d < recursionLimit →
    5 * rest.length + 4 ≤ n →
    Ends argvObj ev.depth rest.length (enters d rest && lacksOperand d rest) (lacksAnd d)
      (evalAndExpr sys argvObj n argvObj.length d s1 ev)
  or : ∀ {ev rest d s1}, At argvObj ev rest → ev.depth = d → d < recursionLimit →
    5 * rest.length + 5 ≤ n →
    Ends argvObj ev.depth rest.length (enters d rest && lacksOperand d rest) (lacksClose d)
      (evalOrExpr sys argvObj n argvObj.length d s1 ev)

theorem decided_both (s1 s2 : Nat) (r : Option Report) : Status.Decided ⟨both s1 s2, r⟩ := by
  unfold both Status.Decided
  split
  · exact .inl rfl
  · exact .inr rfl

theorem decided_either (s1 s2 : Nat) (r : Option Report) : Status.Decided ⟨either s1 s2, r⟩ := by
  unfold either Status.Decided
  split
  · exact .inl rfl
  · exact .inr rfl

/-- The end of the evaluation behind the expression in parentheses. -/
theorem ends_closeParen (h : Ends argvObj depth len lacks (lacksClose (d + 1)) out) :
    Ends argvObj depth len lacks (lacksBehind d)
      (out.bind fun r => closeParen argvObj argvObj.length r.1 r.2) := by
  cases h with
  | bounds h => exact .bounds h
  | undecided s ev' hs hcode h =>
    simp only [Except.bind, closeParen, if_pos hs]
    exact .undecided s ev' hs hcode h
  | decided s ev' rest' hs hat hl hd h =>
    simp only [Except.bind, closeParen, if_neg (not_not.2 hs), bind, pure, Except.pure]
    cases rest' with
    | nil =>
      have hlt : ¬ ev'.offset < argvObj.length := fun hc => hat.lt_iff.1 hc rfl
      have hne : ([] : Bytes) ≠ word [')'] := by decide
      simp only [if_neg hlt, if_pos hne]
      exact .undecided _ ev' (Status.not_decided_error _) (by decide) h
    | cons a rest' =>
      have hlt := hat.lt_iff.2 (by simp)
      simp only [if_pos hlt, hat.consume]
      by_cases ha : a = word [')']
      · subst ha
        simp only [ne_eq, not_true_eq_false, if_false]
        rw [lacksClose_close] at h
        exact .decided s _ rest' hs hat.tail (Nat.le_of_succ_le hl) hd h
      · simp only [ne_eq, ha, not_false_eq_true, if_true]
        rw [lacksClose_ne ha] at h
        exact .undecided _ _ (Status.not_decided_error _) (Nat.le_succ 2) h

theorem ends_leave (h : Ends argvObj (depth + 1) len lacks behind out) :
    Ends argvObj depth len lacks behind (out.map leave) := by
  cases h with
  | bounds h => exact .bounds h
  | undecided s ev' hs hle h => exact .undecided s _ hs hle h
  | decided s ev' rest' hs hat hle hd h =>
    exact .decided s _ rest' hs ⟨hat.size, hat.drop⟩ hle (by simp [hd]) h

theorem Spec.zero : Spec sys argvObj 0 where
  other _ _ _ hn := absurd hn (by omega)
  init _ _ _ hn := absurd hn (by omega)
  base _ _ _ hn := absurd hn (by omega)
  and _ _ _ hn := absurd hn (by omega)
  or _ _ _ hn := absurd hn (by omega)

variable (ih : Spec sys argvObj n)
include ih

theorem Spec.other_succ (h : At argvObj ev rest) (hd : ev.depth = d + 1)
    (hlim : d + 1 < recursionLimit) (hn : 5 * rest.length + 1 ≤ n + 1) :
    Ends argvObj ev.depth rest.length (lacksOperand d rest) (lacksBehind d)
      (evalOther sys argvObj (n + 1) argvObj.length d ev) := by
  cases rest with
  | nil =>
    rw [evalOther_nil h]
    exact .bounds (by simp [lacksOperand])
  | cons a rest =>
    simp only [List.length_cons] at hn
    by_cases hbang : a = word ['!']
    · subst hbang
      rw [evalOther_bang h, lacksOperand_bang]
      exact (ih.init h.tail hd hlim (by omega)).of_le (by simp)
    · by_cases hopen : a = word ['(']
      · subst hopen
        rw [evalOther_open h, lacksOperand_open]
        exact ends_closeParen ((ih.or h.tail hd hlim (by omega)).of_le (by simp))
      · obtain ⟨m, rfl⟩ : ∃ m, n = m + 1 := ⟨n - 1, by omega⟩
        rw [evalOther_leaf h hbang hopen, lacksOperand_leaf hbang hopen]
        have hiff := @decided_leafStatus sys (a :: rest) (by simp)
        have hcode := fixed_code (@fixed_take sys (a :: rest) (by simp))
        by_cases hs : (leafStatus sys (a :: rest)).Decided
        · rw [hiff.1 hs, Bool.true_and]
          have hat : At argvObj ev ((a :: rest).take (leafLength (a :: rest)) ++
              (a :: rest).drop (leafLength (a :: rest))) := by
            rwa [List.take_append_drop]
          have hskip := hat.skip
          rw [List.length_take_of_le (leafLength_le _)] at hskip
          exact .decided _ _ _ hs hskip (by simp) rfl rfl
        · rw [Bool.eq_false_iff.2 fun hc => hs (hiff.2 hc), Bool.false_and]
          exact .undecided _ _ hs (by omega) rfl

theorem Spec.init_succ (h : At argvObj ev rest) (hd : ev.depth = d + 1)
    (hlim : d + 1 < recursionLimit) (hn : 5 * rest.length + 2 ≤ n + 1) :
    Ends argvObj ev.depth rest.length (!isFixed rest && lacksOperand d rest) (lacksBehind d)
      (evalInit sys argvObj (n + 1) argvObj.length d ev) := by
  have hat : At argvObj ev (rest ++ []) := by rwa [List.append_nil]
  rw [evalInit_eq hat h.size.symm, ← @fixed_isSome sys]
  cases hf : fixed sys rest with
  | none => exact ih.other h hd hlim (by omega)
  | some s =>
    dsimp only
    by_cases hs : s.Decided
    · exact .decided s _ [] hs hat.skip (by simp) rfl (by simp [lacksBehind])
    · exact .undecided s _ hs (Nat.le_trans (fixed_code hf) (by omega)) (by simp)

theorem Spec.base_succ (h : At argvObj ev rest) (hd : ev.depth = d) (hlim : d < recursionLimit)
    (hn : 5 * rest.length + 3 ≤ n + 1) :
    Ends argvObj ev.depth rest.length (enters d rest && lacksOperand d rest) (lacksBehind d)
      (evalBase sys argvObj (n + 1) argvObj.length d ev) := by
  by_cases hdeep : ev.depth + 1 = recursionLimit
  · rw [evalBase_deep hdeep]
    refine .undecided _ ev (by simp [Status.Decided]) (Nat.le_refl 3) ?_
    simp [enters, ← hd, hdeep]
  · have hlim' : d + 1 < recursionLimit := by omega
    have hat : At argvObj { ev with depth := ev.depth + 1 } rest := ⟨h.size, h.drop⟩
    have hd' : ev.depth + 1 = d + 1 := congrArg (· + 1) hd
    cases d with
    | zero =>
      have henter : enters 0 rest = !isFixed rest := by simp [enters, recursionLimit]
      rw [henter, evalBase_init hdeep]
      exact ends_leave (ih.init hat hd' hlim' (by omega))
    | succ d =>
      have henter : enters (d + 1) rest = true := by simp [enters, hlim']
      rw [henter, Bool.true_and, evalBase_other hdeep (Nat.succ_ne_zero d)]
      exact ends_leave (ih.other hat hd' hlim' (by omega))

theorem Spec.and_succ {s1 : Nat} (h : At argvObj ev rest) (hd : ev.depth = d)
    (hlim : d < recursionLimit) (hn : 5 * rest.length + 4 ≤ n + 1) :
    Ends argvObj ev.depth rest.length (enters d rest && lacksOperand d rest) (lacksAnd d)
      (evalAndExpr sys argvObj (n + 1) argvObj.length d s1 ev) := by
  have hbase := ih.base h hd hlim (by omega)
  generalize hb : evalBase sys argvObj n argvObj.length d ev = out at hbase
  cases hbase with
  | bounds hl =>
    rw [evalAndExpr_error hb]
    exact .bounds hl
  | undecided s ev' hs hle hl =>
    rw [evalAndExpr_undecided hb hs]
    exact .undecided s ev' hs hle hl
  | decided s ev' rest' hs hat hle hd' hl =>
    by_cases hmore : rest'.head? = some (word ['-', 'a'])
    · obtain ⟨rest', rfl⟩ : ∃ r, rest' = word ['-', 'a'] :: r := List.head?_eq_some_iff.1 hmore
      simp only [List.length_cons] at hle
      rw [evalAndExpr_more hb hs hat, hl, lacksBehind_more]
      have hand := @Spec.and _ _ _ ih _ _ d (both s1 s.code) hat.tail (hd'.trans hd) hlim (by omega)
      rw [Evaluator.skip_depth, hd'] at hand
      exact hand.of_le (by omega)
    · rw [evalAndExpr_done hb hs hat hmore, hl, lacksBehind_done hmore]
      exact .decided _ ev' rest' (decided_both _ _ _) hat hle hd' rfl

theorem Spec.or_succ {s1 : Nat} (h : At argvObj ev rest) (hd : ev.depth = d)
    (hlim : d < recursionLimit) (hn : 5 * rest.length + 5 ≤ n + 1) :
    Ends argvObj ev.depth rest.length (enters d rest && lacksOperand d rest) (lacksClose d)
      (evalOrExpr sys argvObj (n + 1) argvObj.length d s1 ev) := by
  have hand := @Spec.and _ _ _ ih _ _ d 0 h hd hlim (by omega)
  generalize ha : evalAndExpr sys argvObj n argvObj.length d 0 ev = out at hand
  cases hand with
  | bounds hl =>
    rw [evalOrExpr_error ha]
    exact .bounds hl
  | undecided s ev' hs hle hl =>
    rw [evalOrExpr_undecided ha hs]
    exact .undecided s ev' hs hle hl
  | decided s ev' rest' hs hat hle hd' hl =>
    by_cases hmore : rest'.head? = some (word ['-', 'o'])
    · obtain ⟨rest', rfl⟩ : ∃ r, rest' = word ['-', 'o'] :: r := List.head?_eq_some_iff.1 hmore
      simp only [List.length_cons] at hle
      rw [evalOrExpr_more ha hs hat, hl, lacksAnd_more]
      have hor := @Spec.or _ _ _ ih _ _ d (either s1 s.code) hat.tail (hd'.trans hd) hlim
        (by omega)
      rw [Evaluator.skip_depth, hd'] at hor
      exact hor.of_le (by omega)
    · rw [evalOrExpr_done ha hs hat hmore, hl, lacksAnd_done hmore]
      exact .decided _ ev' rest' (decided_either _ _ _) hat hle hd' rfl

theorem Spec.succ : Spec sys argvObj (n + 1) where
  other h hd hlim hn := ih.other_succ h hd hlim hn
  init h hd hlim hn := ih.init_succ h hd hlim hn
  base h hd hlim hn := ih.base_succ h hd hlim hn
  and h hd hlim hn := ih.and_succ h hd hlim hn
  or h hd hlim hn := ih.or_succ h hd hlim hn

omit ih

theorem spec (sys : System) (argvObj : List Bytes) (n : Nat) : Spec sys argvObj n := by
  induction n with
  | zero => exact Spec.zero
  | succ n ih => exact ih.succ

/-! ## The whole evaluation -/

/-- The arguments of the command end where an operand is missing in parentheses. -/
def endsInParens (args : List Bytes) : Bool := enters 0 args && lacksOperand 0 args

/-- Arguments that end with another one than `(`, `-a` and `-o` lack no operand. -/
theorem endsInParens_of_last {args : List Bytes} (hne : args ≠ [])
    (h : ∀ a ∈ args.getLast?, ¬ Opening a) : endsInParens args = false := by
  rw [Bool.eq_false_iff]
  intro hends
  rw [endsInParens, Bool.and_eq_true] at hends
  rcases (opening_getLastD _ 0 args (Nat.le_refl _)).1 hends.2 with rfl | hall
  · exact hne rfl
  · refine h _ (List.getLast?_eq_some_getLast hne) ?_
    have hlast := hall []
    rwa [List.getLastD_eq_getLast?, List.getLast?_eq_some_getLast hne] at hlast

/-- A status with all arguments consumed if it is a truth value. -/
structure Complete (argvObj : List Bytes) (s : Status) (ev : Evaluator) : Prop where
  code : s.code ≤ 3
  consumed : s.code ≤ 1 → ev.offset = argvObj.length

/-- With enough fuel the evaluation ends, and leaves the bounds if an operand is missing in
parentheses. -/
theorem eval_ends {name : Bytes} {args : List Bytes} (hn : 5 * args.length + 5 ≤ n) :
    (endsInParens args = true ∧ eval sys (name :: args) n = .error .bounds) ∨
      (endsInParens args = false ∧ ∃ s ev, eval sys (name :: args) n = .ok (s, ev) ∧
        Complete (name :: args) s ev) := by
  have hat : At (name :: args) ⟨1, 0⟩ args := ⟨Nat.add_comm 1 _, rfl⟩
  have hor := @Spec.or _ _ _ (spec sys (name :: args) n) _ _ 0 1 hat rfl (by decide) hn
  generalize ho : evalOrExpr sys (name :: args) n (name :: args).length 0 1 ⟨1, 0⟩ = out at hor
  cases hor with
  | bounds hl => exact .inl ⟨hl, by rw [eval, ho]; rfl⟩
  | undecided s ev hs hle hl =>
    refine .inr ⟨hl, s, ev, ?_, hle, fun hc => absurd (Status.two_le hs) (by omega)⟩
    rw [eval, ho]
    simp [bind, Except.bind, hs, pure, Except.pure]
  | decided s ev rest hs hat hle hd hl =>
    have hclose : lacksClose 0 rest = false := by cases rest <;> simp [lacksClose]
    refine .inr ⟨hl.trans hclose, ?_⟩
    rw [eval, ho]
    by_cases hlt : ev.offset < (name :: args).length
    · refine ⟨.error .tooManyArguments, ev, ?_, Nat.le_succ 2, fun hc => ?_⟩
      · simp only [bind, Except.bind, not_true_eq_false, if_false, hs, hlt, if_true]
        rfl
      · exact absurd hc (by decide)
    · refine ⟨s, ev, ?_, ?_, fun _ => ?_⟩
      · simp only [bind, Except.bind, not_true_eq_false, if_false, hs, hlt]
        rfl
      · unfold Status.Decided at hs
        omega
      · have hsize := hat.size
        omega

/-- The evaluation ends with a status, within the bounds and with the assertions. -/
def Safe (sys : System) (argvObj : List Bytes) : Prop :=
  ∃ fuel, ∀ n, fuel ≤ n → ∃ s ev, eval sys argvObj n = .ok (s, ev) ∧ Complete argvObj s ev

/-- The evaluation is safe if and only if the arguments do not end where an operand is missing in
parentheses. -/
theorem safe_iff (sys : System) (name : Bytes) (args : List Bytes) :
    Safe sys (name :: args) ↔ endsInParens args = false := by
  constructor
  · rintro ⟨fuel, hsafe⟩
    obtain ⟨s, ev, hok, -⟩ := hsafe (fuel + (5 * args.length + 5)) (by omega)
    rcases @eval_ends sys _ name args (show 5 * args.length + 5 ≤ fuel + (5 * args.length + 5) by
      omega) with ⟨-, herr⟩ | ⟨hl, -⟩
    · rw [herr] at hok
      cases hok
    · exact hl
  · intro hl
    refine ⟨5 * args.length + 5, fun n hn => ?_⟩
    rcases @eval_ends sys n name args hn with ⟨hl', -⟩ | ⟨-, h⟩
    · rw [hl] at hl'
      cases hl'
    · exact h

/-- A system without files. -/
def noFiles : System := ⟨fun _ _ => false, fun _ _ _ => false⟩

/-- `test ( a -a b -a` reads behind the last argument. -/
theorem not_safe_and : ¬ Safe noFiles [word ['t', 'e', 's', 't'], word ['('], word ['a'],
    word ['-', 'a'], word ['b'], word ['-', 'a']] := by
  rintro ⟨fuel, hsafe⟩
  obtain ⟨s, ev, hok, -⟩ := hsafe (fuel + 30) (by omega)
  rcases @eval_ends noFiles (fuel + 30) (word ['t', 'e', 's', 't'])
    [word ['('], word ['a'], word ['-', 'a'], word ['b'], word ['-', 'a']]
    (by simp) with ⟨-, herr⟩ | ⟨hl, -⟩
  · rw [herr] at hok
    cases hok
  · revert hl
    decide

end

end Arsh.Test
