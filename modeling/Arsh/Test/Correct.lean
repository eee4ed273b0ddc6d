import Arsh.Test.Fixed

/-!
# `test` against its grammar

Inside of parentheses an operand is read word by word, and a negation is lost (`NotExpr.gives`).
Outside of them the last arguments are interpreted by their number (`AndExpr.gives_last`). Where
both read the operands of the derivation, the evaluation gives its value (`correct_of_fits`).
-/

namespace Arsh.Test

/-- The evaluation gives a truth value and leaves the arguments `after`. -/
def Gives (argvObj : List Bytes) (depth : Nat) (after : List Bytes) (v : Bool)
    (out : Outcome) : Prop :=
  ∃ ev, out = .ok (.ofBool v, ev) ∧ At argvObj ev after ∧ ev.depth = depth

/-- The next argument is no operator with two operands. -/
def NoOperator (after : List Bytes) : Prop :=
  ∀ a ∈ after.head?, (resolveBinaryOp a).isSome = false

/-- The code of a truth value. -/
def code (b : Bool) : Nat := (Status.ofBool b).code

section
variable {sys : System} {argvObj xs rest after : List Bytes} {ev : Evaluator} {a : Bytes}
  {d level n : Nat} {b v w : Bool} {out : Outcome}

theorem ofBool_both : (⟨both (code b) (code v), none⟩ : Status) = .ofBool (b && v) := by
  cases b <;> cases v <;> rfl

theorem ofBool_either : (⟨either (code b) (code v), none⟩ : Status) = .ofBool (b || v) := by
  cases b <;> cases v <;> rfl

theorem both_code : both (code b) (code v) = code (b && v) := congrArg Status.code ofBool_both

theorem either_code : either (code b) (code v) = code (b || v) :=
  congrArg Status.code ofBool_either

/-! ## The loops -/

theorem gives_and_done (h : Gives argvObj d after v (evalBase sys argvObj n argvObj.length d ev))
    (hne : after.head? ≠ some (word ['-', 'a'])) : Gives argvObj d after (b && v)
      (evalAndExpr sys argvObj (n + 1) argvObj.length d (code b) ev) := by
  obtain ⟨ev', hb, hat, hd⟩ := h
  refine ⟨ev', ?_, hat, hd⟩
  rw [evalAndExpr_done hb (Status.decided_ofBool v) hat hne]
  exact congrArg (fun s => Except.ok (s, ev')) ofBool_both

theorem gives_and_more
    (h : Gives argvObj d (word ['-', 'a'] :: rest) v
      (evalBase sys argvObj n argvObj.length d ev))
    (ih : ∀ ev', At argvObj ev' rest → ev'.depth = d → Gives argvObj d after w
      (evalAndExpr sys argvObj n argvObj.length d (code (b && v)) ev')) :
    Gives argvObj d after w (evalAndExpr sys argvObj (n + 1) argvObj.length d (code b) ev) := by
  obtain ⟨ev', hb, hat, hd⟩ := h
  rw [evalAndExpr_more hb (Status.decided_ofBool v) hat]
  change Gives _ _ _ _ (evalAndExpr _ _ _ _ _ (both (code b) (code v)) _)
  rw [both_code]
  exact ih _ hat.tail hd

theorem gives_or_done
    (h : Gives argvObj d after v (evalAndExpr sys argvObj n argvObj.length d 0 ev))
    (hne : after.head? ≠ some (word ['-', 'o'])) : Gives argvObj d after (b || v)
      (evalOrExpr sys argvObj (n + 1) argvObj.length d (code b) ev) := by
  obtain ⟨ev', hb, hat, hd⟩ := h
  refine ⟨ev', ?_, hat, hd⟩
  rw [evalOrExpr_done hb (Status.decided_ofBool v) hat hne]
  exact congrArg (fun s => Except.ok (s, ev')) ofBool_either

theorem gives_or_more
    (h : Gives argvObj d (word ['-', 'o'] :: rest) v
      (evalAndExpr sys argvObj n argvObj.length d 0 ev))
    (ih : ∀ ev', At argvObj ev' rest → ev'.depth = d → Gives argvObj d after w
      (evalOrExpr sys argvObj n argvObj.length d (code (b || v)) ev')) :
    Gives argvObj d after w (evalOrExpr sys argvObj (n + 1) argvObj.length d (code b) ev) := by
  obtain ⟨ev', hb, hat, hd⟩ := h
  rw [evalOrExpr_more hb (Status.decided_ofBool v) hat]
  change Gives _ _ _ _ (evalOrExpr _ _ _ _ _ (either (code b) (code v)) _)
  rw [either_code]
  exact ih _ hat.tail hd

/-! ## Operands inside of parentheses -/

theorem gives_leave (h : Gives argvObj (d + 1) after v out) :
    Gives argvObj d after v (out.map leave) := by
  obtain ⟨ev, rfl, hat, hd⟩ := h
  exact ⟨_, rfl, ⟨hat.size, hat.drop⟩, by simp [hd]⟩

theorem gives_closeParen (h : Gives argvObj d (word [')'] :: after) v out) :
    Gives argvObj d after v
      (out.bind fun r => closeParen argvObj argvObj.length r.1 r.2) := by
  obtain ⟨ev, rfl, hat, hd⟩ := h
  refine ⟨ev.skip 1, ?_, hat.tail, hd⟩
  have hlt := hat.lt_iff.2 (by simp)
  simp [Except.bind, closeParen, bind, pure, Except.pure, hlt, hat.consume]

theorem gives_leaf (xs : List Bytes) (h : At argvObj ev (a :: xs ++ after)) (hbang : a ≠ word ['!'])
    (hopen : a ≠ word ['(']) (hlen : leafLength (a :: xs ++ after) = (a :: xs).length)
    (hfix : fixed sys (a :: xs) = some (.ofBool v)) (hd : ev.depth = d) :
    Gives argvObj d after v (evalOther sys argvObj (n + 2) argvObj.length level ev) := by
  have hstatus : leafStatus sys (a :: xs ++ after) = .ofBool v := by
    rw [leafStatus, hlen, List.take_left, hfix]
    rfl
  have hleaf := @evalOther_leaf sys argvObj (xs ++ after) ev a level n h hbang hopen
  refine ⟨_, hleaf.trans (congrArg (fun s => Except.ok (s, _)) hstatus), ?_, hd⟩
  have hskip := h.skip
  rwa [← hlen] at hskip

theorem noOperator_close : NoOperator (word [')'] :: after) := by
  rintro a ⟨⟩
  decide

theorem noOperator_and : NoOperator (word ['-', 'a'] :: after) := by
  rintro a ⟨⟩
  decide

theorem noOperator_or : NoOperator (word ['-', 'o'] :: after) := by
  rintro a ⟨⟩
  decide

theorem leafLength_arg (h : isUnaryOp a = false) (hafter : NoOperator after) :
    leafLength (a :: after) = 1 := by
  rcases after with _ | ⟨b, _ | ⟨c, after⟩⟩
  · rfl
  · simp [leafLength, h]
  · have hb := hafter b rfl
    simp [leafLength, h, hb]

theorem leafLength_unary {op : Bytes} (h : isUnaryOp op = true)
    (ha : (resolveBinaryOp a).isSome = false) : leafLength (op :: a :: after) = 2 := by
  cases after <;> simp [leafLength, h, ha]

theorem ne_of_isUnaryOp {op : Bytes} (h : isUnaryOp op = true) :
    op ≠ word ['!'] ∧ op ≠ word ['('] := by
  obtain ⟨o, rfl, -⟩ := isUnaryOp_iff.1 h
  constructor <;> rintro ⟨⟩

/-- The operand is one word, or an operator with its operands. -/
def NotExpr.IsLeaf : NotExpr → Prop
  | .neg _ | .paren _ => False
  | _ => True

theorem NotExpr.gives_of_isLeaf {e : NotExpr} (hleaf : e.IsLeaf)
    (hs : e.Straight) (hv : e.value sys = some v) (h : At argvObj ev (e.text ++ after))
    (hd : ev.depth = d) (hafter : NoOperator after) :
    Gives argvObj d after v (evalOther sys argvObj (n + 2) argvObj.length level ev) := by
  cases e with
  | neg e' => exact hleaf.elim
  | paren t => exact hleaf.elim
  | unary op x =>
    obtain ⟨hbang, hopen⟩ := ne_of_isUnaryOp op.2
    refine gives_leaf [x] h hbang hopen (leafLength_unary op.2 hs) ?_ hd
    exact congrArg some (eval2ArgsExpr_unary op.2 hv)
  | binary left op right =>
    refine gives_leaf [op.1, right] h hs.1 hs.2 ?_ ?_ hd
    · simp [leafLength, op.2]
    · obtain ⟨o, ho⟩ := Option.isSome_iff_exists.1 op.2
      simp only [NotExpr.value, ho, Option.bind_some] at hv
      exact congrArg some (eval3ArgsExpr_binary ho hv)
  | arg x =>
    refine gives_leaf [] h hs.1 hs.2.1 (leafLength_arg hs.2.2 hafter) ?_ hd
    cases hv
    rfl

mutual

/-- Inside of parentheses an expression gives its value. -/
theorem OrExpr.gives (t : OrExpr) {ev : Evaluator} {after : List Bytes} {b v : Bool} {d n : Nat}
    (hs : t.Straight) (hv : t.value sys = some v)
    (h : At argvObj ev (t.text ++ word [')'] :: after)) (hd : ev.depth = d + 1)
    (hlim : d + 2 + t.nesting < recursionLimit)
    (hn : 5 * (t.text ++ word [')'] :: after).length + 5 ≤ n) :
    Gives argvObj (d + 1) (word [')'] :: after) (b || v)
      (evalOrExpr sys argvObj n argvObj.length (d + 1) (code b) ev) := by
  obtain ⟨n, rfl⟩ : ∃ m, n = m + 1 := ⟨n - 1, by omega⟩
  match t with
  | .one a =>
    have ha := AndExpr.gives a (b := true) (n := n) hs hv h hd hlim noOperator_close
      (fun hc => absurd (Option.some.inj hc) (by decide))
      (by simp only [OrExpr.text] at hn; omega)
    rw [Bool.true_and] at ha
    exact gives_or_done ha fun hc => absurd (Option.some.inj hc) (by decide)
  | .more a rest =>
    obtain ⟨x, hx, hv⟩ := Option.bind_eq_some_iff.1 hv
    obtain ⟨y, hy, hv⟩ := Option.bind_eq_some_iff.1 hv
    obtain rfl : (x || y) = v := Option.some.inj hv
    simp only [OrExpr.nesting] at hlim
    simp only [OrExpr.text, List.append_assoc, List.cons_append] at h hn
    have ha := AndExpr.gives a (b := true) (n := n) hs.1 hx h hd (by omega) noOperator_or
      (fun hc => absurd (Option.some.inj hc) (by decide)) (by omega)
    rw [Bool.true_and] at ha
    apply gives_or_more ha
    intro ev' h' hd'
    rw [← Bool.or_assoc]
    simp only [List.length_append, List.length_cons] at hn
    exact OrExpr.gives rest hs.2 hy h' hd' (by omega)
      (by simp only [List.length_append, List.length_cons]; omega)
termination_by structural t

theorem AndExpr.gives (a : AndExpr) {ev : Evaluator} {after : List Bytes} {b v : Bool}
    {d n : Nat} (hs : a.Straight) (hv : a.value sys = some v)
    (h : At argvObj ev (a.text ++ after)) (hd : ev.depth = d + 1)
    (hlim : d + 2 + a.nesting < recursionLimit) (hafter : NoOperator after)
    (hne : after.head? ≠ some (word ['-', 'a']))
    (hn : 5 * (a.text ++ after).length + 4 ≤ n) :
    Gives argvObj (d + 1) after (b && v)
      (evalAndExpr sys argvObj n argvObj.length (d + 1) (code b) ev) := by
  obtain ⟨n, rfl⟩ : ∃ m, n = m + 2 := ⟨n - 2, by omega⟩
  have hdeep : ev.depth + 1 ≠ recursionLimit := by omega
  match a with
  | .one e =>
    refine gives_and_done ?_ hne
    rw [evalBase_other hdeep (Nat.succ_ne_zero d)]
    exact gives_leave (NotExpr.gives e hs hv ⟨h.size, h.drop⟩ (congrArg (· + 1) hd) hlim hafter
      (by simp only [AndExpr.text] at hn; omega))
  | .more e rest =>
    obtain ⟨x, hx, hv⟩ := Option.bind_eq_some_iff.1 hv
    obtain ⟨y, hy, hv⟩ := Option.bind_eq_some_iff.1 hv
    obtain rfl : (x && y) = v := Option.some.inj hv
    simp only [AndExpr.nesting] at hlim
    simp only [AndExpr.text, List.append_assoc, List.cons_append] at h hn
    have hat : At argvObj { ev with depth := ev.depth + 1 }
      (e.text ++ word ['-', 'a'] :: (rest.text ++ after)) := ⟨h.size, h.drop⟩
    have hbase := gives_leave (NotExpr.gives e (d := d + 1) (n := n) hs.1 hx hat
      (congrArg (· + 1) hd) (by omega) noOperator_and (by omega))
    rw [← evalBase_other hdeep (Nat.succ_ne_zero d)] at hbase
    apply gives_and_more hbase
    intro ev' h' hd'
    rw [← Bool.and_assoc]
    simp only [List.length_append, List.length_cons] at hn
    exact AndExpr.gives rest hs.2 hy h' hd' (by omega) hafter hne
      (by simp only [List.length_append]; omega)
termination_by structural a

theorem NotExpr.gives (e : NotExpr) {ev : Evaluator} {after : List Bytes} {v : Bool}
    {d n : Nat} (hs : e.Straight) (hv : e.value sys = some v)
    (h : At argvObj ev (e.text ++ after)) (hd : ev.depth = d + 1)
    (hlim : d + 1 + e.nesting < recursionLimit) (hafter : NoOperator after)
    (hn : 5 * (e.text ++ after).length + 1 ≤ n) :
    Gives argvObj (d + 1) after v (evalOther sys argvObj n argvObj.length d ev) := by
  obtain ⟨n, rfl⟩ : ∃ m, n = m + 2 := by
    have hpos := e.text_pos
    simp only [List.length_append] at hn
    exact ⟨n - 2, by omega⟩
  match e with
  | .neg e => exact hs.elim
  | .paren t =>
    simp only [NotExpr.text, List.cons_append, List.append_assoc, List.nil_append] at h hn
    simp only [NotExpr.nesting] at hlim
    rw [evalOther_open h]
    apply gives_closeParen
    have ht := OrExpr.gives t (b := false) (n := n + 1) hs hv h.tail hd (by omega)
      (by simp only [List.length_cons, List.length_append] at hn ⊢; omega)
    rwa [Bool.false_or] at ht
  | .unary op x => exact NotExpr.gives_of_isLeaf (e := .unary op x) trivial hs hv h hd hafter
  | .binary left op right =>
    exact NotExpr.gives_of_isLeaf (e := .binary left op right) trivial hs hv h hd hafter
  | .arg x => exact NotExpr.gives_of_isLeaf (e := .arg x) trivial hs hv h hd hafter
termination_by structural e

end

/-! ## Operands outside of parentheses -/

/-- The last arguments are interpreted at once. -/
theorem gives_fixed (h : At argvObj ev rest) (hd : ev.depth = 0)
    (hfix : fixed sys rest = some (.ofBool v)) :
    Gives argvObj 0 [] v (evalBase sys argvObj (n + 2) argvObj.length 0 ev) := by
  have hdeep : ev.depth + 1 ≠ recursionLimit := by
    rw [hd]
    decide
  have hat : At argvObj { ev with depth := ev.depth + 1 } (rest ++ []) := by
    rw [List.append_nil]
    exact ⟨h.size, h.drop⟩
  rw [evalBase_init hdeep, evalInit_eq hat h.size.symm, hfix]
  exact gives_leave ⟨_, rfl, hat.skip, congrArg (· + 1) hd⟩

/-- Another operand is read word by word. -/
theorem gives_operand {e : NotExpr} (h : At argvObj ev (e.text ++ after)) (hd : ev.depth = 0)
    (hfix : isFixed (e.text ++ after) = false) (hs : e.Straight) (hv : e.value sys = some v)
    (hlim : e.nesting + 1 < recursionLimit) (hafter : NoOperator after)
    (hn : 5 * (e.text ++ after).length + 1 ≤ n) :
    Gives argvObj 0 after v (evalBase sys argvObj (n + 2) argvObj.length 0 ev) := by
  have hdeep : ev.depth + 1 ≠ recursionLimit := by
    rw [hd]
    decide
  have hat : At argvObj { ev with depth := ev.depth + 1 } (e.text ++ after) := ⟨h.size, h.drop⟩
  have hat' : At argvObj { ev with depth := ev.depth + 1 } ((e.text ++ after) ++ []) := by
    rwa [List.append_nil]
  have hnone : fixed sys (e.text ++ after) = none := by
    rw [← Option.not_isSome_iff_eq_none, fixed_isSome, hfix]
    decide
  rw [evalBase_init hdeep, evalInit_eq hat' h.size.symm, hnone]
  exact gives_leave (NotExpr.gives e hs hv hat (congrArg (· + 1) hd) (by omega) hafter hn)

/-- What is behind operands with `-a` between them, outside of parentheses. -/
def Continues (after : List Bytes) : Prop :=
  after = [] ∨ ∃ t : OrExpr, after = word ['-', 'o'] :: t.text

theorem Continues.noOperator (h : Continues after) : NoOperator after := by
  rcases h with rfl | ⟨t, rfl⟩
  · exact nofun
  · exact noOperator_or

theorem Continues.head_ne (h : Continues after) : after.head? ≠ some (word ['-', 'a']) := by
  rcases h with rfl | ⟨t, rfl⟩
  · exact nofun
  · exact fun hc => absurd (Option.some.inj hc) (by decide)

theorem AndExpr.eq_of_length {a : AndExpr} (h : a.text.length = 1) :
    ∃ x, a = .one (.arg x) ∧ a.text = [x] := by
  obtain ⟨x, hx⟩ := List.length_eq_one_iff.1 h
  exact ⟨x, AndExpr.eq_arg hx, hx⟩

theorem NotExpr.eq_of_length {e : NotExpr} (h : e.text.length = 1) : ∃ x, e = .arg x := by
  obtain ⟨x, hx⟩ := List.length_eq_one_iff.1 h
  exact ⟨x, NotExpr.eq_arg hx⟩

/-- An operand with no `-a` behind it gives its value, unless it is a word, and `-o` and the last
word are behind: these three are interpreted at once. -/
theorem NotExpr.gives_last {e : NotExpr} {inAnd : Bool} (hf : e.Fits inAnd (e.text ++ after))
    (hv : e.value sys = some v) (hu : after = [] → (OrExpr.one (.one e)).Unambiguous)
    (hafter : Continues after) (h : At argvObj ev (e.text ++ after)) (hd : ev.depth = 0)
    (hlim : e.nesting + 1 < recursionLimit) (hn : 5 * (e.text ++ after).length + 1 ≤ n) :
    Gives argvObj 0 after v (evalBase sys argvObj (n + 2) argvObj.length 0 ev) ∨
      ∃ x y, e = .arg x ∧ after = [word ['-', 'o'], y] ∧ inAnd = false ∧
        Gives argvObj 0 [] (decide (x ≠ []) || decide (y ≠ []))
          (evalBase sys argvObj (n + 2) argvObj.length 0 ev) := by
  unfold NotExpr.Fits at hf
  cases hfix : isFixed (e.text ++ after) with
  | false =>
    rw [if_neg (by simp [hfix])] at hf
    exact .inl (gives_operand h hd hfix hf hv hlim hafter.noOperator hn)
  | true =>
    rw [if_pos hfix] at hf
    by_cases hall : e.text ++ after = e.text
    · obtain rfl : after = [] := List.append_right_eq_self.1 hall
      rw [List.append_nil] at h hfix
      exact .inl (gives_fixed h hd (fixed_text (hu rfl) hfix hv))
    · obtain ⟨hlen, hor⟩ := hf.resolve_left hall
      obtain rfl | ⟨t, rfl⟩ := hafter
      · exact absurd (List.append_nil _) hall
      · have he := e.text_pos
        have ht := t.text_pos
        simp only [List.length_append, List.length_cons] at hlen
        obtain ⟨x, rfl⟩ := NotExpr.eq_of_length (e := e) (by omega)
        obtain ⟨y, hy⟩ := List.length_eq_one_iff.1 (show t.text.length = 1 by omega)
        rw [hy] at h hor ⊢
        cases inAnd with
        | true => exact absurd rfl (hor rfl)
        | false => exact .inr ⟨x, y, rfl, rfl, rfl, gives_fixed h hd fixed_or⟩

/-- Two words with `-a` between them are interpreted at once if they are the last ones. -/
theorem gives_words {e : NotExpr} {a : AndExpr} {inAnd : Bool}
    (hf : e.Fits inAnd (e.text ++ word ['-', 'a'] :: (a.text ++ after)))
    (hfix : isFixed (e.text ++ word ['-', 'a'] :: (a.text ++ after)) = true)
    (hv : e.value sys = some v) (hw : a.value sys = some w)
    (h : At argvObj ev (e.text ++ word ['-', 'a'] :: (a.text ++ after))) (hd : ev.depth = 0) :
    after = [] ∧ Gives argvObj 0 [] (v && w)
      (evalBase sys argvObj (n + 2) argvObj.length 0 ev) := by
  have hne : e.text ++ word ['-', 'a'] :: (a.text ++ after) ≠ e.text := fun hc => by
    have hlen := congrArg List.length hc
    simp at hlen
  rw [NotExpr.Fits, if_pos hfix] at hf
  obtain ⟨hlen, -⟩ := hf.resolve_left hne
  have he := e.text_pos
  have ha := a.text_pos
  simp only [List.length_append, List.length_cons] at hlen
  obtain ⟨x, rfl⟩ := NotExpr.eq_of_length (e := e) (by omega)
  obtain ⟨y, rfl, hy⟩ := AndExpr.eq_of_length (a := a) (by omega)
  obtain rfl : after = [] := List.eq_nil_of_length_eq_zero (by omega)
  cases hv
  cases hw
  rw [hy, List.append_nil] at h
  exact ⟨rfl, gives_fixed h hd fixed_and⟩

/-- The same of operands with `-a` between them. -/
theorem AndExpr.gives_last (a : AndExpr) {ev : Evaluator} {after : List Bytes} {b v : Bool}
    {n : Nat} {inAnd : Bool} (hf : a.Fits inAnd after) (hv : a.value sys = some v)
    (hu : after = [] → (OrExpr.one a).Unambiguous) (hafter : Continues after)
    (hb : inAnd = false → b = true) (h : At argvObj ev (a.text ++ after)) (hd : ev.depth = 0)
    (hlim : a.nesting + 1 < recursionLimit) (hn : 5 * (a.text ++ after).length + 4 ≤ n) :
    Gives argvObj 0 after (b && v) (evalAndExpr sys argvObj n argvObj.length 0 (code b) ev) ∨
      ∃ x y, a = .one (.arg x) ∧ after = [word ['-', 'o'], y] ∧ inAnd = false ∧
        Gives argvObj 0 [] (decide (x ≠ []) || decide (y ≠ []))
          (evalAndExpr sys argvObj n argvObj.length 0 (code b) ev) := by
  obtain ⟨n, rfl⟩ : ∃ m, n = m + 3 := ⟨n - 3, by omega⟩
  have hnil : ([] : List Bytes).head? ≠ some (word ['-', 'a']) := nofun
  match a with
  | .one e =>
    simp only [AndExpr.text] at h hn
    rcases NotExpr.gives_last (n := n) hf hv hu hafter h hd hlim (by omega) with
      hg | ⟨x, y, rfl, rfl, rfl, hg⟩
    · exact .inl (gives_and_done hg hafter.head_ne)
    · obtain rfl := hb rfl
      have hdone := gives_and_done (b := true) hg hnil
      rw [Bool.true_and] at hdone
      exact .inr ⟨x, y, rfl, rfl, rfl, hdone⟩
  | .more e rest =>
    obtain ⟨x, hx, hv⟩ := Option.bind_eq_some_iff.1 hv
    obtain ⟨y, hy, hv⟩ := Option.bind_eq_some_iff.1 hv
    obtain rfl : (x && y) = v := Option.some.inj hv
    simp only [AndExpr.text, List.append_assoc, List.cons_append] at h hn
    simp only [AndExpr.nesting] at hlim
    obtain ⟨hf, hrest⟩ := hf
    cases hfix : isFixed (e.text ++ word ['-', 'a'] :: (rest.text ++ after)) with
    | true =>
      obtain ⟨rfl, hg⟩ := gives_words (n := n) hf hfix hx hy h hd
      exact .inl (gives_and_done hg hnil)
    | false =>
      rw [NotExpr.Fits, if_neg (by simp [hfix])] at hf
      have hop := gives_operand (n := n) h hd hfix hf hx (by omega) noOperator_and (by omega)
      simp only [List.length_append, List.length_cons] at hn
      refine .inl (gives_and_more hop fun ev' h' hd' => ?_)
      rw [← Bool.and_assoc]
      have hu' : after = [] → (OrExpr.one rest).Unambiguous := fun hc =>
        unambiguous_of_more (hu hc)
      rcases AndExpr.gives_last rest (b := b && x) (n := n + 2) hrest hy hu' hafter nofun h' hd'
        (by omega) (by simp only [List.length_append]; omega) with hg | ⟨_, _, _, _, hc, _⟩
      · exact hg
      · cases hc
termination_by structural a

theorem OrExpr.gives_last (t : OrExpr) {ev : Evaluator} {b v : Bool} {n : Nat} (hf : t.Fits)
    (hv : t.value sys = some v) (hu : t.Unambiguous) (h : At argvObj ev t.text)
    (hd : ev.depth = 0) (hlim : t.nesting + 1 < recursionLimit)
    (hn : 5 * t.text.length + 5 ≤ n) :
    Gives argvObj 0 [] (b || v) (evalOrExpr sys argvObj n argvObj.length 0 (code b) ev) := by
  obtain ⟨n, rfl⟩ : ∃ m, n = m + 1 := ⟨n - 1, by omega⟩
  match t with
  | .one a =>
    have hat : At argvObj ev (a.text ++ []) := by rwa [List.append_nil]
    rcases AndExpr.gives_last a (b := true) (n := n) hf hv (fun _ => hu) (.inl rfl) (fun _ => rfl)
      hat hd hlim (by rw [List.append_nil]; simp only [OrExpr.text] at hn; omega) with
      hg | ⟨_, _, _, hc, _⟩
    · rw [Bool.true_and] at hg
      exact gives_or_done hg nofun
    · cases hc
  | .more a rest =>
    obtain ⟨x, hx, hv⟩ := Option.bind_eq_some_iff.1 hv
    obtain ⟨y, hy, hv⟩ := Option.bind_eq_some_iff.1 hv
    obtain rfl : (x || y) = v := Option.some.inj hv
    simp only [OrExpr.text] at h hn
    simp only [OrExpr.nesting] at hlim
    rcases AndExpr.gives_last a (b := true) (n := n) hf.1 hx nofun (.inr ⟨rest, rfl⟩)
      (fun _ => rfl) h hd (by omega) (by omega) with hg | ⟨z, w, rfl, hw, -, hg⟩
    · rw [Bool.true_and] at hg
      apply gives_or_more hg
      intro ev' h' hd'
      rw [← Bool.or_assoc]
      simp only [List.length_append, List.length_cons] at hn
      exact OrExpr.gives_last rest hf.2 hy (unambiguous_of_or hu) h' hd' (by omega) (by omega)
    · obtain rfl := OrExpr.eq_arg (List.cons.inj hw).2
      cases hx
      cases hy
      exact gives_or_done hg nofun
termination_by structural t

theorem eval_of_gives {name : Bytes} {args : List Bytes} (h : Gives (name :: args) 0 [] v
    (evalOrExpr sys (name :: args) n (name :: args).length 0 1 ⟨1, 0⟩)) :
    ∃ ev, eval sys (name :: args) n = .ok (.ofBool v, ev) := by
  obtain ⟨ev, hor, hat, -⟩ := h
  have hlt : ¬ ev.offset < (name :: args).length := fun hc => hat.lt_iff.1 hc rfl
  refine ⟨ev, ?_⟩
  rw [eval, hor]
  simp only [bind, Except.bind, Status.decided_ofBool, not_true_eq_false, if_false, hlt]
  rfl

/-- The evaluation gives the value of the derivation, if it has one. -/
def Correct (sys : System) (t : OrExpr) : Prop :=
  ∀ name v, t.value sys = some v →
    ∃ fuel, ∀ n, fuel ≤ n → ∃ ev, eval sys (name :: t.text) n = .ok (.ofBool v, ev)

/-- An unambiguous derivation within the nesting limit is evaluated to its value if its operands
are read as they are. -/
theorem correct_of_fits (sys : System) (t : OrExpr) (hu : t.Unambiguous)
    (hlim : t.nesting + 1 < recursionLimit) (hf : t.Fits) : Correct sys t := by
  intro name v hv
  refine ⟨5 * t.text.length + 5, fun n hn => eval_of_gives ?_⟩
  have hat : At (name :: t.text) ⟨1, 0⟩ t.text := ⟨Nat.add_comm 1 _, rfl⟩
  have hg := OrExpr.gives_last t (b := false) hf hv hu hat rfl hlim hn
  rwa [Bool.false_or] at hg

/-! ## Two derivations -/

theorem NotExpr.eq_arg_of_append {e : NotExpr} (h : e.text ++ xs = a :: rest)
    (hbang : a ≠ word ['!']) (hopen : a ≠ word ['(']) (ha : isUnaryOp a = false)
    (hrest : NoOperator rest) : e = .arg a ∧ xs = rest := by
  cases e with
  | neg e => exact absurd (List.cons.inj h).1.symm hbang
  | paren t => exact absurd (List.cons.inj h).1.symm hopen
  | unary op x =>
    obtain ⟨rfl, -⟩ := List.cons.inj h
    exact absurd op.2 (by simp [ha])
  | binary left op right =>
    obtain ⟨-, h⟩ := List.cons.inj h
    have hop := hrest op.1 (by rw [← h]; rfl)
    exact absurd op.2 (by simp [hop])
  | arg x =>
    obtain ⟨rfl, h'⟩ := List.cons.inj h
    exact ⟨rfl, h'⟩

theorem AndExpr.eq_arg_of_append {e : AndExpr} (h : e.text ++ xs = a :: rest)
    (hbang : a ≠ word ['!']) (hopen : a ≠ word ['(']) (ha : isUnaryOp a = false)
    (hrest : NoOperator rest) : (e = .one (.arg a) ∧ xs = rest) ∨
      ∃ e', e = .more (.arg a) e' ∧ word ['-', 'a'] :: (e'.text ++ xs) = rest := by
  cases e with
  | one e =>
    obtain ⟨rfl, hxs⟩ := NotExpr.eq_arg_of_append h hbang hopen ha hrest
    exact .inl ⟨rfl, hxs⟩
  | more e e' =>
    simp only [AndExpr.text, List.append_assoc, List.cons_append] at h
    obtain ⟨rfl, hxs⟩ := NotExpr.eq_arg_of_append h hbang hopen ha hrest
    exact .inr ⟨e', rfl, hxs⟩

/-- `a -o b -a c`. -/
def orAnd : OrExpr :=
  .more (.one (.arg (word ['a']))) (.one (.more (.arg (word ['b'])) (.one (.arg (word ['c'])))))

theorem orAnd_unambiguous : orAnd.Unambiguous := fun t ht => by
  have hor := @noOperator_or [word ['b'], word ['-', 'a'], word ['c']]
  have hand := @noOperator_and [word ['c']]
  cases t with
  | one e =>
    have he : e.text ++ [] = orAnd.text := by rwa [List.append_nil]
    rcases AndExpr.eq_arg_of_append he (by decide) (by decide) rfl hor with
      ⟨-, hxs⟩ | ⟨e', -, hxs⟩
    · cases hxs
    · exact absurd (List.cons.inj hxs).1 (by decide)
  | more e t =>
    rcases AndExpr.eq_arg_of_append (show _ = orAnd.text from ht) (by decide) (by decide) rfl hor
      with ⟨rfl, hxs⟩ | ⟨e', -, hxs⟩
    · have htext : t.text = [word ['b'], word ['-', 'a'], word ['c']] := (List.cons.inj hxs).2
      cases t with
      | one e =>
        have he : e.text ++ [] = _ := (List.append_nil _).trans htext
        rcases AndExpr.eq_arg_of_append he (by decide) (by decide) rfl hand with
          ⟨-, hxs'⟩ | ⟨e', rfl, hxs'⟩
        · cases hxs'
        · rw [List.append_nil] at hxs'
          rw [AndExpr.eq_arg (List.cons.inj hxs').2]
          rfl
      | more e t =>
        rcases AndExpr.eq_arg_of_append htext (by decide) (by decide) rfl hand with
          ⟨-, hxs⟩ | ⟨e', -, hxs⟩
        · exact absurd (List.cons.inj hxs).1 (by decide)
        · have hlen := congrArg List.length (List.cons.inj hxs).2
          have hpos := e'.text_pos
          simp only [List.length_append, List.length_cons, List.length_nil] at hlen
          omega
    · exact absurd (List.cons.inj hxs).1 (by decide)

theorem correct_orAnd : Correct noFiles orAnd := by
  refine correct_of_fits noFiles orAnd orAnd_unambiguous (by decide) ⟨?_, ?_, ?_⟩
  · exact ⟨by decide, by decide, by decide⟩
  · exact .inr ⟨rfl, nofun⟩
  · exact .inl rfl

/-- Of an operand with one reading in front of a connective, its conjunction with a word has one. -/
theorem unambiguous_and_arg {e : NotExpr} {y : Bytes}
    (h : ∀ (e' : NotExpr) (w : Bytes) (ys : List Bytes), w = word ['-', 'a'] ∨ w = word ['-', 'o'] →
      e'.text ++ w :: ys = e.text ++ [word ['-', 'a'], y] → e' = e)
    (hne : ∀ e' : NotExpr, e'.text ≠ e.text ++ [word ['-', 'a'], y]) :
    (OrExpr.one (.more e (.one (.arg y)))).Unambiguous := fun t ht => by
  have htext : t.text = e.text ++ [word ['-', 'a'], y] := ht
  have key : ∀ (a : AndExpr) (xs : List Bytes), (xs = [] ∨ ∃ ys, xs = word ['-', 'o'] :: ys) →
      a.text ++ xs = e.text ++ [word ['-', 'a'], y] → xs = [] ∧ a = .more e (.one (.arg y)) := by
    intro a xs hxs ha
    cases a with
    | one e' =>
      rcases hxs with rfl | ⟨ys, rfl⟩
      · exact absurd ((List.append_nil _).symm.trans ha) (hne e')
      · obtain rfl := h e' _ ys (.inr rfl) ha
        have hconn := (List.cons.inj (List.append_cancel_left ha)).1
        exact absurd hconn (by decide)
    | more e' rest =>
      simp only [AndExpr.text, List.append_assoc, List.cons_append] at ha
      obtain rfl := h e' _ _ (.inl rfl) ha
      have hrest : rest.text ++ xs = [y] := (List.cons.inj (List.append_cancel_left ha)).2
      have hpos := rest.text_pos
      have hlen := congrArg List.length hrest
      simp only [List.length_append, List.length_cons, List.length_nil] at hlen
      obtain rfl : xs = [] := List.eq_nil_of_length_eq_zero (by omega)
      rw [List.append_nil] at hrest
      rw [AndExpr.eq_arg hrest]
      exact ⟨rfl, rfl⟩
  cases t with
  | one a => rw [(key a [] (.inl rfl) ((List.append_nil _).trans htext)).2]
  | more a rest => cases (key a _ (.inr ⟨rest.text, rfl⟩) htext).1

/-- A word that is negated, or the word `!`. -/
theorem NotExpr.eq_of_bang {e : NotExpr} (h : e.text ++ xs = word ['!'] :: a :: rest)
    (ha : (resolveBinaryOp a).isSome = false) :
    (∃ e', e = .neg e' ∧ e'.text ++ xs = a :: rest) ∨ (e = .arg (word ['!']) ∧ xs = a :: rest) := by
  cases e with
  | neg e => exact .inl ⟨e, rfl, (List.cons.inj h).2⟩
  | paren t => exact absurd (List.cons.inj h).1 (by decide)
  | unary op x =>
    have hop := (List.cons.inj h).1 ▸ op.2
    exact absurd hop (by decide)
  | binary left op right =>
    have hop := (List.cons.inj (List.cons.inj h).2).1 ▸ op.2
    exact absurd hop (by simp [ha])
  | arg x =>
    obtain ⟨rfl, h'⟩ := List.cons.inj h
    exact .inr ⟨rfl, h'⟩

/-- `! "" -a ""`. -/
def negFirst : OrExpr := .one (.more (.neg (.arg [])) (.one (.arg [])))

theorem negFirst_unambiguous : negFirst.Unambiguous := by
  apply unambiguous_and_arg
  · intro e w ys hw h
    rcases NotExpr.eq_of_bang h rfl with ⟨e', rfl, h'⟩ | ⟨-, h'⟩
    · rw [(NotExpr.eq_arg_of_append h' (by decide) (by decide) rfl noOperator_and).1]
    · rcases hw with rfl | rfl <;> cases (List.cons.inj h').1
  · intro e h
    rcases NotExpr.eq_of_bang ((List.append_nil _).trans h) rfl with ⟨e', -, h'⟩ | ⟨-, h'⟩
    · cases (NotExpr.eq_arg_of_append h' (by decide) (by decide) rfl noOperator_and).2
    · cases h'

/-- The negation of `! "" -a ""` is applied to the whole. -/
theorem not_correct_negFirst : ¬ ∀ t : OrExpr, t.Unambiguous → t.nesting + 1 < recursionLimit →
    Correct noFiles t := fun h => by
  obtain ⟨fuel, hfuel⟩ := h negFirst negFirst_unambiguous (by decide) [] false rfl
  obtain ⟨ev, hev⟩ := hfuel (fuel + 10) (by omega)
  have hat : At ([] :: negFirst.text) ⟨1, 0⟩ negFirst.text := ⟨rfl, rfl⟩
  have hfix : fixed noFiles negFirst.text = some (.ofBool true) := rfl
  have hand := gives_and_done (b := true) (gives_fixed (n := fuel + 6) hat rfl hfix) nofun
  have hor := gives_or_done (b := false) hand nofun
  obtain ⟨ev', hev'⟩ := eval_of_gives hor
  rw [hev'] at hev
  cases hev

/-- `! x == x -a y`. -/
def negBinary : OrExpr :=
  .one (.more (.neg (.binary (word ['x']) ⟨word ['=', '='], rfl⟩ (word ['x'])))
    (.one (.arg (word ['y']))))

/-- A comparison, or its first word. -/
theorem NotExpr.eq_of_binary {e : NotExpr} {op : BinaryWord} {y : Bytes}
    (h : e.text ++ xs = a :: op.1 :: y :: rest) (hbang : a ≠ word ['!']) (hopen : a ≠ word ['('])
    (ha : isUnaryOp a = false) :
    (e = .binary a op y ∧ xs = rest) ∨ (e = .arg a ∧ xs = op.1 :: y :: rest) := by
  cases e with
  | neg e => exact absurd (List.cons.inj h).1.symm hbang
  | paren t => exact absurd (List.cons.inj h).1.symm hopen
  | unary op' x =>
    obtain ⟨rfl, -⟩ := List.cons.inj h
    exact absurd op'.2 (by simp [ha])
  | binary left op' right =>
    obtain ⟨rfl, h₁⟩ := List.cons.inj h
    obtain ⟨hop, h₂⟩ := List.cons.inj h₁
    obtain rfl : op' = op := Subtype.ext hop
    obtain ⟨rfl, h₃⟩ := List.cons.inj h₂
    exact .inl ⟨rfl, h₃⟩
  | arg x =>
    obtain ⟨rfl, h₁⟩ := List.cons.inj h
    exact .inr ⟨rfl, h₁⟩

theorem negBinary_unambiguous : negBinary.Unambiguous := by
  apply unambiguous_and_arg
  · intro e w ys hw h
    rcases NotExpr.eq_of_bang h rfl with ⟨e', rfl, h'⟩ | ⟨-, h'⟩
    · rcases NotExpr.eq_of_binary h' (by decide) (by decide) rfl with ⟨rfl, -⟩ | ⟨-, h''⟩
      · rfl
      · rcases hw with rfl | rfl <;> cases (List.cons.inj h'').1
    · rcases hw with rfl | rfl <;> cases (List.cons.inj h').1
  · intro e h
    rcases NotExpr.eq_of_bang ((List.append_nil _).trans h) rfl with ⟨e', -, h'⟩ | ⟨-, h'⟩
    · rcases NotExpr.eq_of_binary h' (by decide) (by decide) rfl with ⟨-, h''⟩ | ⟨-, h''⟩
      · cases h''
      · cases h''
    · cases h'

/-- The negation of `! x == x -a y` is dropped: in front of more than three arguments `!` is read
over. -/
theorem not_correct_negBinary : negBinary.Unambiguous ∧ negBinary.nesting + 1 < recursionLimit ∧
    ¬ Correct noFiles negBinary := by
  refine ⟨negBinary_unambiguous, by decide, fun h => ?_⟩
  obtain ⟨fuel, hfuel⟩ := h [] false rfl
  obtain ⟨ev, hev⟩ := hfuel (fuel + 20) (by omega)
  have heval : eval noFiles ([] :: negBinary.text) (fuel + 20) = .ok (.ofBool true, ⟨7, 0⟩) := rfl
  rw [heval] at hev
  cases hev

end

end Arsh.Test
