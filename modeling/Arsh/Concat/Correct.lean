import Arsh.Concat.Codegen

/-!
# Compiled concatenations are correct

The leaves of a node are what its code evaluates. `generateConcat_correct`: the code evaluates them once each,
from left to right, and pushes the concatenation of their texts, or appends it to the string on the top.
-/

namespace Arsh.Concat

/-! ## Leaves -/

inductive Leaf where
  | lit (value : Bytes)
  /-- an expression, with a method that is called on it or without, to be interpolated or not -/
  | block (node : Node) (handle interp : Bool)

/-- `generateConcat` goes into what is embedded. -/
def Node.transparent (node : Node) : Bool :=
  isBinaryStrConcat node || node.isStringExprNode || node.isStringNode

mutual

def leaves : Node → List Leaf
  | .string value => [.lit value]
  | .stringExpr exprNodes => leavesAll exprNodes
  | .add left right => leaves left ++ leaves right
  | .embed kind handle exprNode =>
    if exprNode.transparent then leaves exprNode
    else [.block exprNode (handle && kind = .cmdArg) (kind = .strExpr)]
  | .expr id isString => [.block (.expr id isString) false false]

def leavesAll : List Node → List Leaf
  | [] => []
  | exprNode :: exprNodes => leaves exprNode ++ leavesAll exprNodes

end

mutual

/-- Nodes are embedded only where the parser does it, and the left operand of an addition is a string. -/
def Node.Ok : Node → Prop
  | .string .. | .expr .. => True
  | .stringExpr exprNodes => Node.OkAll exprNodes
  | .add left right => left.Ok ∧ right.Ok ∧ left.isString = true ∧ left.isEmbedNode = false
  | .embed _ _ exprNode => exprNode.Ok ∧ exprNode.isEmbedNode = false

def Node.OkAll : List Node → Prop
  | [] => True
  | exprNode :: exprNodes => exprNode.Ok ∧ Node.OkAll exprNodes

end

section
variable {σ α ε : Type} (env : Env σ α ε)

/-- The value of a leaf. -/
def Env.evalLeaf : Leaf → σ → Except ε (Operand α × σ)
  | .lit value, s => .ok (.str value, s)
  | .block node handle _, s =>
    env.eval node s >>= fun r => if handle then env.call r.1 r.2 else .ok r

def Leaf.interp : Leaf → Bool
  | lit _ => false
  | block _ _ interp => interp

/-- A leaf is evaluated and appended. -/
def Env.appendLeaf (r : Bytes × σ) (l : Leaf) : Except ε (Bytes × σ) :=
  env.evalLeaf l r.2 >>= fun v => (env.concat l.interp r.1 v.1 v.2).map fun out => (out, v.2)

def Env.appendLeaves (ls : List Leaf) (r : Bytes × σ) : Except ε (Bytes × σ) :=
  ls.foldlM env.appendLeaf r

/-- The machine is not stuck. -/
def ran {β : Type} (r : Except ε β) : Run ε β := .mk (some r)

/-- The string on top of the stack. -/
def onTop (stack : List (Operand α)) (r : Bytes × σ) : State σ α := (.str r.1 :: stack, r.2)

def Appends (code : List Ins) (ls : List Leaf) : Prop :=
  ∀ base stack s, env.exec code (.str base :: stack, s) =
    ran ((env.appendLeaves ls (base, s)).map (onTop stack))

def Pushes (code : List Ins) (ls : List Leaf) : Prop :=
  ∀ stack s, env.exec code (stack, s) = ran ((env.appendLeaves ls ([], s)).map (onTop stack))

end

/-! ## Code of leaves -/

section
variable {σ α ε : Type} {env : Env σ α ε} {code code' : List Ins} {ls ls' : List Leaf}

theorem exec_singleton (i : Ins) (m : State σ α) : env.exec [i] m = env.step m i := by
  unfold Env.exec
  rw [List.foldlM_cons]
  exact bind_pure _

theorem exec_append (m : State σ α) :
    env.exec (code ++ code') m = env.exec code m >>= env.exec code' := List.foldlM_append

theorem appendLeaves_append (r : Bytes × σ) : env.appendLeaves (ls ++ ls') r =
    env.appendLeaves ls r >>= env.appendLeaves ls' := List.foldlM_append

/-- What comes behind code that leaves a string. -/
theorem ran_then {r : Except ε (Bytes × σ)} {stack : List (Operand α)} (h : Appends env code ls) :
    (ran (r.map (onTop stack)) >>= env.exec code) =
      ran ((r >>= env.appendLeaves ls).map (onTop stack)) := by
  cases r with
  | error e => rfl
  | ok r => exact h r.1 stack r.2

theorem Appends.nil : Appends env [] [] := fun _ _ _ => rfl

theorem Appends.append (h : Appends env code ls) (h' : Appends env code' ls') :
    Appends env (code ++ code') (ls ++ ls') := by
  intro base stack s
  rw [exec_append, h, ran_then h', appendLeaves_append]

theorem Pushes.append (h : Pushes env code ls) (h' : Appends env code' ls') :
    Pushes env (code ++ code') (ls ++ ls') := by
  intro stack s
  rw [exec_append, h, ran_then h', appendLeaves_append]

/-- The code pushes the value of the leaf. -/
def Evaluates (env : Env σ α ε) (code : List Ins) (l : Leaf) : Prop :=
  ∀ stack s, env.exec code (stack, s) = ran ((env.evalLeaf l s).map fun r => (r.1 :: stack, r.2))

theorem Evaluates.appends {l : Leaf} (h : Evaluates env code l) :
    Appends env (code ++ [if l.interp then .interpolate else .concat]) [l] := by
  intro base stack s
  rw [exec_append, h]
  unfold Env.appendLeaves
  rw [List.foldlM_cons]
  unfold Env.appendLeaf
  cases hl : env.evalLeaf l s with
  | error e => rfl
  | ok r =>
    show env.exec [if l.interp then .interpolate else .concat] (r.1 :: .str base :: stack, r.2) = _
    have hstep : env.exec [if l.interp then .interpolate else .concat]
        (r.1 :: .str base :: stack, r.2) =
        ran ((env.concat l.interp base r.1 r.2).map fun out => (.str out :: stack, r.2)) := by
      rw [exec_singleton]
      cases l.interp <;> rfl
    rw [hstep]
    show _ = ran (Except.map _ ((env.concat l.interp base r.1 r.2).map _ >>= _))
    cases env.concat l.interp base r.1 r.2 <;> rfl

/-- A string is as good as one that it was appended to, when that was empty. -/
theorem Evaluates.pushes {l : Leaf} (h : Evaluates env code l)
    (hstr : ∀ s v s', env.evalLeaf l s = .ok (v, s') → ∃ t, v = .str t) : Pushes env code [l] := by
  intro stack s
  rw [h]
  unfold Env.appendLeaves
  rw [List.foldlM_cons]
  unfold Env.appendLeaf
  cases hl : env.evalLeaf l s with
  | error e => rfl
  | ok r =>
    obtain ⟨t, ht⟩ := hstr s r.1 r.2 hl
    have hconcat : env.concat l.interp [] r.1 r.2 = .ok t := by
      rw [ht]
      unfold Env.concat concatText
      dsimp only
      by_cases hnil : t = []
      · rw [if_pos hnil, hnil]
        rfl
      · rw [if_neg hnil, if_pos rfl]
        rfl
    show ran (Except.ok (r.1 :: stack, r.2)) =
      ran (Except.map _ ((env.concat l.interp [] r.1 r.2).map _ >>= _))
    rw [hconcat, ht]
    rfl

theorem evaluates_lit (value : Bytes) :
    Evaluates env (visitStringNode value) (.lit value) := by
  intro stack s
  unfold visitStringNode emitString
  split_ifs <;> rfl

theorem evalLeaf_block (node : Node) (handle interp : Bool) (s : σ) :
    env.evalLeaf (.block node handle interp) s =
      env.eval node s >>= fun r => if handle then env.call r.1 r.2 else .ok r := rfl

theorem evaluates_block (node : Node) (handle interp : Bool) :
    Evaluates env (.block node :: if handle then [.callMethod] else [])
      (.block node handle interp) := by
  intro stack s
  have hblock : env.exec [.block node] (stack, s) =
      ran ((env.eval node s).map fun r => (r.1 :: stack, r.2)) := exec_singleton _ _
  have hcode : (.block node :: if handle then [.callMethod] else []) =
      [Ins.block node] ++ if handle then [.callMethod] else [] := rfl
  rw [hcode, evalLeaf_block, exec_append, hblock]
  cases env.eval node s with
  | error e => rfl
  | ok r =>
    cases handle with
    | false => rfl
    | true =>
      show env.exec [.callMethod] (r.1 :: stack, r.2) = _
      rw [exec_singleton]
      rfl

/-! ## Code of nodes -/

/-- What is embedded as a value has a block of code. -/
theorem visit_block {node : Node} (ht : node.transparent = false) (he : node.isEmbedNode = false) :
    visit node = [.block node] := by
  unfold Node.transparent at ht
  cases node with
  | string | stringExpr => cases ht
  | embed => cases he
  | add left right =>
    rw [visit, if_neg]
    unfold isBinaryStrConcat at ht
    simpa [Node.isStringExprNode, Node.isStringNode] using ht
  | expr => rw [visit]

theorem transparent_iff {node : Node} :
    (isBinaryStrConcat node = true ∨ node.isStringExprNode = true ∨ node.isStringNode = true) ↔
      node.transparent = true := by
  unfold Node.transparent
  rw [Bool.or_eq_true, Bool.or_eq_true, or_assoc]

mutual

/-- With `fragment`, the leaves are appended. -/
theorem generateConcat_appends (node : Node) (hok : node.Ok) :
    Appends env (generateConcat node true) (leaves node) := by
  match node with
  | .string value =>
    rw [generateConcat, leaves]
    by_cases hnil : value = []
    · rw [if_pos ⟨hnil, rfl⟩, hnil]
      exact fun _ _ _ => rfl
    · rw [if_neg fun h => hnil h.1, if_pos rfl]
      exact (evaluates_lit value).appends
  | .stringExpr exprNodes =>
    rw [generateConcat, leaves, if_neg fun h => h.1 rfl]
    rw [Node.Ok] at hok
    exact generateConcatAll_appends exprNodes hok
  | .add left right =>
    rw [Node.Ok] at hok
    obtain ⟨hleft, hright, hstr, -⟩ := hok
    have hconcat : isBinaryStrConcat (.add left right) = true := hstr
    rw [generateConcat, leaves, if_pos hconcat]
    exact (generateConcat_appends left hleft).append (generateConcat_appends right hright)
  | .embed kind handle exprNode =>
    rw [Node.Ok] at hok
    rw [generateConcat, leaves]
    cases ht : exprNode.transparent with
    | true =>
      rw [if_pos (transparent_iff.2 ht), if_pos rfl]
      exact generateConcat_appends exprNode hok.1
    | false =>
      rw [if_neg (by rw [transparent_iff, ht]; exact Bool.false_ne_true),
        if_neg Bool.false_ne_true, visit_block ht hok.2]
      cases kind with
      | strExpr => simpa [Leaf.interp] using (evaluates_block exprNode false true).appends
      | cmdArg => simpa [Leaf.interp] using (evaluates_block exprNode handle false).appends
  | .expr id isString =>
    rw [generateConcat, leaves, if_pos rfl]
    exact (evaluates_block (.expr id isString) false false).appends

theorem generateConcatAll_appends (exprNodes : List Node) (hok : Node.OkAll exprNodes) :
    Appends env (generateConcatAll exprNodes true) (leavesAll exprNodes) := by
  match exprNodes with
  | [] =>
    rw [generateConcatAll, leavesAll]
    exact .nil
  | exprNode :: exprNodes =>
    rw [Node.OkAll] at hok
    rw [generateConcatAll, leavesAll]
    exact (generateConcat_appends exprNode hok.1).append (generateConcatAll_appends exprNodes hok.2)

end

/-- Code that needs a string below it. -/
def Node.interpolated : Node → Bool
  | embed kind _ exprNode => kind = .strExpr && !exprNode.transparent
  | _ => false

/-- What other code promises: an expression of type `String` has a string as its value. -/
structure Env.Typed (env : Env σ α ε) : Prop where
  eval : ∀ node s v s', node.isString = true → env.eval node s = .ok (v, s') → ∃ t, v = .str t
  call : ∀ v s w s', env.call v s = .ok (w, s') → ∃ t, w = .str t

theorem pushes_block (henv : env.Typed) {node : Node} {handle interp : Bool}
    (hstr : handle = true ∨ node.isString = true) :
    Pushes env (.block node :: if handle then [.callMethod] else [])
      [.block node handle interp] := by
  apply (evaluates_block node handle interp).pushes
  intro s v s' h
  rw [evalLeaf_block] at h
  cases heval : env.eval node s with
  | error e =>
    rw [heval] at h
    cases h
  | ok r =>
    rw [heval] at h
    cases handle with
    | true => exact henv.call _ _ _ _ h
    | false =>
      cases h
      exact henv.eval _ _ _ _ (hstr.resolve_left Bool.false_ne_true) heval

/-- Without `fragment`, a node of type `String` has its leaves pushed. -/
theorem generateConcat_pushes (henv : env.Typed) (node : Node) (hok : node.Ok)
    (hstr : node.isString = true) (hinterp : node.interpolated = false) :
    Pushes env (generateConcat node false) (leaves node) := by
  match node with
  | .string value =>
    rw [generateConcat, leaves]
    have hpushes : Pushes env (visitStringNode value) [.lit value] :=
      (evaluates_lit value).pushes fun s v s' h => by
        cases h
        exact ⟨value, rfl⟩
    simpa using hpushes
  | .stringExpr exprNodes =>
    rw [Node.Ok] at hok
    rw [generateConcat, leaves]
    cases hhead : exprNodes.head?.any Node.isStringNode with
    | false =>
      have hpush : Pushes env [.pushStr []] [] := fun _ _ => rfl
      rw [if_pos ⟨Bool.false_ne_true, Bool.false_ne_true⟩]
      exact hpush.append (generateConcatAll_appends exprNodes hok)
    | true =>
      rw [if_neg fun h => h.2 rfl]
      match exprNodes with
      | .string value :: exprNodes =>
        rw [Node.OkAll] at hok
        rw [generateConcatAll, leavesAll]
        have hfirst := generateConcat_pushes henv (.string value) hok.1 rfl rfl
        exact hfirst.append (generateConcatAll_appends exprNodes hok.2)
  | .add left right =>
    rw [Node.Ok] at hok
    obtain ⟨hleft, hright, hstr, hembed⟩ := hok
    have hconcat : isBinaryStrConcat (.add left right) = true := hstr
    have hnot : left.interpolated = false := by
      cases left <;> first | rfl | cases hembed
    rw [generateConcat, leaves, if_pos hconcat]
    exact (generateConcat_pushes henv left hleft hstr hnot).append
      (generateConcat_appends right hright)
  | .embed kind handle exprNode =>
    rw [Node.Ok] at hok
    rw [generateConcat, leaves]
    cases ht : exprNode.transparent with
    | true =>
      have hexpr : exprNode.isString = true ∧ exprNode.interpolated = false := by
        unfold Node.transparent at ht
        cases exprNode <;> first | exact ⟨rfl, rfl⟩ | cases ht
      rw [if_pos (transparent_iff.2 ht), if_pos rfl]
      exact generateConcat_pushes henv exprNode hok.1 hexpr.1 hexpr.2
    | false =>
      rw [if_neg (by rw [transparent_iff, ht]; exact Bool.false_ne_true),
        if_neg Bool.false_ne_true, visit_block ht hok.2]
      cases kind with
      | strExpr =>
        simp [Node.interpolated, ht] at hinterp
      | cmdArg =>
        have hpushes := @pushes_block _ _ _ env henv exprNode handle false
          (Bool.or_eq_true_iff.1 hstr)
        simpa using hpushes
  | .expr id isString =>
    rw [generateConcat, leaves]
    exact @pushes_block _ _ _ env henv (.expr id isString) false false (.inr hstr)

/-! ## Texts -/

/-- The text of a leaf: a string itself, or what is printed for another value. -/
def Env.leafText (env : Env σ α ε) (l : Leaf) (s : σ) : Except ε (Bytes × σ) :=
  env.evalLeaf l s >>= fun v =>
    match v.1 with
    | .str t => .ok (t, v.2)
    | .other w =>
      match env.pieces l.interp w v.2 with
      | (pieces, none) => .ok (pieces.flatten, v.2)
      | (_, some e) => .error e

/-- The texts of leaves, which are evaluated once each and in their order. -/
def Env.leafTexts (env : Env σ α ε) : List Leaf → σ → Except ε (List Bytes × σ)
  | [], s => .ok ([], s)
  | l :: ls, s => env.leafText l s >>= fun t =>
    (env.leafTexts ls t.2).map fun ts => (t.1 :: ts.1, ts.2)

/-- The texts come one after the other, unless there is an error, or the string becomes too long. -/
def Concatenated (env : Env σ α ε) (ls : List Leaf) (base : Bytes) (s : σ) :
    Except ε (Bytes × σ) → Prop
  | .ok (out, s') => ∃ texts, env.leafTexts ls s = .ok (texts, s') ∧ out = base ++ texts.flatten
  | .error e => env.leafTexts ls s = .error e ∨ e = env.stringLimit ∧
    ∀ texts s', env.leafTexts ls s = .ok (texts, s') → maxSize < (base ++ texts.flatten).length

theorem concatText_some {left out : Bytes} {right : RightText}
    (h : concatText left right = some out) :
    out = left ++ match right with
      | .str t => t
      | .pieces pieces => pieces.flatten := by
  cases right with
  | str t =>
    unfold concatText at h
    dsimp only at h ⊢
    split_ifs at h with hnil hleft
    · rw [hnil, List.append_nil]
      exact (Option.some.inj h).symm
    · rw [hleft, List.nil_append]
      exact (Option.some.inj h).symm
    · exact appendText_some h
  | pieces pieces => exact appendPieces_some h

theorem concatText_none {left : Bytes} {right : RightText} (h : concatText left right = none) :
    maxSize < (left ++ match right with
      | .str t => t
      | .pieces pieces => pieces.flatten).length := by
  rw [List.length_append]
  by_contra hle
  cases right with
  | str t =>
    unfold concatText at h
    dsimp only at h hle
    split_ifs at h
    rw [appendText_eq_some (by omega)] at h
    cases h
  | pieces pieces =>
    unfold concatText at h
    dsimp only at h hle
    rw [appendPieces_eq_some (by omega)] at h
    cases h

/-- One leaf. -/
theorem appendLeaf_spec (base : Bytes) (s : σ) (l : Leaf) :
    match env.appendLeaf (base, s) l with
    | .ok (out, s') => ∃ t, env.leafText l s = .ok (t, s') ∧ out = base ++ t
    | .error e => env.leafText l s = .error e ∨ e = env.stringLimit ∧
      ∀ t s', env.leafText l s = .ok (t, s') → maxSize < (base ++ t).length := by
  unfold Env.appendLeaf Env.leafText
  cases env.evalLeaf l s with
  | error e => exact .inl rfl
  | ok r =>
    obtain ⟨v, s'⟩ := r
    unfold Env.concat
    dsimp only [bind, Except.bind]
    cases v with
    | str t =>
      dsimp only
      cases hconcat : concatText base (.str t) with
      | none =>
        refine .inr ⟨rfl, fun t' _ ht => ?_⟩
        cases ht
        exact concatText_none hconcat
      | some out => exact ⟨t, rfl, concatText_some hconcat⟩
    | other w =>
      dsimp only
      obtain ⟨pieces, err⟩ := env.pieces l.interp w s'
      cases hconcat : concatText base (.pieces pieces) with
      | none =>
        cases err with
        | some e => exact .inr ⟨rfl, fun _ _ ht => nomatch ht⟩
        | none =>
          refine .inr ⟨rfl, fun t' _ ht => ?_⟩
          cases ht
          exact concatText_none hconcat
      | some out =>
        cases err with
        | some e => exact .inl rfl
        | none => exact ⟨_, rfl, concatText_some hconcat⟩

theorem leafTexts_cons {l : Leaf} {ls : List Leaf} {s s' : σ} {t : Bytes}
    (h : env.leafText l s = .ok (t, s')) : env.leafTexts (l :: ls) s =
      (env.leafTexts ls s').map fun ts => (t :: ts.1, ts.2) := by
  rw [Env.leafTexts, h]
  rfl

theorem cons_of_map {r : Except ε (List Bytes × σ)} {t : Bytes} {texts : List Bytes} {s' : σ}
    (h : (r.map fun ts => (t :: ts.1, ts.2)) = .ok (texts, s')) :
    ∃ rest, r = .ok (rest, s') ∧ texts = t :: rest := by
  cases r with
  | error e => cases h
  | ok r =>
    cases h
    exact ⟨r.1, rfl, rfl⟩

theorem appendLeaves_spec (ls : List Leaf) (base : Bytes) (s : σ) :
    Concatenated env ls base s (env.appendLeaves ls (base, s)) := by
  induction ls generalizing base s with
  | nil => exact ⟨[], rfl, by rw [List.flatten_nil, List.append_nil]⟩
  | cons l ls ih =>
    have hleaf := @appendLeaf_spec σ α ε env base s l
    unfold Env.appendLeaves at ih ⊢
    rw [List.foldlM_cons]
    cases happend : env.appendLeaf (base, s) l with
    | error e =>
      rw [happend] at hleaf
      show _ ∨ _
      rw [Env.leafTexts]
      rcases hleaf with herr | ⟨rfl, hlong⟩
      · rw [herr]
        exact .inl rfl
      · cases ht : env.leafText l s with
        | error e' => exact .inr ⟨rfl, fun _ _ h => nomatch h⟩
        | ok r =>
          refine .inr ⟨rfl, fun texts s' h => ?_⟩
          have hlong := hlong r.1 r.2 ht
          obtain ⟨rest, -, rfl⟩ := cons_of_map h
          rw [List.flatten_cons, ← List.append_assoc, List.length_append]
          omega
    | ok r =>
      obtain ⟨out, s'⟩ := r
      rw [happend] at hleaf
      obtain ⟨t, ht, rfl⟩ := hleaf
      have hrest := ih (base ++ t) s'
      show Concatenated env (l :: ls) base s (ls.foldlM env.appendLeaf (base ++ t, s'))
      cases hdone : ls.foldlM env.appendLeaf (base ++ t, s') with
      | ok r =>
        rw [hdone] at hrest
        obtain ⟨texts, htexts, hout⟩ := hrest
        refine ⟨t :: texts, ?_, ?_⟩
        · rw [leafTexts_cons ht, htexts]
          rfl
        · rw [hout, List.flatten_cons, List.append_assoc]
      | error e =>
        rw [hdone] at hrest
        rcases hrest with herr | ⟨rfl, hlong⟩
        · exact .inl (by rw [leafTexts_cons ht, herr]; rfl)
        · refine .inr ⟨rfl, fun texts s'' h => ?_⟩
          rw [leafTexts_cons ht] at h
          obtain ⟨rest, hrest, rfl⟩ := cons_of_map h
          rw [List.flatten_cons, ← List.append_assoc]
          exact hlong rest s'' hrest

/-! ## Results -/

/-- The code of `generateConcat` evaluates the leaves once each, from left to right. With `fragment` it appends
their texts to the string on the top, and without it pushes them, as one string; nothing else on the stack
changes. In the objects of strings, what is appended is seen by no other reference. -/
theorem generateConcat_correct (henv : env.Typed) (node : Node) (hok : node.Ok)
    (stack : List (Operand α)) (s : σ) :
    (∀ base, ∃ r, env.exec (generateConcat node true) (.str base :: stack, s) =
        ran (r.map (onTop stack)) ∧ Concatenated env (leaves node) base s r) ∧
      (node.isString = true → node.interpolated = false →
        ∃ r, env.exec (generateConcat node false) (stack, s) = ran (r.map (onTop stack)) ∧
          Concatenated env (leaves node) [] s r) ∧
      ∀ c refcount append left right,
        (∀ a, right = .str (.object a) → Shared c refcount append left a) →
        (concatAsStr c refcount append left right).map (fun r => r.1.asStrRef r.2) =
            concatText (c.asStrRef left) (c.rightText right) ∧
          ∀ r, concatAsStr c refcount append left right = some r →
            ∀ a, Shared c refcount append left a → r.1.text a = c.text a := by
  refine ⟨fun base => ?_, fun hstr hinterp => ?_, concatAsStr_spec⟩
  · exact ⟨_, generateConcat_appends node hok base stack s, appendLeaves_spec _ _ _⟩
  · exact ⟨_, generateConcat_pushes henv node hok hstr hinterp stack s, appendLeaves_spec _ _ _⟩

end

/-- Any number is one, and the state is the list of what has been evaluated. -/
def sampleEnv : Env (List Nat) Nat Unit where
  eval
    | .expr id true, s => .ok (.str [UInt8.ofNat id], s ++ [id])
    | .expr id false, s => .ok (.other id, s ++ [id])
    | _, s => .ok (.str [], s)
  call _ s := .ok (.str [42], s)
  pieces _ v _ := ([[48], [UInt8.ofNat v]], none)
  stringLimit := ()

/-- `"$a" + ("b" + "${"c"}")`, where the value of `a` is no string. -/
def sampleNode : Node :=
  .add (.stringExpr [.embed .strExpr false (.expr 7 false)])
    (.add (.string [98]) (.stringExpr [.embed .strExpr false (.string [99])]))

theorem generateConcat_correct_sample :
    ∃ r, sampleEnv.exec (generateConcat sampleNode false) ([], []) = ran (r.map (onTop [])) ∧
      Concatenated sampleEnv (leaves sampleNode) [] [] r := by
  have henv : sampleEnv.Typed := by
    refine ⟨fun node s v s' hstr h => ?_, fun v s w s' h => ?_⟩
    · cases node with
      | expr id isString =>
        cases hstr
        cases h
        exact ⟨_, rfl⟩
      | _ =>
        cases h
        exact ⟨_, rfl⟩
    · cases h
      exact ⟨_, rfl⟩
  have hok : sampleNode.Ok := by
    simp [sampleNode, Node.Ok, Node.OkAll, Node.isEmbedNode, Node.isString]
  exact (generateConcat_correct henv sampleNode hok [] []).2.1 rfl rfl

end Arsh.Concat
