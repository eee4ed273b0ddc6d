import Arsh.Case.MapCase

/-!
# Lowering to a chain

The code of `generateIfElseCase` tries the patterns one after another, and each arm has its own labels, so that no
label is marked twice. A pattern leaves on the stack whether it is accepted (`runs_pattern`), the patterns of an arm
whether one of them is (`runs_patterns`), and the chain comes to the selected arm.
-/

namespace Arsh.Case

open Obj Map Machine Labels

/-! ## Labels -/

section
variable {node : CaseNode} {ε : Type} {env : Env node ε} {code : Code} {v : Value}
  {cs : List ConstNode} {arms : List ArmNode} {arm : ArmNode} {i k : Nat} {s : Bytes}

theorem marks_patterns (i : Nat) (cs : List ConstNode) (k : Nat) :
    (marks Ins.label (generatePatterns i cs k)).Nodup ∧
      ∀ l ∈ marks Ins.label (generatePatterns i cs k), ∃ n, k ≤ n ∧ l = .pattern i n := by
  induction cs generalizing k with
  | nil => exact ⟨.nil, nofun⟩
  | cons c cs ih =>
    obtain ⟨hnodup, hlabels⟩ := ih (k + 1)
    have hpattern : marks Ins.label (generatePattern c) = [] := by
      unfold generatePattern
      split <;> rfl
    unfold generatePatterns
    rw [marks_append, marks_append, hpattern, List.append_nil]
    split
    · show (Label.pattern i k :: _).Nodup ∧ ∀ l ∈ Label.pattern i k :: _, _
      refine ⟨List.nodup_cons.2 ⟨fun hl => ?_, hnodup⟩, fun l hl => ?_⟩
      · obtain ⟨n, hn, heq⟩ := hlabels _ hl
        cases heq
        omega
      · rcases List.mem_cons.1 hl with rfl | hl
        · exact ⟨k, Nat.le_refl k, rfl⟩
        · obtain ⟨n, hn, rfl⟩ := hlabels l hl
          exact ⟨n, by omega, rfl⟩
    · refine ⟨hnodup, fun l hl => ?_⟩
      obtain ⟨n, hn, rfl⟩ := hlabels l hl
      exact ⟨n, by omega, rfl⟩

/-- The arm that a label is for. -/
def Label.index : Label → Option Nat
  | armElse i | armMerge i | pattern i _ => some i
  | _ => none

theorem marks_arm (i : Nat) (arm : ArmNode) :
    (marks Ins.label (generateIfElseArm i arm)).Nodup ∧
      ∀ l ∈ marks Ins.label (generateIfElseArm i arm), l.index = some i := by
  obtain ⟨hnodup, hlabels⟩ := marks_patterns i arm.constPatternNodes 0
  unfold generateIfElseArm
  rw [marks_append]
  have htail : marks Ins.label [.mark (.armMerge i), .branch (.armElse i), .pop, .arm i, .goto .merge,
      .mark (.armElse i)] = [.armMerge i, .armElse i] := rfl
  rw [htail]
  refine ⟨List.nodup_append.2 ⟨hnodup, by simp, fun l hl l' hl' => ?_⟩, fun l hl => ?_⟩
  · obtain ⟨n, -, rfl⟩ := hlabels l hl
    rintro rfl
    simp at hl'
  · rcases List.mem_append.1 hl with hl | hl
    · obtain ⟨n, -, rfl⟩ := hlabels l hl
      rfl
    · simp only [List.mem_cons, List.not_mem_nil, or_false] at hl
      rcases hl with rfl | rfl <;> rfl

theorem marks_arms (arms : List ArmNode) (i : Nat) :
    (marks Ins.label (generateIfElseArms arms i)).Nodup ∧
      ∀ l ∈ marks Ins.label (generateIfElseArms arms i), ∃ j, i ≤ j ∧ l.index = some j := by
  induction arms generalizing i with
  | nil => exact ⟨.nil, nofun⟩
  | cons arm arms ih =>
    obtain ⟨hnodup, hlabels⟩ := ih (i + 1)
    have hweak : ∀ l ∈ marks Ins.label (generateIfElseArms arms (i + 1)),
        ∃ j, i ≤ j ∧ l.index = some j := fun l hl => by
      obtain ⟨j, hj, hindex⟩ := hlabels l hl
      exact ⟨j, by omega, hindex⟩
    unfold generateIfElseArms
    split
    · exact ⟨hnodup, hweak⟩
    · obtain ⟨hnodup', hlabels'⟩ := marks_arm i arm
      rw [marks_append]
      refine ⟨List.nodup_append.2 ⟨hnodup', hnodup, fun l hl l' hl' => ?_⟩, fun l hl => ?_⟩
      · rintro rfl
        obtain ⟨j, hj, hindex⟩ := hlabels l hl'
        rw [hlabels' l hl] at hindex
        cases hindex
        omega
      · rcases List.mem_append.1 hl with hl | hl
        · exact ⟨i, Nat.le_refl i, hlabels' l hl⟩
        · exact hweak l hl

/-! ## Patterns -/

/-- The constant is a string, or a regex. -/
def ForString (c : ConstNode) : Prop := c.patternType = .string

/-- A jump when `false` is on the stack. -/
theorem Env.runs_branch {l : Label} {rest rest' : List Ins} {stack : List Operand} {ran : List Nat}
    {r : Result ε} {b : Bool} (hn : (marks Ins.label code.ins).Nodup)
    (hs : .mark l :: rest' <:+ code.ins)
    (h : env.Runs code v ⟨if b then rest else rest', stack, ran⟩ r) :
    env.Runs code v ⟨.branch l :: rest, .value (.bool b) :: stack, ran⟩ r := by
  cases b with
  | true => exact .of_step rfl h
  | false =>
    have hb := behind_of_suffix hn hs rfl
    refine .of_step ?_ h
    unfold Env.step
    dsimp only
    rw [if_neg Bool.false_ne_true, hb]
    rfl

theorem Env.step_const {c : ConstNode} {key : Value} {rest : List Ins} {stack : List Operand}
    {ran : List Nat} (hregex : c.isRegex = false) (hkey : env.newObject c = some key) :
    env.step code v ⟨.const c :: rest, stack, ran⟩ = .inl ⟨rest, .value key :: stack, ran⟩ := by
  cases c with
  | regex => cases hregex
  | _ =>
    unfold Env.step
    dsimp only
    rw [hkey]

theorem Env.step_callEq {key : Value} {t : Bytes} {rest : List Ins} {stack : List Operand}
    {ran : List Nat} (hv : v.asStrRef env.heap = some s) (hkey : key.asStrRef env.heap = some t) :
    env.step code v ⟨.callEq :: rest, .value key :: .value v :: stack, ran⟩ =
      .inl ⟨rest, .value (.bool (decide (t = s))) :: stack, ran⟩ := by
  have heq : decide (s = t) = decide (t = s) := decide_eq_decide.2 eq_comm
  unfold Env.step
  dsimp only
  rw [hv, hkey]
  dsimp only
  rw [heq]

theorem Env.step_callMatch {reStr reFlag : Bytes} {rest : List Ins} {stack : List Operand}
    {ran : List Nat} (hv : v.asStrRef env.heap = some s) :
    env.step code v ⟨.callMatch :: rest, .regex reStr reFlag :: .value v :: stack, ran⟩ =
      match env.search reStr reFlag s with
      | .ok b => .inl ⟨rest, .value (.bool b) :: stack, ran⟩
      | .error e => .inr (.raised e) := by
  cases hsearch : env.search reStr reFlag s <;> unfold Env.step <;> dsimp only <;> rw [hv] <;>
    dsimp only <;> rw [hsearch]

/-- A pattern leaves on the stack whether it is accepted. -/
theorem Env.runs_pattern {c : ConstNode} {rest : List Ins} {stack : List Operand} {ran : List Nat}
    {r : Result ε} (hc : c ∈ node.constNodes) (hstring : ForString c)
    (hv : view env.heap v = .str s)
    (h : match env.accepts (.str s) c with
      | .ok b => env.Runs code v ⟨rest, .value (.bool b) :: .value v :: stack, ran⟩ r
      | .error e => r = .raised e) :
    env.Runs code v ⟨generatePattern c ++ rest, .value v :: stack, ran⟩ r := by
  have hstr := asStrRef_iff.2 hv
  refine .of_step rfl ?_
  cases c with
  | int => cases hstring
  | signal => cases hstring
  | string t =>
    obtain ⟨key, hkey, hview⟩ := @newObject_spec _ node ε env hc rfl
    exact .of_step (Env.step_const rfl hkey) (.of_step (Env.step_callEq hstr (asStrRef_iff.2 hview)) h)
  | regex reStr reFlag =>
    have hstep := @Env.step_callMatch node ε env code v s reStr reFlag rest (.value v :: stack) ran hstr
    refine .of_step rfl ?_
    unfold Env.accepts at h
    dsimp only at h
    cases hsearch : env.search reStr reFlag s with
    | ok b =>
      rw [hsearch] at h hstep
      exact .of_step hstep h
    | error e =>
      rw [hsearch] at h hstep
      cases h
      exact .now hstep

theorem anyM_cons (f : ConstNode → Except ε Bool) (c : ConstNode) (cs : List ConstNode) :
    (c :: cs).anyM f =
      match f c with
      | .ok true => .ok true
      | .ok false => cs.anyM f
      | .error e => .error e := by
  rw [List.anyM]
  cases f c with
  | error e => rfl
  | ok b => cases b <;> rfl

/-- The patterns behind the first one, when it is known whether one before is accepted. -/
theorem Env.runs_rest {tail : List Ins} {stack : List Operand} {ran : List Nat} {r : Result ε}
    {b : Bool} (hn : (marks Ins.label code.ins).Nodup)
    (hs : generatePatterns i cs (k + 1) ++ .mark (.armMerge i) :: tail <:+ code.ins)
    (hcs : ∀ c ∈ cs, c ∈ node.constNodes ∧ ForString c) (hv : view env.heap v = .str s)
    (h : match if b then .ok true else cs.anyM (env.accepts (.str s)) with
      | .ok b => env.Runs code v ⟨tail, .value (.bool b) :: .value v :: stack, ran⟩ r
      | .error e => r = .raised e) :
    env.Runs code v ⟨generatePatterns i cs (k + 1) ++ .mark (.armMerge i) :: tail,
      .value (.bool b) :: .value v :: stack, ran⟩ r := by
  induction cs generalizing k b with
  | nil =>
    refine .of_step rfl ?_
    cases b <;> exact h
  | cons c cs ih =>
    obtain ⟨hc, hstring⟩ := hcs c List.mem_cons_self
    unfold generatePatterns at hs ⊢
    rw [if_pos (Nat.succ_pos k), List.append_assoc, List.append_assoc] at hs ⊢
    have hmerge : .mark (.armMerge i) :: tail <:+ code.ins :=
      (List.suffix_append _ _).trans ((List.suffix_append _ _).trans ((List.suffix_append _ _).trans hs))
    have hmark : .mark (.pattern i (k + 1)) :: (generatePattern c ++
        (generatePatterns i cs (k + 1 + 1) ++ .mark (.armMerge i) :: tail)) <:+ code.ins :=
      (List.suffix_append [.branch (.pattern i (k + 1)), .pushTrue, .goto (.armMerge i)] _).trans hs
    apply Env.runs_branch hn hmark
    cases b with
    | true => exact .of_step rfl (Env.runs_goto hn hmerge h)
    | false =>
      apply Env.runs_pattern hc hstring hv
      rw [if_neg Bool.false_ne_true, anyM_cons] at h
      cases haccepts : env.accepts (.str s) c with
      | error e =>
        rw [haccepts] at h
        exact h
      | ok b =>
        rw [haccepts] at h
        refine ih ?_ (fun d hd => hcs d (List.mem_cons_of_mem _ hd)) ?_
        · exact (List.suffix_append _ _).trans ((List.suffix_append _ _).trans hs)
        · cases b <;> exact h

/-- The patterns of an arm leave on the stack whether one of them is accepted. -/
theorem Env.runs_patterns {tail : List Ins} {stack : List Operand} {ran : List Nat} {r : Result ε}
    (hne : cs ≠ []) (hn : (marks Ins.label code.ins).Nodup)
    (hs : generatePatterns i cs 0 ++ .mark (.armMerge i) :: tail <:+ code.ins)
    (hcs : ∀ c ∈ cs, c ∈ node.constNodes ∧ ForString c) (hv : view env.heap v = .str s)
    (h : match cs.anyM (env.accepts (.str s)) with
      | .ok b => env.Runs code v ⟨tail, .value (.bool b) :: .value v :: stack, ran⟩ r
      | .error e => r = .raised e) :
    env.Runs code v ⟨generatePatterns i cs 0 ++ .mark (.armMerge i) :: tail,
      .value v :: stack, ran⟩ r := by
  cases cs with
  | nil => exact absurd rfl hne
  | cons c cs =>
    obtain ⟨hc, hstring⟩ := hcs c List.mem_cons_self
    unfold generatePatterns at hs ⊢
    rw [if_neg (Nat.lt_irrefl 0), List.nil_append, List.append_assoc] at hs ⊢
    apply Env.runs_pattern hc hstring hv
    rw [anyM_cons] at h
    cases haccepts : env.accepts (.str s) c with
    | error e =>
      rw [haccepts] at h
      exact h
    | ok b =>
      rw [haccepts] at h
      refine Env.runs_rest hn ((List.suffix_append _ _).trans hs)
        (fun d hd => hcs d (List.mem_cons_of_mem _ hd)) hv ?_
      cases b <;> exact h

/-! ## Arms -/

/-- The constants of the arms are patterns for a string, and every arm that is not the default has one. -/
structure Tried (node : CaseNode) (arms : List ArmNode) : Prop where
  consts : ∀ arm ∈ arms, ∀ c ∈ arm.constPatternNodes, c ∈ node.constNodes ∧ ForString c
  nonempty : ∀ arm ∈ arms, arm.isDefault = false → arm.constPatternNodes ≠ []

theorem firstArm_cons (f : ConstNode → Except ε Bool) (arm : ArmNode) (arms : List ArmNode)
    (index : Nat) : firstArm f (arm :: arms) index =
      match arm.constPatternNodes.anyM f with
      | .ok true => .ok (some index)
      | .ok false => firstArm f arms (index + 1)
      | .error e => .error e := by
  rw [firstArm]
  cases arm.constPatternNodes.anyM f with
  | error e => rfl
  | ok b => cases b <;> rfl

/-- The arms are tried from the first one on. -/
theorem Env.runs_arms {tail : List Ins} {r : Result ε} (htried : Tried node arms)
    (hn : (marks Ins.label code.ins).Nodup) (hend : [.mark .merge] <:+ code.ins)
    (hs : generateIfElseArms arms i ++ tail <:+ code.ins) (hv : view env.heap v = .str s)
    (h : match firstArm (env.accepts (.str s)) arms i with
      | .ok (some j) => r = .done [j]
      | .ok none => env.Runs code v ⟨tail, [.value v], []⟩ r
      | .error e => r = .raised e) :
    env.Runs code v ⟨generateIfElseArms arms i ++ tail, [.value v], []⟩ r := by
  induction arms generalizing i with
  | nil => exact h
  | cons arm arms ih =>
    have htried' : Tried node arms :=
      ⟨fun arm' harm => htried.consts arm' (List.mem_cons_of_mem _ harm),
        fun arm' harm => htried.nonempty arm' (List.mem_cons_of_mem _ harm)⟩
    rw [firstArm_cons] at h
    unfold generateIfElseArms at hs ⊢
    cases hdefault : arm.isDefault with
    | true =>
      rw [constPatternNodes_default hdefault] at h
      rw [hdefault, if_pos rfl] at hs
      exact ih htried' hs h
    | false =>
      rw [hdefault, if_neg Bool.false_ne_true] at hs
      rw [if_neg Bool.false_ne_true]
      unfold generateIfElseArm at hs ⊢
      rw [List.append_assoc, List.append_assoc] at hs ⊢
      refine Env.runs_patterns (htried.nonempty arm List.mem_cons_self hdefault) hn hs
        (htried.consts arm List.mem_cons_self) hv ?_
      have helse : .mark (.armElse i) :: (generateIfElseArms arms (i + 1) ++ tail) <:+ code.ins :=
        (List.suffix_append [.mark (.armMerge i), .branch (.armElse i), .pop, .arm i, .goto .merge]
          _).trans ((List.suffix_append _ _).trans hs)
      cases hany : arm.constPatternNodes.anyM (env.accepts (.str s)) with
      | error e =>
        rw [hany] at h
        exact h
      | ok b =>
        rw [hany] at h
        apply Env.runs_branch hn helse
        cases b with
        | true =>
          obtain rfl : r = .done [i] := h
          exact .of_step rfl (@Env.runs_arm node ε env code v i _ _ [] fun _ =>
            Env.runs_goto hn hend (.now rfl))
        | false =>
          exact ih htried' ((List.suffix_cons _ _).trans helse) h

/-! ## The default -/

theorem defaultIndex_of_none (h : arms.countP ArmNode.isDefault = 0) (o : Option Nat) :
    (arms.zipIdx i).foldl (fun o e => if e.1.isDefault then some e.2 else o) o = o := by
  induction arms generalizing i with
  | nil => rfl
  | cons arm arms ih =>
    rw [List.countP_cons] at h
    cases hdefault : arm.isDefault with
    | true =>
      rw [hdefault, if_pos rfl] at h
      omega
    | false =>
      rw [hdefault, if_neg Bool.false_ne_true] at h
      rw [List.zipIdx_cons, List.foldl_cons, hdefault, if_neg Bool.false_ne_true]
      exact ih h

/-- If there is only one default, it is the first one. -/
theorem defaultIndex_eq (h : arms.countP ArmNode.isDefault ≤ 1) :
    defaultIndex arms = arms.findIdx? ArmNode.isDefault := by
  have hfold : ∀ i, (arms.zipIdx i).foldl (fun o e => if e.1.isDefault then some e.2 else o) none =
      (arms.findIdx? ArmNode.isDefault).map (· + i) := by
    induction arms with
    | nil => exact fun _ => rfl
    | cons arm arms ih =>
      intro i
      rw [List.countP_cons] at h
      rw [List.zipIdx_cons, List.foldl_cons, List.findIdx?_cons]
      cases hdefault : arm.isDefault with
      | true =>
        rw [hdefault, if_pos rfl] at h
        rw [if_pos rfl, if_pos rfl, defaultIndex_of_none (by omega), Option.map_some, Nat.zero_add]
      | false =>
        rw [hdefault, if_neg Bool.false_ne_true] at h
        rw [if_neg Bool.false_ne_true, if_neg Bool.false_ne_true, ih h, Option.map_map]
        congr 1
        funext j
        show j + (i + 1) = j + 1 + i
        omega
  unfold defaultIndex
  rw [hfold 0]
  cases arms.findIdx? ArmNode.isDefault <;> rfl

/-! ## The chain -/

/-- The instructions of the default arm. -/
def defaultCode (arms : List ArmNode) : List Ins :=
  match arms.findIdx? ArmNode.isDefault with
  | some i => [.pop, .arm i]
  | none => []

/-- The code of `generateIfElseCase`. -/
def ifElseCode (node : CaseNode) : List Ins :=
  .expr :: (if node.exprType.isOption then [.dup, .checkInvalid, .branch .default] else []) ++
    (generateIfElseArms node.armNodes 0 ++ .mark .default :: (defaultCode node.armNodes ++ [.mark .merge]))

theorem generateIfElseCase_eq (base : Nat) (htype : node.exprType.elementType = .string)
    (hdefault : node.armNodes.countP ArmNode.isDefault ≤ 1) :
    generateIfElseCase node base = some ⟨base, ifElseCode node, {}⟩ := by
  unfold generateIfElseCase ifElseCode defaultCode
  rw [if_pos htype, defaultIndex_eq hdefault]
  unfold Code.emit
  cases node.exprType.isOption <;> cases node.armNodes.findIdx? ArmNode.isDefault <;>
    simp

theorem nodup_ifElseCode (node : CaseNode) : (marks Ins.label (ifElseCode node)).Nodup := by
  obtain ⟨hnodup, hlabels⟩ := marks_arms node.armNodes 0
  have hopt : marks Ins.label (.expr ::
      if node.exprType.isOption then [.dup, .checkInvalid, .branch .default] else []) = [] := by
    cases node.exprType.isOption <;> rfl
  have htail : marks Ins.label (.mark .default :: (defaultCode node.armNodes ++ [.mark .merge])) =
      [.default, .merge] := by
    unfold defaultCode
    cases node.armNodes.findIdx? ArmNode.isDefault <;> rfl
  unfold ifElseCode
  rw [marks_append, marks_append, hopt, htail, List.nil_append, List.nodup_append]
  refine ⟨hnodup, by simp, fun l hl l' hl' => ?_⟩
  rintro rfl
  obtain ⟨j, -, hindex⟩ := hlabels l hl
  simp only [List.mem_cons, List.not_mem_nil, or_false] at hl'
  rcases hl' with rfl | rfl <;> cases hindex

/-- The chain comes to the selected arm. -/
theorem runs_ifElse {base : Nat} (htried : Tried node node.armNodes)
    (hv : (view env.heap v = .invalid ∧ node.exprType.isOption = true) ∨
      ∃ s, view env.heap v = .str s) (hcode : code = ⟨base, ifElseCode node, {}⟩) :
    env.Runs code v { rest := code.ins } (env.expected (view env.heap v)) := by
  have hins : code.ins = ifElseCode node := by rw [hcode]
  have hn : (marks Ins.label code.ins).Nodup := hins ▸ nodup_ifElseCode node
  have htail : generateIfElseArms node.armNodes 0 ++
      .mark .default :: (defaultCode node.armNodes ++ [.mark .merge]) <:+ code.ins := by
    rw [hins]
    exact List.suffix_append _ _
  have hdefault : .mark .default :: (defaultCode node.armNodes ++ [.mark .merge]) <:+ code.ins :=
    (List.suffix_append _ _).trans htail
  have hend : [.mark .merge] <:+ code.ins :=
    (List.suffix_append (Ins.mark .default :: defaultCode node.armNodes) _).trans hdefault
  -- the code of the default
  have hlast : env.Runs code v ⟨defaultCode node.armNodes ++ [.mark .merge], [.value v], []⟩
      (.done (node.armNodes.findIdx? ArmNode.isDefault).toList) := by
    unfold defaultCode
    cases node.armNodes.findIdx? ArmNode.isDefault with
    | none => exact .of_step rfl (.now rfl)
    | some d =>
      exact .of_step rfl (@Env.runs_arm node ε env code v d _ _ [] fun _ => .of_step rfl (.now rfl))
  -- the code of the arms
  have harms : ∀ s, view env.heap v = .str s → env.Runs code v ⟨generateIfElseArms node.armNodes 0 ++
      .mark .default :: (defaultCode node.armNodes ++ [.mark .merge]), [.value v], []⟩
        (env.expected (view env.heap v)) := by
    intro s hs
    apply Env.runs_arms htried hn hend htail hs
    unfold Env.expected Env.selected
    rw [hs]
    cases firstArm (env.accepts (.str s)) node.armNodes 0 with
    | error e => rfl
    | ok o =>
      cases o with
      | some j => rfl
      | none => exact .of_step rfl hlast
  show env.Runs code v ⟨code.ins, [], []⟩ _
  rw [hins]
  unfold ifElseCode
  refine .of_step rfl ?_
  cases hopt : node.exprType.isOption with
  | false =>
    rcases hv with ⟨-, htrue⟩ | ⟨s, hs⟩
    · rw [hopt] at htrue
      cases htrue
    · exact harms s hs
  | true =>
    refine .of_step rfl (.of_step rfl (Env.runs_branch hn hdefault ?_))
    rcases hv with ⟨hview, -⟩ | ⟨s, hs⟩
    · have hselected : env.selected .invalid =
          .ok (node.armNodes.findIdx? ArmNode.isDefault) := by
        unfold Env.selected
        have hnone := @constArm_invalid ε node.armNodes 0
        unfold constArm at hnone
        rw [firstArm_congr (g := fun c => .ok (c.equals .invalid)), hnone]
        · rfl
        · intro arm _ c _
          cases c <;> rfl
      unfold Env.expected
      rw [hview, hselected, (isInvalid_iff env.heap v).2 hview]
      exact hlast
    · have hvalid : v.isInvalid = false := by
        cases hinvalid : v.isInvalid with
        | false => rfl
        | true =>
          rw [(isInvalid_iff env.heap v).1 hinvalid] at hs
          cases hs
      rw [hvalid]
      exact harms s hs

end

end Arsh.Case
