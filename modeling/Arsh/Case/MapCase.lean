import Arsh.Case.Keys

/-!
# Lowering to a map

The code of `generateMapCase` is laid out arm by arm: `mapArms` is the code, and `mapLabels` the constants
with the offsets at which their arms stand. Constants that are different all come into the map, if there is room, and
`LOOKUP_HASH` goes on with the selected arm.
-/

namespace Arsh.Case

open Obj Map Machine Labels

/-! ## Layout -/

/-- The code between an arm and the one before. -/
def armHead (node : CaseNode) (first : Bool) (arm : ArmNode) : List Ins :=
  (if first || node.nothing then [] else [.goto .merge]) ++
    if arm.isDefault then [.mark .else] else []

def mapArms (node : CaseNode) : List ArmNode → Nat → Bool → List Ins
  | [], _, _ => []
  | arm :: arms, index, first =>
    armHead node first arm ++ .arm index :: mapArms node arms (index + 1) false

def mapLabels (node : CaseNode) : List ArmNode → Bool → Nat → List (ConstNode × Nat)
  | [], _, _ => []
  | arm :: arms, first, offset =>
    arm.constPatternNodes.map (fun c => (c, offset + (armHead node first arm).length)) ++
      mapLabels node arms false (offset + (armHead node first arm).length + 1)

section
variable {node : CaseNode} {ε : Type} {env : Env node ε} {t : TYPE} {code : Code}
  {labels : List (ConstNode × Nat)} {cs : List ConstNode} {arms : List ArmNode} {arm : ArmNode}
  {x : View}

theorem constPatternNodes_default (h : arm.isDefault = true) : arm.constPatternNodes = [] := by
  unfold ArmNode.isDefault at h
  unfold ArmNode.constPatternNodes
  rw [List.isEmpty_iff.1 h]
  rfl

theorem Env.Filled.length_le {map : OrderedMap Value Value} (h : env.Filled t map labels) :
    labels.length ≤ maxSize := by
  rw [h.entries.length_eq, ← @Inv.size _ _ (keyBEq env.heap) _ _ h.ok]
  exact @Inv.limit _ _ (keyBEq env.heap) _ _ h.ok

/-- The constants can be keys of a map for subjects of a type. -/
def CaseNode.Keys (node : CaseNode) (t : TYPE) (cs : List ConstNode) : Prop :=
  ∀ c ∈ cs, c ∈ node.constNodes ∧ c.isRegex = false ∧ c.type = t

theorem generateCaseLabels_spec (h : env.Filled t code.map labels)
    (hcs : node.Keys t arm.constPatternNodes)
    (hnew : (labels.map Prod.fst ++ arm.constPatternNodes).Nodup) :
    if labels.length + arm.constPatternNodes.length ≤ maxSize then
      ∃ map, env.generateCaseLabels arm code = some { code with map := map } ∧
        env.Filled t map
          (labels ++ arm.constPatternNodes.map fun c => (c, code.currentCodeOffset))
    else env.generateCaseLabels arm code = none := by
  unfold Env.generateCaseLabels
  dsimp only
  generalize code.currentCodeOffset = offset
  generalize arm.constPatternNodes = cs at hcs hnew ⊢
  induction cs generalizing code labels with
  | nil =>
    rw [List.length_nil, Nat.add_zero, if_pos h.length_le]
    refine ⟨code.map, rfl, ?_⟩
    rw [List.map_nil, List.append_nil]
    exact h
  | cons c cs ih =>
    obtain ⟨hc, hregex, htype⟩ := hcs c List.mem_cons_self
    have hfresh : ∀ l ∈ labels, l.1 ≠ c := by
      rintro l hl rfl
      exact List.disjoint_of_nodup_append hnew (List.mem_map_of_mem hl) List.mem_cons_self
    obtain ⟨k, hk, ⟨i, status⟩, map, hinsert, hspec⟩ := h.insert hc hregex htype hfresh offset
    rw [List.foldlM_cons, hk]
    dsimp only [Option.bind_eq_bind, Option.bind_some]
    rw [hinsert]
    dsimp only [Option.bind_some]
    split at hspec
    · obtain ⟨rfl, hfilled⟩ := hspec
      rw [if_pos rfl, Option.bind_some]
      have hnew' : ((labels ++ [(c, offset)]).map Prod.fst ++ cs).Nodup := by
        rw [List.map_append, List.append_assoc]
        exact hnew
      have := @ih { code with map := map } (labels ++ [(c, offset)]) hfilled
        (fun d hd => hcs d (List.mem_cons_of_mem _ hd)) hnew'
      rw [List.length_append, List.length_singleton, List.append_assoc, Nat.add_assoc,
        Nat.add_comm 1] at this
      exact this
    · next hfull =>
      obtain rfl : status = .limit := hspec
      rw [if_neg (by rw [List.length_cons]; omega), if_neg nofun]
      rfl

/-- What is emitted in front of an arm. -/
theorem enterArm_spec (h : env.Filled t code.map labels) (first : Bool)
    (hcs : node.Keys t arm.constPatternNodes)
    (hnew : (labels.map Prod.fst ++ arm.constPatternNodes).Nodup) :
    if labels.length + arm.constPatternNodes.length ≤ maxSize then
      ∃ map, env.enterArm arm first code = some ⟨code.base, code.ins ++ armHead node first arm, map⟩ ∧
        env.Filled t map (labels ++ arm.constPatternNodes.map fun c =>
          (c, code.currentCodeOffset + (armHead node first arm).length))
    else env.enterArm arm first code = none := by
  obtain ⟨head, hhead, hins⟩ :
      ∃ head, (if first || node.nothing then [] else [Ins.goto .merge]) = head ∧
        (if first || node.nothing then code else code.emit [.goto .merge]) =
          ⟨code.base, code.ins ++ head, code.map⟩ := by
    refine ⟨_, rfl, ?_⟩
    split
    · rw [List.append_nil]
    · rfl
  unfold armHead Env.enterArm
  dsimp only
  rw [hins, hhead]
  cases hdefault : arm.isDefault with
  | true =>
    rw [constPatternNodes_default hdefault, List.length_nil, Nat.add_zero, if_pos h.length_le]
    refine ⟨code.map, ?_, ?_⟩
    · rw [if_pos rfl, if_pos rfl, ← List.append_assoc]
      rfl
    · rw [List.map_nil, List.append_nil]
      exact h
  | false =>
    have := @generateCaseLabels_spec node ε env t ⟨code.base, code.ins ++ head, code.map⟩ labels arm
      h hcs hnew
    rw [if_neg Bool.false_ne_true, if_neg Bool.false_ne_true, List.append_nil]
    unfold Code.currentCodeOffset at this ⊢
    rw [List.length_append, ← Nat.add_assoc] at this
    exact this

theorem generateMapArms_spec (h : env.Filled t code.map labels) (index : Nat) (first : Bool)
    (hcs : node.Keys t (arms.flatMap ArmNode.constPatternNodes))
    (hnew : (labels.map Prod.fst ++ arms.flatMap ArmNode.constPatternNodes).Nodup) :
    if labels.length + (arms.flatMap ArmNode.constPatternNodes).length ≤ maxSize then
      ∃ map, env.generateMapArms arms index first code =
          some ⟨code.base, code.ins ++ mapArms node arms index first, map⟩ ∧
        env.Filled t map (labels ++ mapLabels node arms first code.currentCodeOffset)
    else env.generateMapArms arms index first code = none := by
  induction arms generalizing code labels index first with
  | nil =>
    rw [List.flatMap_nil, List.length_nil, Nat.add_zero, if_pos h.length_le]
    refine ⟨code.map, ?_, ?_⟩
    · unfold Env.generateMapArms mapArms
      rw [List.append_nil]
    · unfold mapLabels
      rw [List.append_nil]
      exact h
  | cons arm arms ih =>
    rw [List.flatMap_cons] at hcs hnew ⊢
    rw [← List.append_assoc] at hnew
    have harm := enterArm_spec h first (fun c hc => hcs c (List.mem_append_left _ hc))
      (List.Nodup.of_append_left hnew)
    unfold Env.generateMapArms mapArms mapLabels
    rw [List.length_append, ← Nat.add_assoc]
    split at harm
    · obtain ⟨map, hentered, hfilled⟩ := harm
      rw [hentered]
      have hnew' : ((labels ++ arm.constPatternNodes.map fun c =>
          (c, code.currentCodeOffset + (armHead node first arm).length)).map Prod.fst ++
            arms.flatMap ArmNode.constPatternNodes).Nodup := by
        rw [List.map_append, List.map_map]
        have hid : Prod.fst ∘ (fun c => (c, code.currentCodeOffset + (armHead node first arm).length)) =
          (id : ConstNode → ConstNode) := rfl
        rw [hid, List.map_id]
        exact hnew
      have := @ih ⟨code.base, code.ins ++ armHead node first arm ++ [.arm index], map⟩ _ hfilled
        (index + 1) false (fun c hc => hcs c (List.mem_append_right _ hc)) hnew'
      have hoffset : (⟨code.base, code.ins ++ armHead node first arm ++ [.arm index], map⟩ :
          Code).currentCodeOffset = code.currentCodeOffset + (armHead node first arm).length + 1 := by
        unfold Code.currentCodeOffset
        dsimp only
        rw [List.length_append, List.length_append, List.length_singleton]
        omega
      have hins : code.ins ++ armHead node first arm ++ [.arm index] ++
          mapArms node arms (index + 1) false =
            code.ins ++ (armHead node first arm ++ .arm index :: mapArms node arms (index + 1) false) := by
        rw [List.append_assoc, List.append_assoc, List.singleton_append]
      rw [hoffset, List.length_append, List.length_map, hins, List.append_assoc labels] at this
      exact this
    · next hfull =>
      rw [harm, if_neg (by omega)]
      rfl

/-! ## What is behind an arm -/

/-- The code goes on behind the case expression, or is not reached. -/
def Closed (node : CaseNode) (rest : List Ins) : Prop :=
  rest = [] ∨ (∃ rest', rest = .goto .merge :: rest') ∨ node.nothing = true

theorem closed_mapArms (arms : List ArmNode) (index : Nat) :
    Closed node (mapArms node arms index false) := by
  cases arms with
  | nil => exact .inl rfl
  | cons arm arms =>
    unfold mapArms armHead
    cases hnothing : node.nothing with
    | true => exact .inr (.inr hnothing)
    | false => exact .inr (.inl ⟨_, rfl⟩)

theorem anyM_ok {ε : Type} (p : ConstNode → Bool) (cs : List ConstNode) :
    cs.anyM (fun c => (.ok (p c) : Except ε Bool)) = .ok (cs.any p) := by
  induction cs with
  | nil => rfl
  | cons c cs ih =>
    rw [List.anyM, List.any_cons, ih]
    show (match p c with | true => _ | false => _) = _
    cases p c <;> rfl

/-- The constants decide on the first arm. -/
def constArm {ε : Type} (x : View) (arms : List ArmNode) (index : Nat) : Except ε (Option Nat) :=
  firstArm (fun c => .ok (c.equals x)) arms index

theorem constArm_cons {ε : Type} (x : View) (arm : ArmNode) (arms : List ArmNode) (index : Nat) :
    (constArm x (arm :: arms) index : Except ε (Option Nat)) =
      if arm.constPatternNodes.any (fun c => c.equals x) then .ok (some index)
      else constArm x arms (index + 1) := by
  unfold constArm
  rw [firstArm, anyM_ok]
  show (if arm.constPatternNodes.any (fun c => c.equals x) then _ else _) = _
  split <;> rfl

/-- The first constant that is equal to the subject is one of the first arm that has one. -/
theorem mapLabels_find {ε : Type} (x : View) (arms : List ArmNode) (index : Nat) (first : Bool)
    (offset : Nat) :
    match (mapLabels node arms first offset).find? fun l => l.1.equals x with
    | some l => offset ≤ l.2 ∧ ∃ j rest, (constArm x arms index : Except ε _) = .ok (some (index + j)) ∧
        j < arms.length ∧ Closed node rest ∧
        (mapArms node arms index first).drop (l.2 - offset) = .arm (index + j) :: rest
    | none => (constArm x arms index : Except ε _) = .ok none := by
  induction arms generalizing index first offset with
  | nil => rfl
  | cons arm arms ih =>
    rw [constArm_cons]
    unfold mapLabels mapArms
    rw [List.find?_append, List.find?_map]
    have hfind : (arm.constPatternNodes.find? ((fun l : ConstNode × Nat => l.1.equals x) ∘ fun c =>
        (c, offset + (armHead node first arm).length))).isSome =
          arm.constPatternNodes.any fun c => c.equals x := List.isSome_find?
    cases hc : arm.constPatternNodes.find? ((fun l : ConstNode × Nat => l.1.equals x) ∘ fun c =>
        (c, offset + (armHead node first arm).length)) with
    | some c =>
      rw [hc] at hfind
      rw [← hfind]
      refine ⟨Nat.le_add_right _ _, 0, mapArms node arms (index + 1) false, rfl,
        Nat.zero_lt_succ _, closed_mapArms _ _, ?_⟩
      rw [Nat.add_sub_cancel_left, List.drop_left]
      rfl
    | none =>
      rw [hc] at hfind
      rw [← hfind]
      have := ih (index + 1) false (offset + (armHead node first arm).length + 1)
      dsimp only [Option.map_none, Option.none_or, Option.isSome_none, Bool.false_eq_true, if_false] at this ⊢
      cases hl : (mapLabels node arms false (offset + (armHead node first arm).length + 1)).find?
          fun l => l.1.equals x with
      | none =>
        rw [hl] at this
        exact this
      | some l =>
        rw [hl] at this
        obtain ⟨hle, j, rest, harm, hj, hclosed, hdrop⟩ := this
        refine ⟨by omega, j + 1, rest, ?_, Nat.succ_lt_succ hj, hclosed, ?_⟩
        · rw [← Nat.add_assoc, Nat.add_right_comm]
          exact harm
        · have hoffset : l.2 - offset = (armHead node first arm).length +
              (l.2 - (offset + (armHead node first arm).length + 1) + 1) := by omega
          rw [hoffset, List.drop_length_add_append, List.drop_succ_cons, hdrop, ← Nat.add_assoc,
            Nat.add_right_comm]

theorem mapArms_default {d : Nat} (hd : arms.findIdx? ArmNode.isDefault = some d) (index : Nat)
    (first : Bool) : ∃ pre rest, mapArms node arms index first =
      pre ++ .mark .else :: .arm (index + d) :: rest ∧ Closed node rest := by
  induction arms generalizing d index first with
  | nil => cases hd
  | cons arm arms ih =>
    unfold mapArms
    rw [List.findIdx?_cons] at hd
    cases hdefault : arm.isDefault with
    | true =>
      rw [hdefault, if_pos rfl] at hd
      cases hd
      unfold armHead
      rw [if_pos hdefault]
      exact ⟨_, _, List.append_assoc .., closed_mapArms arms (index + 1)⟩
    | false =>
      rw [hdefault, if_neg Bool.false_ne_true] at hd
      obtain ⟨d', hd', rfl⟩ := Option.map_eq_some_iff.1 hd
      obtain ⟨pre, rest, heq, hclosed⟩ := ih hd' (index + 1) false
      refine ⟨armHead node first arm ++ .arm index :: pre, rest, ?_, hclosed⟩
      rw [heq, ← Nat.add_assoc, Nat.add_right_comm index, List.append_assoc]
      rfl

/-- The only labels are those of default arms. -/
theorem marks_mapArms (arms : List ArmNode) (index : Nat) (first : Bool) :
    marks Ins.label (mapArms node arms index first) =
      List.replicate (arms.countP ArmNode.isDefault) .else := by
  induction arms generalizing index first with
  | nil => rfl
  | cons arm arms ih =>
    unfold mapArms armHead
    rw [marks_append, marks_append, List.countP_cons]
    have hcons : marks Ins.label (.arm index :: mapArms node arms (index + 1) false) =
        marks Ins.label (mapArms node arms (index + 1) false) := rfl
    have hgoto : marks Ins.label (if first || node.nothing then [] else [.goto .merge]) = [] := by
      split <;> rfl
    rw [hcons, ih, hgoto]
    cases arm.isDefault with
    | true =>
      rw [if_pos rfl, if_pos rfl, Nat.add_comm, List.replicate_add]
      rfl
    | false => rfl

/-! ## The run -/

/-- A jump goes on behind the mark of its label, which is marked once. -/
theorem Env.runs_goto {v : Value} {l : Label} {rest rest' : List Ins} {stack : List Operand}
    {ran : List Nat} {r : Result ε} (hn : (marks Ins.label code.ins).Nodup)
    (hs : .mark l :: rest <:+ code.ins) (h : env.Runs code v ⟨rest, stack, ran⟩ r) :
    env.Runs code v ⟨.goto l :: rest', stack, ran⟩ r := by
  have hb := behind_of_suffix hn hs rfl
  refine .of_step ?_ h
  unfold Env.step
  dsimp only
  rw [hb]

/-- The run of an arm, from which the code goes on to the end. -/
theorem Env.runs_arm {v : Value} {j : Nat} {rest : List Ins} {stack : List Operand} {ran : List Nat}
    (h : env.leaves j = false → env.Runs code v ⟨rest, stack, ran ++ [j]⟩ (.done (ran ++ [j]))) :
    env.Runs code v ⟨.arm j :: rest, stack, ran⟩ (.done (ran ++ [j])) := by
  cases hleaves : env.leaves j with
  | true =>
    refine .now ?_
    unfold Env.step
    dsimp only
    rw [hleaves, if_pos rfl]
  | false =>
    refine .of_step ?_ (h hleaves)
    unfold Env.step
    dsimp only
    rw [hleaves, if_neg Bool.false_ne_true]

theorem Env.runs_closed {v : Value} {j : Nat} {rest : List Ins} {stack : List Operand}
    {ran : List Nat} (hn : (marks Ins.label code.ins).Nodup) (hs : [.mark .merge] <:+ code.ins)
    (hj : j < node.armNodes.length) (hclosed : Closed node rest) :
    env.Runs code v ⟨.arm j :: (rest ++ [.mark .merge]), stack, ran⟩ (.done (ran ++ [j])) := by
  apply Env.runs_arm
  intro hleaves
  have hend : env.Runs code v ⟨[], stack, ran ++ [j]⟩ (.done (ran ++ [j])) := .now rfl
  rcases hclosed with rfl | ⟨rest', rfl⟩ | hnothing
  · exact .of_step rfl hend
  · exact Env.runs_goto hn hs hend
  · -- the arm is of type `Nothing`
    unfold CaseNode.nothing at hnothing
    rw [Bool.and_eq_true, List.all_eq_true] at hnothing
    have := env.nothing_leaves j _ (List.getElem?_eq_getElem hj)
      (hnothing.2 _ (List.getElem_mem hj))
    rw [hleaves] at this
    cases this

theorem firstArm_congr {ε : Type} {f g : ConstNode → Except ε Bool} (arms : List ArmNode)
    (index : Nat) (h : ∀ arm ∈ arms, ∀ c ∈ arm.constPatternNodes, f c = g c) :
    firstArm f arms index = firstArm g arms index := by
  induction arms generalizing index with
  | nil => rfl
  | cons arm arms ih =>
    have hany : ∀ cs : List ConstNode, (∀ c ∈ cs, f c = g c) → cs.anyM f = cs.anyM g := by
      intro cs hcs
      induction cs with
      | nil => rfl
      | cons c cs ihc =>
        rw [List.anyM, List.anyM, hcs c List.mem_cons_self,
          ihc fun d hd => hcs d (List.mem_cons_of_mem _ hd)]
    rw [firstArm, firstArm, hany _ (h arm List.mem_cons_self),
      ih _ fun arm' harm => h arm' (List.mem_cons_of_mem _ harm)]

/-- Without a regex, nothing is raised. -/
theorem selected_const (hregex : ∀ c ∈ node.constNodes, c.isRegex = false) (x : View) :
    env.selected x = (constArm x node.armNodes 0).map fun index =>
      index.or (node.armNodes.findIdx? ArmNode.isDefault) := by
  unfold Env.selected constArm
  rw [firstArm_congr (g := fun c => .ok (c.equals x))]
  · rfl
  · intro arm harm c hc
    have := hregex c (List.mem_flatMap.2 ⟨arm, harm, hc⟩)
    cases c with
    | regex => cases this
    | _ => rfl

theorem equals_invalid (c : ConstNode) : c.equals .invalid = false := by
  cases c <;> rfl

theorem constArm_invalid {ε : Type} (arms : List ArmNode) (index : Nat) :
    (constArm .invalid arms index : Except ε (Option Nat)) = .ok none := by
  induction arms generalizing index with
  | nil => rfl
  | cons arm arms ih =>
    rw [constArm_cons, ih]
    simp [equals_invalid]

theorem isInvalid_iff (h : Heap) (v : Value) : v.isInvalid = true ↔ view h v = .invalid := by
  cases v with
  | object addr =>
    unfold view Value.isInvalid
    dsimp only
    cases h.get addr <;> simp
  | _ => simp [view, Value.isInvalid]

/-- With a map that is filled, the selected arm is run. -/
theorem runs_mapCase {base : Nat} {map : OrderedMap Value Value} {v : Value}
    (hfilled : env.Filled t map (mapLabels node node.armNodes true (base + 4)))
    (hdefault : node.armNodes.countP ArmNode.isDefault ≤ 1)
    (hregex : ∀ c ∈ node.constNodes, c.isRegex = false)
    (hv : view env.heap v = .invalid ∨ viewType (view env.heap v) = some t)
    (hcode : code = ⟨base, [.loadMap, .expr, .lookupHash,
      .goto (if node.hasDefault then .else else .merge)] ++ mapArms node node.armNodes 0 true ++
        [.mark .merge], map⟩) :
    env.Runs code v { rest := code.ins } (env.expected (view env.heap v)) := by
  have hn : (marks Ins.label code.ins).Nodup := by
    rw [hcode, marks_append, marks_append, marks_mapArms]
    show (List.replicate _ Label.else ++ [Label.merge]).Nodup
    rw [List.nodup_append]
    refine ⟨List.nodup_replicate.2 hdefault, List.nodup_singleton _, ?_⟩
    intro l hl l' hl'
    rw [List.eq_of_mem_replicate hl, List.mem_singleton.1 hl']
    nofun
  have hmerge : [.mark .merge] <:+ code.ins := by
    rw [hcode]
    exact List.suffix_append ..
  -- no constant is equal to the subject
  have hgoto : (constArm (view env.heap v) node.armNodes 0 : Except ε _) = .ok none →
      env.Runs code v ⟨code.ins.drop 3, [], []⟩ (env.expected (view env.heap v)) := by
    intro hnone
    unfold Env.expected
    rw [selected_const hregex, hnone]
    show env.Runs code v _ (.done (node.armNodes.findIdx? ArmNode.isDefault).toList)
    have hhas : node.hasDefault = (node.armNodes.findIdx? ArmNode.isDefault).isSome := by
      rw [List.findIdx?_isSome]
      rfl
    have hdrop : code.ins.drop 3 = .goto (if node.hasDefault then .else else .merge) ::
        (mapArms node node.armNodes 0 true ++ [.mark .merge]) := by
      rw [hcode]
      rfl
    rw [hdrop, hhas]
    cases hd : node.armNodes.findIdx? ArmNode.isDefault with
    | none => exact Env.runs_goto hn hmerge (.now rfl)
    | some d =>
      obtain ⟨pre, rest, heq, hclosed⟩ := mapArms_default hd 0 true
      rw [Nat.zero_add] at heq
      have hsuffix : .mark .else :: .arm d :: (rest ++ [.mark .merge]) <:+ code.ins := by
        refine ⟨[.loadMap, .expr, .lookupHash,
          .goto (if node.hasDefault then .else else .merge)] ++ pre, ?_⟩
        rw [hcode, heq]
        simp
      have hlt : d < node.armNodes.length := by
        obtain ⟨hlt, -⟩ := List.findIdx?_eq_some_iff_getElem.1 hd
        exact hlt
      exact Env.runs_goto hn hsuffix (Env.runs_closed hn hmerge hlt hclosed)
  have hstart : env.Runs code v ⟨.lookupHash :: code.ins.drop 3, [.value v, .map], []⟩
      (env.expected (view env.heap v)) → env.Runs code v { rest := code.ins }
        (env.expected (view env.heap v)) := by
    intro h
    have hins : code.ins = .loadMap :: .expr :: .lookupHash :: code.ins.drop 3 := by
      rw [hcode]
      rfl
    rw [hins]
    exact .of_step rfl (.of_step rfl h)
  apply hstart
  cases hinvalid : v.isInvalid with
  | true =>
    have hview := (isInvalid_iff env.heap v).1 hinvalid
    refine .of_step ?_ (hgoto (by rw [hview]; exact constArm_invalid _ _))
    unfold Env.step
    dsimp only
    rw [hinvalid, if_pos rfl]
  | false =>
    have htype : viewType (view env.heap v) = some t := by
      apply hv.resolve_left
      intro hview
      rw [(isInvalid_iff env.heap v).2 hview] at hinvalid
      cases hinvalid
    have hlookup := hfilled.lookupHash htype
    have hmap : code.map = map := by rw [hcode]
    have hfind := @mapLabels_find node ε (view env.heap v) node.armNodes 0 true (base + 4)
    cases hl : (mapLabels node node.armNodes true (base + 4)).find?
        fun l => l.1.equals (view env.heap v) with
    | none =>
      rw [hl] at hfind hlookup
      refine .of_step ?_ (hgoto hfind)
      unfold Env.step
      dsimp only
      rw [hinvalid, if_neg Bool.false_ne_true, hmap, hlookup]
      rfl
    | some l =>
      rw [hl] at hfind hlookup
      obtain ⟨hle, j, rest, harm, hj, hclosed, hdrop⟩ := hfind
      rw [Nat.zero_add] at harm hdrop
      have hexpected : env.expected (view env.heap v) = .done ([] ++ [j]) := by
        unfold Env.expected
        rw [selected_const hregex, harm]
        rfl
      have hfrom : code.from l.2 = .arm j :: (rest ++ [.mark .merge]) := by
        unfold Code.from
        have hoffset : l.2 - code.base = 4 + (l.2 - (base + 4)) := by
          rw [hcode]
          dsimp only
          omega
        have hlen : l.2 - (base + 4) ≤ (mapArms node node.armNodes 0 true).length := by
          by_contra hgt
          rw [List.drop_eq_nil_of_le (by omega)] at hdrop
          cases hdrop
        rw [hoffset, hcode, List.append_assoc]
        have hdrop' := @List.drop_append_of_le_length _ (mapArms node node.armNodes 0 true)
          [.mark .merge] _ hlen
        rw [hdrop] at hdrop'
        exact (@List.drop_length_add_append _ [.loadMap, .expr, .lookupHash,
          .goto (if node.hasDefault then .else else .merge)] _ _).trans hdrop'
      have hrun : env.Runs code v ⟨code.from l.2, [], []⟩ (env.expected (view env.heap v)) := by
        rw [hfrom, hexpected]
        exact Env.runs_closed hn hmerge hj hclosed
      refine .of_step ?_ hrun
      unfold Env.step
      dsimp only
      rw [hinvalid, if_neg Bool.false_ne_true, hmap, hlookup]
      rfl

end

end Arsh.Case
