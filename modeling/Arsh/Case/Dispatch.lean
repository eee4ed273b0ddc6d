import Arsh.Case.IfElse

/-!
# Dispatch of case expressions

`dispatches_iff`: the type checker reports equal constants and no others, and the code of an accepted expression runs
the selected arm, if the sets of the checker do not take different constants for the same, the type of the subject
has the methods for a chain, and there is room in the map. Two strings that agree up to a zero are taken for the
same.
-/

namespace Arsh.Case

open Obj Map Machine Labels

section
variable {node : CaseNode} {ε : Type} (env : Env node ε) (base : Nat)

theorem reported_iff_hasEqual (hconst : node.Constant) :
    (node.Reported ↔ HasEqual node.constNodes) ↔ node.Distinguished := by
  rw [reported_iff node hconst]
  unfold CaseNode.Distinguished
  constructor
  · intro h
    by_cases hapart : Apart node.constNodes
    · exact .inr hapart
    · exact .inl (h.1 hapart)
  · rintro (hequal | hapart)
    · exact ⟨fun _ => hequal, fun _ hapart => hequal hapart.nodup⟩
    · exact ⟨fun hnot => absurd hapart hnot, fun hequal => absurd hapart.nodup hequal⟩

/-- A value of the subject is invalid, or one of the type of the patterns. -/
theorem CaseNode.WellTyped.hasType (hwell : node.WellTyped) {c : ConstNode} (hc : c ∈ node.constNodes)
    (hregex : c.isRegex = false) {x : View} (hx : node.exprType.Has x) :
    x = .invalid ∨ viewType x = some c.type := by
  have htype : c.patternType = c.type := by
    unfold ConstNode.patternType
    rw [hregex, if_neg Bool.false_ne_true]
  have hsubject := hwell.subject c hc
  rw [htype] at hsubject
  unfold ExprType.Has at hx
  generalize c.type = t at hsubject
  cases x
  case invalid => exact .inl rfl
  all_goals
    refine .inr ?_
    dsimp only [viewType] at hx ⊢
    rcases hsubject with heq | heq <;> rw [heq] at hx <;> cases hx <;> rfl

/-- An expression without a regex, which is accepted. -/
theorem mapCase_spec (hwell : node.WellTyped) (hapart : Apart node.constNodes)
    (hregex : ∀ c ∈ node.constNodes, c.isRegex = false) :
    (∃ code, env.generateMapCase base = some code ∧
      ∀ subject, node.exprType.Has (view env.heap subject) →
        env.Runs code subject { rest := code.ins } (env.expected (view env.heap subject))) ↔
      node.constNodes.length ≤ maxSize := by
  obtain ⟨c, hc⟩ := List.exists_mem_of_ne_nil _ hwell.needPattern
  have htype : ∀ d ∈ node.constNodes, d.patternType = d.type := fun d hd => by
    unfold ConstNode.patternType
    rw [hregex d hd, if_neg Bool.false_ne_true]
  have hkeys : node.Keys c.type node.constNodes := fun d hd =>
    ⟨hd, hregex d hd, by rw [← htype d hd, ← htype c hc, hwell.same d hd c hc]⟩
  have hnodup : (([] : List (ConstNode × Nat)).map Prod.fst ++ node.constNodes).Nodup := by
    have hall : constants node.constNodes = node.constNodes :=
      List.filter_eq_self.2 fun d hd => by rw [hregex d hd]; rfl
    have := hapart.nodup
    rw [hall] at this
    exact this
  have hspec := @generateMapArms_spec node ε env c.type
    ⟨base, [.loadMap, .expr, .lookupHash, .goto (if node.hasDefault then .else else .merge)], {}⟩
    [] node.armNodes filled_nil 0 true hkeys hnodup
  rw [List.length_nil, Nat.zero_add] at hspec
  have hgenerate : env.generateMapCase base = (env.generateMapArms node.armNodes 0 true
      ⟨base, [.loadMap, .expr, .lookupHash, .goto (if node.hasDefault then .else else .merge)], {}⟩).map
        fun code => code.emit [.mark .merge] := by
    rw [Option.map_eq_bind]
    rfl
  rw [hgenerate]
  split at hspec
  · next hle =>
    obtain ⟨map, harms, hfilled⟩ := hspec
    rw [harms]
    refine ⟨fun _ => hle, fun _ => ⟨_, rfl, fun v hv => ?_⟩⟩
    refine runs_mapCase (t := c.type) hfilled hwell.default hregex ?_ rfl
    exact hwell.hasType hc (hregex c hc) hv
  · next hle =>
    rw [hspec]
    exact ⟨nofun, fun h => absurd h hle⟩

/-- An expression with a regex, which is accepted. -/
theorem ifElse_spec (hconst : node.Constant) (hwell : node.WellTyped)
    (hregex : ∃ c ∈ node.constNodes, c.isRegex = true) :
    (∃ code, generateIfElseCase node base = some code ∧
      ∀ subject, node.exprType.Has (view env.heap subject) →
        env.Runs code subject { rest := code.ins } (env.expected (view env.heap subject))) ↔
      node.exprType.elementType ≠ .nothing := by
  obtain ⟨c, hc, hcregex⟩ := hregex
  have hstring : c.patternType = .string := by
    unfold ConstNode.patternType
    rw [hcregex, if_pos rfl]
  constructor
  · rintro ⟨code, hcode, -⟩ hnothing
    unfold generateIfElseCase at hcode
    rw [hnothing, if_neg nofun] at hcode
    cases hcode
  · intro hnot
    have htype : node.exprType.elementType = .string :=
      ((hwell.subject c hc).resolve_right hnot).trans hstring
    refine ⟨_, generateIfElseCase_eq base htype hwell.default, fun v hv => runs_ifElse ?_ ?_ rfl⟩
    · refine ⟨fun arm harm d hd => ?_, fun arm harm hdefault hnil => ?_⟩
      · have hd' : d ∈ node.constNodes := List.mem_flatMap.2 ⟨arm, harm, hd⟩
        exact ⟨hd', (hwell.same d hd' c hc).trans hstring⟩
      · have hnodes := patternNodes_eq (hconst arm harm)
        rw [hnil] at hnodes
        unfold ArmNode.isDefault at hdefault
        rw [hnodes] at hdefault
        cases hdefault
    · unfold ExprType.Has at hv
      cases hview : view env.heap v <;> rw [hview] at hv
      case invalid => exact .inl ⟨rfl, hv⟩
      case str s => exact .inr ⟨s, rfl⟩
      all_goals
        dsimp only [viewType] at hv
        rw [htype] at hv
        cases hv

/-! ## Results -/

/-- The type checker and the compiled code of a case expression with constant patterns are right exactly then. -/
theorem dispatches_iff (node : CaseNode) (hconst : node.Constant) (env : Env node ε) (base : Nat) :
    env.Dispatches base ↔
      node.Distinguished ∧ (node.WellTyped → ¬ HasEqual node.constNodes → node.Lowerable) := by
  have hruns : node.Distinguished → ((node.Accepted → ∃ code, env.generateCase base = some code ∧
      ∀ subject, node.exprType.Has (view env.heap subject) →
        env.Runs code subject { rest := code.ins } (env.expected (view env.heap subject))) ↔
      (node.WellTyped → ¬ HasEqual node.constNodes → node.Lowerable)) := by
    intro hdistinguished
    have haccepted : node.Accepted ↔ node.WellTyped ∧ ¬ HasEqual node.constNodes := by
      rw [accepted_iff node hconst]
      refine and_congr_right fun _ => ⟨fun hapart hequal => hequal hapart.nodup, fun hnot => ?_⟩
      exact hdistinguished.resolve_left hnot
    rw [haccepted, and_imp]
    refine forall_congr' fun hwell => forall_congr' fun hnot => ?_
    have hapart := hdistinguished.resolve_left hnot
    unfold Env.generateCase CaseNode.Lowerable
    rw [kind_eq node hconst]
    cases hregex : node.constNodes.any ConstNode.isRegex with
    | true => exact ifElse_spec env base hconst hwell (List.any_eq_true.1 hregex)
    | false =>
      apply mapCase_spec env base hwell hapart
      intro c hc
      rw [List.any_eq_false] at hregex
      exact Bool.eq_false_iff.2 (hregex c hc)
  constructor
  · intro h
    have hdistinguished := (reported_iff_hasEqual hconst).1 h.reported
    exact ⟨hdistinguished, (hruns hdistinguished).1 h.runs⟩
  · rintro ⟨hdistinguished, hlowerable⟩
    exact ⟨(reported_iff_hasEqual hconst).2 hdistinguished, (hruns hdistinguished).2 hlowerable⟩

end

/-- A machine for constants that need no objects, where every arm returns. -/
def sampleEnv (node : CaseNode) (hobject : ∀ c ∈ node.constNodes, c.object = none) :
    Env node Unit where
  heap := ⟨fun _ => .other 0, rapidhashShort⟩
  addr := fun _ => 0
  objects := fun c hc o ho => by
    rw [hobject c hc] at ho
    cases ho
  seed := 5
  keyFuel := 2
  two_le_keyFuel := Nat.le_refl 2
  search := fun reStr _ s => .ok (reStr.isPrefixOf s)
  leaves := fun _ => true
  nothing_leaves := fun _ _ _ _ => rfl

/-- Two strings that differ behind a zero. -/
def zeroNode : CaseNode :=
  ⟨⟨false, .string⟩, [⟨[.const (.string [97, 0, 98])], false⟩, ⟨[.const (.string [97, 0, 99])], false⟩]⟩

/-- A regex for a subject of type `Nothing?`. -/
def noneNode : CaseNode :=
  ⟨⟨true, .nothing⟩, [⟨[.const (.regex [97] [])], false⟩, ⟨[], false⟩]⟩

theorem not_dispatches : ¬ (sampleEnv zeroNode (by decide)).Dispatches 0 ∧
    ¬ (sampleEnv noneNode (by decide)).Dispatches 0 := by
  constructor
  · intro h
    exact absurd (h.reported.1 ⟨.string [97, 0, 99], by decide⟩) (by unfold HasEqual; decide)
  · intro h
    obtain ⟨code, hcode, -⟩ := h.runs (by unfold CaseNode.Accepted; decide)
    cases hcode

/-- A default in front, and a regex behind a string. -/
def sampleNode : CaseNode :=
  ⟨⟨true, .string⟩, [⟨[], false⟩, ⟨[.const (.string [97, 0]), .const (.regex [99] [])], false⟩]⟩

theorem dispatches_sample : (sampleEnv sampleNode (by decide)).Dispatches 7 := by
  refine (dispatches_iff sampleNode ?_ (sampleEnv sampleNode (by decide)) 7).2 ⟨.inr ?_, fun _ _ => ?_⟩
  · unfold CaseNode.Constant sampleNode
    simp
  · unfold Apart
    decide
  · unfold CaseNode.Lowerable
    decide

end Arsh.Case
