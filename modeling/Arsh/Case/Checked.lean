import Arsh.Case.Pattern
import Mathlib.Data.List.Pairwise

/-!
# What the type checker finds

`Checked` says what is known when a part of the arms is done: how many of them have no patterns, and which
constants have been looked at for their types and for their values. At the end, a duplicated pattern is reported
if the sets do not keep two constants apart (`reported_iff`), and nothing is if the expression is well typed besides
(`accepted_iff`).
-/

namespace Arsh.Case

open Obj

/-! ## Statements -/

namespace CaseNode

/-- All patterns, in source order. -/
def constNodes (node : CaseNode) : List ConstNode := node.armNodes.flatMap ArmNode.constPatternNodes

/-- The patterns are constants. -/
def Constant (node : CaseNode) : Prop :=
  ∀ arm ∈ node.armNodes, ∀ e ∈ arm.patternNodes, ∃ c, e = .const c

/-- A duplicated pattern is reported. -/
def Reported (node : CaseNode) : Prop := ∃ c, TypeError.dupPattern c ∈ (visitCaseNode node).errors

def Accepted (node : CaseNode) : Prop := (visitCaseNode node).errors = []

end CaseNode

namespace ConstNode

/-- The type of the subject. A regex is for strings. -/
def patternType (c : ConstNode) : TYPE := if c.isRegex then .string else c.type

/-- The sets take the constants for the same: a set of numbers knows no kinds of numbers, and has no strings. -/
def confused (c d : ConstNode) : Bool :=
  match c.getIntValue, d.getIntValue, c.getValue, d.getValue with
  | some m, some n, _, _ => m = n
  | _, _, some s, some t => cstr s = cstr t
  | _, _, _, _ => true

end ConstNode

/-- The constants that are no regex. -/
def constants (cs : List ConstNode) : List ConstNode := cs.filter fun c => !c.isRegex

/-- The sets keep the constants apart. -/
def Apart (cs : List ConstNode) : Prop := (constants cs).Pairwise fun c d => c.confused d = false

/-- Two constants are equal. -/
def HasEqual (cs : List ConstNode) : Prop := ¬ (constants cs).Nodup

/-- The patterns have the type of the subject, and no more than one arm is the default. -/
structure CaseNode.WellTyped (node : CaseNode) : Prop where
  needPattern : node.constNodes ≠ []
  same : ∀ c ∈ node.constNodes, ∀ d ∈ node.constNodes, c.patternType = d.patternType
  subject : ∀ c ∈ node.constNodes, node.exprType.elementType = c.patternType ∨
    node.exprType.elementType = .nothing
  default : node.armNodes.countP ArmNode.isDefault ≤ 1

/-! ## Sets of constants -/

section
variable {c d : ConstNode} {cs ds : List ConstNode}

theorem confused_self (c : ConstNode) : c.confused c = true := by
  cases c <;> simp [ConstNode.confused, ConstNode.getIntValue, ConstNode.getValue]

theorem constants_append : constants (cs ++ ds) = constants cs ++ constants ds :=
  List.filter_append ..

theorem constants_snoc (hc : c.isRegex = false) : constants (cs ++ [c]) = constants cs ++ [c] := by
  rw [constants_append]
  unfold constants
  rw [List.filter_singleton, hc]
  rfl

theorem constants_snoc_regex (hc : c.isRegex = true) : constants (cs ++ [c]) = constants cs := by
  rw [constants_append]
  unfold constants
  rw [List.filter_singleton, hc]
  exact List.append_nil _

/-- What a set has when the constants are in it. -/
def Holds (cs : List ConstNode) : Option PatternMap → Prop
  | none => cs = []
  | some (.int set) => (∃ c ∈ cs, c.getValue = none) ∧
    ∀ value, value ∈ set ↔ ∃ c ∈ cs, c.getIntValue = some value
  | some (.str set) => (∃ c ∈ cs, c.getIntValue = none) ∧
    ∀ value, value ∈ set ↔ ∃ c ∈ cs, c.getValue.map cstr = some value

theorem insertInto_spec {α : Type} [DecidableEq α] (set : List α) (x : α) :
    ((insertInto set x).1 = true ↔ x ∉ set) ∧
      ∀ y, y ∈ (insertInto set x).2 ↔ y ∈ set ∨ y = x := by
  unfold insertInto
  split
  · next h =>
    refine ⟨⟨nofun, fun hx => absurd h hx⟩, fun y => ⟨.inl, ?_⟩⟩
    rintro (hy | rfl)
    · exact hy
    · exact h
  · next h =>
    refine ⟨⟨fun _ => h, fun _ => rfl⟩, fun y => ?_⟩
    rw [List.mem_append, List.mem_singleton]

theorem getIntValue_or_getValue (hc : c.isRegex = false) :
    (∃ n, c.getIntValue = some n ∧ c.getValue = none) ∨
      ∃ s, c.getIntValue = none ∧ c.getValue = some s := by
  cases c with
  | int value => exact .inl ⟨value, rfl, rfl⟩
  | signal value => exact .inl ⟨_, rfl, rfl⟩
  | string value => exact .inr ⟨value, rfl, rfl⟩
  | regex => cases hc

theorem confused_comm (c d : ConstNode) : c.confused d = d.confused c := by
  cases c <;> cases d <;>
    simp [ConstNode.confused, ConstNode.getIntValue, ConstNode.getValue, eq_comm]

theorem confused_of_kinds (hc : c.getIntValue = none) (hd : d.getValue = none) :
    d.confused c = true := by
  unfold ConstNode.confused
  rw [hc, hd]
  cases d.getIntValue <;> rfl

theorem confused_int {m n : Int64} (hc : c.getIntValue = some m) (hd : d.getIntValue = some n) :
    d.confused c = decide (n = m) := by
  unfold ConstNode.confused
  rw [hc, hd]

theorem confused_string {s t : Bytes} (hc : c.getValue = some s) (hd : d.getValue = some t) :
    d.confused c = decide (cstr t = cstr s) := by
  cases c <;> cases hc
  cases d <;> cases hd
  rfl

instance : Std.Symm fun c d : ConstNode => c.confused d = false :=
  ⟨fun c d h => (confused_comm d c).trans h⟩

/-- If no two are taken for the same, they are of one kind. -/
theorem kinds_of_pairwise (hcs : cs.Pairwise fun c d => c.confused d = false) (hc : c ∈ cs)
    (hd : d ∈ cs) (hregex : c.isRegex = false) (hvalue : c.getValue = none) :
    d.getIntValue ≠ none := by
  intro hint
  have hne : c ≠ d := by
    rintro rfl
    rcases getIntValue_or_getValue hregex with ⟨n, hn, -⟩ | ⟨s, -, hs⟩
    · rw [hn] at hint
      cases hint
    · rw [hs] at hvalue
      cases hvalue
  have hfalse := hcs.forall hc hd hne
  rw [confused_of_kinds hint hvalue] at hfalse
  cases hfalse

theorem kinds_of_pairwise' (hcs : cs.Pairwise fun c d => c.confused d = false) (hc : c ∈ cs)
    (hd : d ∈ cs) (hregex : d.isRegex = false) (hint : c.getIntValue = none) :
    d.getValue ≠ none :=
  fun hvalue => kinds_of_pairwise hcs hd hc hregex hvalue hint

/-- The set has what a constant more brings in. -/
theorem mem_insertInto {α : Type} [DecidableEq α] {key : ConstNode → Option α} {set : List α} {x : α}
    (hset : ∀ y, y ∈ set ↔ ∃ d ∈ cs, key d = some y) (hx : key c = some x) :
    ∀ y, y ∈ (insertInto set x).2 ↔ ∃ d ∈ cs ++ [c], key d = some y := by
  intro y
  rw [(insertInto_spec set x).2, hset]
  simp only [List.mem_append, List.mem_singleton, or_and_right, exists_or, exists_eq_left, hx,
    Option.some.injEq]
  exact or_congr Iff.rfl eq_comm

theorem mem_same {α : Type} {key : ConstNode → Option α} {set : List α}
    (hset : ∀ y, y ∈ set ↔ ∃ d ∈ cs, key d = some y) (hc : key c = none) :
    ∀ y, y ∈ set ↔ ∃ d ∈ cs ++ [c], key d = some y := by
  intro y
  rw [hset]
  simp only [List.mem_append, List.mem_singleton, or_and_right, exists_or, exists_eq_left, hc,
    reduceCtorEq, or_false]

/-- The first constant decides on the set, so that one of the other kind is always taken for another. -/
theorem collect_spec {collector : PatternCollector} (hregex : ∀ d ∈ cs, d.isRegex = false)
    (hc : c.isRegex = false) (hs : Holds cs collector.map) :
    ∃ b map, collector.collect c = (b, { collector with map := some map }) ∧
      Holds (cs ++ [c]) (some map) ∧
      (cs.Pairwise (fun c d => c.confused d = false) →
        (b = true ↔ ∀ d ∈ cs, d.confused c = false)) := by
  unfold PatternCollector.collect
  cases hmap : collector.map with
  | none =>
    rw [hmap] at hs
    cases hs
    cases c with
    | int value =>
      exact ⟨true, .int [value], rfl, ⟨⟨_, List.mem_cons_self, rfl⟩, by simp [ConstNode.getIntValue, eq_comm]⟩,
        fun _ => by simp⟩
    | signal value =>
      exact ⟨true, .int [value.toInt64], rfl, ⟨⟨_, List.mem_cons_self, rfl⟩, by simp [ConstNode.getIntValue, eq_comm]⟩,
        fun _ => by simp⟩
    | string value =>
      exact ⟨true, .str [cstr value], rfl, ⟨⟨_, List.mem_cons_self, rfl⟩, by simp [ConstNode.getValue, eq_comm]⟩,
        fun _ => by simp⟩
    | regex => cases hc
  | some map =>
    rw [hmap] at hs
    cases map with
    | int set =>
      obtain ⟨⟨d, hd, hvalue⟩, hset⟩ := hs
      have hd' : d ∈ cs ++ [c] := List.mem_append_left _ hd
      rcases getIntValue_or_getValue hc with ⟨n, hn, -⟩ | ⟨s, hn, -⟩
      · refine ⟨(insertInto set n).1, .int (insertInto set n).2, ?_,
          ⟨⟨d, hd', hvalue⟩, mem_insertInto hset hn⟩, fun hcs => ?_⟩
        · simp [PatternMap.collect, hn]
        · rw [(insertInto_spec set n).1, hset]
          constructor
          · intro hnot e he
            obtain ⟨m, hm⟩ := Option.ne_none_iff_exists'.1
              (kinds_of_pairwise hcs hd he (hregex d hd) hvalue)
            rw [confused_int hn hm]
            exact decide_eq_false fun hmn => hnot ⟨e, he, hmn ▸ hm⟩
          · rintro hall ⟨e, he, hm⟩
            have := hall e he
            rw [confused_int hn hm, decide_eq_false_iff_not] at this
            exact this rfl
      · refine ⟨false, .int set, ?_, ⟨⟨d, hd', hvalue⟩, mem_same hset hn⟩,
          fun _ => ⟨nofun, fun hall => ?_⟩⟩
        · simp [PatternMap.collect, hn]
        · have := hall d hd
          rw [confused_of_kinds hn hvalue] at this
          cases this
    | str set =>
      obtain ⟨⟨d, hd, hint⟩, hset⟩ := hs
      have hd' : d ∈ cs ++ [c] := List.mem_append_left _ hd
      rcases getIntValue_or_getValue hc with ⟨n, -, hs⟩ | ⟨s, -, hs⟩
      · refine ⟨false, .str set, ?_, ⟨⟨d, hd', hint⟩, mem_same hset (by rw [hs]; rfl)⟩,
          fun _ => ⟨nofun, fun hall => ?_⟩⟩
        · simp [PatternMap.collect, hs]
        · have := hall d hd
          rw [confused_comm, confused_of_kinds hint hs] at this
          cases this
      · refine ⟨(insertInto set (cstr s)).1, .str (insertInto set (cstr s)).2, ?_,
          ⟨⟨d, hd', hint⟩, mem_insertInto hset (by rw [hs]; rfl)⟩, fun hcs => ?_⟩
        · simp [PatternMap.collect, hs]
        · rw [(insertInto_spec set (cstr s)).1, hset]
          constructor
          · intro hnot e he
            obtain ⟨t, ht⟩ := Option.ne_none_iff_exists'.1
              (kinds_of_pairwise' hcs hd he (hregex e he) hint)
            rw [confused_string hs ht]
            exact decide_eq_false fun hst => hnot ⟨e, he, by rw [ht, Option.map_some, hst]⟩
          · rintro hall ⟨e, he, ht⟩
            obtain ⟨t, ht, hst⟩ := Option.map_eq_some_iff.1 ht
            have := hall e he
            rw [confused_string hs ht, decide_eq_false_iff_not] at this
            exact this hst

/-! ## Steps of the checker -/

/-- What is known after `n` default arms, when the types of `cs` and the values of `ds` have been looked at. -/
structure Checked (s : Checker) (n : Nat) (cs ds : List ConstNode) : Prop where
  elsePattern : s.collector.elsePattern = decide (0 < n)
  kind : s.collector.kind = if cs.any ConstNode.isRegex then .ifElse else .map
  type : s.collector.type = cs.head?.map ConstNode.patternType
  holds : Holds (constants ds) s.collector.map
  dups : (∃ c, .dupPattern c ∈ s.errors) ↔ ¬ Apart ds
  clean : s.errors = [] ↔ n ≤ 1 ∧
    (∀ c ∈ cs, s.collector.type = some c.patternType) ∧ Apart ds

variable {s : Checker} {n : Nat} {arm : ArmNode}

theorem Checked.checkElse (h : Checked s n cs ds) :
    Checked (s.checkElse arm) (n + if arm.isDefault then 1 else 0) cs ds := by
  unfold Checker.checkElse
  split
  · next hdefault =>
    rcases Nat.eq_zero_or_pos n with rfl | hn
    · have helse : s.collector.elsePattern = false := h.elsePattern
      simp only [helse, Bool.false_eq_true, if_false]
      exact ⟨rfl, h.kind, h.type, h.holds, h.dups, by simpa using h.clean⟩
    · have helse : s.collector.elsePattern = true := by simp [h.elsePattern, hn]
      simp only [helse, if_true]
      refine ⟨by simp, h.kind, h.type, h.holds, ?_, ?_⟩
      · simpa [Checker.reportError] using h.dups
      · simp only [Checker.reportError, List.append_eq_nil_iff, List.cons_ne_nil, and_false,
          false_iff]
        omega
  · exact h

/-- The types of constants are those of patterns. -/
theorem checkType_const (s : Checker) (c : ConstNode) : s.checkType (.const c) =
    let s' : Checker :=
      { s with collector := { s.collector with kind := if c.isRegex then .ifElse else s.collector.kind } }
    match s.collector.type with
    | none => { s' with collector := { s'.collector with type := some c.patternType } }
    | some required =>
      if required = c.patternType then s' else s'.reportError (.required required c.patternType) := by
  cases c <;> rfl

theorem Checked.checkType (h : Checked s n cs ds) (c : ConstNode) :
    Checked (s.checkType (.const c)) n (cs ++ [c]) ds := by
  have hkind : (if c.isRegex then .ifElse else s.collector.kind) =
      if (cs ++ [c]).any ConstNode.isRegex then Kind.ifElse else .map := by
    rw [h.kind, List.any_append]
    cases cs.any ConstNode.isRegex <;> cases hc : c.isRegex <;> simp [hc]
  rw [checkType_const]
  cases cs with
  | nil =>
    have htype : s.collector.type = none := h.type
    have hclean := h.clean
    simp only [htype, List.not_mem_nil, false_implies, implies_true, true_and] at hclean ⊢
    exact ⟨h.elsePattern, hkind, rfl, h.holds, h.dups, by simpa using hclean⟩
  | cons d cs =>
    have htype : s.collector.type = some d.patternType := h.type
    have hclean := h.clean
    simp only [htype] at hclean ⊢
    split
    · next heq =>
      refine ⟨h.elsePattern, hkind, rfl, h.holds, h.dups, ?_⟩
      simp only [List.forall_mem_append, List.forall_mem_singleton, heq, and_true] at hclean ⊢
      exact hclean
    · next hne =>
      refine ⟨h.elsePattern, hkind, rfl, h.holds, ?_, ?_⟩
      · simpa [Checker.reportError] using h.dups
      · simp only [Checker.reportError, List.append_eq_nil_iff, List.cons_ne_nil, and_false, false_iff,
          List.forall_mem_append, List.forall_mem_singleton, Option.some.injEq]
        exact fun hall => hne hall.2.1.2

theorem apart_snoc (hc : c.isRegex = false) : Apart (ds ++ [c]) ↔
    Apart ds ∧ ∀ d ∈ constants ds, d.confused c = false := by
  unfold Apart
  rw [constants_snoc hc, List.pairwise_append]
  simp

theorem Checked.checkDup (h : Checked s n cs ds) (c : ConstNode) :
    Checked (s.checkDup c) n cs (ds ++ [c]) := by
  unfold Checker.checkDup
  split
  · next hc =>
    have happend := @constants_snoc_regex c ds hc
    have hapart : Apart (ds ++ [c]) ↔ Apart ds := by
      unfold Apart
      rw [happend]
    exact ⟨h.elsePattern, h.kind, h.type, by rw [happend]; exact h.holds, by rw [hapart]; exact h.dups,
      by rw [hapart]; exact h.clean⟩
  · next hc =>
    have hc : c.isRegex = false := by simpa using hc
    have hregex : ∀ d ∈ constants ds, d.isRegex = false := fun d hd => by
      simpa using (List.mem_filter.1 hd).2
    obtain ⟨b, map, hcollect, hholds, hb⟩ := collect_spec hregex hc h.holds
    have hapart := @apart_snoc c ds hc
    rw [← constants_snoc hc] at hholds
    rw [hcollect]
    cases b with
    | true =>
      simp only [if_true]
      have happly : Apart (ds ++ [c]) ↔ Apart ds :=
        hapart.trans ⟨And.left, fun hds => ⟨hds, (hb hds).1 rfl⟩⟩
      exact ⟨h.elsePattern, h.kind, h.type, hholds, by rw [happly]; exact h.dups,
        by rw [happly]; exact h.clean⟩
    | false =>
      simp only [Bool.false_eq_true, if_false]
      have hnot : ¬ Apart (ds ++ [c]) := fun hds => by
        have := (hb (hapart.1 hds).1).2 (hapart.1 hds).2
        cases this
      refine ⟨h.elsePattern, h.kind, h.type, hholds, ?_, ?_⟩
      · simp only [hnot, not_false_iff, iff_true]
        exact ⟨c, List.mem_append_right _ (List.mem_singleton.2 rfl)⟩
      · simp [Checker.reportError, hnot]

/-! ## Runs of the checker -/

theorem Checked.checkTypes (h : Checked s n cs ds) (es : List ConstNode) :
    Checked ((es.map PatternNode.const).foldl Checker.checkType s) n (cs ++ es) ds := by
  induction es generalizing s cs with
  | nil =>
    rw [List.append_nil]
    exact h
  | cons e es ih =>
    rw [List.map_cons, List.foldl_cons, List.append_cons]
    exact ih (h.checkType e)

theorem Checked.checkDups (h : Checked s n cs ds) (es : List ConstNode) :
    Checked (es.foldl Checker.checkDup s) n cs (ds ++ es) := by
  induction es generalizing s ds with
  | nil =>
    rw [List.append_nil]
    exact h
  | cons e es ih =>
    rw [List.foldl_cons, List.append_cons]
    exact ih (h.checkDup e)

theorem mapM_evalConstant (es : List ConstNode) :
    (es.map PatternNode.const).mapM PatternNode.evalConstant = some es := by
  induction es with
  | nil => rfl
  | cons e es ih => simp [PatternNode.evalConstant, ih]

/-- The patterns of an arm, if they are constants. -/
theorem patternNodes_eq (harm : ∀ e ∈ arm.patternNodes, ∃ c, e = .const c) :
    arm.patternNodes = arm.constPatternNodes.map .const := by
  obtain ⟨es, hes⟩ : ∃ es : List ConstNode, arm.patternNodes = es.map PatternNode.const := by
    generalize arm.patternNodes = nodes at harm
    induction nodes with
    | nil => exact ⟨[], rfl⟩
    | cons e nodes ih =>
      obtain ⟨c, rfl⟩ := harm e List.mem_cons_self
      obtain ⟨es, rfl⟩ := ih fun e he => harm e (List.mem_cons_of_mem _ he)
      exact ⟨c :: es, rfl⟩
  unfold ArmNode.constPatternNodes
  rw [hes, mapM_evalConstant]
  rfl

theorem Checked.checkPatternType (h : Checked s n cs cs)
    (harm : ∀ e ∈ arm.patternNodes, ∃ c, e = .const c) :
    Checked (s.checkPatternType arm) (n + if arm.isDefault then 1 else 0)
      (cs ++ arm.constPatternNodes) (cs ++ arm.constPatternNodes) := by
  unfold Checker.checkPatternType
  rw [patternNodes_eq harm, mapM_evalConstant]
  exact (h.checkElse.checkTypes _).checkDups _

theorem Checked.arms {arms : List ArmNode} (h : Checked s n cs cs)
    (harms : ∀ arm ∈ arms, ∀ e ∈ arm.patternNodes, ∃ c, e = .const c) :
    Checked (arms.foldl Checker.checkPatternType s) (n + arms.countP ArmNode.isDefault)
      (cs ++ arms.flatMap ArmNode.constPatternNodes)
      (cs ++ arms.flatMap ArmNode.constPatternNodes) := by
  induction arms generalizing s n cs with
  | nil => simpa using h
  | cons arm arms ih =>
    have := ih (h.checkPatternType (harms arm List.mem_cons_self))
      fun arm harm => harms arm (List.mem_cons_of_mem _ harm)
    rw [List.foldl_cons, List.countP_cons, List.flatMap_cons, ← List.append_assoc,
      Nat.add_comm (arms.countP _), ← Nat.add_assoc]
    exact this

theorem checked_nil : Checked {} 0 [] [] where
  elsePattern := rfl
  kind := rfl
  type := rfl
  holds := rfl
  dups := by simp [Apart, constants]
  clean := by simp [Apart, constants]

/-- When all arms are done. -/
theorem CaseNode.checked {node : CaseNode} (hconst : node.Constant) :
    Checked (node.armNodes.foldl Checker.checkPatternType {})
      (node.armNodes.countP ArmNode.isDefault) node.constNodes node.constNodes := by
  have := checked_nil.arms hconst
  rw [Nat.zero_add, List.nil_append] at this
  exact this

end

/-! ## Results -/

/-- A duplicated pattern is reported if the sets take two constants for the same. -/
theorem reported_iff (node : CaseNode) (hconst : node.Constant) :
    node.Reported ↔ ¬ Apart node.constNodes := by
  have h := CaseNode.checked hconst
  rw [← h.dups]
  unfold CaseNode.Reported visitCaseNode
  dsimp only
  split
  · split
    · rfl
    · simp [Checker.reportError]
  · simp [Checker.reportError]

/-- An expression is accepted if it is well typed and the sets keep its constants apart. -/
theorem accepted_iff (node : CaseNode) (hconst : node.Constant) :
    node.Accepted ↔ node.WellTyped ∧ Apart node.constNodes := by
  have h := CaseNode.checked hconst
  have hclean := h.clean
  have htype := h.type
  unfold CaseNode.Accepted visitCaseNode
  dsimp only
  cases hnodes : node.constNodes with
  | nil =>
    rw [hnodes] at htype
    rw [htype]
    simp only [List.head?_nil, Option.map_none, Checker.reportError, List.append_eq_nil_iff,
      List.cons_ne_nil, and_false, false_iff]
    exact fun hw => hw.1.needPattern hnodes
  | cons c cs =>
    rw [hnodes] at htype hclean
    rw [List.head?_cons, Option.map_some] at htype
    rw [htype]
    simp only [htype, Option.some.injEq] at hclean
    have hc : c ∈ node.constNodes := hnodes ▸ List.mem_cons_self
    dsimp only
    split
    · next hsubject =>
      unfold TYPE.isSameOrBaseTypeOf at hsubject
      rw [Bool.or_eq_true, decide_eq_true_iff, decide_eq_true_iff] at hsubject
      rw [hclean]
      constructor
      · rintro ⟨hdefault, hsame, hapart⟩
        rw [← hnodes] at hsame
        refine ⟨⟨by rw [hnodes]; exact List.cons_ne_nil _ _,
          fun d hd e he => (hsame d hd).symm.trans (hsame e he), fun d hd => ?_, hdefault⟩, hapart⟩
        rw [← hsame d hd]
        exact hsubject.imp Eq.symm id
      · rintro ⟨hw, hapart⟩
        refine ⟨hw.default, fun d hd => ?_, hapart⟩
        exact hw.same c hc d (hnodes ▸ hd)
    · next hsubject =>
      unfold TYPE.isSameOrBaseTypeOf at hsubject
      rw [Bool.or_eq_true, decide_eq_true_iff, decide_eq_true_iff] at hsubject
      simp only [Checker.reportError, List.append_eq_nil_iff, List.cons_ne_nil, and_false, false_iff]
      rintro ⟨hw, -⟩
      exact hsubject ((hw.subject c hc).imp Eq.symm id)

/-- The lowering depends on whether there is a regex. -/
theorem kind_eq (node : CaseNode) (hconst : node.Constant) :
    (visitCaseNode node).collector.kind =
      if node.constNodes.any ConstNode.isRegex then .ifElse else .map := by
  rw [← (CaseNode.checked hconst).kind]
  unfold visitCaseNode
  dsimp only
  split
  · split <;> rfl
  · rfl

theorem Apart.nodup {cs : List ConstNode} (h : Apart cs) : (constants cs).Nodup := by
  refine List.Pairwise.imp ?_ h
  rintro c d hcd rfl
  rw [confused_self] at hcd
  cases hcd

end Arsh.Case
