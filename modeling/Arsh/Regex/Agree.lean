import Arsh.Regex.Es
import Arsh.Regex.Correct

/-!
# The search and the ECMAScript semantics

The search of a node comes to the same positions, in the same order, as the outcomes of the node
as an ECMAScript pattern. This holds whatever happens to the captures, as long as the node has no
back-references.
-/

namespace Arsh.Regex

open UnicodeUtil

/-! ## Leaves -/

section
variable {S : Subject} {cs : List Nat}

theorem Atom.iter_off (hcs : CodePoints cs) (hS : S.bytes = encode cs) (a : Atom) (forward : Bool)
    {i : Nat} (hi : i ≤ cs.length) :
    a.iter S forward (off cs i) = (Es.step cs forward (a.test S.tables) i).map (off cs) := by
  rw [Atom.iter, hS]
  unfold Es.step
  cases forward with
  | true =>
    rcases Nat.lt_or_eq_of_le hi with hlt | rfl
    · rw [consume_forward hcs hlt, List.getElem?_eq_getElem hlt]
      cases a.test S.tables cs[i] <;> simp
    · simp [consume_forward_end]
  | false =>
    cases i with
    | zero =>
      rw [consume_backward_zero]
      rfl
    | succ i =>
      rw [consume_backward hcs hi]
      simp only [List.getElem?_eq_getElem hi]
      cases a.test S.tables cs[i] <;> simp

theorem isWordAt_forward (hcs : CodePoints cs) (word : Nat → Bool) {i : Nat} (hi : i ≤ cs.length) :
    isWordAt (encode cs) word true (off cs i) = testAt cs word i := by
  rw [isWordAt, testAt]
  rcases Nat.lt_or_eq_of_le hi with hlt | rfl
  · rw [consume_forward hcs hlt, List.getElem?_eq_getElem hlt]
  · rw [consume_forward_end, List.getElem?_eq_none (Nat.le_refl _)]

theorem isWordAt_backward (hcs : CodePoints cs) (word : Nat → Bool) {i : Nat} (hi : i ≤ cs.length) :
    isWordAt (encode cs) word false (off cs i) = testBefore cs word i := by
  rw [isWordAt]
  cases i with
  | zero =>
    rw [consume_backward_zero]
    rfl
  | succ i => simp only [consume_backward hcs hi, testBefore, testAt, List.getElem?_eq_getElem hi]

theorem isLineBoundary_forward (hcs : CodePoints cs) (multiline : Bool) {i : Nat}
    (hi : i ≤ cs.length) :
    isLineBoundary (encode cs) true multiline (off cs i) =
      (i == cs.length || multiline && testAt cs isLineTerminator i) := by
  rw [isLineBoundary, testAt]
  rcases Nat.lt_or_eq_of_le hi with hlt | rfl
  · have hne : (i == cs.length) = false := by simpa using Nat.ne_of_lt hlt
    simp only [consume_forward hcs hlt, List.getElem?_eq_getElem hlt, hne, Bool.false_or]
  · simp [consume_forward_end]

theorem isLineBoundary_backward (hcs : CodePoints cs) (multiline : Bool) {i : Nat}
    (hi : i ≤ cs.length) :
    isLineBoundary (encode cs) false multiline (off cs i) =
      (i == 0 || multiline && testBefore cs isLineTerminator i) := by
  rw [isLineBoundary]
  cases i with
  | zero =>
    rw [consume_backward_zero]
    rfl
  | succ i =>
    simp only [consume_backward hcs hi, testBefore, testAt, List.getElem?_eq_getElem hi]
    simp

theorem Boundary.test_off (hcs : CodePoints cs) (hS : S.bytes = encode cs) (b : Boundary) {i : Nat}
    (hi : i ≤ cs.length) : b.test S (off cs i) = b.holds S.tables cs i := by
  cases b with
  | start multiline => rw [test, hS, holds, isLineBoundary_backward hcs multiline hi]
  | stop multiline => rw [test, hS, holds, isLineBoundary_forward hcs multiline hi]
  | word ignoreCase =>
    simp only [test, hS, holds, isWordBoundary, isWordAt_forward hcs _ hi,
      isWordAt_backward hcs _ hi, Bool.false_eq_true, if_false]
  | notWord ignoreCase =>
    simp only [test, hS, holds, isWordBoundary, isWordAt_forward hcs _ hi,
      isWordAt_backward hcs _ hi, if_true]

end

/-! ## Positions -/

namespace Search

/-- The search comes to the positions in order, whatever captures it is resumed with. -/
def Yields : Search → List Nat → Prop
  | .fail _, ps => ps = []
  | .found p _ _ next, ps => ∃ qs, ps = p :: qs ∧ ∀ c, (next c).Yields qs

theorem yields_one (p : Nat) (c : Captures) (u : Undo) : (one p c u).Yields [p] :=
  ⟨[], rfl, fun _ => rfl⟩

theorem yields_ofOption (c : Captures) (u : Undo) (o : Option Nat) :
    (ofOption c u o).Yields o.toList := by
  cases o with
  | none => rfl
  | some p => exact yields_one p c u

theorem Yields.orElse {r : Search} {f : Captures → Search} {ps qs : List Nat} (h : r.Yields ps)
    (hf : ∀ c, (f c).Yields qs) : (r.orElse f).Yields (ps ++ qs) := by
  induction r generalizing ps with
  | fail c =>
    cases h
    exact hf c
  | found p c u next ih =>
    obtain ⟨ps', rfl, hn⟩ := h
    exact ⟨ps' ++ qs, rfl, fun c => ih c (hn c)⟩

theorem Yields.restoring {r : Search} {ps : List Nat} (h : r.Yields ps) (u : Undo) :
    (r.restoring u).Yields ps := by
  have : (r.orElse fun c => .fail (applyUndo u c)).Yields (ps ++ []) := h.orElse fun _ => rfl
  rwa [List.append_nil] at this

/-- Sequencing, for successes that stand for the elements of a list. -/
theorem Yields.bind {α : Type} {r : Search} {f : Nat → Captures → Undo → Search} {xs : List α}
    {pos : α → Nat} {g : α → List Nat} (h : r.Yields (xs.map pos))
    (hf : ∀ x ∈ xs, ∀ c u, (f (pos x) c u).Yields (g x)) : (r.bind f).Yields (xs.flatMap g) := by
  induction r generalizing xs with
  | fail c =>
    cases xs with
    | nil => rfl
    | cons x xs => cases h
  | found p c u next ih =>
    obtain ⟨ps, hps, hn⟩ := h
    cases xs with
    | nil => cases hps
    | cons x xs =>
      cases hps
      apply Yields.orElse (hf x List.mem_cons_self c u)
      intro c
      exact ih c (hn c) fun y hy => hf y (List.mem_cons_of_mem _ hy)

end Search

/-! ## Bounds -/

namespace Node

section
variable {T : Tables} {named : List NamedCaptureEntry} {cs : List Nat}

theorem bounded_grapheme (hcs : CodePoints cs) :
    Es.Bounded cs.length true (outcomes T named cs true .grapheme) := by
  apply Es.bounded_move
  intro x j hx h
  unfold graphemeStep at h
  split at h
  · have hj := List.mem_range.1 (List.mem_of_find?_eq_some h)
    have hoff := List.find?_some h
    simp only [beq_iff_eq] at hoff
    exact ⟨by omega, le_of_off_le hcs hx (by omega)⟩
  · cases h

theorem bounded_strSet {s : StrSet} {forward : Bool} :
    Es.Bounded cs.length forward (outcomes T named cs forward (.strSet s)) := by
  intro x hx y hy
  obtain ⟨j, hj, rfl⟩ := List.mem_map.1 hy
  obtain ⟨p, -, hp⟩ := List.mem_filterMap.1 hj
  have hmem := List.mem_range.1 (List.mem_of_find?_eq_some hp)
  have hahead := List.find?_some hp
  rw [Bool.and_eq_true] at hahead
  refine ⟨Nat.le_of_lt_succ hmem, ?_⟩
  cases forward with
  | true => exact (of_decide_eq_true hahead.2 : x.endIndex ≤ j)
  | false => exact (of_decide_eq_true hahead.2 : j ≤ x.endIndex)

theorem bounded_list {forward : Bool} {ps : List Node}
    (h : ∀ p ∈ ps, ∀ f, p.wf f = true → Es.Bounded cs.length f (p.outcomes T named cs f)) :
    (wfList ps true = true → Es.Bounded cs.length true (outcomesSeq T named cs ps)) ∧
      (wfList ps false = true → Es.Bounded cs.length false (outcomesLBSeq T named cs ps)) ∧
      (wfList ps forward = true →
        Es.Bounded cs.length forward (outcomesAlt T named cs forward ps)) := by
  induction ps with
  | nil => exact ⟨fun _ => Es.bounded_empty, fun _ => Es.bounded_empty, fun _ x _ y hy => by cases hy⟩
  | cons p ps ih =>
    have hp := h p List.mem_cons_self
    obtain ⟨h₁, h₂, h₃⟩ := ih fun q hq => h q (List.mem_cons_of_mem _ hq)
    simp only [wfList, Bool.and_eq_true]
    exact ⟨fun hw => Es.bounded_seq (hp true hw.1) (h₁ hw.2),
      fun hw => Es.bounded_seq (h₂ hw.2) (hp false hw.1),
      fun hw => Es.bounded_alt (hp forward hw.1) (h₃ hw.2)⟩

theorem bounded (hcs : CodePoints cs) (p : Node) (forward : Bool) (hw : p.wf forward = true) :
    Es.Bounded cs.length forward (p.outcomes T named cs forward) := by
  induction p using Node.induct generalizing forward with
  | empty => exact Es.bounded_empty
  | atom a => exact Es.bounded_step
  | grapheme =>
    obtain rfl : forward = true := hw
    exact bounded_grapheme hcs
  | boundary b =>
    apply Es.bounded_move
    intro x i hx h
    split at h
    · cases h
      exact ⟨hx, .refl _ _⟩
    · cases h
  | backRef => exact Es.bounded_backStep
  | repeated _ _ _ _ _ _ p ih =>
    simp only [wf, Bool.and_eq_true] at hw
    exact Es.bounded_repeat (ih forward hw.1.1.1.1.1) _ _ _
  | seq ps ih =>
    simp only [wf, Bool.and_eq_true] at hw
    have hb := @bounded_list T named cs forward ps fun p hp f hf => ih p hp f hf
    unfold outcomes
    cases forward with
    | true => exact hb.1 hw.1.1
    | false => exact hb.2.1 hw.1.1
  | alt ps ih =>
    simp only [wf, Bool.and_eq_true] at hw
    have hb := @bounded_list T named cs forward ps fun p hp f hf => ih p hp f hf
    unfold outcomes
    split
    · next p =>
      exact Es.bounded_alt (ih p List.mem_cons_self forward (wfList_mem.1 hw.1.1.1 p List.mem_cons_self))
        Es.bounded_empty
    · exact hb.2.2 hw.1.1.1
  | lookAround _ _ p _ => exact Es.bounded_lookAround
  | group _ p ih =>
    simp only [wf, Bool.and_eq_true] at hw
    exact Es.bounded_group (ih forward hw.1.1)
  | strSet s => exact bounded_strSet

end

end Node

/-! ## Agreement -/

/-- The search comes to the positions of the outcomes. -/
def Agrees (cs : List Nat) (f : Nat → Captures → Undo → Search) (o : Es.Outcomes) : Prop :=
  ∀ x : Es.State, x.endIndex ≤ cs.length → ∀ c u,
    (f (off cs x.endIndex) c u).Yields ((o x).map fun y => off cs y.endIndex)

section
variable {cs : List Nat} {f f₁ f₂ : Nat → Captures → Undo → Search} {o o₁ o₂ : Es.Outcomes}

theorem agrees_one : Agrees cs .one fun x => [x] := fun _ _ c u => Search.yields_one _ c u

theorem agrees_move {g : Nat → Option Nat} {h : Nat → Option Nat}
    (hgh : ∀ i ≤ cs.length, g (off cs i) = (h i).map (off cs)) :
    Agrees cs (fun p c u => .ofOption c u (g p)) (Es.moveOutcomes fun x => h x.endIndex) := by
  intro x hx c u
  have := Search.yields_ofOption c u ((h x.endIndex).map (off cs))
  rw [← hgh _ hx] at this
  refine (congrArg _ ?_).mpr this
  rw [hgh _ hx]
  simp only [Es.moveOutcomes]
  cases h x.endIndex <;> rfl

theorem Agrees.seq {forward : Bool} (h₁ : Agrees cs f₁ o₁) (h₂ : Agrees cs f₂ o₂)
    (hb : Es.Bounded cs.length forward o₁) :
    Agrees cs (fun p c u => (f₁ p c u).bind f₂) fun x => (o₁ x).flatMap o₂ := by
  intro x hx c u
  rw [List.map_flatMap]
  exact (h₁ x hx c u).bind fun y hy c u => h₂ y (hb x hx y hy).1 c u

theorem Agrees.alt (h₁ : Agrees cs f₁ o₁) (h₂ : Agrees cs f₂ o₂) :
    Agrees cs (fun p c u => (f₁ p c u).orElse fun c => f₂ p c u) fun x => o₁ x ++ o₂ x := by
  intro x hx c u
  rw [List.map_append]
  exact (h₁ x hx c u).orElse fun c => h₂ x hx c u

theorem Agrees.lookAround {keep negate : Bool} (h : Agrees cs f o) :
    Agrees cs (fun p c u => lookAroundSearch keep negate (f p c []) p u)
      (Es.lookAroundOutcomes negate o) := by
  intro x hx c u
  have hf := h x hx c []
  show (lookAroundSearch keep negate (f (off cs x.endIndex) c []) (off cs x.endIndex) u).Yields _
  unfold Es.lookAroundOutcomes
  cases hr : f (off cs x.endIndex) c [] with
  | fail c' =>
    rw [hr] at hf
    rw [List.map_eq_nil_iff.1 hf]
    cases negate with
    | true => exact Search.yields_one _ _ _
    | false => rfl
  | found p c' u' next =>
    rw [hr] at hf
    obtain ⟨qs, hqs, -⟩ := hf
    cases ho : o x with
    | nil =>
      rw [ho] at hqs
      cases hqs
    | cons y ys =>
      cases negate with
      | true => rfl
      | false =>
        cases keep with
        | true => exact (Search.yields_one _ _ _).restoring _
        | false => exact Search.yields_one _ _ _

theorem Agrees.group {forward : Bool} {index : Nat} (h : Agrees cs f o) :
    Agrees cs (fun p c u => ((f p (Function.update c index ⟨p, 0⟩) ((index, .unset) :: u)).bind
      fun p c u => .one p (Function.update c index (closeCapture forward p (c index))) u).restoring
        [(index, .unset)]) (Es.groupOutcomes forward index o) := by
  intro x hx c u
  refine Search.Yields.restoring ?_ _
  rw [Es.groupOutcomes, List.map_map]
  have := (h x hx (Function.update c index ⟨off cs x.endIndex, 0⟩) ((index, .unset) :: u)).bind
    (f := fun p c u => .one p (Function.update c index (closeCapture forward p (c index))) u)
    (g := fun y => [off cs y.endIndex]) fun y _ c u => Search.yields_one _ _ _
  rwa [← List.map_eq_flatMap] at this

/-- The bound of a repeat after `count` rounds. -/
def maxLeft (max count : Nat) : Option Nat := (repeatMax max).map (· - count)

/-- A loop from its head on. The round just ended may have been empty and not required. -/
theorem agrees_loop {forward : Bool} (hcs : CodePoints cs) {min max : Nat} {greedy : Bool}
    {parens : List Nat} (hmin : min ≤ max) (h : Agrees cs f o) (hb : Es.Bounded cs.length forward o) :
    ∀ (fuel fuel' count last : Nat) (x : Es.State) (c : Captures) (u : Undo),
      x.endIndex ≤ cs.length → last ≤ cs.length → (max ≠ Node.unlimit → count ≤ max) →
      Enough cs forward min fuel count (off cs last) (off cs x.endIndex) →
      (¬ (count > min ∧ x.endIndex = last) →
        Es.Fuel cs.length forward fuel' (min - count) x.endIndex) →
      (loopSearch false min max greedy parens f fuel count (off cs last) (off cs x.endIndex) c u).Yields
        ((if count > min ∧ x.endIndex = last then []
          else Es.repeatOutcomes greedy parens o fuel' (min - count) (maxLeft max count) x).map
            fun y => off cs y.endIndex) := by
  intro fuel
  induction fuel with
  | zero => exact fun _ _ _ _ _ _ _ _ _ hen => absurd hen.1 (by decide)
  | succ fuel ih =>
    intro fuel' count last x c u hx hlast hcount hen hfuel
    rw [loopSearch]
    have hoff : off cs last = off cs x.endIndex ↔ x.endIndex = last := by
      rw [off_inj hcs hlast hx]
      exact eq_comm
    by_cases hempty : count > min ∧ x.endIndex = last
    · have : (decide (off cs last = off cs x.endIndex) && decide (count > min)) = true := by
        simp [hempty]
      rw [if_pos this, if_pos hempty]
      rfl
    have hne : (decide (off cs last = off cs x.endIndex) && decide (count > min)) ≠ true := by
      simp only [ne_eq, Bool.and_eq_true, decide_eq_true_eq, hoff]
      exact fun e => hempty ⟨e.2, e.1⟩
    have hne' : ¬ (off cs last = off cs x.endIndex ∧ count > min) := by simpa using hne
    rw [if_neg hne, if_neg hempty]
    replace hfuel := hfuel hempty
    cases fuel' with
    | zero => exact absurd hfuel (Nat.not_succ_le_zero _)
    | succ fuel' =>
      -- one more round, then the loop again
      have hround : ∀ c u, (max ≠ Node.unlimit → count < max) →
          (((f (off cs x.endIndex) (resetAll parens c) (savedAll parens c ++ u)).bind fun p c u =>
            loopSearch false min max greedy parens f fuel (count + 1) (off cs x.endIndex) p c u).restoring
              (savedAll parens c)).Yields
          (((o (x.reset parens)).flatMap fun y =>
            if min - count = 0 ∧ y.endIndex = x.endIndex then []
            else Es.repeatOutcomes greedy parens o fuel' (min - count - 1)
              ((maxLeft max count).map (· - 1)) y).map fun y => off cs y.endIndex) := by
        intro c u hlt
        refine Search.Yields.restoring ?_ _
        rw [List.map_flatMap]
        refine (h (x.reset parens) hx _ _).bind fun y hy c u => ?_
        obtain ⟨hyn, ha⟩ := hb (x.reset parens) hx y hy
        have hcount' : count + 1 > min ↔ min - count = 0 := by omega
        have hmax' : (maxLeft max count).map (· - 1) = maxLeft max (count + 1) := by
          unfold maxLeft
          cases repeatMax max with
          | none => rfl
          | some m => exact congrArg some (Nat.sub_sub m count 1)
        have hadv : Advances forward (off cs x.endIndex) (off cs y.endIndex) := by
          cases forward with
          | true => exact off_le hcs ha hyn
          | false => exact off_le hcs ha hx
        have hstop : (count + 1 > min ∧ y.endIndex = x.endIndex) ↔
            (min - count = 0 ∧ y.endIndex = x.endIndex) := and_congr_left fun _ => hcount'
        have := ih fuel' (count + 1) x.endIndex y c u hyn hx hlt
          (hen.next hcs hne' (.off hx) (.off hyn) hadv) fun hns => by
            rw [hstop] at hns
            rw [← Nat.sub_sub]
            exact hfuel.next hyn ha hns
        rw [hmax', Nat.sub_sub]
        simpa only [hstop] using this
      rw [Es.repeatOutcomes]
      have hmax0 : maxLeft max count = some 0 ↔ max ≠ Node.unlimit ∧ max ≤ count := by
        unfold maxLeft repeatMax
        split
        · next hu => simp [hu]
        · next hu => simp [hu, Nat.sub_eq_zero_iff_le]
      by_cases hlt : count < min
      · rw [if_pos hlt, if_neg (by rw [hmax0]; omega), if_pos (by omega)]
        exact hround c u fun _ => by omega
      rw [if_neg hlt]
      by_cases hmax : count = max ∧ max ≠ Node.unlimit
      · rw [if_pos (by simpa using hmax), if_pos (hmax0.2 ⟨hmax.2, by omega⟩)]
        exact Search.yields_one _ _ _
      · have hlt' : max ≠ Node.unlimit → count < max := fun hu => by
          have := hcount hu
          omega
        have hmax1 : ¬ maxLeft max count = some 0 := fun e => by
          have := hmax0.1 e
          have := hlt' this.1
          omega
        rw [if_neg (by simpa using hmax), if_neg hmax1, if_neg (show ¬ min - count ≠ 0 by omega)]
        cases greedy with
        | true =>
          simp only [if_true, List.map_append]
          exact (hround c u hlt').orElse fun c => Search.yields_one _ _ _
        | false => exact ⟨_, rfl, fun c => hround c u hlt'⟩

end

section
variable {S : Subject} {cs : List Nat} {keep : Bool}

theorem agrees_list (hcs : CodePoints cs) {forward : Bool} {ps : List Node}
    (ih : ∀ p ∈ ps, ∀ f, p.wf f = true →
      Agrees cs (p.search false S keep f) (p.outcomes S.tables S.named cs f)) :
    (Node.wfList ps true = true →
      Agrees cs (Node.searchSeq false S keep ps) (Node.outcomesSeq S.tables S.named cs ps)) ∧
    (Node.wfList ps false = true →
      Agrees cs (Node.searchLBSeq false S keep ps) (Node.outcomesLBSeq S.tables S.named cs ps)) ∧
    (Node.wfList ps forward = true → ps ≠ [] →
      Agrees cs (Node.searchAlt false S keep forward ps)
        (Node.outcomesAlt S.tables S.named cs forward ps)) := by
  induction ps with
  | nil => exact ⟨fun _ => agrees_one, fun _ => agrees_one, fun _ h => absurd rfl h⟩
  | cons p ps ihs =>
    have hp := ih p List.mem_cons_self
    obtain ⟨h₁, h₂, h₃⟩ := ihs fun q hq => ih q (List.mem_cons_of_mem _ hq)
    simp only [Node.wfList, Bool.and_eq_true]
    refine ⟨fun hw => ?_, fun hw => ?_, fun hw _ => ?_⟩
    · exact (hp true hw.1).seq (h₁ hw.2) (p.bounded hcs true hw.1)
    · have hb : Es.Bounded cs.length false (Node.outcomesLBSeq S.tables S.named cs ps) :=
        (@Node.bounded_list _ _ _ false _ fun q _ => q.bounded hcs).2.1 hw.2
      exact (h₂ hw.2).seq (hp false hw.1) hb
    · cases ps with
      | nil =>
        intro x hx c u
        have := hp forward hw.1 x hx c u
        simpa [Node.outcomesAlt, Node.searchAlt] using this
      | cons q qs => exact (hp forward hw.1).alt (h₃ hw.2 (List.cons_ne_nil _ _))

theorem Node.plainList_mem {ps : List Node} :
    plainList ps = true ↔ ∀ p ∈ ps, p.plain = true := by
  induction ps with
  | nil => simp [plainList]
  | cons p ps ih => simp [plainList, ih]

/-- The search of a plain tree comes to the positions of its outcomes. -/
theorem agrees_plain (hcs : CodePoints cs) (hS : S.bytes = encode cs) (p : Node) (forward : Bool)
    (hw : p.wf forward = true) (hp : p.plain = true) :
    Agrees cs (p.search false S keep forward) (p.outcomes S.tables S.named cs forward) := by
  induction p using Node.induct generalizing forward with
  | empty => exact agrees_one
  | atom a => exact agrees_move fun i hi => a.iter_off hcs hS forward hi
  | grapheme => cases hp
  | boundary b =>
    have := @agrees_move cs
      (g := fun p => if b.test S p then some p else none)
      (h := fun i => if b.holds S.tables cs i then some i else none) fun i hi => by
        rw [b.test_off hcs hS hi]
        split <;> rfl
    intro x hx c u
    have hy : (Search.ofOption c u (if b.test S (off cs x.endIndex) then some (off cs x.endIndex)
        else none)).Yields _ := this x hx c u
    show (if b.test S (off cs x.endIndex) then Search.one _ c u else .fail c).Yields _
    split
    · next h => rwa [if_pos h] at hy
    · next h => rwa [if_neg h] at hy
  | backRef => cases hp
  | repeated l first last min max greedy p ih =>
    have hb := @Node.bounded S.tables S.named cs hcs p forward
    simp only [Node.wf, Bool.and_eq_true, decide_eq_true_eq] at hw
    obtain ⟨⟨⟨⟨⟨hwp, -⟩, -⟩, -⟩, hmin⟩, -⟩ := hw
    intro x hx c u
    have hle : off cs x.endIndex ≤ (encode cs).length := (Valid.off hx).le hcs
    have hrest : rest cs forward (off cs x.endIndex) ≤ (encode cs).length := by
      unfold rest
      split
      · exact Nat.sub_le _ _
      · exact hle
    have hleft := Es.left_le_length forward hx
    have := @agrees_loop cs _ _ forward hcs min max greedy (Node.groupRange first last) hmin
      (ih forward hwp hp) (hb hwp) (min + S.bytes.length + 2) (min + cs.length + 1) 0 0 x c u hx
      (Nat.zero_le _) (fun _ => Nat.zero_le _) ⟨by omega, .inr (by rw [hS]; omega)⟩
      fun _ => show _ ≤ _ by omega
    rw [off_zero, if_neg (by omega)] at this
    have hmax : maxLeft max 0 = repeatMax max := by
      unfold maxLeft
      cases repeatMax max <;> rfl
    rw [hmax] at this
    exact this
  | seq ps ih =>
    simp only [Node.wf, Bool.and_eq_true] at hw
    have hps := Node.plainList_mem.1 hp
    have := @agrees_list S cs keep hcs forward ps fun q hq f hf => ih q hq f hf (hps q hq)
    intro x hx c u
    cases forward with
    | true => exact this.1 hw.1.1 x hx c u
    | false => exact this.2.1 hw.1.1 x hx c u
  | alt ps ih =>
    simp only [Node.wf, Bool.and_eq_true] at hw
    have hps := Node.plainList_mem.1 hp
    have := @agrees_list S cs keep hcs forward ps fun q hq f hf => ih q hq f hf (hps q hq)
    rcases ps with _ | ⟨p, _ | ⟨q, qs⟩⟩
    · simp at hw
    · have h0 : p ∈ [p] := List.mem_cons_self
      exact (ih p h0 forward (Node.wfList_mem.1 hw.1.1.1 p h0) (hps p h0)).alt agrees_one
    · exact this.2.2 hw.1.1.1 (List.cons_ne_nil _ _)
  | lookAround lookAhead negate p ih => exact (ih lookAhead hw hp).lookAround
  | group index p ih =>
    simp only [Node.wf, Bool.and_eq_true] at hw
    exact (ih forward hw.1.1 hp).group
  | strSet => cases hp

end

end Arsh.Regex
