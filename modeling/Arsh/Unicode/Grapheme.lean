import Mathlib.Data.List.Basic
import Mathlib.Tactic.Common

/-!
# Boundaries of grapheme clusters

`GraphemeBoundary` of `unicode/grapheme.{h,cpp}`: a state of one property decides between every two
code points whether a cluster ends there. The rules it is to follow look back over the text; here
they are about the text before a boundary, its last code point first.
-/

namespace Arsh.Unicode

/-! ## Properties -/

inductive BreakProperty where
  | sot
  | any | cr | lf | control | extend | zwj | regionalIndicator | prepend | spacingMark
  | l | v | t | lv | lvt
  | extendedPictographic
  /-- `\p{Extended_Pictographic} Extend* ZWJ` -/
  | extendedPictographicWithZWJ
  | inCBConsonant | inCBExtend | inCBLinker
  deriving DecidableEq, Repr

/-- What is looked up: the ranges of `grapheme_break_property.in`, where `none` is behind the last one,
and the sets of other properties. -/
structure Properties where
  table : Nat → Option BreakProperty
  consonant : Nat → Bool
  extendedPictographic : Nat → Bool
  inCBExtend : Nat → Bool
  inCBLinker : Nat → Bool

namespace Properties

variable (t : Properties)

/-- An invalid code point is negative. -/
def getBreakProperty (codePoint : Int) : BreakProperty :=
  if codePoint < 0 then .control
  else
    match t.table codePoint.toNat with
    | some .any =>
      if t.consonant codePoint.toNat then .inCBConsonant
      else if t.extendedPictographic codePoint.toNat then .extendedPictographic
      else .any
    | some p => p
    | none => .any

def getInCBExtendOrLinker (codePoint : Int) : BreakProperty :=
  if codePoint < 0 then .any
  else if t.inCBExtend codePoint.toNat then .inCBExtend
  else if t.inCBLinker codePoint.toNat then .inCBLinker
  else .any

end Properties

/-- What holds of the tables: they have no property that is a state only, and the properties for
Indic conjuncts go with those for clusters. -/
structure Tables extends Properties where
  table_ne : ∀ c p, table c = some p → p ∉ [.sot, .extendedPictographic,
    .extendedPictographicWithZWJ, .inCBConsonant, .inCBExtend, .inCBLinker]
  linker : ∀ c, toProperties.getInCBExtendOrLinker c = .inCBLinker →
    toProperties.getBreakProperty c = .extend ∨ toProperties.getBreakProperty c = .any
  extend : ∀ c, toProperties.getInCBExtendOrLinker c = .inCBExtend →
    toProperties.getBreakProperty c = .extend ∨ toProperties.getBreakProperty c = .zwj

/-! ## The source -/

structure GraphemeBoundary where
  codePoint : Int := -1
  state : BreakProperty := .sot
  emojiSeq : Bool := false
  deriving DecidableEq, Repr

section
open BreakProperty

/-- The rules for syllable blocks, GB6 to GB8. -/
def joinsHangul (before after : BreakProperty) : Bool :=
  match before with
  | l => after = l || after = v || after = lv || after = lvt
  | lv | v => after = v || after = t
  | lvt | t => after = t
  | _ => false

/-- `checkBoundary`: whether the next code point starts another cluster. -/
def GraphemeBoundary.checkBoundary (p : Properties) (b : GraphemeBoundary) (nextCodePoint : Int) :
    Bool × GraphemeBoundary :=
  let after := p.getBreakProperty nextCodePoint
  let before := b.state
  let b' : GraphemeBoundary := ⟨nextCodePoint, after, false⟩
  let linked := (before = extend || before = any || before = inCBLinker) &&
    (before = inCBLinker || p.getInCBExtendOrLinker b.codePoint = inCBLinker)
  if before = sot then (false, b')
  else if before = cr then (after ≠ lf, b')
  else if before = lf || before = control then (true, b')
  else if after = control || after = cr || after = lf then (true, b')
  else if joinsHangul before after then (false, b')
  else if linked && (after = zwj || after = extend) &&
      p.getInCBExtendOrLinker nextCodePoint = inCBExtend then
    (false, { b' with state := inCBLinker }) -- consume InCB_Extend
  else if linked && after = inCBConsonant then (false, b')
  else if (after = extend || after = zwj) && before ≠ extendedPictographic then (false, b')
  else if after = spacingMark then (false, b')
  else
    match before with
    | prepend => (false, b')
    | regionalIndicator =>
      if after = regionalIndicator then (false, { b' with state := any }) else (true, b')
    | extendedPictographic =>
      if after = extend then (false, ⟨nextCodePoint, extendedPictographic, true⟩) -- consume Extend
      else if after = zwj then (false, ⟨nextCodePoint, extendedPictographicWithZWJ, true⟩)
      else (true, b')
    | extendedPictographicWithZWJ => (after ≠ extendedPictographic, b')
    | _ => (true, b')

/-- What is reported before each code point. -/
def GraphemeBoundary.run (p : Properties) : GraphemeBoundary → List Int → List Bool
  | _, [] => []
  | b, c :: text => (b.checkBoundary p c).1 :: run p (b.checkBoundary p c).2 text

end

/-! ## The rules -/

namespace Properties

variable (t : Properties) (rs : List Int) (c next : Int)

def isExtend : Bool := t.getBreakProperty c = .extend

def isPictographic : Bool := t.getBreakProperty c = .extendedPictographic

def isRegionalIndicator : Bool := t.getBreakProperty c = .regionalIndicator

def isInCBExtend : Bool := t.getInCBExtendOrLinker c = .inCBExtend

def isInCBLinker : Bool := t.getInCBExtendOrLinker c = .inCBLinker

/-- `Linker Extend*` is before. -/
def linkerBefore : Bool := (rs.dropWhile t.isInCBExtend).head?.any t.isInCBLinker

/-- `Extended_Pictographic Extend*` is before. -/
def emojiBefore : Bool := (rs.dropWhile t.isExtend).head?.any t.isPictographic

/-- `Extended_Pictographic Extend* ZWJ` is before. -/
def emojiZWJBefore : Bool :=
  match rs with
  | [] => false
  | c :: rs => t.getBreakProperty c = .zwj && t.emojiBefore rs

/-- An odd number of regional indicators is before. -/
def oddIndicatorsBefore : Bool := (rs.takeWhile t.isRegionalIndicator).length % 2 = 1

/-- GB3 to GB999 between the code point `c`, which `rs` is before, and the next one: the first rule
that applies says whether there is a boundary. -/
def boundaryRule : Bool :=
  let before := t.getBreakProperty c
  let after := t.getBreakProperty next
  if before = .cr && after = .lf then false -- GB3
  else if before = .control || before = .cr || before = .lf then true -- GB4
  else if after = .control || after = .cr || after = .lf then true -- GB5
  else if joinsHangul before after then false -- GB6, GB7, GB8
  else if after = .extend || after = .zwj then false -- GB9
  else if after = .spacingMark then false -- GB9a
  else if before = .prepend then false -- GB9b
  else if t.linkerBefore (c :: rs) && after = .inCBConsonant then false -- GB9c
  else if t.emojiZWJBefore (c :: rs) && after = .extendedPictographic then false -- GB11
  else if t.oddIndicatorsBefore (c :: rs) && after = .regionalIndicator then false -- GB12, GB13
  else true -- GB999

/-- The boundaries between the neighbours of a text behind `c`, which `rs` is before. -/
def boundariesFrom : List Int → Int → List Int → List Bool
  | _, _, [] => []
  | rs, c, next :: text => t.boundaryRule rs c next :: boundariesFrom (c :: rs) next text

/-- The boundaries between the neighbours of a text. -/
def boundaries : List Int → List Bool
  | [] => []
  | c :: text => t.boundariesFrom [] c text

end Properties

/-! ## The state -/

namespace Properties

variable (t : Properties) (rs : List Int) (c next : Int)

/-- `Linker Extend*` is before, and the linker does not belong to an emoji sequence. -/
def linkerKept : Bool :=
  t.linkerBefore rs && !t.emojiBefore (rs.dropWhile t.isInCBExtend)

/-- The state behind a text. -/
def stateOf : List Int → BreakProperty
  | [] => .sot
  | c :: rs =>
    let p := t.getBreakProperty c
    if t.emojiBefore (c :: rs) then .extendedPictographic
    else if t.emojiZWJBefore (c :: rs) then .extendedPictographicWithZWJ
    else if p = .regionalIndicator then
      if t.oddIndicatorsBefore (c :: rs) then .regionalIndicator else .any
    else if t.isInCBExtend c && t.linkerKept rs then .inCBLinker
    else p

/-- A linker that belongs to an emoji sequence, and a consonant behind it. -/
def lostLinker : Bool :=
  t.getBreakProperty next = .inCBConsonant && t.linkerBefore rs &&
    t.emojiBefore (rs.dropWhile t.isInCBExtend)

variable {t rs next c}

theorem emojiBefore_cons : t.emojiBefore (c :: rs) =
    if t.isExtend c then t.emojiBefore rs else t.isPictographic c := by
  unfold emojiBefore
  rw [List.dropWhile_cons]
  split <;> rfl

theorem oddIndicatorsBefore_cons : t.oddIndicatorsBefore (c :: rs) =
    (t.isRegionalIndicator c && !t.oddIndicatorsBefore rs) := by
  unfold oddIndicatorsBefore
  rw [List.takeWhile_cons]
  cases t.isRegionalIndicator c with
  | false => rfl
  | true =>
    rw [if_pos rfl, List.length_cons, Bool.true_and, ← decide_not]
    exact decide_eq_decide.2 (by omega)

theorem linkerBefore_cons : t.linkerBefore (c :: rs) =
    if t.isInCBExtend c then t.linkerBefore rs else t.isInCBLinker c := by
  unfold linkerBefore
  rw [List.dropWhile_cons]
  split <;> rfl

theorem linkerKept_cons : t.linkerKept (c :: rs) =
    if t.isInCBExtend c then t.linkerKept rs
    else t.isInCBLinker c && !t.emojiBefore (c :: rs) := by
  unfold linkerKept
  rw [linkerBefore_cons, List.dropWhile_cons]
  split <;> rfl

end Properties

namespace Tables

variable {t : Tables} {rs : List Int} {next c : Int}

/-- A property that is looked up is no state. -/
theorem getBreakProperty_ne (t : Tables) (c : Int) :
    t.getBreakProperty c ≠ .sot ∧ t.getBreakProperty c ≠ .extendedPictographicWithZWJ ∧
      t.getBreakProperty c ≠ .inCBExtend ∧ t.getBreakProperty c ≠ .inCBLinker := by
  unfold Properties.getBreakProperty
  split
  · simp
  · split
    · split_ifs <;> simp
    · next p _ h =>
      have hne := t.table_ne _ _ h
      simp only [List.mem_cons, List.not_mem_nil, or_false, not_or] at hne
      exact ⟨hne.1, hne.2.2.1, hne.2.2.2.2.1, hne.2.2.2.2.2⟩
    · simp

theorem property_of_emojiBefore (h : t.emojiBefore (c :: rs) = true) :
    t.getBreakProperty c = .extend ∨ t.getBreakProperty c = .extendedPictographic := by
  rw [Properties.emojiBefore_cons] at h
  split at h
  · next he => exact .inl (of_decide_eq_true he)
  · exact .inr (of_decide_eq_true h)

theorem property_of_emojiZWJBefore (h : t.emojiZWJBefore (c :: rs) = true) :
    t.getBreakProperty c = .zwj := by
  unfold Properties.emojiZWJBefore at h
  rw [Bool.and_eq_true] at h
  exact of_decide_eq_true h.1

theorem property_of_oddIndicatorsBefore (h : t.oddIndicatorsBefore (c :: rs) = true) :
    t.getBreakProperty c = .regionalIndicator := by
  rw [Properties.oddIndicatorsBefore_cons, Bool.and_eq_true] at h
  exact of_decide_eq_true h.1

theorem property_of_isInCBExtend (h : t.isInCBExtend c = true) :
    t.getBreakProperty c = .extend ∨ t.getBreakProperty c = .zwj :=
  t.extend c (of_decide_eq_true h)

theorem property_of_isInCBLinker (h : t.isInCBLinker c = true) :
    t.getBreakProperty c = .extend ∨ t.getBreakProperty c = .any :=
  t.linker c (of_decide_eq_true h)

/-- Behind a linker that does not belong to an emoji sequence there is no such sequence. -/
theorem not_emojiBefore_of_linkerKept (h : t.linkerKept rs = true) : t.emojiBefore rs = false := by
  induction rs with
  | nil => rfl
  | cons c rs ih =>
    rw [Properties.linkerKept_cons] at h
    split at h
    · next he =>
      rw [Properties.emojiBefore_cons]
      split
      · exact ih h
      · rw [Properties.isPictographic, decide_eq_false_iff_not]
        rcases property_of_isInCBExtend he with hp | hp <;> rw [hp] <;> decide
    · rw [Bool.and_eq_true, Bool.not_eq_true'] at h
      exact h.2

/-! ## What the state tells -/

theorem stateOf_ne_sot : t.stateOf (c :: rs) ≠ .sot := by
  unfold Properties.stateOf
  dsimp only
  split_ifs <;> first | exact (getBreakProperty_ne t c).1 | decide

theorem stateOf_pictographic :
    t.stateOf (c :: rs) = .extendedPictographic ↔ t.emojiBefore (c :: rs) = true := by
  unfold Properties.stateOf
  dsimp only
  constructor
  · intro h
    split_ifs at h with h₁
    · exact h₁
    · rw [Properties.emojiBefore_cons]
      have hne : t.isExtend c = false := by
        unfold Properties.isExtend
        rw [h]
        rfl
      rw [hne]
      exact decide_eq_true h
  · exact fun h => if_pos h

theorem stateOf_pictographicWithZWJ :
    t.stateOf (c :: rs) = .extendedPictographicWithZWJ ↔ t.emojiZWJBefore (c :: rs) = true := by
  unfold Properties.stateOf
  dsimp only
  constructor
  · intro h
    split_ifs at h with h₁ h₂
    · exact h₂
    · exact absurd h (getBreakProperty_ne t c).2.1
  · intro h
    have hzwj := property_of_emojiZWJBefore h
    rw [if_neg, if_pos h]
    intro he
    rcases property_of_emojiBefore he with hp | hp <;> rw [hp] at hzwj <;> cases hzwj

theorem stateOf_regionalIndicator :
    t.stateOf (c :: rs) = .regionalIndicator ↔ t.oddIndicatorsBefore (c :: rs) = true := by
  unfold Properties.stateOf
  dsimp only
  constructor
  · intro h
    split_ifs at h with h₁ h₂ h₃ h₄ h₅
    · exact h₄
    · exact absurd h h₃
  · intro h
    have hp := property_of_oddIndicatorsBefore h
    rw [if_neg, if_neg, if_pos hp, if_pos h]
    · intro he
      rw [property_of_emojiZWJBefore he] at hp
      cases hp
    · intro he
      rcases property_of_emojiBefore he with hq | hq <;> rw [hq] at hp <;> cases hp

/-- The properties that the state has for the last code point only. -/
theorem stateOf_property {q : BreakProperty} (hq : q ∈ [BreakProperty.cr, .lf, .control, .prepend,
    .l, .v, .t, .lv, .lvt]) : t.stateOf (c :: rs) = q ↔ t.getBreakProperty c = q := by
  have hne : q ≠ .any ∧ q ≠ .extend ∧ q ≠ .zwj ∧ q ≠ .regionalIndicator ∧
      q ≠ .extendedPictographic ∧ q ≠ .extendedPictographicWithZWJ ∧ q ≠ .inCBLinker := by
    simp only [List.mem_cons, List.not_mem_nil, or_false] at hq
    rcases hq with rfl | rfl | rfl | rfl | rfl | rfl | rfl | rfl | rfl <;> decide
  obtain ⟨hany, hextend, hzwj, hri, hpict, hpictZWJ, hlinker⟩ := hne
  unfold Properties.stateOf
  dsimp only
  constructor
  · intro h
    split_ifs at h
    · exact absurd h.symm hpict
    · exact absurd h.symm hpictZWJ
    · exact absurd h.symm hri
    · exact absurd h.symm hany
    · exact absurd h.symm hlinker
    · exact h
  · rintro rfl
    rw [if_neg, if_neg, if_neg hri, if_neg]
    · intro h
      rw [Bool.and_eq_true] at h
      exact (property_of_isInCBExtend h.1).elim hextend hzwj
    · exact fun h => hzwj (property_of_emojiZWJBefore h)
    · exact fun h => (property_of_emojiBefore h).elim hextend hpict

/-- Whether the state and the last code point tell of a linker. -/
theorem stateOf_linked : ((t.stateOf (c :: rs) = .extend ∨ t.stateOf (c :: rs) = .any ∨
      t.stateOf (c :: rs) = .inCBLinker) ∧
      (t.stateOf (c :: rs) = .inCBLinker ∨ t.getInCBExtendOrLinker c = .inCBLinker)) ↔
    t.linkerKept (c :: rs) = true := by
  rw [Properties.linkerKept_cons]
  by_cases hext : t.isInCBExtend c = true
  · have hnl : t.getInCBExtendOrLinker c ≠ .inCBLinker := by
      rw [of_decide_eq_true hext]
      decide
    have hp := property_of_isInCBExtend hext
    have hri : t.getBreakProperty c ≠ .regionalIndicator := by
      rcases hp with hp | hp <;> rw [hp] <;> decide
    rw [if_pos hext]
    unfold Properties.stateOf
    dsimp only
    rw [if_neg hri, hext, Bool.true_and]
    by_cases hkept : t.linkerKept rs = true
    · have hemoji := not_emojiBefore_of_linkerKept hkept
      have h₁ : t.emojiBefore (c :: rs) = false := by
        rw [Properties.emojiBefore_cons, hemoji]
        split
        · rfl
        · rw [Properties.isPictographic, decide_eq_false_iff_not]
          rcases hp with hp | hp <;> rw [hp] <;> decide
      have h₂ : t.emojiZWJBefore (c :: rs) = false := by
        show (decide _ && t.emojiBefore rs) = false
        rw [hemoji, Bool.and_false]
      simp [h₁, h₂, hkept]
    · simp only [hnl, or_false, hkept, Bool.false_eq_true, if_false, iff_false]
      rintro ⟨-, h⟩
      split_ifs at h
      exact (getBreakProperty_ne t c).2.2.2 h
  · rw [if_neg hext, Bool.and_eq_true, Bool.not_eq_true']
    have hstate : t.stateOf (c :: rs) ≠ .inCBLinker := by
      unfold Properties.stateOf
      dsimp only
      simp only [hext, Bool.false_and, Bool.false_eq_true, if_false]
      split_ifs <;> first | exact (getBreakProperty_ne t c).2.2.2 | decide
    have hiff : t.isInCBLinker c = true ↔ t.getInCBExtendOrLinker c = .inCBLinker :=
      decide_eq_true_iff
    simp only [hstate, or_false, false_or, hiff]
    constructor
    · rintro ⟨hs, hl⟩
      refine ⟨hl, Bool.eq_false_iff.2 fun he => ?_⟩
      rw [stateOf_pictographic.2 he] at hs
      rcases hs with hs | hs <;> cases hs
    · rintro ⟨hl, he⟩
      refine ⟨?_, hl⟩
      have hp := t.linker c hl
      have hzwj : t.emojiZWJBefore (c :: rs) = false := Bool.eq_false_iff.2 fun h => by
        rw [property_of_emojiZWJBefore h] at hp
        rcases hp with hp | hp <;> cases hp
      unfold Properties.stateOf
      dsimp only
      rw [he, hzwj, Bool.eq_false_iff.2 hext]
      rcases hp with hp | hp <;> simp [hp]

theorem property_of_linkerBefore (h : t.linkerBefore (c :: rs) = true) :
    t.getBreakProperty c = .extend ∨ t.getBreakProperty c = .zwj ∨ t.getBreakProperty c = .any := by
  rw [Properties.linkerBefore_cons] at h
  split at h
  · next he => exact (property_of_isInCBExtend he).imp_right .inl
  · exact (property_of_isInCBLinker h).imp_right .inr

theorem joinsHangul_stateOf (after : BreakProperty) :
    joinsHangul (t.stateOf (c :: rs)) after = joinsHangul (t.getBreakProperty c) after := by
  have hback {q : BreakProperty} (hq : q ∈ [BreakProperty.cr, .lf, .control, .prepend,
      .l, .v, .t, .lv, .lvt]) (h : t.stateOf (c :: rs) = q) : t.getBreakProperty c = q :=
    (stateOf_property hq).1 h
  have hforth {q : BreakProperty} (hq : q ∈ [BreakProperty.cr, .lf, .control, .prepend,
      .l, .v, .t, .lv, .lvt]) (h : t.getBreakProperty c = q) : t.stateOf (c :: rs) = q :=
    (stateOf_property hq).2 h
  by_cases hp : t.getBreakProperty c ∈ [BreakProperty.l, .v, .t, .lv, .lvt]
  · rw [hforth (List.mem_cons_of_mem _ (List.mem_cons_of_mem _ (List.mem_cons_of_mem _
      (List.mem_cons_of_mem _ hp)))) rfl]
  · have hs : t.stateOf (c :: rs) ∉ [BreakProperty.l, .v, .t, .lv, .lvt] := by
      intro h
      rw [hback (List.mem_cons_of_mem _ (List.mem_cons_of_mem _ (List.mem_cons_of_mem _
        (List.mem_cons_of_mem _ h)))) rfl] at hp
      exact hp h
    have hnone : ∀ q ∉ [BreakProperty.l, .v, .t, .lv, .lvt], joinsHangul q after = false := by
      intro q hq
      cases q <;> first | rfl | exact absurd (by decide) hq
    rw [hnone _ hp, hnone _ hs]

/-- A boundary is reported where the rules have one, and before a consonant whose linker was taken
for a part of an emoji sequence. -/
theorem checkBoundary_fst {b : GraphemeBoundary} (hstate : b.state = t.stateOf (c :: rs))
    (hc : b.codePoint = c) : (b.checkBoundary t.toProperties next).1 =
      (t.boundaryRule rs c next || t.lostLinker (c :: rs) next) := by
  have hcr := @stateOf_property t rs c .cr (by decide)
  have hlf := @stateOf_property t rs c .lf (by decide)
  have hcontrol := @stateOf_property t rs c .control (by decide)
  have hprepend := @stateOf_property t rs c .prepend (by decide)
  have hpict := @stateOf_pictographic t rs c
  have hzwj := @stateOf_pictographicWithZWJ t rs c
  have hri := @stateOf_regionalIndicator t rs c
  have hlink := @stateOf_linked t rs c
  have hsot := @stateOf_ne_sot t rs c
  have hhangul := @joinsHangul_stateOf t rs c (t.getBreakProperty next)
  have hext := @property_of_isInCBExtend t next
  unfold GraphemeBoundary.checkBoundary Properties.boundaryRule Properties.lostLinker
  dsimp only
  rw [hstate, hc, hhangul]
  have hbefore := @property_of_linkerBefore t rs c
  have hconsonant (p : BreakProperty) : joinsHangul p .inCBConsonant = false := by cases p <;> rfl
  have hkept : t.linkerKept (c :: rs) = (t.linkerBefore (c :: rs) &&
    !t.emojiBefore ((c :: rs).dropWhile t.isInCBExtend)) := rfl
  simp only [← hcr, ← hlf, ← hcontrol, ← hprepend]
  generalize t.stateOf (c :: rs) = B at *
  generalize t.getBreakProperty next = a at *
  cases B <;> grind

theorem checkBoundary_snd {b : GraphemeBoundary} (hstate : b.state = t.stateOf (c :: rs))
    (hc : b.codePoint = c) :
    (b.checkBoundary t.toProperties next).2.state = t.stateOf (next :: c :: rs) ∧
      (b.checkBoundary t.toProperties next).2.codePoint = next := by
  have hpict := @stateOf_pictographic t rs c
  have hri := @stateOf_regionalIndicator t rs c
  have hlink := @stateOf_linked t rs c
  have hsot := @stateOf_ne_sot t rs c
  have hext : t.isInCBExtend next = true ↔ t.getInCBExtendOrLinker next = .inCBExtend :=
    decide_eq_true_iff
  have hprop := @property_of_isInCBExtend t next
  have hconsonant (p : BreakProperty) : joinsHangul p .extend = false ∧
      joinsHangul p .zwj = false ∧ joinsHangul p .regionalIndicator = false := by
    cases p <;> exact ⟨rfl, rfl, rfl⟩
  have hemoji : t.emojiBefore (next :: c :: rs) =
      if t.getBreakProperty next = .extend then t.emojiBefore (c :: rs)
      else t.getBreakProperty next = .extendedPictographic := by
    rw [Properties.emojiBefore_cons]
    unfold Properties.isExtend Properties.isPictographic
    split <;> split <;> simp_all
  have hzwj : t.emojiZWJBefore (next :: c :: rs) =
      (t.getBreakProperty next = .zwj && t.emojiBefore (c :: rs)) := rfl
  have hodd := @Properties.oddIndicatorsBefore_cons t.toProperties (c :: rs) next
  unfold GraphemeBoundary.checkBoundary
  dsimp only
  rw [hstate, hc]
  generalize t.stateOf (c :: rs) = B at *
  rw [Properties.stateOf, hemoji, hzwj, hodd]
  unfold Properties.isRegionalIndicator
  generalize t.getBreakProperty next = a at *
  cases B <;> grind

/-! ## Runs -/

/-- No rule has a boundary before a consonant behind a linker. -/
theorem boundaryRule_of_lostLinker (h : t.lostLinker (c :: rs) next = true) :
    t.boundaryRule rs c next = false := by
  unfold Properties.lostLinker at h
  rw [Bool.and_eq_true, Bool.and_eq_true] at h
  obtain ⟨⟨hnext, hlinker⟩, -⟩ := h
  have hafter : t.getBreakProperty next = .inCBConsonant := of_decide_eq_true hnext
  unfold Properties.boundaryRule
  rw [hafter, hlinker]
  rcases property_of_linkerBefore hlinker with hp | hp | hp <;> rw [hp] <;> rfl

theorem run_eq_iff {b : GraphemeBoundary} {text : List Int} (hstate : b.state = t.stateOf (c :: rs))
    (hc : b.codePoint = c) : b.run t.toProperties text = t.boundariesFrom rs c text ↔
      ∀ pre next post, text = pre ++ next :: post →
        t.lostLinker (pre.reverse ++ c :: rs) next = false := by
  induction text generalizing b c rs with
  | nil => exact ⟨fun _ pre next post h => (by simp at h), fun _ => rfl⟩
  | cons next text ih =>
    obtain ⟨hstate', hc'⟩ := @checkBoundary_snd t rs next c b hstate hc
    have hfirst : (t.boundaryRule rs c next || t.lostLinker (c :: rs) next) =
        t.boundaryRule rs c next ↔ t.lostLinker (c :: rs) next = false := by
      cases hl : t.lostLinker (c :: rs) next with
      | false => simp
      | true => simp [boundaryRule_of_lostLinker hl]
    rw [GraphemeBoundary.run, Properties.boundariesFrom, List.cons.injEq,
      checkBoundary_fst hstate hc, hfirst, ih hstate' hc']
    constructor
    · rintro ⟨hlost, htext⟩ pre x post h
      cases pre with
      | nil =>
        cases h
        exact hlost
      | cons y pre =>
        cases h
        have := htext pre x post rfl
        rwa [List.reverse_cons, List.append_assoc]
    · intro h
      refine ⟨h [] next text rfl, fun pre x post htext => ?_⟩
      have := h (next :: pre) x post (by rw [htext]; rfl)
      rwa [List.reverse_cons, List.append_assoc] at this

/-- The state behind the first code point. -/
theorem checkBoundary_first (t : Tables) (c : Int) :
    (GraphemeBoundary.checkBoundary t.toProperties {} c).2.state = t.stateOf [c] := by
  have hkept : t.linkerKept [] = false := rfl
  have hemoji : t.emojiBefore [] = false := rfl
  have hodd : t.oddIndicatorsBefore [] = false := rfl
  have hzwj : t.emojiZWJBefore [c] = false := Bool.and_false _
  show t.getBreakProperty c = _
  unfold Properties.stateOf
  dsimp only
  rw [Properties.emojiBefore_cons, Properties.oddIndicatorsBefore_cons, hkept, hzwj, hemoji, hodd]
  unfold Properties.isExtend Properties.isPictographic Properties.isRegionalIndicator
  by_cases hp : t.getBreakProperty c = .extendedPictographic
  · rw [hp]
    rfl
  · by_cases hri : t.getBreakProperty c = .regionalIndicator
    · rw [hri]
      rfl
    · simp [hp, hri]

/-- The boundaries reported for a text are those of the rules exactly if nowhere a linker that belongs
to an emoji sequence comes, with other extending characters, before a consonant. -/
theorem graphemeBoundaries_iff (t : Tables) (text : List Int) :
    (GraphemeBoundary.run t.toProperties {} text).tail = t.boundaries text ↔
      ∀ pre next post, text = pre ++ next :: post → t.lostLinker pre.reverse next = false := by
  cases text with
  | nil => exact ⟨fun _ pre next post h => (by simp at h), fun _ => rfl⟩
  | cons c text =>
    have hstate := checkBoundary_first t c
    rw [GraphemeBoundary.run, List.tail_cons, Properties.boundaries, run_eq_iff hstate rfl]
    constructor
    · intro h pre next post htext
      cases pre with
      | nil => exact Bool.and_eq_false_imp.2 fun h => absurd h (by simp [Properties.linkerBefore])
      | cons y pre =>
        cases htext
        rw [List.reverse_cons]
        exact h pre next post rfl
    · intro h pre next post htext
      have := h (c :: pre) next post (by rw [htext]; rfl)
      rwa [List.reverse_cons] at this

/-- The properties of U+00A9, U+094D and U+0915. -/
def copyrightVirama : Tables where
  table c := some (if c = 0x94D then .extend else .any)
  consonant c := c = 0x915
  extendedPictographic c := c = 0xA9
  inCBExtend _ := false
  inCBLinker c := c = 0x94D
  table_ne c p h := by
    split at h <;> cases h <;> decide
  linker c h := by
    left
    unfold Properties.getInCBExtendOrLinker at h
    split_ifs at h with hneg hext hlinker
    unfold Properties.getBreakProperty
    rw [if_neg hneg, of_decide_eq_true hlinker]
    rfl
  extend c h := by
    unfold Properties.getInCBExtendOrLinker at h
    split_ifs at h with hneg hext
    exact hext.elim

/-- A virama behind U+00A9 is forgotten, so a boundary is reported before the consonant. -/
theorem run_copyrightVirama :
    (GraphemeBoundary.run copyrightVirama.toProperties {} [0xA9, 0x94D, 0x915]).tail ≠
      copyrightVirama.boundaries [0xA9, 0x94D, 0x915] := by decide

end Tables

end Arsh.Unicode
