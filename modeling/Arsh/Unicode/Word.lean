import Mathlib.Data.List.Basic
import Mathlib.Tactic.Common

/-!
# Boundaries of words

`WordScanner` of `unicode/word.h`: like the scanner of grapheme clusters it keeps one property, and it
looks ahead in the text where a rule does. The rules are about the text before a boundary, its last code
point first, and the text behind it.
-/

namespace Arsh.Unicode

/-! ## Properties -/

inductive WordBreakProperty where
  | sot | eot
  | any | cr | lf | newline | extend | zwj | regionalIndicator | format | katakana | hebrewLetter
  | aLetter | singleQuote | doubleQuote | midNumLet | midLetter | midNum | numeric | extendNumLet
  | wSegSpace
  /-- for WB3d, WB4 -/
  | wSegSpaceEFZ
  /-- for WB6, WB7: `AHLetter * (MidLetter|MidNumLetQ)` -/
  | aHLetterMidNumLetQ
  /-- for WB7c: `Hebrew_Letter * Double_Quote` -/
  | hebrewLetterDQ
  /-- for WB11: `Numeric * (MidNum | MidNumLetQ)` -/
  | numericMidNumLetQ
  deriving DecidableEq, Repr

namespace WordBreakProperty

/-- `AHLetter = (ALetter | Hebrew_Letter)`. -/
def isAHLetter (p : WordBreakProperty) : Bool := p = aLetter || p = hebrewLetter

/-- `MidLetter | MidNumLetQ`. -/
def isMidLetterQ (p : WordBreakProperty) : Bool :=
  p = midLetter || p = midNumLet || p = singleQuote

/-- `MidNum | MidNumLetQ`. -/
def isMidNumQ (p : WordBreakProperty) : Bool := p = midNum || p = midNumLet || p = singleQuote

def isNewline (p : WordBreakProperty) : Bool := p = newline || p = cr || p = lf

/-- `Extend | Format | ZWJ`. -/
def isIgnored (p : WordBreakProperty) : Bool := p = extend || p = format || p = zwj

/-- `AHLetter | Numeric | Katakana`. -/
def isWordPart (p : WordBreakProperty) : Bool := p.isAHLetter || p = numeric || p = katakana

end WordBreakProperty

/-- What is looked up: the ranges of `word_break_property.in`, where `none` is behind the last one, and
the sets of other properties. -/
structure WordProperties where
  table : Nat → Option WordBreakProperty
  midLetter : Nat → Bool
  midNumLet : Nat → Bool
  singleQuote : Nat → Bool
  extendedPictographic : Nat → Bool

namespace WordProperties

variable (t : WordProperties)

/-- An invalid code point is negative. -/
def getWordBreakProperty (codePoint : Int) : WordBreakProperty :=
  if codePoint < 0 then .newline
  else
    match t.table codePoint.toNat with
    | some .any =>
      if t.midLetter codePoint.toNat then .midLetter
      else if t.midNumLet codePoint.toNat then .midNumLet
      else if t.singleQuote codePoint.toNat then .singleQuote
      else .any
    | some p => p
    | none => .any

def isExtendedPictographic (codePoint : Int) : Bool :=
  0 ≤ codePoint && t.extendedPictographic codePoint.toNat

end WordProperties

/-- What holds of the tables: they have no property that is a state only, and a pictograph is a letter
or has none of the properties. -/
structure WordTables extends WordProperties where
  table_ne : ∀ c p, table c = some p →
    p ∉ [.sot, .eot, .wSegSpaceEFZ, .aHLetterMidNumLetQ, .hebrewLetterDQ, .numericMidNumLetQ]
  pictographic : ∀ c, toWordProperties.isExtendedPictographic c = true →
    toWordProperties.getWordBreakProperty c = .any ∨
      toWordProperties.getWordBreakProperty c = .aLetter

/-! ## The source -/

structure WordScanner where
  state : WordBreakProperty := .sot
  zwj : Bool := false
  deriving DecidableEq, Repr

/-- `lookahead`: the next property but `Extend`, `Format` and `ZWJ`, or the last one that was read. -/
def WordProperties.lookahead (t : WordProperties) :
    WordBreakProperty → List Int → WordBreakProperty
  | p, [] => p
  | _, c :: stream =>
    if (t.getWordBreakProperty c).isIgnored then lookahead t (t.getWordBreakProperty c) stream
    else t.getWordBreakProperty c

section
open WordBreakProperty

/-- `scanBoundary` before a code point, which `stream` is behind. -/
def WordScanner.scanBoundary (t : WordProperties) (s : WordScanner) (codePoint : Int)
    (stream : List Int) : Bool × WordScanner :=
  let after := t.getWordBreakProperty codePoint
  let before := s.state
  let s' : WordScanner := ⟨after, after = .zwj⟩
  if s.zwj && t.isExtendedPictographic codePoint then (false, s') -- WB3c
  else if before = sot then (false, s')
  else if before = cr then (after ≠ lf, s') -- WB3, WB3a
  else if before = newline || before = lf then (true, s') -- WB3a
  else if after.isNewline then (true, s') -- WB3b
  else if after.isIgnored then
    -- WB3d, WB4
    (false, { s' with state := if before = wSegSpace then wSegSpaceEFZ else before })
  else if before = wSegSpace && after = wSegSpace then (false, s') -- WB3d
  else if before.isAHLetter && after.isAHLetter then (false, s') -- WB5
  else if before = aHLetterMidNumLetQ && after.isAHLetter then (false, s') -- WB7
  else if before = hebrewLetter && after = singleQuote then (false, s') -- WB7a
  else if before = hebrewLetterDQ && after = hebrewLetter then (false, s') -- WB7c
  else if (before = numeric || before.isAHLetter) && after = numeric then (false, s') -- WB8, WB9
  else if before = numeric && after.isAHLetter then (false, s') -- WB10
  else if before = numericMidNumLetQ && after = numeric then (false, s') -- WB11
  else if before = katakana && after = katakana then (false, s') -- WB13
  else
    let requiredProperty :=
      if before = hebrewLetter && after = doubleQuote then hebrewLetterDQ
      else if before.isAHLetter && after.isMidLetterQ then aHLetterMidNumLetQ
      else if before = numeric && after.isMidNumQ then numericMidNumLetQ
      else sot
    let next := t.lookahead eot stream
    if (requiredProperty = numericMidNumLetQ && next = numeric) ||
        (requiredProperty = hebrewLetterDQ && next = hebrewLetter) ||
        (requiredProperty = aHLetterMidNumLetQ && next.isAHLetter) then
      (false, { s' with state := requiredProperty }) -- WB12, WB7b, WB6
    else if before.isWordPart && after = extendNumLet then (false, s') -- WB13a
    else if before = extendNumLet && (after = extendNumLet || after.isWordPart) then
      (false, s') -- WB13a, WB13b
    else if before = regionalIndicator && after = regionalIndicator then
      (false, { s' with state := any }) -- WB15, WB16
    else (true, s') -- WB999

/-- What is reported before each code point. -/
def WordScanner.run (t : WordProperties) : WordScanner → List Int → List Bool
  | _, [] => []
  | s, c :: text => (s.scanBoundary t c text).1 :: run t (s.scanBoundary t c text).2 text

end

/-! ## The rules -/

namespace WordProperties

variable (t : WordProperties) (rs : List Int) (c next : Int) (post : List Int)

/-- By WB4 the code point `c` belongs to the one before it, where `rs` is before. -/
def attached : Bool :=
  (t.getWordBreakProperty c).isIgnored &&
    rs.head?.any fun b => !(t.getWordBreakProperty b).isNewline

/-- The text without the code points that WB4 ignores. -/
def effective : List Int → List Int
  | [] => []
  | c :: rs => if t.attached rs c then effective rs else c :: effective rs

/-- The property of the last code point of a text. -/
def lastProperty : WordBreakProperty := (rs.head?.map t.getWordBreakProperty).getD .sot

def isRegionalIndicator : Bool := t.getWordBreakProperty c = .regionalIndicator

/-- An odd number of regional indicators is before. -/
def oddIndicatorsBefore : Bool := (rs.takeWhile t.isRegionalIndicator).length % 2 = 1

/-- WB3 to WB999 between the code point `c`, which `rs` is before, and the next one, which `post` is
behind: the first rule that applies says whether there is a boundary. -/
def boundaryRule : Bool :=
  let immediate := t.getWordBreakProperty c
  let after := t.getWordBreakProperty next
  let text := t.effective (c :: rs)
  let before := t.lastProperty text
  let before' := t.lastProperty text.tail
  let ahead := t.lookahead .eot post
  if immediate = .cr && after = .lf then false -- WB3
  else if immediate.isNewline then true -- WB3a
  else if after.isNewline then true -- WB3b
  else if immediate = .zwj && t.isExtendedPictographic next then false -- WB3c
  else if immediate = .wSegSpace && after = .wSegSpace then false -- WB3d
  else if after.isIgnored then false -- WB4
  else if before.isAHLetter && after.isAHLetter then false -- WB5
  else if before.isAHLetter && after.isMidLetterQ && ahead.isAHLetter then false -- WB6
  else if before'.isAHLetter && before.isMidLetterQ && after.isAHLetter then false -- WB7
  else if before = .hebrewLetter && after = .singleQuote then false -- WB7a
  else if before = .hebrewLetter && after = .doubleQuote && ahead = .hebrewLetter then false -- WB7b
  else if before' = .hebrewLetter && before = .doubleQuote && after = .hebrewLetter then
    false -- WB7c
  else if before = .numeric && after = .numeric then false -- WB8
  else if before.isAHLetter && after = .numeric then false -- WB9
  else if before = .numeric && after.isAHLetter then false -- WB10
  else if before' = .numeric && before.isMidNumQ && after = .numeric then false -- WB11
  else if before = .numeric && after.isMidNumQ && ahead = .numeric then false -- WB12
  else if before = .katakana && after = .katakana then false -- WB13
  else if (before.isWordPart || before = .extendNumLet) && after = .extendNumLet then false -- WB13a
  else if before = .extendNumLet && after.isWordPart then false -- WB13b
  else if t.oddIndicatorsBefore text && after = .regionalIndicator then false -- WB15, WB16
  else true -- WB999

/-- The boundaries between the neighbours of a text behind `c`, which `rs` is before. -/
def boundariesFrom : List Int → Int → List Int → List Bool
  | _, _, [] => []
  | rs, c, next :: text => t.boundaryRule rs c next text :: boundariesFrom (c :: rs) next text

/-- The boundaries between the neighbours of a text. -/
def boundaries : List Int → List Bool
  | [] => []
  | c :: text => t.boundariesFrom [] c text

/-- A letter behind a Hebrew letter and a single quote, where WB7 applies and WB3c does not. -/
def lostQuote : Bool :=
  (t.getWordBreakProperty next).isAHLetter &&
    t.lastProperty (t.effective rs) = .singleQuote &&
    t.lastProperty (t.effective rs).tail = .hebrewLetter &&
    !(t.lastProperty rs = .zwj && t.isExtendedPictographic next)

end WordProperties

/-! ## The state -/

namespace WordProperties

variable (t : WordProperties)

/-- The state behind a text, which `post` is behind. -/
def stateOf : List Int → List Int → WordBreakProperty
  | [], _ => .sot
  | c :: rs, post =>
    let text := t.effective (c :: rs)
    let before := t.lastProperty text
    let before' := t.lastProperty text.tail
    let ahead := t.lookahead .eot post
    if before = .wSegSpace then if t.attached rs c then .wSegSpaceEFZ else .wSegSpace
    else if before = .regionalIndicator then
      if t.oddIndicatorsBefore text then .regionalIndicator else .any
    else if before.isMidLetterQ && before'.isAHLetter &&
        !(before = .singleQuote && before' = .hebrewLetter) && ahead.isAHLetter then
      .aHLetterMidNumLetQ
    else if before = .doubleQuote && before' = .hebrewLetter && ahead = .hebrewLetter then
      .hebrewLetterDQ
    else if before.isMidNumQ && before' = .numeric && ahead = .numeric then .numericMidNumLetQ
    else before

variable {t : WordProperties} {rs post : List Int} {c next : Int} {p : WordBreakProperty}

theorem effective_of_attached (h : t.attached rs c = true) :
    t.effective (c :: rs) = t.effective rs := if_pos h

theorem effective_of_not_attached (h : t.attached rs c = false) :
    t.effective (c :: rs) = c :: t.effective rs :=
  if_neg (Bool.eq_false_iff.1 h)

@[simp] theorem lastProperty_cons : t.lastProperty (c :: rs) = t.getWordBreakProperty c := rfl

theorem oddIndicatorsBefore_cons : t.oddIndicatorsBefore (c :: rs) =
    (t.isRegionalIndicator c && !t.oddIndicatorsBefore rs) := by
  unfold oddIndicatorsBefore
  rw [List.takeWhile_cons]
  cases t.isRegionalIndicator c with
  | false => rfl
  | true =>
    rw [if_pos rfl, List.length_cons, Bool.true_and, ← decide_not]
    exact decide_eq_decide.2 (by omega)

theorem lastProperty_of_oddIndicatorsBefore (h : t.oddIndicatorsBefore rs = true) :
    t.lastProperty rs = .regionalIndicator := by
  cases rs with
  | nil => cases h
  | cons c rs =>
    rw [oddIndicatorsBefore_cons, Bool.and_eq_true] at h
    exact of_decide_eq_true h.1

/-- The properties that a rule looks ahead for are not ignored. -/
theorem lookahead_of_ignored (hp : p.isIgnored = true) :
    ((t.lookahead p post).isAHLetter = (t.lookahead .eot post).isAHLetter) ∧
      (t.lookahead p post = .hebrewLetter ↔ t.lookahead .eot post = .hebrewLetter) ∧
      (t.lookahead p post = .numeric ↔ t.lookahead .eot post = .numeric) := by
  cases post with
  | nil =>
    show (p.isAHLetter = WordBreakProperty.isAHLetter .eot) ∧
      (p = .hebrewLetter ↔ WordBreakProperty.eot = .hebrewLetter) ∧
      (p = .numeric ↔ WordBreakProperty.eot = .numeric)
    cases p <;> first | exact absurd hp (by decide) | exact ⟨rfl, by decide, by decide⟩
  | cons c post => exact ⟨rfl, Iff.rfl, Iff.rfl⟩

/-- What is ignored does not come behind a newline. -/
theorem not_isNewline_effective (hne : rs ≠ [])
    (h : (t.lastProperty rs).isNewline = false) :
    (t.lastProperty (t.effective rs)).isNewline = false := by
  induction rs with
  | nil => exact absurd rfl hne
  | cons c rs ih =>
    cases ha : t.attached rs c with
    | false => rwa [effective_of_not_attached ha]
    | true =>
      rw [effective_of_attached ha]
      unfold attached at ha
      rw [Bool.and_eq_true] at ha
      cases rs with
      | nil => cases ha.2
      | cons b rs => exact ih (List.cons_ne_nil _ _) (by simpa using ha.2)

end WordProperties

namespace WordTables

variable {t : WordTables} {rs post : List Int} {c next : Int}

/-- A property that is looked up is no state. -/
theorem getWordBreakProperty_ne (t : WordTables) (c : Int) : t.getWordBreakProperty c ∉
    [WordBreakProperty.sot, .eot, .wSegSpaceEFZ, .aHLetterMidNumLetQ, .hebrewLetterDQ,
      .numericMidNumLetQ] := by
  unfold WordProperties.getWordBreakProperty
  split
  · decide
  · split
    · split_ifs <;> decide
    · next p _ h => exact t.table_ne _ _ h
    · decide

theorem lastProperty_ne (t : WordTables) (rs : List Int) : t.lastProperty rs ∉
    [WordBreakProperty.eot, .wSegSpaceEFZ, .aHLetterMidNumLetQ, .hebrewLetterDQ,
      .numericMidNumLetQ] := by
  cases rs with
  | nil =>
    show WordBreakProperty.sot ∉ _
    decide
  | cons c rs => exact fun h => getWordBreakProperty_ne t c (List.mem_cons_of_mem _ h)

theorem effective_ne_nil : t.effective (c :: rs) ≠ [] := by
  induction rs generalizing c with
  | nil =>
    have h : t.attached [] c = false := Bool.and_false _
    rw [WordProperties.effective_of_not_attached h]
    exact List.cons_ne_nil _ _
  | cons b rs ih =>
    cases h : t.attached (b :: rs) c with
    | false =>
      rw [WordProperties.effective_of_not_attached h]
      exact List.cons_ne_nil _ _
    | true =>
      rw [WordProperties.effective_of_attached h]
      exact ih

/-! ## What the state tells -/

/-- What is known of the last code points of a text: the last one of all, and the last one that is not
ignored. -/
theorem last_cases (t : WordTables) (rs : List Int) (c : Int) :
    (t.attached rs c = false ∧
      t.lastProperty (t.effective (c :: rs)) = t.getWordBreakProperty c) ∨
    (t.attached rs c = true ∧ (t.getWordBreakProperty c).isIgnored = true ∧
      (t.lastProperty (t.effective (c :: rs))).isNewline = false) := by
  cases h : t.attached rs c with
  | false =>
    left
    rw [WordProperties.effective_of_not_attached h]
    exact ⟨rfl, rfl⟩
  | true =>
    right
    rw [WordProperties.effective_of_attached h]
    unfold WordProperties.attached at h
    rw [Bool.and_eq_true] at h
    refine ⟨rfl, h.1, ?_⟩
    cases rs with
    | nil => cases h.2
    | cons b rs =>
      exact WordProperties.not_isNewline_effective (List.cons_ne_nil _ _) (by simpa using h.2)

/-- The state in terms of the last code point, of the last two that are not ignored, of the regional
indicators and of what is ahead. -/
structure Tells (immediate before before' ahead : WordBreakProperty) (odd : Bool)
    (state : WordBreakProperty) : Prop where
  started : state ≠ .sot
  same : ∀ q ∈ [WordBreakProperty.cr, .lf, .newline, .wSegSpace], state = q ↔ immediate = q
  part : ∀ q ∈ [WordBreakProperty.aLetter, .hebrewLetter, .numeric, .katakana, .extendNumLet],
    state = q ↔ before = q
  indicator : state = .regionalIndicator ↔ odd = true
  letter : state = .aHLetterMidNumLetQ ↔ before.isMidLetterQ = true ∧ before'.isAHLetter = true ∧
    ¬(before = .singleQuote ∧ before' = .hebrewLetter) ∧ ahead.isAHLetter = true
  hebrew : state = .hebrewLetterDQ ↔
    before = .doubleQuote ∧ before' = .hebrewLetter ∧ ahead = .hebrewLetter
  number : state = .numericMidNumLetQ ↔
    before.isMidNumQ = true ∧ before' = .numeric ∧ ahead = .numeric

theorem tells_stateOf (t : WordTables) (rs : List Int) (c : Int) (post : List Int) :
    Tells (t.getWordBreakProperty c) (t.lastProperty (t.effective (c :: rs)))
      (t.lastProperty (t.effective (c :: rs)).tail) (t.lookahead .eot post)
      (t.oddIndicatorsBefore (t.effective (c :: rs))) (t.stateOf (c :: rs) post) := by
  have hodd := @WordProperties.lastProperty_of_oddIndicatorsBefore t.toWordProperties
    (t.effective (c :: rs))
  have hcases := last_cases t rs c
  have hne := lastProperty_ne t (t.effective (c :: rs))
  have hsot : t.lastProperty (t.effective (c :: rs)) ≠ .sot := by
    obtain ⟨x, e, he⟩ := List.exists_cons_of_ne_nil (@effective_ne_nil t rs c)
    rw [he]
    exact fun h => getWordBreakProperty_ne t x (h ▸ List.mem_cons_self)
  simp only [List.mem_cons, List.not_mem_nil, or_false, not_or] at hne
  unfold WordProperties.stateOf
  dsimp only
  generalize t.lastProperty (t.effective (c :: rs)) = p at *
  generalize t.lastProperty (t.effective (c :: rs)).tail = p' at *
  generalize t.oddIndicatorsBefore (t.effective (c :: rs)) = odd at *
  generalize t.getWordBreakProperty c = immediate at *
  generalize t.lookahead .eot post = ahead at *
  unfold WordBreakProperty.isIgnored WordBreakProperty.isNewline at hcases
  simp only [Bool.or_eq_true, decide_eq_true_eq, Bool.or_eq_false_iff, decide_eq_false_iff_not]
    at hcases
  constructor
  · grind
  · simp only [List.forall_mem_cons, List.not_mem_nil, false_implies, implies_true, and_true]
    cases p <;> grind [WordBreakProperty.isMidLetterQ, WordBreakProperty.isMidNumQ]
  · simp only [List.forall_mem_cons, List.not_mem_nil, false_implies, implies_true, and_true]
    cases p <;> grind [WordBreakProperty.isMidLetterQ, WordBreakProperty.isMidNumQ]
  · cases p <;> grind [WordBreakProperty.isMidLetterQ, WordBreakProperty.isMidNumQ]
  · cases p <;> grind [WordBreakProperty.isMidLetterQ, WordBreakProperty.isMidNumQ]
  · cases p <;> grind [WordBreakProperty.isMidLetterQ, WordBreakProperty.isMidNumQ]
  · cases p <;> grind [WordBreakProperty.isMidLetterQ, WordBreakProperty.isMidNumQ,
      WordBreakProperty.isAHLetter]

/-! ## Steps -/

theorem lookahead_cons (h : (t.getWordBreakProperty next).isIgnored = false) :
    t.lookahead .eot (next :: post) = t.getWordBreakProperty next := by
  rw [WordProperties.lookahead, h]
  rfl

/-- A boundary is reported where the rules have one, and between a Hebrew letter's single quote and
another letter. -/
theorem scanBoundary_fst {s : WordScanner} (hstate : s.state = t.stateOf (c :: rs) (next :: post))
    (hzwj : s.zwj = decide (t.getWordBreakProperty c = .zwj)) :
    (s.scanBoundary t.toWordProperties next post).1 =
      (t.boundaryRule rs c next post || t.lostQuote (c :: rs) next) := by
  have htells := tells_stateOf t rs c (next :: post)
  have hlook := @lookahead_cons t post next
  have hpict := t.pictographic next
  have hcases := last_cases t rs c
  unfold WordScanner.scanBoundary WordProperties.boundaryRule WordProperties.lostQuote
  dsimp only
  rw [hstate, hzwj, WordProperties.lastProperty_cons]
  generalize t.stateOf (c :: rs) (next :: post) = B at *
  generalize t.lastProperty (t.effective (c :: rs)) = p at *
  generalize t.lastProperty (t.effective (c :: rs)).tail = p' at *
  generalize t.oddIndicatorsBefore (t.effective (c :: rs)) = odd at *
  generalize t.getWordBreakProperty c = immediate at *
  generalize t.getWordBreakProperty next = a at *
  generalize t.lookahead .eot post = ahead at *
  generalize t.lookahead .eot (next :: post) = ahead' at *
  obtain ⟨hstarted, hsame, hpart, hri, hletter, hhebrew, hnumber⟩ := htells
  simp only [List.forall_mem_cons, List.not_mem_nil, false_implies, implies_true, and_true]
    at hsame hpart
  obtain ⟨hcr, hlf, hnl, hspace⟩ := hsame
  obtain ⟨hal, hhl, hnum, hkata, henl⟩ := hpart
  cases B <;> grind [WordBreakProperty.isMidLetterQ, WordBreakProperty.isMidNumQ,
    WordBreakProperty.isAHLetter, WordBreakProperty.isNewline, WordBreakProperty.isIgnored,
    WordBreakProperty.isWordPart]

/-- What is ignored leaves the state, but for WB3d. -/
theorem stateOf_attached (h : t.attached (c :: rs) next = true) : t.stateOf (next :: c :: rs) post =
    if t.stateOf (c :: rs) (next :: post) = .wSegSpace then .wSegSpaceEFZ
    else t.stateOf (c :: rs) (next :: post) := by
  have hignored : (t.getWordBreakProperty next).isIgnored = true := by
    unfold WordProperties.attached at h
    rw [Bool.and_eq_true] at h
    exact h.1
  have hlook : t.lookahead .eot (next :: post) =
      t.lookahead (t.getWordBreakProperty next) post := by
    rw [WordProperties.lookahead, if_pos hignored]
  obtain ⟨hletter, hhebrew, hnumeric⟩ :=
    @WordProperties.lookahead_of_ignored t.toWordProperties post _ hignored
  have hne := lastProperty_ne t (t.effective (c :: rs))
  simp only [List.mem_cons, List.not_mem_nil, or_false, not_or] at hne
  unfold WordProperties.stateOf
  dsimp only
  simp only [WordProperties.effective_of_attached h, hlook, hletter, hhebrew, hnumeric, h, if_true]
  generalize t.lastProperty (t.effective (c :: rs)) = p at *
  split_ifs <;> first | rfl | simp_all

theorem stateOf_not_attached (h : t.attached (c :: rs) next = false) :
    t.stateOf (next :: c :: rs) post =
      if t.getWordBreakProperty next = .wSegSpace then .wSegSpace
      else if t.getWordBreakProperty next = .regionalIndicator then
        if t.oddIndicatorsBefore (t.effective (c :: rs)) then .any else .regionalIndicator
      else if (t.getWordBreakProperty next).isMidLetterQ &&
          (t.lastProperty (t.effective (c :: rs))).isAHLetter &&
          !(t.getWordBreakProperty next = .singleQuote &&
            t.lastProperty (t.effective (c :: rs)) = .hebrewLetter) &&
          (t.lookahead .eot post).isAHLetter then .aHLetterMidNumLetQ
      else if t.getWordBreakProperty next = .doubleQuote &&
          t.lastProperty (t.effective (c :: rs)) = .hebrewLetter &&
          t.lookahead .eot post = .hebrewLetter then .hebrewLetterDQ
      else if (t.getWordBreakProperty next).isMidNumQ &&
          t.lastProperty (t.effective (c :: rs)) = .numeric &&
          t.lookahead .eot post = .numeric then .numericMidNumLetQ
      else t.getWordBreakProperty next := by
  unfold WordProperties.stateOf
  simp only [WordProperties.effective_of_not_attached h, List.tail_cons,
    WordProperties.lastProperty_cons, h, Bool.false_eq_true, if_false,
    WordProperties.oddIndicatorsBefore_cons]
  unfold WordProperties.isRegionalIndicator
  by_cases hri : t.getWordBreakProperty next = .regionalIndicator
  · cases t.oddIndicatorsBefore (t.effective (c :: rs)) <;> simp [hri]
  · simp only [hri, if_false]

theorem scanBoundary_snd {s : WordScanner} (hstate : s.state = t.stateOf (c :: rs) (next :: post))
    (hzwj : s.zwj = decide (t.getWordBreakProperty c = .zwj)) :
    (s.scanBoundary t.toWordProperties next post).2.state = t.stateOf (next :: c :: rs) post ∧
      (s.scanBoundary t.toWordProperties next post).2.zwj =
        decide (t.getWordBreakProperty next = .zwj) := by
  have htells := tells_stateOf t rs c (next :: post)
  have hpict := t.pictographic next
  obtain ⟨hstarted, hsame, hpart, hri, hletter, hhebrew, hnumber⟩ := htells
  simp only [List.forall_mem_cons, List.not_mem_nil, false_implies, implies_true, and_true]
    at hsame hpart
  obtain ⟨hcr, hlf, hnl, hspace⟩ := hsame
  obtain ⟨hal, hhl, hnum, hkata, henl⟩ := hpart
  have hattached : t.attached (c :: rs) next =
      ((t.getWordBreakProperty next).isIgnored && !(t.getWordBreakProperty c).isNewline) := rfl
  cases ha : t.attached (c :: rs) next with
  | true =>
    rw [stateOf_attached ha]
    rw [ha, eq_comm, Bool.and_eq_true, Bool.not_eq_true'] at hattached
    obtain ⟨hignored, himmediate⟩ := hattached
    have hnewline : t.stateOf (c :: rs) (next :: post) ≠ .cr ∧
        t.stateOf (c :: rs) (next :: post) ≠ .newline ∧
        t.stateOf (c :: rs) (next :: post) ≠ .lf := by
      rw [Ne, Ne, Ne, hcr, hnl, hlf]
      generalize t.getWordBreakProperty c = immediate at *
      cases immediate <;> first | exact absurd himmediate (by decide) | decide
    have hafter : (t.getWordBreakProperty next).isNewline = false := by
      generalize t.getWordBreakProperty next = a at *
      cases a <;> first | exact absurd hignored (by decide) | rfl
    have hno : t.isExtendedPictographic next = false := by
      apply Bool.eq_false_iff.2
      intro h
      rcases hpict h with hp | hp <;> rw [hp] at hignored <;> cases hignored
    unfold WordScanner.scanBoundary
    simp [hstate, hno, hstarted, hnewline, hafter, hignored]
  | false =>
    have hlook := @lookahead_cons t post next
    have hcases := last_cases t rs c
    have hnext := getWordBreakProperty_ne t next
    simp only [List.mem_cons, List.not_mem_nil, or_false, not_or] at hnext
    rw [ha] at hattached
    unfold WordScanner.scanBoundary
    dsimp only
    rw [hstate, hzwj]
    generalize t.stateOf (c :: rs) (next :: post) = B at *
    rw [stateOf_not_attached ha]
    generalize t.lastProperty (t.effective (c :: rs)) = p at *
    generalize t.lastProperty (t.effective (c :: rs)).tail = p' at *
    generalize t.oddIndicatorsBefore (t.effective (c :: rs)) = odd at *
    generalize t.getWordBreakProperty c = immediate at *
    generalize t.getWordBreakProperty next = a at *
    generalize t.lookahead .eot post = ahead at *
    generalize t.lookahead .eot (next :: post) = ahead' at *
    cases a <;> grind [WordBreakProperty.isMidLetterQ, WordBreakProperty.isMidNumQ,
      WordBreakProperty.isAHLetter, WordBreakProperty.isNewline, WordBreakProperty.isIgnored,
      WordBreakProperty.isWordPart]

theorem stateOf_first (t : WordTables) (c : Int) (post : List Int) :
    t.stateOf [c] post = t.getWordBreakProperty c := by
  have hattached : t.attached [] c = false := Bool.and_false _
  have hlast : t.lastProperty [] = .sot := rfl
  have hodd : t.oddIndicatorsBefore [] = false := rfl
  have hletter : WordBreakProperty.sot.isAHLetter = false := rfl
  have heffective : t.effective [c] = [c] := WordProperties.effective_of_not_attached hattached
  unfold WordProperties.stateOf
  dsimp only
  rw [heffective, WordProperties.oddIndicatorsBefore_cons, hodd, List.tail_cons, hlast, hletter]
  unfold WordProperties.isRegionalIndicator
  rw [WordProperties.lastProperty_cons, hattached]
  by_cases hspace : t.getWordBreakProperty c = .wSegSpace
  · rw [hspace]
    rfl
  · by_cases hri : t.getWordBreakProperty c = .regionalIndicator
    · rw [hri]
      rfl
    · simp [hspace, hri]

/-! ## Runs -/

/-- By WB7 there is no boundary where a quote is lost. -/
theorem boundaryRule_of_lostQuote (h : t.lostQuote (c :: rs) next = true) :
    t.boundaryRule rs c next post = false := by
  have hcases := last_cases t rs c
  unfold WordProperties.lostQuote at h
  simp only [Bool.and_eq_true, decide_eq_true_eq] at h
  obtain ⟨⟨⟨hafter, hquote⟩, hhebrew⟩, -⟩ := h
  unfold WordProperties.boundaryRule
  dsimp only
  rw [hquote] at hcases ⊢
  rw [hhebrew]
  generalize t.getWordBreakProperty c = immediate at *
  generalize t.getWordBreakProperty next = a at *
  grind [WordBreakProperty.isMidLetterQ, WordBreakProperty.isAHLetter,
    WordBreakProperty.isNewline, WordBreakProperty.isIgnored]

theorem run_eq_iff {s : WordScanner} {text : List Int} (hstate : s.state = t.stateOf (c :: rs) text)
    (hzwj : s.zwj = decide (t.getWordBreakProperty c = .zwj)) :
    s.run t.toWordProperties text = t.boundariesFrom rs c text ↔
      ∀ pre next post, text = pre ++ next :: post →
        t.lostQuote (pre.reverse ++ c :: rs) next = false := by
  induction text generalizing s c rs with
  | nil => exact ⟨fun _ pre next post h => (by simp at h), fun _ => rfl⟩
  | cons next text ih =>
    obtain ⟨hstate', hzwj'⟩ := scanBoundary_snd hstate hzwj
    have hfirst : (t.boundaryRule rs c next text || t.lostQuote (c :: rs) next) =
        t.boundaryRule rs c next text ↔ t.lostQuote (c :: rs) next = false := by
      cases hl : t.lostQuote (c :: rs) next with
      | false => simp
      | true => simp [boundaryRule_of_lostQuote hl]
    rw [WordScanner.run, WordProperties.boundariesFrom, List.cons.injEq,
      scanBoundary_fst hstate hzwj, hfirst, ih hstate' hzwj']
    constructor
    · rintro ⟨hlost, htext⟩ pre x post h
      cases pre with
      | nil =>
        cases h
        exact hlost
      | cons y pre =>
        cases h
        have := htext pre x post rfl
        rwa [List.reverse_cons, List.append_assoc]
    · intro h
      refine ⟨h [] next text rfl, fun pre x post htext => ?_⟩
      have := h (next :: pre) x post (by rw [htext]; rfl)
      rwa [List.reverse_cons, List.append_assoc] at this

/-- The boundaries reported for a text are those of the rules exactly if nowhere a single quote between
a Hebrew letter and another letter is lost. -/
theorem wordBoundaries_iff (t : WordTables) (text : List Int) :
    (WordScanner.run t.toWordProperties {} text).tail = t.boundaries text ↔
      ∀ pre next post, text = pre ++ next :: post → t.lostQuote pre.reverse next = false := by
  cases text with
  | nil => exact ⟨fun _ pre next post h => (by simp at h), fun _ => rfl⟩
  | cons c text =>
    have hstate : (WordScanner.scanBoundary t.toWordProperties {} c text).2.state =
        t.stateOf [c] text := (stateOf_first t c text).symm
    rw [WordScanner.run, List.tail_cons, WordProperties.boundaries, run_eq_iff hstate rfl]
    constructor
    · intro h pre next post htext
      cases pre with
      | nil =>
        have hquote : t.lastProperty (t.effective []) ≠ .singleQuote := by
          show WordBreakProperty.sot ≠ _
          decide
        unfold WordProperties.lostQuote
        rw [List.reverse_nil, decide_eq_false hquote, Bool.and_false]
        rfl
      | cons y pre =>
        cases htext
        rw [List.reverse_cons]
        exact h pre next post rfl
    · intro h pre next post htext
      have := h (c :: pre) next post (by rw [htext]; rfl)
      rwa [List.reverse_cons] at this

/-- The properties of U+05D0 and of the single quote. -/
def alefQuote : WordTables where
  table c := some (if c = 0x5D0 then .hebrewLetter else .any)
  midLetter _ := false
  midNumLet _ := false
  singleQuote c := c = 0x27
  extendedPictographic _ := false
  table_ne c p h := by
    split at h <;> cases h <;> decide
  pictographic c h := by
    unfold WordProperties.isExtendedPictographic at h
    rw [Bool.and_false] at h
    cases h

/-- Between two Hebrew letters a single quote ends a word. -/
theorem run_alefQuote :
    (WordScanner.run alefQuote.toWordProperties {} [0x5D0, 0x27, 0x5D0]).tail ≠
      alefQuote.boundaries [0x5D0, 0x27, 0x5D0] := by decide

end WordTables

end Arsh.Unicode
