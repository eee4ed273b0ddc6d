import Arsh.Lib.Segments
import Arsh.Misc.Unicode
import Arsh.Unicode.Grapheme
import Arsh.Unicode.Word

/-!
# Grapheme clusters and words of a text

`Utf8GraphemeScanner`, `Utf8WordScanner` and the iterations over a text of bytes, and the iterator
object of strings, which keeps the state of its scanner in three integers.
-/

namespace Arsh.Unicode

open Segments UnicodeUtil

/-! ## Streams -/

/-- `Utf8Stream::nextCodePoint`: the code point, `-1` for an invalid byte, and the bytes it has. -/
def nextCodePoint (allowSurrogate : Bool) (iter : List Nat) : Int × Nat :=
  let size := if allowSurrogate then wtf8ValidateChar iter else utf8ValidateChar iter
  if size < 1 then (-1, if iter = [] then 0 else 1) else (decodeFirst iter, size)

/-- The code points that are read up to the end. -/
def codePoints (allowSurrogate : Bool) : Nat → List Nat → List Int
  | 0, _ => []
  | fuel + 1, iter =>
    if iter = [] then []
    else (nextCodePoint allowSurrogate iter).1 ::
      codePoints allowSurrogate fuel (iter.drop (nextCodePoint allowSurrogate iter).2)

theorem nextCodePoint_cases (allowSurrogate : Bool) (iter : List Nat) :
    (∃ c t, c ≤ codePointMax ∧ iter = codePointToUtf8 c ++ t ∧
      nextCodePoint allowSurrogate iter = ((c : Int), (codePointToUtf8 c).length)) ∨
    nextCodePoint allowSurrogate iter = (-1, if iter = [] then 0 else 1) := by
  unfold nextCodePoint
  dsimp only
  generalize hsize :
    (if allowSurrogate then wtf8ValidateChar iter else utf8ValidateChar iter) = size
  by_cases hlt : size < 1
  · exact .inr (if_pos hlt)
  · left
    rw [if_neg hlt]
    have hv : size = wtf8ValidateChar iter := by
      unfold utf8ValidateChar at hsize
      split_ifs at hsize with ha hs <;> omega
    obtain ⟨c, t, hc, rfl⟩ := @exists_of_wtf8ValidateChar iter (by omega)
    refine ⟨c, t, hc, rfl, ?_⟩
    rw [hv, wtf8ValidateChar_append hc, decodeFirst_append hc]

theorem nextCodePoint_pos {allowSurrogate : Bool} {iter : List Nat} (h : iter ≠ []) :
    0 < (nextCodePoint allowSurrogate iter).2 := by
  rcases nextCodePoint_cases allowSurrogate iter with ⟨c, t, hc, -, he⟩ | he
  · rw [he]
    exact codePointToUtf8_length_pos hc
  · rw [he, if_neg h]
    exact Nat.one_pos

theorem nextCodePoint_le {allowSurrogate : Bool} {iter : List Nat} :
    (nextCodePoint allowSurrogate iter).2 ≤ iter.length := by
  rcases nextCodePoint_cases allowSurrogate iter with ⟨c, t, hc, hiter, he⟩ | he
  · rw [he, hiter, List.length_append]
    exact Nat.le_add_right _ _
  · rw [he]
    cases iter with
    | nil => exact Nat.le_refl _
    | cons b iter => exact Nat.le_add_left 1 _

theorem nextCodePoint_bounds {allowSurrogate : Bool} {iter : List Nat} :
    -1 ≤ (nextCodePoint allowSurrogate iter).1 ∧
      (nextCodePoint allowSurrogate iter).1 ≤ codePointMax := by
  rcases nextCodePoint_cases allowSurrogate iter with ⟨c, t, hc, -, he⟩ | he
  · rw [he]
    exact ⟨by omega, by omega⟩
  · rw [he]
    exact ⟨Int.le_refl _, Int.le_trans (by decide : (-1 : Int) ≤ 0) (Int.natCast_nonneg _)⟩

/-! ## Grapheme clusters -/

/-- `GraphemeScanner::scanBoundary` reads a code point. -/
def graphemeScanner (p : Properties) (allowSurrogate : Bool) :
    Segments.Scanner Nat GraphemeBoundary where
  step b iter :=
    let (codePoint, size) := nextCodePoint allowSurrogate iter
    ((b.checkBoundary p codePoint).1, (b.checkBoundary p codePoint).2, size)
  pos _ _ h := nextCodePoint_pos h
  le _ _ := nextCodePoint_le

theorem graphemeScanner_step {p : Properties} {allowSurrogate : Bool} {b : GraphemeBoundary}
    {iter : List Nat} : (graphemeScanner p allowSurrogate).step b iter =
      ((b.checkBoundary p (nextCodePoint allowSurrogate iter).1).1,
        (b.checkBoundary p (nextCodePoint allowSurrogate iter).1).2,
        (nextCodePoint allowSurrogate iter).2) := rfl

/-- `Utf8GraphemeScanner`: `start` is `charBegin`. -/
abbrev Utf8GraphemeScanner := Cursor GraphemeBoundary

structure GraphemeCluster where
  ref : List Nat
  invalid : Bool
  emojiSeq : Bool
  deriving DecidableEq, Repr

section
variable (p : Properties) (allowSurrogate : Bool) (ref : List Nat)

/-- The loop of `Utf8GraphemeScanner::next`: the end, the flags and the scanner. -/
def nextLoop : Nat → Utf8GraphemeScanner → Bool → Bool →
    Option (Nat × Bool × Bool × Utf8GraphemeScanner)
  | 0, _, _, _ => none
  | fuel + 1, s, invalid, emojiSeq =>
    let emojiSeq := emojiSeq || s.state.emojiSeq
    let (found, s') := (graphemeScanner p allowSurrogate).scan ref s
    if found then some (s.iter, invalid, emojiSeq, s')
    else nextLoop fuel s' (invalid || s'.state.codePoint < 0) emojiSeq

def Utf8GraphemeScanner.next (s : Utf8GraphemeScanner) :
    Option (GraphemeCluster × Utf8GraphemeScanner) :=
  let invalid := s.state.state ≠ .sot && s.start ≠ ref.length && s.state.codePoint < 0
  (nextLoop p allowSurrogate ref (ref.length - s.iter + 1) s invalid false).map
    fun (stop, invalid, emojiSeq, s') =>
      (⟨(ref.drop s.start).take (stop - s.start), invalid, emojiSeq⟩, { s' with start := stop })

/-- The loop of `iterateGraphemeUntil`, with a consumer that wants all clusters. -/
def clustersFrom : Nat → Utf8GraphemeScanner → Option (List GraphemeCluster)
  | 0, _ => some []
  | limit + 1, s =>
    if s.start = ref.length then some []
    else (Utf8GraphemeScanner.next p allowSurrogate ref s).bind fun r =>
      (clustersFrom limit r.2).map (r.1 :: ·)

def iterateGraphemeUntil (limit : Nat) : Option (List GraphemeCluster) :=
  clustersFrom p allowSurrogate ref limit ⟨0, 0, {}⟩

end

section
variable {p : Properties} {allowSurrogate : Bool} {ref : List Nat}

theorem nextLoop_map {fuel : Nat} {s : Utf8GraphemeScanner} {invalid emojiSeq : Bool} :
    (nextLoop p allowSurrogate ref fuel s invalid emojiSeq).map (fun r => (r.1, r.2.2.2)) =
      (graphemeScanner p allowSurrogate).loop ref fuel s := by
  induction fuel generalizing s invalid emojiSeq with
  | zero => rfl
  | succ fuel ih =>
    unfold nextLoop Segments.Scanner.loop
    dsimp only
    split
    · rfl
    · exact ih

/-- The flags aside, a cluster is a segment. -/
theorem Utf8GraphemeScanner.next_map {s : Utf8GraphemeScanner} :
    (Utf8GraphemeScanner.next p allowSurrogate ref s).map (fun r => (r.1.ref, r.2)) =
      (graphemeScanner p allowSurrogate).next ref s := by
  unfold Utf8GraphemeScanner.next Segments.Scanner.next
  rw [← nextLoop_map, Option.map_map, Option.map_map]
  rfl

theorem clustersFrom_map {limit : Nat} {s : Utf8GraphemeScanner} :
    (clustersFrom p allowSurrogate ref limit s).map (·.map (·.ref)) =
      (graphemeScanner p allowSurrogate).upTo ref limit s := by
  induction limit generalizing s with
  | zero => rfl
  | succ limit ih =>
    unfold clustersFrom Segments.Scanner.upTo
    split
    · rfl
    · rw [← Utf8GraphemeScanner.next_map]
      cases Utf8GraphemeScanner.next p allowSurrogate ref s with
      | none => rfl
      | some r =>
        show ((clustersFrom p allowSurrogate ref limit r.2).map _).map _ = Option.map _ _
        rw [← ih, Option.map_map, Option.map_map]
        rfl

/-- The first code point does not end a cluster. -/
theorem graphemeScanner_ok : (graphemeScanner p allowSurrogate).Ok ref ⟨0, 0, {}⟩ where
  le := Nat.le_refl _
  len := Nat.zero_le _
  ahead _ _ := rfl

theorem iterateGraphemeUntil_map {limit : Nat} :
    (iterateGraphemeUntil p allowSurrogate ref limit).map (·.map (·.ref)) =
      (graphemeScanner p allowSurrogate).upTo ref limit ⟨0, 0, {}⟩ := clustersFrom_map

end

/-! ## Words -/

/-- `WordScanner::scanBoundary` reads a code point, and looks at those behind it. -/
def wordScanner (t : WordProperties) : Segments.Scanner Nat WordScanner where
  step s iter :=
    let (codePoint, size) := nextCodePoint false iter
    let r := s.scanBoundary t codePoint (codePoints false iter.length (iter.drop size))
    (r.1, r.2, size)
  pos _ _ h := nextCodePoint_pos h
  le _ _ := nextCodePoint_le

/-- `iterateWordUntil`, with a consumer that wants all words. -/
def iterateWordUntil (t : WordProperties) (ref : List Nat) (limit : Nat) :
    Option (List (List Nat)) :=
  (wordScanner t).upTo ref limit ⟨0, 0, {}⟩

/-- The first code point does not end a word. -/
theorem wordScanner_ok {t : WordProperties} {ref : List Nat} :
    (wordScanner t).Ok ref ⟨0, 0, {}⟩ where
  le := Nat.le_refl _
  len := Nat.zero_le _
  ahead _ _ := rfl

/-! ## The iterator object -/

namespace CodePointWithMeta

/-- The code point in 24 bits, below 8 bits for the property. -/
def getValue (codePoint : Int) (propertyCode : Nat) : Nat :=
  propertyCode * 0x1000000 + if codePoint < 0 then 0xFFFFFF else codePoint.toNat % 0x1000000

def codePoint (value : Nat) : Int :=
  if value % 0x1000000 = 0xFFFFFF then -1 else (value % 0x1000000 : Nat)

def getMeta (value : Nat) : Nat := value / 0x1000000 % 256

theorem codePoint_getValue {c : Int} {m : Nat} (hlow : -1 ≤ c) (hhigh : c ≤ codePointMax) :
    codePoint (getValue c m) = c := by
  unfold codePointMax at hhigh
  unfold codePoint getValue
  split_ifs with h₁ h₂ h₂ <;> omega

theorem getMeta_getValue {c : Int} {m : Nat} (h : m < 256) : getMeta (getValue c m) = m := by
  unfold getMeta getValue
  split_ifs <;> omega

end CodePointWithMeta

namespace BreakProperty

/-- The properties in the order of their values. -/
def values : List BreakProperty :=
  [sot, any, cr, lf, control, extend, zwj, regionalIndicator, prepend, spacingMark, l, v, t, lv, lvt,
    extendedPictographic, extendedPictographicWithZWJ, inCBConsonant, inCBExtend, inCBLinker]

def toUnderlying (p : BreakProperty) : Nat := values.idxOf p

def ofUnderlying (value : Nat) : BreakProperty := values.getD value sot

theorem toUnderlying_lt (p : BreakProperty) : p.toUnderlying < 256 := by
  cases p <;> decide

theorem ofUnderlying_toUnderlying (p : BreakProperty) : ofUnderlying p.toUnderlying = p := by
  cases p <;> rfl

end BreakProperty

structure StringIterObject where
  str : List Nat
  prevPos : Nat
  curPos : Nat
  boundary : Nat

namespace StringIterObject

/-- The saved state of a scanner. -/
def save (str : List Nat) (s : Utf8GraphemeScanner) : StringIterObject :=
  ⟨str, s.start, s.iter,
    CodePointWithMeta.getValue s.state.codePoint s.state.state.toUnderlying⟩

def restore (o : StringIterObject) : Utf8GraphemeScanner :=
  ⟨o.prevPos, o.curPos, ⟨CodePointWithMeta.codePoint o.boundary,
    .ofUnderlying (CodePointWithMeta.getMeta o.boundary), false⟩⟩

def create (str : List Nat) : StringIterObject := save str ⟨0, 0, {}⟩

/-- The inner `none` is the invalid value at the end. -/
def next (p : Properties) (o : StringIterObject) : Option (Option (List Nat) × StringIterObject) :=
  if o.restore.start = o.str.length then some (none, o)
  else (Utf8GraphemeScanner.next p false o.str o.restore).map fun r =>
    (some r.1.ref, save o.str r.2)

/-- What at most `limit` calls of `next` give before the invalid value. -/
def take (p : Properties) : Nat → StringIterObject → Option (List (List Nat))
  | 0, _ => some []
  | limit + 1, o =>
    (o.next p).bind fun r =>
      match r.1 with
      | none => some []
      | some v => (take p limit r.2).map (v :: ·)

theorem checkBoundary_codePoint {p : Properties} {b : GraphemeBoundary} {c : Int} :
    (b.checkBoundary p c).2.codePoint = c := by
  unfold GraphemeBoundary.checkBoundary
  dsimp only
  generalize b.state = before
  generalize p.getBreakProperty c = after
  cases before <;> grind

/-- The same scanner but for its flag, with a code point that 24 bits hold. -/
structure SameState (s t : GraphemeBoundary) : Prop where
  codePoint : s.codePoint = t.codePoint
  state : s.state = t.state
  low : -1 ≤ t.codePoint
  high : t.codePoint ≤ codePointMax

/-- The flag has no part in the decision. -/
theorem graphemeScanner_same {p : Properties} {allowSurrogate : Bool} :
    Segments.Scanner.Same (graphemeScanner p allowSurrogate) (graphemeScanner p allowSurrogate)
      SameState := by
  intro s t h iter
  obtain ⟨hlow, hhigh⟩ := @nextCodePoint_bounds allowSurrogate iter
  have hcheck : s.checkBoundary p (nextCodePoint allowSurrogate iter).1 =
      t.checkBoundary p (nextCodePoint allowSurrogate iter).1 := by
    unfold GraphemeBoundary.checkBoundary
    rw [h.codePoint, h.state]
  rw [graphemeScanner_step, graphemeScanner_step, hcheck]
  refine ⟨rfl, ⟨rfl, rfl, ?_, ?_⟩, rfl⟩ <;> rwa [checkBoundary_codePoint]

theorem restore_save (str : List Nat) {c : Utf8GraphemeScanner}
    (hlow : -1 ≤ c.state.codePoint) (hhigh : c.state.codePoint ≤ codePointMax) :
    (save str c).restore = ⟨c.start, c.iter, ⟨c.state.codePoint, c.state.state, false⟩⟩ := by
  unfold restore save
  dsimp only
  rw [CodePointWithMeta.codePoint_getValue hlow hhigh,
    CodePointWithMeta.getMeta_getValue (BreakProperty.toUnderlying_lt _),
    BreakProperty.ofUnderlying_toUnderlying]

/-- What a restored scanner has lost is its flag. -/
theorem restore_rel {str : List Nat} {c d : Utf8GraphemeScanner}
    (h : Segments.Scanner.Cursor.Rel SameState c d) :
    Segments.Scanner.Cursor.Rel SameState (save str c).restore d := by
  obtain ⟨hstart, hiter, hcode, hstate, hlow, hhigh⟩ := h
  rw [restore_save str (by rwa [hcode]) (by rwa [hcode])]
  exact ⟨hstart, hiter, hcode, hstate, hlow, hhigh⟩

/-- The calls of `next` give the segments of one scan. -/
theorem take_save {p : Properties} {str : List Nat} {limit : Nat} {c d : Utf8GraphemeScanner}
    (h : Segments.Scanner.Cursor.Rel SameState c d) :
    (save str c).take p limit = (graphemeScanner p false).upTo str limit d := by
  induction limit generalizing c d with
  | zero => rfl
  | succ limit ih =>
    have hr := @restore_rel str _ _ h
    unfold take Segments.Scanner.upTo StringIterObject.next
    rw [show (save str c).str = str from rfl, hr.start]
    by_cases hend : d.start = str.length
    · rw [if_pos hend, if_pos hend]
      rfl
    · rw [if_neg hend, if_neg hend]
      have hnext := Segments.Scanner.next_rel (w := str) (@graphemeScanner_same p false) hr
      rw [← Utf8GraphemeScanner.next_map] at hnext
      revert hnext
      generalize Utf8GraphemeScanner.next p false str (save str c).restore = x
      generalize (graphemeScanner p false).next str d = y
      intro hnext
      cases x with
      | none =>
        cases hnext
        rfl
      | some r =>
        cases hnext with
        | some hrel =>
          obtain ⟨hseg, hcursor⟩ := hrel
          show (take p limit (save str r.2)).map _ = Option.map _ _
          rw [ih hcursor, ← hseg]

end StringIterObject

/-- The clusters of a text, and its words, are not empty and make up the text, and there is an end of
them; an iterator object gives the clusters of one scan. -/
theorem segments_of_text (p : Properties) (t : WordProperties) (ref : List Nat) :
    (∀ allowSurrogate, ∃ clusters : List (List Nat),
      (∀ limit, ref.length ≤ limit →
        (iterateGraphemeUntil p allowSurrogate ref limit).map (·.map (·.ref)) = some clusters) ∧
      (∀ cluster ∈ clusters, cluster ≠ []) ∧ clusters.flatten = ref) ∧
    (∃ words : List (List Nat),
      (∀ limit, ref.length ≤ limit → iterateWordUntil t ref limit = some words) ∧
      (∀ word ∈ words, word ≠ []) ∧ words.flatten = ref) ∧
    ∀ limit, (StringIterObject.create ref).take p limit =
      (iterateGraphemeUntil p false ref limit).map (·.map (·.ref)) := by
  refine ⟨fun allowSurrogate => ?_, ?_, fun limit => ?_⟩
  · obtain ⟨clusters, hall, hne, hflat⟩ :=
      Segments.Scanner.upTo_spec (@graphemeScanner_ok p allowSurrogate ref)
    exact ⟨clusters, fun limit h => iterateGraphemeUntil_map.trans (hall limit h), hne, hflat⟩
  · obtain ⟨words, hall, hne, hflat⟩ := Segments.Scanner.upTo_spec (@wordScanner_ok t ref)
    exact ⟨words, hall, hne, hflat⟩
  · rw [iterateGraphemeUntil_map]
    exact StringIterObject.take_save ⟨rfl, rfl, rfl, rfl, by decide, by decide⟩

end Arsh.Unicode
