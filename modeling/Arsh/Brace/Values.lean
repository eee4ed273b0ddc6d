import Arsh.Brace.Progression

/-!
# Texts of ranges

The lexer hands `toBraceRange` a text of the form `first..last` or `first..last..step`. When the
numbers are in range the values enumerated are those of the progression, and each of them is
written with the width of the two ends.
-/

namespace Arsh.Brace

/-- `BRACE_INT_SEQ` and `BRACE_CHAR_SEQ` of the lexer, without the braces. -/
structure SeqText (isChar : Bool) (ref first last : Text) (step : Option Text) : Prop where
  ref : ref = first ++ '.' :: '.' :: (last ++ step.elim [] fun s => '.' :: '.' :: s)
  ends : if isChar then ∃ x y, x.isAlphanum ∧ y.isAlphanum ∧ first = [x] ∧ last = [y]
    else IntText first ∧ IntText last
  step : ∀ s, step = some s → IntText s

/-- The value of an end. -/
def endValue (isChar : Bool) (t : Text) : Int := if isChar then (t.headD '0').toNat else numeral t

/-- The step in the text, `1` when there is none. -/
def stepValue (step : Option Text) : Int := step.elim 1 numeral

/-- The size of a step; a step of `0` is read as `1`. -/
def stepSize (s : Int) : Nat := if s = 0 then 1 else s.natAbs

/-- The values a range stands for. -/
def seqValues (isChar : Bool) (first last : Text) (step : Option Text) : List Int :=
  let vs := progression (endValue isChar first) (endValue isChar last) (stepSize (stepValue step))
  if stepValue step < 0 then vs.reverse else vs

/-- The width of the values: that of the longer end, when one of them is padded. -/
def commonWidth (isChar : Bool) (first last : Text) : Nat :=
  if !isChar && (Padded first ∨ Padded last) then max (width first) (width last) else 0

def InInt64 (v : Int) : Prop := int64Min ≤ v ∧ v ≤ int64Max

instance (v : Int) : Decidable (InInt64 v) := inferInstanceAs (Decidable (_ ∧ _))

/-- The numbers of a text are in range. -/
def InRange (isChar : Bool) (first last : Text) (step : Option Text) : Prop :=
  InInt64 (endValue isChar first) ∧ InInt64 (endValue isChar last) ∧
    InInt64 (stepValue step) ∧ stepValue step ≠ int64Min

section
variable {isChar : Bool} {ref first last rest : Text} {step : Option Text} {range : BraceRange}
  {error : Option Text}

theorem splitDots_append (h : '.' ∉ first) :
    splitDots (first ++ '.' :: '.' :: rest) = some (first, rest) := by
  induction first with
  | nil => rfl
  | cons ch first ih =>
    obtain ⟨h₁, h₂⟩ := not_or.1 (fun hm => h (List.mem_cons.2 hm))
    rw [List.cons_append, splitDots, ih h₂]
    · rfl
    · rintro tail rfl
      exact absurd rfl h₁

theorem splitDots_none (h : '.' ∉ first) : splitDots first = none := by
  induction first with
  | nil => rfl
  | cons ch first ih =>
    obtain ⟨h₁, h₂⟩ := not_or.1 (fun hm => h (List.mem_cons.2 hm))
    rw [splitDots, ih h₂]
    · rfl
    · rintro tail rfl
      exact absurd rfl h₁

theorem IntText.not_dot (h : IntText first) : '.' ∉ first := by
  have key : ∀ ds : Text, (∀ ch ∈ ds, ch.isDigit) → '.' ∉ ds := by
    intro ds hds hm
    exact absurd (hds _ hm) (by decide)
  cases h with
  | plain _ hds => exact key _ hds
  | plus _ hds =>
    intro hm
    rcases List.mem_cons.1 hm with heq | hm
    · exact absurd heq (by decide)
    · exact key _ hds hm
  | minus _ hds =>
    intro hm
    rcases List.mem_cons.1 hm with heq | hm
    · exact absurd heq (by decide)
    · exact key _ hds hm

theorem IntText.ne_nil (h : IntText first) : first ≠ [] := by
  cases h with
  | plain hne _ => exact hne
  | plus _ _ => exact List.cons_ne_nil _ _
  | minus _ _ => exact List.cons_ne_nil _ _

/-- `toBraceRange` takes the text apart. -/
theorem SeqText.toBraceRange_eq (h : SeqText isChar ref first last step) :
    toBraceRange ref isChar = (parseEnds first last isChar).bind fun r =>
      if r.2.isNone then step.elim (some r) (parseStep r.1) else some r := by
  have hdots : '.' ∉ first ∧ '.' ∉ last := by
    have hends := h.ends
    cases isChar with
    | true =>
      obtain ⟨x, y, hx, hy, rfl, rfl⟩ := hends
      have hdot : ¬Char.isAlphanum '.' = true := by decide
      exact ⟨fun hm => hdot (List.mem_singleton.1 hm ▸ hx), fun hm => hdot (List.mem_singleton.1 hm ▸ hy)⟩
    | false => exact ⟨hends.1.not_dot, hends.2.not_dot⟩
  obtain ⟨h₁, h₂⟩ := hdots
  rw [h.ref, toBraceRange, splitDots_append h₁]
  cases step with
  | none =>
    simp only [Option.bind_some, Option.elim_none, List.append_nil, splitDots_none h₂,
      Option.getD_none, List.isEmpty_nil, Bool.not_true, Bool.and_false, Bool.false_eq_true, if_false,
      ite_self]
  | some s =>
    have hne : s.isEmpty = false := by simpa using (h.step s rfl).ne_nil
    simp only [Option.bind_some, Option.elim_some, splitDots_append h₂, Option.getD_some, hne,
      Bool.not_false, Bool.and_true]

theorem InInt64.iff_ok {t : Text} (h : IntText t) : (toBraceInt t).ok = true ↔ InInt64 (numeral t) :=
  (toBraceInt_spec h).1

theorem width_pos {t : Text} (h : Padded t) : width t ≠ 0 := by
  have := h.2
  rw [width, if_pos h]
  omega

/-- Both ends of a range of integers. -/
theorem parseEnds_int (h₁ : IntText first) (h₂ : IntText last) (hr₁ : InInt64 (numeral first))
    (hr₂ : InInt64 (numeral last)) :
    parseEnds first last false =
      some (⟨numeral first, numeral last, 1, commonWidth false first last, .int⟩, none) := by
  have ok₁ := (InInt64.iff_ok h₁).2 hr₁
  have ok₂ := (InInt64.iff_ok h₂).2 hr₂
  obtain ⟨hv₁, hd₁⟩ := (toBraceInt_spec h₁).2 ok₁
  obtain ⟨hv₂, hd₂⟩ := (toBraceInt_spec h₂).2 ok₂
  have hdigits : resolveDigits (toBraceInt first) (toBraceInt last) =
      commonWidth false first last := by
    simp only [resolveDigits, commonWidth, hv₁, hv₂, hd₁, hd₂, Bool.not_false, Bool.true_and,
      decide_eq_true_eq]
    by_cases p₁ : Padded first
    · have := width_pos p₁
      by_cases p₂ : Padded last
      · have := width_pos p₂
        simp only [p₁, p₂, if_true, or_self]
        rw [if_neg (by omega), if_neg (by omega)]
      · simp only [p₁, p₂, if_true, if_false, true_or]
        have hplain : width last = (toString10 (numeral last)).length := if_neg p₂
        rw [if_pos ⟨this, trivial⟩, hplain]
    · by_cases p₂ : Padded last
      · have := width_pos p₂
        simp only [p₁, p₂, if_true, if_false, or_true]
        have hplain : width first = (toString10 (numeral first)).length := if_neg p₁
        rw [if_neg (by omega), if_pos ⟨trivial, this⟩, hplain]
      · simp [p₁, p₂]
  have hne : (decide (first = []) || decide (last = [])) = false := by
    simp [h₁.ne_nil, h₂.ne_nil]
  simp only [parseEnds, hne, ok₁, ok₂, hv₁, hv₂, hdigits, Bool.not_true, Bool.false_eq_true, if_false]

/-- An end that is no `int64_t` is reported. -/
theorem parseEnds_error (h₁ : IntText first) (h₂ : IntText last)
    (hr : ¬(InInt64 (numeral first) ∧ InInt64 (numeral last))) :
    parseEnds first last false = some (⟨0, 0, 1, 0, .outOfRange⟩,
      some (if (toBraceInt first).ok then last else first)) := by
  have hne : (decide (first = []) || decide (last = [])) = false := by
    simp [h₁.ne_nil, h₂.ne_nil]
  simp only [parseEnds, hne, Bool.false_eq_true, if_false]
  cases ok₁ : (toBraceInt first).ok with
  | false => rfl
  | true =>
    have ok₂ : (toBraceInt last).ok = false := by
      rw [← Bool.not_eq_true]
      exact fun ok₂ => hr ⟨(InInt64.iff_ok h₁).1 ok₁, (InInt64.iff_ok h₂).1 ok₂⟩
    rw [ok₂]
    rfl

/-- What the step makes of a range: a negative one turns it round. -/
def BraceRange.withStep (range : BraceRange) (s : Int) : BraceRange :=
  if s < 0 then
    { range with
      first := valueAt range.first range.last (stepSize s) (steps range.first range.last (stepSize s))
      last := range.first, step := stepSize s }
  else { range with step := stepSize s }

theorem stepSize_pos (s : Int) : 0 < stepSize s := by
  unfold stepSize
  split <;> omega

theorem parseStep_spec {s : Text} (h : IntText s) (h₁ : InInt64 range.first)
    (h₂ : InInt64 range.last) :
    parseStep range s = some (if InInt64 (numeral s) ∧ numeral s ≠ int64Min
      then (range.withStep (numeral s), none)
      else ({ range with kind := .outOfRangeStep }, some s)) := by
  have hok := InInt64.iff_ok h
  simp only [parseStep]
  cases ok : (toBraceInt s).ok with
  | false =>
    rw [ok] at hok
    rw [Bool.not_false, if_pos rfl, if_neg (c := _ ∧ _) fun hr => Bool.false_ne_true (hok.2 hr.1)]
  | true =>
    have hin := hok.1 ok
    obtain ⟨hv, -⟩ := (toBraceInt_spec h).2 ok
    simp only [hv, Bool.not_true, Bool.false_eq_true, if_false]
    split
    · next h0 =>
      rw [h0, if_pos ⟨h0 ▸ hin, by decide⟩]
      rfl
    · next h0 =>
      split
      · next hmin => rw [if_neg fun hr => hr.2 hmin]
      · next hmin =>
        have hsize : stepSize (numeral s) = (numeral s).natAbs := if_neg h0
        have hboth : InInt64 (numeral s) ∧ numeral s ≠ int64Min := ⟨hin, hmin⟩
        rw [if_pos hboth, BraceRange.withStep, hsize]
        by_cases hneg : numeral s < 0
        · obtain ⟨l₁, u₁⟩ := h₁
          obtain ⟨l₂, u₂⟩ := h₂
          rw [if_pos hneg, if_pos hneg, toReversedBegin_eq (by omega) (by omega) (by omega)]
          rfl
        · have : ((numeral s).natAbs : Int) = numeral s := by omega
          rw [if_neg hneg, if_neg hneg, this]

/-- The range without an error. -/
theorem SeqText.toBraceRange_ok (h : SeqText isChar ref first last step)
    (hr : InRange isChar first last step) :
    toBraceRange ref isChar = some (BraceRange.withStep ⟨endValue isChar first,
      endValue isChar last, 1, commonWidth isChar first last, if isChar then .char else .int⟩
      (stepValue step), none) := by
  obtain ⟨h₁, h₂, hs, hmin⟩ := hr
  have hends : parseEnds first last isChar = some (⟨endValue isChar first, endValue isChar last, 1,
      commonWidth isChar first last, if isChar then .char else .int⟩, none) := by
    have hends := h.ends
    cases isChar with
    | true =>
      obtain ⟨x, y, -, -, rfl, rfl⟩ := hends
      rfl
    | false => exact parseEnds_int hends.1 hends.2 h₁ h₂
  rw [h.toBraceRange_eq, hends]
  simp only [Option.bind_some, Option.isNone_none, if_true]
  cases step with
  | none => rfl
  | some s =>
    rw [Option.elim_some, parseStep_spec (h.step s rfl) h₁ h₂, if_pos ⟨hs, hmin⟩]
    rfl

theorem inInt64_char {x : Char} (hx : x.isAlphanum) : InInt64 x.toNat := by
  have : x.toNat < 128 := by
    have hx' : (decide (65 ≤ x.val ∧ x.val ≤ 90) || (97 ≤ x.val && x.val ≤ 122) ||
        (48 ≤ x.val && x.val ≤ 57)) = true := hx
    simp only [Bool.or_eq_true, Bool.and_eq_true, decide_eq_true_eq,
      UInt32.le_iff_toNat_le] at hx'
    have hval : x.val.toNat = x.toNat := rfl
    rw [hval] at hx'
    simp at hx'
    omega
  unfold InInt64 int64Min int64Max
  omega

/-- A number out of range is reported. -/
theorem SeqText.toBraceRange_error (h : SeqText isChar ref first last step)
    (hr : ¬InRange isChar first last step) :
    ∃ range error, toBraceRange ref isChar = some (range, some error) ∧ range.hasError = true := by
  rw [h.toBraceRange_eq]
  have stepErr : ∀ range : BraceRange, InInt64 range.first → InInt64 range.last →
      ¬(InInt64 (stepValue step) ∧ stepValue step ≠ int64Min) →
      ∃ range' error, step.elim (some (range, none)) (parseStep range) =
        some (range', some error) ∧ range'.hasError = true := by
    intro range h₁ h₂ hs
    cases step with
    | none => exact absurd (by decide) hs
    | some s =>
      refine ⟨{ range with kind := .outOfRangeStep }, s, ?_, rfl⟩
      have hs' : ¬(InInt64 (numeral s) ∧ numeral s ≠ int64Min) := hs
      rw [Option.elim_some, parseStep_spec (h.step s rfl) h₁ h₂, if_neg hs']
  have hends := h.ends
  cases isChar with
  | true =>
    obtain ⟨x, y, hx, hy, rfl, rfl⟩ := hends
    exact stepErr _ (inInt64_char hx) (inInt64_char hy)
      fun hs => hr ⟨inInt64_char hx, inInt64_char hy, hs⟩
  | false =>
    by_cases hb : InInt64 (numeral first) ∧ InInt64 (numeral last)
    · rw [parseEnds_int hends.1 hends.2 hb.1 hb.2]
      exact stepErr _ hb.1 hb.2 fun hs => hr ⟨hb.1, hb.2, hs⟩
    · rw [parseEnds_error hends.1 hends.2 hb]
      exact ⟨_, _, rfl, rfl⟩

/-- The values of the range with a step. -/
theorem withStep_enumerates (r : BraceRange) (s : Int) (h₁ : InInt64 r.first)
    (h₂ : InInt64 r.last) :
    Enumerates (r.withStep s) (r.withStep s).first
      (if s < 0 then (progression r.first r.last (stepSize s)).reverse
        else progression r.first r.last (stepSize s)) := by
  obtain ⟨l₁, u₁⟩ := h₁
  obtain ⟨l₂, u₂⟩ := h₂
  have hpos := stepSize_pos s
  unfold BraceRange.withStep
  split
  · rw [← progression_reverse hpos]
    have hbetween := @valueAt_between r.first r.last _ _ hpos (Nat.le_refl _)
    exact enumerates_progression hpos rfl (by simp only; omega) (by simp only; omega)
  · exact enumerates_progression hpos rfl (by simp only; omega) (by simp only; omega)

theorem numeral_toString10 (v : Int) : numeral (toString10 v) = v := by
  have hdig : ∀ ch ∈ Nat.toDigits 10 v.natAbs, ch.isDigit := fun ch hch =>
    Nat.isDigit_of_mem_toDigits (by decide) (by decide) hch
  unfold toString10
  split
  · show -((Nat.ofDigitChars 10 (Nat.toDigits 10 v.natAbs) 0 : Nat) : Int) = v
    rw [Nat.ofDigitChars_ten_toDigits]
    omega
  · rw [numeral_plain _ hdig, Nat.ofDigitChars_ten_toDigits]
    omega

/-- The text of a value denotes it, in the width of the range. -/
theorem formatSeqValue_between {v : Int} (h₁ : IntText first) (h₂ : IntText last)
    (hlow : min (numeral first) (numeral last) ≤ v)
    (hhigh : v ≤ max (numeral first) (numeral last)) :
    ∃ text, formatSeqValue v (commonWidth false first last) false = some text ∧
      numeral text = v ∧
      (commonWidth false first last ≠ 0 → text.length = commonWidth false first last) := by
  by_cases hw : commonWidth false first last = 0
  · refine ⟨toString10 v, ?_, numeral_toString10 v, fun h => absurd hw h⟩
    rw [hw]
    rfl
  · have hwidth : commonWidth false first last = max (width first) (width last) := by
      unfold commonWidth at hw ⊢
      split
      · rfl
      · next hn => rw [if_neg hn] at hw; exact absurd rfl hw
    have hle := length_toString10_le hlow hhigh
    have w₁ := length_le_width h₁
    have w₂ := length_le_width h₂
    obtain ⟨text, he, hlen, hnum⟩ := formatSeqValue_padded (v := v) hw (by omega)
    exact ⟨text, he, hnum, fun _ => hlen⟩

/-- A range in a text that is accepted is enumerated value by value, and each value is written
with the common width. -/
theorem toBraceRange_values (h : SeqText isChar ref first last step) :
    ∃ range error, toBraceRange ref isChar = some (range, error) ∧
      (range.hasError = false ↔ InRange isChar first last step) ∧
      (range.hasError = false →
        0 < range.step ∧ range.digits = commonWidth isChar first last ∧
        (range.kind = .char ↔ isChar = true) ∧
        Enumerates range range.first (seqValues isChar first last step) ∧
        ∀ v ∈ seqValues isChar first last step,
          ∃ text, formatSeqValue v range.digits isChar = some text ∧
            if isChar then text = [Char.ofNat v.toNat]
            else numeral text = v ∧ (range.digits ≠ 0 → text.length = range.digits)) := by
  by_cases hr : InRange isChar first last step
  · refine ⟨_, _, h.toBraceRange_ok hr, ⟨fun _ => hr, fun _ => ?_⟩, fun _ => ?_⟩
    · unfold BraceRange.withStep BraceRange.hasError
      cases isChar <;> split <;> rfl
    · generalize hrange : BraceRange.mk (endValue isChar first) (endValue isChar last) 1
        (commonWidth isChar first last) (if isChar then .char else .int) = r
      have hfirst : r.first = endValue isChar first := by rw [← hrange]
      have hlast : r.last = endValue isChar last := by rw [← hrange]
      have henum := withStep_enumerates r (stepValue step) (hfirst ▸ hr.1) (hlast ▸ hr.2.1)
      have hpos := stepSize_pos (stepValue step)
      have hstep : (r.withStep (stepValue step)).step = stepSize (stepValue step) := by
        unfold BraceRange.withStep
        split <;> rfl
      have hdigits : (r.withStep (stepValue step)).digits = commonWidth isChar first last := by
        rw [← hrange]
        unfold BraceRange.withStep
        split <;> rfl
      have hkind : (r.withStep (stepValue step)).kind = if isChar then .char else .int := by
        rw [← hrange]
        unfold BraceRange.withStep
        split <;> rfl
      rw [hfirst, hlast] at henum
      refine ⟨by omega, hdigits, ?_, henum, ?_⟩
      · rw [hkind]
        cases isChar <;> simp
      · intro v hv
        rw [hdigits]
        have hends := h.ends
        cases isChar with
        | true => exact ⟨_, rfl, rfl⟩
        | false =>
          have hmem : v ∈ progression (endValue false first) (endValue false last)
              (stepSize (stepValue step)) := by
            unfold seqValues at hv
            simp only at hv
            split at hv
            · exact List.mem_reverse.1 hv
            · exact hv
          obtain ⟨hlow, hhigh⟩ := mem_progression_between hpos hmem
          exact formatSeqValue_between hends.1 hends.2 hlow hhigh
  · obtain ⟨range, error, he, herr⟩ := h.toBraceRange_error hr
    exact ⟨range, some error, he, ⟨fun hf => absurd (herr.symm.trans hf) (by decide),
      fun h => absurd h hr⟩, fun hf => absurd (herr.symm.trans hf) (by decide)⟩

end

theorem seqText_sample : SeqText false ['0', '1', '.', '.', '1', '0', '.', '.', '-', '3'] ['0', '1']
    ['1', '0'] (some ['-', '3']) where
  ref := rfl
  ends := ⟨.plain (by simp) (List.forall_mem_cons.2 ⟨rfl, List.forall_mem_singleton.2 rfl⟩),
    .plain (by simp) (List.forall_mem_cons.2 ⟨rfl, List.forall_mem_singleton.2 rfl⟩)⟩
  step := by
    rintro s ⟨⟩
    exact @IntText.minus ['3'] (by simp) (List.forall_mem_singleton.2 rfl)

/-- `{01..10..-3}` is `10 07 04 01`. -/
example : seqValues false ['0', '1'] ['1', '0'] (some ['-', '3']) = [10, 7, 4, 1] ∧
    formatSeqValue 7 2 false = some ['0', '7'] := by decide

theorem toBraceRange_values_sample :
    ∃ range error, toBraceRange ['0', '1', '.', '.', '1', '0', '.', '.', '-', '3'] false =
        some (range, error) ∧
      (range.hasError = false ↔ InRange false ['0', '1'] ['1', '0'] (some ['-', '3'])) ∧
      (range.hasError = false →
        0 < range.step ∧ range.digits = commonWidth false ['0', '1'] ['1', '0'] ∧
        (range.kind = .char ↔ false = true) ∧
        Enumerates range range.first (seqValues false ['0', '1'] ['1', '0'] (some ['-', '3'])) ∧
        ∀ v ∈ seqValues false ['0', '1'] ['1', '0'] (some ['-', '3']),
          ∃ text, formatSeqValue v range.digits false = some text ∧
            if false then text = [Char.ofNat v.toNat]
            else numeral text = v ∧ (range.digits ≠ 0 → text.length = range.digits)) :=
  toBraceRange_values seqText_sample

end Arsh.Brace
