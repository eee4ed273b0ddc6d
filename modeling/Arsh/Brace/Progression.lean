import Arsh.Brace.Numeral
import Mathlib.Algebra.Group.Nat.Defs

/-!
# The values of a range

`progression first last k` goes from `first` towards `last` in steps of `k`. The values that
`tryUpdateSeqValue` goes through are the progression of the three numbers in the text, the other
way round when the step is negative, and each of them fits the width of the two ends.
-/

namespace Arsh.Brace

/-! ## Progressions -/

/-- The last index of a progression. -/
def steps (first last : Int) (k : Nat) : Nat := (last - first).natAbs / k

/-- The value number `i` on the way from `first` towards `last`. -/
def valueAt (first last : Int) (k i : Nat) : Int :=
  if first ≤ last then first + i * k else first - i * k

/-- The values from `first` towards `last` in steps of `k`, up to the last one that is not beyond
`last`. -/
def progression (first last : Int) (k : Nat) : List Int :=
  (List.range (steps first last k + 1)).map (valueAt first last k)

/-- Calling `tryUpdateSeqValue` over and over from `cur` on gives these values, `cur` first, and
then fails. -/
inductive Enumerates (range : BraceRange) : Int → List Int → Prop where
  | last {cur : Int} : tryUpdateSeqValue cur range = none → Enumerates range cur [cur]
  | next {cur ret : Int} {vs : List Int} : tryUpdateSeqValue cur range = some ret →
      Enumerates range ret vs → Enumerates range cur (cur :: vs)

/-- There is one way to enumerate a range. -/
theorem Enumerates.unique {range : BraceRange} {cur : Int} {vs ws : List Int}
    (h : Enumerates range cur vs) (h' : Enumerates range cur ws) : vs = ws := by
  induction h generalizing ws with
  | last hn =>
    cases h' with
    | last => rfl
    | next hs => rw [hn] at hs; cases hs
  | next hs _ ih =>
    cases h' with
    | last hn => rw [hs] at hn; cases hn
    | next hs' h' =>
      rw [hs] at hs'
      cases hs'
      rw [ih h']

section
variable {first last : Int} {k i n : Nat} {range : BraceRange}

/-- The steps taken do not lead beyond `last`, one more does. -/
theorem steps_spec (hk : 0 < k) : steps first last k * k ≤ (last - first).natAbs ∧
    (last - first).natAbs < (steps first last k + 1) * k :=
  ⟨Nat.div_mul_le_self _ _, Nat.lt_mul_of_div_lt (Nat.lt_succ_self _) hk⟩

theorem natCast_mul_le (h : i ≤ n) : (i : Int) * k ≤ n * k := by
  exact_mod_cast Nat.mul_le_mul_right k h

/-- The values of a progression lie between its ends. -/
theorem valueAt_between (hk : 0 < k) (hi : i ≤ steps first last k) :
    min first last ≤ valueAt first last k i ∧ valueAt first last k i ≤ max first last := by
  obtain ⟨hle, -⟩ := @steps_spec first last k hk
  have hi' := natCast_mul_le (k := k) hi
  have hle' : (steps first last k : Int) * k ≤ (last - first).natAbs := by exact_mod_cast hle
  have h0 : 0 ≤ (i : Int) * k := Int.mul_nonneg (Int.natCast_nonneg _) (Int.natCast_nonneg _)
  unfold valueAt
  split <;> omega

/-- One step along a progression. -/
theorem tryUpdateSeqValue_valueAt (hk : 0 < k) (hstep : range.step = k)
    (hlow : int64Min ≤ min range.first range.last) (hhigh : max range.first range.last ≤ int64Max)
    (i : Nat) (hi : i ≤ steps range.first range.last k) :
    tryUpdateSeqValue (valueAt range.first range.last k i) range =
      if i = steps range.first range.last k then none
      else some (valueAt range.first range.last k (i + 1)) := by
  obtain ⟨hle, hlt⟩ := @steps_spec range.first range.last k hk
  have hlt' : ((range.last - range.first).natAbs : Int) < (steps range.first range.last k + 1) * k := by
    exact_mod_cast hlt
  have hle' : (steps range.first range.last k : Int) * k ≤ (range.last - range.first).natAbs := by
    exact_mod_cast hle
  have hsucc : ((i + 1 : Nat) : Int) * k = i * k + k := by
    rw [Int.natCast_succ, Int.add_mul, Int.one_mul]
  have hi' := natCast_mul_le (k := k) hi
  have h0 : 0 ≤ (i : Int) * k := Int.mul_nonneg (Int.natCast_nonneg _) (Int.natCast_nonneg _)
  unfold tryUpdateSeqValue valueAt checkOverflow
  rw [hsucc, hstep]
  split
  · next hinc =>
    by_cases hend : i = steps range.first range.last k
    · have hend' : (steps range.first range.last k : Int) * k = i * k := by rw [← hend]
      have hmul : ((steps range.first range.last k : Int) + 1) * k = i * k + k := by
        rw [Int.add_mul, hend', Int.one_mul]
      rw [if_pos hend]
      split
      · rfl
      · next ret hret =>
        rw [if_pos]
        split at hret
        · cases hret
          omega
        · cases hret
    · have hnext := natCast_mul_le (k := k) (show i + 1 ≤ steps range.first range.last k by omega)
      rw [hsucc] at hnext
      have hbound : range.first + ↑i * ↑k + ↑k ≤ range.last := by omega
      rw [if_neg hend, if_pos (by omega)]
      show (if _ > range.last then none else some _) = _
      rw [if_neg (by omega), Int.add_assoc]
  · next hdec =>
    by_cases hend : i = steps range.first range.last k
    · have hend' : (steps range.first range.last k : Int) * k = i * k := by rw [← hend]
      have hmul : ((steps range.first range.last k : Int) + 1) * k = i * k + k := by
        rw [Int.add_mul, hend', Int.one_mul]
      rw [if_pos hend]
      split
      · rfl
      · next ret hret =>
        rw [if_pos]
        split at hret
        · cases hret
          omega
        · cases hret
    · have hnext := natCast_mul_le (k := k) (show i + 1 ≤ steps range.first range.last k by omega)
      rw [hsucc] at hnext
      have hbound : range.last ≤ range.first - ↑i * ↑k - ↑k := by omega
      rw [if_neg hend, if_pos (by omega)]
      show (if _ < range.last then none else some _) = _
      rw [if_neg (by omega), Int.sub_sub]

/-- The values from the one number `i` on. -/
theorem enumerates_from (hk : 0 < k) (hstep : range.step = k)
    (hlow : int64Min ≤ min range.first range.last) (hhigh : max range.first range.last ≤ int64Max)
    (hi : i + n = steps range.first range.last k) :
    Enumerates range (valueAt range.first range.last k i)
      ((List.range' i (n + 1)).map (valueAt range.first range.last k)) := by
  induction n generalizing i with
  | zero =>
    refine .last ?_
    rw [tryUpdateSeqValue_valueAt hk hstep hlow hhigh i (by omega), if_pos (by omega)]
  | succ n ih =>
    rw [List.range'_succ, List.map_cons]
    refine .next ?_ (ih (i := i + 1) (by omega))
    rw [tryUpdateSeqValue_valueAt hk hstep hlow hhigh i (by omega), if_neg (by omega)]

theorem enumerates_progression (hk : 0 < k) (hstep : range.step = k)
    (hlow : int64Min ≤ min range.first range.last)
    (hhigh : max range.first range.last ≤ int64Max) :
    Enumerates range range.first (progression range.first range.last k) := by
  have h := enumerates_from hk hstep hlow hhigh (i := 0) (Nat.zero_add _)
  have hfirst : valueAt range.first range.last k 0 = range.first := by
    unfold valueAt
    split <;> simp
  rw [hfirst] at h
  rw [progression, List.range_eq_range']
  exact h

/-- The quotient of C++, of a number and a positive one. -/
theorem tdiv_natCast (d : Int) (k : Nat) :
    d.tdiv k = if 0 ≤ d then ((d.natAbs / k : Nat) : Int) else -((d.natAbs / k : Nat) : Int) := by
  cases d with
  | ofNat n => rw [if_pos (show 0 ≤ Int.ofNat n from Int.natCast_nonneg n)]; rfl
  | negSucc n => rw [if_neg (by omega)]; rfl

/-- `toReversedBegin` is the last value on the way. -/
theorem toReversedBegin_eq (hk : 0 < k) (hlow : int64Min ≤ min first last)
    (hhigh : max first last ≤ int64Max) :
    toReversedBegin first last k = some (valueAt first last k (steps first last k)) := by
  have hbetween := @valueAt_between first last k _ hk (Nat.le_refl _)
  have hvalue : first + (last - first).tdiv k * k = valueAt first last k (steps first last k) := by
    rw [tdiv_natCast, valueAt, steps]
    split
    · next h => rw [if_pos (by omega)]
    · next h => rw [if_neg (by omega), Int.neg_mul, ← Int.sub_eq_add_neg]
  rw [toReversedBegin, hvalue]
  exact if_pos ⟨by omega, by omega⟩

/-- The way back from the last value. -/
theorem progression_reverse (hk : 0 < k) :
    progression (valueAt first last k (steps first last k)) first k =
      (progression first last k).reverse := by
  have hsteps : steps (valueAt first last k (steps first last k)) first k = steps first last k := by
    generalize steps first last k = n
    have hdist : (first - valueAt first last k n).natAbs = n * k := by
      unfold valueAt
      split
      · rw [show first - (first + (n : Int) * k) = -((n * k : Nat) : Int) by push_cast; omega]
        omega
      · rw [show first - (first - (n : Int) * k) = ((n * k : Nat) : Int) by push_cast; omega]
        omega
    rw [steps, hdist, Nat.mul_div_cancel _ hk]
  have hvalue : ∀ i ≤ steps first last k,
      valueAt (valueAt first last k (steps first last k)) first k i =
        valueAt first last k (steps first last k - i) := by
    intro i hi
    generalize steps first last k = n at hi ⊢
    have hsub : ((n - i : Nat) : Int) * k = n * k - i * k := by
      rw [Int.natCast_sub hi, Int.sub_mul]
    have hle := natCast_mul_le (k := k) hi
    unfold valueAt
    rw [hsub]
    by_cases hinc : first ≤ last
    · rw [if_pos hinc, if_pos hinc]
      split
      · have : 0 ≤ (i : Int) * k := Int.mul_nonneg (Int.natCast_nonneg _) (Int.natCast_nonneg _)
        omega
      · omega
    · have : 0 ≤ (n : Int) * k := Int.mul_nonneg (Int.natCast_nonneg _) (Int.natCast_nonneg _)
      rw [if_neg hinc, if_neg hinc, if_pos (by omega)]
      omega
  rw [progression, hsteps]
  apply List.ext_getElem
  · simp [progression]
  · intro i h₁ h₂
    simp only [List.length_map, List.length_range] at h₁
    simp only [progression, List.getElem_map, List.getElem_range, List.getElem_reverse,
      List.length_map, List.length_range]
    rw [hvalue i (by omega)]
    congr 1

theorem mem_progression_between {v : Int} (hk : 0 < k) (hv : v ∈ progression first last k) :
    min first last ≤ v ∧ v ≤ max first last := by
  obtain ⟨i, hi, rfl⟩ := List.mem_map.1 hv
  exact valueAt_between hk (Nat.le_of_lt_succ (List.mem_range.1 hi))

end

/-! ## Padding -/

section
variable {v a b : Int} {n m w : Nat} {t : Text}

theorem length_toDigits_mono (h : n ≤ m) :
    (Nat.toDigits 10 n).length ≤ (Nat.toDigits 10 m).length :=
  (Nat.length_toDigits_le_iff (by decide) Nat.length_toDigits_pos).2
    (Nat.lt_of_le_of_lt h ((Nat.length_toDigits_le_iff (by decide) Nat.length_toDigits_pos).1
      (Nat.le_refl _)))

theorem length_toString10 (v : Int) :
    (toString10 v).length = (Nat.toDigits 10 v.natAbs).length + if v < 0 then 1 else 0 := by
  unfold toString10
  split <;> simp

/-- A number between two others is no longer than the longer one. -/
theorem length_toString10_le (hlow : min a b ≤ v) (hhigh : v ≤ max a b) :
    (toString10 v).length ≤ max (toString10 a).length (toString10 b).length := by
  have key : ∀ c : Int, (v < 0 → c ≤ v) → (0 ≤ v → v ≤ c) →
      (toString10 v).length ≤ (toString10 c).length := by
    intro c hneg hpos
    rw [length_toString10, length_toString10]
    by_cases hv : v < 0
    · have hc := hneg hv
      have := length_toDigits_mono (show v.natAbs ≤ c.natAbs by omega)
      rw [if_pos hv, if_pos (by omega)]
      omega
    · have hc := hpos (by omega)
      have := length_toDigits_mono (show v.natAbs ≤ c.natAbs by omega)
      rw [if_neg hv, if_neg (by omega)]
      omega
  by_cases hv : v < 0
  · rcases Int.le_total a b with hab | hab
    · have := key a (fun _ => by omega) (fun h => by omega)
      omega
    · have := key b (fun _ => by omega) (fun h => by omega)
      omega
  · rcases Int.le_total a b with hab | hab
    · have := key b (fun h => by omega) (fun _ => by omega)
      omega
    · have := key a (fun h => by omega) (fun _ => by omega)
      omega

theorem ofDigitChars_lt (ds : Text) (h : ∀ ch ∈ ds, ch.isDigit) :
    Nat.ofDigitChars 10 ds 0 < 10 ^ ds.length := by
  induction ds with
  | nil => simp
  | cons ch ds ih =>
    have hch := isDigit_iff.1 (h ch List.mem_cons_self)
    have hds := ih fun x hx => h x (List.mem_cons_of_mem _ hx)
    have hd : ch.toNat - '0'.toNat ≤ 9 := by
      show ch.toNat - 48 ≤ 9
      omega
    have hmul := Nat.mul_le_mul_left (10 ^ ds.length) hd
    rw [Nat.ofDigitChars_cons, Nat.ofDigitChars_eq_ofDigitChars_zero, Nat.mul_zero, Nat.zero_add,
      List.length_cons, Nat.pow_succ]
    omega

theorem IntText.digits (h : IntText t) : unsigned t ≠ [] ∧ ∀ ch ∈ unsigned t, ch.isDigit := by
  cases h with
  | plain hne hds => rw [unsigned_of_digits hds]; exact ⟨hne, hds⟩
  | plus hne hds => exact ⟨hne, hds⟩
  | minus hne hds => exact ⟨hne, hds⟩

/-- The number itself fits its width. -/
theorem length_le_width (h : IntText t) : (toString10 (numeral t)).length ≤ width t := by
  obtain ⟨hne, hds⟩ := h.digits
  unfold width
  split
  · have hlt := ofDigitChars_lt _ hds
    have hlen := (Nat.length_toDigits_le_iff (n := Nat.ofDigitChars 10 (unsigned t) 0)
      (by decide) (List.length_pos_of_ne_nil hne)).2 hlt
    have habs : (numeral t).natAbs = Nat.ofDigitChars 10 (unsigned t) 0 := by
      unfold numeral
      split <;> simp
    rw [length_toString10, habs]
    by_cases hs : t.head? = some '-'
    · rw [if_pos hs]
      split <;> omega
    · have hpos : ¬numeral t < 0 := by
        unfold numeral
        rw [if_neg hs]
        omega
      rw [if_neg hs, if_neg hpos]
      omega
  · exact Nat.le_refl _

theorem numeral_plain (ds : Text) (hds : ∀ ch ∈ ds, ch.isDigit) :
    numeral ds = Nat.ofDigitChars 10 ds 0 := by
  unfold numeral
  rw [unsigned_of_digits hds, if_neg]
  cases ds with
  | nil => intro h; cases h
  | cons ch ds =>
    intro h
    cases h
    exact absurd rfl (ne_sign_of_isDigit (hds _ List.mem_cons_self)).2

/-- A padded value has the width asked for and denotes the value. -/
theorem formatSeqValue_padded (hd : w ≠ 0) (h : (toString10 v).length ≤ w) :
    ∃ text, formatSeqValue v w false = some text ∧ text.length = w ∧ numeral text = v := by
  refine ⟨_, by
    simp only [formatSeqValue, Bool.false_eq_true, if_false]
    rw [if_neg hd, if_pos h], ?_, ?_⟩
  · rw [length_toString10] at h
    simp only [List.length_append, List.length_take, List.length_replicate, List.length_drop,
      length_toString10]
    split <;> rename_i hv <;> simp only [hv, if_true, if_false] at h ⊢ <;> omega
  · have hdig : ∀ z, ∀ ch ∈ List.replicate z '0' ++ Nat.toDigits 10 v.natAbs, ch.isDigit := by
      intro z ch hch
      rcases List.mem_append.1 hch with hch | hch
      · rw [List.eq_of_mem_replicate hch]
        rfl
      · exact Nat.isDigit_of_mem_toDigits (by decide) (by decide) hch
    have hval : ∀ z, Nat.ofDigitChars 10 (List.replicate z '0' ++ Nat.toDigits 10 v.natAbs) 0 =
        v.natAbs := by
      intro z
      rw [Nat.ofDigitChars_append, Nat.ofDigitChars_replicate_zero, Nat.mul_zero,
        Nat.ofDigitChars_ten_toDigits]
    generalize w - (toString10 v).length = z
    unfold toString10
    by_cases hv : v < 0
    · rw [if_pos hv, if_pos hv]
      show -((Nat.ofDigitChars 10 (List.replicate z '0' ++ Nat.toDigits 10 v.natAbs) 0 : Nat) : Int) = v
      rw [hval]
      omega
    · rw [if_neg hv, if_neg hv]
      show numeral (List.replicate z '0' ++ Nat.toDigits 10 v.natAbs) = v
      rw [numeral_plain _ (hdig z), hval]
      omega

end

end Arsh.Brace
