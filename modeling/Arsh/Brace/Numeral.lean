import Arsh.Brace.Range

/-!
# Numbers in a range

What `toBraceInt` reads from a number: the value, if it is an `int64_t`, and how many characters
a number with leading zeros asks the padded values to have.
-/

namespace Arsh.Brace

open Arsh.Cli (parseUnsigned)

/-! ## Numerals -/

/-- `[+-]?[0-9]+`. -/
inductive IntText : Text → Prop where
  | plain {ds : Text} : ds ≠ [] → (∀ ch ∈ ds, ch.isDigit) → IntText ds
  | plus {ds : Text} : ds ≠ [] → (∀ ch ∈ ds, ch.isDigit) → IntText ('+' :: ds)
  | minus {ds : Text} : ds ≠ [] → (∀ ch ∈ ds, ch.isDigit) → IntText ('-' :: ds)

/-- A number without its sign. -/
def unsigned : Text → Text
  | '+' :: ds => ds
  | '-' :: ds => ds
  | ds => ds

/-- The number that a text denotes. -/
def numeral (t : Text) : Int :=
  if t.head? = some '-' then -(Nat.ofDigitChars 10 (unsigned t) 0 : Int)
  else Nat.ofDigitChars 10 (unsigned t) 0

/-- A number with leading zeros. -/
def Padded (t : Text) : Prop := (unsigned t).head? = some '0' ∧ 1 < (unsigned t).length

instance (t : Text) : Decidable (Padded t) := inferInstanceAs (Decidable (_ ∧ _))

/-- The width of a number: all of its text apart from a plus sign when it has leading zeros, else
the shortest text for it. -/
def width (t : Text) : Nat :=
  if Padded t then (unsigned t).length + (if t.head? = some '-' then 1 else 0)
  else (toString10 (numeral t)).length

section
variable {ds : Text} {n acc k : Nat} {v : Int}

theorem isDigit_iff {ch : Char} : ch.isDigit = true ↔ 48 ≤ ch.toNat ∧ ch.toNat ≤ 57 := by
  simp only [Char.isDigit, Bool.and_eq_true, decide_eq_true_eq, ge_iff_le, UInt32.le_iff_toNat_le]
  rfl

/-- A digit as the text of its value. -/
theorem toDigits_digit {ch : Char} (h : ch.isDigit = true) :
    Nat.toDigits 10 (ch.toNat - 48) = [ch] := by
  have hch := isDigit_iff.1 h
  have hd : ch.toNat - 48 < 10 := by omega
  have hall : ∀ m < 10, (Nat.digitChar m).toNat = m + 48 := by decide
  rw [Nat.toDigits_of_lt_base hd]
  congr 1
  apply Char.ext
  apply UInt32.toNat_inj.1
  have := hall _ hd
  show (Nat.digitChar (ch.toNat - 48)).toNat = ch.toNat
  omega

theorem ne_sign_of_isDigit {ch : Char} (h : ch.isDigit = true) : ch ≠ '+' ∧ ch ≠ '-' := by
  rw [isDigit_iff] at h
  constructor <;> rintro rfl <;> revert h <;> decide

theorem unsigned_of_digits (h : ∀ ch ∈ ds, ch.isDigit) : unsigned ds = ds := by
  cases ds with
  | nil => rfl
  | cons ch ds =>
    obtain ⟨h₁, h₂⟩ := ne_sign_of_isDigit (h ch List.mem_cons_self)
    unfold unsigned
    split
    · next heq => cases heq; exact absurd rfl h₁
    · next heq => cases heq; exact absurd rfl h₂
    · rfl

/-- The digits of a number are those of its text, when that does not begin with a zero. -/
theorem toDigits_append (h : ∀ ch ∈ ds, ch.isDigit) (hacc : 0 < acc) :
    Nat.toDigits 10 acc ++ ds = Nat.toDigits 10 (Nat.ofDigitChars 10 ds acc) := by
  induction ds generalizing acc with
  | nil => simp
  | cons ch ds ih =>
    have hch := isDigit_iff.1 (h ch List.mem_cons_self)
    have hd : ch.toNat - 48 < 10 := by omega
    have hchar := toDigits_digit (h ch List.mem_cons_self)
    rw [Nat.ofDigitChars_cons]
    show _ = Nat.toDigits 10 (Nat.ofDigitChars 10 ds (10 * acc + (ch.toNat - 48)))
    rw [← ih (fun x hx => h x (List.mem_cons_of_mem _ hx)) (by omega),
      ← Nat.toDigits_append_toDigits (by decide) hacc hd, hchar, List.append_assoc]
    rfl

/-- A number written without leading zeros. -/
theorem toDigits_ofDigitChars (h : ∀ ch ∈ ds, ch.isDigit) (hne : ds ≠ [])
    (hz : ds.head? ≠ some '0' ∨ ds.length = 1) :
    Nat.toDigits 10 (Nat.ofDigitChars 10 ds 0) = ds := by
  cases ds with
  | nil => exact absurd rfl hne
  | cons ch ds =>
    have hch := isDigit_iff.1 (h ch List.mem_cons_self)
    have hd : ch.toNat - 48 < 10 := by omega
    have hchar := toDigits_digit (h ch List.mem_cons_self)
    rw [Nat.ofDigitChars_cons]
    show Nat.toDigits 10 (Nat.ofDigitChars 10 ds (10 * 0 + (ch.toNat - 48))) = ch :: ds
    rw [Nat.mul_zero, Nat.zero_add]
    rcases hz with hz | hz
    · have hpos : 0 < ch.toNat - 48 := by
        refine Nat.pos_of_ne_zero fun h0 => hz ?_
        have h48 : ch.toNat = 48 := by omega
        rw [List.head?_cons]
        congr 1
        exact Char.ext (UInt32.toNat_inj.1 h48)
      rw [← toDigits_append (fun x hx => h x (List.mem_cons_of_mem _ hx)) hpos, hchar]
      rfl
    · have hds : ds = [] := by simpa using hz
      rw [hds, Nat.ofDigitChars_nil, hchar]

theorem countDigitsLoop_eq (n c : Nat) (h : 0 < n) :
    countDigitsLoop n c = c + (Nat.toDigits 10 n).length := by
  induction n using Nat.strongRecOn generalizing c with
  | ind n ih =>
    unfold countDigitsLoop
    rw [if_pos h, Nat.toDigits_eq_if (by decide)]
    split
    · next hlt =>
      have hz : n / 10 = 0 := Nat.div_eq_of_lt hlt
      rw [hz, countDigitsLoop, if_neg (Nat.lt_irrefl 0), List.length_singleton]
    · next hge =>
      rw [ih (n / 10) (by omega) (c + 1) (by omega), List.length_append, List.length_singleton]
      omega

theorem countDigits_eq (n : Nat) : countDigits n = (Nat.toDigits 10 n).length := by
  unfold countDigits
  split
  · next h => subst h; rfl
  · next h => rw [countDigitsLoop_eq n 0 (Nat.pos_of_ne_zero h), Nat.zero_add]

theorem le_ofDigitChars (ds : Text) (acc : Nat) : acc ≤ Nat.ofDigitChars 10 ds acc := by
  rw [Nat.ofDigitChars_eq_ofDigitChars_zero]
  have := Nat.le_mul_of_pos_left acc (Nat.pow_pos (n := ds.length) (show 0 < 10 by decide))
  omega

theorem parseUnsigned_eq (h : ∀ ch ∈ ds, ch.isDigit) (hacc : acc < 0x10000000000000000) :
    parseUnsigned ds acc =
      if Nat.ofDigitChars 10 ds acc < 0x10000000000000000 then some (Nat.ofDigitChars 10 ds acc)
      else none := by
  induction ds generalizing acc with
  | nil => rw [Nat.ofDigitChars_nil, if_pos hacc]; rfl
  | cons ch ds ih =>
    have hnext : acc * 10 + (ch.toNat - '0'.toNat) = 10 * acc + (ch.toNat - '0'.toNat) := by
      rw [Nat.mul_comm]
    rw [Nat.ofDigitChars_cons, parseUnsigned, if_pos (h ch List.mem_cons_self), hnext]
    simp only
    split
    · next hlt => exact ih (fun x hx => h x (List.mem_cons_of_mem _ hx)) hlt
    · next hge =>
      have := le_ofDigitChars ds (10 * acc + (ch.toNat - '0'.toNat))
      rw [if_neg (by omega)]

/-- `dropZeros` leaves a number without leading zeros. -/
theorem dropZeros_spec (ds : Text) (k : Nat) (hne : ds ≠ []) :
    ∃ z r, dropZeros ds k = (k + z, r) ∧ ds = List.replicate z '0' ++ r ∧ r ≠ [] ∧
      (r.head? ≠ some '0' ∨ r.length = 1) ∧ (0 < z ↔ ds.head? = some '0' ∧ 1 < ds.length) := by
  induction ds, k using dropZeros.induct with
  | case1 ch rest k ih =>
    obtain ⟨z, r, he, hds, hr, hz, -⟩ := ih (List.cons_ne_nil _ _)
    refine ⟨z + 1, r, ?_, ?_, hr, hz, by simp⟩
    · rw [dropZeros, he]
      congr 1
      omega
    · rw [hds, List.replicate_succ]
      rfl
  | case2 ds k hnot =>
    have hleft : dropZeros ds k = (k, ds) := by
      unfold dropZeros
      split
      · next ch rest => exact absurd rfl (hnot ch rest)
      · rfl
    have hz : ¬(ds.head? = some '0' ∧ 1 < ds.length) := by
      rintro ⟨h0, hlen⟩
      match ds, h0, hlen with
      | _ :: ch :: rest, h0, _ =>
        cases h0
        exact hnot ch rest rfl
    refine ⟨0, ds, hleft, rfl, hne, ?_, by simpa using hz⟩
    by_cases h0 : ds.head? = some '0'
    · right
      have hpos : 0 < ds.length := List.length_pos_of_ne_nil hne
      have hle : ¬1 < ds.length := fun hlen => hz ⟨h0, hlen⟩
      omega
    · exact .inl h0

/-- The number of a sign and digits. -/
def signed (negate : Bool) (n : Nat) : Int := if negate then -(n : Int) else n

theorem convertToNum10_digits (h : ∀ ch ∈ ds, ch.isDigit) (hne : ds ≠ []) (negate : Bool) :
    (convertToNum10 ds).bind (resolveSign · negate) =
      if int64Min ≤ signed negate (Nat.ofDigitChars 10 ds 0) ∧
        signed negate (Nat.ofDigitChars 10 ds 0) ≤ int64Max
      then some (signed negate (Nat.ofDigitChars 10 ds 0)) else none := by
  have hhead : ds.head? ≠ some '+' := by
    cases ds with
    | nil => exact absurd rfl hne
    | cons ch ds =>
      intro heq
      cases heq
      exact absurd rfl (ne_sign_of_isDigit (h _ List.mem_cons_self)).1
  simp only [convertToNum10]
  rw [if_neg hhead, if_neg hne, parseUnsigned_eq h (by decide)]
  generalize Nat.ofDigitChars 10 ds 0 = n
  unfold signed int64Min int64Max
  split
  · next hlt =>
    show resolveSign n negate = _
    unfold resolveSign int64Min
    cases negate with
    | true =>
      simp only [if_true]
      split
      · next h₁ => rw [if_pos (by omega)]; congr 1; omega
      · next h₁ =>
        split
        · next h₂ => subst h₂; rfl
        · next h₂ => rw [if_neg (by omega)]
    | false =>
      simp only [Bool.false_eq_true, if_false]
      split
      · next h₁ => rw [if_pos (by omega)]
      · next h₁ => rw [if_neg (by omega)]
  · next hge =>
    show none = _
    cases negate with
    | true => simp only [if_true]; rw [if_neg (by omega)]
    | false => simp only [Bool.false_eq_true, if_false]; rw [if_neg (by omega)]

/-- The digits counted for a number without leading zeros. -/
theorem countDigits_natAbs (h : ∀ ch ∈ ds, ch.isDigit) (hne : ds ≠ [])
    (hz : ds.head? ≠ some '0' ∨ ds.length = 1) (hv : v.natAbs = Nat.ofDigitChars 10 ds 0) :
    countDigits (if v = int64Min then int64Max.natAbs else v.natAbs) = ds.length := by
  split
  · next hmin =>
    have hlen : ds = Nat.toDigits 10 0x8000000000000000 := by
      rw [← toDigits_ofDigitChars h hne hz, ← hv, hmin]
      rfl
    rw [countDigits_eq, hlen]
    decide
  · rw [countDigits_eq, hv, toDigits_ofDigitChars h hne hz]

/-- The part of `toBraceInt` behind the sign. -/
theorem resolve_spec (h : ∀ ch ∈ ds, ch.isDigit) (hne : ds ≠ []) (negate : Bool) :
    ∃ z r, dropZeros ds 0 = (z, r) ∧ (0 < z ↔ ds.head? = some '0' ∧ 1 < ds.length) ∧
      (convertToNum10 r).bind (resolveSign · negate) =
        (if int64Min ≤ signed negate (Nat.ofDigitChars 10 ds 0) ∧
          signed negate (Nat.ofDigitChars 10 ds 0) ≤ int64Max
        then some (signed negate (Nat.ofDigitChars 10 ds 0)) else none) ∧
      ∀ v : Int, v = signed negate (Nat.ofDigitChars 10 ds 0) →
        z + countDigits (if v = int64Min then int64Max.natAbs else v.natAbs) = ds.length := by
  obtain ⟨z, r, he, hds, hr, hz, hpad⟩ := dropZeros_spec ds 0 hne
  have hrd : ∀ ch ∈ r, ch.isDigit := fun ch hch => h ch (by
    rw [hds]
    exact List.mem_append_right _ hch)
  have hval : Nat.ofDigitChars 10 ds 0 = Nat.ofDigitChars 10 r 0 := by
    rw [hds, Nat.ofDigitChars_append, Nat.ofDigitChars_replicate_zero, Nat.mul_zero]
  refine ⟨z, r, by rw [he, Nat.zero_add], hpad, ?_, ?_⟩
  · rw [hval]
    exact convertToNum10_digits hrd hr negate
  · intro v hv
    have hlen : ds.length = z + r.length := by rw [hds, List.length_append, List.length_replicate]
    rw [hlen, countDigits_natAbs hrd hr hz]
    rw [hv, hval, signed]
    cases negate <;> simp

/-- `toBraceInt` reads the number; it is padded when it has leading zeros. -/
theorem toBraceInt_spec {t : Text} (h : IntText t) :
    ((toBraceInt t).ok = true ↔ int64Min ≤ numeral t ∧ numeral t ≤ int64Max) ∧
      ((toBraceInt t).ok = true → (toBraceInt t).value = numeral t ∧
        (toBraceInt t).digits = if Padded t then width t else 0) := by
  have key : ∀ (ds : Text) (negate : Bool), ds ≠ [] → (∀ ch ∈ ds, ch.isDigit) →
      (t.head? == some '-') = negate →
      (if t.head? = some '+' || negate then t.tail else t) = ds → unsigned t = ds →
      ((toBraceInt t).ok = true ↔ int64Min ≤ numeral t ∧ numeral t ≤ int64Max) ∧
        ((toBraceInt t).ok = true → (toBraceInt t).value = numeral t ∧
          (toBraceInt t).digits = if Padded t then width t else 0) := by
    intro ds negate hne hds hneg hrest hun
    obtain ⟨z, r, he, hpad, hval, hcount⟩ := resolve_spec hds hne negate
    have hnum : numeral t = signed negate (Nat.ofDigitChars 10 ds 0) := by
      rw [numeral, hun, signed, ← hneg]
      simp only [beq_iff_eq]
    have hpadded : Padded t ↔ 0 < z := by rw [Padded, hun, hpad]
    simp only [toBraceInt, hrest, hneg, he, hval, ← hnum]
    split
    · next heq =>
      split at heq
      · cases heq
      · next hout => exact ⟨⟨fun hf => absurd hf Bool.false_ne_true, fun hin => absurd hin hout⟩,
          fun hf => absurd hf Bool.false_ne_true⟩
    · next value heq =>
      split at heq
      · next hin =>
        cases heq
        refine ⟨⟨fun _ => hin, fun _ => rfl⟩, fun _ => ⟨rfl, ?_⟩⟩
        show (if z > 0 then _ else z) = _
        split
        · next hz =>
          have := hcount _ hnum
          have hminus : (if t.head? = some '-' then 1 else 0) = if negate then 1 else 0 := by
            rw [← hneg]
            simp only [beq_iff_eq]
          rw [if_pos (hpadded.2 hz), width, if_pos (hpadded.2 hz), hun, ← this, hminus,
            Nat.add_assoc]
        · next hz =>
          rw [if_neg fun hp => hz (hpadded.1 hp)]
          omega
      · cases heq
  cases h with
  | plain hne hds =>
    have hun := unsigned_of_digits hds
    cases t with
    | nil => exact absurd rfl hne
    | cons ch ds =>
      obtain ⟨h₁, h₂⟩ := ne_sign_of_isDigit (hds ch List.mem_cons_self)
      refine key (ch :: ds) false hne hds ?_ ?_ hun
      · simpa using h₂
      · simp [h₁]
  | plus hne hds => exact key _ false hne hds rfl rfl rfl
  | minus hne hds => exact key _ true hne hds rfl rfl rfl

end

end Arsh.Brace
