import Mathlib.Data.List.Basic
import Mathlib.Data.Int.Basic
import Mathlib.Tactic.Common
import Mathlib.Algebra.Group.Nat.Defs

/-!
# Integers and their texts

`parseInteger` of `misc/num_util.hpp` and `formatInt64` of `misc/format.hpp`. A text is the list of
its bytes; the signed variant looks at one byte more than its text has, the byte `after` it. The
integer types are given by their size, the number of values they have.

`parseInteger` accepts the numerals whose value fits the type (`parseInteger_iff`), and reads what
`formatInt64` writes.
-/

namespace Arsh.NumUtil

/-! ## Machine integers -/

/-- The types of the conversions have 32 or 64 bits. -/
inductive Width where
  | w32
  | w64
  deriving DecidableEq, Repr

/-- The number of values of a type. -/
def Width.size : Width → Nat
  | .w32 => 0x100000000
  | .w64 => 0x10000000000000000

/-- The cast of an unsigned value to the signed type. -/
def toSigned (size v : Nat) : Int := if v < size / 2 then v else (v : Int) - size

/-- The cast of a signed value to the unsigned type. -/
def toUnsigned (size : Nat) (v : Int) : Nat := (v % size).toNat

def addOverflow (size x y : Nat) : Bool × Nat := (decide (size ≤ x + y), (x + y) % size)

def mulOverflow (size x y : Nat) : Bool × Nat := (decide (size ≤ x * y), x * y % size)

/-- `~v + 1`. -/
def negate (size v : Nat) : Nat := (size - v) % size

def dropSign (size : Nat) (v : Int) : Nat := negate size (toUnsigned size v)

def putSign (size v : Nat) : Int := toSigned size (negate size v)

def makeSigned (size v : Nat) (negate : Bool) : Int × Bool :=
  if negate then
    if v ≤ dropSign size (-(size / 2 : Nat)) then (putSign size v, true)
    else (toSigned size v, false)
  else if v ≤ size / 2 - 1 then (toSigned size v, true)
  else (toSigned size v, false)

/-! ## Parsing -/

inductive IntConversionStatus where
  | ok
  | illegalChar
  | illegalRadix
  | radixOverflow
  | outOfRange
  deriving DecidableEq, Repr

structure IntConversionResult (T : Type) where
  kind : IntConversionStatus
  consumedSize : Nat
  value : T
  deriving DecidableEq, Repr

/-- `parseBase`: the base and the text after the prefix. -/
def parseBase : List Nat → Nat × List Nat
  | [] => (0, [])
  | 48 :: ch :: rest =>
    if ch = 120 ∨ ch = 88 then (16, rest)
    else if ch = 111 ∨ ch = 79 then (8, rest)
    else (8, ch :: rest)
  | 48 :: [] => (8, [48])
  | text => (10, text)

def digitValue (ch : Nat) : Option Nat :=
  if 48 ≤ ch ∧ ch ≤ 57 then some (ch - 48)
  else if 97 ≤ ch ∧ ch ≤ 122 then some (10 + (ch - 97))
  else if 65 ≤ ch ∧ ch ≤ 90 then some (10 + (ch - 65))
  else none

/-- The loop of `parseInteger`: the status, the value and the text that is left. -/
def parseDigits (size radix : Nat) : List Nat → Nat → IntConversionStatus × Nat × List Nat
  | [], value => (.ok, value, [])
  | ch :: rest, value =>
    match digitValue ch with
    | none => (.illegalChar, value, ch :: rest)
    | some v =>
      if radix ≤ v then (.radixOverflow, value, ch :: rest)
      else
        match mulOverflow size value radix with
        | (true, value) => (.outOfRange, value, ch :: rest)
        | (false, value) =>
          match addOverflow size value v with
          | (true, value) => (.outOfRange, value, ch :: rest)
          | (false, value) => parseDigits size radix rest value

/-- The size of what is before `rest`, as an `unsigned int`. -/
def consumed (text rest : List Nat) : Nat := (text.length - rest.length) % Width.w32.size

/-- `parseInteger` for an unsigned type. -/
def parseUnsigned (size : Nat) (text : List Nat) (base : Nat) :
    IntConversionResult Nat × List Nat :=
  let begin := if text.head? = some 43 then text.tail else text
  let (base, begin) := if base = 0 then parseBase begin else (base, begin)
  if begin = [] then (⟨.illegalChar, consumed text begin, 0⟩, begin)
  else if base < 2 ∨ 36 < base then (⟨.illegalRadix, consumed text begin, 0⟩, begin)
  else
    let (kind, value, begin) := parseDigits size base begin 0
    (⟨kind, consumed text begin, value⟩, begin)

/-- `parseInteger` for a signed type. -/
def parseSigned (size : Nat) (text : List Nat) (after base : Nat) :
    IntConversionResult Int × List Nat :=
  let sign := decide (text.head? = some 45 ∧ text.tail.headD after ≠ 43)
  let (ret, begin) := parseUnsigned size (if sign then text.tail else text) base
  if ret.kind = .ok then
    let (value, fits) := makeSigned size ret.value sign
    (⟨if fits then .ok else .outOfRange, consumed text begin, value⟩, begin)
  else (⟨ret.kind, consumed text begin, toSigned size ret.value⟩, begin)

/-! ## Numerals -/

/-- The digits of a base. -/
def IsDigit (base ch : Nat) : Prop := ∃ v, digitValue ch = some v ∧ v < base

/-- The value of digits after others whose value is `value`. -/
def valueOf (base : Nat) (ds : List Nat) (value : Nat) : Nat :=
  ds.foldl (fun value ch => value * base + (digitValue ch).getD 0) value

/-- One or more digits. -/
structure Digits (base : Nat) (ds : List Nat) : Prop where
  ne_nil : ds ≠ []
  all : ∀ ch ∈ ds, IsDigit base ch

/-- The numerals of a base without their sign. For the base `0` a prefix gives the base. -/
inductive Numeral : Nat → List Nat → Nat → Prop
  | digits {base : Nat} {ds : List Nat} (hb : 2 ≤ base ∧ base ≤ 36) (h : Digits base ds) :
      Numeral base ds (valueOf base ds 0)
  | hex {ch : Nat} {ds : List Nat} (hc : ch = 120 ∨ ch = 88) (h : Digits 16 ds) :
      Numeral 0 (48 :: ch :: ds) (valueOf 16 ds 0)
  | octal {ch : Nat} {ds : List Nat} (hc : ch = 111 ∨ ch = 79) (h : Digits 8 ds) :
      Numeral 0 (48 :: ch :: ds) (valueOf 8 ds 0)
  | leadingZero {ds : List Nat} (h : Digits 8 ds) : Numeral 0 (48 :: ds) (valueOf 8 ds 0)
  | zero : Numeral 0 [48] 0
  | decimal {ds : List Nat} (hz : ds.head? ≠ some 48) (h : Digits 10 ds) :
      Numeral 0 ds (valueOf 10 ds 0)

/-- A numeral with or without a plus sign. -/
def UnsignedNumeral (base : Nat) (text : List Nat) (n : Nat) : Prop :=
  Numeral base text n ∨ ∃ ds, text = 43 :: ds ∧ Numeral base ds n

/-- A numeral with or without a sign. -/
def SignedNumeral (base : Nat) (text : List Nat) (z : Int) : Prop :=
  (∃ n : Nat, z = n ∧ UnsignedNumeral base text n) ∨
    ∃ (n : Nat) (ds : List Nat), z = -(n : Int) ∧ text = 45 :: ds ∧ Numeral base ds n

/-! ## The digits -/

section
variable {base size value n : Nat} {ds text : List Nat}

theorem valueOf_cons {ch v : Nat} (hv : digitValue ch = some v) :
    valueOf base (ch :: ds) value = valueOf base ds (value * base + v) := by
  rw [valueOf, List.foldl_cons, hv]
  rfl

theorem le_valueOf (hb : 0 < base) : value ≤ valueOf base ds value := by
  induction ds generalizing value with
  | nil => exact Nat.le_refl _
  | cons ch ds ih =>
    calc value ≤ value * base := Nat.le_mul_of_pos_right value hb
      _ ≤ value * base + (digitValue ch).getD 0 := Nat.le_add_right _ _
      _ ≤ valueOf base (ch :: ds) value := ih

variable (size value ds) in
/-- A digit is read, or the value does not fit any more. -/
theorem parseDigits_cons {ch v : Nat} (hv : digitValue ch = some v) (hlt : v < base) :
    (size ≤ value * base + v ∧
      (parseDigits size base (ch :: ds) value).1 = .outOfRange) ∨
    (value * base + v < size ∧
      parseDigits size base (ch :: ds) value = parseDigits size base ds (value * base + v)) := by
  rw [parseDigits, hv]
  dsimp only [mulOverflow, addOverflow]
  rw [if_neg (Nat.not_le.2 hlt)]
  by_cases hmul : size ≤ value * base
  · left
    rw [decide_eq_true hmul]
    exact ⟨by omega, rfl⟩
  rw [decide_eq_false hmul, Nat.mod_eq_of_lt (Nat.lt_of_not_le hmul)]
  by_cases hadd : size ≤ value * base + v
  · left
    dsimp only
    rw [decide_eq_true hadd]
    exact ⟨hadd, rfl⟩
  · right
    dsimp only
    rw [decide_eq_false hadd, Nat.mod_eq_of_lt (Nat.lt_of_not_le hadd)]
    exact ⟨Nat.lt_of_not_le hadd, rfl⟩

variable (size) in
/-- Digits are read to their end if their value fits. -/
theorem parseDigits_of_digits (hb : 0 < base) (h : ∀ ch ∈ ds, IsDigit base ch)
    (hv : value < size) :
    (valueOf base ds value < size →
      parseDigits size base ds value = (.ok, valueOf base ds value, [])) ∧
    (size ≤ valueOf base ds value → (parseDigits size base ds value).1 = .outOfRange) := by
  induction ds generalizing value with
  | nil => exact ⟨fun _ => rfl, fun hle => absurd hv (Nat.not_lt.2 hle)⟩
  | cons ch ds ih =>
    obtain ⟨v, hch, hlt⟩ := h ch List.mem_cons_self
    have hds : ∀ ch ∈ ds, IsDigit base ch := fun ch hm => h ch (List.mem_cons_of_mem _ hm)
    rw [valueOf_cons hch]
    rcases parseDigits_cons size value ds hch hlt with
      ⟨hle, ho⟩ | ⟨hfit, he⟩
    · have hge : size ≤ valueOf base ds (value * base + v) := Nat.le_trans hle (le_valueOf hb)
      exact ⟨fun hl => absurd hl (Nat.not_lt.2 hge), fun _ => ho⟩
    · rw [he]
      exact ih hds hfit

/-- Something else than digits is not read to its end. -/
theorem isDigit_of_parseDigits (h : (parseDigits size base ds value).1 = .ok) :
    ∀ ch ∈ ds, IsDigit base ch := by
  induction ds generalizing value with
  | nil =>
    intro ch hm
    cases hm
  | cons ch ds ih =>
    cases hch : digitValue ch with
    | none =>
      rw [parseDigits, hch] at h
      cases h
    | some v =>
      have hlt : v < base := by
        by_contra hle
        rw [parseDigits, hch] at h
        dsimp only at h
        rw [if_pos (Nat.not_lt.1 hle)] at h
        cases h
      rcases parseDigits_cons size value ds hch hlt with
        ⟨-, ho⟩ | ⟨-, he⟩
      · rw [ho] at h
        cases h
      · rw [he] at h
        intro c hm
        rcases List.mem_cons.1 hm with rfl | hm
        · exact ⟨v, hch, hlt⟩
        · exact ih h c hm

/-! ## Signs and prefixes -/

theorem IsDigit.ne_sign {ch : Nat} (h : IsDigit base ch) : ch ≠ 43 ∧ ch ≠ 45 := by
  obtain ⟨v, hv, -⟩ := h
  constructor <;> rintro rfl <;> cases hv

/-- A numeral without a sign does not begin with one. -/
theorem Numeral.head_ne (h : Numeral base text n) :
    text ≠ [] ∧ text.head? ≠ some 43 ∧ text.head? ≠ some 45 := by
  have hdigits : ∀ {b}, Digits b text →
      text ≠ [] ∧ text.head? ≠ some 43 ∧ text.head? ≠ some 45 := by
    intro b hd
    cases text with
    | nil => exact absurd rfl hd.ne_nil
    | cons ch ds =>
      have hne := (hd.all ch List.mem_cons_self).ne_sign
      refine ⟨List.cons_ne_nil _ _, ?_, ?_⟩ <;> rw [List.head?_cons, Ne, Option.some.injEq]
      · exact hne.1
      · exact hne.2
  cases h with
  | digits _ h => exact hdigits h
  | decimal _ h => exact hdigits h
  | hex | octal | leadingZero | zero => refine ⟨List.cons_ne_nil _ _, ?_, ?_⟩ <;> simp

/-- The base that is used for a text and the digits that are read. -/
def baseAndDigits (base : Nat) (text : List Nat) : Nat × List Nat :=
  if base = 0 then parseBase text else (base, text)

theorem Digits.zero_iff {ds : List Nat} : Digits 8 (48 :: ds) ↔ ∀ ch ∈ ds, IsDigit 8 ch := by
  constructor
  · intro h ch hm
    exact h.all ch (List.mem_cons_of_mem _ hm)
  · intro h
    refine ⟨List.cons_ne_nil _ _, fun ch hm => ?_⟩
    rcases List.mem_cons.1 hm with rfl | hm
    · exact ⟨0, rfl, by decide⟩
    · exact h ch hm

theorem not_isDigit_letter {ch : Nat} (hc : (ch = 120 ∨ ch = 88) ∨ ch = 111 ∨ ch = 79) :
    ¬IsDigit 8 ch := by
  rintro ⟨v, hv, hlt⟩
  rcases hc with (rfl | rfl) | rfl | rfl <;> cases hv <;> omega

theorem parseBase_of_head_ne (h : text.head? ≠ some 48) (hne : text ≠ []) :
    parseBase text = (10, text) := by
  cases text with
  | nil => exact absurd rfl hne
  | cons ch rest =>
    unfold parseBase
    split
    · next heq => cases heq
    · next heq => cases heq; exact absurd rfl h
    · next heq => cases heq; exact absurd rfl h
    · rfl

theorem parseBase_zero_cons (ch : Nat) (rest : List Nat) : parseBase (48 :: ch :: rest) =
    if ch = 120 ∨ ch = 88 then (16, rest)
    else if ch = 111 ∨ ch = 79 then (8, rest)
    else (8, ch :: rest) := rfl

/-- The numerals that begin with a zero and another character. -/
theorem numeral_zero_cons {ch : Nat} {rest : List Nat} :
    Numeral 0 (48 :: ch :: rest) n ↔
      Digits (parseBase (48 :: ch :: rest)).1 (parseBase (48 :: ch :: rest)).2 ∧
        n = valueOf (parseBase (48 :: ch :: rest)).1 (parseBase (48 :: ch :: rest)).2 0 := by
  have hcons : ∀ {b c}, Digits b (c :: rest) → IsDigit b c := fun h => h.all _ List.mem_cons_self
  rw [parseBase_zero_cons]
  by_cases hx : ch = 120 ∨ ch = 88
  · rw [if_pos hx]
    constructor
    · intro h
      cases h with
      | digits hb => omega
      | hex _ h => exact ⟨h, rfl⟩
      | octal hc => omega
      | leadingZero h => exact absurd (hcons h) (not_isDigit_letter (.inl hx))
      | decimal hz => exact absurd rfl hz
    · rintro ⟨h, rfl⟩
      exact .hex hx h
  rw [if_neg hx]
  by_cases ho : ch = 111 ∨ ch = 79
  · rw [if_pos ho]
    constructor
    · intro h
      cases h with
      | digits hb => omega
      | hex hc => exact absurd hc hx
      | octal _ h => exact ⟨h, rfl⟩
      | leadingZero h => exact absurd (hcons h) (not_isDigit_letter (.inr ho))
      | decimal hz => exact absurd rfl hz
    · rintro ⟨h, rfl⟩
      exact .octal ho h
  rw [if_neg ho]
  constructor
  · intro h
    cases h with
    | digits hb => omega
    | hex hc => exact absurd hc hx
    | octal hc => exact absurd hc ho
    | leadingZero h => exact ⟨h, rfl⟩
    | decimal hz => exact absurd rfl hz
  · rintro ⟨h, rfl⟩
    exact .leadingZero h

theorem numeral_zero : Numeral 0 [48] n ↔ Digits 8 [48] ∧ n = valueOf 8 [48] 0 := by
  constructor
  · intro h
    cases h with
    | digits hb => omega
    | leadingZero h => exact absurd rfl h.ne_nil
    | zero => exact ⟨Digits.zero_iff.2 (fun ch hm => by cases hm), rfl⟩
    | decimal hz => exact absurd rfl hz
  · rintro ⟨-, rfl⟩
    exact .zero

/-- The numerals are the texts whose digits after the prefix are digits of the base. -/
theorem numeral_iff (hb : base = 0 ∨ 2 ≤ base ∧ base ≤ 36) :
    Numeral base text n ↔ Digits (baseAndDigits base text).1 (baseAndDigits base text).2 ∧
      n = valueOf (baseAndDigits base text).1 (baseAndDigits base text).2 0 := by
  unfold baseAndDigits
  rcases hb with rfl | hb
  · rw [if_pos rfl]
    by_cases hne : text = []
    · subst hne
      exact ⟨fun h => absurd rfl h.head_ne.1, fun h => absurd rfl h.1.ne_nil⟩
    by_cases hz : text.head? = some 48
    · obtain ⟨rest, rfl⟩ := List.head?_eq_some_iff.1 hz
      cases rest with
      | nil => exact numeral_zero
      | cons ch rest => exact numeral_zero_cons
    · rw [parseBase_of_head_ne hz hne]
      constructor
      · intro h
        cases h with
        | digits hb => omega
        | hex | octal | leadingZero | zero => exact absurd rfl hz
        | decimal _ h => exact ⟨h, rfl⟩
      · rintro ⟨h, rfl⟩
        exact .decimal hz h
  · rw [if_neg (by omega)]
    constructor
    · intro h
      cases h with
      | digits _ h => exact ⟨h, rfl⟩
      | hex | octal | leadingZero | zero | decimal => omega
    · rintro ⟨h, rfl⟩
      exact .digits hb h

/-! ## What is parsed -/

/-- The text after a plus sign. -/
def stripPlus (text : List Nat) : List Nat := if text.head? = some 43 then text.tail else text

theorem unsignedNumeral_iff :
    UnsignedNumeral base text n ↔ Numeral base (stripPlus text) n := by
  unfold UnsignedNumeral stripPlus
  split
  · next h =>
    obtain ⟨ds, rfl⟩ := List.head?_eq_some_iff.1 h
    rw [List.tail_cons]
    constructor
    · rintro (hn | ⟨ds', heq, hn⟩)
      · exact absurd rfl hn.head_ne.2.1
      · cases heq
        exact hn
    · intro hn
      exact .inr ⟨ds, rfl, hn⟩
  · next h =>
    constructor
    · rintro (hn | ⟨ds, rfl, -⟩)
      · exact hn
      · exact absurd rfl h
    · exact .inl

theorem parseBase_le (h : (parseBase text).2 ≠ []) :
    2 ≤ (parseBase text).1 ∧ (parseBase text).1 ≤ 36 := by
  by_cases hz : text.head? = some 48
  · obtain ⟨rest, rfl⟩ := List.head?_eq_some_iff.1 hz
    cases rest with
    | nil => decide
    | cons ch rest =>
      rw [parseBase_zero_cons]
      split
      · exact ⟨by omega, by omega⟩
      · split <;> exact ⟨by omega, by omega⟩
  · by_cases hne : text = []
    · subst hne
      exact absurd rfl h
    · rw [parseBase_of_head_ne hz hne]
      exact ⟨by omega, by omega⟩

/-- The base of a text that has digits is one of those that are allowed. -/
theorem baseAndDigits_le (hb : base = 0 ∨ 2 ≤ base ∧ base ≤ 36)
    (h : (baseAndDigits base text).2 ≠ []) :
    2 ≤ (baseAndDigits base text).1 ∧ (baseAndDigits base text).1 ≤ 36 := by
  unfold baseAndDigits at *
  by_cases h0 : base = 0
  · rw [if_pos h0] at h ⊢
    exact parseBase_le h
  · rw [if_neg h0]
    dsimp only
    omega

variable (size) in
theorem parseUnsigned_eq (h : (baseAndDigits base (stripPlus text)).2 ≠ [])
    (hb : base = 0 ∨ 2 ≤ base ∧ base ≤ 36) :
    (parseUnsigned size text base).1.kind =
        (parseDigits size (baseAndDigits base (stripPlus text)).1
          (baseAndDigits base (stripPlus text)).2 0).1 ∧
      (parseUnsigned size text base).1.value =
        (parseDigits size (baseAndDigits base (stripPlus text)).1
          (baseAndDigits base (stripPlus text)).2 0).2.1 := by
  have hle := baseAndDigits_le hb h
  have hguard : ¬((baseAndDigits base (stripPlus text)).1 < 2 ∨
      36 < (baseAndDigits base (stripPlus text)).1) := by omega
  unfold baseAndDigits stripPlus at *
  unfold parseUnsigned
  dsimp only
  rw [if_neg h, if_neg hguard]
  exact ⟨rfl, rfl⟩

variable (size text) in
/-- An unsigned parse: the value if the text is a numeral whose value fits. -/
theorem parseUnsigned_spec (hb : base = 0 ∨ 2 ≤ base ∧ base ≤ 36) (hs : 0 < size) :
    (∀ n, UnsignedNumeral base text n →
      (n < size → (parseUnsigned size text base).1.kind = .ok ∧
        (parseUnsigned size text base).1.value = n) ∧
      (size ≤ n → (parseUnsigned size text base).1.kind = .outOfRange)) ∧
    ((parseUnsigned size text base).1.kind = .ok → ∃ n, UnsignedNumeral base text n) := by
  refine ⟨?_, ?_⟩
  · intro n hn
    rw [unsignedNumeral_iff, numeral_iff hb] at hn
    obtain ⟨hd, rfl⟩ := hn
    obtain ⟨hkind, hvalue⟩ := parseUnsigned_eq size hd.ne_nil hb
    have hpos := (baseAndDigits_le hb hd.ne_nil).1
    obtain ⟨hfit, hover⟩ := parseDigits_of_digits size (by omega) hd.all hs
    rw [hkind, hvalue]
    refine ⟨fun hlt => ?_, hover⟩
    rw [hfit hlt]
    exact ⟨rfl, rfl⟩
  · intro hok
    by_cases hne : (baseAndDigits base (stripPlus text)).2 = []
    · unfold baseAndDigits stripPlus at hne
      unfold parseUnsigned at hok
      dsimp only at hok
      rw [if_pos hne] at hok
      cases hok
    · rw [(parseUnsigned_eq size hne hb).1] at hok
      refine ⟨_, unsignedNumeral_iff.2 ((numeral_iff hb).2 ⟨⟨hne, ?_⟩, rfl⟩)⟩
      exact isDigit_of_parseDigits hok

/-! ## Signed values -/

/-- The values of the signed type. -/
def Fits (size : Nat) (z : Int) : Prop := -(size / 2 : Nat) ≤ z ∧ z < (size / 2 : Nat)

instance (size : Nat) (z : Int) : Decidable (Fits size z) := inferInstanceAs (Decidable (_ ∧ _))

theorem dropSign_min (hs : 0 < size) (he : size % 2 = 0) :
    dropSign size (-(size / 2 : Nat)) = size / 2 := by
  have hmod : (-(size / 2 : Nat) : Int) % size = ((size / 2 : Nat) : Int) := by
    have hsum : (-(size / 2 : Nat) : Int) + size = ((size / 2 : Nat) : Int) := by omega
    rw [← Int.add_emod_right, hsum, Int.emod_eq_of_lt (by omega) (by omega)]
  rw [dropSign, toUnsigned, hmod, Int.toNat_natCast, negate, Nat.mod_eq_of_lt (by omega)]
  omega

theorem putSign_eq {v : Nat} (hs : 0 < size) (he : size % 2 = 0) (hv : v ≤ size / 2) :
    putSign size v = -(v : Int) := by
  unfold putSign negate toSigned
  rcases Nat.eq_zero_or_pos v with rfl | hpos
  · rw [Nat.sub_zero, Nat.mod_self, if_pos (by omega)]
    rfl
  · rw [Nat.mod_eq_of_lt (by omega), if_neg (by omega)]
    omega

/-- `makeSigned` gives the value if the type has it. -/
theorem makeSigned_spec {v : Nat} (sign : Bool) (hs : 0 < size) (he : size % 2 = 0) :
    let z : Int := if sign then -(v : Int) else v
    (Fits size z → makeSigned size v sign = (z, true)) ∧
      (¬Fits size z → (makeSigned size v sign).2 = false) := by
  have hhalf : 1 ≤ size / 2 := by omega
  unfold makeSigned Fits
  rw [dropSign_min hs he]
  cases sign
  · simp only [Bool.false_eq_true, if_false]
    split
    · next hle =>
      refine ⟨fun _ => ?_, fun hn => absurd ⟨by omega, by omega⟩ hn⟩
      rw [toSigned, if_pos (by omega)]
    · next hle => exact ⟨fun hf => by omega, fun _ => rfl⟩
  · simp only [if_true]
    split
    · next hle =>
      refine ⟨fun _ => ?_, fun hn => absurd ⟨by omega, by omega⟩ hn⟩
      rw [putSign_eq hs he hle]
    · next hle => exact ⟨fun hf => by omega, fun _ => rfl⟩

/-- A text with a minus sign that is not followed by a plus sign is a negated number. -/
theorem signedNumeral_iff {z : Int} (after : Nat) :
    let sign := decide (text.head? = some 45 ∧ text.tail.headD after ≠ 43)
    SignedNumeral base text z ↔ ∃ n : Nat, z = (if sign then -(n : Int) else n) ∧
      UnsignedNumeral base (if sign then text.tail else text) n := by
  intro sign
  unfold SignedNumeral
  by_cases hsign : text.head? = some 45 ∧ text.tail.headD after ≠ 43
  · have hs : sign = true := decide_eq_true hsign
    obtain ⟨ds, rfl⟩ := List.head?_eq_some_iff.1 hsign.1
    simp only [hs, if_true, List.tail_cons]
    constructor
    · rintro (⟨n, -, hn⟩ | ⟨n, ds', hz, heq, hn⟩)
      · rcases hn with hn | ⟨ds', heq, -⟩
        · exact absurd rfl hn.head_ne.2.2
        · cases heq
      · cases heq
        exact ⟨n, hz, .inl hn⟩
    · rintro ⟨n, hz, hn | ⟨ds', rfl, -⟩⟩
      · exact .inr ⟨n, ds, hz, rfl, hn⟩
      · exact absurd rfl hsign.2
  · have hs : sign = false := decide_eq_false hsign
    simp only [hs, Bool.false_eq_true, if_false]
    constructor
    · rintro (⟨n, hz, hn⟩ | ⟨n, ds, -, rfl, hn⟩)
      · exact ⟨n, hz, hn⟩
      · -- after the minus sign of a numeral there is a digit
        refine absurd ⟨rfl, ?_⟩ hsign
        obtain ⟨hne, hplus, -⟩ := hn.head_ne
        cases ds with
        | nil => exact absurd rfl hne
        | cons ch ds => exact fun h => hplus (congrArg some h)
    · rintro ⟨n, hz, hn⟩
      exact .inl ⟨n, hz, hn⟩

/-- What `parseInteger` of the signed type makes of the result of the unsigned one. -/
theorem parseSigned_cases (size : Nat) (text : List Nat) (after base : Nat) :
    let sign := decide (text.head? = some 45 ∧ text.tail.headD after ≠ 43)
    let ret := (parseUnsigned size (if sign then text.tail else text) base).1
    let ret2 := (parseSigned size text after base).1
    (ret.kind = .ok → ret2.value = (makeSigned size ret.value sign).1 ∧
      ret2.kind = if (makeSigned size ret.value sign).2 then .ok else .outOfRange) ∧
    (ret.kind ≠ .ok → ret2.kind = ret.kind) := by
  intro sign ret ret2
  have hret2 : ret2 = (parseSigned size text after base).1 := rfl
  unfold parseSigned at hret2
  dsimp only at hret2
  refine ⟨fun hok => ?_, fun hne => ?_⟩
  · rw [if_pos hok] at hret2
    rw [hret2]
    exact ⟨rfl, rfl⟩
  · rw [if_neg hne] at hret2
    rw [hret2]

variable (size text) in
/-- A signed parse: the value if the text is a numeral whose value fits. -/
theorem parseSigned_spec (hb : base = 0 ∨ 2 ≤ base ∧ base ≤ 36) (hs : 0 < size)
    (he : size % 2 = 0) (after : Nat) :
    (∀ z, SignedNumeral base text z →
      (Fits size z → (parseSigned size text after base).1.kind = .ok ∧
        (parseSigned size text after base).1.value = z) ∧
      (¬Fits size z → (parseSigned size text after base).1.kind = .outOfRange)) ∧
    ((parseSigned size text after base).1.kind = .ok → ∃ z, SignedNumeral base text z) := by
  obtain ⟨hok, hfail⟩ := parseSigned_cases size text after base
  have hiff := fun z => @signedNumeral_iff base text z after
  dsimp only at hok hfail hiff
  generalize decide (text.head? = some 45 ∧ text.tail.headD after ≠ 43) = sign at hok hfail hiff
  obtain ⟨hnum, hex⟩ :=
    parseUnsigned_spec size (if sign then text.tail else text) hb hs
  refine ⟨?_, ?_⟩
  · intro z hz
    obtain ⟨n, rfl, hn⟩ := (hiff z).1 hz
    obtain ⟨hlt, hge⟩ := hnum n hn
    rcases Nat.lt_or_ge n size with hn | hn
    · obtain ⟨hkind, hvalue⟩ := hlt hn
      obtain ⟨hvalue', hkind'⟩ := hok hkind
      obtain ⟨hfits, hnot⟩ := makeSigned_spec (v := n) sign hs he
      rw [hvalue', hkind', hvalue]
      refine ⟨fun hf => ?_, fun hf => ?_⟩
      · rw [hfits hf]
        exact ⟨rfl, rfl⟩
      · rw [hnot hf]
        rfl
    · have hkind := hge hn
      have hbig : ¬Fits size (if sign then -(n : Int) else n) := by
        unfold Fits
        split <;> omega
      refine ⟨fun hf => absurd hf hbig, fun _ => ?_⟩
      rw [hfail (by rw [hkind]; decide), hkind]
  · intro h
    by_cases hkind : (parseUnsigned size (if sign then text.tail else text) base).1.kind = .ok
    · obtain ⟨n, hn⟩ := hex hkind
      exact ⟨_, (hiff _).2 ⟨n, rfl, hn⟩⟩
    · exact absurd ((hfail hkind).symm.trans h) hkind

end

/-! ## Formatting -/

/-- `"0123456789abcdefghijklmnopqrstuvwxyz"[d]`. -/
def digitChar (d : Nat) : Nat := if d < 10 then 48 + d else 97 + (d - 10)

/-- The loop of `formatInt64`, which begins with the last digit. -/
def formatLoop (base : Nat) : Nat → Nat → List Nat
  | 0, _ => []
  | fuel + 1, tmp =>
    digitChar (tmp % base) :: if tmp / base = 0 then [] else formatLoop base fuel (tmp / base)

/-- `formatInt64`: what is appended, unless the base is not allowed. -/
def formatInt64 (value : Int) (base : Nat) (sign : Bool) : Option (List Nat) :=
  if base < 2 ∨ 36 < base then none
  else
    let negate := sign && decide (value < 0)
    let tmp :=
      if negate then
        if value = -0x8000000000000000 then 0x7FFFFFFFFFFFFFFF + 1
        else toUnsigned Width.w64.size (-1 * value)
      else toUnsigned Width.w64.size value
    let out := formatLoop base 64 tmp
    some (if negate then out ++ [45] else out).reverse

theorem digitValue_digitChar {d : Nat} (h : d < 36) : digitValue (digitChar d) = some d := by
  have hall : ∀ e < 36, digitValue (digitChar e) = some e := by decide
  exact hall d h

theorem valueOf_concat {base ch v value : Nat} {ds : List Nat} (hv : digitValue ch = some v) :
    valueOf base (ds ++ [ch]) value = valueOf base ds value * base + v := by
  rw [valueOf, List.foldl_append, List.foldl_cons, List.foldl_nil, hv]
  rfl

/-- A last digit after digits of the quotient. -/
theorem digits_concat {base tmp : Nat} {ds : List Nat} (hb : 2 ≤ base ∧ base ≤ 36)
    (hds : ∀ ch ∈ ds, IsDigit base ch) (hv : valueOf base ds 0 = tmp / base) :
    Digits base (ds ++ [digitChar (tmp % base)]) ∧
      valueOf base (ds ++ [digitChar (tmp % base)]) 0 = tmp := by
  have hmod : tmp % base < base := Nat.mod_lt _ (by omega)
  have hlast := digitValue_digitChar (d := tmp % base) (by omega)
  refine ⟨⟨List.concat_ne_nil _ _, fun ch hm => ?_⟩, ?_⟩
  · rcases List.mem_append.1 hm with hm | hm
    · exact hds ch hm
    · rw [List.mem_singleton.1 hm]
      exact ⟨_, hlast, hmod⟩
  · rw [valueOf_concat hlast, hv, Nat.div_add_mod']

/-- The digits of the loop have the value that it is given. -/
theorem formatLoop_spec {base fuel tmp : Nat} (hb : 2 ≤ base ∧ base ≤ 36)
    (h : tmp < 2 ^ (fuel + 1)) :
    Digits base (formatLoop base (fuel + 1) tmp).reverse ∧
      valueOf base (formatLoop base (fuel + 1) tmp).reverse 0 = tmp := by
  have hnil {tmp : Nat} (hz : tmp / base = 0) :
      Digits base ([] ++ [digitChar (tmp % base)]) ∧
        valueOf base ([] ++ [digitChar (tmp % base)]) 0 = tmp :=
    digits_concat hb (fun ch hm => by cases hm) hz.symm
  induction fuel generalizing tmp with
  | zero =>
    have hz : tmp / base = 0 := Nat.div_eq_of_lt (by omega)
    rw [formatLoop, if_pos hz, List.reverse_cons]
    exact hnil hz
  | succ fuel ih =>
    rw [formatLoop, List.reverse_cons]
    split
    · next hz => exact hnil hz
    · have hlt : tmp / base < 2 ^ (fuel + 1) := by
        rw [Nat.div_lt_iff_lt_mul (by omega)]
        calc tmp < 2 ^ (fuel + 1) * 2 := h
          _ ≤ 2 ^ (fuel + 1) * base := Nat.mul_le_mul_left _ hb.1
      obtain ⟨hd, hv⟩ := ih hlt
      exact digits_concat hb hd.all hv

theorem Width.size_pos (w : Width) : 0 < w.size ∧ w.size % 2 = 0 := by
  cases w <;> decide

theorem formatLoop_numeral {base tmp : Nat} (hb : 2 ≤ base ∧ base ≤ 36)
    (h : tmp < Width.w64.size) : Numeral base (formatLoop base 64 tmp).reverse tmp := by
  obtain ⟨hd, hv⟩ := @formatLoop_spec base 63 tmp hb h
  have hnum := Numeral.digits hb hd
  rw [hv] at hnum
  exact hnum

theorem toUnsigned_lt {size : Nat} (hs : 0 < size) (v : Int) : toUnsigned size v < size := by
  have hnn := Int.emod_nonneg v (b := size) (by omega)
  have hlt := Int.emod_lt_of_pos v (b := size) (by omega)
  unfold toUnsigned
  omega

theorem toUnsigned_of_nonneg {size : Nat} {v : Int} (hv : 0 ≤ v) (hlt : v < size) :
    toUnsigned size v = v.toNat := by
  rw [toUnsigned, Int.emod_eq_of_lt hv hlt]

/-- The unsigned value of a signed one is cast back to it. -/
theorem toSigned_toUnsigned {size : Nat} {v : Int} (he : size % 2 = 0) (hv : Fits size v) :
    toSigned size (toUnsigned size v) = v := by
  obtain ⟨hlo, hhi⟩ := hv
  rcases Int.lt_or_le v 0 with hneg | hpos
  · have hadd : v % (size : Int) = v + size := by
      rw [← Int.add_emod_right, Int.emod_eq_of_lt (by omega) (by omega)]
    rw [toUnsigned, toSigned, hadd, if_neg (by omega)]
    omega
  · rw [toUnsigned_of_nonneg hpos (by omega), toSigned, if_pos (by omega)]
    omega

/-- The absolute value of a negative value, with the least value apart. -/
theorem magnitude_eq {value : Int} (hneg : value < 0) (hv : Fits Width.w64.size value) :
    (if value = -0x8000000000000000 then 0x7FFFFFFFFFFFFFFF + 1
      else toUnsigned Width.w64.size (-1 * value)) = value.natAbs := by
  obtain ⟨hlo, -⟩ := hv
  have hsize : Width.w64.size = 0x10000000000000000 := rfl
  rw [hsize] at hlo ⊢
  split
  · next h => rw [h]; rfl
  · rw [toUnsigned_of_nonneg (by omega) (by omega)]
    omega

/-- What `formatInt64` writes: the digits of the value, or those of the unsigned value. -/
theorem formatInt64_spec {value : Int} {base : Nat} (hb : 2 ≤ base ∧ base ≤ 36)
    (hv : Fits Width.w64.size value) :
    (∃ text, formatInt64 value base true = some text ∧ SignedNumeral base text value) ∧
      ∃ text, formatInt64 value base false = some text ∧
        UnsignedNumeral base text (toUnsigned Width.w64.size value) := by
  have hguard : ¬(base < 2 ∨ 36 < base) := by omega
  have hsize : Width.w64.size = 0x10000000000000000 := rfl
  have hlt := toUnsigned_lt (Width.size_pos .w64).1 value
  have hnum := formatLoop_numeral hb hlt
  refine ⟨?_, ?_⟩
  · unfold formatInt64
    rw [if_neg hguard, Bool.true_and]
    dsimp only
    by_cases hneg : value < 0
    · have hlo := hv.1
      rw [hsize] at hlo
      have hmag : value.natAbs < Width.w64.size := by
        rw [hsize]
        omega
      simp only [decide_eq_true hneg, if_true]
      refine ⟨_, rfl, .inr ⟨value.natAbs, _, by omega, List.reverse_append, ?_⟩⟩
      rw [magnitude_eq hneg hv]
      exact formatLoop_numeral hb hmag
    · simp only [decide_eq_false hneg, Bool.false_eq_true, if_false]
      refine ⟨_, rfl, .inl ⟨_, ?_, .inl hnum⟩⟩
      rw [toUnsigned_of_nonneg (by omega) (by have := hv.2; omega)]
      omega
  · unfold formatInt64
    rw [if_neg hguard, Bool.false_and]
    simp only [Bool.false_eq_true, if_false]
    exact ⟨_, rfl, .inl hnum⟩

/-! ## Both together -/

/-- `parseInteger` accepts exactly the numerals of a base whose value the type has, with their
value, and what `formatInt64` writes is read back. -/
theorem parseInteger_iff (w : Width) {base : Nat} (hb : base = 0 ∨ 2 ≤ base ∧ base ≤ 36) :
    (∀ text n, ((parseUnsigned w.size text base).1.kind = .ok ∧
        (parseUnsigned w.size text base).1.value = n) ↔
      UnsignedNumeral base text n ∧ n < w.size) ∧
    (∀ text n, UnsignedNumeral base text n → ¬n < w.size →
      (parseUnsigned w.size text base).1.kind = .outOfRange) ∧
    (∀ text after z, ((parseSigned w.size text after base).1.kind = .ok ∧
        (parseSigned w.size text after base).1.value = z) ↔
      SignedNumeral base text z ∧ Fits w.size z) ∧
    (∀ text after z, SignedNumeral base text z → ¬Fits w.size z →
      (parseSigned w.size text after base).1.kind = .outOfRange) ∧
    ∀ value, Fits Width.w64.size value → 2 ≤ base →
      (∃ text, formatInt64 value base true = some text ∧
        ∀ after, (parseSigned Width.w64.size text after base).1.kind = .ok ∧
          (parseSigned Width.w64.size text after base).1.value = value) ∧
      ∃ text, formatInt64 value base false = some text ∧
        (parseUnsigned Width.w64.size text base).1.kind = .ok ∧
        toSigned Width.w64.size (parseUnsigned Width.w64.size text base).1.value = value := by
  obtain ⟨hs, he⟩ := w.size_pos
  refine ⟨?_, ?_, ?_, ?_, ?_⟩
  · intro text n
    obtain ⟨hnum, hex⟩ := parseUnsigned_spec w.size text hb hs
    constructor
    · rintro ⟨hok, rfl⟩
      obtain ⟨n, hn⟩ := hex hok
      obtain ⟨hlt, hge⟩ := hnum n hn
      rcases Nat.lt_or_ge n w.size with h | h
      · rw [(hlt h).2]
        exact ⟨hn, h⟩
      · rw [hge h] at hok
        cases hok
    · rintro ⟨hn, h⟩
      exact (hnum n hn).1 h
  · intro text n hn h
    exact ((parseUnsigned_spec w.size text hb hs).1 n hn).2 (Nat.le_of_not_lt h)
  · intro text after z
    obtain ⟨hnum, hex⟩ := parseSigned_spec w.size text hb hs he after
    constructor
    · rintro ⟨hok, rfl⟩
      obtain ⟨z, hz⟩ := hex hok
      obtain ⟨hfit, hnot⟩ := hnum z hz
      by_cases h : Fits w.size z
      · rw [(hfit h).2]
        exact ⟨hz, h⟩
      · rw [hnot h] at hok
        cases hok
    · rintro ⟨hz, h⟩
      exact (hnum z hz).1 h
  · intro text after z hz h
    exact ((parseSigned_spec w.size text hb hs he after).1 z hz).2 h
  · intro value hv h2
    obtain ⟨hs, he⟩ := Width.size_pos .w64
    obtain ⟨⟨text, htext, hz⟩, text', htext', hn⟩ :=
      @formatInt64_spec value base (by omega) hv
    refine ⟨⟨text, htext, fun after => ?_⟩, text', htext', ?_⟩
    · exact ((parseSigned_spec _ text hb hs he after).1 value hz).1 hv
    · obtain ⟨hkind, hvalue⟩ := ((parseUnsigned_spec _ text' hb hs).1 _ hn).1 (toUnsigned_lt hs value)
      rw [hvalue]
      exact ⟨hkind, toSigned_toUnsigned he hv⟩

/-- `-0x80000000` is the least 32-bit integer. -/
theorem parseInteger_iff_min :
    (parseSigned Width.w32.size [45, 48, 120, 56, 48, 48, 48, 48, 48, 48, 48] 0 0).1.value
      = -0x80000000 := by
  have hd : Digits 16 [56, 48, 48, 48, 48, 48, 48, 48] := by
    refine ⟨List.cons_ne_nil _ _, fun ch hm => ?_⟩
    have hch : ch = 56 ∨ ch = 48 := by simpa using hm
    rcases hch with rfl | rfl
    · exact ⟨8, rfl, by decide⟩
    · exact ⟨0, rfl, by decide⟩
  exact (((parseInteger_iff .w32 (.inl rfl)).2.2.1 _ 0 _).2
    ⟨.inr ⟨_, _, rfl, rfl, .hex (.inl rfl) hd⟩, by decide⟩).2

end Arsh.NumUtil
