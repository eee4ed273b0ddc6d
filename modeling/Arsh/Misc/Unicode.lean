import Mathlib.Data.List.GetD
import Mathlib.Data.List.Induction
import Mathlib.Tactic.Common
import Mathlib.Tactic.Ring

/-!
# UTF-8 and WTF-8

The part of `UnicodeUtil` (`misc/unicode.hpp`) that the regex engine uses. Bytes and code
points are natural numbers; the bit operations of the source are written as arithmetic on
them (`b & 0x3F` is `b % 64`, `x << 6` is `x * 64`, `|` of disjoint bits is `+`).

`encode cs` is the text of a list of code points. `wtf8ValidateChar_append` and
`exists_of_wtf8ValidateChar` say that the texts every character of which passes
`wtf8ValidateChar` are exactly the encodings of lists of code points.
-/

namespace Arsh.UnicodeUtil

def codePointMax : Nat := 0x10FFFF

/-- `utf8ByteSize`: the size a first byte announces, `0` for a following byte. -/
def utf8ByteSize (b : Nat) : Nat :=
  if b / 8 < 16 then 1
  else if b / 8 < 24 then 0
  else if b / 8 < 28 then 2
  else if b / 8 < 30 then 3
  else if b / 8 < 31 then 4
  else 0

/-- `codePointToUtf8`: the bytes written, none for an invalid code point. -/
def codePointToUtf8 (c : Nat) : List Nat :=
  if c ≤ 0x7F then [c]
  else if c ≤ 0x7FF then [0xC0 + c / 64, 0x80 + c % 64]
  else if c ≤ 0xFFFF then [0xE0 + c / 4096, 0x80 + c / 64 % 64, 0x80 + c % 64]
  else if c ≤ 0x10FFFF then
    [0xF0 + c / 262144, 0x80 + c / 4096 % 64, 0x80 + c / 64 % 64, 0x80 + c % 64]
  else []

/-- A following byte, `(b & 0xC0) == 0x80`. -/
def isFollowing (b : Nat) : Bool := b / 64 == 2

/-- `wtf8ValidateChar` (`utf8ValidateChar` with surrogates allowed): the byte size of the first
character, `0` when it is invalid. -/
def wtf8ValidateChar : List Nat → Nat
  | [] => 0
  | b0 :: rest =>
    if b0 < 0x80 then 1
    else if b0 / 32 = 6 then
      match rest with
      | b1 :: _ => if !isFollowing b1 || b0 / 2 = 0x60 then 0 else 2
      | [] => 0
    else if b0 / 16 = 14 then
      match rest with
      | b1 :: b2 :: _ =>
        if !isFollowing b1 || !isFollowing b2 || (b0 = 0xE0 && b1 / 32 = 4) then 0 else 3
      | _ => 0
    else if b0 / 8 = 30 then
      match rest with
      | b1 :: b2 :: b3 :: _ =>
        if !isFollowing b1 || !isFollowing b2 || !isFollowing b3 || (b0 = 0xF0 && b1 / 16 = 8) ||
          (b0 = 0xF4 && 0x8F < b1) || 0xF4 < b0 then 0 else 4
      | _ => 0
    else 0

/-- The bytes of a list of code points. -/
def encode (cs : List Nat) : List Nat := cs.flatMap codePointToUtf8

/-- Every element is a code point (surrogates included). -/
def CodePoints (cs : List Nat) : Prop := ∀ c ∈ cs, c ≤ codePointMax

@[simp] theorem encode_nil : encode [] = [] := rfl

@[simp] theorem encode_cons (c : Nat) (cs : List Nat) :
    encode (c :: cs) = codePointToUtf8 c ++ encode cs := rfl

@[simp] theorem encode_append (as bs : List Nat) : encode (as ++ bs) = encode as ++ encode bs := by
  simp [encode]

theorem codePoints_nil : CodePoints [] := fun _ h => by cases h

theorem CodePoints.cons {c : Nat} {cs : List Nat} (h : CodePoints (c :: cs)) :
    c ≤ codePointMax ∧ CodePoints cs :=
  ⟨h c (by simp), fun x hx => h x (by simp [hx])⟩

theorem CodePoints.append {as bs : List Nat} (h : CodePoints (as ++ bs)) :
    CodePoints as ∧ CodePoints bs :=
  ⟨fun x hx => h x (by simp [hx]), fun x hx => h x (by simp [hx])⟩

theorem CodePoints.take {cs : List Nat} (h : CodePoints cs) (n : Nat) : CodePoints (cs.take n) :=
  fun c hc => h c (List.mem_of_mem_take hc)

theorem CodePoints.drop {cs : List Nat} (h : CodePoints cs) (n : Nat) : CodePoints (cs.drop n) :=
  fun c hc => h c (List.mem_of_mem_drop hc)

/-! ## The shape of one encoded code point -/

/-- The bytes after the first one announce no size. -/
def Following (b : Nat) : Prop := utf8ByteSize b = 0 ∧ 128 ≤ b ∧ b < 192

theorem following_add (x : Nat) : Following (128 + x % 64) := by
  refine ⟨?_, by omega, by omega⟩
  rw [utf8ByteSize, if_neg (by omega), if_pos (by omega)]

/-- The bytes of a code point: a first byte that announces their number, then following bytes. -/
theorem codePointToUtf8_shape {c : Nat} (h : c ≤ codePointMax) :
    ∃ b bs, codePointToUtf8 c = b :: bs ∧ utf8ByteSize b = bs.length + 1 ∧ b < 256 ∧
      ∀ x ∈ bs, Following x := by
  simp only [codePointMax] at h
  unfold codePointToUtf8
  split
  · exact ⟨c, [], rfl, by simp [utf8ByteSize]; omega, by omega, by simp⟩
  split
  · refine ⟨_, _, rfl, ?_, by omega, by simp [following_add]⟩
    simp only [utf8ByteSize, List.length_cons, List.length_nil]; split_ifs <;> omega
  split
  · refine ⟨_, _, rfl, ?_, by omega, by simp [following_add]⟩
    simp only [utf8ByteSize, List.length_cons, List.length_nil]; split_ifs <;> omega
  · refine ⟨_, _, rfl, ?_, by omega, by simp [following_add]⟩
    simp only [utf8ByteSize, List.length_cons, List.length_nil]; split_ifs <;> omega

/-- The bytes of a code point are its own, or no ASCII characters. -/
theorem codePointToUtf8_first {c : Nat} (h : c ≤ codePointMax) :
    ∃ b bs, codePointToUtf8 c = b :: bs ∧ (b = c ∨ 128 ≤ b) ∧ ∀ x ∈ bs, 128 ≤ x := by
  obtain ⟨b, bs, e, -, -, hbs⟩ := codePointToUtf8_shape h
  refine ⟨b, bs, e, ?_, fun x hx => (hbs x hx).2.1⟩
  unfold codePointToUtf8 at e
  split at e
  · cases e
    exact .inl rfl
  · right
    split_ifs at e <;> cases e <;> omega

theorem codePointToUtf8_length_pos {c : Nat} (h : c ≤ codePointMax) :
    0 < (codePointToUtf8 c).length := by
  obtain ⟨b, bs, e, -⟩ := codePointToUtf8_shape h
  simp [e]

/-! ## Decoding and validation -/

/-- The code point of a text's first character, from the size its first byte announces
(the arithmetic shared by `utf8ToCodePoint` and `unsafeNextUtf8`). -/
def decodeFirst (bs : List Nat) : Nat :=
  let b := fun i => bs.getD i 0
  match utf8ByteSize (b 0) with
  | 1 => b 0
  | 2 => b 0 % 32 * 64 + b 1 % 64
  | 3 => b 0 % 16 * 4096 + b 1 % 64 * 64 + b 2 % 64
  | _ => b 0 % 8 * 262144 + b 1 % 64 * 4096 + b 2 % 64 * 64 + b 3 % 64

theorem decodeFirst_append {c : Nat} (h : c ≤ codePointMax) (t : List Nat) :
    decodeFirst (codePointToUtf8 c ++ t) = c := by
  simp only [codePointMax] at h
  unfold codePointToUtf8
  split
  · have hs : utf8ByteSize c = 1 := by simp [utf8ByteSize]; omega
    simp [decodeFirst, hs]
  split
  · have hs : utf8ByteSize (192 + c / 64) = 2 := by
      simp only [utf8ByteSize]; split_ifs <;> omega
    simp [decodeFirst, hs]; omega
  split
  · have hs : utf8ByteSize (224 + c / 4096) = 3 := by
      simp only [utf8ByteSize]; split_ifs <;> omega
    simp [decodeFirst, hs]; omega
  · have hs : utf8ByteSize (240 + c / 262144) = 4 := by
      simp only [utf8ByteSize]; split_ifs <;> omega
    simp [decodeFirst, hs]; omega

/-- UTF-8 is a prefix code: the first character of a text is determined. -/
theorem codePointToUtf8_append_inj {c d : Nat} (hc : c ≤ codePointMax) (hd : d ≤ codePointMax)
    {s t : List Nat} (h : codePointToUtf8 c ++ s = codePointToUtf8 d ++ t) : c = d ∧ s = t := by
  have e : c = d := by
    rw [← decodeFirst_append hc s, h, decodeFirst_append hd t]
  subst e
  exact ⟨rfl, List.append_cancel_left h⟩

theorem encode_prefix_iff {xs ys : List Nat} (hx : CodePoints xs) (hy : CodePoints ys) :
    encode xs <+: encode ys ↔ xs <+: ys := by
  constructor
  · intro h
    induction xs generalizing ys with
    | nil => exact List.nil_prefix
    | cons x xs ih =>
      obtain ⟨t, ht⟩ := h
      cases ys with
      | nil =>
        have := codePointToUtf8_length_pos hx.cons.1
        have hlen := congrArg List.length ht
        simp only [encode_cons, encode_nil, List.length_append, List.length_nil] at hlen
        omega
      | cons y ys =>
        rw [encode_cons, encode_cons, List.append_assoc] at ht
        obtain ⟨rfl, ht'⟩ := codePointToUtf8_append_inj hx.cons.1 hy.cons.1 ht
        exact List.cons_prefix_cons.2 ⟨rfl, ih hx.cons.2 hy.cons.2 ⟨t, ht'⟩⟩
  · rintro ⟨zs, rfl⟩
    exact ⟨encode zs, (encode_append xs zs).symm⟩

theorem encode_inj {xs ys : List Nat} (hx : CodePoints xs) (hy : CodePoints ys)
    (h : encode xs = encode ys) : xs = ys := by
  have h₁ : xs <+: ys := (encode_prefix_iff hx hy).1 (h ▸ List.prefix_rfl)
  have h₂ : ys <+: xs := (encode_prefix_iff hy hx).1 (h ▸ List.prefix_rfl)
  exact h₁.eq_of_length (Nat.le_antisymm h₁.length_le h₂.length_le)

@[simp] theorem isFollowing_add (x : Nat) : isFollowing (128 + x % 64) = true := by
  simp [isFollowing]; omega

theorem wtf8ValidateChar_append {c : Nat} (h : c ≤ codePointMax) (t : List Nat) :
    wtf8ValidateChar (codePointToUtf8 c ++ t) = (codePointToUtf8 c).length := by
  simp only [codePointMax] at h
  unfold codePointToUtf8
  split
  · simp [wtf8ValidateChar]; omega
  split
  · simp [wtf8ValidateChar]
    rw [if_neg (by omega), if_pos (by omega), if_neg (by omega)]
  split
  · simp [wtf8ValidateChar]
    rw [if_neg (by omega), if_neg (by omega), if_pos (by omega), if_neg (by omega)]
  · simp [wtf8ValidateChar]
    rw [if_neg (by omega), if_neg (by omega), if_neg (by omega), if_pos (by omega),
      if_neg (by omega)]

/-- What passes `wtf8ValidateChar` begins with an encoded code point. -/
theorem exists_of_wtf8ValidateChar {bs : List Nat} (h : wtf8ValidateChar bs ≠ 0) :
    ∃ c t, c ≤ codePointMax ∧ bs = codePointToUtf8 c ++ t := by
  simp only [codePointMax]
  rcases bs with _ | ⟨b0, rest⟩
  · simp [wtf8ValidateChar] at h
  by_cases h1 : b0 < 0x80
  · exact ⟨b0, rest, by omega, by rw [codePointToUtf8, if_pos (by omega)]; rfl⟩
  by_cases h2 : b0 / 32 = 6
  · rcases rest with _ | ⟨b1, rest⟩
    · simp [wtf8ValidateChar, h1, h2] at h
    have hv : b1 / 64 = 2 ∧ b0 / 2 ≠ 96 := by
      by_contra hc
      simp [wtf8ValidateChar, h1, h2, isFollowing] at h; omega
    refine ⟨b0 % 32 * 64 + b1 % 64, rest, by omega, ?_⟩
    rw [codePointToUtf8, if_neg (by omega), if_pos (by omega)]
    simp only [List.cons_append, List.nil_append, List.cons.injEq, and_true]; omega
  by_cases h3 : b0 / 16 = 14
  · rcases rest with _ | ⟨b1, _ | ⟨b2, rest⟩⟩
    · simp [wtf8ValidateChar, h1, h2, h3] at h
    · simp [wtf8ValidateChar, h1, h2, h3] at h
    have hv : b1 / 64 = 2 ∧ b2 / 64 = 2 ∧ ¬ (b0 = 224 ∧ b1 / 32 = 4) := by
      by_contra hc
      simp [wtf8ValidateChar, h1, h2, h3, isFollowing] at h; omega
    refine ⟨b0 % 16 * 4096 + b1 % 64 * 64 + b2 % 64, rest, by omega, ?_⟩
    rw [codePointToUtf8, if_neg (by omega), if_neg (by omega), if_pos (by omega)]
    simp only [List.cons_append, List.nil_append, List.cons.injEq, and_true]; omega
  by_cases h4 : b0 / 8 = 30
  · rcases rest with _ | ⟨b1, _ | ⟨b2, _ | ⟨b3, rest⟩⟩⟩
    · simp [wtf8ValidateChar, h1, h2, h3, h4] at h
    · simp [wtf8ValidateChar, h1, h2, h3, h4] at h
    · simp [wtf8ValidateChar, h1, h2, h3, h4] at h
    have hv : b1 / 64 = 2 ∧ b2 / 64 = 2 ∧ b3 / 64 = 2 ∧ ¬ (b0 = 240 ∧ b1 / 16 = 8) ∧
        ¬ (b0 = 244 ∧ 143 < b1) ∧ ¬ 244 < b0 := by
      by_contra hc
      simp [wtf8ValidateChar, h1, h2, h3, h4, isFollowing] at h; omega
    refine ⟨b0 % 8 * 262144 + b1 % 64 * 4096 + b2 % 64 * 64 + b3 % 64, rest, by omega, ?_⟩
    rw [codePointToUtf8, if_neg (by omega), if_neg (by omega), if_neg (by omega),
      if_pos (by omega)]
    simp only [List.cons_append, List.nil_append, List.cons.injEq, and_true]; omega
  · simp [wtf8ValidateChar, h1, h2, h3, h4] at h

/-! ## UTF-8 -/

/-- `utf8ValidateChar` with `allowSurrogate` off: surrogates are refused as well. -/
def utf8ValidateChar (bs : List Nat) : Nat :=
  if bs.getD 0 0 = 0xED ∧ bs.getD 1 0 / 32 = 5 then 0 else wtf8ValidateChar bs

/-- `utf8ToCodePoint`: the byte size and the code point, `none` for `-1`. -/
def utf8ToCodePoint (bs : List Nat) : Nat × Option Nat :=
  let size := utf8ValidateChar bs
  (size, if size = 0 then none else some (decodeFirst bs))

end Arsh.UnicodeUtil
