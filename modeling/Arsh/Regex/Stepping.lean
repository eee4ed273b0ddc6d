import Arsh.Lib.Bits
import Arsh.Regex.Input

/-!
# Stepping over a text

`unsafeNextUtf8` and `unsafePrevUtf8` of `regex/input.h` and `wtf8ToCodePoint` of
`misc/unicode.hpp` with their bit operations, where a read outside the text gives `none`. On an
accepted text the three walk over the same characters (`walks_agree`).
-/

namespace Arsh.Regex

open UnicodeUtil

namespace Stepping

/-! ## The source -/

def bits2 (b0 b1 : Nat) : Nat := ((b0 &&& 0x1F) <<< 6) ||| (b1 &&& 0x3F)

def bits3 (b0 b1 b2 : Nat) : Nat :=
  ((b0 &&& 0x0F) <<< 12) ||| ((b1 &&& 0x3F) <<< 6) ||| (b2 &&& 0x3F)

def bits4 (b0 b1 b2 b3 : Nat) : Nat :=
  ((b0 &&& 0x07) <<< 18) ||| ((b1 &&& 0x3F) <<< 12) ||| ((b2 &&& 0x3F) <<< 6) ||| (b3 &&& 0x3F)

/-- The code point at `i` and the position behind it. -/
def unsafeNextUtf8 (bs : List Nat) (i : Nat) : Option (Nat × Nat) :=
  (bs[i]?).bind fun b =>
    if b < 128 then some (b, i + 1)
    else
      match utf8ByteSize b with
      | 2 => (bs[i + 1]?).map fun b1 => (bits2 b b1, i + 2)
      | 3 => (bs[i + 1]?).bind fun b1 => (bs[i + 2]?).map fun b2 => (bits3 b b1 b2, i + 3)
      | len =>
        (bs[i + 1]?).bind fun b1 => (bs[i + 2]?).bind fun b2 => (bs[i + 3]?).map fun b3 =>
          (bits4 b b1 b2 b3, i + len)

def masks : List Nat := [0xFF, 0x1F, 0x0F, 0x07]

/-- The loop of `unsafePrevUtf8`. -/
def prevLoop (bs : List Nat) : Nat → Nat → Nat → Option (Nat × Nat)
  | 0, _, _ => none
  | i + 1, codePoint, shift =>
    (bs[i]?).bind fun b =>
      match utf8ByteSize b with
      | 0 => prevLoop bs i (codePoint ||| ((b &&& 0x3F) <<< shift)) (shift + 6)
      | len + 1 => (masks[len]?).map fun mask => (codePoint ||| ((b &&& mask) <<< shift), i)

/-- The code point before `i` and its position. -/
def unsafePrevUtf8 (bs : List Nat) (i : Nat) : Option (Nat × Nat) := prevLoop bs i 0 0

/-- The code point of the first character and its size. -/
def wtf8ToCodePoint (bs : List Nat) : Option (Nat × Nat) :=
  match wtf8ValidateChar bs, bs with
  | 1, b0 :: _ => some (b0, 1)
  | 2, b0 :: b1 :: _ => some (bits2 b0 b1, 2)
  | 3, b0 :: b1 :: b2 :: _ => some (bits3 b0 b1 b2, 3)
  | 4, b0 :: b1 :: b2 :: b3 :: _ => some (bits4 b0 b1 b2 b3, 4)
  | _, _ => none

/-! ## Walks -/

/-- The positions and code points from `i` on to the end, in `n` steps at most. -/
def forward (next : Nat → Option (Nat × Nat)) (size : Nat) : Nat → Nat → Option (List (Nat × Nat))
  | n, i =>
    if i = size then some []
    else
      match n with
      | 0 => none
      | n + 1 => (next i).bind fun (codePoint, j) =>
        (forward next size n j).map ((i, codePoint) :: ·)

/-- The positions and code points from before `i` to the start, in `n` steps at most. -/
def backward (prev : Nat → Option (Nat × Nat)) : Nat → Nat → Option (List (Nat × Nat))
  | n, i =>
    if i = 0 then some []
    else
      match n with
      | 0 => none
      | n + 1 => (prev i).bind fun (codePoint, j) =>
        (backward prev n j).map ((j, codePoint) :: ·)

/-- A step of the checked decoder. -/
def checkedNext (bs : List Nat) (i : Nat) : Option (Nat × Nat) :=
  (wtf8ToCodePoint (bs.drop i)).map fun (codePoint, size) => (codePoint, i + size)

/-! ## Bits -/

section
variable {b b0 b1 b2 b3 c i k n x y : Nat} {bs cs pre post l : List Nat}

theorem and_63 : x &&& 0x3F = x % 64 := Nat.and_two_pow_sub_one_eq_mod x 6

theorem bits2_eq : bits2 b0 b1 = b0 % 32 * 64 + b1 % 64 := by
  have h0 : b0 &&& 0x1F = b0 % 32 := Nat.and_two_pow_sub_one_eq_mod b0 5
  have h1 : b1 % 64 < 2 ^ 6 := Nat.mod_lt _ (by decide)
  rw [bits2, h0, and_63, Nat.or_comm, or_shift h1]
  omega

theorem bits3_eq : bits3 b0 b1 b2 = b0 % 16 * 4096 + b1 % 64 * 64 + b2 % 64 := by
  have h0 : b0 &&& 0x0F = b0 % 16 := Nat.and_two_pow_sub_one_eq_mod b0 4
  have h1 : b2 % 64 < 2 ^ 6 := Nat.mod_lt _ (by decide)
  have h2 : b2 % 64 + b1 % 64 * 2 ^ 6 < 2 ^ 12 := by omega
  rw [bits3, h0, and_63, and_63, Nat.or_comm, Nat.or_comm (_ <<< 12), ← Nat.or_assoc,
    or_shift h1, or_shift h2]
  omega

theorem bits4_eq : bits4 b0 b1 b2 b3 =
    b0 % 8 * 262144 + b1 % 64 * 4096 + b2 % 64 * 64 + b3 % 64 := by
  have h0 : b0 &&& 0x07 = b0 % 8 := Nat.and_two_pow_sub_one_eq_mod b0 3
  have h1 : b3 % 64 < 2 ^ 6 := Nat.mod_lt _ (by decide)
  have h2 : b3 % 64 + b2 % 64 * 2 ^ 6 < 2 ^ 12 := by omega
  have h3 : b3 % 64 + b2 % 64 * 2 ^ 6 + b1 % 64 * 2 ^ 12 < 2 ^ 18 := by omega
  rw [bits4, h0, and_63, and_63, and_63, Nat.or_comm, Nat.or_comm _ (_ <<< 6), ← Nat.or_assoc,
    Nat.or_comm (_ <<< 18), ← Nat.or_assoc, or_shift h1, or_shift h2, or_shift h3]
  omega

/-- The forms of a character of one byte to four bytes. -/
theorem encoding_cases (hc : c ≤ codePointMax) :
    (c < 128 ∧ codePointToUtf8 c = [c]) ∨
    (∃ b0 b1, codePointToUtf8 c = [b0, b1] ∧ utf8ByteSize b0 = 2 ∧ Following b1 ∧
      bits2 b0 b1 = c) ∨
    (∃ b0 b1 b2, codePointToUtf8 c = [b0, b1, b2] ∧ utf8ByteSize b0 = 3 ∧ Following b1 ∧
      Following b2 ∧ bits3 b0 b1 b2 = c) ∨
    ∃ b0 b1 b2 b3, codePointToUtf8 c = [b0, b1, b2, b3] ∧ utf8ByteSize b0 = 4 ∧ Following b1 ∧
      Following b2 ∧ Following b3 ∧ bits4 b0 b1 b2 b3 = c := by
  simp only [codePointMax] at hc
  unfold codePointToUtf8
  split
  · exact .inl ⟨by omega, rfl⟩
  split
  · refine .inr (.inl ⟨_, _, rfl, ?_, following_add _, ?_⟩)
    · simp only [utf8ByteSize]
      split_ifs <;> omega
    · rw [bits2_eq]
      omega
  split
  · refine .inr (.inr (.inl ⟨_, _, _, rfl, ?_, following_add _, following_add _, ?_⟩))
    · simp only [utf8ByteSize]
      split_ifs <;> omega
    · rw [bits3_eq]
      omega
  · refine .inr (.inr (.inr ⟨_, _, _, _, rfl, ?_, following_add _, following_add _,
      following_add _, ?_⟩))
    · simp only [utf8ByteSize]
      split_ifs <;> omega
    · rw [bits4_eq]
      omega

theorem not_lt_128 (h : utf8ByteSize b ≠ 1) : ¬ b < 128 := by
  intro hb
  exact h (by rw [utf8ByteSize, if_pos (by omega)])

/-! ## Steps -/

theorem getElem?_at (h : l[k]? = some b) : (pre ++ (l ++ post))[pre.length + k]? = some b := by
  obtain ⟨hk, -⟩ := List.getElem?_eq_some_iff.1 h
  rw [List.getElem?_append_right (Nat.le_add_right ..), Nat.add_sub_cancel_left,
    List.getElem?_append_left hk, h]

theorem next_spec (hc : c ≤ codePointMax) :
    unsafeNextUtf8 (pre ++ (codePointToUtf8 c ++ post)) pre.length =
      some (c, pre.length + (codePointToUtf8 c).length) := by
  have hat : ∀ k b, (codePointToUtf8 c)[k]? = some b →
      (pre ++ (codePointToUtf8 c ++ post))[pre.length + k]? = some b := fun k b => getElem?_at
  have hat0 : ∀ b, (codePointToUtf8 c)[0]? = some b →
      (pre ++ (codePointToUtf8 c ++ post))[pre.length]? = some b := hat 0
  rcases encoding_cases hc with ⟨hlt, e⟩ | ⟨b0, b1, e, hsize, -, heq⟩ |
    ⟨b0, b1, b2, e, hsize, -, -, heq⟩ | ⟨b0, b1, b2, b3, e, hsize, -, -, -, heq⟩
  · rw [e] at hat hat0 ⊢
    rw [unsafeNextUtf8, hat0 c rfl, Option.bind_some, if_pos hlt]
    rfl
  · rw [e] at hat hat0 ⊢
    rw [unsafeNextUtf8, hat0 b0 rfl, Option.bind_some, if_neg (not_lt_128 (by omega)), hsize]
    rw [hat 1 b1 rfl, ← heq]
    rfl
  · rw [e] at hat hat0 ⊢
    rw [unsafeNextUtf8, hat0 b0 rfl, Option.bind_some, if_neg (not_lt_128 (by omega)), hsize]
    rw [hat 1 b1 rfl, hat 2 b2 rfl, ← heq]
    rfl
  · rw [e] at hat hat0 ⊢
    rw [unsafeNextUtf8, hat0 b0 rfl, Option.bind_some, if_neg (not_lt_128 (by omega)), hsize]
    rw [hat 1 b1 rfl, hat 2 b2 rfl, hat 3 b3 rfl, ← heq]
    rfl

theorem wtf8ToCodePoint_spec (hc : c ≤ codePointMax) :
    wtf8ToCodePoint (codePointToUtf8 c ++ post) = some (c, (codePointToUtf8 c).length) := by
  have hsize := wtf8ValidateChar_append hc post
  rcases encoding_cases hc with ⟨-, e⟩ | ⟨b0, b1, e, -, -, heq⟩ |
    ⟨b0, b1, b2, e, -, -, -, heq⟩ | ⟨b0, b1, b2, b3, e, -, -, -, -, heq⟩
  · rw [e] at hsize ⊢
    unfold wtf8ToCodePoint
    rw [hsize]
    rfl
  · rw [e] at hsize ⊢
    unfold wtf8ToCodePoint
    rw [hsize, ← heq]
    rfl
  · rw [e] at hsize ⊢
    unfold wtf8ToCodePoint
    rw [hsize, ← heq]
    rfl
  · rw [e] at hsize ⊢
    unfold wtf8ToCodePoint
    rw [hsize, ← heq]
    rfl

theorem checkedNext_spec (hc : c ≤ codePointMax) :
    checkedNext (pre ++ (codePointToUtf8 c ++ post)) pre.length =
      some (c, pre.length + (codePointToUtf8 c).length) := by
  rw [checkedNext, List.drop_left, wtf8ToCodePoint_spec hc]
  rfl

/-- The loop goes on over a following byte. -/
theorem prevLoop_following (h : bs[i]? = some b) (hb : Following b) (hx : x < 2 ^ k) :
    prevLoop bs (i + 1) x k = prevLoop bs i (x + b % 64 * 2 ^ k) (k + 6) := by
  rw [prevLoop, h, Option.bind_some, hb.1]
  dsimp only
  rw [and_63, or_shift hx]

/-- The loop ends at the first byte. -/
theorem prevLoop_first {mask : Nat} (h : bs[i]? = some b) (hb : utf8ByteSize b = n + 1)
    (hn : masks[n]? = some mask) (hx : x < 2 ^ k) :
    prevLoop bs (i + 1) x k = some (x + (b &&& mask) * 2 ^ k, i) := by
  rw [prevLoop, h, Option.bind_some, hb]
  dsimp only
  rw [hn, Option.map_some, or_shift hx]

theorem prev_spec (hc : c ≤ codePointMax) :
    unsafePrevUtf8 (pre ++ (codePointToUtf8 c ++ post)) (pre.length + (codePointToUtf8 c).length) =
      some (c, pre.length) := by
  have hat : ∀ k b, (codePointToUtf8 c)[k]? = some b →
      (pre ++ (codePointToUtf8 c ++ post))[pre.length + k]? = some b := fun k b => getElem?_at
  have hat0 : ∀ b, (codePointToUtf8 c)[0]? = some b →
      (pre ++ (codePointToUtf8 c ++ post))[pre.length]? = some b := hat 0
  rcases encoding_cases hc with ⟨hlt, e⟩ | ⟨b0, b1, e, hsize, h1, heq⟩ |
    ⟨b0, b1, b2, e, hsize, h1, h2, heq⟩ | ⟨b0, b1, b2, b3, e, hsize, h1, h2, h3, heq⟩
  · rw [e] at hat0 ⊢
    have hsize : utf8ByteSize c = 0 + 1 := by rw [utf8ByteSize, if_pos (by omega)]
    have hmask : c &&& 0xFF = c % 256 := Nat.and_two_pow_sub_one_eq_mod c 8
    refine (prevLoop_first (hat0 c rfl) hsize rfl (by decide)).trans ?_
    rw [hmask, Nat.mod_eq_of_lt (by omega), Nat.zero_add, Nat.pow_zero, Nat.mul_one]
  · rw [e] at hat hat0 ⊢
    have hmask : b0 &&& 0x1F = b0 % 32 := Nat.and_two_pow_sub_one_eq_mod b0 5
    rw [bits2_eq] at heq
    refine (prevLoop_following (hat 1 b1 rfl) h1 (by decide)).trans ?_
    rw [prevLoop_first (hat0 b0 rfl) hsize rfl (by omega), hmask, ← heq]
    exact congrArg (fun c => some (c, pre.length)) (by omega)
  · rw [e] at hat hat0 ⊢
    have hmask : b0 &&& 0x0F = b0 % 16 := Nat.and_two_pow_sub_one_eq_mod b0 4
    rw [bits3_eq] at heq
    refine (prevLoop_following (hat 2 b2 rfl) h2 (by decide)).trans ?_
    rw [prevLoop_following (hat 1 b1 rfl) h1 (by omega),
      prevLoop_first (hat0 b0 rfl) hsize rfl (by omega), hmask, ← heq]
    exact congrArg (fun c => some (c, pre.length)) (by omega)
  · rw [e] at hat hat0 ⊢
    have hmask : b0 &&& 0x07 = b0 % 8 := Nat.and_two_pow_sub_one_eq_mod b0 3
    rw [bits4_eq] at heq
    refine (prevLoop_following (hat 3 b3 rfl) h3 (by decide)).trans ?_
    rw [prevLoop_following (hat 2 b2 rfl) h2 (by omega),
      prevLoop_following (hat 1 b1 rfl) h1 (by omega),
      prevLoop_first (hat0 b0 rfl) hsize rfl (by omega), hmask, ← heq]
    exact congrArg (fun c => some (c, pre.length)) (by omega)

/-- What the regex engine does with the text (without the check of its reads) is the same. -/
theorem unsafeNextUtf8_of_some {r : Nat × Nat} (h : unsafeNextUtf8 bs i = some r) :
    Regex.unsafeNextUtf8 bs i = r := by
  have hget : ∀ {k b}, bs[k]? = some b → bs.getD k 0 = b := fun h => by
    rw [List.getD_eq_getElem?_getD, h]
    rfl
  unfold unsafeNextUtf8 at h
  obtain ⟨b, hb, h⟩ := Option.bind_eq_some_iff.1 h
  rw [Regex.unsafeNextUtf8, hget hb]
  split at h
  · next hlt =>
    cases h
    rw [if_pos hlt]
  · next hlt =>
    rw [if_neg hlt]
    split at h
    · next hsize =>
      obtain ⟨b1, hb1, rfl⟩ := Option.map_eq_some_iff.1 h
      rw [hsize, hget hb1, bits2_eq]
      rfl
    · next hsize =>
      obtain ⟨b1, hb1, h⟩ := Option.bind_eq_some_iff.1 h
      obtain ⟨b2, hb2, rfl⟩ := Option.map_eq_some_iff.1 h
      rw [hsize, hget hb1, hget hb2, bits3_eq]
      rfl
    · next h2 h3 =>
      obtain ⟨b1, hb1, h⟩ := Option.bind_eq_some_iff.1 h
      obtain ⟨b2, hb2, h⟩ := Option.bind_eq_some_iff.1 h
      obtain ⟨b3, hb3, rfl⟩ := Option.map_eq_some_iff.1 h
      rw [hget hb1, hget hb2, hget hb3, bits4_eq]
      dsimp only
      rw [if_neg h2, if_neg h3]

theorem and_mask {mask : Nat} (h : masks[n]? = some mask) :
    b &&& mask = b % firstByteMask (n + 1) := by
  match n with
  | 0 => cases h; exact Nat.and_two_pow_sub_one_eq_mod b 8
  | 1 => cases h; exact Nat.and_two_pow_sub_one_eq_mod b 5
  | 2 => cases h; exact Nat.and_two_pow_sub_one_eq_mod b 4
  | 3 => cases h; exact Nat.and_two_pow_sub_one_eq_mod b 3
  | n + 4 => cases h

theorem prevLoop_of_some {r : Nat × Nat} (hx : x < 2 ^ k) (h : prevLoop bs i x k = some r) :
    Regex.prevLoop bs i x k = r := by
  induction i generalizing x k with
  | zero => cases h
  | succ i ih =>
    rw [prevLoop] at h
    obtain ⟨b, hb, h⟩ := Option.bind_eq_some_iff.1 h
    have hget : bs.getD i 0 = b := by
      rw [List.getD_eq_getElem?_getD, hb]
      rfl
    rw [Regex.prevLoop, hget]
    cases hsize : utf8ByteSize b with
    | zero =>
      rw [hsize] at h
      dsimp only at h ⊢
      rw [and_63, or_shift hx] at h
      refine ih ?_ h
      have hlt : b % 64 * 2 ^ k ≤ 63 * 2 ^ k := Nat.mul_le_mul_right _ (by omega)
      rw [Nat.pow_add]
      omega
    | succ n =>
      rw [hsize] at h
      obtain ⟨mask, hmask, rfl⟩ := Option.map_eq_some_iff.1 h
      dsimp only
      rw [or_shift hx, and_mask hmask]

theorem unsafePrevUtf8_of_some {r : Nat × Nat} (h : unsafePrevUtf8 bs i = some r) :
    Regex.unsafePrevUtf8 bs i = r := prevLoop_of_some (by decide) h

/-! ## Runs -/

/-- The characters of a text by their positions, the first one at `i`. -/
def places : Nat → List Nat → List (Nat × Nat)
  | _, [] => []
  | i, c :: cs => (i, c) :: places (i + (codePointToUtf8 c).length) cs

theorem places_concat : places i (cs ++ [c]) = places i cs ++ [(i + (encode cs).length, c)] := by
  induction cs generalizing i with
  | nil => rfl
  | cons d cs ih =>
    rw [List.cons_append, places, places, ih, encode_cons, List.length_append, Nat.add_assoc]
    rfl

theorem places_flatMap : (places i cs).flatMap (fun p => codePointToUtf8 p.2) = encode cs := by
  induction cs generalizing i with
  | nil => rfl
  | cons c cs ih => rw [places, List.flatMap_cons, ih, encode_cons]

/-- The bytes at a place are those of its character. -/
theorem prefix_of_mem_places {p : Nat × Nat} (h : p ∈ places pre.length cs) :
    codePointToUtf8 p.2 <+: (pre ++ encode cs).drop p.1 := by
  induction cs generalizing pre with
  | nil => cases h
  | cons c cs ih =>
    rw [encode_cons]
    rcases List.mem_cons.1 h with rfl | h
    · rw [List.drop_left]
      exact List.prefix_append ..
    · rw [← List.append_assoc]
      exact ih (by rwa [List.length_append])

/-- A step over every character goes forward through the text. -/
theorem forward_spec {next : List Nat → Nat → Option (Nat × Nat)}
    (hnext : ∀ {c pre post}, c ≤ codePointMax →
      next (pre ++ (codePointToUtf8 c ++ post)) pre.length =
        some (c, pre.length + (codePointToUtf8 c).length))
    (hcs : CodePoints cs) (hn : (encode cs).length ≤ n) :
    forward (next (pre ++ encode cs)) (pre ++ encode cs).length n pre.length =
      some (places pre.length cs) := by
  induction cs generalizing pre n with
  | nil =>
    rw [encode_nil, List.append_nil]
    unfold forward
    rw [if_pos rfl]
    rfl
  | cons c cs ih =>
    have hpos := codePointToUtf8_length_pos hcs.cons.1
    rw [encode_cons, List.length_append] at hn
    obtain ⟨n, rfl⟩ : ∃ m, n = m + 1 := ⟨n - 1, by omega⟩
    have hrest := @ih n (pre ++ codePointToUtf8 c) hcs.cons.2 (by omega)
    rw [List.append_assoc, List.length_append, List.length_append] at hrest
    rw [encode_cons, forward, if_neg (by simp only [List.length_append]; omega),
      hnext hcs.cons.1, Option.bind_some]
    simp only [List.length_append] at hrest ⊢
    rw [hrest]
    rfl

/-- The steps back go through the characters from the last one on. -/
theorem backward_spec (hcs : CodePoints cs) (hn : (encode cs).length ≤ n) :
    backward (unsafePrevUtf8 (encode cs ++ post)) n (encode cs).length =
      some (places 0 cs).reverse := by
  induction cs using List.reverseRecOn generalizing post n with
  | nil =>
    unfold backward
    rfl
  | append_singleton cs c ih =>
    have hc := hcs.append.2.cons.1
    have hpos := codePointToUtf8_length_pos hc
    have heq : encode (cs ++ [c]) = encode cs ++ codePointToUtf8 c := by
      rw [encode_append, encode_cons, encode_nil, List.append_nil]
    rw [heq, List.length_append] at hn ⊢
    obtain ⟨n, rfl⟩ : ∃ m, n = m + 1 := ⟨n - 1, by omega⟩
    rw [backward, if_neg (by omega), List.append_assoc, prev_spec hc, Option.bind_some]
    dsimp only
    rw [ih hcs.append.1 (by omega), places_concat, List.reverse_append, Nat.zero_add]
    rfl

/-- On an accepted text no step leaves the text: the unchecked steps forward see the characters that
the checked decoder sees, the steps back see them in the reverse order, and the characters encode
the text. -/
theorem walks_agree {text : List Nat} {offset : Nat} {input : Input}
    (h : Input.create text offset = .ok input) : ∃ walk,
      forward (unsafeNextUtf8 text) text.length text.length 0 = some walk ∧
      forward (checkedNext text) text.length text.length 0 = some walk ∧
      backward (unsafePrevUtf8 text) text.length text.length = some walk.reverse ∧
      (∀ p ∈ walk, codePointToUtf8 p.2 <+: text.drop p.1) ∧
      walk.flatMap (fun p => codePointToUtf8 p.2) = text := by
  obtain ⟨cs, hcs, rfl, -⟩ := Input.create_ok h
  have hback := @backward_spec _ cs [] hcs (Nat.le_refl _)
  rw [List.append_nil] at hback
  refine ⟨places 0 cs, ?_, ?_, hback, fun p hp => ?_, places_flatMap⟩
  · exact @forward_spec _ cs [] unsafeNextUtf8 next_spec hcs (Nat.le_refl _)
  · exact @forward_spec _ cs [] checkedNext checkedNext_spec hcs (Nat.le_refl _)
  · exact @prefix_of_mem_places cs [] p hp

/-- A lone surrogate and a letter. -/
theorem walks_agree_surrogate : ∃ walk,
    forward (unsafeNextUtf8 [0xED, 0xA0, 0x80, 97]) 4 4 0 = some walk ∧
    forward (checkedNext [0xED, 0xA0, 0x80, 97]) 4 4 0 = some walk ∧
    backward (unsafePrevUtf8 [0xED, 0xA0, 0x80, 97]) 4 4 = some walk.reverse ∧
    (∀ p ∈ walk, codePointToUtf8 p.2 <+: [0xED, 0xA0, 0x80, 97].drop p.1) ∧
    walk.flatMap (fun p => codePointToUtf8 p.2) = [0xED, 0xA0, 0x80, 97] :=
  @walks_agree [0xED, 0xA0, 0x80, 97] 0 ⟨[0xED, 0xA0, 0x80, 97], 0⟩ rfl

end

end Stepping

end Arsh.Regex
