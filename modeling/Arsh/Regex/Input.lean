import Arsh.Misc.Unicode

/-!
# The regex input

`Input` of `regex/input.h`: the bytes of the text and a cursor into them. Positions are byte
offsets. `unsafeNextUtf8` and `unsafePrevUtf8` step over one character without checking it.

A text accepted by `Input.create` is the encoding of a list of code points (`create_ok`); on
such a text the cursor only ever stands at `off cs i`, the start of the `i`-th code point, and
the two stepping functions read `cs[i]` and `cs[i-1]` there (`unsafeNextUtf8_off`,
`unsafePrevUtf8_off`).
-/

namespace Arsh.Regex

open UnicodeUtil

/-- `unsafeNextUtf8`: the code point at `i` and the position after it. -/
def unsafeNextUtf8 (bs : List Nat) (i : Nat) : Nat × Nat :=
  let b := bs.getD i 0
  if b < 128 then (b, i + 1)
  else
    let len := utf8ByteSize b
    let codePoint :=
      if len = 2 then b % 32 * 64 + bs.getD (i + 1) 0 % 64
      else if len = 3 then
        b % 16 * 4096 + bs.getD (i + 1) 0 % 64 * 64 + bs.getD (i + 2) 0 % 64
      else
        b % 8 * 262144 + bs.getD (i + 1) 0 % 64 * 4096 + bs.getD (i + 2) 0 % 64 * 64 +
          bs.getD (i + 3) 0 % 64
    (codePoint, i + len)

/-- The mask of a first byte that announces `len` bytes. -/
def firstByteMask (len : Nat) : Nat :=
  match len with
  | 1 => 256
  | 2 => 32
  | 3 => 16
  | _ => 8

/-- The loop of `unsafePrevUtf8`, with the bits read so far and their number. -/
def prevLoop (bs : List Nat) : Nat → Nat → Nat → Nat × Nat
  | 0, codePoint, _ => (codePoint, 0)
  | i + 1, codePoint, shift =>
    let b := bs.getD i 0
    match utf8ByteSize b with
    | 0 => prevLoop bs i (codePoint + b % 64 * 2 ^ shift) (shift + 6)
    | len + 1 => (codePoint + b % firstByteMask (len + 1) * 2 ^ shift, i)

/-- `unsafePrevUtf8`: the code point before `i` and its position. -/
def unsafePrevUtf8 (bs : List Nat) (i : Nat) : Nat × Nat := prevLoop bs i 0 0

inductive InputError where
  | tooLarge
  | invalidUtf8
  deriving DecidableEq, Repr

structure Input where
  bytes : List Nat
  iter : Nat
  deriving DecidableEq, Repr

namespace Input

/-- `INPUT_MAX`, which is `UINT32_MAX`. -/
def inputMax : Nat := 2 ^ 32 - 1

/-- The validation loop of `create`: the byte offset of the first `codePointOffset` characters.
Every round drops at least one byte, so `fuel` only has to be the number of bytes. -/
def createLoop (codePointOffset : Nat) : Nat → List Nat → Nat → Nat → Option Nat
  | _, [], _, offset => some offset
  | 0, _ :: _, _, _ => none
  | fuel + 1, rest@(_ :: _), count, offset =>
    let len := wtf8ValidateChar rest
    if len = 0 then none
    else createLoop codePointOffset fuel (rest.drop len) (count + 1)
      (if count < codePointOffset then offset + len else offset)

def create (text : List Nat) (codePointOffset : Nat) : Except InputError Input :=
  if text.length > inputMax then .error .tooLarge
  else match createLoop codePointOffset text.length text 0 0 with
    | none => .error .invalidUtf8
    | some offset => .ok { bytes := text, iter := offset }

end Input

/-! ## Positions of a valid text -/

/-- The byte offset of the `i`-th code point. -/
def off (cs : List Nat) (i : Nat) : Nat := (encode (cs.take i)).length

@[simp] theorem off_zero (cs : List Nat) : off cs 0 = 0 := by simp [off]

theorem off_length (cs : List Nat) : off cs cs.length = (encode cs).length := by simp [off]

theorem off_succ {cs : List Nat} {i : Nat} (h : i < cs.length) :
    off cs (i + 1) = off cs i + (codePointToUtf8 cs[i]).length := by
  rw [off, off, List.take_succ_eq_append_getElem h, encode_append, List.length_append]
  simp [encode]

/-- The text splits at a position. -/
theorem encode_drop (cs : List Nat) (i : Nat) : (encode cs).drop (off cs i) = encode (cs.drop i) := by
  conv_lhs => rw [← List.take_append_drop i cs, encode_append]
  simp [off]

theorem encode_take (cs : List Nat) (i : Nat) : (encode cs).take (off cs i) = encode (cs.take i) := by
  conv_lhs => rw [← List.take_append_drop i cs, encode_append]
  simp [off]

theorem off_lt_succ {cs : List Nat} (hcs : CodePoints cs) {i : Nat} (h : i < cs.length) :
    off cs i < off cs (i + 1) := by
  rw [off_succ h]
  have := codePointToUtf8_length_pos (hcs _ (List.getElem_mem h))
  omega

theorem off_lt {cs : List Nat} (hcs : CodePoints cs) {i j : Nat} (hij : i < j)
    (hj : j ≤ cs.length) : off cs i < off cs j := by
  induction j with
  | zero => omega
  | succ j ih =>
    have hstep := off_lt_succ hcs (show j < cs.length by omega)
    rcases Nat.lt_or_ge i j with h | h
    · exact Nat.lt_trans (ih h (by omega)) hstep
    · rwa [show i = j by omega]

theorem off_le {cs : List Nat} (hcs : CodePoints cs) {i j : Nat} (hij : i ≤ j)
    (hj : j ≤ cs.length) : off cs i ≤ off cs j := by
  rcases Nat.lt_or_eq_of_le hij with h | h
  · exact Nat.le_of_lt (off_lt hcs h hj)
  · rw [h]

theorem off_inj {cs : List Nat} (hcs : CodePoints cs) {i j : Nat} (hi : i ≤ cs.length)
    (hj : j ≤ cs.length) : off cs i = off cs j ↔ i = j := by
  constructor
  · intro h
    rcases Nat.lt_trichotomy i j with hlt | heq | hlt
    · have := off_lt hcs hlt hj; omega
    · exact heq
    · have := off_lt hcs hlt hi; omega
  · rintro rfl; rfl

theorem off_eq_end {cs : List Nat} (hcs : CodePoints cs) {i : Nat} (hi : i ≤ cs.length) :
    off cs i = (encode cs).length ↔ i = cs.length := by
  rw [← off_length, off_inj hcs hi (Nat.le_refl _)]

theorem off_eq_zero {cs : List Nat} (hcs : CodePoints cs) {i : Nat} (hi : i ≤ cs.length) :
    off cs i = 0 ↔ i = 0 := by
  simpa using off_inj hcs hi (Nat.zero_le cs.length)

/-! ## Stepping over one code point -/

theorem unsafeNextUtf8_eq (bs : List Nat) (i : Nat) (h : utf8ByteSize (bs.getD i 0) ≠ 0) :
    unsafeNextUtf8 bs i = (decodeFirst (bs.drop i), i + utf8ByteSize (bs.getD i 0)) := by
  have hd : ∀ k, (bs.drop i).getD k 0 = bs.getD (i + k) 0 := fun k => by
    simp [List.getD_eq_getElem?_getD, List.getElem?_drop]
  simp only [unsafeNextUtf8, decodeFirst, hd, Nat.add_zero]
  generalize bs.getD i 0 = b at h ⊢
  by_cases hb : b < 128
  · have : utf8ByteSize b = 1 := by simp [utf8ByteSize]; omega
    simp [hb, this]
  · have h4 : utf8ByteSize b = 2 ∨ utf8ByteSize b = 3 ∨ utf8ByteSize b = 4 := by
      revert h; simp only [utf8ByteSize]; split_ifs <;> omega
    rcases h4 with h4 | h4 | h4 <;> simp [hb, h4]

theorem getD_encode_off {cs : List Nat} (hcs : CodePoints cs) {i : Nat} (h : i < cs.length) :
    utf8ByteSize ((encode cs).getD (off cs i) 0) = (codePointToUtf8 cs[i]).length := by
  obtain ⟨b, bs, e, hb, -⟩ := codePointToUtf8_shape (hcs _ (List.getElem_mem h))
  have : (encode cs).getD (off cs i) 0 = ((encode cs).drop (off cs i)).getD 0 0 := by
    simp [List.getD_eq_getElem?_getD, List.getElem?_drop]
  rw [this, encode_drop, List.drop_eq_getElem_cons h, encode_cons, e]
  simpa using hb

theorem unsafeNextUtf8_off {cs : List Nat} (hcs : CodePoints cs) {i : Nat} (h : i < cs.length) :
    unsafeNextUtf8 (encode cs) (off cs i) = (cs[i], off cs (i + 1)) := by
  have hc := hcs _ (List.getElem_mem h)
  have hpos := codePointToUtf8_length_pos hc
  rw [unsafeNextUtf8_eq _ _ (by rw [getD_encode_off hcs h]; omega), getD_encode_off hcs h,
    off_succ h, encode_drop, List.drop_eq_getElem_cons h, encode_cons, decodeFirst_append hc]

/-- `prevLoop` reads following bytes until it reaches a first byte. -/
theorem prevLoop_append (pre : List Nat) (b : Nat) (hb : utf8ByteSize b ≠ 0) :
    ∀ (bs : List Nat), (∀ x ∈ bs, Following x) → ∀ (post : List Nat) (codePoint shift : Nat),
      ∃ v, prevLoop (pre ++ b :: bs ++ post) (pre.length + 1 + bs.length) codePoint shift =
        (codePoint + v * 2 ^ shift, pre.length) ∧
        v = bs.foldl (fun v x => v * 64 + x % 64) (b % firstByteMask (utf8ByteSize b)) := by
  intro bs
  induction bs using List.reverseRecOn with
  | nil =>
    intro _ post codePoint shift
    refine ⟨_, ?_, rfl⟩
    obtain ⟨n, hn⟩ := Nat.exists_eq_succ_of_ne_zero hb
    simp [prevLoop, hn]
  | append_singleton bs x ih =>
    intro hf post codePoint shift
    have hx : Following x := hf x (by simp)
    obtain ⟨v, hv, rfl⟩ := ih (fun y hy => hf y (by simp [hy])) (x :: post)
      (codePoint + x % 64 * 2 ^ shift) (shift + 6)
    refine ⟨_, ?_, rfl⟩
    have hget : (pre ++ b :: (bs ++ [x]) ++ post).getD (pre.length + 1 + bs.length) 0 = x := by
      rw [show pre ++ b :: (bs ++ [x]) ++ post = (pre ++ b :: bs) ++ x :: post by simp,
        List.getD_append_right _ _ _ _ (by simp; omega)]
      simp [show pre.length + 1 + bs.length - (pre.length + (bs.length + 1)) = 0 by omega]
    rw [List.length_append, List.length_singleton, ← Nat.add_assoc, prevLoop, hget, hx.1]
    simp only
    rw [show pre ++ b :: (bs ++ [x]) ++ post = pre ++ b :: bs ++ x :: post by simp, hv]
    simp only [List.foldl_append, List.foldl_cons, List.foldl_nil]
    congr 1
    rw [Nat.pow_add]
    ring

theorem prev_bits {c : Nat} (hc : c ≤ codePointMax) {b : Nat} {bs : List Nat}
    (e : codePointToUtf8 c = b :: bs) :
    bs.foldl (fun v x => v * 64 + x % 64) (b % firstByteMask (utf8ByteSize b)) = c := by
  simp only [codePointMax] at hc
  revert e
  unfold codePointToUtf8
  split
  · rintro ⟨⟩
    have : utf8ByteSize c = 1 := by simp [utf8ByteSize]; omega
    simp [this, firstByteMask]; omega
  split
  · rintro ⟨⟩
    have : utf8ByteSize (192 + c / 64) = 2 := by simp only [utf8ByteSize]; split_ifs <;> omega
    simp [this, firstByteMask]; omega
  split
  · rintro ⟨⟩
    have : utf8ByteSize (224 + c / 4096) = 3 := by simp only [utf8ByteSize]; split_ifs <;> omega
    simp [this, firstByteMask]; omega
  · rintro ⟨⟩
    have : utf8ByteSize (240 + c / 262144) = 4 := by
      simp only [utf8ByteSize]; split_ifs <;> omega
    simp [this, firstByteMask]; omega

theorem unsafePrevUtf8_off {cs : List Nat} (hcs : CodePoints cs) {i : Nat} (h : i < cs.length) :
    unsafePrevUtf8 (encode cs) (off cs (i + 1)) = (cs[i], off cs i) := by
  have hc := hcs _ (List.getElem_mem h)
  obtain ⟨b, bs, e, hb, -, hf⟩ := codePointToUtf8_shape hc
  have hsplit : encode cs = encode (cs.take i) ++ b :: bs ++ encode (cs.drop (i + 1)) := by
    conv_lhs => rw [← List.take_append_drop i cs, List.drop_eq_getElem_cons h, encode_append,
      encode_cons, e]
    simp
  obtain ⟨v, hv, rfl⟩ := prevLoop_append (encode (cs.take i)) b (by omega) bs hf
    (encode (cs.drop (i + 1))) 0 0
  have hlen : off cs (i + 1) = (encode (cs.take i)).length + 1 + bs.length := by
    rw [off_succ h, e, off, List.length_cons]; omega
  rw [unsafePrevUtf8, hlen, hsplit, hv, prev_bits hc e]
  simp [off]

/-! ## Accepted texts -/

theorem off_cons_succ (c : Nat) (cs : List Nat) (i : Nat) :
    off (c :: cs) (i + 1) = (codePointToUtf8 c).length + off cs i := by
  simp [off]

/-- A byte that begins a character is at the offset of one. -/
theorem exists_off_of_first {cs : List Nat} (hcs : CodePoints cs) {k : Nat}
    (hk : k < (encode cs).length) (hb : utf8ByteSize ((encode cs).getD k 0) ≠ 0) :
    ∃ i, i < cs.length ∧ k = off cs i := by
  induction cs generalizing k with
  | nil => simp at hk
  | cons c cs ih =>
    obtain ⟨b, bs, e, -, -, hf⟩ := codePointToUtf8_shape hcs.cons.1
    rw [encode_cons, e] at hb hk
    rcases Nat.lt_or_ge k (bs.length + 1) with hlt | hge
    · cases k with
      | zero => exact ⟨0, Nat.zero_lt_succ _, by simp⟩
      | succ k =>
        have hkb : k < bs.length := Nat.lt_of_succ_lt_succ hlt
        have : (b :: bs ++ encode cs).getD (k + 1) 0 = bs[k] := by
          simp [List.getD_eq_getElem?_getD, List.getElem?_append_left hkb, hkb]
        rw [this] at hb
        exact absurd (hf _ (List.getElem_mem hkb)).1 hb
    · have hget : (b :: bs ++ encode cs).getD k 0 = (encode cs).getD (k - (bs.length + 1)) 0 := by
        rw [List.getD_eq_getElem?_getD, List.getElem?_append_right (by simpa using hge)]
        simp [List.getD_eq_getElem?_getD]
      rw [hget] at hb
      simp only [List.length_append, List.length_cons] at hk
      obtain ⟨i, hi, hki⟩ := ih hcs.cons.2 (by omega) hb
      refine ⟨i + 1, Nat.succ_lt_succ hi, ?_⟩
      rw [off_cons_succ, e, ← hki, List.length_cons]
      omega

theorem encode_suffix_iff {xs ys : List Nat} (hx : CodePoints xs) (hy : CodePoints ys) :
    encode xs <:+ encode ys ↔ xs <:+ ys := by
  constructor
  · rintro ⟨t, ht⟩
    cases xs with
    | nil => exact List.nil_suffix
    | cons x xs =>
      obtain ⟨b, bs, e, hb, -⟩ := codePointToUtf8_shape hx.cons.1
      have hlen : t.length < (encode ys).length := by
        rw [← ht, encode_cons, e]
        simp
      have hfirst : utf8ByteSize ((encode ys).getD t.length 0) ≠ 0 := by
        rw [← ht, encode_cons, e]
        simp [hb]
      obtain ⟨i, -, hti⟩ := exists_off_of_first hy hlen hfirst
      have hdrop : encode (x :: xs) = encode (ys.drop i) := by
        rw [← encode_drop, ← hti, ← ht, List.drop_left]
      rw [encode_inj hx (fun c hc => hy c (List.mem_of_mem_drop hc)) hdrop]
      exact List.drop_suffix i ys
  · rintro ⟨zs, rfl⟩
    exact ⟨encode zs, (encode_append zs xs).symm⟩

theorem createLoop_some {k : Nat} :
    ∀ {fuel : Nat} {rest : List Nat} {count offset o : Nat},
      Input.createLoop k fuel rest count offset = some o →
      ∃ cs, CodePoints cs ∧ rest = encode cs ∧ o = offset + off cs (min (k - count) cs.length) := by
  intro fuel
  induction fuel with
  | zero =>
    intro rest count offset o h
    cases rest with
    | nil => exact ⟨[], by simp [CodePoints], rfl, by simpa [Input.createLoop] using h.symm⟩
    | cons b rest => simp [Input.createLoop] at h
  | succ fuel ih =>
    intro rest count offset o h
    cases rest with
    | nil => exact ⟨[], by simp [CodePoints], rfl, by simpa [Input.createLoop] using h.symm⟩
    | cons b rest =>
      simp only [Input.createLoop] at h
      split at h
      · cases h
      · next hv =>
        obtain ⟨c, t, hc, ht⟩ := exists_of_wtf8ValidateChar hv
        rw [ht, wtf8ValidateChar_append hc, List.drop_left] at h
        obtain ⟨cs, hcs, rfl, rfl⟩ := ih h
        refine ⟨c :: cs, ?_, ht, ?_⟩
        · intro x hx
          rcases List.mem_cons.1 hx with rfl | hx
          · exact hc
          · exact hcs x hx
        -- the offset moves only while fewer than `k` characters have been counted
        · split
          · next hlt =>
            rw [show k - count = (k - (count + 1)) + 1 by omega, List.length_cons,
              Nat.succ_min_succ, Nat.succ_eq_add_one, off_cons_succ]
            omega
          · next hge =>
            rw [show k - count = 0 by omega, show k - (count + 1) = 0 by omega]
            simp

/-- An accepted text is the encoding of a list of code points, and the cursor stands at the
start of the code point asked for (at the end when there are fewer). -/
theorem Input.create_ok {text : List Nat} {k : Nat} {input : Input}
    (h : Input.create text k = .ok input) :
    ∃ cs, CodePoints cs ∧ text = encode cs ∧ text.length ≤ inputMax ∧
      input = { bytes := encode cs, iter := off cs (min k cs.length) } := by
  unfold Input.create at h
  split at h
  · cases h
  · next hlen =>
    split at h
    · cases h
    · next o ho =>
      obtain ⟨cs, hcs, ht, rfl⟩ := createLoop_some ho
      cases h
      exact ⟨cs, hcs, ht, by omega, by simp [ht]⟩

end Arsh.Regex
