import Arsh.Tagged.Encoding

/-!
# Small strings

`set` and `append` of `TaggedValue`. The first byte has the size and the tag, the string stands
behind it, and a null character behind the string. A write behind the eight bytes is `none`;
`SmallStr v s` says that `v` has the string `s`.
-/

namespace Arsh.Tagged

def maxStrSize : Nat := 8 - 2

/-- The byte `s[i]`. -/
def load (v : TValue) (i : Nat) : BitVec 8 := (v >>> (8 * i)).setWidth 8

def store (v : TValue) (i : Nat) (b : BitVec 8) : Option TValue :=
  if i < 8 then some ((v &&& ~~~((0xFF : BitVec 64) <<< (8 * i))) ||| (b.setWidth 64 <<< (8 * i)))
  else none

/-- The byte with the tag is a `char`, so it is widened with its sign. -/
def size (v : TValue) : Nat := ((load v 0).signExtend 32 >>> 3).toNat

/-- The bytes from `data()` on. -/
def strData (v : TValue) : Bytes := (List.range (size v)).map fun i => load v (i + 1)

/-- `memcpy` to the bytes from the `i`-th on. -/
def copy : TValue → Nat → Bytes → Option TValue
  | v, _, [] => some v
  | v, i, b :: data =>
    match store v i b with
    | none => none
    | some v => copy v (i + 1) data

def header (size : Nat) : BitVec 8 :=
  BitVec.ofNat 8 (size <<< 3 ||| ValueTag.string.toUnderlying.toNat)

/-- `set`: the bytes that are not written are those of the uninitialised value. -/
def set (v : TValue) (data : Bytes) : Option TValue :=
  match store v 0 (header data.length) with
  | none => none
  | some v =>
    match copy v 1 data with
    | none => none
    | some v => store v (data.length + 1) 0

def append (v : TValue) (data : Bytes) : Option TValue :=
  if data = [] then some v
  else
    match store v 0 (header (size v + data.length)) with
    | none => none
    | some v' =>
      match copy v' (1 + size v) data with
      | none => none
      | some v' => store v' (size v + data.length + 1) 0

section
variable {v v' : TValue} {b : BitVec 8} {i j n : Nat} {s data : Bytes}

theorem getLsbD_load : (load v i).getLsbD j = (decide (j < 8) && v.getLsbD (8 * i + j)) := by
  rw [load, BitVec.getLsbD_setWidth, BitVec.getLsbD_ushiftRight]

/-- A write changes its byte only. -/
theorem store_spec (hi : i < 8) : ∃ v', store v i b = some v' ∧
    ∀ j < 8, load v' j = if j = i then b else load v j := by
  refine ⟨_, if_pos hi, fun j hj => BitVec.eq_of_getLsbD_eq fun k hk => ?_⟩
  rw [getLsbD_load, BitVec.getLsbD_or, BitVec.getLsbD_and, BitVec.getLsbD_not,
    BitVec.getLsbD_shiftLeft, BitVec.getLsbD_shiftLeft, getLsbD_ones, BitVec.getLsbD_setWidth,
    decide_eq_true hk, decide_eq_true (show 8 * j + k < 64 by omega), Bool.true_and]
  rcases Nat.lt_trichotomy j i with hlt | rfl | hgt
  · rw [if_neg (by omega), getLsbD_load, decide_eq_true hk,
      decide_eq_true (show 8 * j + k < 8 * i by omega)]
    simp
  · rw [if_pos rfl, decide_eq_false (show ¬8 * j + k < 8 * j by omega), Nat.add_sub_cancel_left,
      decide_eq_true hk, decide_eq_true (show k < 64 by omega)]
    simp
  · rw [if_neg (by omega), getLsbD_load, decide_eq_true hk,
      decide_eq_false (show ¬8 * j + k < 8 * i by omega),
      decide_eq_false (show ¬8 * j + k - 8 * i < 8 by omega),
      BitVec.getLsbD_of_ge b _ (by omega)]
    simp

/-- A copy changes the bytes it copies to. -/
theorem copy_spec (h : i + data.length ≤ 8) : ∃ v', copy v i data = some v' ∧
    ∀ j < 8, load v' j = if i ≤ j ∧ j < i + data.length then data.getD (j - i) 0 else load v j := by
  induction data generalizing v i with
  | nil =>
    refine ⟨v, rfl, fun j _ => ?_⟩
    rw [if_neg (by simp)]
  | cons b data ih =>
    rw [List.length_cons] at h
    obtain ⟨v₁, hstore, hload⟩ := @store_spec v b i (by omega)
    obtain ⟨v₂, hcopy, hload'⟩ := @ih v₁ (i + 1) (by omega)
    refine ⟨v₂, ?_, fun j hj => ?_⟩
    · rw [copy, hstore]
      exact hcopy
    · rw [hload' j hj, hload j hj, List.length_cons]
      rcases Nat.lt_trichotomy j i with hlt | rfl | hgt
      · rw [if_neg (by omega), if_neg (by omega), if_neg (by omega)]
      · rw [if_neg (by omega), if_pos rfl, if_pos (by omega), Nat.sub_self, List.getD_cons_zero]
      · by_cases hin : j < i + 1 + data.length
        · obtain ⟨k, rfl⟩ : ∃ k, j = i + (k + 1) := ⟨j - i - 1, by omega⟩
          rw [if_pos (by omega), if_pos (by omega), Nat.add_sub_cancel_left,
            show i + (k + 1) - (i + 1) = k by omega, List.getD_cons_succ]
        · rw [if_neg (by omega), if_neg (by omega), if_neg (by omega)]

/-! ## The string of a value -/

structure SmallStr (v : TValue) (s : Bytes) : Prop where
  le : s.length ≤ maxStrSize
  head : load v 0 = header s.length
  data : ∀ i < s.length, load v (i + 1) = s.getD i 0

theorem header_facts (h : n ≤ maxStrSize) :
    header n &&& 0x7 = ValueTag.string.toUnderlying ∧
      ((header n).signExtend 32 >>> 3).toNat = n := by
  have hall : ∀ n ≤ 6, header n &&& 0x7 = ValueTag.string.toUnderlying ∧
      ((header n).signExtend 32 >>> 3).toNat = n := by decide
  exact hall n h

theorem SmallStr.hasTag (h : SmallStr v s) : hasTag v .string = true := by
  have hlow : v.setWidth 8 = load v 0 := rfl
  rw [Tagged.hasTag, getTag_eq, hlow, h.head, (header_facts h.le).1]
  rfl

theorem SmallStr.size (h : SmallStr v s) : size v = s.length := by
  rw [Tagged.size, h.head, (header_facts h.le).2]

theorem SmallStr.strData (h : SmallStr v s) : strData v = s := by
  rw [Tagged.strData, h.size]
  refine List.ext_getElem (by rw [List.length_map, List.length_range]) fun i hi hi' => ?_
  rw [List.getElem_map, List.getElem_range, h.data i hi', List.getD_eq_getElem _ _ hi']

theorem set_spec (v : TValue) (h : data.length ≤ maxStrSize) :
    ∃ v', set v data = some v' ∧ SmallStr v' data := by
  have hle : data.length ≤ 6 := h
  obtain ⟨v₁, hhead, hload₁⟩ := @store_spec v (header data.length) 0 (by decide)
  obtain ⟨v₂, hcopy, hload₂⟩ := @copy_spec v₁ 1 data (by omega)
  obtain ⟨v₃, hnull, hload₃⟩ := @store_spec v₂ 0 (data.length + 1) (by omega)
  refine ⟨v₃, ?_, h, ?_, fun i hi => ?_⟩
  · rw [set, hhead]
    dsimp only
    rw [hcopy]
    exact hnull
  · rw [hload₃ 0 (by decide), if_neg (by omega), hload₂ 0 (by decide), if_neg (by omega),
      hload₁ 0 (by decide), if_pos rfl]
  · rw [hload₃ _ (by omega), if_neg (by omega), hload₂ _ (by omega), if_pos (by omega),
      Nat.add_sub_cancel]

theorem append_spec (h : SmallStr v s) (hle : s.length + data.length ≤ maxStrSize) :
    ∃ v', append v data = some v' ∧ SmallStr v' (s ++ data) := by
  have hsum : s.length + data.length ≤ 6 := hle
  by_cases hnil : data = []
  · refine ⟨v, if_pos hnil, ?_⟩
    rw [hnil, List.append_nil]
    exact h
  obtain ⟨v₁, hhead, hload₁⟩ := @store_spec v (header (s.length + data.length)) 0 (by decide)
  obtain ⟨v₂, hcopy, hload₂⟩ := @copy_spec v₁ (1 + s.length) data (by omega)
  obtain ⟨v₃, hnull, hload₃⟩ := @store_spec v₂ 0 (s.length + data.length + 1) (by omega)
  refine ⟨v₃, ?_, ?_, ?_, fun i hi => ?_⟩
  · rw [append, if_neg hnil, h.size, hhead]
    dsimp only
    rw [hcopy]
    exact hnull
  · rw [List.length_append]
    exact hle
  · rw [hload₃ 0 (by decide), if_neg (by omega), hload₂ 0 (by decide), if_neg (by omega),
      hload₁ 0 (by decide), if_pos rfl, List.length_append]
  · rw [List.length_append] at hi
    rw [hload₃ _ (by omega), if_neg (by omega), hload₂ _ (by omega)]
    by_cases hs : i < s.length
    · rw [if_neg (by omega), hload₁ _ (by omega), if_neg (by omega), h.data i hs,
        List.getD_append _ _ _ _ hs]
    · rw [if_pos (by omega), List.getD_append_right _ _ _ _ (by omega)]
      congr 1
      omega

end

end Arsh.Tagged
