import Arsh.Lib.LongestFirst
import Arsh.Regex.SearchPrefix

/-!
# The members of a string set, longest first

`positions` is where the code of a string set goes on (`simulates_strSet`). This file compares it
with the set itself: the strings of the emoji classes, those of the radix tree and the single
code points that stand at the cursor. The emoji trie is asked for its longest sequence only, and
a sequence of no selected class hides a shorter one of a selected class; `positions_iff` says that
nothing else goes wrong.
-/

namespace Arsh.Regex

open UnicodeUtil LongestFirst

/-! ## Sizes in characters -/

/-- The characters from the cursor on, or backwards up to it. -/
def beside (forward : Bool) (cs : List Nat) (i : Nat) : List Nat :=
  if forward then cs.drop i else cs.take i

/-- The byte size of the `n` characters next to the cursor. -/
def pieceSize (forward : Bool) (xs : List Nat) (n : Nat) : Nat :=
  (encode (piece forward xs n)).length

/-- The index after `n` characters. -/
def indexAfter (forward : Bool) (i n : Nat) : Nat := if forward then i + n else i - n

section
variable {forward : Bool} {cs xs : List Nat} {i n m : Nat}

theorem codePoints_beside (h : CodePoints cs) : CodePoints (beside forward cs i) := by
  unfold beside
  split
  · exact h.drop i
  · exact h.take i

theorem codePoints_piece (h : CodePoints xs) : CodePoints (piece forward xs n) := by
  unfold piece
  split
  · exact h.take n
  · exact h.drop _

theorem piece_length (h : n ≤ xs.length) : (piece forward xs n).length = n := by
  unfold piece
  split
  · rw [List.length_take]
    omega
  · rw [List.length_drop]
    omega

theorem piece_piece (hnm : n ≤ m) (hm : m ≤ xs.length) :
    piece forward (piece forward xs m) n = piece forward xs n := by
  cases forward with
  | true =>
    simp only [piece, if_true]
    rw [List.take_take, Nat.min_eq_left hnm]
  | false =>
    simp only [piece, Bool.false_eq_true, if_false]
    rw [List.drop_drop, List.length_drop]
    congr 1
    omega

/-- A longer piece is a shorter one and more characters. -/
theorem pieceSize_add (hnm : n ≤ m) (hm : m ≤ xs.length) :
    ∃ ys, CodePoints xs → CodePoints ys ∧ ys.length = m - n ∧
      pieceSize forward xs m = pieceSize forward xs n + (encode ys).length := by
  cases forward with
  | true =>
    refine ⟨(xs.take m).drop n, fun h => ⟨(h.take m).drop n, ?_, ?_⟩⟩
    · rw [List.length_drop, List.length_take, Nat.min_eq_left hm]
    · simp only [pieceSize, piece, if_true]
      rw [← List.length_append, ← encode_append]
      conv_lhs => rw [← List.take_append_drop n (xs.take m)]
      rw [List.take_take, Nat.min_eq_left hnm]
  | false =>
    refine ⟨(xs.drop (xs.length - m)).take (m - n), fun h => ⟨(h.drop _).take _, ?_, ?_⟩⟩
    · rw [List.length_take, List.length_drop]
      omega
    · simp only [pieceSize, piece, Bool.false_eq_true, if_false]
      rw [Nat.add_comm, ← List.length_append, ← encode_append]
      conv_lhs => rw [← List.take_append_drop (m - n) (xs.drop (xs.length - m))]
      rw [List.drop_drop]
      congr 4
      omega

theorem pieceSize_le (hx : CodePoints xs) (hnm : n ≤ m) (hm : m ≤ xs.length) :
    pieceSize forward xs n ≤ pieceSize forward xs m := by
  obtain ⟨ys, h⟩ : ∃ ys, CodePoints xs → CodePoints ys ∧ ys.length = m - n ∧
      pieceSize forward xs m = pieceSize forward xs n + (encode ys).length := pieceSize_add hnm hm
  have := (h hx).2.2
  omega

theorem pieceSize_lt (hx : CodePoints xs) (hnm : n < m) (hm : m ≤ xs.length) :
    pieceSize forward xs n < pieceSize forward xs m := by
  obtain ⟨ys, h⟩ : ∃ ys, CodePoints xs → CodePoints ys ∧ ys.length = m - n ∧
      pieceSize forward xs m = pieceSize forward xs n + (encode ys).length :=
    pieceSize_add (Nat.le_of_lt hnm) hm
  obtain ⟨hys, hlen, hsize⟩ := h hx
  have := RadixTree.length_le_encode hys
  omega

@[simp] theorem pieceSize_zero (forward : Bool) (xs : List Nat) : pieceSize forward xs 0 = 0 := by
  cases forward <;> simp [pieceSize, piece]

theorem pieceSize_eq_zero (hx : CodePoints xs) (hn : n ≤ xs.length) :
    pieceSize forward xs n = 0 ↔ n = 0 := by
  constructor
  · intro h
    by_contra hne
    have : pieceSize forward xs 0 < pieceSize forward xs n :=
      pieceSize_lt hx (Nat.pos_of_ne_zero hne) hn
    omega
  · rintro rfl
    exact pieceSize_zero forward xs

theorem le_pieceSize (hx : CodePoints xs) (hn : n ≤ xs.length) : n ≤ pieceSize forward xs n := by
  have hp : CodePoints (piece forward xs n) := codePoints_piece hx
  have := RadixTree.length_le_encode hp
  rwa [piece_length hn] at this

theorem pieceSize_max (hx : CodePoints xs) (hn : n ≤ xs.length) (hm : m ≤ xs.length) :
    max (pieceSize forward xs n) (pieceSize forward xs m) = pieceSize forward xs (max n m) := by
  rcases Nat.le_total n m with h | h
  · rw [Nat.max_eq_right h, Nat.max_eq_right (pieceSize_le hx h hm)]
  · rw [Nat.max_eq_left h, Nat.max_eq_left (pieceSize_le hx h hn)]

/-! ## The text beside the cursor -/

theorem beside_length (hi : i ≤ cs.length) :
    (beside forward cs i).length = if forward then cs.length - i else i := by
  unfold beside
  split
  · exact List.length_drop
  · rw [List.length_take, Nat.min_eq_left hi]

theorem off_pieceSize (hi : i ≤ cs.length) (hn : n ≤ (beside forward cs i).length) :
    if forward = true then off cs i + pieceSize forward (beside forward cs i) n = off cs (i + n)
    else off cs (i - n) + pieceSize forward (beside forward cs i) n = off cs i := by
  rw [beside_length hi] at hn
  cases forward with
  | true => exact off_drop i n
  | false =>
    simp only [Bool.false_eq_true, if_false] at hn ⊢
    simp only [pieceSize, piece, beside, Bool.false_eq_true, if_false]
    rw [List.length_take, Nat.min_eq_left hi, off, off, ← List.length_append, ← encode_append]
    conv_rhs => rw [← List.take_append_drop (i - n) (cs.take i)]
    rw [List.take_take, Nat.min_eq_left (Nat.sub_le i n)]

/-- The position after `n` characters. -/
theorem off_indexAfter (hi : i ≤ cs.length) (hn : n ≤ (beside forward cs i).length) :
    (if forward = true then off cs i + pieceSize forward (beside forward cs i) n
      else off cs i - pieceSize forward (beside forward cs i) n) =
        off cs (indexAfter forward i n) := by
  have h := off_pieceSize hi hn
  unfold indexAfter
  split
  · next hf => rwa [if_pos hf] at h
  · next hf =>
    rw [if_neg hf] at h
    omega

theorem radixRef_piece (hi : i ≤ cs.length) (hn : n ≤ (beside forward cs i).length) :
    radixRef (encode cs) forward (off cs i) (pieceSize forward (beside forward cs i) n) =
      encode (piece forward (beside forward cs i) n) := by
  have hoff := off_pieceSize hi hn
  cases forward with
  | true =>
    rw [radixRef_forward (Nat.le_add_right i n) hoff]
    simp only [beside, piece, if_true]
    rw [List.drop_take, Nat.add_sub_cancel_left]
  | false =>
    rw [radixRef_backward (Nat.sub_le i n) hoff]
    simp only [beside, piece, Bool.false_eq_true, if_false]
    rw [List.length_take, Nat.min_eq_left hi]

theorem shortenSize_piece (hcs : CodePoints cs) (hi : i ≤ cs.length)
    (hn : n + 1 ≤ (beside forward cs i).length) :
    shortenSize (encode cs) forward (off cs i) (pieceSize forward (beside forward cs i) (n + 1)) =
      pieceSize forward (beside forward cs i) n := by
  have hx : CodePoints (piece forward (beside forward cs i) (n + 1)) :=
    codePoints_piece (codePoints_beside hcs)
  have hlen : (piece forward (beside forward cs i) (n + 1)).length = n + 1 := piece_length hn
  unfold shortenSize
  rw [radixRef_piece hi hn, pieceSize, ← piece_piece (Nat.le_succ n) hn]
  generalize piece forward (beside forward cs i) (n + 1) = ys at hx hlen
  cases forward with
  | true =>
    simp only [if_true, piece]
    rw [← off_length, hlen, unsafePrevUtf8_off hx (by omega)]
    rfl
  | false =>
    simp only [Bool.false_eq_true, if_false, piece]
    rw [hlen, Nat.add_sub_cancel_left]
    cases ys with
    | nil => cases hlen
    | cons y ys =>
      have hfirst := getD_encode_off hx (Nat.zero_lt_succ ys.length)
      rw [off_zero] at hfirst
      rw [hfirst, List.drop_succ_cons, List.drop_zero, encode_cons, List.length_append]
      exact Nat.add_sub_cancel_left _ _

/-- The character next to the cursor. -/
theorem consume_beside (hcs : CodePoints cs) (hi : i ≤ cs.length)
    (hne : 0 < (beside forward cs i).length) :
    ∃ c, piece forward (beside forward cs i) 1 = [c] ∧
      consume (encode cs) forward (off cs i) = some (c, off cs (indexAfter forward i 1)) := by
  rw [beside_length hi] at hne
  cases forward with
  | true =>
    simp only [if_true] at hne
    refine ⟨cs[i], ?_, consume_forward hcs (by omega)⟩
    simp only [piece, beside, if_true]
    rw [List.drop_eq_getElem_cons (by omega)]
    rfl
  | false =>
    simp only [Bool.false_eq_true, if_false] at hne
    obtain ⟨k, rfl⟩ : ∃ k, i = k + 1 := ⟨i - 1, by omega⟩
    refine ⟨cs[k], ?_, consume_backward hcs (by omega)⟩
    simp only [piece, beside, Bool.false_eq_true, if_false]
    rw [List.length_take, Nat.min_eq_left hi, Nat.add_sub_cancel,
      List.drop_eq_getElem_cons (by rw [List.length_take]; omega), List.getElem_take,
      List.drop_of_length_le (by rw [List.length_take]; omega)]

theorem skipCodePoints_off (hcs : CodePoints cs) (count : Nat) (hi : i ≤ cs.length) :
    skipCodePoints (encode cs) forward count (off cs i) =
      off cs (indexAfter forward i (min count (beside forward cs i).length)) := by
  induction count generalizing i with
  | zero => simp [skipCodePoints, indexAfter]
  | succ count ih =>
    have hlen : (beside forward cs i).length = if forward then cs.length - i else i :=
      beside_length hi
    cases forward with
    | true =>
      simp only [if_true] at hlen
      rcases Nat.lt_or_eq_of_le hi with hlt | rfl
      · have hpos : off cs i < (encode cs).length := by
          rw [← off_length]
          exact off_lt hcs hlt (Nat.le_refl _)
        rw [skipCodePoints, if_pos rfl, if_pos hpos, getD_encode_off hcs hlt, ← off_succ hlt, ih hlt,
          beside_length hlt, hlen]
        simp only [indexAfter, if_true]
        congr 1
        omega
      · rw [skipCodePoints, if_pos rfl, if_neg (by rw [off_length]; exact Nat.lt_irrefl _), hlen]
        simp [indexAfter]
    | false =>
      simp only [Bool.false_eq_true, if_false] at hlen
      cases i with
      | zero => simp [skipCodePoints, indexAfter]
      | succ k =>
        have hpos : off cs (k + 1) > 0 := Nat.lt_of_le_of_lt (Nat.zero_le _) (off_lt_succ hcs hi)
        rw [skipCodePoints, if_neg Bool.false_ne_true, if_pos hpos, unsafePrevUtf8_off hcs hi,
          ih (Nat.le_of_lt hi), beside_length (Nat.le_of_lt hi), hlen]
        simp only [indexAfter, Bool.false_eq_true, if_false]
        congr 1
        omega

/-- The size of the next `count` characters, or of those there are. -/
theorem remainSize_off (hcs : CodePoints cs) (count : Nat) (hi : i ≤ cs.length) :
    remainSize (encode cs) forward count (off cs i) =
      pieceSize forward (beside forward cs i) (min count (beside forward cs i).length) := by
  have hmin : min count (beside forward cs i).length ≤ (beside forward cs i).length :=
    Nat.min_le_right ..
  have hoff := off_pieceSize hi hmin
  unfold remainSize
  rw [skipCodePoints_off hcs count hi]
  simp only [indexAfter]
  split
  · next hf =>
    rw [if_pos hf] at hoff
    simp only [hf] at hoff ⊢
    omega
  · next hf =>
    simp only [hf, Bool.false_eq_true, if_false] at hoff ⊢
    omega

end

/-! ## The sources of a set -/

namespace StrSet

section
variable (T : Tables) (s : StrSet) (forward : Bool) (xs : List Nat)

/-- The emoji trie has the piece, and it is asked. -/
def Known (n : Nat) : Prop :=
  s.emoji ≠ 0 ∧ pieceProperty T T.emojiTrie s.ignoreCase forward xs n ≠ 0

/-- The piece has the flags besides. -/
def Wanted (n : Nat) : Prop :=
  s.Known T forward xs n ∧ hasFlag (rawFlags s.emoji s.ignoreCase)
    (pieceProperty T T.emojiTrie s.ignoreCase forward xs n) = true

/-- The radix tree has the piece. -/
def InRadix (n : Nat) : Prop := pieceProperty T s.radix s.ignoreCase forward xs n ≠ 0

/-- The character next to the cursor is one of the single code points. -/
def charTest : Bool :=
  match s.chars, piece forward xs 1 with
  | some a, [c] => a.test T c
  | _, _ => false

instance : DecidablePred (s.Known T forward xs) := fun _ => inferInstanceAs (Decidable (_ ∧ _))

instance : DecidablePred (s.Wanted T forward xs) := fun _ => inferInstanceAs (Decidable (_ ∧ _))

instance : DecidablePred (s.InRadix T forward xs) := fun _ => inferInstanceAs (Decidable (_ ≠ _))

end

section
variable {T : Tables} {s : StrSet} {forward : Bool} {cs xs : List Nat} {tree : RadixTree}
  {caseFold : Bool} {i n limit fuel : Nat} {r : Nat × Nat}

theorem Finds.eq_findGreatest (hl : limit ≤ xs.length)
    (h : Finds T tree caseFold forward (piece forward xs limit) r n) :
    n = Nat.findGreatest (fun m => pieceProperty T tree caseFold forward xs m ≠ 0) limit ∧
      r = (pieceSize forward xs n, pieceProperty T tree caseFold forward xs n) := by
  have hlen : (piece forward xs limit).length = limit := piece_length hl
  have hprop : ∀ m ≤ limit, pieceProperty T tree caseFold forward (piece forward xs limit) m =
      pieceProperty T tree caseFold forward xs m := by
    intro m hm
    unfold pieceProperty
    rw [piece_piece hm hl]
  have hn : n ≤ limit := hlen ▸ h.le
  constructor
  · symm
    rw [Nat.findGreatest_eq_iff]
    refine ⟨hn, fun hne hz => ?_, fun m hlt hm => ?_⟩
    · rw [← hprop n hn] at hz
      exact hne (h.found hz)
    · rw [← hprop m hm, not_not]
      exact h.longest m (by omega) hlt
  · rw [h.eq, hprop n hn, piece_piece hn hl]
    rfl

/-- The size that is found within a limit. -/
theorem consumedSize_next (hT : T.Ok) (hx : CodePoints xs) (hl : limit ≤ xs.length) :
    consumedSize T forward s.emoji s.tree s.ignoreCase (encode (piece forward xs limit)) =
      pieceSize forward xs
        (next (s.Known T forward xs) (s.Wanted T forward xs) (s.InRadix T forward xs) limit) := by
  have hp : CodePoints (piece forward xs limit) := codePoints_piece hx
  have hemoji : emojiSize T forward s.emoji s.ignoreCase (encode (piece forward xs limit)) =
      pieceSize forward xs (wanted (s.Known T forward xs) (s.Wanted T forward xs) limit) := by
    unfold emojiSize
    by_cases hf : s.emoji = 0
    · rw [if_neg (by simpa using hf), wanted, if_neg (fun h => h.1.1 hf), pieceSize_zero]
    rw [if_pos (by simpa using hf)]
    obtain ⟨n, h⟩ := findIn_encode hT hT.emoji hp s.ignoreCase forward
    obtain ⟨hn, hr⟩ := Finds.eq_findGreatest hl h
    have hknown : Nat.findGreatest (s.Known T forward xs) limit = n := by
      rw [hn]
      congr 1
      ext m
      exact and_iff_right hf
    rw [wanted, hknown, hr]
    by_cases hw : s.Wanted T forward xs n
    · rw [if_pos hw, if_pos (by simpa using ⟨hw.1.2, hw.2⟩)]
    · rw [if_neg hw, if_neg, pieceSize_zero]
      intro h'
      rw [Bool.and_eq_true, bne_iff_ne] at h'
      exact hw ⟨⟨hf, h'.1⟩, h'.2⟩
  have hradix : ∀ tree, s.tree = some tree → tree = s.radix := by
    intro tree h
    unfold StrSet.tree at h
    split at h
    · cases h
    · exact (Option.some.inj h).symm
  rw [consumedSize_eq, hemoji, next]
  cases htree : s.tree with
  | none =>
    have hempty : s.radix.empty = true := by
      unfold StrSet.tree at htree
      split at htree
      · assumption
      · cases htree
    have hnone : Nat.findGreatest (s.InRadix T forward xs) limit = 0 := by
      rw [Nat.findGreatest_eq_zero_iff]
      intro m _ _ h
      exact h (s.texts.lookup_of_empty hempty _)
    rw [hnone, Nat.max_zero]
  | some tree =>
    obtain rfl := hradix tree htree
    obtain ⟨n, h⟩ := findIn_encode hT s.texts hp s.ignoreCase forward
    obtain ⟨hn, hr⟩ := Finds.eq_findGreatest hl h
    have hgreatest : Nat.findGreatest (s.InRadix T forward xs) limit = n := hn.symm
    have hle : n ≤ xs.length := by
      have := Nat.findGreatest_le (P := s.InRadix T forward xs) limit
      omega
    have hwle : wanted (s.Known T forward xs) (s.Wanted T forward xs) limit ≤ xs.length :=
      le_trans wanted_le hl
    simp only [hgreatest, hr]
    split
    · exact pieceSize_max hx hwle hle
    · next hz =>
      -- nothing was found in the radix tree
      have hn₀ : n = 0 := by
        by_contra hne
        have := Nat.findGreatest_of_ne_zero hgreatest hne
        exact hz (bne_iff_ne.2 this)
      rw [hn₀, Nat.max_zero]

theorem sizes_zero {known wanted other : Nat → Prop} [DecidablePred known] [DecidablePred wanted]
    [DecidablePred other] : sizes known wanted other fuel 0 = [] := by
  cases fuel with
  | zero => rfl
  | succ fuel =>
    unfold sizes
    rw [if_pos (Nat.le_zero.1 next_le)]

/-- What the loop of a string set comes to. -/
theorem positionsLoop_eq {S : Subject} (hT : S.tables.Ok) (hcs : CodePoints cs)
    (hS : S.bytes = encode cs) (hi : i ≤ cs.length) (hl : limit ≤ (beside forward cs i).length)
    (hf : limit < fuel) :
    s.positionsLoop S forward (off cs i) fuel (pieceSize forward (beside forward cs i) limit) =
      (sizes (s.Known S.tables forward (beside forward cs i))
        (s.Wanted S.tables forward (beside forward cs i))
        (fun n => s.InRadix S.tables forward (beside forward cs i) n ∨
          (n = 1 ∧ s.charTest S.tables forward (beside forward cs i) = true)) fuel limit).map
        fun n => off cs (indexAfter forward i n) := by
  have hx : CodePoints (beside forward cs i) := codePoints_beside hcs
  induction fuel generalizing limit with
  | zero => omega
  | succ fuel ih =>
    rcases Nat.eq_zero_or_pos limit with rfl | hpos
    · rw [sizes_zero, pieceSize_zero]
      rfl
    obtain ⟨c, hc, hconsume⟩ : ∃ c, piece forward (beside forward cs i) 1 = [c] ∧
        consume (encode cs) forward (off cs i) = some (c, off cs (indexAfter forward i 1)) :=
      consume_beside hcs hi (by omega)
    have hsize : pieceSize forward (beside forward cs i) limit ≠ 0 := by
      rw [Ne, pieceSize_eq_zero hx hl]
      omega
    rw [positionsLoop, hS, hconsume, if_pos (by simpa using hsize), radixRef_piece hi hl,
      consumedSize_next hT hx hl, sizes, next_or_one]
    generalize hn : next (s.Known S.tables forward (beside forward cs i))
      (s.Wanted S.tables forward (beside forward cs i))
      (s.InRadix S.tables forward (beside forward cs i)) limit = n
    have hnl : n ≤ limit := hn ▸ next_le
    by_cases hn₀ : n = 0
    · -- no string is left: the single code points are tried
      subst hn₀
      rw [pieceSize_zero, if_pos rfl]
      simp only [bne_self_eq_false, Bool.false_eq_true, if_false]
      unfold charTest
      rw [hc]
      cases hch : s.chars with
      | none => simp
      | some a =>
        simp only [Atom.iter, hS, hconsume]
        by_cases ht : a.test S.tables c = true
        · simp [ht, hpos, sizes_zero]
        · simp [ht]
    · have hne : pieceSize forward (beside forward cs i) n ≠ 0 := by
        rw [Ne, pieceSize_eq_zero hx (by omega)]
        exact hn₀
      obtain ⟨k, rfl⟩ : ∃ k, n = k + 1 := ⟨n - 1, by omega⟩
      simp only [if_neg hn₀, if_pos (bne_iff_ne.2 hne)]
      rw [off_indexAfter hi (by omega), shortenSize_piece hcs hi (by omega), ih (by omega) (by omega)]
      rfl

/-! ## The limit -/

theorem off_indexAfter_inj (hcs : CodePoints cs) (hi : i ≤ cs.length) {m : Nat}
    (hn : n ≤ (beside forward cs i).length) (hm : m ≤ (beside forward cs i).length)
    (h : off cs (indexAfter forward i n) = off cs (indexAfter forward i m)) : n = m := by
  rw [beside_length hi] at hn hm
  unfold indexAfter at h
  cases forward with
  | true =>
    simp only [if_true] at hn hm h
    have := (off_inj hcs (by omega) (by omega)).1 h
    omega
  | false =>
    simp only [Bool.false_eq_true, if_false] at hn hm h
    have := (off_inj hcs (by omega) (by omega)).1 h
    omega

theorem pieceProperty_le (hT : T.Ok) (hx : CodePoints xs) (hn : n ≤ xs.length)
    (h : pieceProperty T tree caseFold forward xs n ≠ 0) : n ≤ tree.maxCodePointCount := by
  have := RadixTree.length_le_maxCodePointCount
    (foldText_codePoints hT caseFold (codePoints_piece hx)) h
  rwa [foldText_length, piece_length hn] at this

/-- A string that is not too large for the tree counts fewer than 2 ^ 16 characters. -/
theorem maxCodePointCount_lt (h : ∀ e ∈ tree.iterate [], e.1.length ≤ RadixTree.maxStringSize) :
    tree.maxCodePointCount < 2 ^ 16 := by
  have hcount : ∀ (fuel : Nat) (bs : List Nat), RadixTree.codePointCount fuel bs ≤ fuel := by
    intro fuel
    induction fuel with
    | zero => exact fun bs => Nat.le_refl 0
    | succ fuel ih =>
      rintro (_ | ⟨b, bs⟩)
      · exact Nat.zero_le _
      · exact Nat.succ_le_succ (ih _)
  have hfold : ∀ (l : List Nat) (m : Nat), m ≤ RadixTree.maxStringSize →
      (∀ x ∈ l, x ≤ RadixTree.maxStringSize) → l.foldl max m ≤ RadixTree.maxStringSize := by
    intro l
    induction l with
    | nil => exact fun m hm _ => hm
    | cons x l ih =>
      intro m hm hl
      obtain ⟨hx, hl⟩ := List.forall_mem_cons.1 hl
      exact ih _ (max_le hm hx) hl
  refine Nat.lt_of_le_of_lt (hfold _ 0 (Nat.zero_le _) ?_) (by decide)
  intro x hx
  obtain ⟨e, he, rfl⟩ := List.mem_map.1 hx
  exact Nat.le_trans (hcount _ _) (h e he)

end

/-! ## The members -/

end StrSet

/-- The classes of `RGIEmojiSeq`; `RGI_Emoji` is all of them. -/
inductive RGIEmojiSeq where
  | basicEmoji
  | emojiKeycapSequence
  | modifierSequence
  | flagSequence
  | tagSequence
  | zwjSequence
  deriving DecidableEq, Repr

/-- The flag of a class. -/
def RGIEmojiSeq.flag : RGIEmojiSeq → Nat
  | .basicEmoji => 0x01
  | .emojiKeycapSequence => 0x02
  | .modifierSequence => 0x04
  | .flagSequence => 0x08
  | .tagSequence => 0x10
  | .zwjSequence => 0x20

/-- The emoji trie as it is generated: a sequence has the flag of its class, and what it folds to
has that flag and `CASE_IGNORE`, if it is another text. -/
structure EmojiClasses (T : Tables) (inClass : RGIEmojiSeq → List Nat → Prop) : Prop where
  one : ∀ ys, CodePoints ys → T.emojiTrie.lookup (encode ys) ≠ 0 →
    ∃ k : RGIEmojiSeq, T.emojiTrie.lookup (encode ys) = k.flag ∨
      T.emojiTrie.lookup (encode ys) = k.flag + 0x80
  plain : ∀ k ys, CodePoints ys → (T.emojiTrie.lookup (encode ys) = k.flag ↔ inClass k ys)
  folded : ∀ k ys, CodePoints ys → (T.emojiTrie.lookup (encode ys) = k.flag + 0x80 ↔
    ∃ q, inClass k q ∧ q ≠ ys ∧ q.map T.simpleCaseFolding = ys)
  idem : ∀ c, T.simpleCaseFolding (T.simpleCaseFolding c) = T.simpleCaseFolding c
  nonempty : ∃ ys, CodePoints ys ∧ T.emojiTrie.lookup (encode ys) ≠ 0

theorem hasFlag_rawFlags {flags : Nat} (h : flags < 64) (ignoreCase : Bool) (k : RGIEmojiSeq) :
    hasFlag (rawFlags flags ignoreCase) k.flag = hasFlag flags k.flag ∧
      hasFlag (rawFlags flags ignoreCase) (k.flag + 0x80) = (ignoreCase && hasFlag flags k.flag) := by
  have hall : ∀ f : Fin 64, ∀ ic : Bool, ∀ p ∈ [0x01, 0x02, 0x04, 0x08, 0x10, 0x20],
      hasFlag (rawFlags f ic) p = hasFlag f p ∧
        hasFlag (rawFlags f ic) (p + 0x80) = (ic && hasFlag f p) := by
    decide
  exact hall ⟨flags, h⟩ ignoreCase k.flag (by cases k <;> decide)

theorem RGIEmojiSeq.flag_ne_zero (k : RGIEmojiSeq) : k.flag ≠ 0 := by
  cases k <;> decide

namespace StrSet

section
variable (T : Tables) (inClass : RGIEmojiSeq → List Nat → Prop) (s : StrSet) (forward : Bool)
  (xs : List Nat)

/-- The piece is a sequence of a selected class, up to case if case is ignored. -/
def InEmoji (n : Nat) : Prop :=
  ∃ k : RGIEmojiSeq, hasFlag s.emoji k.flag = true ∧ ∃ q, inClass k q ∧
    foldText T s.ignoreCase q = foldText T s.ignoreCase (piece forward xs n)

/-- The piece is a string of the set. -/
def Holds (n : Nat) : Prop :=
  0 < n ∧ n ≤ xs.length ∧ (s.InEmoji T inClass forward xs n ∨ s.InRadix T forward xs n ∨
    n = 1 ∧ s.charTest T forward xs = true)

/-- No sequence of the trie that is in no selected class hides a sequence of a selected class:
another string of the set lies between them, or the shorter one is a string of the radix tree or
a single code point as well. -/
def NothingHidden : Prop :=
  ∀ n, 0 < n → s.InEmoji T inClass forward xs n → ¬ s.InRadix T forward xs n →
    ¬ (n = 1 ∧ s.charTest T forward xs = true) →
    ∀ m, n < m → m ≤ xs.length → pieceProperty T T.emojiTrie s.ignoreCase forward xs m ≠ 0 →
      ¬ s.InEmoji T inClass forward xs m →
      ∃ k, n < k ∧ k ≤ m ∧ (s.InEmoji T inClass forward xs k ∨ s.InRadix T forward xs k)

end

/-- The positions tried are those after the members of the set, longest first. -/
def TriesMembers (S : Subject) (inClass : RGIEmojiSeq → List Nat → Prop) (s : StrSet)
    (forward : Bool) (cs : List Nat) (i : Nat) : Prop :=
  ∃ ns : List Nat, s.positions S forward (off cs i) =
      ns.map (fun n => off cs (indexAfter forward i n)) ∧
    ns.Pairwise (· > ·) ∧ ∀ n, n ∈ ns ↔ s.Holds S.tables inClass forward (beside forward cs i) n

section
variable {T : Tables} {inClass : RGIEmojiSeq → List Nat → Prop} {s : StrSet} {forward : Bool}
  {cs xs : List Nat} {i n : Nat}

/-- The flags of the trie say which classes a piece is in. -/
theorem wanted_iff (hT : T.Ok) (hc : EmojiClasses T inClass) (hf : s.emoji < 64)
    (hx : CodePoints xs) : s.Wanted T forward xs n ↔ s.InEmoji T inClass forward xs n := by
  have hp : CodePoints (foldText T s.ignoreCase (piece forward xs n)) :=
    foldText_codePoints hT s.ignoreCase (codePoints_piece hx)
  constructor
  · rintro ⟨⟨-, hne⟩, hflag⟩
    unfold pieceProperty at hne hflag
    obtain ⟨k, hk | hk⟩ := hc.one _ hp hne
    · rw [hk, (hasFlag_rawFlags hf s.ignoreCase k).1] at hflag
      refine ⟨k, hflag, _, (hc.plain k _ hp).1 hk, ?_⟩
      unfold foldText
      split
      · simp [hc.idem]
      · rfl
    · rw [hk, (hasFlag_rawFlags hf s.ignoreCase k).2, Bool.and_eq_true] at hflag
      obtain ⟨q, hq, -, hfold⟩ := (hc.folded k _ hp).1 hk
      refine ⟨k, hflag.2, q, hq, ?_⟩
      rw [← hfold]
      unfold foldText
      rw [if_pos hflag.1]
  · rintro ⟨k, hflag, q, hq, hfold⟩
    have hemoji : s.emoji ≠ 0 := by
      intro h0
      rw [h0] at hflag
      cases k <;> exact absurd hflag (by decide)
    unfold Wanted Known pieceProperty
    by_cases heq : q = foldText T s.ignoreCase (piece forward xs n)
    · rw [(hc.plain k _ hp).2 (heq ▸ hq), (hasFlag_rawFlags hf s.ignoreCase k).1]
      exact ⟨⟨hemoji, k.flag_ne_zero⟩, hflag⟩
    · have hic : s.ignoreCase = true := by
        by_contra hic
        refine heq (Eq.trans ?_ hfold)
        unfold foldText
        rw [if_neg hic]
      have hmap : q.map T.simpleCaseFolding = foldText T s.ignoreCase (piece forward xs n) := by
        rw [← hfold]
        unfold foldText
        rw [if_pos hic]
      rw [(hc.folded k _ hp).2 ⟨q, hq, heq, hmap⟩, (hasFlag_rawFlags hf s.ignoreCase k).2, hic]
      exact ⟨⟨hemoji, by omega⟩, hflag⟩

/-- The sizes that are looked for are those of the members. -/
theorem holds_iff (hT : T.Ok) (hc : EmojiClasses T inClass) (hf : s.emoji < 64)
    (hx : CodePoints xs) (hn : n ≤ xs.length) :
    Member (s.Wanted T forward xs)
        (fun n => s.InRadix T forward xs n ∨ (n = 1 ∧ s.charTest T forward xs = true)) n ↔
      s.Holds T inClass forward xs n := by
  unfold Member Holds
  rw [wanted_iff hT hc hf hx]
  exact and_congr_right fun _ => (and_iff_right hn).symm

theorem tree_of_inRadix (h : s.InRadix T forward xs n) : s.tree = some s.radix := by
  rw [StrSet.tree, if_neg]
  intro hempty
  exact h (s.texts.lookup_of_empty hempty _)

/-- No string of the set is longer than the limit. -/
theorem le_limit (hT : T.Ok) (hx : CodePoints xs) (hn : n ≤ xs.length)
    (hsize : ∀ e ∈ s.radix.iterate [], e.1.length ≤ RadixTree.maxStringSize)
    (h : s.Known T forward xs n ∨ s.InRadix T forward xs n) :
    n ≤ maxCodePoints T s.emoji (s.tree.map (·.maxCodePointCount % 2 ^ 16)) := by
  rcases h with h | h
  · have hle := pieceProperty_le hT hx hn h.2
    unfold maxCodePoints
    rw [if_pos (bne_iff_ne.2 h.1)]
    cases s.tree with
    | none => exact hle
    | some tree => exact le_max_of_le_left hle
  · have hle := pieceProperty_le hT hx hn h
    rw [tree_of_inRadix h]
    unfold maxCodePoints
    rw [Option.map_some, Nat.mod_eq_of_lt (maxCodePointCount_lt hsize)]
    exact le_max_of_le_right hle

/-- A set with a string looks at one character at least. -/
theorem limit_pos (hT : T.Ok) (hc : EmojiClasses T inClass)
    (hsize : ∀ e ∈ s.radix.iterate [], e.1.length ≤ RadixTree.maxStringSize)
    (hs : s.emoji ≠ 0 ∨ ∃ ys, s.radix.lookup ys ≠ 0) :
    0 < maxCodePoints T s.emoji (s.tree.map (·.maxCodePointCount % 2 ^ 16)) := by
  have hcount : ∀ {tree : RadixTree} {ys : List Nat}, tree.Texts → tree.lookup ys ≠ 0 →
      0 < tree.maxCodePointCount := by
    intro tree ys ht hne
    obtain ⟨zs, hzs, hcp, rfl⟩ := ht.texts ys hne
    have := RadixTree.length_le_maxCodePointCount hcp hne
    have := List.length_pos_iff.2 hzs
    omega
  rcases hs with hs | ⟨ys, hne⟩
  · obtain ⟨ys, -, hne⟩ := hc.nonempty
    have hpos := hcount hT.emoji hne
    unfold maxCodePoints
    rw [if_pos (bne_iff_ne.2 hs)]
    cases s.tree with
    | none => exact hpos
    | some tree => exact lt_max_of_lt_left hpos
  · have htree : s.tree = some s.radix := by
      rw [StrSet.tree, if_neg]
      intro hempty
      exact hne (s.texts.lookup_of_empty hempty _)
    rw [htree]
    unfold maxCodePoints
    rw [Option.map_some, Nat.mod_eq_of_lt (maxCodePointCount_lt hsize)]
    exact lt_max_of_lt_right (hcount s.texts hne)

/-- Hidden in the search for sizes is what is hidden in the set. -/
theorem visible_iff (hT : T.Ok) (hc : EmojiClasses T inClass) (hf : s.emoji < 64)
    (hx : CodePoints xs) {limit : Nat} (hl : limit ≤ xs.length)
    (hle : ∀ n ≤ xs.length, s.Known T forward xs n → n ≤ limit) :
    (∀ n ≤ limit, Member (s.Wanted T forward xs)
        (fun n => s.InRadix T forward xs n ∨ (n = 1 ∧ s.charTest T forward xs = true)) n →
      Visible (s.Known T forward xs) (s.Wanted T forward xs)
        (fun n => s.InRadix T forward xs n ∨ (n = 1 ∧ s.charTest T forward xs = true)) limit n) ↔
      s.NothingHidden T inClass forward xs := by
  have hw : ∀ n, s.Wanted T forward xs n ↔ s.InEmoji T inClass forward xs n := fun n =>
    wanted_iff hT hc hf hx
  constructor
  · intro h n hn hemoji hradix hchar m hnm hm hknown hnot
    have hwanted : s.Wanted T forward xs n := (hw n).2 hemoji
    have hknown' : s.Known T forward xs m := ⟨hwanted.1.1, hknown⟩
    have hml := hle m hm hknown'
    obtain ⟨k, hnk, hkm, -, hk⟩ := h n (by omega) ⟨hn, .inl hwanted⟩ hwanted
      (fun ho => ho.elim hradix hchar) m hnm hml hknown' fun hm => hnot ((hw m).1 hm)
    refine ⟨k, hnk, hkm, ?_⟩
    rcases hk with hk | hk | ⟨hk, -⟩
    · exact .inl ((hw k).1 hk)
    · exact .inr hk
    · omega
  · intro h n hn hmember hwanted hother m hnm hm hknown hnot
    rw [not_or] at hother
    obtain ⟨k, hnk, hkm, hk⟩ := h n hmember.1 ((hw n).1 hwanted) hother.1 hother.2 m hnm (by omega)
      hknown.2 fun hm => hnot ((hw m).2 hm)
    refine ⟨k, hnk, hkm, by omega, ?_⟩
    rcases hk with hk | hk
    · exact .inl ((hw k).2 hk)
    · exact .inr (.inl hk)

/-- A string set tries exactly its members that stand at the cursor, longest first, unless the
emoji trie hides one: then that one is missed. -/
theorem positions_iff {S : Subject} (hT : S.tables.Ok) (hc : EmojiClasses S.tables inClass)
    (hcs : CodePoints cs) (hS : S.bytes = encode cs) (hi : i ≤ cs.length) (hf : s.emoji < 64)
    (hsize : ∀ e ∈ s.radix.iterate [], e.1.length ≤ RadixTree.maxStringSize)
    (hs : s.emoji ≠ 0 ∨ ∃ ys, s.radix.lookup ys ≠ 0) :
    TriesMembers S inClass s forward cs i ↔
      s.NothingHidden S.tables inClass forward (beside forward cs i) := by
  have hx : CodePoints (beside forward cs i) := codePoints_beside hcs
  have hpos := limit_pos hT hc hsize hs
  have hle : ∀ n, n ≤ (beside forward cs i).length →
      s.Known S.tables forward (beside forward cs i) n ∨
        s.InRadix S.tables forward (beside forward cs i) n →
      n ≤ maxCodePoints S.tables s.emoji (s.tree.map (·.maxCodePointCount % 2 ^ 16)) :=
    fun n hn => le_limit hT hx hn hsize
  have hmax : s.maxSize S forward (off cs i) =
      pieceSize forward (beside forward cs i)
        (min (maxCodePoints S.tables s.emoji (s.tree.map (·.maxCodePointCount % 2 ^ 16)))
          (beside forward cs i).length) := by
    unfold StrSet.maxSize
    rw [hS, remainSize_off hcs _ hi]
  generalize maxCodePoints S.tables s.emoji (s.tree.map (·.maxCodePointCount % 2 ^ 16)) = count
    at hpos hle hmax
  obtain ⟨limit, hlimit⟩ : ∃ limit, limit = min count (beside forward cs i).length := ⟨_, rfl⟩
  rw [← hlimit] at hmax
  have hl : limit ≤ (beside forward cs i).length := by omega
  have hfuel : limit ≤ pieceSize forward (beside forward cs i) limit := le_pieceSize hx hl
  have hpositions := positionsLoop_eq (s := s) hT hcs hS hi hl (Nat.lt_succ_of_le hfuel)
  rw [← visible_iff hT hc hf hx hl fun n hn hk => by
    have := hle n hn (.inl hk)
    omega]
  rw [← forall_mem_sizes_iff (fun m hm => hm.1) (Nat.le_succ_of_le hfuel)]
  unfold TriesMembers StrSet.positions
  rw [hmax]
  simp only
  rw [hpositions]
  constructor
  · rintro ⟨ns, hns, -, hmem⟩ n hn hmember
    have hn' : n ≤ (beside forward cs i).length := by omega
    have hin : off cs (indexAfter forward i n) ∈ ns.map fun n => off cs (indexAfter forward i n) :=
      List.mem_map_of_mem ((hmem n).2 ((holds_iff hT hc hf hx hn').1 hmember))
    rw [← hns] at hin
    obtain ⟨k, hk, heq⟩ := List.mem_map.1 hin
    have hkl := (bound_of_mem_sizes hk).1
    rwa [off_indexAfter_inj hcs hi (by omega) hn' heq] at hk
  · intro h
    refine ⟨_, rfl, pairwise_sizes, fun n => ⟨fun hn => ?_, fun hn => ?_⟩⟩
    · obtain ⟨hnl, hmember⟩ := bound_of_mem_sizes hn
      exact (holds_iff hT hc hf hx (by omega)).1 hmember
    · obtain ⟨hn₀, hn', hcase⟩ := hn
      refine h n ?_ ((holds_iff hT hc hf hx hn').2 ⟨hn₀, hn', hcase⟩)
      rcases hcase with hemoji | hradix | ⟨rfl, -⟩
      · have := hle n hn' (.inl ((wanted_iff hT hc hf hx).2 hemoji).1)
        omega
      · have := hle n hn' (.inr hradix)
        omega
      · omega

end

end StrSet

/-! ## A hidden member -/

/-- A woman with a skin tone. -/
def woman : List Nat := [0x1F469, 0x1F3FB]

/-- A woman health worker with that skin tone; the sequence goes on from `woman`. -/
def healthWorker : List Nat := woman ++ [0x200D, 0x2695, 0xFE0F]

/-- Two of the emoji sequences. -/
def Tables.twoEmoji : Tables where
  __ := Tables.ascii
  emojiTrie := ((RadixTree.nil.add (encode woman) 0x04).2.add (encode healthWorker) 0x20).2

def twoClasses (k : RGIEmojiSeq) (ys : List Nat) : Prop :=
  (k = .modifierSequence ∧ ys = woman) ∨ (k = .zwjSequence ∧ ys = healthWorker)

theorem codePoints_healthWorker : CodePoints healthWorker := by
  simp [CodePoints, healthWorker, woman, codePointMax]

theorem codePoints_woman : CodePoints woman := by
  simp [CodePoints, woman, codePointMax]

theorem Tables.twoEmoji_ok : Tables.twoEmoji.Ok where
  grapheme := Tables.ascii_ok.grapheme
  folding_le := Tables.ascii_ok.folding_le
  unfold := Tables.ascii_ok.unfold
  emoji := (RadixTree.texts_nil.add codePoints_woman _).add codePoints_healthWorker _

theorem lookup_twoEmoji {ys : List Nat} (h : CodePoints ys) :
    Tables.twoEmoji.emojiTrie.lookup (encode ys) =
      if ys = healthWorker then 0x20 else if ys = woman then 0x04 else 0 := by
  have hnil : ∀ bs, RadixTree.nil.lookup bs = 0 := fun bs =>
    RadixTree.texts_nil.lookup_of_empty rfl bs
  have hinj : ∀ {zs : List Nat}, CodePoints zs → (encode ys = encode zs ↔ ys = zs) := fun hz =>
    ⟨encode_inj h hz, fun he => he ▸ rfl⟩
  have hfirst : ∀ bs, ((RadixTree.nil.add (encode woman) 0x04).2).lookup bs =
      if bs = encode woman then 0x04 else 0 := by
    intro bs
    rw [RadixTree.lookup_add _ _ _ (by decide) (by decide) (by decide), hnil, hnil]
    simp
  have hne : encode healthWorker ≠ encode woman := by decide
  unfold Tables.twoEmoji
  simp only
  rw [RadixTree.lookup_add _ _ _ (by decide) (by decide) (by decide), hfirst, hfirst, if_neg hne]
  simp only [hinj codePoints_healthWorker, hinj codePoints_woman]
  simp

theorem twoClasses_ok : EmojiClasses Tables.twoEmoji twoClasses where
  one ys h hne := by
    rw [lookup_twoEmoji h] at hne ⊢
    split
    · exact ⟨.zwjSequence, .inl rfl⟩
    · split
      · exact ⟨.modifierSequence, .inl rfl⟩
      · next h₁ h₂ => rw [if_neg h₁, if_neg h₂] at hne; exact absurd rfl hne
  plain k ys h := by
    rw [lookup_twoEmoji h]
    have hne : woman ≠ healthWorker := by decide
    unfold twoClasses
    split
    · next he =>
      subst he
      cases k <;> simp [RGIEmojiSeq.flag, hne.symm]
    · next h₁ =>
      split
      · next he =>
        subst he
        cases k <;> simp [RGIEmojiSeq.flag, hne]
      · next h₂ => cases k <;> simp [RGIEmojiSeq.flag, h₁, h₂]
  folded k ys h := by
    rw [lookup_twoEmoji h]
    have hfix : ∀ q, twoClasses k q → q.map Tables.twoEmoji.simpleCaseFolding = q := by
      rintro q (⟨-, rfl⟩ | ⟨-, rfl⟩) <;> decide
    constructor
    · intro he
      have := k.flag_ne_zero
      cases k <;> (unfold RGIEmojiSeq.flag at he; split at he <;> (try split at he) <;> omega)
    · rintro ⟨q, hq, hne, hfold⟩
      rw [hfix q hq] at hfold
      exact absurd hfold hne
  idem c := by
    show Tables.ascii.simpleCaseFolding (Tables.ascii.simpleCaseFolding c) =
      Tables.ascii.simpleCaseFolding c
    simp only [Tables.ascii]
    split
    · rw [if_neg (by omega)]
    · rfl
  nonempty := ⟨woman, codePoints_woman, by
    rw [lookup_twoEmoji codePoints_woman]
    decide⟩

/-- The class of the modifier sequences alone. -/
def StrSet.modifiers : StrSet := ⟨0x04, .nil, none, false, RadixTree.texts_nil⟩

theorem positions_iff_sample :
    StrSet.TriesMembers ⟨.twoEmoji, encode healthWorker, []⟩ twoClasses .modifiers true
        healthWorker 0 ↔
      StrSet.modifiers.NothingHidden .twoEmoji twoClasses true (beside true healthWorker 0) :=
  @StrSet.positions_iff twoClasses .modifiers true healthWorker 0
    ⟨.twoEmoji, encode healthWorker, []⟩ Tables.twoEmoji_ok twoClasses_ok codePoints_healthWorker
    rfl (by decide) (by decide) (by simp [StrSet.modifiers, RadixTree.nil, RadixTree.iterate,
      RadixTree.iterateChildren]) (.inl (by decide))

/-- In front of a health worker the set has the woman with her skin tone, but tries nothing. -/
theorem positions_hidden :
    ¬ StrSet.TriesMembers ⟨.twoEmoji, encode healthWorker, []⟩ twoClasses .modifiers true
      healthWorker 0 := by
  have hnone : StrSet.modifiers.positions ⟨.twoEmoji, encode healthWorker, []⟩ true
      (off healthWorker 0) = [] := by decide
  rintro ⟨ns, hns, -, hmem⟩
  have hwoman : StrSet.modifiers.Holds .twoEmoji twoClasses true (beside true healthWorker 0) 2 :=
    ⟨by decide, by decide, .inl ⟨.modifierSequence, by decide, woman, .inl ⟨rfl, rfl⟩, by decide⟩⟩
  rw [hnone] at hns
  have := (hmem 2).2 hwoman
  rw [List.map_eq_nil_iff.1 hns.symm] at this
  cases this

end Arsh.Regex
