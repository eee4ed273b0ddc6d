import Arsh.Regex.StrSet

/-!
# Finding the strings of a set

What `findLongestMatched` and `findBackwardLongestMatched` find in a text of whole characters: the
longest of its beginnings (or backwards of its ends) that is in the tree, case folded when case is
ignored.
-/

namespace Arsh.Regex

open UnicodeUtil

/-- What the tables generated from the Unicode data promise. -/
structure Tables.Ok (T : Tables) : Prop where
  grapheme : GraphemeOk T
  folding_le : ∀ c, c ≤ codePointMax → T.simpleCaseFolding c ≤ codePointMax
  unfold : ∀ c, c = T.simpleCaseFolding c ∨ c ∈ T.simpleCaseUnfold (T.simpleCaseFolding c)
  emoji : T.emojiTrie.Texts

/-- The characters as a set that may ignore case compares them. -/
def foldText (T : Tables) (caseFold : Bool) (xs : List Nat) : List Nat :=
  if caseFold then xs.map T.simpleCaseFolding else xs

/-- The `n` characters next to the cursor. -/
def piece (forward : Bool) (xs : List Nat) (n : Nat) : List Nat :=
  if forward then xs.take n else xs.drop (xs.length - n)

section
variable {T : Tables} {xs ys : List Nat} {tree : RadixTree}

@[simp] theorem foldText_length (T : Tables) (caseFold : Bool) (xs : List Nat) :
    (foldText T caseFold xs).length = xs.length := by
  unfold foldText
  split <;> simp

theorem foldText_take (T : Tables) (caseFold : Bool) (xs : List Nat) (n : Nat) :
    (foldText T caseFold xs).take n = foldText T caseFold (xs.take n) := by
  unfold foldText
  split
  · exact (List.map_take ..).symm
  · rfl

theorem foldText_codePoints (hT : T.Ok) (caseFold : Bool) (hx : CodePoints xs) :
    CodePoints (foldText T caseFold xs) := by
  unfold foldText
  split
  · intro c hc
    obtain ⟨d, hd, rfl⟩ := List.mem_map.1 hc
    exact hT.folding_le d (hx d hd)
  · exact hx

/-! ## The longest beginning -/

/-- The longest string of the tree in a text; the empty one when there is none. -/
theorem findLongest_encode (ht : tree.Texts) (hy : CodePoints ys) :
    ∃ n ≤ ys.length,
      tree.findLongestMatched (encode ys) = (off ys n, tree.lookup (encode (ys.take n))) ∧
      (tree.lookup (encode (ys.take n)) = 0 → n = 0) ∧
      ∀ m ≤ ys.length, n < m → tree.lookup (encode (ys.take m)) = 0 := by
  have hoff : ∀ m ≤ ys.length, off ys m ≤ (encode ys).length := fun m hm =>
    (off_length ys).symm ▸ off_le hy hm (Nat.le_refl _)
  rcases RadixTree.findLongestMatched_spec ht.ok (encode ys) with ⟨he, hz⟩ | ⟨k, hk, hne, he, hmax⟩
  · refine ⟨0, Nat.zero_le _, ?_, fun _ => rfl, fun m hm _ => ?_⟩
    · rw [he, List.take_zero, encode_nil, ht.lookup_nil, off_zero]
    · rw [← encode_take]
      exact hz _ (hoff m hm)
  · obtain ⟨zs, -, hzs, hz⟩ := ht.texts _ hne
    have hpre : zs <+: ys :=
      (encode_prefix_iff hzs hy).1 (hz ▸ List.take_prefix k (encode ys))
    have htake : ys.take zs.length = zs := (List.prefix_iff_eq_take.1 hpre).symm
    have hk' : k = off ys zs.length := by
      rw [off, htake, ← hz, List.length_take, Nat.min_eq_left hk]
    refine ⟨zs.length, hpre.length_le, ?_, fun h => ?_, fun m hm hlt => ?_⟩
    · rw [he, hz, htake, ← hk']
    · rw [htake, ← hz] at h
      exact absurd h hne
    · by_contra h
      rw [← encode_take] at h
      have := hmax _ (hoff m hm) h
      have := off_lt hy hlt hm
      omega

/-- `foldLoop` folds character by character. -/
theorem foldLoop_encode (hx : CodePoints xs) {fuel i : Nat} (hi : i ≤ xs.length)
    (hf : xs.length - i ≤ fuel) :
    foldLoop T (encode xs) fuel (off xs i) = encode ((xs.drop i).map T.simpleCaseFolding) := by
  induction fuel generalizing i with
  | zero =>
    rw [List.drop_of_length_le (by omega)]
    rfl
  | succ fuel ih =>
    rw [foldLoop]
    rcases Nat.lt_or_eq_of_le hi with hlt | rfl
    · rw [if_neg (by rw [off_eq_end hx hi]; omega), unsafeNextUtf8_off hx hlt,
        List.drop_eq_getElem_cons hlt, List.map_cons, encode_cons]
      simp only
      rw [ih hlt (by omega)]
    · rw [if_pos (off_length xs), List.drop_length]
      rfl

theorem foldText_encode (hx : CodePoints xs) (caseFold : Bool) :
    (if caseFold = true then foldLoop T (encode xs) (encode xs).length 0 else encode xs) =
      encode (foldText T caseFold xs) := by
  unfold foldText
  split
  · have := @foldLoop_encode T xs hx (encode xs).length 0 (Nat.zero_le _)
      (Nat.le_trans (Nat.sub_le ..) (RadixTree.length_le_encode hx))
    rwa [off_zero, List.drop_zero] at this
  · rfl

/-- Steps over as many characters as the first text has. -/
theorem remapLoop_encode (hx : CodePoints xs) (hy : CodePoints ys) (hle : xs.length ≤ ys.length)
    {fuel i : Nat} (hi : i ≤ xs.length) (hf : xs.length - i ≤ fuel) :
    remapLoop (encode xs) (encode ys) fuel (off xs i) (off ys i) = off ys xs.length := by
  induction fuel generalizing i with
  | zero =>
    have : i = xs.length := by omega
    rw [this]
    rfl
  | succ fuel ih =>
    rw [remapLoop]
    rcases Nat.lt_or_eq_of_le hi with hlt | rfl
    · have h₁ : ¬ off xs i = (encode xs).length := by rw [off_eq_end hx hi]; omega
      have h₂ : ¬ off ys i = (encode ys).length := by rw [off_eq_end hy (by omega)]; omega
      rw [if_neg (by simp [h₁, h₂]), getD_encode_off hx hlt, getD_encode_off hy (by omega),
        ← off_succ hlt, ← off_succ (by omega)]
      exact ih hlt (by omega)
    · rw [if_pos (by simp [off_length])]

/-- A match in the folded text, as one in the text itself. -/
theorem remap_encode (hT : T.Ok) (hx : CodePoints xs) (caseFold : Bool) {n p : Nat}
    (hn : n ≤ xs.length) (hp : p = 0 → n = 0) :
    remap (encode (foldText T caseFold xs)) caseFold (encode xs) (off (foldText T caseFold xs) n, p) =
      (off xs n, p) := by
  unfold remap
  cases caseFold with
  | false => rfl
  | true =>
    by_cases h : p = 0
    · rw [if_neg (by simp [h]), h, hp h, off_zero, off_zero]
    · have hf := foldText_codePoints hT true hx
      have hlen : ((foldText T true xs).take n).length = n := by
        rw [List.length_take, foldText_length, Nat.min_eq_left hn]
      have hfuel : n ≤ off (foldText T true xs) n := by
        have := RadixTree.length_le_encode (hf.take n)
        rwa [hlen] at this
      have := remapLoop_encode (hf.take n) hx (by omega) (Nat.zero_le _)
        (Nat.le_trans (Nat.sub_le ..) (hlen.symm ▸ hfuel))
      rw [off_zero, off_zero, hlen] at this
      rw [if_pos (by simp [h]), encode_take]
      exact congrArg (·, p) this

/-- The property of the piece of `n` characters. -/
def pieceProperty (T : Tables) (tree : RadixTree) (caseFold forward : Bool) (xs : List Nat)
    (n : Nat) : Nat :=
  tree.lookup (encode (foldText T caseFold (piece forward xs n)))

/-- What is found in a text: the longest piece of it that is in the tree, the empty one when there
is none. -/
structure Finds (T : Tables) (tree : RadixTree) (caseFold forward : Bool) (xs : List Nat)
    (r : Nat × Nat) (n : Nat) : Prop where
  le : n ≤ xs.length
  eq : r = ((encode (piece forward xs n)).length, pieceProperty T tree caseFold forward xs n)
  found : pieceProperty T tree caseFold forward xs n = 0 → n = 0
  longest : ∀ m ≤ xs.length, n < m → pieceProperty T tree caseFold forward xs m = 0

theorem findLongestMatched_encode (hT : T.Ok) (ht : tree.Texts) (hx : CodePoints xs)
    (caseFold : Bool) :
    ∃ n, Finds T tree caseFold true xs (findLongestMatched T tree (encode xs) caseFold) n := by
  have hf := foldText_codePoints hT caseFold hx
  obtain ⟨n, hn, he, hz, hmax⟩ := findLongest_encode ht hf
  simp only [foldText_length, foldText_take] at hn he hz hmax
  refine ⟨n, hn, ?_, hz, hmax⟩
  rw [findLongestMatched, foldText_encode hx, he, remap_encode hT hx caseFold hn hz]
  rfl

/-! ## The longest end -/

theorem findBackwardLoop_encode (hT : T.Ok) (ht : tree.Texts) (hx : CodePoints xs)
    (caseFold : Bool) {fuel : Nat} (hf : xs.length ≤ fuel) :
    ∃ n, Finds T tree caseFold false xs
      (findBackwardLoop tree caseFold fuel (encode (foldText T caseFold xs)) (encode xs)) n := by
  have hnone : Finds T tree caseFold false [] (0, 0) 0 := by
    refine ⟨Nat.le_refl _, ?_, fun _ => rfl, fun m hm h => by cases hm; cases h⟩
    have : foldText T caseFold [] = [] := by cases caseFold <;> rfl
    simp [pieceProperty, piece, this, ht.lookup_nil]
  induction fuel generalizing xs with
  | zero =>
    rw [List.length_eq_zero_iff.1 (Nat.le_zero.1 hf)]
    exact ⟨0, hnone⟩
  | succ fuel ih =>
    cases xs with
    | nil =>
      refine ⟨0, ?_⟩
      rw [findBackwardLoop, if_pos (by cases caseFold <;> rfl)]
      exact hnone
    | cons x xs =>
      have hfold := foldText_codePoints hT caseFold hx
      have hlen := foldText_length T caseFold (x :: xs)
      obtain ⟨n, hn, he, hz, hmax⟩ := findLongest_encode ht hfold
      simp only [foldText_length, foldText_take] at hn he hz hmax
      have hne : ¬ (encode (foldText T caseFold (x :: xs))).isEmpty = true := by
        have := RadixTree.length_le_encode hfold
        rw [hlen, List.length_cons] at this
        cases h : encode (foldText T caseFold (x :: xs)) with
        | nil => rw [h] at this; exact absurd this (Nat.not_succ_le_zero _)
        | cons => exact Bool.false_ne_true
      rw [findBackwardLoop, if_neg hne, he, remap_encode hT hx caseFold hn hz]
      simp only
      split
      · next hall =>
        -- the whole text is in the tree
        rw [off_eq_end hx hn] at hall
        subst hall
        refine ⟨(x :: xs).length, Nat.le_refl _, ?_, ?_, fun m hm hlt => by omega⟩
        · rw [off_length]
          simp [pieceProperty, piece]
        · simpa [pieceProperty, piece] using hz
      · next hall =>
        rw [off_eq_end hx hn] at hall
        have hdrop : ∀ (y : Nat) (ys : List Nat), CodePoints (y :: ys) →
            (encode (y :: ys)).drop (utf8ByteSize ((encode (y :: ys)).getD 0 0)) = encode ys := by
          intro y ys hy
          have := getD_encode_off hy (Nat.zero_lt_succ ys.length)
          rw [off_zero] at this
          rw [this, encode_cons]
          exact List.drop_left
        have htail : foldText T caseFold (x :: xs) =
            (if caseFold then T.simpleCaseFolding x else x) :: foldText T caseFold xs := by
          cases caseFold <;> rfl
        have hold : (if caseFold = true then
            (encode (x :: xs)).drop (utf8ByteSize ((encode (x :: xs)).getD 0 0))
            else (encode (foldText T caseFold (x :: xs))).drop
              (utf8ByteSize ((encode (foldText T caseFold (x :: xs))).getD 0 0))) = encode xs := by
          cases caseFold <;> exact hdrop _ _ hx
        rw [hold, htail, hdrop _ _ (htail ▸ hfold)]
        obtain ⟨k, hk, hr, hk0, hkmax⟩ := ih hx.cons.2 (Nat.le_of_succ_le_succ hf)
        -- the ends of the shorter text
        have hpiece : ∀ m ≤ xs.length, piece false (x :: xs) m = piece false xs m := by
          intro m hm
          rw [piece, piece, if_neg Bool.false_ne_true, if_neg Bool.false_ne_true, List.length_cons,
            show xs.length + 1 - m = xs.length - m + 1 by omega, List.drop_succ_cons]
        have hprop : ∀ m ≤ xs.length, pieceProperty T tree caseFold false (x :: xs) m =
            pieceProperty T tree caseFold false xs m := fun m hm => by
          rw [pieceProperty, pieceProperty, hpiece m hm]
        refine ⟨k, Nat.le_succ_of_le hk, ?_, ?_, fun m hm hlt => ?_⟩
        · rw [hpiece k hk, hprop k hk]
          exact hr
        · rw [hprop k hk]
          exact hk0
        · rcases Nat.lt_or_eq_of_le hm with hm | rfl
          · rw [hprop m (Nat.le_of_lt_succ hm)]
            exact hkmax m (Nat.le_of_lt_succ hm) hlt
          · have := hmax (x :: xs).length (Nat.le_refl _) (by omega)
            simpa [pieceProperty, piece] using this

theorem findBackwardLongestMatched_encode (hT : T.Ok) (ht : tree.Texts) (hx : CodePoints xs)
    (caseFold : Bool) :
    ∃ n, Finds T tree caseFold false xs
      (findBackwardLongestMatched T tree (encode xs) caseFold) n := by
  rw [findBackwardLongestMatched, foldText_encode hx]
  apply findBackwardLoop_encode hT ht hx caseFold
  have := RadixTree.length_le_encode (foldText_codePoints hT caseFold hx)
  rwa [foldText_length] at this

/-! ## Both trees of a set -/

/-- The search of one tree in the direction of matching. -/
def findIn (T : Tables) (forward : Bool) (tree : RadixTree) (ref : List Nat) (caseFold : Bool) :
    Nat × Nat :=
  if forward then findLongestMatched T tree ref caseFold
  else findBackwardLongestMatched T tree ref caseFold

theorem findIn_encode (hT : T.Ok) (ht : tree.Texts) (hx : CodePoints xs) (caseFold forward : Bool) :
    ∃ n, Finds T tree caseFold forward xs (findIn T forward tree (encode xs) caseFold) n := by
  cases forward with
  | true => exact findLongestMatched_encode hT ht hx caseFold
  | false => exact findBackwardLongestMatched_encode hT ht hx caseFold

/-- The emoji sequence found, if it has the right flags. -/
def emojiSize (T : Tables) (forward : Bool) (flags : Nat) (caseFold : Bool) (ref : List Nat) : Nat :=
  if flags != 0 then
    if (findIn T forward T.emojiTrie ref caseFold).2 != 0 &&
        hasFlag (rawFlags flags caseFold) (findIn T forward T.emojiTrie ref caseFold).2 then
      (findIn T forward T.emojiTrie ref caseFold).1
    else 0
  else 0

theorem consumedSize_eq (forward : Bool) (flags : Nat) (radix : Option RadixTree) (caseFold : Bool)
    (ref : List Nat) :
    consumedSize T forward flags radix caseFold ref =
      match radix with
      | some tree =>
        if (findIn T forward tree ref caseFold).2 != 0 then
          max (emojiSize T forward flags caseFold ref) (findIn T forward tree ref caseFold).1
        else emojiSize T forward flags caseFold ref
      | none => emojiSize T forward flags caseFold ref := by
  unfold consumedSize emojiSize findIn
  cases forward <;> rfl

/-- The set has the piece of `n` characters. -/
def StrSet.HasPiece (T : Tables) (s : StrSet) (forward : Bool) (xs : List Nat) (n : Nat) : Prop :=
  n ≤ xs.length ∧
    (pieceProperty T s.radix s.ignoreCase forward xs n ≠ 0 ∨
      s.emoji ≠ 0 ∧ pieceProperty T T.emojiTrie s.ignoreCase forward xs n ≠ 0 ∧
        hasFlag (rawFlags s.emoji s.ignoreCase)
          (pieceProperty T T.emojiTrie s.ignoreCase forward xs n) = true)

theorem emojiSize_encode (hT : T.Ok) (s : StrSet) (forward : Bool) (hx : CodePoints xs)
    (hne : emojiSize T forward s.emoji s.ignoreCase (encode xs) ≠ 0) :
    ∃ n, s.HasPiece T forward xs n ∧
      emojiSize T forward s.emoji s.ignoreCase (encode xs) = (encode (piece forward xs n)).length := by
  unfold emojiSize at hne ⊢
  split at hne
  · next hf =>
    rw [if_pos hf]
    split at hne
    · next hp =>
      rw [if_pos hp]
      obtain ⟨n, h⟩ := findIn_encode hT hT.emoji hx s.ignoreCase forward
      rw [h.eq] at hp ⊢
      simp only [Bool.and_eq_true, bne_iff_ne] at hp
      exact ⟨n, ⟨h.le, .inr ⟨by simpa using hf, hp⟩⟩, rfl⟩
    · exact absurd rfl hne
  · exact absurd rfl hne

/-- What a string set finds in a text is a string of the set. -/
theorem consumedSize_encode (hT : T.Ok) (s : StrSet) (forward : Bool) (hx : CodePoints xs)
    (hne : consumedSize T forward s.emoji s.tree s.ignoreCase (encode xs) ≠ 0) :
    ∃ n, s.HasPiece T forward xs n ∧
      consumedSize T forward s.emoji s.tree s.ignoreCase (encode xs) =
        (encode (piece forward xs n)).length := by
  have hemoji := emojiSize_encode hT s forward hx
  rw [consumedSize_eq] at hne ⊢
  unfold StrSet.tree at hne ⊢
  split at hne
  · next tree htree =>
    have htree' : tree = s.radix := by
      split at htree
      · cases htree
      · exact (Option.some.inj htree).symm
    subst htree'
    obtain ⟨n, h⟩ := findIn_encode hT s.texts hx s.ignoreCase forward
    split at hne
    · next hp =>
      rw [if_pos hp]
      rw [h.eq] at hp hne ⊢
      simp only at hne ⊢
      rcases Nat.le_total (emojiSize T forward s.emoji s.ignoreCase (encode xs))
        (encode (piece forward xs n)).length with hle | hle
      · rw [Nat.max_eq_right hle]
        exact ⟨n, ⟨h.le, .inl (by simpa using hp)⟩, rfl⟩
      · rw [Nat.max_eq_left hle] at hne ⊢
        exact hemoji hne
    · next hp =>
      rw [if_neg hp]
      exact hemoji hne
  · exact hemoji hne

end

/-- A string set finds whole characters. -/
theorem StrSet.ok {S : Subject} {cs : List Nat} (hT : S.tables.Ok) (hcs : CodePoints cs)
    (hS : S.bytes = encode cs) (s : StrSet) (forward : Bool) : s.Ok S cs forward := by
  rintro p size ⟨i, j, hi, hj, rfl, hij⟩
  rw [hS]
  cases forward with
  | true =>
    obtain ⟨hle, he⟩ := hij
    rw [radixRef_forward hle he]
    intro found hne
    obtain ⟨n, ⟨hn, -⟩, hr⟩ := consumedSize_encode hT s true ((hcs.take j).drop i) hne
    have hlen : ((cs.take j).drop i).length = j - i := by
      rw [List.length_drop, List.length_take, Nat.min_eq_left hj]
    have hpiece : piece true ((cs.take j).drop i) n = (cs.drop i).take n := by
      rw [piece, if_pos rfl, List.drop_take, List.take_take, Nat.min_eq_left (by omega)]
    have hoff : off cs i + found = off cs (i + n) := by
      rw [show found = _ from hr, hpiece]
      exact off_drop i n
    have hmono := off_le hcs (show i + n ≤ j by omega) hj
    exact ⟨⟨i, i + n, hi, by omega, rfl, by omega, hoff⟩, by omega⟩
  | false =>
    obtain ⟨hle, he⟩ := hij
    rw [radixRef_backward hle he]
    intro found hne
    obtain ⟨n, ⟨hn, -⟩, hr⟩ := consumedSize_encode hT s false ((hcs.take i).drop j) hne
    have hlen : ((cs.take i).drop j).length = i - j := by
      rw [List.length_drop, List.length_take, Nat.min_eq_left hi]
    have hpiece : piece false ((cs.take i).drop j) n = (cs.take i).drop (i - n) := by
      rw [piece, if_neg Bool.false_ne_true, hlen, List.drop_drop]
      congr 1
      omega
    have hoff : off cs (i - n) + found = off cs i := by
      have h₁ := @off_drop (cs.take i) (i - n) n
      have h₂ : off (cs.take i) (i - n) = off cs (i - n) := by
        rw [off, off, List.take_take, Nat.min_eq_left (Nat.sub_le ..)]
      have h₃ : off (cs.take i) (i - n + n) = off cs i := by
        rw [Nat.sub_add_cancel (by omega), off, off, List.take_take, Nat.min_self]
      have h₄ : off ((cs.take i).drop (i - n)) n = found := by
        rw [show found = _ from hr, hpiece, off, List.take_of_length_le]
        rw [List.length_drop, List.length_take]
        omega
      rw [h₂, h₃, h₄] at h₁
      exact h₁
    have hmono := off_le hcs (show j ≤ i - n by omega) (Nat.le_trans (Nat.sub_le ..) hi)
    exact ⟨⟨i, i - n, hi, by omega, rfl, by omega, hoff⟩, by omega⟩

end Arsh.Regex
