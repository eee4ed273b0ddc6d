import Arsh.Glob.Scanner

/-!
# Sets of characters

What a bracket expression means: it is read once, whatever the character it is compared with, as a
set of characters; `matchCharSetImpl` compares while it reads, with the same result.
-/

namespace Arsh.Glob

open UnicodeUtil

inductive CharSetItem where
  | range (lower upper : Nat)
  | charClass (c : CharClass)
  deriving DecidableEq, Repr

structure CharSet where
  negate : Bool
  items : List CharSetItem
  deriving DecidableEq, Repr

section
variable (isctype : CharClass → Option Nat → Bool)

def CharSetItem.mem (codePoint : Option Nat) : CharSetItem → Bool
  | .range lower upper => inRange codePoint lower upper
  | .charClass c => c.op isctype codePoint

/-- A character is in the set if it is in one of the items, or in none for a negated set. -/
def CharSet.mem (s : CharSet) (codePoint : Option Nat) : Bool :=
  s.negate != s.items.any (·.mem isctype codePoint)

end

/-! ## Reading -/

/-- A class of characters, if there is one here. -/
def readCharClass (iter : Bytes) : Except String (Option (CharClass × Bytes)) :=
  if expect chColon (iter.drop 1) then
    let name := className (iter.drop 2)
    let iter := iter.drop (2 + name.length)
    if expect chColon iter && expect chClose (iter.drop 1) then
      match lookupGlobCharClassOp name with
      | some c => .ok (some (c, iter.drop 2))
      | none => .error ("undefined character class: " ++ String.ofList (name.map Char.ofNat))
    else .error "character class must end with `:]'"
  else .ok none

def readRange (first : Bool) (iter : Bytes) : Except String (CharSetItem × Bytes) :=
  (consumeRange first iter).map fun (lower, upper, iter) => (.range lower upper, iter)

def readItem (first : Bool) (iter : Bytes) : Except String (CharSetItem × Bytes) :=
  if expect chOpen iter then
    match readCharClass iter with
    | .ok (some (c, iter)) => (afterCharClass iter).map (.charClass c, ·)
    | .ok none => readRange first iter
    | .error err => .error err
  else readRange first iter

def readItems : Nat → Bytes → Except String (List CharSetItem × Bytes)
  | 0, _ => .error needCloseBracket
  | fuel + 1, iter =>
    if isEndOrSep iter then .error needCloseBracket
    else if expect chClose iter then .ok ([], iter.drop 1)
    else
      match readItem false iter with
      | .error err => .error err
      | .ok (item, iter) => (readItems fuel iter).map fun (items, iter) => (item :: items, iter)

/-- The set of a bracket expression. -/
def readCharSet (iter : Bytes) : Except String (CharSet × Bytes) :=
  let iter := iter.drop 1
  if isEndOrSep iter then .error needCloseBracket
  else if expect chClose iter then .ok (⟨false, []⟩, iter.drop 1)
  else
    let negate := expect chNot iter || expect chHat iter
    let iter := if negate then iter.drop 1 else iter
    if isEndOrSep iter then .error needCloseBracket
    else
      match readItem true iter with
      | .error err => .error err
      | .ok (item, iter) =>
        (readItems iter.length iter).map fun (items, iter) => (⟨negate, item :: items⟩, iter)

section
variable {isctype : CharClass → Option Nat → Bool} {codePoint : Option Nat} {iter : Bytes}

/-- A class is compared as it is read. -/
theorem tryMatchCharClass_cases (isctype : CharClass → Option Nat → Bool) (codePoint : Option Nat)
    (iter : Bytes) :
    (∃ c rest, readCharClass iter = .ok (some (c, rest)) ∧
      tryMatchCharClass isctype codePoint iter =
        if c.op isctype codePoint then .matched rest else .unmatched rest) ∨
    (readCharClass iter = .ok none ∧ tryMatchCharClass isctype codePoint iter = .noClass) ∨
    ∃ err, readCharClass iter = .error err ∧
      (tryMatchCharClass isctype codePoint iter = .syntaxError err ∨
        tryMatchCharClass isctype codePoint iter = .badClass err) := by
  have hdrop : ∀ n, (iter.drop 1).drop n = iter.drop (1 + n) := fun n => by rw [List.drop_drop]
  have hname : 1 + (1 + (className (iter.drop 2)).length) =
      2 + (className (iter.drop 2)).length := by omega
  unfold readCharClass tryMatchCharClass
  simp only [hdrop, Nat.reduceAdd, hname]
  split
  · split
    · cases lookupGlobCharClassOp (className (iter.drop 2)) with
      | some c => exact .inl ⟨c, _, rfl, rfl⟩
      | none => exact .inr (.inr ⟨_, rfl, .inr rfl⟩)
    · exact .inr (.inr ⟨_, rfl, .inl rfl⟩)
  · exact .inr (.inl ⟨rfl, rfl⟩)

theorem readRange_mem (first : Bool) (iter : Bytes) :
    (readRange first iter).map (fun p => (p.1.mem isctype codePoint, p.2)) =
      match consumeRange first iter with
      | .error err => .error err
      | .ok (lower, upper, iter) => .ok (inRange codePoint lower upper, iter) := by
  unfold readRange
  cases consumeRange first iter with
  | error err => rfl
  | ok r => rfl

/-- An item is compared as it is read. -/
theorem matchCharSetItem_eq (first : Bool) (iter : Bytes) :
    matchCharSetItem isctype codePoint first iter =
      (readItem first iter).map fun p => (p.1.mem isctype codePoint, p.2) := by
  unfold matchCharSetItem readItem
  simp only
  split
  · rcases tryMatchCharClass_cases isctype codePoint iter with
      ⟨c, rest, hread, htry⟩ | ⟨hread, htry⟩ | ⟨err, hread, htry⟩
    · rw [hread, htry]
      cases hop : c.op isctype codePoint with
      | false =>
        simp only [Bool.false_eq_true, if_false]
        cases afterCharClass rest with
        | error err => rfl
        | ok rest => simp only [Except.map, CharSetItem.mem, hop]
      | true =>
        simp only [if_true]
        cases afterCharClass rest with
        | error err => rfl
        | ok rest => simp only [Except.map, CharSetItem.mem, hop]
    · rw [hread, htry]
      cases hrange : consumeRange first iter <;> simp only [readRange_mem, hrange]
    · rcases htry with htry | htry
      · rw [hread, htry]
        rfl
      · rw [hread, htry]
        rfl
  · cases hrange : consumeRange first iter <;> simp only [readRange_mem, hrange]

theorem matchCharSetLoop_eq (negate : Bool) (fuel matchCount : Nat) (iter : Bytes) :
    matchCharSetLoop isctype codePoint negate fuel matchCount iter =
      (readItems fuel iter).map fun p =>
        (negate != (decide (matchCount > 0) || p.1.any (·.mem isctype codePoint)), p.2) := by
  induction fuel generalizing matchCount iter with
  | zero => rfl
  | succ fuel ih =>
    unfold matchCharSetLoop readItems
    split
    · rfl
    split
    · simp [Except.map]
    · rw [matchCharSetItem_eq]
      cases readItem false iter with
      | error err => rfl
      | ok r =>
        have hcount : decide (matchCount + (r.1.mem isctype codePoint).toNat > 0) =
            (decide (matchCount > 0) || r.1.mem isctype codePoint) := by
          cases r.1.mem isctype codePoint <;> simp
        simp only [Except.map, ih, hcount]
        cases readItems fuel r.2 with
        | error err => rfl
        | ok r' => simp only [List.any_cons, Bool.or_assoc]

/-- A bracket expression is compared as it is read. -/
theorem matchCharSetImpl_eq (isctype : CharClass → Option Nat → Bool) (codePoint : Option Nat)
    (iter : Bytes) : matchCharSetImpl isctype codePoint iter =
      (readCharSet iter).map fun p => (p.1.mem isctype codePoint, p.2) := by
  unfold matchCharSetImpl readCharSet
  simp only
  generalize iter.drop 1 = iter'
  generalize (expect chNot iter' || expect chHat iter') = negate
  generalize hskip : (if negate = true then iter'.drop 1 else iter') = iter₁
  by_cases hend : isEndOrSep iter' = true
  · rw [if_pos hend, if_pos hend]
    rfl
  by_cases hclose : expect chClose iter' = true
  · rw [if_neg hend, if_neg hend, if_pos hclose, if_pos hclose]
    rfl
  rw [if_neg hend, if_neg hend, if_neg hclose, if_neg hclose]
  by_cases hend₁ : isEndOrSep iter₁ = true
  · rw [if_pos hend₁, if_pos hend₁]
    rfl
  rw [if_neg hend₁, if_neg hend₁, matchCharSetItem_eq]
  cases readItem true iter₁ with
  | error err => rfl
  | ok r =>
    have hcount : decide ((r.1.mem isctype codePoint).toNat > 0) = r.1.mem isctype codePoint := by
      cases r.1.mem isctype codePoint <;> simp
    simp only [Except.map, matchCharSetLoop_eq, hcount]
    cases readItems r.2.length r.2 with
    | error err => rfl
    | ok r' => simp only [CharSet.mem, List.any_cons]

end

/-! ## What is left -/

section
variable {iter rest : Bytes} {first : Bool} {codePoint : Nat}

theorem expect_length {ch : Nat} (h : expect ch iter = true) : 0 < iter.length := by
  cases iter with
  | nil => cases h
  | cons c iter => exact Nat.zero_lt_succ _

theorem consumeCodePoint_length (h : consumeCodePoint iter = .ok (codePoint, rest)) :
    rest.length < iter.length := by
  unfold consumeCodePoint utf8ToCodePoint at h
  by_cases hsize : utf8ValidateChar iter = 0
  · simp only [hsize, if_true] at h
    cases h
  · simp only [hsize, if_false] at h
    cases h
    cases iter with
    | nil => exact absurd rfl hsize
    | cons c iter =>
      rw [List.length_drop, List.length_cons]
      omega

theorem consumeCharSetPart_length (h : consumeCharSetPart first iter = .ok (codePoint, rest)) :
    rest.length < iter.length := by
  unfold consumeCharSetPart at h
  split at h
  · next hminus =>
    have hpos := expect_length hminus
    split at h
    · cases h
      rw [List.length_drop]
      omega
    · cases h
  split at h
  · next hclose =>
    have hpos := expect_length (Bool.and_eq_true_iff.1 hclose).1
    cases h
    rw [List.length_drop]
    omega
  split at h
  · split at h
    · cases h
    · exact consumeCodePoint_length h
  split at h
  · split at h
    · cases h
    · have hlen := consumeCodePoint_length h
      rw [List.length_drop] at hlen
      omega
  · exact consumeCodePoint_length h

theorem consumeRange_length {lower upper : Nat}
    (h : consumeRange first iter = .ok (lower, upper, rest)) : rest.length < iter.length := by
  unfold consumeRange at h
  split at h
  · cases h
  next lower' iter' hpart =>
  have hlen := consumeCharSetPart_length hpart
  split at h
  · cases h
  split at h
  · split at h
    · cases h
    next upper' rest' hpart' =>
    have hlen' := consumeCharSetPart_length hpart'
    rw [List.length_drop] at hlen'
    split at h
    · cases h
    · cases h
      omega
  · cases h
    exact hlen

theorem readCharClass_length {c : CharClass} (h : readCharClass iter = .ok (some (c, rest))) :
    rest.length < iter.length := by
  unfold readCharClass at h
  simp only at h
  split at h
  · next hcolon =>
    have hpos := expect_length hcolon
    rw [List.length_drop] at hpos
    split at h
    · split at h
      · cases h
        rw [List.length_drop, List.length_drop]
        omega
      · cases h
    · cases h
  · cases h

theorem readItem_length {item : CharSetItem} (h : readItem first iter = .ok (item, rest)) :
    rest.length < iter.length := by
  have hrange : ∀ {r : CharSetItem × Bytes}, readRange first iter = .ok r →
      r.2.length < iter.length := by
    intro r hr
    unfold readRange at hr
    cases hc : consumeRange first iter with
    | error err =>
      rw [hc] at hr
      cases hr
    | ok p =>
      rw [hc] at hr
      cases hr
      exact consumeRange_length hc
  unfold readItem at h
  split at h
  · split at h
    · next c iter' hclass =>
      have hlen := readCharClass_length hclass
      unfold afterCharClass at h
      split at h
      · cases h
      · cases h
        exact hlen
    · exact hrange h
    · cases h
  · exact hrange h

theorem readItems_length {items : List CharSetItem} {fuel : Nat}
    (h : readItems fuel iter = .ok (items, rest)) : rest.length < iter.length := by
  induction fuel generalizing iter items with
  | zero => cases h
  | succ fuel ih =>
    unfold readItems at h
    split at h
    · cases h
    split at h
    · next hclose =>
      have hpos := expect_length hclose
      cases h
      rw [List.length_drop]
      omega
    split at h
    · cases h
    next item iter' hitem =>
    have hlen := readItem_length hitem
    cases hrest : readItems fuel iter' with
    | error err =>
      rw [hrest] at h
      cases h
    | ok r =>
      rw [hrest] at h
      cases h
      have hlen' := ih hrest
      omega

theorem readCharSet_length {s : CharSet} (h : readCharSet iter = .ok (s, rest)) :
    rest.length < iter.length := by
  unfold readCharSet at h
  simp only at h
  have hdrop : (iter.drop 1).length ≤ iter.length := by
    rw [List.length_drop]
    omega
  generalize iter.drop 1 = iter' at h hdrop
  generalize (expect chNot iter' || expect chHat iter') = negate at h
  have hskip : (if negate = true then iter'.drop 1 else iter').length ≤ iter.length := by
    split
    · rw [List.length_drop]
      omega
    · exact hdrop
  generalize (if negate = true then iter'.drop 1 else iter') = iter₁ at h hskip
  split at h
  · cases h
  split at h
  · next hclose =>
    have hpos := expect_length hclose
    cases h
    rw [List.length_drop]
    omega
  split at h
  · cases h
  split at h
  · cases h
  next item iter₂ hitem =>
  have hlen := readItem_length hitem
  cases hrest : readItems iter₂.length iter₂ with
  | error err =>
    rw [hrest] at h
    cases h
  | ok r =>
    rw [hrest] at h
    cases h
    have hlen' := readItems_length hrest
    omega

/-- The loop ends with the pattern: its rounds are never used up. -/
theorem readItems_fuel {fuel fuel' : Nat} (h : iter.length ≤ fuel) (h' : iter.length ≤ fuel') :
    readItems fuel iter = readItems fuel' iter := by
  induction fuel generalizing fuel' iter with
  | zero =>
    rw [List.length_eq_zero_iff.1 (Nat.le_zero.1 h)]
    cases fuel' with
    | zero => rfl
    | succ fuel' => rfl
  | succ fuel ih =>
    cases fuel' with
    | zero =>
      rw [List.length_eq_zero_iff.1 (Nat.le_zero.1 h')]
      rfl
    | succ fuel' =>
      unfold readItems
      cases hitem : readItem false iter with
      | error err => rfl
      | ok r =>
        have hlen := readItem_length hitem
        simp only
        rw [@ih r.2 fuel' (by omega) (by omega)]

end

end Arsh.Glob
