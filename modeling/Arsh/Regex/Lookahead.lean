import Arsh.Regex.Parser
import Mathlib.Data.List.TakeWhile

/-!
# The look-ahead for capture groups

`resolveCaptureGroups` counts the groups of the rest of a pattern with a scanner of its own.
`Skips r r'` says that the scanner sees the same groups from `r` and from `r'`; every function that
reads a part of a pattern without groups moves along it. `lookahead_eq_count`: wherever a
successful parse triggers the scanner, the result is the final number of groups.
-/

namespace Arsh.Regex.Parser

open UnicodeUtil

/-! ## The scanner -/

/-- A byte that the scanner passes on its own. -/
def Plain (ch : Nat) : Prop := ch ≠ byte '\\' ∧ ch ≠ byte '(' ∧ ch ≠ byte '[' ∧ ch ≠ byte ']'

instance (ch : Nat) : Decidable (Plain ch) := inferInstanceAs (Decidable (_ ∧ _ ∧ _ ∧ _))

variable {set : Bool} {level ch : Nat} {r r' r'' : Bytes}

theorem lookahead_plain (h : Plain ch) : lookahead set level (ch :: r) = lookahead set level r := by
  obtain ⟨h1, h2, h3, h4⟩ := h
  rw [lookahead.eq_def]
  simp only [h1, h2, h3, h4, if_false, decide_false, Bool.false_and, Bool.false_eq_true]

/-- Inside of a class a parenthesis is a character. -/
theorem lookahead_paren_class :
    lookahead set (level + 1) (byte '(' :: r) = lookahead set (level + 1) r := by
  rw [lookahead.eq_def]
  simp [byte]

theorem lookahead_open : lookahead set level (byte '[' :: r) =
    lookahead set (if level = 0 || set then level + 1 else level) r := by
  rw [lookahead.eq_def]
  simp [byte]

theorem lookahead_close :
    lookahead set level (byte ']' :: r) = lookahead set (level - 1) r := by
  rw [lookahead.eq_def]
  simp [byte]

theorem lookahead_capture (h : startsWith ['?'] r = false) :
    lookahead set 0 (byte '(' :: r) =
      ((lookahead set 0 r).1 + 1, (lookahead set 0 r).2) := by
  rw [lookahead.eq_def]
  cases r with
  | nil => simp [byte, lookahead]
  | cons c r =>
    have hc : c ≠ byte '?' := by
      rintro rfl
      simp [startsWith, byte] at h
    simp only [if_neg hc]
    simp [byte]

theorem lookahead_named (h : startsWith ['='] r = false) (h' : startsWith ['!'] r = false) :
    lookahead set 0 (byte '(' :: byte '?' :: byte '<' :: r) =
      ((lookahead set 0 r).1 + 1, (lookahead set 0 r).2 + 1) := by
  rw [lookahead.eq_def]
  simp [byte, h, h']

theorem lookahead_lookBehind (h : startsWith ['='] r = true ∨ startsWith ['!'] r = true) :
    lookahead set 0 (byte '(' :: byte '?' :: byte '<' :: r) = lookahead set 0 r := by
  rw [lookahead.eq_def]
  rcases h with h | h <;> simp [byte, h]

theorem lookahead_other (h : startsWith ['<'] r = false) :
    lookahead set 0 (byte '(' :: byte '?' :: r) = lookahead set 0 r := by
  rw [lookahead.eq_def]
  cases r with
  | nil => simp [byte, lookahead]
  | cons c r =>
    have hc : c ≠ byte '<' := by
      rintro rfl
      simp [startsWith, byte] at h
    simp only [if_neg hc]
    simp [byte]

/-- The scanner sees the same groups from `r` and from `r'`, in a class or not. -/
structure Skips (set : Bool) (r r' : Bytes) : Prop where
  lookahead : ∀ level, lookahead set level r = lookahead set level r'
  length_le : r'.length ≤ r.length

/-- The same, with some text between the two. -/
def Eats (set : Bool) (r r' : Bytes) : Prop := Skips set r r' ∧ r'.length < r.length

theorem Skips.refl (set : Bool) (r : Bytes) : Skips set r r := ⟨fun _ => rfl, Nat.le_refl _⟩

theorem Skips.trans (h : Skips set r r') (h' : Skips set r' r'') : Skips set r r'' :=
  ⟨fun l => (h.lookahead l).trans (h'.lookahead l), h'.length_le.trans h.length_le⟩

theorem Eats.trans (h : Eats set r r') (h' : Skips set r' r'') : Eats set r r'' :=
  ⟨h.1.trans h', h'.length_le.trans_lt h.2⟩

theorem Skips.plain {p : Bytes} (h : ∀ ch ∈ p, Plain ch) : Skips set (p ++ r) r := by
  induction p with
  | nil => exact .refl _ _
  | cons ch p ih =>
    obtain ⟨hch, hp⟩ := List.forall_mem_cons.1 h
    refine .trans ⟨fun l => lookahead_plain hch, ?_⟩ (ih hp)
    simp

theorem Eats.escape : Eats set (byte '\\' :: ch :: r) r :=
  ⟨⟨fun _ => lookahead_escape, by simp only [List.length_cons]; omega⟩,
    by simp only [List.length_cons]; omega⟩

theorem Eats.plain (h : Plain ch) : Eats set (ch :: r) r :=
  ⟨⟨fun _ => lookahead_plain h, by simp⟩, by simp⟩

/-- A backslash in front of a plain byte hides no group. -/
theorem Eats.backslash (h : Plain ch) : Eats set (byte '\\' :: ch :: r) (ch :: r) :=
  ⟨⟨fun _ => by rw [lookahead_escape, lookahead_plain h], by simp⟩, by simp⟩

/-! ## Pieces of text -/

theorem startsWith_eq {p : List Char} (h : startsWith p r = true) :
    p.map Char.toNat ++ r.drop p.length = r := by
  obtain ⟨t, rfl⟩ := List.isPrefixOf_iff_prefix.1 h
  rw [← List.length_map Char.toNat, List.drop_left]

theorem Skips.startsWith {p : List Char} (h : startsWith p r = true)
    (hp : ∀ ch ∈ p.map Char.toNat, Plain ch) : Skips set r (r.drop p.length) := by
  have h' := @Skips.plain set (r.drop p.length) _ hp
  rwa [startsWith_eq h] at h'

theorem Skips.takeWhile {p : Nat → Bool} (h : ∀ ch ∈ r.takeWhile p, Plain ch) :
    Skips set r (r.drop (r.takeWhile p).length) := by
  have h' := @Skips.plain set (r.drop (r.takeWhile p).length) _ h
  rwa [List.prefix_iff_eq_append.1 (List.takeWhile_prefix p)] at h'

theorem plain_of_le (h : byte ']' < ch) : Plain ch := by
  simp [Plain, byte] at h ⊢
  omega

theorem plain_of_isHex (h : isHex ch = true) : Plain ch := by
  simp [isHex, isDigit, Plain, byte] at h ⊢
  omega

theorem plain_of_isDigit (h : isDigit ch = true) : Plain ch :=
  plain_of_isHex (by simp [isHex, h])

theorem plain_of_isWordChar (h : isWordChar ch = true) : Plain ch := by
  simp [isWordChar, isLetter, isDigit, Plain, byte] at h ⊢
  omega

/-! ## Code points and escapes -/

theorem nextValidCodePoint_ok {c : Nat} (h : nextValidCodePoint r = .ok (c, r')) :
    c ≤ codePointMax ∧ r = codePointToUtf8 c ++ r' := by
  unfold nextValidCodePoint at h
  split at h
  · cases h
  · next hv =>
    obtain ⟨d, t, hd, rfl⟩ := exists_of_wtf8ValidateChar hv
    rw [decodeFirst_append hd, wtf8ValidateChar_append hd, List.drop_left] at h
    cases h
    exact ⟨hd, rfl⟩

/-- The bytes of a code point: one plain byte or several, or an ASCII character. -/
theorem codePointToUtf8_plain {c : Nat} (h : c ≤ codePointMax) :
    ∃ b bs, codePointToUtf8 c = b :: bs ∧ (b = c ∨ Plain b) ∧ ∀ x ∈ bs, Plain x := by
  obtain ⟨b, bs, e, hb, hbs⟩ := codePointToUtf8_first h
  have hplain {x : Nat} (hx : 128 ≤ x) : Plain x := plain_of_le (by simp [byte]; omega)
  exact ⟨b, bs, e, hb.imp_right hplain, fun x hx => hplain (hbs x hx)⟩

/-- Behind a backslash a whole character is skipped. -/
theorem Eats.escape_codePoint {c : Nat} (h : nextValidCodePoint r = .ok (c, r')) :
    Eats set (byte '\\' :: r) r' := by
  obtain ⟨hc, rfl⟩ := nextValidCodePoint_ok h
  obtain ⟨b, bs, e, -, hbs⟩ := codePointToUtf8_plain hc
  rw [e]
  exact Eats.escape.trans (.plain hbs)

theorem Eats.codePoint {c : Nat} (h : nextValidCodePoint r = .ok (c, r'))
    (hr : Plain (r.headD 0)) : Eats set r r' := by
  obtain ⟨hc, rfl⟩ := nextValidCodePoint_ok h
  obtain ⟨b, bs, e, -, hbs⟩ := codePointToUtf8_plain hc
  rw [e] at hr ⊢
  exact (Eats.plain hr).trans (.plain hbs)

theorem Skips.hexDigits {n v c : Nat} (h : hexDigits n v r = (some c, r')) : Skips set r r' := by
  induction n generalizing v r with
  | zero =>
    cases h
    exact .refl _ _
  | succ n ih =>
    cases r with
    | nil => cases h
    | cons ch r =>
      unfold Parser.hexDigits at h
      split at h
      · next hch => exact (Eats.plain (plain_of_isHex hch)).1.trans (ih h)
      · cases h

theorem Eats.parseUnicodeEscapeBMP {c : Nat} (h : parseUnicodeEscapeBMP r = (some c, r')) :
    Eats set r r' := by
  unfold Parser.parseUnicodeEscapeBMP at h
  dsimp only at h
  split at h
  · next hs =>
    have hr : byte '\\' :: byte 'u' :: r.drop 2 = r := startsWith_eq hs
    rw [← hr]
    split at h
    · next hd =>
      cases h
      exact Eats.escape.trans (.hexDigits hd)
    · cases h
  · cases h

theorem Eats.parseUnicodeEscape {c : Nat} {unicode : Bool}
    (h : parseUnicodeEscape unicode r = (some c, r')) : Eats set r r' := by
  unfold Parser.parseUnicodeEscape at h
  split at h
  · next hs =>
    have hr : byte '\\' :: byte 'u' :: byte '{' :: r.drop 3 = r :=
      startsWith_eq (Bool.and_eq_true_iff.1 hs).2
    dsimp only at h
    split at h
    · next hc =>
      cases h
      simp only [Bool.and_eq_true] at hc
      have hhex : ∀ ch ∈ (r.drop 3).takeWhile isHex, Plain ch := fun ch hch =>
        plain_of_isHex (List.mem_takeWhile_imp hch)
      rw [← hr]
      refine Eats.escape.trans (.trans (Eats.plain (by decide)).1 ?_)
      rw [hr]
      refine .trans ?_ (.startsWith hc.1.1 (by decide))
      have := @Skips.plain set ((r.drop 3).dropWhile isHex) _ hhex
      rwa [List.takeWhile_append_dropWhile] at this
    · cases h
  · split at h
    · cases h
    · next hb =>
      split at h
      · next hl =>
        cases h
        obtain ⟨low, hlow, -⟩ := Option.bind_eq_some_iff.1 hl
        have hl' := @Eats.parseUnicodeEscapeBMP set _ _ _ (Prod.ext hlow rfl)
        exact (Eats.parseUnicodeEscapeBMP hb).trans hl'.1
      · cases h
        exact .parseUnicodeEscapeBMP hb

theorem propertyNode_ok {U : Ucp} {left right : Bytes} {invert : Bool} {node : Tree}
    (h : propertyNode U left right invert r = .ok (node, r')) :
    r = r' ∧ ∀ ch ∈ left ++ right, Plain ch := by
  unfold propertyNode at h
  split at h
  · next hp =>
    cases h
    exact ⟨rfl, fun ch hch => plain_of_isWordChar (U.property_word _ _ _ hp ch hch)⟩
  · cases h

theorem Eats.parseUnicodePropertyEscape {U : Ucp} {mode : Mode} {node : Tree}
    (h : parseUnicodePropertyEscape U mode (byte '\\' :: ch :: r) = .ok (node, r')) :
    Eats set (byte '\\' :: ch :: r) r' := by
  apply Eats.escape.trans
  unfold Parser.parseUnicodePropertyEscape at h
  simp only [List.drop_succ_cons, List.drop_zero] at h
  split at h
  · next hb =>
    refine .trans (.startsWith hb (by decide)) ?_
    split at h
    · next hc =>
      split at h
      · next hs =>
        cases h
        split at hs
        · refine .trans (.takeWhile ?_) (.startsWith hc (by decide))
          exact fun ch hch => plain_of_isWordChar (U.emoji_word _ _ hs ch hch)
        · cases hs
      · obtain ⟨rfl, hp⟩ := propertyNode_ok h
        exact .trans (.takeWhile (by simpa using hp)) (.startsWith hc (by decide))
    · split at h
      · next he =>
        split at h
        · cases h
        · next hr =>
          simp only [Bool.or_eq_true, Bool.not_eq_true', not_or, Bool.not_eq_false] at hr
          obtain ⟨rfl, hp⟩ := propertyNode_ok h
          have hp' := List.forall_mem_append.1 hp
          refine .trans (.takeWhile hp'.1) (.trans (.startsWith he (by decide)) ?_)
          exact .trans (.takeWhile hp'.2) (.startsWith hr.1 (by decide))
      · cases h
  · cases h

/-! ## Names, quantifiers and modifiers -/

theorem Eats.nameCodePoint {mayIgnoreError : Bool} {c : Nat}
    (h : nameCodePoint mayIgnoreError r = .ok (some c, r')) (hp : c = r.headD 0 → Plain c) :
    Eats set r r' := by
  unfold Parser.nameCodePoint at h
  split at h
  · split at h
    · next hu =>
      cases h
      exact .parseUnicodeEscape hu
    · split at h <;> cases h
  · cases hn : nextValidCodePoint r with
    | error err => simp [hn, Except.map] at h
    | ok x =>
      simp only [hn, Except.map, Except.ok.injEq, Prod.mk.injEq, Option.some.injEq] at h
      obtain ⟨rfl, rfl⟩ := h
      refine .codePoint hn ?_
      obtain ⟨hc, e⟩ := nextValidCodePoint_ok hn
      obtain ⟨b, bs, e', hb, -⟩ := codePointToUtf8_plain hc
      have hr : r.headD 0 = b := by rw [e, e']; rfl
      rw [hr] at hp ⊢
      rcases hb with rfl | hb
      · exact hp rfl
      · exact hb

theorem nameFailure_ok {mayIgnoreError : Bool} {err : Error} {name : Bytes}
    (h : nameFailure mayIgnoreError err = .ok (name, r)) : name = [] ∧ mayIgnoreError = true := by
  unfold nameFailure at h
  split at h
  · next hi =>
    cases h
    exact ⟨rfl, hi⟩
  · cases h

theorem plain_of_isJSIdContinue {U : Ucp} (h : isJSIdContinue U ch = true) : Plain ch := by
  unfold isJSIdContinue at h
  split at h
  · simp [isJSIdStartAscii, isLetter, isDigit, Plain, byte] at h ⊢
    omega
  · exact plain_of_le (by simp [byte]; omega)

theorem plain_of_isJSIdStart {U : Ucp} (h : isJSIdStart U ch = true) : Plain ch := by
  unfold isJSIdStart at h
  split at h
  · simp [isJSIdStartAscii, isLetter, Plain, byte] at h ⊢
    omega
  · exact plain_of_le (by simp [byte]; omega)

theorem Eats.nameChar {isJSId : Nat → Bool} {mayIgnoreError : Bool} {name name' : Bytes}
    (hid : ∀ ch, isJSId ch = true → Plain ch)
    (h : nameChar isJSId mayIgnoreError name r = .inl (name', r')) : Eats set r r' := by
  unfold Parser.nameChar at h
  split at h
  · cases h
  · cases h
  · next hc =>
    dsimp only at h
    split at h
    · next hj =>
      cases h
      exact .nameCodePoint hc fun _ => hid _ hj
    · cases h

theorem nameChar_ok {isJSId : Nat → Bool} {mayIgnoreError : Bool} {name name' : Bytes}
    (h : nameChar isJSId mayIgnoreError name r = .inr (.ok (name', r'))) :
    name' = [] ∧ mayIgnoreError = true := by
  unfold Parser.nameChar at h
  split at h
  · cases h
  · next hc =>
    cases h
    refine ⟨rfl, ?_⟩
    unfold Parser.nameCodePoint at hc
    split at hc
    · split at hc
      · cases hc
      · split at hc
        · next hi => exact hi
        · cases hc
    · cases hn : nextValidCodePoint r <;> simp [hn, Except.map] at hc
  · dsimp only at h
    split at h
    · cases h
    · exact nameFailure_ok (Sum.inr_injective h)

theorem Eats.nameStep {U : Ucp} {mayIgnoreError : Bool} {s t : Bytes × Bytes}
    (h : nameStep U mayIgnoreError s = .inl t) : Eats set s.2 t.2 := by
  unfold Parser.nameStep at h
  split at h
  · cases h
  · split at h
    · cases h
    · exact .nameChar (fun _ => plain_of_isJSIdContinue) h

theorem Eats.parseCaptureGroupName {U : Ucp} {mayIgnoreError : Bool} {start name : Bytes}
    (h : parseCaptureGroupName U mayIgnoreError start r = .ok (name, r'))
    (hne : ¬ (name = [] ∧ mayIgnoreError = true)) :
    Eats set r r' := by
  unfold Parser.parseCaptureGroupName at h
  split at h
  · exact absurd (nameFailure_ok h) hne
  next hs =>
  rw [Bool.not_eq_true, Bool.not_eq_false'] at hs
  have hr : byte '<' :: r.drop 1 = r := startsWith_eq hs
  rw [← hr]
  split at h
  · exact absurd (nameFailure_ok h) hne
  refine Eats.trans (.plain (by decide)) ?_
  split at h
  · next hc =>
    subst h
    exact absurd (nameChar_ok hc) hne
  · next s hc =>
    have hfirst : Skips set (r.drop 1) s.2 := (Eats.nameChar (fun _ => plain_of_isJSIdStart) hc).1
    refine Machine.runTo_rule (I := fun s : Bytes × Bytes => Skips set (r.drop 1) s.2)
      (P := fun x : Except Error (Bytes × Bytes) => x = .ok (name, r') → Skips set (r.drop 1) r')
      ?_ ?_ ?_ _ hfirst h
    · intro s _ h
      exact absurd (nameFailure_ok h) hne
    · intro s t hs h
      exact hs.trans (Eats.nameStep h).1
    · intro s x hs h hx
      subst hx
      unfold Parser.nameStep at h
      split at h
      · exact absurd (nameFailure_ok (Sum.inr_injective h)) hne
      · split at h
        · next hend =>
          cases h
          exact hs.trans (.startsWith hend (by decide))
        · exact absurd (nameChar_ok h) hne

/-- The loop over a name comes to its end. -/
theorem nameStep_ends (U : Ucp) (mayIgnoreError : Bool) (s : Bytes × Bytes) :
    Machine.Ends (nameStep U mayIgnoreError) (fun _ => True) s
      (Machine.runTo (nameStep U mayIgnoreError)
        (fun s => nameFailure mayIgnoreError (.unclosedName s.1)) s.2.length s) := by
  refine Machine.halts_runTo (fun s => s.2.length) ?_ ?_ trivial (Nat.le_refl _)
  · intro s _ hs
    rw [nameStep, if_pos (List.length_eq_zero_iff.1 hs)]
  · intro s t _ h
    exact ⟨trivial, (@Eats.nameStep true _ _ _ _ h).2⟩

theorem digits_of_parseInteger {bits value v : Nat} {digits : Bytes}
    (h : parseInteger bits value digits = some v) : ∀ ch ∈ digits, isDigit ch = true := by
  induction digits generalizing value with
  | nil => simp
  | cons ch digits ih =>
    unfold parseInteger at h
    split at h
    · next hc => exact List.forall_mem_cons.2 ⟨(Bool.and_eq_true_iff.1 hc).1, ih h⟩
    · cases h

theorem plain_of_convertToNum10 {bits v : Nat} {digits : Bytes}
    (h : convertToNum10 bits digits = some v) : ∀ ch ∈ digits, Plain ch := by
  have hd : ∀ ch ∈ if startsWith ['+'] digits then digits.drop 1 else digits, Plain ch := by
    intro ch hch
    simp only [convertToNum10] at h
    rw [if_neg (List.ne_nil_of_mem hch)] at h
    exact plain_of_isDigit (digits_of_parseInteger h ch hch)
  split at hd
  · next hs =>
    have hr : byte '+' :: digits.drop 1 = digits := startsWith_eq hs
    rw [← hr]
    exact List.forall_mem_cons.2 ⟨by decide, hd⟩
  · exact hd

theorem Skips.parseQuantifierDigits {start : Bytes} {last : Char} {v : Nat}
    (h : parseQuantifierDigits start last r = .ok (v, r')) : Skips set r r' := by
  unfold Parser.parseQuantifierDigits at h
  dsimp only at h
  split at h
  · cases h
  split at h
  · cases h
  · next hc =>
    split at h
    · cases h
    · cases h
      exact .takeWhile (plain_of_convertToNum10 hc)

theorem Skips.parseQuantifierMax {start : Bytes} {min v : Nat}
    (h : parseQuantifierMax start min r = .ok (v, r')) : Skips set r r' := by
  unfold Parser.parseQuantifierMax at h
  split at h
  · next hs =>
    refine .trans (.startsWith hs (by decide)) ?_
    split at h
    · cases h
      exact .refl _ _
    · exact .parseQuantifierDigits h
  · cases h
    exact .refl _ _

theorem Eats.parseQuantifierBounds {min max : Nat}
    (h : parseQuantifierBounds (byte '{' :: r) = .ok (min, max, r')) :
    Eats set (byte '{' :: r) r' := by
  refine Eats.trans (.plain (by decide)) ?_
  unfold Parser.parseQuantifierBounds at h
  split at h
  · cases h
  next hmin =>
  split at h
  · cases h
  split at h
  · cases h
  next hmax =>
  split at h
  · next hs =>
    cases h
    exact .trans (.parseQuantifierDigits hmin)
      (.trans (.parseQuantifierMax hmax) (.startsWith hs (by decide)))
  · cases h

theorem Skips.parseGreedy {greedy : Bool} (h : parseGreedy r = (greedy, r')) : Skips set r r' := by
  unfold Parser.parseGreedy at h
  split at h
  · next hs =>
    cases h
    exact .startsWith hs (by decide)
  · cases h
    exact .refl _ _

theorem plain_of_parseModifier {m m' : Modifier} {value : Bytes}
    (h : parseModifier m value = .ok m') : ∀ ch ∈ value, Plain ch := by
  induction value generalizing m with
  | nil => simp
  | cons ch value ih =>
    unfold parseModifier at h
    split_ifs at h with hi _ hm _ hs <;> try cases h
    · exact List.forall_mem_cons.2 ⟨by rw [hi]; decide, ih h⟩
    · exact List.forall_mem_cons.2 ⟨by rw [hm]; decide, ih h⟩
    · exact List.forall_mem_cons.2 ⟨by rw [hs]; decide, ih h⟩

theorem Skips.parseModifiers {last : Char} {m : Modifier}
    (h : parseModifiers last r = .ok (m, r')) : Skips set r r' := by
  unfold Parser.parseModifiers at h
  dsimp only at h
  split at h
  · cases h
  · next hm =>
    cases h
    exact .takeWhile (plain_of_parseModifier hm)

theorem Skips.parseGroupModifiers {start : Bytes} {m m' : Modifier}
    (h : parseGroupModifiers start r = .ok (m, m', r')) : Skips set r r' := by
  unfold Parser.parseGroupModifiers at h
  split at h
  · cases h
  next hset =>
  refine .trans (.parseModifiers hset) ?_
  split at h
  · cases h
  next hunset =>
  split at h
  · cases h
  next hc =>
  simp only [Bool.or_eq_true, Bool.not_eq_true', not_or, Bool.not_eq_false] at hc
  split at h
  · cases h
  cases h
  refine .trans ?_ (.startsWith hc.2 (by decide))
  unfold parseUnsetModifiers at hunset
  split at hunset
  · next hs => exact .trans (.startsWith hs (by decide)) (.parseModifiers hunset)
  · cases hunset
    exact .refl _ _

/-! ## Atoms -/

/-- The scanner's mode. -/
abbrev Config.unicodeSet (C : Config) : Bool := decide (C.mode = .unicodeSet)

/-- At this point of a parse there are `k` groups in the whole pattern, and named ones if `p`; so
says the look-ahead, if it has been asked already. -/
structure Foresees (C : Config) (k : Nat) (p : Prop) (r : Bytes) (g : Groups) : Prop where
  count : g.captureGroupCount + (lookahead C.unicodeSet 0 r).1 = k
  named : 0 < g.namedCaptureGroups.length + (lookahead C.unicodeSet 0 r).2 ↔ p
  prefetched : g.captureGroupResolved = true → g.prefetchedCaptureGroupCount = k ∧
    (0 < g.prefetchedNamedCaptureGroupCount ↔ p)

variable {C : Config} {k : Nat} {p : Prop} {g g' : Groups} {cur cur' : Cursor} {node : Tree}
  {op : EscapeParseOp} {forward : Bool}

theorem Foresees.skips (h : Foresees C k p r g) (hs : Skips C.unicodeSet r r') : Foresees C k p r' g := by
  obtain ⟨hc, hn, hp⟩ := h
  rw [hs.lookahead] at hc hn
  exact ⟨hc, hn, hp⟩

/-- The look-ahead finds what there is. -/
theorem Foresees.resolveCaptureGroups (h : Foresees C k p r g) :
    Foresees C k p r (resolveCaptureGroups C r g) := by
  unfold Parser.resolveCaptureGroups
  split
  · exact h
  · exact ⟨h.count, h.named, fun _ => ⟨h.count, h.named⟩⟩

/-- What an atom does: it takes some text, opens no group, and keeps what is foreseen. -/
structure Reads (C : Config) (cur cur' : Cursor) : Prop where
  length_lt : cur'.rest.length < cur.rest.length
  count : cur'.groups.captureGroupCount = cur.groups.captureGroupCount
  named : cur'.groups.namedCaptureGroups = cur.groups.namedCaptureGroups
  foresees : ∀ k p, Foresees C k p cur.rest cur.groups → Foresees C k p cur'.rest cur'.groups

/-- The same without a look at the groups. -/
def Moves (C : Config) (cur cur' : Cursor) : Prop :=
  Eats C.unicodeSet cur.rest cur'.rest ∧ cur'.groups = cur.groups

theorem Moves.reads (h : Moves C cur cur') : Reads C cur cur' :=
  ⟨h.1.2, by rw [h.2], by rw [h.2], fun _ _ hf => h.2 ▸ hf.skips h.1.1⟩

theorem resolveCaptureGroups_eq (C : Config) (r : Bytes) (g : Groups) :
    (resolveCaptureGroups C r g).captureGroupCount = g.captureGroupCount ∧
      (resolveCaptureGroups C r g).namedCaptureGroups = g.namedCaptureGroups := by
  unfold Parser.resolveCaptureGroups
  split <;> exact ⟨rfl, rfl⟩

/-- An atom that asks the scanner somewhere in its text. -/
theorem Reads.of_resolve (h : Eats C.unicodeSet cur.rest cur'.rest)
    (hr : Skips C.unicodeSet cur.rest r)
    (hg : cur'.groups = resolveCaptureGroups C r cur.groups) : Reads C cur cur' := by
  obtain ⟨hc, hn⟩ := resolveCaptureGroups_eq C r cur.groups
  refine ⟨h.2, hg ▸ hc, hg ▸ hn, fun k p hf => ?_⟩
  have hf' := (hf.skips hr).resolveCaptureGroups
  refine ⟨?_, ?_, hg ▸ hf'.prefetched⟩
  · rw [hg, ← h.1.lookahead, hr.lookahead]
    exact hf'.count
  · rw [hg, ← h.1.lookahead, hr.lookahead]
    exact hf'.named

theorem Skips.parseOctal {n v : Nat} : Skips set r (parseOctal n v r).2 := by
  induction n generalizing v r with
  | zero => exact .refl _ _
  | succ n ih =>
    cases r with
    | nil => exact .refl _ _
    | cons ch r =>
      unfold Parser.parseOctal
      split
      · next hc =>
        refine .trans (Eats.plain (plain_of_isDigit ?_)).1 ih
        have := (Bool.and_eq_true_iff.1 hc).1
        simp [isOctal, isDigit, byte] at this ⊢
        omega
      · exact .refl _ _

theorem Skips.parseLegacyOctal (h : isDigit (r.headD 0) = true) :
    Skips set r (parseLegacyOctal r).2 := by
  unfold Parser.parseLegacyOctal
  split
  · exact .parseOctal
  · cases r with
    | nil => exact .refl _ _
    | cons ch r => exact (Eats.plain (plain_of_isDigit h)).1

theorem Reads.parseBackRefOrOctal {inCharClass : Bool} (hr : cur.rest = byte '\\' :: ch :: r)
    (hch : isDigit ch = true) (h : parseBackRefOrOctal C inCharClass cur = .ok (node, cur')) :
    Reads C cur cur' ∧ (inCharClass = true → Moves C cur cur') := by
  have hb : Eats C.unicodeSet cur.rest (ch :: r) := hr ▸ .backslash (plain_of_isDigit hch)
  have hdigits : Skips C.unicodeSet (ch :: r) ((ch :: r).drop ((ch :: r).takeWhile isDigit).length) :=
    .takeWhile fun _ h => plain_of_isDigit (List.mem_takeWhile_imp h)
  have hoctal : Skips C.unicodeSet (ch :: r) (Parser.parseLegacyOctal (ch :: r)).2 :=
    .parseLegacyOctal hch
  unfold Parser.parseBackRefOrOctal at h
  simp only [hr, List.drop_succ_cons, List.drop_zero] at h
  split at h
  · cases h
    exact ⟨Moves.reads ⟨hb.trans hdigits, rfl⟩, fun _ => ⟨hb.trans hdigits, rfl⟩⟩
  split at h
  · split at h
    · cases h
    · cases h
      exact ⟨Moves.reads ⟨hb.trans hoctal, rfl⟩, fun _ => ⟨hb.trans hoctal, rfl⟩⟩
  split at h
  · split at h
    · cases h
    · cases h
      exact ⟨Moves.reads ⟨hb.trans hoctal, rfl⟩, fun _ => ⟨hb.trans hoctal, rfl⟩⟩
  next hin =>
  refine ⟨?_, fun hin' => absurd hin' hin⟩
  split at h
  · cases h
    exact .of_resolve (hb.trans hdigits) (hb.trans hdigits).1 rfl
  · split at h
    · cases h
    · cases h
      exact .of_resolve (hb.trans hoctal) (hb.trans hdigits).1 rfl

theorem Reads.parseNamedBackRef {inCharClass : Bool} (hr : cur.rest = byte '\\' :: byte 'k' :: r)
    (h : parseNamedBackRef C inCharClass cur = .ok (node, cur')) :
    Reads C cur cur' ∧ (inCharClass = true → Moves C cur cur') := by
  have hk : Eats C.unicodeSet cur.rest (cur.rest.drop 2) := hr ▸ .escape
  unfold Parser.parseNamedBackRef at h
  split at h
  · split at h
    · cases h
    · cases h
      exact ⟨Moves.reads ⟨hk, rfl⟩, fun _ => ⟨hk, rfl⟩⟩
  next hin =>
  refine ⟨?_, fun hin' => absurd hin' hin⟩
  split at h
  · cases h
  next name rest hname =>
  by_cases hne : name = []
  · simp only [hne, decide_true, Bool.true_or, if_true] at h
    split at h
    · cases h
      exact Moves.reads ⟨hk, rfl⟩
    · cases h
  · have hrest : Eats C.unicodeSet cur.rest rest :=
      hk.trans (Eats.parseCaptureGroupName hname fun h => hne h.1).1
    simp only [hne, if_false, decide_false, Bool.false_or] at h
    split at h
    · split at h
      · cases h
        exact .of_resolve hk hrest.1 rfl
      · cases h
    · cases h
      obtain ⟨hc, hn⟩ := resolveCaptureGroups_eq C rest cur.groups
      refine ⟨hrest.2, hc, hn, fun k p hf => ?_⟩
      obtain ⟨hc, hn, hp⟩ := (hf.skips hrest.1).resolveCaptureGroups
      exact ⟨hc, hn, hp⟩

theorem Eats.parseIdentityEscape {start : Bytes}
    (h : parseIdentityEscape C op forward start (ch :: r) = .ok (node, r')) :
    Eats set (byte '\\' :: ch :: r) r' := by
  unfold Parser.parseIdentityEscape at h
  dsimp only at h
  split at h
  · split at h
    · cases h
      exact .escape
    · cases h
  split at h
  · cases h
    exact .escape
  split at h
  · cases h
    exact .escape
  split at h
  · cases h
  next hc =>
  split at h
  · cases h
    exact .escape_codePoint hc
  · cases h

theorem Eats.parseCharEscape
    (h : parseCharEscape C op forward (byte '\\' :: ch :: r) ch r = .ok (node, r')) :
    Eats set (byte '\\' :: ch :: r) r' := by
  unfold Parser.parseCharEscape at h
  dsimp only at h
  split at h
  · cases h
    exact .escape
  split at h
  · next hch =>
    split at h
    · next hl =>
      cases h
      cases r with
      | nil => exact .escape
      | cons c r =>
        refine Eats.escape.trans (Eats.plain (plain_of_isWordChar ?_)).1
        simpa [isWordChar] using .inl (.inl hl)
    split at h
    · cases h
      exact .backslash (hch ▸ by decide)
    · cases h
  split at h
  · cases h
    exact .escape
  split at h
  · split at h
    · cases h
      exact .escape
    split at h
    · cases h
    · cases h
      exact .escape
  split at h
  · split at h
    · cases h
    · cases h
      exact .escape
  split at h
  · split at h
    · cases h
    split at h
    · cases h
      exact .escape
    · exact .parseUnicodePropertyEscape h
  split at h
  · split at h
    · next hx =>
      cases h
      exact Eats.escape.trans (.hexDigits hx)
    split at h
    · cases h
      exact .escape
    · cases h
  split at h
  · split at h
    · next hu =>
      cases h
      exact .parseUnicodeEscape hu
    split at h
    · cases h
      exact .escape
    · cases h
  split at h
  · cases h
    exact .escape
  split at h
  · cases h
  · exact .parseIdentityEscape h

/-- An escape keeps what is foreseen; in a class it has nothing to do with the groups. -/
theorem Reads.parseAtomEscape (hr : startsWith ['\\'] cur.rest = true)
    (h : parseAtomEscape C op forward cur = .ok (node, cur')) :
    Reads C cur cur' ∧ (op.isInCharClass = true → Moves C cur cur') := by
  have hr' : byte '\\' :: cur.rest.drop 1 = cur.rest := startsWith_eq hr
  unfold Parser.parseAtomEscape at h
  split at h
  · cases h
  next ch r hrest =>
  rw [hrest] at hr'
  split at h
  · next hd => exact Reads.parseBackRefOrOctal hr'.symm hd h
  split at h
  · next hk => exact Reads.parseNamedBackRef (hk ▸ hr'.symm) h
  split at h
  · cases h
  next rest hc =>
  cases h
  rw [← hr'] at hc
  have he : Eats C.unicodeSet cur.rest rest := hr' ▸ .parseCharEscape hc
  exact ⟨Moves.reads ⟨he, rfl⟩, fun _ => ⟨he, rfl⟩⟩

end Arsh.Regex.Parser
