import Arsh.Key.Parser

/-!
# Canonical key names

An event that `fromKeyName` gives is `Canonical`, and the text of a canonical event is read back as
the event.
-/

namespace Arsh.Key

open Lexer

section
variable {input text rest v w : Bytes} {kind : TokenKind} {ch m n size : Nat} {e : KeyEvent}
  {t : Token} {f : FunctionKey}

/-! ## Fields of an event -/

theorem value_ofCodePoint (hc : ch < 2 ^ 23) (hm : m < 2 ^ 8) :
    (KeyEvent.ofCodePoint ch m).value = ch * 2 ^ 8 + m := by
  have hmask : ch &&& codeMask = ch % 2 ^ 24 := Nat.and_two_pow_sub_one_eq_mod ch 24
  rw [KeyEvent.ofCodePoint, hmask, Nat.mod_eq_of_lt (by omega), shift_or hm]

theorem value_ofFuncKey (hf : f.toNat < 2 ^ 8) (hm : m < 2 ^ 8) :
    (KeyEvent.ofFuncKey f m).value = 2 ^ 31 + f.toNat * 2 ^ 8 + m := by
  have hmask : f.toNat &&& codeMask = f.toNat % 2 ^ 24 :=
    Nat.and_two_pow_sub_one_eq_mod _ 24
  rw [KeyEvent.ofFuncKey, hmask, Nat.mod_eq_of_lt (by omega), shift_or hm,
    or_shift (show _ < 2 ^ 31 by omega)]
  dsimp only
  omega

theorem isFuncKey_eq (e : KeyEvent) : e.isFuncKey = decide (e.value / 2 ^ 31 % 2 = 1) := by
  have hflag : (1 <<< 31 : Nat) = 2 ^ 31 := rfl
  rw [KeyEvent.isFuncKey, hflag, Nat.and_two_pow, ← Nat.testBit_eq_decide_div_mod_eq]
  cases e.value.testBit 31 <;> rfl

theorem modifiers_eq (e : KeyEvent) : e.modifiers = e.value % 2 ^ 8 :=
  Nat.and_two_pow_sub_one_eq_mod _ 8

theorem asCode_eq (e : KeyEvent) : e.asCode = e.value / 2 ^ 8 % 2 ^ 24 := @shiftRight_and 8 24 _

/-! ## Tokens of a name -/

/-- The kind of the rule and the size of its match. -/
def matched (input : Bytes) : Option (Action × Nat) :=
  (next keyRules input).map fun found => (found.1.kind, found.2)

theorem nextToken_of_matched (h : matched input = some (.ret kind, size)) :
    nextToken input = ⟨kind, input.take size, input.drop size⟩ := by
  obtain ⟨⟨rule, n⟩, hnext, heq⟩ := Option.map_eq_some_iff.1 h
  obtain ⟨hk, rfl⟩ := Prod.mk.injEq .. ▸ heq
  exact nextToken_ret hnext hk

theorem matched_append (h : ∀ r ∈ keyRules, (r.re.derivs w).stops = true) (v : Bytes) :
    matched (w ++ v) = matched w := by
  rw [matched, next_append h]
  rfl

theorem nextToken_plus (v : Bytes) : nextToken ('+'.toNat :: v) = ⟨.plus, ['+'.toNat], v⟩ := by
  have hm : matched ([43] ++ v) = some (.ret .plus, 1) :=
    (matched_append (by decide) v).trans (by decide)
  exact nextToken_of_matched hm

/-- A modifier with its `+`. -/
theorem nextToken_modifier {name : Bytes} {flag : Nat} (h : (flag, name) ∈ modifierKeys)
    (v : Bytes) : nextToken (name ++ '+'.toNat :: v) = ⟨.identifier, name, '+'.toNat :: v⟩ := by
  have hall : ∀ e ∈ modifierKeys, (∀ r ∈ keyRules, (r.re.derivs (e.2 ++ [43])).stops = true) ∧
      matched (e.2 ++ [43]) = some (.ret .identifier, e.2.length) := by decide
  obtain ⟨hstops, hmatched⟩ := hall _ h
  have happ : name ++ '+'.toNat :: v = (name ++ [43]) ++ v := by
    rw [List.append_assoc]
    rfl
  have hm := matched_append hstops v
  rw [hmatched] at hm
  rw [happ, nextToken_of_matched hm, List.append_assoc, List.take_left, List.drop_left]
  rfl

theorem nextToken_end : nextToken [10, 0] = ⟨.eos, [], [0]⟩ := by
  have hskip : matched [10, 0] = some (.skip, 1) := by decide
  have heos : matched [0] = some (.reachEos, 1) := by decide
  obtain ⟨⟨rule, n⟩, hnext, heq⟩ := Option.map_eq_some_iff.1 hskip
  obtain ⟨⟨rule', n'⟩, hnext', heq'⟩ := Option.map_eq_some_iff.1 heos
  obtain ⟨hk, rfl⟩ := Prod.mk.injEq .. ▸ heq
  obtain ⟨hk', rfl⟩ := Prod.mk.injEq .. ▸ heq'
  rw [nextToken_skip hnext hk]
  exact nextToken_eos hnext' hk'

/-! ## Modifiers -/

/-- The modifiers in front of a key are read one after the other. -/
theorem parseModifiers_names {l : List (Nat × Bytes)} (hl : ∀ e ∈ l, e ∈ modifierKeys) :
    parseModifiers m (nextToken ((l.flatMap fun e => e.2 ++ ['+'.toNat]) ++ v)) =
      parseModifiers (l.foldl (fun m e => m ||| e.1) m) (nextToken v) := by
  induction l generalizing m with
  | nil => rfl
  | cons e l ih =>
    obtain ⟨flag, name⟩ := e
    have hmem := hl _ List.mem_cons_self
    have hlookup : ∀ e ∈ modifierKeys, lookupModifier (normalizeIdentifier e.2) = some e.1 := by
      decide
    rw [List.flatMap_cons, List.append_assoc, List.append_assoc]
    have htoken := nextToken_modifier hmem ((l.flatMap fun e => e.2 ++ ['+'.toNat]) ++ v)
    rw [List.singleton_append, htoken, parseModifiers, if_pos rfl, hlookup _ hmem]
    dsimp only
    rw [nextToken_plus, dif_pos (.inl rfl), ih fun e he => hl e (List.mem_cons_of_mem _ he)]
    rfl

theorem modifierText_eq (e : KeyEvent) : e.modifierText =
    (modifierKeys.filter fun p => e.hasModifier p.1).flatMap fun p => p.2 ++ ['+'.toNat] := by
  rw [KeyEvent.modifierText]
  induction modifierKeys with
  | nil => rfl
  | cons p l ih =>
    rw [List.flatMap_cons, List.filter_cons, ih]
    dsimp only
    split <;> rfl

/-- The flags of the names are put together again. -/
theorem foldl_flags (h : m < 2 ^ 6) :
    (modifierKeys.filter fun p => hasFlag m p.1).foldl (fun m p => m ||| p.1) 0 = m := by
  have hall : ∀ m < 64,
      (modifierKeys.filter fun p => hasFlag m p.1).foldl (fun m p => m ||| p.1) 0 = m := by
    decide
  exact hall m h

/-! ## Canonical events -/

/-- A printable character that is not an upper case letter. -/
def isKeyChar (ch : Nat) : Bool := decide (32 ≤ ch) && decide (ch ≤ 126) && !isShifted ch

/-- A function key with any modifiers, or a character with modifiers that fit. -/
def Canonical (e : KeyEvent) : Prop :=
  ∃ m < 2 ^ 6,
    (∃ f : FunctionKey, f ≠ .bracketStart ∧ e = .ofFuncKey f m) ∨
    ∃ ch, isKeyChar ch = true ∧ (hasFlag m shift = true → isShiftableOrSpace ch = true) ∧
      e = .ofCodePoint ch m

/-- A key text that is one token. -/
theorem fromKeyName_of_token (hm : e.modifiers = m) (hlt : m < 2 ^ 6) (htext : e.keyText = w)
    (hlast : w ≠ [] ∧ w.getLast? ≠ some 10)
    (hmatched : matched (w ++ [10, 0]) = some (.ret kind, w.length))
    (hmod : parseModifiers m ⟨kind, w, [10, 0]⟩ = .ok (m, ⟨kind, w, [10, 0]⟩))
    (hkey : parseKey m ⟨kind, w, [10, 0]⟩ = .ok e) : fromKeyName e.toString = .ok e := by
  have htoken := nextToken_of_matched hmatched
  rw [List.take_left, List.drop_left] at htoken
  have hbuffer : buffer e.toString = e.modifierText ++ (w ++ [10, 0]) := by
    rw [KeyEvent.toString, htext, buffer, List.getLast?_append_of_ne_nil _ hlast.1,
      if_neg hlast.2, List.append_assoc]
  have hfilter : (modifierKeys.filter fun p => e.hasModifier p.1) =
      modifierKeys.filter fun p => hasFlag m p.1 := by
    simp only [KeyEvent.hasModifier, hm]
  rw [fromKeyName, hbuffer, modifierText_eq, hfilter, parseModifiers_names fun p hp =>
    (List.mem_filter.1 hp).1, foldl_flags hlt, htoken, hmod]
  dsimp only
  rw [hkey]
  dsimp only
  rw [nextToken_end]
  rfl

theorem parseModifiers_identifier (h : lookupModifier (normalizeIdentifier w) = none) :
    parseModifiers m ⟨.identifier, w, rest⟩ = .ok (m, ⟨.identifier, w, rest⟩) := by
  rw [parseModifiers, if_pos rfl, h]

/-! ## Canonical texts are read back -/

theorem funcKey_fields (hm : m < 2 ^ 6) : (KeyEvent.ofFuncKey f m).modifiers = m ∧
    (KeyEvent.ofFuncKey f m).keyText = f.toString := by
  have hall : ∀ f : FunctionKey, f.toNat < 2 ^ 8 ∧ FunctionKey.all[f.toNat]? = some f := by
    intro f
    cases f <;> decide
  obtain ⟨hlt, hget⟩ := hall f
  have hvalue := @value_ofFuncKey m f hlt (by omega)
  have hfunc : (KeyEvent.ofFuncKey f m).isFuncKey = true := by
    rw [isFuncKey_eq, hvalue, decide_eq_true_eq]
    omega
  have hcode : (KeyEvent.ofFuncKey f m).asCode % 2 ^ 8 = f.toNat := by
    rw [asCode_eq, hvalue]
    omega
  refine ⟨?_, ?_⟩
  · rw [modifiers_eq, hvalue]
    omega
  · rw [KeyEvent.keyText, if_pos hfunc, KeyEvent.asFuncKey, hcode, hget]
    rfl

theorem fromKeyName_ofFuncKey (hm : m < 2 ^ 6) (hf : f ≠ .bracketStart) :
    fromKeyName (KeyEvent.ofFuncKey f m).toString = .ok (.ofFuncKey f m) := by
  obtain ⟨hmodifiers, htext⟩ := @funcKey_fields m f hm
  have hall : ∀ f : FunctionKey, f ≠ .bracketStart →
      (f.toString ≠ [] ∧ f.toString.getLast? ≠ some 10) ∧
      matched (f.toString ++ [10, 0]) = some (.ret .identifier, f.toString.length) ∧
      lookupModifier (normalizeIdentifier f.toString) = none ∧
      lookupFuncKey (normalizeIdentifier f.toString) = some f := by
    intro f hf
    cases f <;> first | exact absurd rfl hf | decide
  obtain ⟨hlast, hmatched, hmod, hlookup⟩ := hall f hf
  apply fromKeyName_of_token hmodifiers hm htext hlast hmatched (parseModifiers_identifier hmod)
  rw [parseKey]
  dsimp only
  rw [hlookup]

theorem codePoint_fields (hm : m < 2 ^ 6) (hch : ch ≤ 126) :
    (KeyEvent.ofCodePoint ch m).modifiers = m ∧
    (KeyEvent.ofCodePoint ch m).keyText =
      if ch = 32 then word ['s', 'p', 'a', 'c', 'e'] else [ch] := by
  have hvalue := @value_ofCodePoint ch m (by omega) (by omega)
  have hfunc : (KeyEvent.ofCodePoint ch m).isFuncKey = false := by
    rw [isFuncKey_eq, hvalue, decide_eq_false_iff_not]
    omega
  have hcode : (KeyEvent.ofCodePoint ch m).asCode = ch := by
    rw [asCode_eq, hvalue]
    omega
  refine ⟨?_, ?_⟩
  · rw [modifiers_eq, hvalue]
    omega
  · rw [KeyEvent.keyText, hfunc, if_neg Bool.false_ne_true, hcode, UnicodeUtil.codePointToUtf8,
      if_pos (show ch ≤ 0x7F by omega)]

theorem fromKeyName_space (hm : m < 2 ^ 6) :
    fromKeyName (KeyEvent.ofCodePoint 32 m).toString = .ok (.ofCodePoint 32 m) := by
  obtain ⟨hmodifiers, htext⟩ := @codePoint_fields 32 m hm (by decide)
  rw [if_pos rfl] at htext
  have hfunc : lookupFuncKey (normalizeIdentifier (word ['s', 'p', 'a', 'c', 'e'])) = none := by
    decide
  have hascii : lookupAsciiChar (normalizeIdentifier (word ['s', 'p', 'a', 'c', 'e'])) =
      some 32 := by decide
  have hspace : isShiftableOrSpace 32 = true := by decide
  refine fromKeyName_of_token hmodifiers hm htext (by decide) (by decide)
    (parseModifiers_identifier (by decide)) ?_
  rw [parseKey]
  dsimp only
  rw [hfunc, hascii]
  dsimp only
  rw [hspace, Bool.not_true, Bool.and_false, if_neg Bool.false_ne_true]

/-- A character is a token of its own. -/
theorem matched_char (hch : isKeyChar ch = true) (hsp : ch ≠ 32) :
    ∃ kind, (kind = .asciiChar ∨ kind = .plus ∨ kind = .minus) ∧
      matched [ch, 10, 0] = some (.ret kind, 1) := by
  have hall : ∀ ch ∈ List.range 127, isKeyChar ch = true ∧ ch ≠ 32 →
      matched [ch, 10, 0] = some (.ret .asciiChar, 1) ∨
      matched [ch, 10, 0] = some (.ret .plus, 1) ∨
      matched [ch, 10, 0] = some (.ret .minus, 1) := by decide +kernel
  have hlt : ch < 127 := by
    simp only [isKeyChar, Bool.and_eq_true, decide_eq_true_eq] at hch
    omega
  rcases hall ch (List.mem_range.2 hlt) ⟨hch, hsp⟩ with h | h | h
  · exact ⟨_, .inl rfl, h⟩
  · exact ⟨_, .inr (.inl rfl), h⟩
  · exact ⟨_, .inr (.inr rfl), h⟩

theorem fromKeyName_ofCodePoint (hm : m < 2 ^ 6) (hch : isKeyChar ch = true)
    (hshift : hasFlag m shift = true → isShiftableOrSpace ch = true) :
    fromKeyName (KeyEvent.ofCodePoint ch m).toString = .ok (.ofCodePoint ch m) := by
  by_cases hsp : ch = 32
  · rw [hsp]
    exact fromKeyName_space hm
  obtain ⟨kind, hkind, hmatched⟩ := matched_char hch hsp
  simp only [isKeyChar, Bool.and_eq_true, decide_eq_true_eq, Bool.not_eq_true'] at hch
  obtain ⟨⟨hlo, hhi⟩, hlower⟩ := hch
  obtain ⟨hmodifiers, htext⟩ := @codePoint_fields ch m hm hhi
  rw [if_neg hsp] at htext
  have hflag : (hasFlag m shift && !isShiftableOrSpace ch) = false := by
    cases hs : hasFlag m shift with
    | false => rfl
    | true => rw [hshift hs]; rfl
  have hnl : ch ≠ 10 := by omega
  refine fromKeyName_of_token hmodifiers hm htext
    ⟨List.cons_ne_nil _ _, by simpa using hnl⟩ hmatched ?_ ?_
  · rcases hkind with rfl | rfl | rfl <;> rw [parseModifiers, if_neg nofun]
  · rcases hkind with rfl | rfl | rfl <;> rw [parseKey] <;> dsimp only <;>
      rw [List.headD_cons, hflag, if_neg Bool.false_ne_true, hlower,
        if_neg Bool.false_ne_true]

theorem Canonical.fromKeyName (h : Canonical e) : fromKeyName e.toString = .ok e := by
  obtain ⟨m, hm, ⟨f, hf, rfl⟩ | ⟨ch, hch, hshift, rfl⟩⟩ := h
  · exact fromKeyName_ofFuncKey hm hf
  · exact fromKeyName_ofCodePoint hm hch hshift

end

/-! ## Accepted names are canonical -/

section
variable {input s s' : Bytes} {m m' n ch : Nat} {e e' : KeyEvent} {t t' : Token} {key : Bytes}

/-- A token is a word of the rule that gives its kind. -/
theorem nextToken_lang (input : Bytes) :
    (∃ rule ∈ keyRules, rule.kind = .ret (nextToken input).kind ∧
      (nextToken input).text ∈ rule.re.lang) ∨
    (nextToken input).kind = .eos ∨ (nextToken input).kind = .invalid := by
  induction hn : input.length using Nat.strong_induction_on generalizing input with
  | _ n ih =>
    subst hn
    cases h : next keyRules input with
    | none =>
      rw [nextToken_none h]
      exact .inr (.inr rfl)
    | some found =>
      obtain ⟨rule, size⟩ := found
      obtain ⟨hmem, hlong⟩ := next_le h
      obtain ⟨-, hlang, -⟩ := Re.longest_some hlong
      cases hk : rule.kind with
      | ret kind =>
        rw [nextToken_ret h hk]
        exact .inl ⟨rule, hmem, hk, hlang⟩
      | skip =>
        rw [nextToken_skip h hk]
        have hpos := next_pos h
        exact ih _ (by rw [List.length_drop]; omega) _ rfl
      | reachEos =>
        rw [nextToken_eos h hk]
        split
        · exact .inr (.inl rfl)
        · exact .inr (.inr rfl)

/-- The kinds of a key that is a character. -/
def TokenKind.isChar (kind : TokenKind) : Bool :=
  kind == .asciiChar || kind == .plus || kind == .minus

/-- The assertion of the parser: the token of a character is that character. -/
def CharToken (t : Token) : Prop :=
  t.kind.isChar = true → ∃ ch, 33 ≤ ch ∧ ch ≤ 126 ∧ t.text = [ch]

theorem isPrintable_bounds (h : isPrintable ch = true) : 33 ≤ ch ∧ ch ≤ 126 := by
  have hsplit := h
  simp only [isPrintable, isLetter, between, Bool.or_eq_true, Bool.and_eq_true, decide_eq_true_eq,
    beq_iff_eq, Char.reduceToNat] at hsplit
  omega

theorem nextToken_charToken (input : Bytes) : CharToken (nextToken input) := by
  intro hchar
  obtain ⟨rule, hmem, hkind, hlang⟩ | h | h := nextToken_lang input
  · simp only [keyRules, List.mem_cons, List.not_mem_nil, or_false] at hmem
    rcases hmem with rfl | rfl | rfl | rfl | rfl | rfl | rfl
    · exact ⟨_, by decide, by decide, Re.mem_sym.1 hlang⟩
    · exact ⟨_, by decide, by decide, Re.mem_sym.1 hlang⟩
    · obtain ⟨ch, hch, htext⟩ := Re.mem_set.1 hlang
      obtain ⟨hlo, hhi⟩ := isPrintable_bounds hch
      exact ⟨ch, hlo, hhi, htext⟩
    · rw [← (Action.ret.inj hkind)] at hchar
      cases hchar
    · cases hkind
    · cases hkind
    · rw [← (Action.ret.inj hkind)] at hchar
      cases hchar
  · rw [h] at hchar
    cases hchar
  · rw [h] at hchar
    cases hchar

theorem lookupModifier_lt (h : lookupModifier key = some n) : n < 2 ^ 6 := by
  obtain ⟨entry, hfind, rfl⟩ := Option.map_eq_some_iff.1 h
  have hall : ∀ e ∈ modifierKeys, e.1 < 2 ^ 6 := by decide
  exact hall entry (List.mem_of_find?_eq_some hfind)

/-- The modifiers fit in their flags, and the key is a token of the text. -/
theorem parseModifiers_ok (hm : m < 2 ^ 6) (ht : CharToken t)
    (h : parseModifiers m t = .ok (m', t')) : m' < 2 ^ 6 ∧ CharToken t' := by
  induction m, t using parseModifiers.induct with
  | case1 m t hkind hnone =>
    rw [parseModifiers, if_pos hkind, hnone] at h
    cases h
    exact ⟨hm, ht⟩
  | case2 m t hkind flag hflag hsep ih =>
    rw [parseModifiers, if_pos hkind, hflag] at h
    dsimp only at h
    rw [dif_pos hsep] at h
    exact ih (Nat.or_lt_two_pow hm (lookupModifier_lt hflag)) (nextToken_charToken _) h
  | case3 m t hkind flag hflag hsep =>
    rw [parseModifiers, if_pos hkind, hflag] at h
    dsimp only at h
    rw [dif_neg hsep] at h
    cases h
  | case4 m t hkind =>
    rw [parseModifiers, if_neg hkind] at h
    cases h
    exact ⟨hm, ht⟩

theorem lookupFuncKey_ne {f : FunctionKey} (h : lookupFuncKey key = some f) :
    f ≠ .bracketStart := by
  obtain ⟨entry, hfind, rfl⟩ := Option.map_eq_some_iff.1 h
  have hall : ∀ e ∈ funcKeyMap, e.2 ≠ .bracketStart := by decide
  exact hall entry (List.mem_of_find?_eq_some hfind)

theorem lookupAsciiChar_isKeyChar (h : lookupAsciiChar key = some ch) : isKeyChar ch = true := by
  obtain ⟨entry, hfind, rfl⟩ := Option.map_eq_some_iff.1 h
  have hall : ∀ e ∈ asciiChars, isKeyChar e.2 = true := by decide
  exact hall entry (List.mem_of_find?_eq_some hfind)

/-- The character of a token, with a modifier more when it is an upper case letter. -/
theorem canonical_char (hm : m < 2 ^ 6) (hlo : 33 ≤ ch) (hhi : ch ≤ 126)
    (hshift : hasFlag m shift = true → isShiftableOrSpace ch = true) :
    Canonical (if isShifted ch then .ofCodePoint (unshift ch) (m ||| shift)
      else .ofCodePoint ch m) := by
  split
  · next hs =>
    have hbounds : 65 ≤ ch ∧ ch ≤ 90 := by
      simpa [isShifted, between] using hs
    have hlower : ∀ ch ∈ List.range 91, 65 ≤ ch →
        isKeyChar (unshift ch) = true ∧ isShiftableOrSpace (unshift ch) = true := by decide
    obtain ⟨hkey, hspace⟩ := hlower ch (List.mem_range.2 (by omega)) hbounds.1
    exact ⟨m ||| shift, Nat.or_lt_two_pow hm (by decide), .inr ⟨_, hkey, fun _ => hspace, rfl⟩⟩
  · next hs =>
    refine ⟨m, hm, .inr ⟨ch, ?_, hshift, rfl⟩⟩
    rw [isKeyChar, decide_eq_true (by omega), decide_eq_true hhi, Bool.eq_false_of_not_eq_true hs]
    rfl

theorem parseKey_canonical (hm : m < 2 ^ 6) (ht : CharToken t) (h : parseKey m t = .ok e) :
    Canonical e := by
  have hallowed : ∀ ch, ¬(hasFlag m shift && !isShiftableOrSpace ch) = true →
      hasFlag m shift = true → isShiftableOrSpace ch = true := by
    intro ch hnot hflag
    rw [hflag, Bool.true_and, Bool.not_eq_true', Bool.not_eq_false] at hnot
    exact hnot
  have hchar : t.kind.isChar = true →
      (if hasFlag m shift && !isShiftableOrSpace (t.text.headD 0) then .error .shift
        else if isShifted (t.text.headD 0) then
          .ok (.ofCodePoint (unshift (t.text.headD 0)) (m ||| shift))
        else .ok (.ofCodePoint (t.text.headD 0) m)) = Except.ok (ε := KeyError) e →
      Canonical e := by
    intro hkind h
    obtain ⟨ch, hlo, hhi, htext⟩ := ht hkind
    rw [htext, List.headD_cons] at h
    split at h
    · cases h
    · next hnot =>
      have hcan := canonical_char hm hlo hhi (hallowed ch hnot)
      rw [← apply_ite Except.ok] at h
      rwa [← Except.ok.inj h]
  rw [parseKey] at h
  cases hkind : t.kind with
  | asciiChar | plus | minus =>
    rw [hkind] at h hchar
    exact hchar rfl h
  | identifier =>
    rw [hkind] at h
    dsimp only at h
    split at h
    · next f hf =>
      cases h
      exact ⟨m, hm, .inl ⟨f, lookupFuncKey_ne hf, rfl⟩⟩
    · split at h
      · next ch hch =>
        split at h
        · cases h
        · next hnot =>
          cases h
          exact ⟨m, hm, .inr ⟨ch, lookupAsciiChar_isKeyChar hch, hallowed ch hnot, rfl⟩⟩
      · cases h
  | eos | invalid =>
    rw [hkind] at h
    cases h

theorem Canonical.of_fromKeyName (h : Key.fromKeyName s = .ok e) : Canonical e := by
  rw [Key.fromKeyName] at h
  cases hmod : parseModifiers 0 (nextToken (buffer s)) with
  | error err =>
    rw [hmod] at h
    cases h
  | ok found =>
    obtain ⟨m, t⟩ := found
    obtain ⟨hm, ht⟩ := parseModifiers_ok (by decide) (nextToken_charToken _) hmod
    rw [hmod] at h
    dsimp only at h
    cases hkey : parseKey m t with
    | error err =>
      rw [hkey] at h
      cases h
    | ok event =>
      rw [hkey] at h
      dsimp only at h
      split at h
      · cases h
        exact parseKey_canonical hm ht hkey
      · cases h

/-- The canonical text of an accepted name is accepted and names the same event, so two names are of
one event if and only if their canonical texts are equal. -/
theorem keyName_canonical (hs : fromKeyName s = .ok e) (hs' : fromKeyName s' = .ok e') :
    fromKeyName e.toString = .ok e ∧ (e = e' ↔ e.toString = e'.toString) := by
  have he := (Canonical.of_fromKeyName hs).fromKeyName
  have he' := (Canonical.of_fromKeyName hs').fromKeyName
  refine ⟨he, congrArg KeyEvent.toString, fun heq => ?_⟩
  rw [heq, he'] at he
  exact (Except.ok.inj he).symm

end

theorem fromKeyName_ctrlEsc : fromKeyName (word ['C', 't', 'r', 'l', '-', 'E', 's', 'c']) =
    .ok (.ofFuncKey .escape 4) := by
  have hctrl : matched (word ['C', 't', 'r', 'l', '-', 'E', 's', 'c'] ++ [10, 0]) =
      some (.ret .identifier, 4) := by decide
  have hminus : matched (word ['-', 'E', 's', 'c'] ++ [10, 0]) = some (.ret .minus, 1) := by
    decide
  have hesc : matched (word ['E', 's', 'c'] ++ [10, 0]) = some (.ret .identifier, 3) := by decide
  have hbuffer : buffer (word ['C', 't', 'r', 'l', '-', 'E', 's', 'c']) =
      word ['C', 't', 'r', 'l', '-', 'E', 's', 'c'] ++ [10, 0] := by decide
  have hrest : nextToken (word ['-', 'E', 's', 'c'] ++ [10, 0]) =
      ⟨.minus, ['-'.toNat], word ['E', 's', 'c'] ++ [10, 0]⟩ := nextToken_of_matched hminus
  have hkey : nextToken (word ['E', 's', 'c'] ++ [10, 0]) =
      ⟨.identifier, word ['E', 's', 'c'], [10, 0]⟩ := nextToken_of_matched hesc
  have hmod : parseModifiers 0 ⟨.identifier, word ['C', 't', 'r', 'l'],
      word ['-', 'E', 's', 'c'] ++ [10, 0]⟩ =
      .ok (4, ⟨.identifier, word ['E', 's', 'c'], [10, 0]⟩) := by
    have hlookup : lookupModifier (normalizeIdentifier (word ['C', 't', 'r', 'l'])) = some 4 := by
      decide
    rw [parseModifiers, if_pos rfl, hlookup]
    dsimp only
    rw [hrest, dif_pos (.inr rfl)]
    dsimp only
    rw [hkey]
    exact parseModifiers_identifier (by decide)
  rw [fromKeyName, hbuffer, nextToken_of_matched hctrl]
  dsimp only [List.take, List.drop, word, List.map, List.cons_append, List.nil_append] at hmod ⊢
  rw [hmod]
  have hparse : parseKey 4 ⟨.identifier, word ['E', 's', 'c'], [10, 0]⟩ =
      .ok (.ofFuncKey .escape 4) := by decide
  dsimp only [word, List.map] at hparse ⊢
  rw [hparse]
  dsimp only
  rw [nextToken_end]
  rfl

theorem keyName_canonical_ctrlEsc :
    fromKeyName (KeyEvent.ofFuncKey .escape 4).toString = .ok (.ofFuncKey .escape 4) ∧
    (KeyEvent.ofFuncKey .escape 4 = .ofCodePoint 'a'.toNat 1 ↔
      (KeyEvent.ofFuncKey .escape 4).toString = (KeyEvent.ofCodePoint 'a'.toNat 1).toString) :=
  keyName_canonical fromKeyName_ctrlEsc (fromKeyName_ofCodePoint (by decide) (by decide)
    fun _ => by decide)

end Arsh.Key
