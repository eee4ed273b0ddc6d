import Arsh.Key.Event
import Arsh.Lib.Lexer

/-!
# Key names

`KeyNameLexer` with the rules of `keyname_lex.re2c.cpp`, and `KeyNameParser` of `keycode.cpp`. The
lexer reads the text with a newline and a null character at its end.
-/

namespace Arsh.Key

open Lexer

/-! ## Tokens -/

inductive TokenKind where
  | invalid
  | eos
  | asciiChar
  | plus
  | minus
  | identifier
  deriving DecidableEq, Repr

/-- What a rule does. -/
inductive Action where
  | ret (kind : TokenKind)
  | skip
  | reachEos
  deriving DecidableEq, Repr

def between (lo hi : Char) (c : Nat) : Bool := lo.toNat ≤ c && c ≤ hi.toNat

def isLetter (c : Nat) : Bool := between 'a' 'z' c || between 'A' 'Z' c

/-- `PRINTABLE_ASCII_WO_PLUS_MINUS_SP`. -/
def isPrintable (c : Nat) : Bool :=
  between '!' '*' c || c == 44 || between '.' '/' c || between ':' '@' c || between '[' '_' c ||
    c == 96 || between '{' '~' c || isLetter c || between '0' '9' c

def keyRules : List (Rule Nat Action) :=
  [⟨.ret .plus, .sym '+'.toNat, 0⟩, ⟨.ret .minus, .sym '-'.toNat, 0⟩,
    ⟨.ret .asciiChar, .set isPrintable, 0⟩,
    ⟨.ret .identifier, .cat (.set fun c => c == '_'.toNat || isLetter c)
      (.plus (.set fun c => c == '_'.toNat || isLetter c || between '0' '9' c)), 0⟩,
    ⟨.skip, .plus (.set fun c => [32, 9, 13, 10].contains c), 0⟩,
    ⟨.reachEos, .sym 0, 0⟩, ⟨.ret .invalid, .set fun _ => true, 0⟩]

/-- A token, with what is left behind it. -/
structure Token where
  kind : TokenKind
  text : Bytes
  rest : Bytes
  deriving DecidableEq, Repr

/-- Every rule reads something. -/
theorem next_pos {input : Bytes} {rule : Rule Nat Action} {n : Nat}
    (h : next keyRules input = some (rule, n)) : 0 < n ∧ n ≤ input.length := by
  obtain ⟨hmem, hlong⟩ := next_le h
  obtain ⟨hle, hlang, -⟩ := Re.longest_some hlong
  refine ⟨Nat.pos_of_ne_zero fun h0 => ?_, hle⟩
  rw [h0, List.take_zero, ← Re.nullable_iff] at hlang
  have hnone : ∀ r ∈ keyRules, r.re.nullable = false := by decide
  rw [hnone rule hmem] at hlang
  cases hlang

def nextToken (input : Bytes) : Token :=
  match _h : next keyRules input with
  | none => ⟨.invalid, [], input⟩
  | some (rule, size) =>
    match rule.kind with
    | .ret kind => ⟨kind, input.take size, input.drop size⟩
    | .skip => nextToken (input.drop size)
    | .reachEos =>
      -- the null character at the end of the buffer
      if input.drop size = [] then ⟨.eos, [], input⟩
      else ⟨.invalid, input.take size, input.drop size⟩
termination_by input.length
decreasing_by
  have hpos := next_pos _h
  rw [List.length_drop]
  omega

section
variable {input : Bytes} {rule : Rule Nat Action} {size : Nat} {kind : TokenKind}

theorem nextToken_ret (h : next keyRules input = some (rule, size)) (hk : rule.kind = .ret kind) :
    nextToken input = ⟨kind, input.take size, input.drop size⟩ := by
  rw [nextToken]
  split
  · next h' => cases h'.symm.trans h
  · next h' =>
    cases h'.symm.trans h
    rw [hk]

theorem nextToken_skip (h : next keyRules input = some (rule, size)) (hk : rule.kind = .skip) :
    nextToken input = nextToken (input.drop size) := by
  rw [nextToken]
  split
  · next h' => cases h'.symm.trans h
  · next h' =>
    cases h'.symm.trans h
    rw [hk]

theorem nextToken_eos (h : next keyRules input = some (rule, size)) (hk : rule.kind = .reachEos) :
    nextToken input = if input.drop size = [] then ⟨.eos, [], input⟩
      else ⟨.invalid, input.take size, input.drop size⟩ := by
  rw [nextToken]
  split
  · next h' => cases h'.symm.trans h
  · next h' =>
    cases h'.symm.trans h
    rw [hk]

theorem nextToken_none (h : next keyRules input = none) :
    nextToken input = ⟨.invalid, [], input⟩ := by
  rw [nextToken]
  split
  · rfl
  · next h' => cases h.symm.trans h'

/-- A token leaves less than it was read from, except at the end. -/
theorem length_rest (input : Bytes) : (nextToken input).rest.length ≤ input.length ∧
    ((nextToken input).kind ≠ .eos → (nextToken input).kind ≠ .invalid →
      (nextToken input).rest.length < input.length) := by
  induction hn : input.length using Nat.strong_induction_on generalizing input with
  | _ n ih =>
    subst hn
    cases h : next keyRules input with
    | none =>
      rw [nextToken_none h]
      exact ⟨Nat.le_refl _, fun _ hc => absurd rfl hc⟩
    | some found =>
      obtain ⟨rule, size⟩ := found
      have hpos := next_pos h
      have hdrop : (input.drop size).length < input.length := by
        rw [List.length_drop]
        omega
      cases hk : rule.kind with
      | ret kind =>
        rw [nextToken_ret h hk]
        exact ⟨Nat.le_of_lt hdrop, fun _ _ => hdrop⟩
      | skip =>
        rw [nextToken_skip h hk]
        obtain ⟨hle, hlt⟩ := ih _ hdrop (input.drop size) rfl
        exact ⟨by omega, fun h1 h2 => Nat.lt_trans (hlt h1 h2) hdrop⟩
      | reachEos =>
        rw [nextToken_eos h hk]
        split
        · exact ⟨Nat.le_refl _, fun hc => absurd rfl hc⟩
        · exact ⟨Nat.le_of_lt hdrop, fun _ _ => hdrop⟩

end

/-- What the lexer reads. -/
def buffer (ref : Bytes) : Bytes :=
  if ref.getLast? = some 10 then ref ++ [0] else ref ++ [10, 0]

/-! ## Names -/

def isShifted (ch : Nat) : Bool := between 'A' 'Z' ch

def unshift (ch : Nat) : Nat := ch - 'A'.toNat + 'a'.toNat

def isShiftable (ch : Nat) : Bool := between 'a' 'z' ch

def isShiftableOrSpace (ch : Nat) : Bool := isShiftable ch || ch == 32

def normalizeIdentifier (ref : Bytes) : Bytes :=
  (ref.filter (· != '_'.toNat)).map fun ch => if isShifted ch then unshift ch else ch

def lookupModifier (normalizedKey : Bytes) : Option Nat :=
  (modifierKeys.find? fun e => normalizeIdentifier e.2 == normalizedKey).map Prod.fst

def aliasTable : List (Bytes × FunctionKey) :=
  [(word ['e', 's', 'c'], .escape), (word ['b', 's'], .backspace), (word ['i', 'n', 's'], .insert),
    (word ['d', 'e', 'l'], .delete), (word ['p', 'g', 'u', 'p'], .pageUp),
    (word ['p', 'g', 'd', 'n'], .pageDown), (word ['p', 'r', 't', 's', 'c'], .printScreen),
    (word ['b', 'r', 'e', 'a', 'k'], .pause)]

/-- `initFuncKeyMap`; a name that is there is not added again. -/
def funcKeyMap : List (Bytes × FunctionKey) :=
  (FunctionKey.all.filter (· ≠ .bracketStart)).map (fun f => (normalizeIdentifier f.toString, f)) ++
    aliasTable

def lookupFuncKey (normalizedKey : Bytes) : Option FunctionKey :=
  (funcKeyMap.find? fun e => e.1 == normalizedKey).map Prod.snd

def asciiChars : List (Bytes × Nat) :=
  [(word ['s', 'p', 'a', 'c', 'e'], 32), (word ['p', 'l', 'u', 's'], '+'.toNat),
    (word ['m', 'i', 'n', 'u', 's'], '-'.toNat)]

def lookupAsciiChar (normalizedKey : Bytes) : Option Nat :=
  (asciiChars.find? fun e => e.1 == normalizedKey).map Prod.snd

/-! ## The parser -/

inductive KeyError where
  | afterModifier
  | shift
  | unrecognized (text : Bytes)
  | needKeyName (text : Bytes)
  | invalidToken (text : Bytes)
  deriving DecidableEq, Repr

def KeyError.message : KeyError → Bytes
  | .afterModifier => word "need '+' or '-' after modifier".toList
  | .shift => word "shift modifier is only allowed with lower letter or function key".toList
  | .unrecognized text => word "unrecognized modifier or function key: ".toList ++ text
  | .needKeyName text => word "need modifiers or keyname: ".toList ++ text
  | .invalidToken text => word "invalid token: ".toList ++ text

/-- The loop over the modifiers: their flags, and the token that starts the key. -/
def parseModifiers (modifiers : Nat) (token : Token) : Except KeyError (Nat × Token) :=
  if token.kind = .identifier then
    match lookupModifier (normalizeIdentifier token.text) with
    | none => .ok (modifiers, token)
    | some modifier =>
      if _h : (nextToken token.rest).kind = .plus ∨ (nextToken token.rest).kind = .minus then
        parseModifiers (modifiers ||| modifier) (nextToken (nextToken token.rest).rest)
      else .error .afterModifier
  else .ok (modifiers, token)
termination_by token.rest.length
decreasing_by
  have hle := (length_rest (nextToken token.rest).rest).1
  have hlt := (length_rest token.rest).2
  rcases _h with hc | hc <;> rw [hc] at hlt <;> have := hlt (by decide) (by decide) <;> omega

def parseKey (modifiers : Nat) (token : Token) : Except KeyError KeyEvent :=
  match token.kind with
  | .asciiChar | .plus | .minus =>
    let ch := token.text.headD 0
    if hasFlag modifiers shift && !isShiftableOrSpace ch then .error .shift
    else if isShifted ch then .ok (.ofCodePoint (unshift ch) (modifiers ||| shift))
    else .ok (.ofCodePoint ch modifiers)
  | .identifier =>
    -- empty for underscores only, where an assertion fails if there are assertions
    let key := normalizeIdentifier token.text
    match lookupFuncKey key with
    | some funcKey => .ok (.ofFuncKey funcKey modifiers)
    | none =>
      match lookupAsciiChar key with
      | some ch =>
        if hasFlag modifiers shift && !isShiftableOrSpace ch then .error .shift
        else .ok (.ofCodePoint ch modifiers)
      | none => .error (.unrecognized token.text)
  | .eos | .invalid => .error (.needKeyName token.text)

def fromKeyName (ref : Bytes) : Except KeyError KeyEvent :=
  match parseModifiers 0 (nextToken (buffer ref)) with
  | .error e => .error e
  | .ok (modifiers, token) =>
    match parseKey modifiers token with
    | .error e => .error e
    | .ok event =>
      let last := nextToken token.rest
      if last.kind = .eos then .ok event else .error (.invalidToken last.text)

end Arsh.Key
