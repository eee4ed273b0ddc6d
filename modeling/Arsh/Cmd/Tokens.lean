import Arsh.Lib.Lexer

/-!
# Tokens of command arguments

The rules of `nextToken.re2c.cpp` for the condition `CMD`, and `Lexer::nextToken` while no completion
is asked for. A source text is valid UTF-8 and given by its code points. What the lexer reads has a
newline and a null character at the end.
-/

namespace Arsh.Cmd

open Lexer

/-- `TokenKind`, as far as these rules return it. -/
inductive TokenKind where
  | lp | rp | condAnd | condOr | pipe | background | disownBg
  | appliedName | specialName | appliedNameWithField | startInterp | startSubCmd | backquoteLiteral
  | cmdArgPart | tilde | metaAssign | metaColon | braceCharSeq | braceIntSeq
  | globAny | globZeroOrMore | globBracketOpen | globBracketClose | braceOpen | braceClose | braceSep
  | stringLiteral | openDquote
  | appliedNameWithBracket | specialNameWithBracket | appliedNameWithParen
  | redirIn | redirOut | redirOutClobber | redirAppend
  | redirOutErr | redirOutErrClobber | redirAppendOutErr
  | redirInOut | redirDupIn | redirDupOut | redirHereDoc | redirHereDocDash | redirHereStr
  | startInSub | startOutSub | newLine | lineEnd | unclosedStringLiteral | unclosedBackquoteLiteral
  | eos | invalid
  deriving DecidableEq, Repr

/-- What a rule does. -/
inductive Action where
  | ret (kind : TokenKind)
  | newLine
  | space
  | skip
  | eos
  deriving DecidableEq, Repr

/-! ## Regular expressions -/

def text (w : List Char) : Re Nat := .lit (w.map Char.toNat)

/-- `[lo-hi]`. -/
def range (lo hi : Char) : Re Nat := .set fun c => decide (lo.toNat ≤ c) && decide (c ≤ hi.toNat)

/-- `[cs]`. -/
def oneOf (cs : List Nat) : Re Nat := .set fun c => cs.contains c

/-- `[^cs]`. -/
def noneOf (cs : List Nat) : Re Nat := .set fun c => decide (c ≤ 0x10FFFF) && !cs.contains c

def backslash : Nat := 92

def quote : Nat := 39

def dquote : Nat := 34

def backquote : Nat := 96

def digit : Re Nat := range '0' '9'

def letter : Re Nat := .alt (range 'a' 'z') (range 'A' 'Z')

/-- A backslash with any character, or any character but a backslash and `cs`. -/
def escapedOr (cs : List Nat) : Re Nat :=
  .alt (.cat (.sym backslash) (noneOf [0])) (noneOf (backslash :: cs))

def varName : Re Nat :=
  .cat (.alt (text ['_']) letter) (.star (.alt (text ['_']) (.alt digit letter)))

def specialNames : Re Nat := .alt (oneOf (['@', '#', '?', '$'].map Char.toNat)) (.plus digit)

/-- `UNCLOSED_STRING_LITERAL`. -/
def unclosedString : Re Nat := .cat (.sym quote) (.star (noneOf [quote, 0]))

/-- `UNCLOSED_ESTRING_LITERAL`. -/
def unclosedEstring : Re Nat := .cat (.lit ['$'.toNat, quote]) (.star (escapedOr [quote, 0]))

/-- `UNCLOSED_BACKQUOTE_LITERAL`. -/
def unclosedBackquote : Re Nat :=
  .cat (.sym backquote) (.star (.alt (.cat (.sym backslash) (noneOf [0])) (noneOf [backquote, 0])))

def appliedName : Re Nat := .cat (text ['$']) varName

def specialName : Re Nat := .cat (text ['$']) specialNames

/-- `"${" r "}"`. -/
def inBraces (r : Re Nat) : Re Nat := .cat (text ['$', '{']) (.cat r (text ['}']))

/-- What a plain part of an argument has with a backslash only: blanks, the characters
`\ ; = : ~ ' " | & < > ( ) $ ? * [ ] { } ,`, the back quote and the null character. -/
def argMeta : List Nat :=
  [32, 9, 10, 92, 59, 61, 58, 126, 39, 34, 96, 124, 38, 60, 62, 40, 41, 36, 63, 42, 91, 93, 123, 125,
    44, 0]

def cmdArgStartChar : Re Nat :=
  .alt (.cat (.sym backslash) (noneOf [10, 0])) (noneOf ('#'.toNat :: argMeta))

def cmdArgChar : Re Nat := .alt (.cat (.sym backslash) (noneOf [0])) (noneOf argMeta)

def cmdArg : Re Nat := .cat cmdArgStartChar (.star cmdArgChar)

/-- `[+-]?[0-9]+`. -/
def signedDigits : Re Nat := .cat (.opt (oneOf (['+', '-'].map Char.toNat))) (.plus digit)

/-- `BRACE_INT_SEQ` and `BRACE_CHAR_SEQ`, of two ends. -/
def braceSeq (e : Re Nat) : Re Nat :=
  .cat (text ['{']) (.cat (.cat e (.cat (text ['.', '.']) e))
    (.cat (.opt (.cat (text ['.', '.']) signedDigits)) (text ['}'])))

/-- `[0-9]* op`. -/
def redir (op : List Char) : Re Nat := .cat (.star digit) (text op)

/-! ## Rules -/

/-- The rules before that of the plain part. -/
def rulesBefore : List (Rule Nat Action) :=
  [⟨.ret .lp, text ['('], 0⟩, ⟨.ret .rp, text [')'], 0⟩, ⟨.ret .condAnd, text ['&', '&'], 0⟩,
    ⟨.ret .condOr, text ['|', '|'], 0⟩, ⟨.ret .pipe, text ['|'], 0⟩,
    ⟨.ret .background, text ['&'], 0⟩,
    ⟨.ret .disownBg, .alt (text ['&', '!']) (text ['&', '|']), 0⟩,
    ⟨.ret .appliedName, .alt appliedName (inBraces varName), 0⟩,
    ⟨.ret .specialName, .alt specialName (inBraces specialNames), 0⟩,
    ⟨.ret .appliedNameWithField,
      inBraces (.cat varName (.plus (.cat (text ['.']) varName))), 0⟩,
    ⟨.ret .startInterp, text ['$', '{'], 0⟩, ⟨.ret .startSubCmd, text ['$', '('], 0⟩,
    ⟨.ret .backquoteLiteral, .cat unclosedBackquote (.sym backquote), 0⟩]

def cmdArgRule : Rule Nat Action := ⟨.ret .cmdArgPart, cmdArg, 0⟩

/-- The redirections that may start with a number. -/
def redirRules : List (Rule Nat Action) :=
  [⟨.ret .redirIn, redir ['<'], 0⟩, ⟨.ret .redirOut, redir ['>'], 0⟩,
    ⟨.ret .redirOutClobber, redir ['>', '|'], 0⟩, ⟨.ret .redirAppend, redir ['>', '>'], 0⟩,
    ⟨.ret .redirInOut, redir ['<', '>'], 0⟩, ⟨.ret .redirDupIn, redir ['<', '&'], 0⟩,
    ⟨.ret .redirDupOut, redir ['>', '&'], 0⟩, ⟨.ret .redirHereDoc, redir ['<', '<'], 0⟩,
    ⟨.ret .redirHereDocDash, redir ['<', '<', '-'], 0⟩,
    ⟨.ret .redirHereStr, redir ['<', '<', '<'], 0⟩]

/-- The other rules behind that of the plain part, in the order of the source. They have no text in
common with the redirections. -/
def rulesBehind : List (Rule Nat Action) :=
  [⟨.ret .tilde, text ['~'], 0⟩, ⟨.ret .metaAssign, text ['='], 0⟩,
    ⟨.ret .metaColon, text [':'], 0⟩,
    ⟨.ret .braceCharSeq, braceSeq (.alt letter digit), 0⟩,
    ⟨.ret .braceIntSeq, braceSeq signedDigits, 0⟩,
    ⟨.ret .globAny, text ['?'], 0⟩, ⟨.ret .globZeroOrMore, text ['*'], 0⟩,
    ⟨.ret .globBracketOpen, text ['['], 0⟩, ⟨.ret .globBracketClose, text [']'], 0⟩,
    ⟨.ret .braceOpen, text ['{'], 0⟩, ⟨.ret .braceClose, text ['}'], 0⟩,
    ⟨.ret .braceSep, text [','], 0⟩,
    ⟨.ret .stringLiteral, .cat unclosedString (.sym quote), 0⟩,
    ⟨.ret .stringLiteral, .cat unclosedEstring (.sym quote), 0⟩,
    ⟨.ret .openDquote, .sym dquote, 0⟩,
    ⟨.ret .appliedNameWithBracket, .cat appliedName (text ['[']), 0⟩,
    ⟨.ret .specialNameWithBracket, .cat specialName (text ['[']), 0⟩,
    ⟨.ret .appliedNameWithParen, .cat appliedName (text ['(']), 0⟩,
    ⟨.ret .invalid, text ['$'], 0⟩,
    ⟨.ret .redirOutErr, text ['&', '>'], 0⟩,
    ⟨.ret .redirOutErrClobber, text ['&', '>', '|'], 0⟩,
    ⟨.ret .redirAppendOutErr, text ['&', '>', '>'], 0⟩,
    ⟨.ret .startInSub, text ['>', '('], 0⟩, ⟨.ret .startOutSub, text ['<', '('], 0⟩,
    ⟨.newLine, .sym 10, 0⟩,
    ⟨.skip, .lit [backslash, 10], 0⟩,
    ⟨.ret .lineEnd, text [';'], 0⟩,
    ⟨.skip, .cat (text ['#']) (.star (noneOf [10, 0])), 0⟩,
    ⟨.space, .plus (oneOf [32, 9]), 0⟩,
    ⟨.ret .unclosedStringLiteral, .cat unclosedString (.sym 0), 1⟩,
    ⟨.ret .unclosedStringLiteral, .cat unclosedEstring (.sym 0), 1⟩,
    ⟨.ret .unclosedBackquoteLiteral, .cat unclosedBackquote (.sym 0), 1⟩,
    ⟨.eos, .sym 0, 0⟩]

def cmdRules : List (Rule Nat Action) := rulesBefore ++ cmdArgRule :: (redirRules ++ rulesBehind)

/-! ## Tokens -/

/-- A token, with what was skipped before it and what is left behind it. -/
structure Token where
  kind : TokenKind
  text : List Nat
  prevSpace : Bool
  prevNewLine : Bool
  rest : List Nat
  deriving DecidableEq, Repr

/-- `nextToken` in the mode `CMD`. -/
def nextToken (skipNL : Bool) : Nat → Bool → Bool → List Nat → Token
  | 0, foundSpace, foundNewLine, input => ⟨.invalid, [], foundSpace, foundNewLine, input⟩
  | fuel + 1, foundSpace, foundNewLine, input =>
    match next cmdRules input with
    | none => ⟨.invalid, input.take 1, foundSpace, foundNewLine, input.drop 1⟩
    | some (rule, size) =>
      let text := input.take (size - rule.trail)
      let rest := input.drop (size - rule.trail)
      match rule.kind with
      | .ret kind => ⟨kind, text, foundSpace, foundNewLine, rest⟩
      | .newLine =>
        if skipNL then nextToken skipNL fuel foundSpace true rest
        else ⟨.newLine, text, foundSpace, foundNewLine, rest⟩
      | .space => nextToken skipNL fuel true foundNewLine rest
      | .skip => nextToken skipNL fuel foundSpace foundNewLine rest
      | .eos =>
        -- the null character at the end of the buffer
        if rest = [] then ⟨.eos, [], foundSpace, true, input⟩
        else ⟨.invalid, text, foundSpace, foundNewLine, rest⟩

/-- The token at a position. -/
def tokenAt (skipNL : Bool) (input : List Nat) : Token :=
  nextToken skipNL (input.length + 1) false false input

end Arsh.Cmd
