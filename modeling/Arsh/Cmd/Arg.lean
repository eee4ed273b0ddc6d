import Arsh.Cmd.Tokens
import Arsh.Regex.Escapes

/-!
# Command arguments

`Parser::parse_cmdArg`: the segments of an argument are read as long as no blank is between them and
the next token can be one. What a plain or quoted segment stands for is decided by
`unquoteCmdArgLiteral` and `Lexer::singleToString`, which work on bytes. Segments that other parts of
the parser read (strings in double quotes, expansions and substitutions) are not here.
-/

namespace Arsh.Cmd

open UnicodeUtil
open Regex.Parser (byte isDigit isOctal isLetter isHex hexToNum)

abbrev Bytes := List Nat

/-! ## What segments stand for -/

def unquoteCmdArgLiteral (unescape : Bool) : Bytes → Bytes
  | [] => []
  | ch :: ref =>
    if ch = backslash then
      match ref with
      | [] => []
      | next :: ref =>
        if next = 10 then unquoteCmdArgLiteral unescape ref
        else if unescape then next :: unquoteCmdArgLiteral unescape ref
        else backslash :: next :: unquoteCmdArgLiteral unescape ref
    else ch :: unquoteCmdArgLiteral unescape ref

theorem unquoteCmdArgLiteral_char {unescape : Bool} {ch : Nat} {ref : Bytes}
    (h : ch ≠ backslash) :
    unquoteCmdArgLiteral unescape (ch :: ref) = ch :: unquoteCmdArgLiteral unescape ref := by
  rw [unquoteCmdArgLiteral.eq_def]
  exact if_neg h

theorem unquoteCmdArgLiteral_escaped {next : Nat} {ref : Bytes} (h : next ≠ 10) :
    unquoteCmdArgLiteral true (backslash :: next :: ref) =
      next :: unquoteCmdArgLiteral true ref := by
  rw [unquoteCmdArgLiteral.eq_def]
  exact if_neg h

/-- `EscapeSeqResult`, with the bytes that are consumed for a result. -/
inductive EscapeSeqResult where
  | code (codePoint consumedSize : Nat)
  | byte (b consumedSize : Nat)
  | unknown
  | needHex
  | needAlpha
  | range
  | none
  deriving DecidableEq, Repr

/-- The digits of a number, at most `limit` of them: its value after `code` and their count. -/
def digitsOf (isDigit : Nat → Bool) (toNum : Nat → Nat) (base : Nat) :
    Nat → Nat → Nat → Bytes → Nat × Nat
  | limit + 1, code, count, ch :: rest =>
    if isDigit ch then digitsOf isDigit toNum base limit (code * base + toNum ch) (count + 1) rest
    else (code, count)
  | _, code, count, _ => (code, count)

/-- The characters that stand for a control character behind a backslash. -/
def controlEscape (next : Nat) : Option Nat :=
  if next = backslash then some backslash
  else if next = byte 'a' then some 7
  else if next = byte 'b' then some 8
  else if next = byte 'e' || next = byte 'E' then some 27
  else if next = byte 'f' then some 12
  else if next = byte 'n' then some 10
  else if next = byte 'r' then some 13
  else if next = byte 't' then some 9
  else if next = byte 'v' then some 11
  else none

/-- `parseEscapeSeq`, with the flags `CONTROL_CHAR` and `NEED_OCTAL_PREFIX`. -/
def parseEscapeSeq (controlChar needOctalPrefix : Bool) (ref : Bytes) : EscapeSeqResult :=
  match ref with
  | ch :: next :: rest =>
    if ch ≠ backslash then .none
    else
      match controlEscape next with
      | some code => .code code 2
      | none =>
        if next = byte 'c' then
          if controlChar then
            match rest with
            | ch :: _ => if isLetter ch then .byte (ch % 32) 3 else .needAlpha
            | [] => .needAlpha
          else .unknown
        else if next = byte 'x' || next = byte 'u' || next = byte 'U' then
          let limit := if next = byte 'x' then 2 else if next = byte 'u' then 4 else 8
          let (code, count) := digitsOf isHex hexToNum 16 limit 0 0 rest
          if count = 0 then .needHex
          else if limit = 2 then .byte code (2 + count)
          else if code ≤ 0x10FFFF then .code code (2 + count)
          else .range
        else if !isOctal next || (needOctalPrefix && next ≠ byte '0') then .unknown
        else
          let limit := if needOctalPrefix then 3 else 2
          let (code, count) := digitsOf isOctal (· - byte '0') 8 limit (next - byte '0') 0 rest
          .code (code % 256) (2 + count)
  | _ => .none

/-- `isValidCodePoint`: no surrogate. -/
def isValidCodePoint (c : Nat) : Bool := c ≤ 0x10FFFF && !(0xD800 ≤ c && c ≤ 0xDFFF)

theorem isValidCodePoint_iff {c : Nat} :
    isValidCodePoint c = true ↔ c ≤ codePointMax ∧ (c < 0xD800 ∨ 0xDFFF < c) := by
  simp only [isValidCodePoint, codePointMax, Bool.and_eq_true, Bool.not_eq_true',
    Bool.and_eq_false_iff, decide_eq_true_eq, decide_eq_false_iff_not]
  omega

/-- The loop of `singleToString` for a text in `$'...'`. -/
def unescapeLoop : Nat → Bytes → Option Bytes
  | 0, _ => none
  | _ + 1, [] => some []
  | fuel + 1, ch :: ref =>
    if ch = backslash then
      match parseEscapeSeq true false (ch :: ref) with
      | .code codePoint size =>
        if isValidCodePoint codePoint then
          (unescapeLoop fuel (ref.drop (size - 1))).map (codePointToUtf8 codePoint ++ ·)
        else none
      | .byte b size => (unescapeLoop fuel (ref.drop (size - 1))).map (b :: ·)
      | .unknown =>
        if ref.head? = some quote then (unescapeLoop fuel (ref.drop 1)).map (quote :: ·) else none
      | _ => none
    else (unescapeLoop fuel ref).map (ch :: ·)

/-- The text between the first `n` bytes and the last one. -/
def inner (n : Nat) (ref : Bytes) : Bytes := (ref.drop n).dropLast

/-- `singleToString`, `none` for an error. -/
def singleToString (ref : Bytes) : Option Bytes :=
  if ref.head? = some (byte '$') then
    let ref := if 3 ≤ ref.length then inner 2 ref else ref
    unescapeLoop (ref.length + 1) ref
  else some (if 2 ≤ ref.length then inner 1 ref else ref)

/-! ## Segments -/

/-- `EACH_LA_cmdArg_LP`. -/
def lookaheadCmdArgLP : TokenKind → Bool
  | .cmdArgPart | .metaAssign | .metaColon | .tilde | .braceCharSeq | .braceIntSeq | .globAny
  | .globZeroOrMore | .globBracketOpen | .globBracketClose | .braceOpen | .braceClose | .braceSep
  | .stringLiteral | .openDquote | .startSubCmd | .startInSub | .startOutSub | .backquoteLiteral
  | .appliedName | .specialName | .appliedNameWithField | .startInterp | .appliedNameWithBracket
  | .specialNameWithBracket | .appliedNameWithParen | .lp => true
  | _ => false

/-- A segment: a literal, or a text that may be expanded. -/
inductive Segment where
  | literal (value : Bytes)
  | wildCard (kind : TokenKind) (text : Bytes)
  | braceSeq (kind : TokenKind) (range : Bytes)
  deriving DecidableEq, Repr

/-- What a segment stands for if nothing is expanded. -/
def Segment.value : Segment → Bytes
  | .literal value => value
  | .wildCard _ text => text
  | .braceSeq _ range => byte '{' :: range ++ [byte '}']

def hasBracketExpr (segs : List Segment) : Bool :=
  segs.any fun
    | .wildCard .globBracketOpen _ => true
    | _ => false

/-- `parse_cmdArgSeg`, behind the segments of the argument so far. -/
def parseCmdArgSeg (segs : List Segment) (token : Token) : Option Segment :=
  let text := encode token.text
  match token.kind with
  | .cmdArgPart => some (.literal (unquoteCmdArgLiteral (!hasBracketExpr segs) text))
  | .stringLiteral => (singleToString text).map .literal
  | .braceCharSeq => some (.braceSeq .braceCharSeq (inner 1 text))
  | .braceIntSeq => some (.braceSeq .braceIntSeq (inner 1 text))
  | .tilde | .metaAssign | .metaColon | .globAny | .globZeroOrMore | .globBracketOpen
  | .globBracketClose | .braceOpen | .braceClose | .braceSep =>
    some (.wildCard token.kind text)
  | _ => none

/-- The loop of `parse_cmdArg` behind the segments `segs`: the segments of the argument, and the token
that does not belong to it. -/
def parseCmdArgLoop (skipNL : Bool) : Nat → List Segment → Token → Option (List Segment × Token)
  | 0, _, _ => none
  | fuel + 1, segs, token =>
    if !token.prevSpace && !token.prevNewLine && lookaheadCmdArgLP token.kind then
      match parseCmdArgSeg segs token with
      | none => none
      | some seg => parseCmdArgLoop skipNL fuel (segs ++ [seg]) (tokenAt skipNL token.rest)
    else some (segs, token)

/-- `parse_cmdArg` at the current token. -/
def parseCmdArg (skipNL : Bool) (token : Token) : Option (List Segment × Token) :=
  match parseCmdArgSeg [] token with
  | none => none
  | some seg => parseCmdArgLoop skipNL (token.rest.length + 2) [seg] (tokenAt skipNL token.rest)

end Arsh.Cmd
