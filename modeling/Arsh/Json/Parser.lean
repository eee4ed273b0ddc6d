import Arsh.Json.Lexer
import Arsh.Misc.Double
import Arsh.Misc.NumUtil
import Mathlib.Data.List.Forall2

/-!
# The JSON parser

`JSONParser` of `json.{h,cpp}`, over the tokens of the lexer, and the grammar of JSON over tokens.
What it takes for JSON is less than usual at three places: the exponent of a number has a sign, an
integer fits 64 bits, and the escapes of surrogates come in pairs.

The positions of errors in the text are left out. What `strtod` makes of a number is a parameter.
-/

namespace Arsh.Json

open Regex.Parser (byte isDigit isHex hexValue isHighSurrogate isLowSurrogate utf16ToCodePoint)
open UnicodeUtil NumUtil

inductive JSON where
  | invalid
  | null
  | bool (b : Bool)
  | long (v : Int)
  | double (d : Double)
  | string (s : Bytes)
  | array (values : List JSON)
  /-- a map, in the order of its keys -/
  | object (members : List (Bytes × JSON))

/-- `insert` of a map: an entry that is there stays. -/
def insertMember (key : Bytes) (value : JSON) : List (Bytes × JSON) → List (Bytes × JSON)
  | [] => [(key, value)]
  | m :: ms =>
    if key < m.1 then (key, value) :: m :: ms
    else if key = m.1 then m :: ms
    else m :: insertMember key value ms

/-- The map of the members of an object. -/
def toObject (members : List (Bytes × JSON)) : List (Bytes × JSON) :=
  members.foldl (fun ms m => insertMember m.1 m.2 ms) []

/-! ## Errors -/

inductive ErrorKind where
  | tokenMismatched
  | noViableAlter
  | invalidToken
  | tokenFormat
  | deepNesting
  /-- none of the parser's own: a loop of the model has had all its rounds -/
  | exhausted
  deriving DecidableEq, Repr

structure ParseError where
  errorToken : Token
  errorKind : ErrorKind
  expectedTokens : List JSONTokenKind
  message : Bytes
  deriving DecidableEq, Repr

structure Parser where
  /-- `curKind` and `curToken` -/
  cur : Token
  rest : Bytes
  deriving DecidableEq, Repr

namespace Parser

def fetchNext (p : Parser) : Parser := ⟨(nextToken p.rest).1, (nextToken p.rest).2⟩

def quoteKind (kind : JSONTokenKind) : Bytes := bytes "`" ++ kind.toString ++ bytes "'"

def alterText (alters : List JSONTokenKind) : Bytes :=
  (bytes ", ").intercalate (alters.map quoteKind)

def mismatchText (cur : Token) : Bytes :=
  if cur.kind = .eos then []
  else bytes "mismatched token " ++ quoteKind cur.kind ++ bytes ", "

def reportInvalidTokenError (p : Parser) (alters : List JSONTokenKind) : ParseError :=
  ⟨p.cur, .invalidToken, alters, bytes "invalid token, expected " ++ alterText alters⟩

def reportTokenMismatchedError (p : Parser) (expected : JSONTokenKind) : ParseError :=
  if p.cur.kind = .invalid then p.reportInvalidTokenError [expected]
  else ⟨p.cur, .tokenMismatched, [expected],
    mismatchText p.cur ++ bytes "expected " ++ quoteKind expected⟩

def reportNoViableAlterError (p : Parser) (alters : List JSONTokenKind) : ParseError :=
  if p.cur.kind = .invalid then p.reportInvalidTokenError alters
  else ⟨p.cur, .noViableAlter, alters, mismatchText p.cur ++ bytes "expected " ++ alterText alters⟩

def reportTokenFormatError (token : Token) (msg : Bytes) : ParseError :=
  ⟨token, .tokenFormat, [], msg⟩

def reportDeepNestingError (p : Parser) : ParseError :=
  ⟨p.cur, .deepNesting, [], bytes "parser recursion depth exceeded"⟩

def expect (p : Parser) (kind : JSONTokenKind) : Except ParseError Parser :=
  if p.cur.kind = kind then .ok p.fetchNext else .error (p.reportTokenMismatchedError kind)

end Parser

/-! ## Numbers and strings -/

def isFloat (s : Bytes) : Bool := byte '.' ∈ s || byte 'e' ∈ s || byte 'E' ∈ s

/-- `convertToNum10<int64_t>`. -/
def toLong (s : Bytes) : Option Int :=
  let ret := (parseSigned Width.w64.size s 0 10).1
  if ret.kind = .ok then some ret.value else none

/-- The value of a number, unless it is out of range. -/
def toNumber (toDouble : Bytes → Option Double) (s : Bytes) : Option JSON :=
  if isFloat s then (toDouble s).map JSON.double else (toLong s).map JSON.long

/-- What the escapes other than `\u` stand for. -/
def escapeCode (ch : Nat) : Option Nat :=
  if ch = byte '"' ∨ ch = byte '\\' ∨ ch = byte '/' then some ch
  else if ch = byte 'b' then some 8
  else if ch = byte 'f' then some 12
  else if ch = byte 'n' then some 10
  else if ch = byte 'r' then some 13
  else if ch = byte 't' then some 9
  else none

/-- `parseEscape` behind the backslash: the code point, and the size of what is read. -/
def parseEscape : Bytes → Option (Nat × Nat)
  | [] => none
  | ch :: rest =>
    if ch = byte 'u' then
      let code := hexValue (rest.take 4)
      if isLowSurrogate code then none
      else if isHighSurrogate code then
        if (rest.drop 4).take 2 = [byte '\\', byte 'u'] then
          (utf16ToCodePoint code (hexValue ((rest.drop 6).take 4))).map (·, 11)
        else none
      else some (code, 5)
    else (escapeCode ch).map (·, 1)

/-- The loop of `parseString`, after `skip` bytes that belong to an escape. -/
def unescape : Nat → Bytes → Option Bytes
  | _, [] => some []
  | skip + 1, _ :: rest => unescape skip rest
  | 0, ch :: rest =>
    if ch = byte '\\' then
      (parseEscape rest).bind fun code =>
        (unescape code.2 rest).map (codePointToUtf8 code.1 ++ ·)
    else (unescape 0 rest).map (ch :: ·)

/-! ## Values -/

/-- `EACH_LA_VALUE`. -/
def valueKinds : List JSONTokenKind :=
  [.nil, .true, .false, .number, .string, .arrayOpen, .objectOpen]

namespace Parser

variable (toDouble : Bytes → Option Double)

def parseNumber (p : Parser) : Except ParseError (JSON × Parser) := do
  let p' ← p.expect .number
  (toNumber toDouble p.cur.text).elim
    (.error (reportTokenFormatError p.cur (bytes "out of range"))) fun value => .ok (value, p')

def parseString (p : Parser) : Except ParseError (Bytes × Parser) := do
  let p' ← p.expect .string
  (unescape 0 (p.cur.text.drop 1).dropLast).elim
    (.error (reportTokenFormatError p.cur (bytes "illegal string format"))) fun s => .ok (s, p')

/-- The loop of `parseArray` and `parseObject`: what `item` reads, from tokens of the kinds `first`,
up to the token that closes the value. -/
def parseItems {α : Type} (close : JSONTokenKind) (first : List JSONTokenKind)
    (item : Parser → Except ParseError (α × Parser)) :
    Nat → Nat → Parser → Except ParseError (List α × Parser)
  | 0, _, p => .error ⟨p.cur, .exhausted, [], []⟩
  | fuel + 1, count, p =>
    if p.cur.kind = close then .ok ([], p.fetchNext)
    else if 0 < count ∧ p.cur.kind ≠ .comma then
      .error (p.reportNoViableAlterError [.comma, close])
    else
      let p := if 0 < count then p.fetchNext else p
      if p.cur.kind ∈ first then do
        let v ← item p
        let vs ← parseItems close first item fuel (count + 1) v.2
        .ok (v.1 :: vs.1, vs.2)
      else .error (p.reportNoViableAlterError (first ++ [close]))

/-- The number of bytes from the current token on. -/
def size (p : Parser) : Nat := p.cur.text.length + p.rest.length

def parseArray (parseValue : Parser → Except ParseError (JSON × Parser)) (p : Parser) :
    Except ParseError (JSON × Parser) := do
  let p ← p.expect .arrayOpen
  let r ← parseItems .arrayClose valueKinds parseValue (p.size + 1) 0 p
  .ok (.array r.1, r.2)

def parseMember (parseValue : Parser → Except ParseError (JSON × Parser)) (p : Parser) :
    Except ParseError ((Bytes × JSON) × Parser) := do
  let key ← p.parseString
  let p ← key.2.expect .colon
  let value ← parseValue p
  .ok ((key.1, value.1), value.2)

def parseObject (parseValue : Parser → Except ParseError (JSON × Parser)) (p : Parser) :
    Except ParseError (JSON × Parser) := do
  let p ← p.expect .objectOpen
  let r ← parseItems .objectClose [.string] (parseMember parseValue) (p.size + 1) 0 p
  .ok (.object (toObject r.1), r.2)

/-- `parseValue`, when the guard against deep nesting allows `n` further levels. -/
def parseValue : Nat → Parser → Except ParseError (JSON × Parser)
  | 0, p => .error p.reportDeepNestingError
  | n + 1, p =>
    match p.cur.kind with
    | .nil => .ok (.null, p.fetchNext)
    | .true => .ok (.bool true, p.fetchNext)
    | .false => .ok (.bool false, p.fetchNext)
    | .number => p.parseNumber toDouble
    | .string => p.parseString.map (Prod.map JSON.string id)
    | .arrayOpen => p.parseArray (parseValue n)
    | .objectOpen => p.parseObject (parseValue n)
    | _ => .error (p.reportNoViableAlterError valueKinds)

end Parser

def maxNestingDepth : Nat := 8000

/-- The buffer of the lexer, without the null at its end. -/
def buffer (s : Bytes) : Bytes := if s.getLast? = some (byte '\n') then s else s ++ [byte '\n']

/-- `JSONParser::operator()`, of a text that may not be empty. -/
def parse (toDouble : Bytes → Option Double) (s : Bytes) : Except ParseError JSON := do
  let p := Parser.fetchNext ⟨⟨.invalid, []⟩, buffer s⟩
  let value ← p.parseValue toDouble (maxNestingDepth - 1)
  let _ ← value.2.expect .eos
  .ok value.1

/-! ## The grammar -/

/-- What the text between the quotes of a string stands for. -/
inductive Unescapes : Bytes → Bytes → Prop where
  | nil : Unescapes [] []
  | unescaped {c : Nat} {s v : Bytes} (hc : c ≤ codePointMax) (hspace : 0x20 ≤ c)
    (hquote : c ≠ byte '"' ∧ c ≠ byte '\\') (h : Unescapes s v) :
    Unescapes (codePointToUtf8 c ++ s) (codePointToUtf8 c ++ v)
  | escape {ch code : Nat} {s v : Bytes} (hch : escapeCode ch = some code) (h : Unescapes s v) :
    Unescapes (byte '\\' :: ch :: s) (codePointToUtf8 code ++ v)
  | unicode {ds s v : Bytes} (hlen : ds.length = 4) (hds : ∀ ch ∈ ds, isHex ch)
    (hcode : ¬isHighSurrogate (hexValue ds) ∧ ¬isLowSurrogate (hexValue ds)) (h : Unescapes s v) :
    Unescapes (byte '\\' :: byte 'u' :: (ds ++ s)) (codePointToUtf8 (hexValue ds) ++ v)
  | surrogates {high low s v : Bytes} {code : Nat} (hlen : high.length = 4 ∧ low.length = 4)
    (hds : ∀ ch ∈ high ++ low, isHex ch)
    (hcode : utf16ToCodePoint (hexValue high) (hexValue low) = some code) (h : Unescapes s v) :
    Unescapes (byte '\\' :: byte 'u' :: (high ++ byte '\\' :: byte 'u' :: (low ++ s)))
      (codePointToUtf8 code ++ v)

def StringOf (text value : Bytes) : Prop :=
  ∃ body, text = byte '"' :: (body ++ [byte '"']) ∧ Unescapes body value

/-- The value of a number: an integer if it has no fraction and no exponent. -/
def NumberOf (toDouble : Bytes → Option Double) (text : Bytes) (v : JSON) : Prop :=
  (isFloat text ∧ ∃ d, toDouble text = some d ∧ v = .double d) ∨
    (¬isFloat text ∧ ∃ z, SignedNumeral 10 text z ∧ Fits Width.w64.size z ∧ v = .long z)

/-- The token of a kind that has only one text. -/
def fixedToken (kind : JSONTokenKind) : Token := ⟨kind, kind.toString⟩

def Scalar (toDouble : Bytes → Option Double) (tok : Token) (v : JSON) : Prop :=
  (tok = fixedToken .nil ∧ v = .null) ∨ (tok = fixedToken .true ∧ v = .bool true) ∨
    (tok = fixedToken .false ∧ v = .bool false) ∨
    (tok.kind = .number ∧ NumberOf toDouble tok.text v) ∨
    (tok.kind = .string ∧ ∃ s, StringOf tok.text s ∧ v = .string s)

def commaSeparated : List (List Token) → List Token
  | [] => []
  | part :: parts => part ++ parts.flatMap (fixedToken .comma :: ·)

/-- The tokens of a list, which is put in the two tokens. -/
def enclosed (first last : JSONTokenKind) (parts : List (List Token)) : List Token :=
  fixedToken first :: (commaSeparated parts ++ [fixedToken last])

/-- The tokens of a member, whose value has tokens as `Value` says. -/
def Member (Value : List Token → JSON → Prop) (ts : List Token) (m : Bytes × JSON) : Prop :=
  ∃ key ts', ts = key :: fixedToken .colon :: ts' ∧ key.kind = .string ∧ StringOf key.text m.1 ∧
    Value ts' m.2

/-- The tokens of a value that has at most `n` levels. -/
def Value (toDouble : Bytes → Option Double) : Nat → List Token → JSON → Prop
  | 0, _, _ => False
  | n + 1, ts, v =>
    (∃ tok, ts = [tok] ∧ Scalar toDouble tok v) ∨
      (∃ parts vs, ts = enclosed .arrayOpen .arrayClose parts ∧
        List.Forall₂ (Value toDouble n) parts vs ∧ v = .array vs) ∨
      (∃ parts ms, ts = enclosed .objectOpen .objectClose parts ∧
        List.Forall₂ (Member (Value toDouble n)) parts ms ∧ v = .object (toObject ms))

section
variable {s t v w : Bytes} {ts ts' : List Token} {tok : Token} {p p' p'' : Parser} {n : Nat}
  {toDouble : Bytes → Option Double}

/-! ## Numbers and strings -/

theorem toLong_iff {z : Int} :
    toLong s = some z ↔ SignedNumeral 10 s z ∧ Fits Width.w64.size z := by
  obtain ⟨hnum, hex⟩ := @parseSigned_spec 10 Width.w64.size s (.inr (by decide))
    (by decide) (by decide) 0
  unfold toLong
  dsimp only
  constructor
  · intro h
    split at h
    · next hok =>
      obtain ⟨z', hz'⟩ := hex hok
      obtain ⟨hfits, hnot⟩ := hnum z' hz'
      have hf : Fits Width.w64.size z' := by
        by_contra hf
        exact absurd (hok.symm.trans (hnot hf)) (by decide)
      have hvalue := (hfits hf).2
      rw [Option.some.injEq] at h
      rw [← h, hvalue]
      exact ⟨hz', hf⟩
    · cases h
  · rintro ⟨hz, hf⟩
    obtain ⟨hok, hvalue⟩ := (hnum z hz).1 hf
    rw [if_pos hok, hvalue]

theorem toNumber_iff {v : JSON} : toNumber toDouble s = some v ↔ NumberOf toDouble s v := by
  unfold toNumber NumberOf
  split
  · next hfloat =>
    simp only [hfloat, true_and, not_true_eq_false, false_and, or_false, Option.map_eq_some_iff,
      eq_comm (a := v)]
  · next hfloat =>
    simp only [hfloat, Bool.false_eq_true, false_and, false_or, not_false_eq_true, true_and,
      Option.map_eq_some_iff, toLong_iff, and_assoc, eq_comm (a := v)]

theorem unescape_skip (t s : Bytes) : unescape t.length (t ++ s) = unescape 0 s := by
  induction t with
  | nil => rfl
  | cons ch t ih =>
    rw [List.length_cons, List.cons_append, unescape]
    exact ih

/-- Bytes other than the backslash stand for themselves. -/
theorem unescape_plain (ht : ∀ ch ∈ t, ch ≠ byte '\\') (s : Bytes) :
    unescape 0 (t ++ s) = (unescape 0 s).map (t ++ ·) := by
  induction t with
  | nil => exact Option.map_id'.symm
  | cons ch t ih =>
    rw [List.forall_mem_cons] at ht
    rw [List.cons_append, unescape, if_neg ht.1, ih ht.2, Option.map_map]
    rfl

/-- An escape stands for a code point. -/
theorem unescape_escape {code : Nat} (s : Bytes)
    (ht : parseEscape (t ++ s) = some (code, t.length)) :
    unescape 0 (byte '\\' :: (t ++ s)) = (unescape 0 s).map (codePointToUtf8 code ++ ·) := by
  rw [unescape, if_pos rfl, ht, Option.bind_some, unescape_skip]

theorem codePointToUtf8_ne {c b : Nat} (hc : c ≤ codePointMax) (hb : b < 128) (hne : c ≠ b) :
    ∀ ch ∈ codePointToUtf8 c, ch ≠ b := by
  obtain ⟨b', bs, heq, hb', hbs⟩ := codePointToUtf8_first hc
  rw [heq, List.forall_mem_cons]
  refine ⟨by omega, fun ch hch => ?_⟩
  have := hbs ch hch
  omega

theorem utf16ToCodePoint_eq_some {high low code : Nat} (h : utf16ToCodePoint high low = some code) :
    isHighSurrogate high ∧ ¬isLowSurrogate high ∧ isLowSurrogate low := by
  unfold utf16ToCodePoint at h
  split at h
  · next hcond =>
    rw [Bool.and_eq_true] at hcond
    refine ⟨hcond.1, ?_, hcond.2⟩
    have hhigh := hcond.1
    simp only [isHighSurrogate, isLowSurrogate, Bool.and_eq_true, decide_eq_true_eq] at hhigh ⊢
    omega
  · cases h

theorem parseEscape_simple {ch code : Nat} (h : escapeCode ch = some code) (s : Bytes) :
    parseEscape (ch :: s) = some (code, 1) := by
  have hne : ch ≠ byte 'u' := by
    rintro rfl
    cases h
  rw [parseEscape, if_neg hne, h]
  rfl

theorem parseEscape_unicode {ds : Bytes} (hlen : ds.length = 4)
    (hcode : ¬isHighSurrogate (hexValue ds) ∧ ¬isLowSurrogate (hexValue ds)) (s : Bytes) :
    parseEscape (byte 'u' :: (ds ++ s)) = some (hexValue ds, 5) := by
  rw [parseEscape, if_pos rfl, List.take_left' hlen]
  dsimp only
  rw [if_neg hcode.2, if_neg hcode.1]

theorem parseEscape_surrogates {high low : Bytes} {code : Nat} (hhigh : high.length = 4)
    (hlow : low.length = 4) (hcode : utf16ToCodePoint (hexValue high) (hexValue low) = some code)
    (s : Bytes) :
    parseEscape (byte 'u' :: (high ++ byte '\\' :: byte 'u' :: (low ++ s))) = some (code, 11) := by
  obtain ⟨hhigh', hnot, -⟩ := utf16ToCodePoint_eq_some hcode
  have hsix : (high ++ byte '\\' :: byte 'u' :: (low ++ s)).drop 6 = low ++ s := by
    rw [show 6 = 4 + 2 from rfl, ← List.drop_drop, List.drop_left' hhigh]
    rfl
  rw [parseEscape, if_pos rfl, List.take_left' hhigh, List.drop_left' hhigh, hsix,
    List.take_left' hlow]
  dsimp only
  rw [if_neg hnot, if_pos hhigh', hcode]
  rfl

theorem parseEscape_cases {ds : Bytes} {code size : Nat} (hlen : ds.length = 4)
    (h : parseEscape (byte 'u' :: (ds ++ s)) = some (code, size)) :
    (¬isHighSurrogate (hexValue ds) ∧ ¬isLowSurrogate (hexValue ds) ∧ code = hexValue ds ∧
      size = 5) ∨
    ∃ s', s = byte '\\' :: byte 'u' :: s' ∧ size = 11 ∧
      utf16ToCodePoint (hexValue ds) (hexValue (s'.take 4)) = some code := by
  have hsix : (ds ++ s).drop 6 = s.drop 2 := by
    rw [show 6 = 4 + 2 from rfl, ← List.drop_drop, List.drop_left' hlen]
  rw [parseEscape, if_pos rfl, List.take_left' hlen, List.drop_left' hlen, hsix] at h
  dsimp only at h
  split at h
  · cases h
  · next hlow =>
    split at h
    · split at h
      · next htwo =>
        obtain ⟨code', hcode, heq⟩ := Option.map_eq_some_iff.1 h
        cases heq
        rcases s with _ | ⟨ch, _ | ⟨ch', s'⟩⟩
        · cases htwo
        · cases htwo
        · cases htwo
          exact .inr ⟨s', rfl, rfl, hcode⟩
      · cases h
    · next hhigh =>
      cases h
      exact .inl ⟨hhigh, hlow, rfl, rfl⟩

theorem unescape_of_unescapes (h : Unescapes s v) : unescape 0 s = some v := by
  induction h with
  | nil => rfl
  | unescaped hc _ hquote _ ih =>
    rw [unescape_plain (codePointToUtf8_ne hc (by decide) hquote.2), ih]
    rfl
  | @escape ch _ s _ hch _ ih =>
    have hescape := unescape_escape (t := [ch]) s (parseEscape_simple hch s)
    rw [ih] at hescape
    exact hescape
  | @unicode ds s _ hlen _ hcode _ ih =>
    have hescape := unescape_escape (t := byte 'u' :: ds) s (by
      rw [List.length_cons, hlen]
      exact parseEscape_unicode hlen hcode s)
    rw [ih] at hescape
    exact hescape
  | @surrogates high low s _ _ hlen _ hcode _ ih =>
    have hescape := unescape_escape (t := byte 'u' :: (high ++ byte '\\' :: byte 'u' :: low)) s (by
      rw [List.length_cons, List.length_append, List.length_cons, List.length_cons, hlen.1, hlen.2,
        List.cons_append, List.append_assoc]
      exact parseEscape_surrogates hlen.1 hlen.2 hcode s)
    rw [ih, List.cons_append, List.append_assoc] at hescape
    exact hescape

/-- A character that begins with a backslash and a `u`. -/
theorem CharsText.unicode (h : CharsText (byte '\\' :: byte 'u' :: s)) :
    ∃ ds s', ds.length = 4 ∧ (∀ ch ∈ ds, isHex ch) ∧ s = ds ++ s' ∧ CharsText s' := by
  generalize heq : byte '\\' :: byte 'u' :: s = s' at h
  cases h with
  | nil => cases heq
  | @cons t s' ht hs =>
    cases ht with
    | @unescaped c hc _ hquote =>
      obtain ⟨b, bs, hbs, -⟩ := codePointToUtf8_first hc
      have hne := codePointToUtf8_ne hc (b := byte '\\') (by decide) hquote.2
      rw [hbs] at heq hne
      exact absurd (List.cons.inj heq).1.symm (hne _ List.mem_cons_self)
    | escape hch =>
      cases heq
      exact absurd hch (by decide)
    | @unicode a b c d hhex =>
      cases heq
      exact ⟨[a, b, c, d], s', rfl, hhex, rfl, hs⟩

theorem unescapes_of_unescape (hn : s.length ≤ n) (hs : CharsText s) (h : unescape 0 s = some v) :
    Unescapes s v := by
  induction n generalizing s v with
  | zero =>
    obtain rfl := List.eq_nil_of_length_eq_zero (Nat.le_zero.1 hn)
    cases h
    exact .nil
  | succ n ih =>
    cases hs with
    | nil =>
      cases h
      exact .nil
    | @cons t s ht hs =>
      rw [List.length_append] at hn
      cases ht with
      | unescaped hc hspace hquote =>
        have hpos := codePointToUtf8_length_pos hc
        rw [unescape_plain (codePointToUtf8_ne hc (by decide) hquote.2)] at h
        obtain ⟨v, hv, rfl⟩ := Option.map_eq_some_iff.1 h
        exact .unescaped hc hspace hquote (ih (by omega) hs hv)
      | @escape ch hch =>
        have hs' : s.length ≤ n := by
          simp only [List.length_cons] at hn
          omega
        change unescape 0 (byte '\\' :: ([ch] ++ s)) = _ at h
        rw [unescape, if_pos rfl] at h
        obtain ⟨⟨code, size⟩, hescape, hrest⟩ := Option.bind_eq_some_iff.1 h
        have hne : ch ≠ byte 'u' := fun heq => absurd (heq ▸ hch) (by decide)
        rw [List.singleton_append, parseEscape, if_neg hne] at hescape
        obtain ⟨code', hcode, heq⟩ := Option.map_eq_some_iff.1 hescape
        cases heq
        obtain ⟨v, hv, rfl⟩ := Option.map_eq_some_iff.1 hrest
        exact .escape hcode (ih hs' hs hv)
      | @unicode a b c d hhex =>
        have hlen : [a, b, c, d].length = 4 := rfl
        have hs' : s.length ≤ n := by
          simp only [List.length_cons] at hn
          omega
        change unescape 0 (byte '\\' :: byte 'u' :: ([a, b, c, d] ++ s)) = _ at h
        show Unescapes (byte '\\' :: byte 'u' :: ([a, b, c, d] ++ s)) _
        clear hn
        generalize [a, b, c, d] = ds at *
        rw [unescape, if_pos rfl] at h
        obtain ⟨⟨code, size⟩, hescape, hrest⟩ := Option.bind_eq_some_iff.1 h
        obtain ⟨v, hv, rfl⟩ := Option.map_eq_some_iff.1 hrest
        rcases parseEscape_cases hlen hescape with ⟨hhigh, hlow, rfl, rfl⟩ | ⟨s', rfl, rfl, hcode⟩
        · rw [show 5 = (byte 'u' :: ds).length by rw [List.length_cons, hlen], ← List.cons_append,
            unescape_skip] at hv
          exact .unicode hlen hhex ⟨hhigh, hlow⟩ (ih hs' hs hv)
        · obtain ⟨low, s, hlow, hall, rfl, hchars⟩ := hs.unicode
          rw [List.take_left' hlow] at hcode
          have hskip : (byte 'u' :: (ds ++ byte '\\' :: byte 'u' :: low)).length = 11 := by
            rw [List.length_cons, List.length_append, List.length_cons, List.length_cons, hlen,
              hlow]
          have hv' : unescape 0 s = some v := by
            rw [← unescape_skip (byte 'u' :: (ds ++ byte '\\' :: byte 'u' :: low)), hskip,
              List.cons_append, List.append_assoc]
            exact hv
          refine .surrogates ⟨hlen, hlow⟩ (List.forall_mem_append.2 ⟨hhex, hall⟩) hcode ?_
          refine ih ?_ hchars hv'
          simp only [List.length_cons, List.length_append] at hs'
          omega

theorem unescape_iff (hs : CharsText s) : unescape 0 s = some v ↔ Unescapes s v :=
  ⟨unescapes_of_unescape (Nat.le_refl _) hs, unescape_of_unescapes⟩

end

end Arsh.Json
