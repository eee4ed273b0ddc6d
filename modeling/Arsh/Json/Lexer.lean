import Arsh.Misc.Unicode
import Arsh.Regex.Escapes
import Mathlib.Data.List.Chain
import Mathlib.Data.List.TakeWhile

/-!
# Tokens of JSON texts

The lexer of `json/lexer.re2c.cpp`. A text is the list of the bytes before the null that ends the
buffer. Each rule of the lexer is a regular expression, and the longest match is taken; here every
rule has a function that finds its longest match. A text that is spelled by tokens in which no two
numbers meet is read as these tokens (`nextToken_spells`).
-/

namespace Arsh.Json

open Regex.Parser (byte isDigit isHex)
open UnicodeUtil

abbrev Bytes := List Nat

def bytes (s : String) : Bytes := s.toList.map Char.toNat

inductive JSONTokenKind where
  | invalid
  | eos
  | number
  | true
  | false
  | nil
  | string
  | arrayOpen
  | arrayClose
  | objectOpen
  | objectClose
  | colon
  | comma
  deriving DecidableEq, Repr

def JSONTokenKind.toString : JSONTokenKind → Bytes
  | invalid => bytes "<invalid>"
  | eos => bytes "<EOS>"
  | number => bytes "<Number>"
  | true => bytes "true"
  | false => bytes "false"
  | nil => bytes "null"
  | string => bytes "<String>"
  | arrayOpen => bytes "["
  | arrayClose => bytes "]"
  | objectOpen => bytes "\x7b"
  | objectClose => bytes "\x7d"
  | colon => bytes ":"
  | comma => bytes ","

/-- The kinds of tokens that have only one text. -/
def JSONTokenKind.fixed : List JSONTokenKind :=
  [true, false, nil, arrayOpen, arrayClose, objectOpen, objectClose, comma, colon]

structure Token where
  kind : JSONTokenKind
  text : Bytes
  deriving DecidableEq, Repr

/-! ## Numbers -/

/-- `INT`. -/
def IntText (s : Bytes) : Prop :=
  s = [byte '0'] ∨
    ∃ d ds, s = d :: ds ∧ isDigit d ∧ d ≠ byte '0' ∧ ∀ ch ∈ ds, isDigit ch

/-- `FRAC`. -/
def FracText (s : Bytes) : Prop :=
  ∃ ds, s = byte '.' :: ds ∧ ds ≠ [] ∧ ∀ ch ∈ ds, isDigit ch

/-- `EXP`; the sign may not be missing. -/
def ExpText (s : Bytes) : Prop :=
  ∃ e sign ds, s = e :: sign :: ds ∧ (e = byte 'e' ∨ e = byte 'E') ∧
    (sign = byte '+' ∨ sign = byte '-') ∧ ds ≠ [] ∧ ∀ ch ∈ ds, isDigit ch

/-- `"-"? INT FRAC? EXP?`. -/
def NumberText (s : Bytes) : Prop :=
  ∃ sign int frac exp, s = sign ++ (int ++ (frac ++ exp)) ∧ (sign = [] ∨ sign = [byte '-']) ∧
    IntText int ∧ (frac = [] ∨ FracText frac) ∧ (exp = [] ∨ ExpText exp)

def scanSign : Bytes → Bytes × Bytes
  | [] => ([], [])
  | ch :: rest => if ch = byte '-' then ([ch], rest) else ([], ch :: rest)

def scanInt : Bytes → Option (Bytes × Bytes)
  | [] => none
  | ch :: rest =>
    if ch = byte '0' then some ([ch], rest)
    else if isDigit ch then some (ch :: rest.takeWhile isDigit, rest.dropWhile isDigit)
    else none

def scanFrac : Bytes → Bytes × Bytes
  | [] => ([], [])
  | ch :: rest =>
    if ch = byte '.' ∧ rest.takeWhile isDigit ≠ [] then
      (ch :: rest.takeWhile isDigit, rest.dropWhile isDigit)
    else ([], ch :: rest)

def scanExp : Bytes → Bytes × Bytes
  | e :: sign :: rest =>
    if (e = byte 'e' ∨ e = byte 'E') ∧ (sign = byte '+' ∨ sign = byte '-') ∧
        rest.takeWhile isDigit ≠ [] then
      (e :: sign :: rest.takeWhile isDigit, rest.dropWhile isDigit)
    else ([], e :: sign :: rest)
  | s => ([], s)

def scanNumber (s : Bytes) : Option (Bytes × Bytes) :=
  (scanInt (scanSign s).2).map fun int =>
    let frac := scanFrac int.2
    let exp := scanExp frac.2
    ((scanSign s).1 ++ (int.1 ++ (frac.1 ++ exp.1)), exp.2)

/-! ## Strings -/

/-- The characters that a backslash may precede, apart from `u`. -/
def simpleEscapes : Bytes := bytes "\"\\/bfnrt"

/-- `CHAR`. -/
inductive CharText : Bytes → Prop where
  | unescaped {c : Nat} (hc : c ≤ codePointMax) (hspace : 0x20 ≤ c)
    (hquote : c ≠ byte '"' ∧ c ≠ byte '\\') : CharText (codePointToUtf8 c)
  | escape {ch : Nat} (hch : ch ∈ simpleEscapes) : CharText [byte '\\', ch]
  | unicode {a b c d : Nat} (h : ∀ ch ∈ [a, b, c, d], isHex ch) :
    CharText [byte '\\', byte 'u', a, b, c, d]

/-- `CHAR*`. -/
inductive CharsText : Bytes → Prop where
  | nil : CharsText []
  | cons {t s : Bytes} (ht : CharText t) (hs : CharsText s) : CharsText (t ++ s)

/-- `["] CHAR* ["]`. -/
def StringText (s : Bytes) : Prop :=
  ∃ body, s = byte '"' :: (body ++ [byte '"']) ∧ CharsText body

/-- The size of an escape, of which the backslash is behind. -/
def escapeSize : Bytes → Nat
  | [] => 0
  | ch :: rest =>
    if ch ∈ simpleEscapes then 2
    else if ch = byte 'u' ∧ 4 ≤ rest.length ∧ (rest.take 4).all isHex then 6
    else 0

/-- The size of the `CHAR` that a text begins with, `0` if there is none. -/
def charSize : Bytes → Nat
  | [] => 0
  | ch :: rest =>
    if ch = byte '\\' then escapeSize rest
    else if ch < 0x20 ∨ ch = byte '"' then 0
    else wtf8ValidateChar (ch :: rest)

/-- The text before the quote that ends a string, after `skip` bytes that belong to a character. -/
def scanChars : Nat → Bytes → Option (Bytes × Bytes)
  | _, [] => none
  | skip + 1, ch :: rest => (scanChars skip rest).map (Prod.map (ch :: ·) id)
  | 0, ch :: rest =>
    if ch = byte '"' then some ([], rest)
    else if charSize (ch :: rest) = 0 then none
    else (scanChars (charSize (ch :: rest) - 1) rest).map (Prod.map (ch :: ·) id)

def scanString : Bytes → Option (Bytes × Bytes)
  | [] => none
  | ch :: rest =>
    if ch = byte '"' then
      (scanChars 0 rest).map fun r => (byte '"' :: (r.1 ++ [byte '"']), r.2)
    else none

/-! ## Tokens -/

def isSpace (ch : Nat) : Bool := ch ∈ [byte ' ', byte '\t', byte '\r', byte '\n']

/-- The token that a text begins with. -/
def matchToken (s : Bytes) : Option (Token × Bytes) :=
  ((JSONTokenKind.fixed.find? (·.toString.isPrefixOf s)).map fun kind =>
    (⟨kind, kind.toString⟩, s.drop kind.toString.length)).or
  (((scanNumber s).map fun r => (⟨.number, r.1⟩, r.2)).or
  ((scanString s).map fun r => (⟨.string, r.1⟩, r.2)))

/-- `JSONLexer::nextToken`: the next token, and what follows it. -/
def nextToken (s : Bytes) : Token × Bytes :=
  match s.dropWhile isSpace with
  | [] => (⟨.eos, []⟩, [])
  | ch :: rest => (matchToken (ch :: rest)).getD (⟨.invalid, [ch]⟩, rest)

/-- What a token of a JSON text looks like. -/
def Lexeme (t : Token) : Prop :=
  (t.kind ∈ JSONTokenKind.fixed ∧ t.text = t.kind.toString) ∨
    (t.kind = .number ∧ NumberText t.text) ∨ (t.kind = .string ∧ StringText t.text)

def Spaces (s : Bytes) : Prop := ∀ ch ∈ s, isSpace ch

/-- The text is made of the tokens, with spaces between them. -/
inductive Spells : List Token → Bytes → Prop where
  | nil {w : Bytes} (hw : Spaces w) : Spells [] w
  | cons {t : Token} {ts : List Token} {w s : Bytes} (hw : Spaces w) (ht : Lexeme t)
    (hs : Spells ts s) : Spells (t :: ts) (w ++ (t.text ++ s))

section
variable {s t r w : Bytes} {ts ts' : List Token} {tok : Token} {skip : Nat}

/-! ## Scanning numbers -/

theorem takeWhile_append_of_head {p : Nat → Bool} {ds : Bytes} (hds : ∀ ch ∈ ds, p ch)
    (hr : ∀ ch ∈ r.head?, ¬p ch) :
    (ds ++ r).takeWhile p = ds ∧ (ds ++ r).dropWhile p = r := by
  rw [List.takeWhile_append_of_pos hds, List.dropWhile_append_of_pos hds]
  cases r with
  | nil => exact ⟨List.append_nil ds, rfl⟩
  | cons ch r =>
    have hch : ¬p ch := hr ch rfl
    rw [List.takeWhile_cons_of_neg hch, List.dropWhile_cons_of_neg hch]
    exact ⟨List.append_nil ds, rfl⟩

theorem scanInt_append (ht : IntText t) (hr : ∀ ch ∈ r.head?, ¬isDigit ch) :
    scanInt (t ++ r) = some (t, r) := by
  rcases ht with rfl | ⟨d, ds, rfl, hd, hzero, hds⟩
  · rfl
  · obtain ⟨htake, hdrop⟩ := takeWhile_append_of_head hds hr
    rw [List.cons_append, scanInt, if_neg hzero, if_pos hd, htake, hdrop]

theorem scanFrac_append (ht : FracText t) (hr : ∀ ch ∈ r.head?, ¬isDigit ch) :
    scanFrac (t ++ r) = (t, r) := by
  obtain ⟨ds, rfl, hne, hds⟩ := ht
  obtain ⟨htake, hdrop⟩ := takeWhile_append_of_head hds hr
  rw [List.cons_append, scanFrac, htake, hdrop, if_pos ⟨rfl, hne⟩]

theorem scanExp_append (ht : ExpText t) (hr : ∀ ch ∈ r.head?, ¬isDigit ch) :
    scanExp (t ++ r) = (t, r) := by
  obtain ⟨e, sign, ds, rfl, he, hsign, hne, hds⟩ := ht
  obtain ⟨htake, hdrop⟩ := takeWhile_append_of_head hds hr
  rw [List.cons_append, List.cons_append, scanExp, htake, hdrop, if_pos ⟨he, hsign, hne⟩]

theorem scanFrac_of_head (hr : r.head? ≠ some (byte '.')) : scanFrac r = ([], r) := by
  cases r with
  | nil => rfl
  | cons ch r =>
    rw [scanFrac, if_neg]
    rintro ⟨rfl, -⟩
    exact hr rfl

theorem scanExp_of_head (hr : ∀ ch ∈ r.head?, ch ≠ byte 'e' ∧ ch ≠ byte 'E') :
    scanExp r = ([], r) := by
  rcases r with _ | ⟨ch, _ | ⟨sign, r⟩⟩
  · rfl
  · rfl
  · have hch : ch ≠ byte 'e' ∧ ch ≠ byte 'E' := hr ch rfl
    rw [scanExp, if_neg]
    rintro ⟨he, -⟩
    exact he.elim hch.1 hch.2

/-- Nothing that a number could go on with. -/
def EndsNumber (r : Bytes) : Prop :=
  ∀ ch ∈ r.head?, ¬isDigit ch ∧ ch ≠ byte '.' ∧ ch ≠ byte 'e' ∧ ch ≠ byte 'E'

theorem scanNumber_append (ht : NumberText t) (hr : EndsNumber r) :
    scanNumber (t ++ r) = some (t, r) := by
  obtain ⟨sign, int, frac, exp, rfl, hsign, hint, hfrac, hexp⟩ := ht
  have hexp' : scanExp (exp ++ r) = (exp, r) := by
    rcases hexp with rfl | hexp
    · exact scanExp_of_head fun ch hch => (hr ch hch).2.2
    · exact scanExp_append hexp fun ch hch => (hr ch hch).1
  have hexphead : ∀ ch ∈ (exp ++ r).head?, ¬isDigit ch ∧ ch ≠ byte '.' := by
    rcases hexp with rfl | ⟨e, _, _, rfl, rfl | rfl, -⟩
    · exact fun ch hch => ⟨(hr ch hch).1, (hr ch hch).2.1⟩
    · rintro ch ⟨⟩
      decide
    · rintro ch ⟨⟩
      decide
  have hfrac' : scanFrac (frac ++ (exp ++ r)) = (frac, exp ++ r) := by
    rcases hfrac with rfl | hfrac
    · exact scanFrac_of_head fun hhead => (hexphead _ hhead).2 rfl
    · exact scanFrac_append hfrac fun ch hch => (hexphead ch hch).1
  have hfrachead : ∀ ch ∈ (frac ++ (exp ++ r)).head?, ¬isDigit ch := by
    rcases hfrac with rfl | ⟨_, rfl, -⟩
    · exact fun ch hch => (hexphead ch hch).1
    · rintro ch ⟨⟩
      decide
  have hint' := scanInt_append hint hfrachead
  have hsign' : scanSign (sign ++ (int ++ (frac ++ (exp ++ r)))) =
      (sign, int ++ (frac ++ (exp ++ r))) := by
    rcases hsign with rfl | rfl
    · rcases hint with rfl | ⟨d, ds, rfl, hd, -⟩
      · rfl
      · rw [List.nil_append, List.cons_append, scanSign, if_neg]
        rintro rfl
        exact absurd hd (by decide)
    · rfl
  unfold scanNumber
  simp only [List.append_assoc, hsign', hint', Option.map_some, hfrac', hexp']

theorem takeWhile_dropWhile (p : Nat → Bool) (s : Bytes) :
    s = s.takeWhile p ++ s.dropWhile p ∧ ∀ ch ∈ s.takeWhile p, p ch :=
  ⟨(List.takeWhile_append_dropWhile).symm, fun _ hch => List.all_eq_true.1 List.all_takeWhile _ hch⟩

theorem scanSign_sound (s : Bytes) :
    s = (scanSign s).1 ++ (scanSign s).2 ∧ ((scanSign s).1 = [] ∨ (scanSign s).1 = [byte '-']) := by
  cases s with
  | nil => exact ⟨rfl, .inl rfl⟩
  | cons ch rest =>
    rw [scanSign]
    split
    · next hch => exact ⟨rfl, .inr (congrArg (fun c => [c]) hch)⟩
    · exact ⟨rfl, .inl rfl⟩

theorem scanInt_sound (h : scanInt s = some (t, r)) : s = t ++ r ∧ IntText t := by
  cases s with
  | nil => cases h
  | cons ch rest =>
    rw [scanInt] at h
    split at h
    · next hzero =>
      cases h
      exact ⟨rfl, .inl (congrArg (fun c => [c]) hzero)⟩
    · next hzero =>
      split at h
      · next hd =>
        cases h
        obtain ⟨happend, hall⟩ := takeWhile_dropWhile isDigit rest
        exact ⟨congrArg (ch :: ·) happend, .inr ⟨_, _, rfl, hd, hzero, hall⟩⟩
      · cases h

theorem scanFrac_sound (s : Bytes) :
    s = (scanFrac s).1 ++ (scanFrac s).2 ∧ ((scanFrac s).1 = [] ∨ FracText (scanFrac s).1) := by
  cases s with
  | nil => exact ⟨rfl, .inl rfl⟩
  | cons ch rest =>
    rw [scanFrac]
    split
    · next hcond =>
      obtain ⟨happend, hall⟩ := takeWhile_dropWhile isDigit rest
      refine ⟨congrArg (ch :: ·) happend, .inr ⟨_, ?_, hcond.2, hall⟩⟩
      rw [hcond.1]
    · exact ⟨rfl, .inl rfl⟩

theorem scanExp_sound (s : Bytes) :
    s = (scanExp s).1 ++ (scanExp s).2 ∧ ((scanExp s).1 = [] ∨ ExpText (scanExp s).1) := by
  rcases s with _ | ⟨e, _ | ⟨sign, rest⟩⟩
  · exact ⟨rfl, .inl rfl⟩
  · exact ⟨rfl, .inl rfl⟩
  · rw [scanExp]
    split
    · next hcond =>
      obtain ⟨happend, hall⟩ := takeWhile_dropWhile isDigit rest
      exact ⟨congrArg (e :: sign :: ·) happend,
        .inr ⟨e, sign, _, rfl, hcond.1, hcond.2.1, hcond.2.2, hall⟩⟩
    · exact ⟨rfl, .inl rfl⟩

theorem scanNumber_sound (h : scanNumber s = some (t, r)) : s = t ++ r ∧ NumberText t := by
  obtain ⟨⟨int, rest⟩, hint, heq⟩ := Option.map_eq_some_iff.1 h
  cases heq
  obtain ⟨hs, hsign⟩ := scanSign_sound s
  obtain ⟨hrest, hint⟩ := scanInt_sound hint
  obtain ⟨hfrac, hfractext⟩ := scanFrac_sound rest
  obtain ⟨hexp, hexptext⟩ := scanExp_sound (scanFrac rest).2
  refine ⟨?_, _, _, _, _, rfl, hsign, hint, hfractext, hexptext⟩
  calc s = (scanSign s).1 ++ (int ++ rest) := by rw [← hrest]; exact hs
    _ = (scanSign s).1 ++ (int ++ ((scanFrac rest).1 ++ ((scanExp (scanFrac rest).2).1 ++
        (scanExp (scanFrac rest).2).2))) := by rw [← hexp, ← hfrac]
    _ = _ := by simp only [List.append_assoc]

/-! ## Scanning strings -/

theorem charSize_append (ht : CharText t) (r : Bytes) :
    charSize (t ++ r) = t.length ∧ ∃ ch t', t = ch :: t' ∧ ch ≠ byte '"' := by
  cases ht with
  | @unescaped c hc hspace hquote =>
    obtain ⟨b, bs, heq, hb, -⟩ := codePointToUtf8_first hc
    have hvalid := wtf8ValidateChar_append hc r
    rw [heq] at hvalid ⊢
    have hne {q : Nat} (hq : q < 128) (hcq : c ≠ q) : b ≠ q := by omega
    have hquote' := hne (by decide) hquote.1
    refine ⟨?_, b, bs, rfl, hquote'⟩
    rw [List.cons_append, charSize, if_neg (hne (by decide) hquote.2), if_neg, ← List.cons_append,
      hvalid]
    rintro (hb' | hb')
    · omega
    · exact hquote' hb'
  | escape hch =>
    refine ⟨?_, _, _, rfl, by decide⟩
    show escapeSize (_ :: r) = 2
    rw [escapeSize, if_pos hch]
  | @unicode a b c d h =>
    refine ⟨?_, _, _, rfl, by decide⟩
    show escapeSize (byte 'u' :: a :: b :: c :: d :: r) = 6
    rw [escapeSize, if_neg (by decide), if_pos]
    refine ⟨rfl, Nat.le_add_left 4 r.length, ?_⟩
    rw [List.all_eq_true]
    exact h

theorem escapeSize_sound (h : escapeSize s ≠ 0) :
    ∃ t r, s = t ++ r ∧ CharText (byte '\\' :: t) ∧ escapeSize s = t.length + 1 := by
  cases s with
  | nil => exact absurd rfl h
  | cons ch rest =>
    rw [escapeSize] at h ⊢
    split at h
    · next hch => exact ⟨[ch], rest, rfl, .escape hch, if_pos hch⟩
    · next hch =>
      rw [if_neg hch]
      split at h
      · next hcond =>
        rw [if_pos hcond]
        obtain ⟨rfl, hlen, hall⟩ := hcond
        rcases rest with _ | ⟨a, _ | ⟨b, _ | ⟨c, _ | ⟨d, rest⟩⟩⟩⟩
        · cases hlen
        · cases Nat.le_of_succ_le_succ hlen
        · cases Nat.le_of_succ_le_succ (Nat.le_of_succ_le_succ hlen)
        · cases Nat.le_of_succ_le_succ (Nat.le_of_succ_le_succ (Nat.le_of_succ_le_succ hlen))
        · exact ⟨[_, a, b, c, d], rest, rfl, .unicode (List.all_eq_true.1 hall), rfl⟩
      · exact absurd rfl h

theorem charSize_sound (h : charSize s ≠ 0) :
    ∃ t r, s = t ++ r ∧ CharText t ∧ charSize s = t.length := by
  cases s with
  | nil => exact absurd rfl h
  | cons ch rest =>
    rw [charSize] at h ⊢
    split at h
    · next hch =>
      rw [if_pos hch]
      obtain ⟨t, r, rfl, ht, hsize⟩ := escapeSize_sound h
      exact ⟨byte '\\' :: t, r, congrArg (· :: (t ++ r)) hch, ht, hsize⟩
    · next hch =>
      rw [if_neg hch]
      split at h
      · exact absurd rfl h
      · next hplain =>
        rw [if_neg hplain]
        obtain ⟨c, r, hc, heq⟩ := exists_of_wtf8ValidateChar h
        refine ⟨codePointToUtf8 c, r, heq, ?_, ?_⟩
        · rcases Nat.lt_or_ge c 128 with hlt | hge
          · have hascii : codePointToUtf8 c = [c] := if_pos (Nat.le_of_lt_succ hlt)
            rw [hascii] at heq
            cases heq
            exact .unescaped hc (Nat.le_of_not_lt fun hlt => hplain (.inl hlt))
              ⟨fun hquote => hplain (.inr hquote), hch⟩
          · have hne {q : Nat} (hq : q < 128) : c ≠ q := Nat.ne_of_gt (Nat.lt_of_lt_of_le hq hge)
            exact .unescaped hc (Nat.le_trans (by decide) hge) ⟨hne (by decide), hne (by decide)⟩
        · rw [heq, wtf8ValidateChar_append hc]

theorem scanChars_skip (t s : Bytes) :
    scanChars t.length (t ++ s) = (scanChars 0 s).map (Prod.map (t ++ ·) id) := by
  induction t with
  | nil => exact Option.map_id'.symm
  | cons ch t ih =>
    rw [List.length_cons, List.cons_append, scanChars, ih, Option.map_map]
    rfl

/-- A character of a string is read at once. -/
theorem scanChars_char (ht : CharText t) (s : Bytes) :
    scanChars 0 (t ++ s) = (scanChars 0 s).map (Prod.map (t ++ ·) id) := by
  obtain ⟨hsize, ch, t', rfl, hquote⟩ := charSize_append ht s
  rw [List.cons_append] at hsize ⊢
  rw [scanChars, if_neg hquote, hsize, List.length_cons,
    if_neg (Nat.succ_ne_zero _), Nat.add_sub_cancel, scanChars_skip, Option.map_map]
  rfl

theorem scanChars_append (h : CharsText s) (r : Bytes) :
    scanChars 0 (s ++ byte '"' :: r) = some (s, r) := by
  induction h with
  | nil => rfl
  | cons ht _ ih =>
    rw [List.append_assoc, scanChars_char ht, ih]
    rfl

theorem scanChars_sound {n : Nat} (hn : s.length ≤ n) (h : scanChars 0 s = some (t, r)) :
    s = t ++ byte '"' :: r ∧ CharsText t := by
  induction n generalizing s t with
  | zero =>
    cases s with
    | nil => cases h
    | cons ch s => cases hn
  | succ n ih =>
    by_cases hquote : s.head? = some (byte '"')
    · obtain ⟨s, rfl⟩ := List.head?_eq_some_iff.1 hquote
      cases h
      exact ⟨rfl, .nil⟩
    · have hsize : charSize s ≠ 0 := by
        intro hzero
        cases s with
        | nil => cases h
        | cons ch s =>
          rw [scanChars, if_neg (fun hch => hquote (congrArg some hch)), if_pos hzero] at h
          cases h
      obtain ⟨u, s, rfl, hu, -⟩ := charSize_sound hsize
      obtain ⟨-, ch, u', rfl, -⟩ := charSize_append hu s
      rw [scanChars_char hu] at h
      obtain ⟨⟨t', r'⟩, hrest, heq⟩ := Option.map_eq_some_iff.1 h
      cases heq
      have hlen : s.length ≤ n := by
        simp only [List.length_append, List.length_cons] at hn
        omega
      obtain ⟨rfl, ht'⟩ := ih hlen hrest
      exact ⟨(List.append_assoc _ _ _).symm, .cons hu ht'⟩

theorem scanString_iff : scanString s = some (t, r) ↔ s = t ++ r ∧ StringText t := by
  constructor
  · intro h
    cases s with
    | nil => cases h
    | cons ch rest =>
      rw [scanString] at h
      split at h
      · next hch =>
        obtain ⟨⟨body, r'⟩, hbody, heq⟩ := Option.map_eq_some_iff.1 h
        cases heq
        obtain ⟨rfl, hchars⟩ := scanChars_sound (Nat.le_refl _) hbody
        refine ⟨?_, body, rfl, hchars⟩
        rw [hch, List.cons_append, List.append_assoc]
        rfl
      · cases h
  · rintro ⟨rfl, body, rfl, hchars⟩
    rw [List.cons_append, List.append_assoc, scanString, if_pos rfl]
    show (scanChars 0 (body ++ byte '"' :: r)).map _ = _
    rw [scanChars_append hchars]
    rfl

/-! ## The next token -/

theorem matchToken_sound (h : matchToken s = some (tok, r)) : s = tok.text ++ r ∧ Lexeme tok := by
  unfold matchToken at h
  rw [Option.or_eq_some_iff, Option.or_eq_some_iff] at h
  rcases h with hfixed | ⟨-, hnumber | ⟨-, hstring⟩⟩
  · obtain ⟨kind, hfind, heq⟩ := Option.map_eq_some_iff.1 hfixed
    cases heq
    have hprefix : kind.toString.isPrefixOf s :=
      List.find?_some (p := fun kind : JSONTokenKind => kind.toString.isPrefixOf s) hfind
    obtain ⟨u, rfl⟩ := List.isPrefixOf_iff_prefix.1 hprefix
    exact ⟨by rw [List.drop_left], .inl ⟨List.mem_of_find?_eq_some hfind, rfl⟩⟩
  · obtain ⟨⟨t, r'⟩, hscan, heq⟩ := Option.map_eq_some_iff.1 hnumber
    cases heq
    obtain ⟨hs, ht⟩ := scanNumber_sound hscan
    exact ⟨hs, .inr (.inl ⟨rfl, ht⟩)⟩
  · obtain ⟨⟨t, r'⟩, hscan, heq⟩ := Option.map_eq_some_iff.1 hstring
    cases heq
    obtain ⟨hs, ht⟩ := scanString_iff.1 hscan
    exact ⟨hs, .inr (.inr ⟨rfl, ht⟩)⟩

/-- What the tokens with only one text begin with. -/
theorem fixed_head : ∀ kind ∈ JSONTokenKind.fixed, kind.toString ≠ [] ∧
    ∀ ch ∈ kind.toString.head?, ¬isDigit ch ∧ ch ≠ byte '-' ∧ ch ≠ byte '"' ∧ ¬isSpace ch := by
  decide

theorem find_fixed_none {ch : Nat} (h : isDigit ch ∨ ch = byte '-' ∨ ch = byte '"') :
    JSONTokenKind.fixed.find? (·.toString.isPrefixOf (ch :: r)) = none := by
  rw [List.find?_eq_none]
  intro kind hkind hprefix
  obtain ⟨hne, hhead⟩ := fixed_head kind hkind
  obtain ⟨c, cs, heq⟩ := List.exists_cons_of_ne_nil hne
  rw [heq] at hprefix hhead
  obtain ⟨rfl, -⟩ := List.cons_prefix_cons.1 (List.isPrefixOf_iff_prefix.1 hprefix)
  obtain ⟨hdigit, hminus, hquote, -⟩ := hhead c rfl
  exact h.elim hdigit (Or.rec hminus hquote)

theorem NumberText.head (h : NumberText t) :
    ∃ ch t', t = ch :: t' ∧ (isDigit ch ∨ ch = byte '-') := by
  obtain ⟨sign, int, frac, exp, rfl, rfl | rfl, hint, -⟩ := h
  · rcases hint with rfl | ⟨d, ds, rfl, hd, -⟩
    · exact ⟨_, _, rfl, .inl (by decide)⟩
    · exact ⟨_, _, rfl, .inl hd⟩
  · exact ⟨_, _, rfl, .inr rfl⟩

theorem matchToken_append (ht : Lexeme tok) (hr : tok.kind = .number → EndsNumber r) :
    matchToken (tok.text ++ r) = some (tok, r) := by
  obtain ⟨kind, text⟩ := tok
  unfold Lexeme at ht
  dsimp only at ht hr ⊢
  unfold matchToken
  rcases ht with ⟨hkind, rfl⟩ | ⟨rfl, htext⟩ | ⟨rfl, htext⟩
  · have hfind : ∀ kind ∈ JSONTokenKind.fixed,
        JSONTokenKind.fixed.find? (·.toString.isPrefixOf (kind.toString ++ r)) = some kind := by
      simp only [JSONTokenKind.fixed, List.forall_mem_cons]
      exact ⟨rfl, rfl, rfl, rfl, rfl, rfl, rfl, rfl, rfl, List.forall_mem_nil _⟩
    rw [hfind kind hkind, Option.map_some, Option.some_or, List.drop_left]
  · have hscan := scanNumber_append htext (hr rfl)
    obtain ⟨ch, t', rfl, hch⟩ := htext.head
    have hfind := find_fixed_none (r := t' ++ r) (hch.imp_right .inl)
    rw [← List.cons_append] at hfind
    rw [hfind, hscan]
    rfl
  · have hscan : scanString (text ++ r) = some (text, r) := scanString_iff.2 ⟨rfl, htext⟩
    obtain ⟨body, rfl, -⟩ := htext
    have hfind := find_fixed_none (r := body ++ [byte '"'] ++ r) (.inr (.inr rfl))
    rw [← List.cons_append] at hfind
    rw [hfind, hscan]
    rfl

theorem Lexeme.head (h : Lexeme tok) : ∃ ch t, tok.text = ch :: t ∧ ¬isSpace ch := by
  rcases h with ⟨hkind, htext⟩ | ⟨-, htext⟩ | ⟨-, body, htext, -⟩
  · obtain ⟨hne, hhead⟩ := fixed_head tok.kind hkind
    obtain ⟨ch, cs, heq⟩ := List.exists_cons_of_ne_nil hne
    rw [heq] at hhead
    exact ⟨ch, cs, htext.trans heq, (hhead ch rfl).2.2.2⟩
  · obtain ⟨ch, t, heq, hch⟩ := htext.head
    refine ⟨ch, t, heq, ?_⟩
    intro hspace
    have hmem := of_decide_eq_true hspace
    simp only [List.mem_cons, List.not_mem_nil, or_false] at hmem
    rcases hmem with rfl | rfl | rfl | rfl <;> exact absurd hch (by decide)
  · exact ⟨_, _, htext, by decide⟩

theorem nextToken_of_spaces (hw : Spaces w) : nextToken w = (⟨.eos, []⟩, []) := by
  unfold nextToken
  rw [List.dropWhile_eq_nil_iff.2 hw]

/-- A token is read, if nothing follows that it could go on with. -/
theorem nextToken_append (hw : Spaces w) (ht : Lexeme tok)
    (hr : tok.kind = .number → EndsNumber r) :
    nextToken (w ++ (tok.text ++ r)) = (tok, r) := by
  have hmatch := matchToken_append ht hr
  obtain ⟨ch, t, htext, hspace⟩ := ht.head
  rw [htext] at hmatch ⊢
  have hdrop : (w ++ (ch :: t ++ r)).dropWhile isSpace = ch :: (t ++ r) :=
    (takeWhile_append_of_head hw (by rintro c ⟨⟩; exact hspace)).2
  unfold nextToken
  rw [hdrop]
  exact congrArg (Option.getD · _) hmatch

/-- The next token is the end, or no token of JSON, or the text begins with it. -/
theorem nextToken_cases (s : Bytes) :
    (nextToken s = (⟨.eos, []⟩, []) ∧ Spaces s) ∨ (nextToken s).1.kind = .invalid ∨
      ∃ w, Spaces w ∧ Lexeme (nextToken s).1 ∧
        s = w ++ ((nextToken s).1.text ++ (nextToken s).2) := by
  obtain ⟨happend, hw⟩ := takeWhile_dropWhile isSpace s
  unfold nextToken
  cases hdrop : s.dropWhile isSpace with
  | nil => exact .inl ⟨rfl, List.dropWhile_eq_nil_iff.1 hdrop⟩
  | cons ch rest =>
    rw [hdrop] at happend
    dsimp only
    cases hmatch : matchToken (ch :: rest) with
    | none => exact .inr (.inl rfl)
    | some result =>
      obtain ⟨tok, r⟩ := result
      obtain ⟨hs, ht⟩ := matchToken_sound hmatch
      refine .inr (.inr ⟨_, hw, ht, ?_⟩)
      rw [hs] at happend
      exact happend

/-- The next token is no longer than the text. -/
theorem nextToken_length (s : Bytes) :
    (nextToken s).1.text.length + (nextToken s).2.length ≤ s.length := by
  have hlen : (s.dropWhile isSpace).length ≤ s.length := (List.dropWhile_sublist _).length_le
  unfold nextToken
  cases hdrop : s.dropWhile isSpace with
  | nil => exact Nat.zero_le _
  | cons ch rest =>
    rw [hdrop] at hlen
    dsimp only
    cases hmatch : matchToken (ch :: rest) with
    | none =>
      have hone : [ch].length + rest.length = (ch :: rest).length := Nat.add_comm 1 _
      exact Nat.le_trans (Nat.le_of_eq hone) hlen
    | some result =>
      rw [(matchToken_sound hmatch).1, List.length_append] at hlen
      exact hlen

/-! ## Texts that are spelled by tokens -/

/-- No number comes right after another one. -/
def Apart (a b : Token) : Prop := a.kind = .number → b.kind ≠ .number

theorem Spaces.endsNumber (hw : Spaces w) : EndsNumber w := by
  intro ch hch
  have hmem := of_decide_eq_true (hw ch (List.mem_of_mem_head? hch))
  simp only [List.mem_cons, List.not_mem_nil, or_false] at hmem
  rcases hmem with rfl | rfl | rfl | rfl <;> decide

/-- What a token other than a number begins with does not go on with a number. -/
theorem Lexeme.endsNumber (ht : Lexeme tok) (hkind : tok.kind ≠ .number) (s : Bytes) :
    EndsNumber (tok.text ++ s) := by
  have hfixed : ∀ kind ∈ JSONTokenKind.fixed, kind.toString ≠ [] ∧ EndsNumber kind.toString := by
    unfold EndsNumber
    decide
  rcases ht with ⟨hmem, htext⟩ | ⟨hnumber, -⟩ | ⟨-, body, htext, -⟩
  · obtain ⟨hne, hends⟩ := hfixed tok.kind hmem
    intro ch hch
    rw [htext, List.head?_append_of_ne_nil _ hne] at hch
    exact hends ch hch
  · exact absurd hnumber hkind
  · rw [htext]
    rintro ch ⟨⟩
    decide

theorem Spells.endsNumber (h : Spells ts s) (hts : ∀ t ∈ ts.head?, t.kind ≠ .number) :
    EndsNumber s := by
  cases h with
  | nil hw => exact hw.endsNumber
  | @cons t ts w s hw ht hs =>
    cases w with
    | nil => exact ht.endsNumber (hts t rfl) s
    | cons ch w =>
      rintro c ⟨⟩
      exact Spaces.endsNumber hw ch rfl

theorem Spells.append_spaces (h : Spells ts s) (hw : Spaces w) : Spells ts (s ++ w) := by
  induction h with
  | nil hw' => exact .nil (List.forall_mem_append.2 ⟨hw', hw⟩)
  | cons hw' ht _ ih =>
    rw [List.append_assoc, List.append_assoc]
    exact .cons hw' ht ih

theorem CharText.ne_newline (h : CharText t) : ∀ ch ∈ t, ch ≠ byte '\n' := by
  cases h with
  | @unescaped c hc hspace hquote =>
    obtain ⟨b, bs, heq, hb, hbs⟩ := codePointToUtf8_first hc
    have hnewline : byte '\n' = 10 := rfl
    rw [heq, List.forall_mem_cons]
    refine ⟨by omega, fun ch hch => ?_⟩
    have := hbs ch hch
    omega
  | escape hch =>
    have hsimple : ∀ ch ∈ simpleEscapes, ch ≠ byte '\n' := by decide
    exact List.forall_mem_cons.2 ⟨by decide, List.forall_mem_singleton.2 (hsimple _ hch)⟩
  | unicode h =>
    refine List.forall_mem_cons.2 ⟨by decide, List.forall_mem_cons.2 ⟨by decide, ?_⟩⟩
    rintro ch hch rfl
    exact absurd (h _ hch) (by decide)

theorem CharsText.ne_newline (h : CharsText s) : ∀ ch ∈ s, ch ≠ byte '\n' := by
  induction h with
  | nil => exact List.forall_mem_nil _
  | cons ht _ ih => exact List.forall_mem_append.2 ⟨ht.ne_newline, ih⟩

theorem NumberText.ne_newline (h : NumberText t) : ∀ ch ∈ t, ch ≠ byte '\n' := by
  have hdigits {ds : Bytes} (h : ∀ ch ∈ ds, isDigit ch) : ∀ ch ∈ ds, ch ≠ byte '\n' := by
    rintro ch hch rfl
    exact absurd (h _ hch) (by decide)
  obtain ⟨sign, int, frac, exp, rfl, hsign, hint, hfrac, hexp⟩ := h
  refine List.forall_mem_append.2 ⟨?_, List.forall_mem_append.2 ⟨?_, List.forall_mem_append.2
    ⟨?_, ?_⟩⟩⟩
  · rcases hsign with rfl | rfl <;> decide
  · rcases hint with rfl | ⟨d, ds, rfl, hd, -, hds⟩
    · decide
    · exact hdigits (List.forall_mem_cons.2 ⟨hd, hds⟩)
  · rcases hfrac with rfl | ⟨ds, rfl, -, hds⟩
    · exact List.forall_mem_nil _
    · exact List.forall_mem_cons.2 ⟨by decide, hdigits hds⟩
  · rcases hexp with rfl | ⟨e, sign, ds, rfl, rfl | rfl, rfl | rfl, -, hds⟩
    · exact List.forall_mem_nil _
    all_goals
      exact List.forall_mem_cons.2 ⟨by decide, List.forall_mem_cons.2 ⟨by decide, hdigits hds⟩⟩

theorem Lexeme.ne_newline (h : Lexeme tok) : ∀ ch ∈ tok.text, ch ≠ byte '\n' := by
  have hfixed : ∀ kind ∈ JSONTokenKind.fixed, ∀ ch ∈ kind.toString, ch ≠ byte '\n' := by decide
  rcases h with ⟨hmem, htext⟩ | ⟨-, htext⟩ | ⟨-, body, htext, hbody⟩
  · rw [htext]
    exact hfixed tok.kind hmem
  · exact htext.ne_newline
  · rw [htext]
    exact List.forall_mem_cons.2
      ⟨by decide, List.forall_mem_append.2 ⟨hbody.ne_newline, by decide⟩⟩

/-- A newline at the end belongs to the spaces. -/
theorem Spells.of_newline (h : Spells ts (s ++ [byte '\n'])) : Spells ts s := by
  generalize heq : s ++ [byte '\n'] = u at h
  induction h generalizing s with
  | nil hw =>
    rw [← heq] at hw
    exact .nil (List.forall_mem_append.1 hw).1
  | @cons t ts w u hw ht _ ih =>
    rcases List.eq_nil_or_concat u with rfl | ⟨u, ch, rfl⟩
    · -- the newline would be the last byte of the token
      obtain ⟨c, t', htext, -⟩ := ht.head
      have hlast : (w ++ (t.text ++ [])).getLast? = some (byte '\n') := by
        rw [← heq, List.getLast?_concat]
      have hne : t.text ≠ [] := by
        rw [htext]
        exact List.cons_ne_nil _ _
      rw [List.append_nil, List.getLast?_append_of_ne_nil _ hne] at hlast
      exact absurd rfl (ht.ne_newline _ (List.mem_of_getLast? hlast))
    · rw [List.concat_eq_append, ← List.append_assoc, ← List.append_assoc] at heq
      obtain ⟨rfl, hch⟩ := List.append_inj' heq rfl
      rw [List.append_assoc]
      exact .cons hw ht (ih (by rw [List.concat_eq_append, hch]))

end

end Arsh.Json
