import Arsh.Cmd.Arg

/-!
# Quoting arguments

`quoteAsCmdOrShellArg` of `format_util.cpp`. What it writes for an argument is a sequence of pieces:
plain characters, characters behind a backslash, the characters `=`, `:` and `,`, and single bytes as
`$'\xHH'`. The lexer reads runs of plain and escaped characters as one part and any other piece as a
part of its own, and the parts stand for the bytes that were quoted.
-/

namespace Arsh.Cmd

open Lexer UnicodeUtil
open Regex.Parser (byte isDigit isHex hexToNum)

/-! ## The source -/

/-- A digit of `%x`. -/
def hexChar (n : Nat) : Nat := if n < 10 then byte '0' + n else byte 'a' + (n - 10)

/-- `$'\x%02x'` of a byte. -/
def hexQuote (b : Nat) : Bytes :=
  [byte '$', quote, backslash, byte 'x', hexChar (b / 16), hexChar (b % 16), quote]

/-- The characters that get a backslash: the space and `; ' " \ | & < > ( ) $ # ~ { } [ ] * ? !`, and
the back quote. -/
def quotedChars : List Nat :=
  [32, 59, 39, 34, 96, 92, 124, 38, 60, 62, 40, 41, 36, 35, 126, 123, 125, 91, 93, 42, 63, 33]

/-- The loop of `quoteAsCmdOrShellArg`: what is written, and `hexCount`. -/
def quoteLoop (carryBackslash : Bool) : Nat → Bytes → Bytes → Nat → Bytes × Nat
  | fuel + 1, b :: ref, out, hexCount =>
    match utf8ToCodePoint (b :: ref) with
    | (_, none) => quoteLoop carryBackslash fuel ref (out ++ hexQuote b) (hexCount + 1)
    | (byteSize, some codePoint) =>
      let rest := (b :: ref).drop byteSize
      if codePoint ∈ quotedChars then
        let out := if !carryBackslash || !out.isEmpty then out ++ [backslash] else out
        quoteLoop carryBackslash fuel rest (out ++ (b :: ref).take byteSize) hexCount
      else if codePoint < 32 || codePoint = 127 then
        quoteLoop carryBackslash fuel rest (out ++ hexQuote codePoint) (hexCount + 1)
      else quoteLoop carryBackslash fuel rest (out ++ (b :: ref).take byteSize) hexCount
  | _, _, out, hexCount => (out, hexCount)

/-- `quoteAsCmdOrShellArg`: what is appended, and whether all of it is printable. -/
def quoteAsCmdOrShellArg (ref : Bytes) (asCmd carryBackslash : Bool) : Bytes × Bool :=
  let (out, hexCount) :=
    match ref with
    | ch :: rest =>
      if asCmd && (isDigit ch || ch = byte '+' || ch = byte '-') then
        let out := if !carryBackslash then [backslash, ch] else [ch]
        quoteLoop carryBackslash rest.length rest out 0
      else quoteLoop carryBackslash ref.length ref [] 0
    | [] => ([], 0)
  (out, hexCount = 0)

/-! ## Pieces -/

inductive Piece where
  | plain (c : Nat)
  | escaped (c : Nat)
  | special (c : Nat)
  | hex (b : Nat)

namespace Piece

/-- The characters that are written. -/
def text : Piece → List Nat
  | plain c | special c => [c]
  | escaped c => [backslash, c]
  | hex b => hexQuote b

/-- The bytes that are quoted. -/
def value : Piece → Bytes
  | plain c | special c | escaped c => codePointToUtf8 c
  | hex b => [b]

/-- A plain part of an argument can have the piece. -/
def IsPlain : Piece → Prop
  | plain c => isValidCodePoint c = true ∧ c ∉ byte '#' :: argMeta
  | escaped c => c ∈ quotedChars
  | _ => False

def Ok : Piece → Prop
  | special c => c = 61 ∨ c = 58 ∨ c = 44
  | hex b => b < 256
  | p => p.IsPlain

end Piece

theorem utf8ToCodePoint_cases (bs : Bytes) :
    (∃ c t, isValidCodePoint c = true ∧ bs = codePointToUtf8 c ++ t ∧
      utf8ToCodePoint bs = ((codePointToUtf8 c).length, some c)) ∨
    ∃ n, utf8ToCodePoint bs = (n, none) := by
  unfold utf8ToCodePoint
  by_cases hz : utf8ValidateChar bs = 0
  · exact .inr ⟨0, by simp [hz]⟩
  · left
    have hsurrogate : ¬(bs.getD 0 0 = 0xED ∧ bs.getD 1 0 / 32 = 5) := fun h => hz (if_pos h)
    have hv : utf8ValidateChar bs = wtf8ValidateChar bs := if_neg hsurrogate
    rw [hv] at hz ⊢
    obtain ⟨c, t, hc, rfl⟩ := exists_of_wtf8ValidateChar hz
    refine ⟨c, t, isValidCodePoint_iff.2 ⟨hc, ?_⟩, rfl, ?_⟩
    · by_contra hrange
      have he : codePointToUtf8 c =
          [0xE0 + c / 4096, 0x80 + c / 64 % 64, 0x80 + c % 64] := by
        unfold codePointToUtf8
        rw [if_neg (by omega), if_neg (by omega), if_pos (by omega)]
      rw [he] at hsurrogate
      simp at hsurrogate
      omega
    rw [wtf8ValidateChar_append hc] at hz ⊢
    rw [decodeFirst_append hc]
    simp only [hz, if_false]

theorem encode_ascii {cs : List Nat} (h : ∀ c ∈ cs, c < 128) : encode cs = cs := by
  induction cs with
  | nil => rfl
  | cons c cs ih =>
    obtain ⟨hc, hcs⟩ := List.forall_mem_cons.1 h
    rw [encode_cons, ih hcs, codePointToUtf8, if_pos (by omega)]
    rfl

theorem hexQuote_ascii {b : Nat} (h : b < 256) : ∀ c ∈ hexQuote b, c < 128 := by
  revert b
  decide +kernel

theorem quotedChars_ascii : ∀ c ∈ quotedChars, c < 128 := by decide

theorem Piece.valid {p : Piece} (h : p.Ok) : ∀ c ∈ p.text, isValidCodePoint c = true := by
  have hlt {c : Nat} (hc : c < 128) : isValidCodePoint c = true :=
    isValidCodePoint_iff.2 ⟨by unfold codePointMax; omega, .inl (by omega)⟩
  cases p with
  | plain c => exact List.forall_mem_singleton.2 h.1
  | escaped c =>
    exact List.forall_mem_cons.2 ⟨rfl, List.forall_mem_singleton.2 (hlt (quotedChars_ascii c h))⟩
  | special c =>
    refine List.forall_mem_singleton.2 (hlt ?_)
    rcases h with rfl | rfl | rfl <;> decide
  | hex b => exact fun c hc => hlt (hexQuote_ascii h c hc)

/-- What is written is a sequence of pieces. -/
theorem quoteLoop_pieces {fuel : Nat} {ref out : Bytes} {hexCount : Nat} (hlen : ref.length ≤ fuel)
    (href : ∀ b ∈ ref, b < 256) : ∃ ps : List Piece, (∀ p ∈ ps, p.Ok) ∧
      (quoteLoop false fuel ref out hexCount).1 = out ++ encode (ps.flatMap Piece.text) ∧
      ps.flatMap Piece.value = ref := by
  induction fuel generalizing ref out hexCount with
  | zero =>
    rw [List.length_eq_zero_iff.1 (Nat.le_zero.1 hlen)]
    exact ⟨[], nofun, (List.append_nil out).symm, rfl⟩
  | succ fuel ih =>
    cases ref with
    | nil => exact ⟨[], nofun, (List.append_nil out).symm, rfl⟩
    | cons b ref =>
      -- one piece, and those of the rest
      have hstep {p : Piece} {rest w : Bytes} {n : Nat} (hp : p.Ok) (hw : encode p.text = w)
          (hv : p.value ++ rest = b :: ref) (hpos : 0 < p.value.length)
          (hq : quoteLoop false (fuel + 1) (b :: ref) out hexCount =
            quoteLoop false fuel rest (out ++ w) n) :
          ∃ ps : List Piece, (∀ p ∈ ps, p.Ok) ∧
            (quoteLoop false (fuel + 1) (b :: ref) out hexCount).1 =
              out ++ encode (ps.flatMap Piece.text) ∧
            ps.flatMap Piece.value = b :: ref := by
        have hlen' : rest.length ≤ fuel := by
          have := congrArg List.length hv
          rw [List.length_append] at this
          rw [← this] at hlen
          omega
        obtain ⟨ps, hps, htext, hval⟩ := @ih rest (out ++ w) n hlen'
          fun x hx => href x (hv ▸ List.mem_append_right _ hx)
        refine ⟨p :: ps, List.forall_mem_cons.2 ⟨hp, hps⟩, ?_, ?_⟩
        · rw [hq, htext, List.flatMap_cons, encode_append, hw, List.append_assoc]
        · rw [List.flatMap_cons, hval, hv]
      rcases utf8ToCodePoint_cases (b :: ref) with ⟨c, t, hc, he, hu⟩ | ⟨n, hu⟩
      · have hpos := codePointToUtf8_length_pos (isValidCodePoint_iff.1 hc).1
        have htake : (b :: ref).take (codePointToUtf8 c).length = codePointToUtf8 c := by
          rw [he, List.take_left]
        have hdrop : (b :: ref).drop (codePointToUtf8 c).length = t := by rw [he, List.drop_left]
        by_cases hquoted : c ∈ quotedChars
        · refine hstep (p := .escaped c) (w := backslash :: codePointToUtf8 c) hquoted ?_ he.symm
            hpos ?_ (n := hexCount)
          · show codePointToUtf8 backslash ++ (codePointToUtf8 c ++ []) = _
            rw [List.append_nil]
            rfl
          · rw [quoteLoop, hu]
            dsimp only
            rw [if_pos hquoted, htake, hdrop]
            simp
        · by_cases hctrl : c < 32 ∨ c = 127
          · have hone : codePointToUtf8 c = [c] := by
              rw [codePointToUtf8, if_pos (by omega)]
            refine hstep (p := .hex c) (w := hexQuote c) (by show c < 256; omega) ?_
              (by rw [he, hone]; rfl) Nat.one_pos ?_ (n := hexCount + 1)
            · exact encode_ascii (hexQuote_ascii (by omega))
            · rw [quoteLoop, hu]
              dsimp only
              rw [if_neg hquoted, if_pos (by simpa using hctrl), hdrop]
          · have hloop : quoteLoop false (fuel + 1) (b :: ref) out hexCount =
                quoteLoop false fuel t (out ++ codePointToUtf8 c) hexCount := by
              rw [quoteLoop, hu]
              dsimp only
              rw [if_neg hquoted, if_neg (by simpa using hctrl), htake, hdrop]
            have hone : encode [c] = codePointToUtf8 c := by simp
            by_cases hspecial : c = 61 ∨ c = 58 ∨ c = 44
            · exact hstep (p := .special c) hspecial hone he.symm hpos hloop
            · refine hstep (p := .plain c) ⟨hc, ?_⟩ hone he.symm hpos hloop
              simp only [quotedChars, List.mem_cons, List.not_mem_nil, or_false] at hquoted
              simp only [argMeta, List.mem_cons, List.not_mem_nil, or_false]
              have hhash : byte '#' = 35 := rfl
              omega
      · refine hstep (p := .hex b) (w := hexQuote b) (href b List.mem_cons_self) ?_ rfl Nat.one_pos ?_
          (n := hexCount + 1)
        · exact encode_ascii (hexQuote_ascii (href b List.mem_cons_self))
        · rw [quoteLoop, hu]

end Arsh.Cmd
