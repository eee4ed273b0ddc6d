import Arsh.Cmd.Quote

/-!
# Reading pieces

What `quoteAsCmdOrShellArg` has written is read as one argument: a run of plain and escaped characters
as one part, as no other rule of the lexer has a match there that is as long, and every other piece
as a part of its own. The argument ends where what comes behind it begins.
-/

namespace Arsh.Cmd

open Lexer UnicodeUtil
open Regex.Parser (byte isDigit isHex hexToNum)

/-! ## Characters above ASCII

The rules name no character above ASCII, so that they treat all of these as they treat the first. -/

theorem agree_range {c : Nat} {lo hi : Char} (h : 128 ≤ c) (hhi : hi.toNat < 128) :
    (range lo hi).Agree c 128 := by
  have h₁ : decide (c ≤ hi.toNat) = false := decide_eq_false (by omega)
  have h₂ : decide (128 ≤ hi.toNat) = false := decide_eq_false (by omega)
  show (decide _ && decide _) = (decide _ && decide _)
  rw [h₁, h₂, Bool.and_false, Bool.and_false]

theorem contains_false {c : Nat} {cs : List Nat} (h : 128 ≤ c) (hcs : ∀ x ∈ cs, x < 128) :
    cs.contains c = false := by
  rw [List.contains_eq_mem, decide_eq_false_iff_not]
  intro hmem
  have := hcs c hmem
  omega

theorem agree_oneOf {c : Nat} {cs : List Nat} (h : 128 ≤ c) (hcs : ∀ x ∈ cs, x < 128) :
    (oneOf cs).Agree c 128 := by
  show cs.contains c = cs.contains 128
  rw [contains_false h hcs, contains_false (Nat.le_refl _) hcs]

theorem agree_noneOf {c : Nat} {cs : List Nat} (h : 128 ≤ c) (hc : c ≤ codePointMax)
    (hcs : ∀ x ∈ cs, x < 128) : (noneOf cs).Agree c 128 := by
  have hmax : decide (c ≤ 0x10FFFF) = true := decide_eq_true hc
  show (decide _ && !cs.contains c) = (decide _ && !cs.contains 128)
  rw [contains_false h hcs, contains_false (Nat.le_refl _) hcs, hmax]
  rfl

theorem agree_word {c : Nat} {cs : List Nat} (h : 128 ≤ c) (hcs : ∀ x ∈ cs, x < 128) :
    (Re.lit cs).Agree c 128 := by
  apply Re.agree_lit
  intro x hx
  have := hcs x hx
  omega

theorem agree_char {c x : Nat} (h : 128 ≤ c) (hx : x < 128) : (Re.sym x).Agree c 128 :=
  Re.agree_sym (by omega) (by omega)

theorem agree_rules {c : Nat} (h : 128 ≤ c) (hc : c ≤ codePointMax) :
    ∀ r ∈ cmdRules, r.re.Agree c 128 := by
  simp only [cmdRules, rulesBefore, redirRules, rulesBehind, cmdArgRule, List.cons_append,
    List.nil_append, List.forall_mem_cons, List.not_mem_nil, false_implies, implies_true, and_true,
    text, redir, braceSeq, signedDigits, cmdArg, cmdArgChar, cmdArgStartChar, inBraces, specialName,
    appliedName, unclosedBackquote, unclosedEstring, unclosedString, specialNames, varName, escapedOr,
    letter, digit, Re.plus, Re.opt, Re.Agree]
  and_intros
  all_goals first
    | exact agree_word h (by decide)
    | exact agree_range h (by decide)
    | exact agree_char h (by decide)
    | exact agree_oneOf h (by decide)
    | exact agree_noneOf h hc (by decide)

/-! ## Plain parts -/

variable {c : Nat} {p : Piece} {ps : List Piece} {s : List Nat}

/-- The rules that are neither that of plain parts nor redirections. -/
def otherRules : List (Rule Nat Action) := rulesBefore ++ rulesBehind

theorem not_nullable : ∀ r ∈ cmdRules, r.re.nullable = false := by
  have h : (cmdRules.all fun r => !r.re.nullable) = true := rfl
  intro r hr
  have := List.all_eq_true.1 h r hr
  rwa [Bool.not_eq_true'] at this

theorem mem_cmdRules_of_other {r : Rule Nat Action} (h : r ∈ otherRules) : r ∈ cmdRules := by
  rcases List.mem_append.1 h with h | h
  · exact List.mem_append_left _ h
  · exact List.mem_append_right _ (List.mem_cons_of_mem _ (List.mem_append_right _ h))

theorem mem_cmdRules_of_redir {r : Rule Nat Action} (h : r ∈ redirRules) : r ∈ cmdRules :=
  List.mem_append_right _ (List.mem_cons_of_mem _ (List.mem_append_left _ h))

theorem ascii_check :
    ((List.range 129).all fun c => decide (c ∈ byte '#' :: argMeta) ||
      ((otherRules.all fun r => (r.re.deriv c).dead) &&
        redirRules.all fun r => (r.re.deriv c).dead || isDigit c)) = true := by decide

/-- A plain character starts no token of another kind, but for digits before a redirection. -/
theorem dead_of_plain (hc : c ≤ codePointMax) (hn : c ∉ byte '#' :: argMeta) :
    (∀ r ∈ otherRules, (r.re.deriv c).dead = true) ∧
      ∀ r ∈ redirRules, (r.re.deriv c).dead = true ∨ isDigit c = true := by
  have hall (c : Nat) (hc : c < 129) (hn : c ∉ byte '#' :: argMeta) :
      (∀ r ∈ otherRules, (r.re.deriv c).dead = true) ∧
        ∀ r ∈ redirRules, (r.re.deriv c).dead = true ∨ isDigit c = true := by
    have h := List.all_eq_true.1 ascii_check c (List.mem_range.2 hc)
    rw [decide_eq_false hn, Bool.false_or, Bool.and_eq_true] at h
    refine ⟨List.all_eq_true.1 h.1, fun r hr => ?_⟩
    have := List.all_eq_true.1 h.2 r hr
    rwa [Bool.or_eq_true] at this
  by_cases hlt : c < 129
  · exact hall c hlt hn
  · obtain ⟨hother, hredir⟩ := hall 128 (by omega) (by decide)
    have hagree := agree_rules (c := c) (by omega) hc
    constructor
    · intro r hr
      rw [(hagree r (mem_cmdRules_of_other hr)).deriv_eq]
      exact hother r hr
    · intro r hr
      left
      rw [(hagree r (mem_cmdRules_of_redir hr)).deriv_eq]
      exact (hredir r hr).resolve_right (by decide)

theorem dead_of_escaped (hc : c ∈ quotedChars) :
    (∀ r ∈ otherRules, (r.re.derivs [backslash, c]).dead = true) ∧
      ∀ r ∈ redirRules, (r.re.deriv backslash).dead = true := by
  have h : (quotedChars.all fun c => (otherRules.all fun r => (r.re.derivs [backslash, c]).dead) &&
      redirRules.all fun r => (r.re.deriv backslash).dead) = true := rfl
  have h := List.all_eq_true.1 h c hc
  rw [Bool.and_eq_true] at h
  exact ⟨List.all_eq_true.1 h.1, List.all_eq_true.1 h.2⟩

/-- Digits do not change what a redirection waits for. -/
theorem redir_digit (hc : isDigit c = true) : ∀ r ∈ redirRules, r.re.deriv c = r.re := by
  have hmem : c ∈ [48, 49, 50, 51, 52, 53, 54, 55, 56, 57] := by
    simp only [isDigit, Bool.and_eq_true, decide_eq_true_eq] at hc
    have h₁ : byte '0' = 48 := rfl
    have h₂ : byte '9' = 57 := rfl
    simp only [List.mem_cons, List.not_mem_nil, or_false]
    omega
  simp only [redirRules, List.forall_mem_cons, List.not_mem_nil, false_implies, implies_true,
    and_true]
  simp only [List.mem_cons, List.not_mem_nil, or_false] at hmem
  rcases hmem with rfl | rfl | rfl | rfl | rfl | rfl | rfl | rfl | rfl | rfl <;>
    exact ⟨rfl, rfl, rfl, rfl, rfl, rfl, rfl, rfl, rfl, rfl⟩

theorem deriv_escapedChar (hne : c ≠ backslash) {cs : List Nat} :
    (Re.cat (.sym backslash) (noneOf cs)).deriv c = .empty := by
  have h : (Re.sym backslash).deriv c = .empty := by
    show (if decide (c = backslash) = true then Re.eps else Re.empty) = _
    rw [decide_eq_false hne]
    rfl
  rw [Re.deriv, h]
  rfl

theorem deriv_noneOf (hc : c ≤ codePointMax) {cs : List Nat} (hn : c ∉ cs) :
    (noneOf cs).deriv c = .eps := by
  have hmax : decide (c ≤ 0x10FFFF) = true := decide_eq_true hc
  have hcs : cs.contains c = false := by
    rw [List.contains_eq_mem, decide_eq_false_iff_not]
    exact hn
  show (if (decide (c ≤ 0x10FFFF) && !cs.contains c) = true then Re.eps else Re.empty) = _
  rw [hmax, hcs]
  rfl

theorem star_plain (hc : c ≤ codePointMax) (hn : c ∉ byte '#' :: argMeta) :
    (Re.star cmdArgChar).deriv c = .star cmdArgChar ∧ cmdArg.deriv c = .star cmdArgChar := by
  have hmeta : c ∉ argMeta := fun h => hn (List.mem_cons_of_mem _ h)
  have hne : c ≠ backslash := fun h => hmeta (h ▸ by decide)
  have hchar : cmdArgChar.deriv c = .eps := by
    unfold cmdArgChar
    rw [Re.deriv, deriv_escapedChar hne, deriv_noneOf hc hmeta]
    rfl
  have hstart : cmdArgStartChar.deriv c = .eps := by
    unfold cmdArgStartChar
    rw [Re.deriv, deriv_escapedChar hne, deriv_noneOf hc hn]
    rfl
  constructor
  · rw [Re.deriv, hchar]
    rfl
  · have hnull : cmdArgStartChar.nullable = false := rfl
    unfold cmdArg
    rw [Re.deriv, hstart, hnull]
    rfl

theorem star_escaped (hc : c ∈ quotedChars) :
    (Re.star cmdArgChar).derivs [backslash, c] = .star cmdArgChar ∧
      cmdArg.derivs [backslash, c] = .star cmdArgChar := by
  simp only [quotedChars, List.mem_cons, List.not_mem_nil, or_false] at hc
  rcases hc with rfl | rfl | rfl | rfl | rfl | rfl | rfl | rfl | rfl | rfl | rfl | rfl | rfl | rfl |
    rfl | rfl | rfl | rfl | rfl | rfl | rfl | rfl <;> exact ⟨rfl, rfl⟩

/-! ## Runs

A run is a sequence of plain and escaped characters. -/

theorem star_piece (hp : p.IsPlain) : (Re.star cmdArgChar).derivs p.text = .star cmdArgChar ∧
    cmdArg.derivs p.text = .star cmdArgChar := by
  cases p with
  | plain c => exact star_plain (isValidCodePoint_iff.1 hp.1).1 hp.2
  | escaped c => exact star_escaped hp
  | special c => exact hp.elim
  | hex b => exact hp.elim

theorem star_run (hps : ∀ p ∈ ps, p.IsPlain) :
    (Re.star cmdArgChar).derivs (ps.flatMap Piece.text) = .star cmdArgChar := by
  induction ps with
  | nil => rfl
  | cons p ps ih =>
    obtain ⟨hp, hps⟩ := List.forall_mem_cons.1 hps
    rw [List.flatMap_cons, Re.derivs_append, (star_piece hp).1, ih hps]

/-- The characters that end a run: those that end an argument, and those that start another part. -/
def runEnds : List Nat := [32, 9, 10, 59, 124, 38, 41, 0, 36, 61, 58, 44]

theorem runEnds_check : (runEnds.all fun x => ((Re.star cmdArgChar).deriv x).dead &&
    redirRules.all fun r => (r.re.deriv x).dead) = true := rfl

theorem longest_cmdArg {x : Nat} {t : List Nat} (hne : ps ≠ []) (hps : ∀ p ∈ ps, p.IsPlain)
    (hx : x ∈ runEnds) :
    cmdArg.longest (ps.flatMap Piece.text ++ x :: t) = some (ps.flatMap Piece.text).length := by
  obtain ⟨p, ps, rfl⟩ := List.exists_cons_of_ne_nil hne
  obtain ⟨hp, hps⟩ := List.forall_mem_cons.1 hps
  have hend := List.all_eq_true.1 runEnds_check x hx
  rw [Bool.and_eq_true] at hend
  apply Re.longest_derivs (n := 0)
  rw [List.flatMap_cons, Re.derivs_append, (star_piece hp).2, star_run hps,
    Re.longest_of_dead hend.1]
  rfl

theorem longest_other {r : Rule Nat Action} {m : Nat} (hr : r ∈ otherRules) (hp : p.IsPlain)
    (hm : r.re.longest (p.text ++ s) = some m) : m < p.text.length := by
  refine Re.longest_lt ?_ hm
  cases p with
  | plain c => exact (dead_of_plain (isValidCodePoint_iff.1 hp.1).1 hp.2).1 r hr
  | escaped c => exact (dead_of_escaped hp).1 r hr
  | special c => exact hp.elim
  | hex b => exact hp.elim

theorem longest_redir {r : Rule Nat Action} {x : Nat} {t : List Nat} (hr : r ∈ redirRules)
    (hps : ∀ p ∈ ps, p.IsPlain) (hx : x ∈ runEnds) :
    r.re.longest (ps.flatMap Piece.text ++ x :: t) = none := by
  have hnull := not_nullable r (mem_cmdRules_of_redir hr)
  have hdead {a : Nat} {w : List Nat} (h : (r.re.deriv a).dead = true) :
      r.re.longest (a :: w) = none := by
    rw [Re.longest_of_dead h, hnull]
    rfl
  induction ps with
  | nil =>
    have hend := List.all_eq_true.1 runEnds_check x hx
    rw [Bool.and_eq_true] at hend
    exact hdead (List.all_eq_true.1 hend.2 r hr)
  | cons p ps ih =>
    obtain ⟨hp, hrest⟩ := List.forall_mem_cons.1 hps
    rw [List.flatMap_cons, List.append_assoc]
    cases p with
    | plain c =>
      rcases (dead_of_plain (isValidCodePoint_iff.1 hp.1).1 hp.2).2 r hr with h | h
      · exact hdead h
      · -- a number before a redirection, which does not come
        apply Re.longest_cons_none _ hnull
        rw [redir_digit h r hr]
        exact ih hrest
    | escaped c => exact hdead ((dead_of_escaped hp).2 r hr)
    | special c => exact hp.elim
    | hex b => exact hp.elim

theorem next_run {x : Nat} {t : List Nat} (hne : ps ≠ []) (hps : ∀ p ∈ ps, p.IsPlain)
    (hx : x ∈ runEnds) : next cmdRules (ps.flatMap Piece.text ++ x :: t) =
      some (cmdArgRule, (ps.flatMap Piece.text).length) := by
  have hother : ∀ r ∈ otherRules, ∀ m,
      r.re.longest (ps.flatMap Piece.text ++ x :: t) = some m →
        m < (ps.flatMap Piece.text).length := by
    obtain ⟨p, ps, rfl⟩ := List.exists_cons_of_ne_nil hne
    intro r hr m hm
    rw [List.flatMap_cons, List.append_assoc] at hm
    rw [List.flatMap_cons, List.length_append]
    exact Nat.lt_add_right _ (longest_other hr (hps p List.mem_cons_self) hm)
  apply next_eq (longest_cmdArg hne hps hx)
  · exact fun r hr => hother r (List.mem_append_left _ hr)
  · intro r hr m hm
    rcases List.mem_append.1 hr with hr | hr
    · rw [longest_redir hr hps hx] at hm
      cases hm
    · exact Nat.le_of_lt (hother r (List.mem_append_right _ hr) m hm)

/-! ## Other pieces -/

/-- The token of a piece of its own. -/
def Piece.kind : Piece → TokenKind
  | .special c => if c = 61 then .metaAssign else if c = 58 then .metaColon else .braceSep
  | .hex _ => .stringLiteral
  | _ => .cmdArgPart

theorem next_special {c : Nat} (hc : (Piece.special c).Ok) : ∃ re,
    next cmdRules (c :: s) = some (⟨.ret (Piece.special c).kind, re, 0⟩, 1) := by
  have hstop : ∀ c ∈ [61, 58, 44], (cmdRules.all fun r => (r.re.derivs [c]).stops) = true :=
    List.forall_mem_cons.2 ⟨rfl, List.forall_mem_cons.2 ⟨rfl, List.forall_mem_singleton.2 rfl⟩⟩
  have hmem : c ∈ [61, 58, 44] := by
    simp only [List.mem_cons, List.not_mem_nil, or_false]
    exact hc
  show ∃ re, next cmdRules ([c] ++ s) = _
  rw [next_append (List.all_eq_true.1 (hstop c hmem))]
  rcases hc with rfl | rfl | rfl <;> exact ⟨_, rfl⟩

/-- Where the digits of a byte begin, the rules wait for the same behind any digit. -/
theorem derivs_hexChar {n : Nat} (hn : n < 16) : ∀ r ∈ cmdRules,
    r.re.derivs [byte '$', quote, backslash, byte 'x', hexChar n] =
      r.re.derivs [byte '$', quote, backslash, byte 'x'] := by
  have h : cmdRules.map (fun r => r.re.derivs [byte '$', quote, backslash, byte 'x', hexChar n]) =
      cmdRules.map fun r => r.re.derivs [byte '$', quote, backslash, byte 'x'] := by
    have hmem := List.mem_range.2 hn
    simp only [List.range_succ, List.range_zero, List.nil_append, List.cons_append, List.mem_cons,
      List.not_mem_nil, or_false] at hmem
    rcases hmem with rfl | rfl | rfl | rfl | rfl | rfl | rfl | rfl | rfl | rfl | rfl | rfl | rfl |
      rfl | rfl | rfl <;> rfl
  exact List.map_inj_left.1 h

theorem derivs_hexQuote {b : Nat} (hb : b < 256) {r : Rule Nat Action} (hr : r ∈ cmdRules) :
    r.re.derivs (hexQuote b) = r.re.derivs [byte '$', quote, backslash, byte 'x', quote] := by
  have h₁ := derivs_hexChar (n := b / 16) (by omega) r hr
  have h₂ := derivs_hexChar (n := b % 16) (by omega) r hr
  have hone (d : Nat) : [byte '$', quote, backslash, byte 'x', d] =
      [byte '$', quote, backslash, byte 'x'] ++ [d] := rfl
  have hsplit : hexQuote b = [byte '$', quote, backslash, byte 'x', hexChar (b / 16)] ++
      ([hexChar (b % 16)] ++ [quote]) := rfl
  rw [hsplit, Re.derivs_append, h₁, ← Re.derivs_append, ← List.append_assoc, Re.derivs_append,
    ← hone, h₂, hone quote, Re.derivs_append]

/-- The rule of strings with escapes. -/
def estringRule : Rule Nat Action :=
  ⟨.ret .stringLiteral, .cat unclosedEstring (.sym quote), 0⟩

theorem next_hex {b : Nat} (hb : b < 256) :
    next cmdRules (hexQuote b ++ s) = some (estringRule, 7) := by
  have hrules : cmdRules = cmdRules.take 37 ++ estringRule :: cmdRules.drop 38 := rfl
  have hother : ((cmdRules.take 37 ++ cmdRules.drop 38).all fun r =>
      (r.re.derivs [byte '$', quote, backslash, byte 'x', quote]).dead) = true := rfl
  have hlt {r : Rule Nat Action} (h : r ∈ cmdRules.take 37 ++ cmdRules.drop 38) {m : Nat}
      (hm : r.re.longest (hexQuote b ++ s) = some m) : m < 7 := by
    have hr : r ∈ cmdRules := by
      rcases List.mem_append.1 h with h | h
      · exact List.mem_of_mem_take h
      · exact List.mem_of_mem_drop h
    refine Re.longest_lt (w := hexQuote b) ?_ hm
    rw [derivs_hexQuote hb hr]
    exact List.all_eq_true.1 hother r h
  have hself : estringRule.re.longest (hexQuote b ++ s) = some 7 := by
    have hr : estringRule ∈ cmdRules := by
      rw [hrules]
      exact List.mem_append_right _ List.mem_cons_self
    apply Re.longest_derivs (w := hexQuote b) (n := 0)
    rw [derivs_hexQuote hb hr]
    exact Re.longest_eps
  rw [hrules]
  apply next_eq hself
  · exact fun r hr m => hlt (List.mem_append_left _ hr)
  · exact fun r hr m hm => Nat.le_of_lt (hlt (List.mem_append_right _ hr) hm)

end Arsh.Cmd
