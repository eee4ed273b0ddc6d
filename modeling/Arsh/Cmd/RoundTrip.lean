import Arsh.Cmd.Pieces

/-!
# Quoted arguments are read back

`parseCmdArg` at a text that `quoteAsCmdOrShellArg` has written for an argument takes the whole text as
one argument, and its segments stand for the bytes that were quoted.
-/

namespace Arsh.Cmd

open Lexer UnicodeUtil
open Regex.Parser (byte isDigit isHex hexToNum)

variable {p : Piece} {ps : List Piece} {s : List Nat} {skipNL : Bool}

/-! ## Tokens of pieces -/

theorem tokenAt_of_next {kind : TokenKind} {re : Re Nat} {w : List Nat}
    (h : next cmdRules (w ++ s) = some (⟨.ret kind, re, 0⟩, w.length)) :
    tokenAt skipNL (w ++ s) = ⟨kind, w, false, false, s⟩ := by
  unfold tokenAt nextToken
  rw [h]
  simp

theorem tokenAt_run {x : Nat} {t : List Nat} (hne : ps ≠ []) (hps : ∀ p ∈ ps, p.IsPlain)
    (hx : x ∈ runEnds) : tokenAt skipNL (ps.flatMap Piece.text ++ x :: t) =
      ⟨.cmdArgPart, ps.flatMap Piece.text, false, false, x :: t⟩ :=
  tokenAt_of_next (next_run hne hps hx)

theorem tokenAt_piece (hok : p.Ok) (hp : ¬p.IsPlain) :
    tokenAt skipNL (p.text ++ s) = ⟨p.kind, p.text, false, false, s⟩ := by
  cases p with
  | plain c => exact absurd hok hp
  | escaped c => exact absurd hok hp
  | special c =>
    obtain ⟨re, h⟩ := @next_special s c hok
    exact tokenAt_of_next (w := [c]) h
  | hex b => exact tokenAt_of_next (next_hex hok)

/-! ## The end of an argument -/

/-- The characters an argument ends at: blanks, `; | & )`, and the null character behind the source. -/
def argEnds : List Nat := [32, 9, 10, 59, 124, 38, 41, 0]

theorem nextToken_prevSpace {fuel : Nat} {foundNewLine : Bool} :
    (nextToken skipNL fuel true foundNewLine s).prevSpace = true := by
  induction fuel generalizing foundNewLine s with
  | zero => rfl
  | succ fuel ih =>
    unfold nextToken
    split
    · rfl
    · dsimp only
      split
      · rfl
      · split
        · exact ih
        · rfl
      · exact ih
      · exact ih
      · split <;> rfl

theorem nextToken_prevNewLine {fuel : Nat} {foundSpace : Bool} :
    (nextToken skipNL fuel foundSpace true s).prevNewLine = true := by
  induction fuel generalizing foundSpace s with
  | zero => rfl
  | succ fuel ih =>
    unfold nextToken
    split
    · rfl
    · dsimp only
      split
      · rfl
      · split
        · exact ih
        · rfl
      · exact ih
      · exact ih
      · split <;> rfl

theorem argEnds_check : (argEnds.all fun x => cmdRules.all fun r => (r.re.deriv x).dead ||
    match r.kind with
    | .ret kind => !lookaheadCmdArgLP kind
    | .skip => false
    | _ => true) = true := by decide

/-- No segment starts where an argument ends. -/
theorem ends_arg {x : Nat} {t : List Nat} (hx : x ∈ argEnds) :
    (!(tokenAt skipNL (x :: t)).prevSpace && !(tokenAt skipNL (x :: t)).prevNewLine &&
      lookaheadCmdArgLP (tokenAt skipNL (x :: t)).kind) = false := by
  unfold tokenAt
  rw [List.length_cons]
  unfold nextToken
  split
  · rfl
  · next rule size hnext =>
    obtain ⟨hr, hsize⟩ := next_le hnext
    have halive : (rule.re.deriv x).dead = false := by
      cases size with
      | zero =>
        have hmem := (Re.longest_some hsize).2.1
        rw [List.take_zero, ← Re.nullable_iff, not_nullable rule hr] at hmem
        cases hmem
      | succ n => exact Re.deriv_not_dead hsize
    have hcheck := List.all_eq_true.1 (List.all_eq_true.1 argEnds_check x hx) rule hr
    rw [halive, Bool.false_or] at hcheck
    dsimp only
    split
    · next kind hk =>
      rw [hk] at hcheck
      simpa using hcheck
    · split
      · rw [nextToken_prevNewLine, Bool.not_true, Bool.and_false]
        rfl
      · rfl
    · rw [nextToken_prevSpace]
      rfl
    · next hk =>
      rw [hk] at hcheck
      cases hcheck
    · split <;> rfl

/-! ## Segments of pieces -/

theorem unquote_char {c : Nat} (hc : c ≤ codePointMax) (hne : c ≠ backslash) {ref : Bytes} :
    unquoteCmdArgLiteral true (codePointToUtf8 c ++ ref) =
      codePointToUtf8 c ++ unquoteCmdArgLiteral true ref := by
  have hbytes (bs : Bytes) (h : ∀ b ∈ bs, b ≠ backslash) :
      unquoteCmdArgLiteral true (bs ++ ref) = bs ++ unquoteCmdArgLiteral true ref := by
    induction bs with
    | nil => rfl
    | cons b bs ih =>
      obtain ⟨hb, hbs⟩ := List.forall_mem_cons.1 h
      rw [List.cons_append, unquoteCmdArgLiteral_char hb, ih hbs, List.cons_append]
  apply hbytes
  obtain ⟨b, bs, e, hb, hbs⟩ := codePointToUtf8_first hc
  rw [e]
  intro x hx
  rcases List.mem_cons.1 hx with rfl | hx
  · rcases hb with rfl | hb
    · exact hne
    · show _ ≠ 92
      omega
  · have := hbs x hx
    show _ ≠ 92
    omega

/-- A run stands for what was quoted. -/
theorem unquote_run (hps : ∀ p ∈ ps, p.IsPlain) :
    unquoteCmdArgLiteral true (encode (ps.flatMap Piece.text)) = ps.flatMap Piece.value := by
  induction ps with
  | nil => rfl
  | cons p ps ih =>
    obtain ⟨hp, hps⟩ := List.forall_mem_cons.1 hps
    rw [List.flatMap_cons, List.flatMap_cons, encode_append, ← ih hps]
    cases p with
    | plain c =>
      have hne : c ≠ backslash := fun h => hp.2 (h ▸ by decide)
      have hone : encode [c] = codePointToUtf8 c := by simp
      show unquoteCmdArgLiteral true (encode [c] ++ _) = _
      rw [hone]
      exact unquote_char (isValidCodePoint_iff.1 hp.1).1 hne
    | escaped c =>
      have hlt : c < 128 := quotedChars_ascii c hp
      have hne : c ≠ 10 := fun h => by
        have : (10 : Nat) ∈ quotedChars := h ▸ hp
        revert this
        decide
      have hone : codePointToUtf8 c = [c] := by
        rw [codePointToUtf8, if_pos (by omega)]
      have htext : encode (Piece.escaped c).text = [backslash, c] := by
        show codePointToUtf8 backslash ++ (codePointToUtf8 c ++ []) = _
        rw [hone]
        rfl
      show _ = codePointToUtf8 c ++ _
      rw [htext, hone]
      exact unquoteCmdArgLiteral_escaped hne
    | special c => exact hp.elim
    | hex b => exact hp.elim

theorem singleToString_hexQuote {b : Nat} (hb : b < 256) :
    singleToString (hexQuote b) = some [b] := by
  revert b
  decide +kernel

/-- A segment that nothing expands: a literal, or a character that means something in an assignment or
in a brace only. -/
def Segment.Fixed : Segment → Prop
  | .literal _ => True
  | .wildCard kind _ => kind = .metaAssign ∨ kind = .metaColon ∨ kind = .braceSep
  | .braceSeq _ _ => False

theorem hasBracketExpr_fixed {segs : List Segment} (h : ∀ seg ∈ segs, seg.Fixed) :
    hasBracketExpr segs = false := by
  unfold hasBracketExpr
  rw [List.any_eq_false]
  intro seg hseg
  have hfixed := h seg hseg
  split
  · rcases hfixed with h | h | h <;> cases h
  · exact Bool.false_ne_true

theorem seg_run {segs : List Segment} {rest : List Nat} (hsegs : ∀ seg ∈ segs, seg.Fixed)
    (hps : ∀ p ∈ ps, p.IsPlain) :
    parseCmdArgSeg segs ⟨.cmdArgPart, ps.flatMap Piece.text, false, false, rest⟩ =
      some (.literal (ps.flatMap Piece.value)) := by
  unfold parseCmdArgSeg
  dsimp only
  rw [hasBracketExpr_fixed hsegs, Bool.not_false, unquote_run hps]

theorem seg_piece (hok : p.Ok) (hp : ¬p.IsPlain) : ∃ seg : Segment,
    (∀ segs rest, parseCmdArgSeg segs ⟨p.kind, p.text, false, false, rest⟩ = some seg) ∧
      seg.Fixed ∧ seg.value = p.value := by
  cases p with
  | plain c => exact absurd hok hp
  | escaped c => exact absurd hok hp
  | special c =>
    rcases hok with rfl | rfl | rfl
    · exact ⟨.wildCard .metaAssign [61], fun _ _ => rfl, .inl rfl, rfl⟩
    · exact ⟨.wildCard .metaColon [58], fun _ _ => rfl, .inr (.inl rfl), rfl⟩
    · exact ⟨.wildCard .braceSep [44], fun _ _ => rfl, .inr (.inr rfl), rfl⟩
  | hex b =>
    refine ⟨.literal [b], fun _ _ => ?_, trivial, rfl⟩
    show (singleToString (encode (hexQuote b))).map _ = _
    rw [encode_ascii (hexQuote_ascii hok), singleToString_hexQuote hok]
    rfl

/-! ## The argument -/

/-- The pieces up to the first one that no plain part can have. -/
theorem exists_run (ps : List Piece) : ∃ run tail, ps = run ++ tail ∧ (∀ p ∈ run, p.IsPlain) ∧
    ∀ p tail', tail = p :: tail' → ¬p.IsPlain := by
  induction ps with
  | nil => exact ⟨[], [], rfl, nofun, nofun⟩
  | cons p ps ih =>
    by_cases hp : p.IsPlain
    · obtain ⟨run, tail, rfl, hrun, htail⟩ := ih
      exact ⟨p :: run, tail, rfl, List.forall_mem_cons.2 ⟨hp, hrun⟩, htail⟩
    · refine ⟨[], p :: ps, rfl, nofun, fun q tail' h => ?_⟩
      cases h
      exact hp

theorem runEnds_of_argEnds : ∀ x ∈ argEnds, x ∈ runEnds := by decide

/-- Pieces of their own start with a character that ends a run. -/
theorem text_ends_run (hok : p.Ok) (hp : ¬p.IsPlain) : ∃ x t, p.text = x :: t ∧ x ∈ runEnds := by
  cases p with
  | plain c => exact absurd hok hp
  | escaped c => exact absurd hok hp
  | special c =>
    refine ⟨c, [], rfl, ?_⟩
    rcases hok with rfl | rfl | rfl <;> decide
  | hex b => exact ⟨byte '$', _, rfl, by decide⟩

/-- The first part of the text of pieces: its token and segment, and the pieces behind it. -/
theorem exists_part {x : Nat} {t : List Nat} (hne : ps ≠ []) (hps : ∀ p ∈ ps, p.Ok)
    (hx : x ∈ argEnds) : ∃ run tail kind seg, ps = run ++ tail ∧ run ≠ [] ∧
      lookaheadCmdArgLP kind = true ∧
      tokenAt skipNL (ps.flatMap Piece.text ++ x :: t) =
        ⟨kind, run.flatMap Piece.text, false, false, tail.flatMap Piece.text ++ x :: t⟩ ∧
      (∀ segs : List Segment, (∀ seg ∈ segs, seg.Fixed) → parseCmdArgSeg segs
        ⟨kind, run.flatMap Piece.text, false, false, tail.flatMap Piece.text ++ x :: t⟩ =
          some seg) ∧
      seg.Fixed ∧ seg.value = run.flatMap Piece.value := by
  obtain ⟨run, tail, rfl, hrun, htail⟩ := exists_run ps
  by_cases hnil : run = []
  · -- a piece of its own
    subst hnil
    obtain ⟨p, tail, rfl⟩ := List.exists_cons_of_ne_nil hne
    have hp := htail p tail rfl
    have hok := hps p List.mem_cons_self
    obtain ⟨seg, hseg, hfixed, hvalue⟩ := seg_piece hok hp
    refine ⟨[p], tail, p.kind, seg, rfl, List.cons_ne_nil _ _, ?_, ?_, ?_, hfixed, ?_⟩
    · cases p with
      | plain c => exact absurd hok hp
      | escaped c => exact absurd hok hp
      | special c => rcases hok with rfl | rfl | rfl <;> rfl
      | hex b => rfl
    · rw [List.nil_append, List.flatMap_cons, List.append_assoc, tokenAt_piece hok hp,
        List.flatMap_singleton]
    · intro segs _
      rw [List.flatMap_singleton, hseg]
    · rw [List.flatMap_singleton, hvalue]
  · -- a run, up to the end or to a piece of its own
    have hbehind : ∃ y u, tail.flatMap Piece.text ++ x :: t = y :: u ∧ y ∈ runEnds := by
      cases tail with
      | nil => exact ⟨x, t, rfl, runEnds_of_argEnds x hx⟩
      | cons p tail =>
        obtain ⟨y, u, htext, hy⟩ :=
          text_ends_run (hps p (List.mem_append_right _ List.mem_cons_self)) (htail p tail rfl)
        refine ⟨y, u ++ (tail.flatMap Piece.text ++ x :: t), ?_, hy⟩
        rw [List.flatMap_cons, htext, List.append_assoc]
        rfl
    obtain ⟨y, u, hyu, hy⟩ := hbehind
    refine ⟨run, tail, .cmdArgPart, .literal (run.flatMap Piece.value), rfl, hnil, rfl, ?_,
      fun segs hsegs => seg_run hsegs hrun, trivial, rfl⟩
    rw [List.flatMap_append, List.append_assoc, hyu]
    exact tokenAt_run hnil hrun hy

/-- The loop takes all pieces, and stops behind them. -/
theorem parseCmdArgLoop_pieces {fuel : Nat} {segs : List Segment} {x : Nat} {t : List Nat}
    (hfuel : ps.length < fuel) (hsegs : ∀ seg ∈ segs, seg.Fixed) (hps : ∀ p ∈ ps, p.Ok)
    (hx : x ∈ argEnds) : ∃ segs' : List Segment,
      parseCmdArgLoop skipNL fuel segs (tokenAt skipNL (ps.flatMap Piece.text ++ x :: t)) =
        some (segs ++ segs', tokenAt skipNL (x :: t)) ∧
      (∀ seg ∈ segs', seg.Fixed) ∧ segs'.flatMap Segment.value = ps.flatMap Piece.value := by
  induction fuel generalizing ps segs with
  | zero => cases hfuel
  | succ fuel ih =>
    by_cases hne : ps = []
    · subst hne
      refine ⟨[], ?_, nofun, rfl⟩
      rw [List.flatMap_nil, List.nil_append, parseCmdArgLoop, ends_arg hx, List.append_nil]
      rfl
    · obtain ⟨run, tail, kind, seg, rfl, hrun, hkind, htoken, hseg, hfixed, hvalue⟩ :=
        @exists_part _ skipNL x t hne hps hx
      have hpos := List.length_pos_of_ne_nil hrun
      rw [List.length_append] at hfuel
      have hsegs' : ∀ seg' ∈ segs ++ [seg], seg'.Fixed :=
        List.forall_mem_append.2 ⟨hsegs, List.forall_mem_singleton.2 hfixed⟩
      obtain ⟨segs', hloop, hfixed', hvalue'⟩ := @ih tail (segs ++ [seg]) (by omega) hsegs'
        fun p hp => hps p (List.mem_append_right _ hp)
      refine ⟨seg :: segs', ?_, List.forall_mem_cons.2 ⟨hfixed, hfixed'⟩, ?_⟩
      · rw [htoken, parseCmdArgLoop]
        dsimp only
        rw [hkind, hseg segs hsegs]
        dsimp only [Bool.not_false, Bool.and_self, if_true]
        rw [hloop, List.append_assoc]
        rfl
      · rw [List.flatMap_cons, hvalue, hvalue', List.flatMap_append]

/-- The whole text is one argument, which stands for its pieces. -/
theorem parseCmdArg_pieces {x : Nat} {t : List Nat} (hne : ps ≠ []) (hps : ∀ p ∈ ps, p.Ok)
    (hx : x ∈ argEnds) : ∃ segs : List Segment,
      parseCmdArg skipNL (tokenAt skipNL (ps.flatMap Piece.text ++ x :: t)) =
        some (segs, tokenAt skipNL (x :: t)) ∧
      (∀ seg ∈ segs, seg.Fixed) ∧ segs.flatMap Segment.value = ps.flatMap Piece.value := by
  obtain ⟨run, tail, kind, seg, rfl, -, -, htoken, hseg, hfixed, hvalue⟩ :=
    @exists_part _ skipNL x t hne hps hx
  have htail : ∀ p ∈ tail, p.Ok := fun p hp => hps p (List.mem_append_right _ hp)
  have hlen : tail.length ≤ (tail.flatMap Piece.text).length := by
    have hpos : ∀ p ∈ tail, 1 ≤ p.text.length := fun p _ => by cases p <;> exact Nat.le_add_left 1 _
    clear htoken hseg htail hps hne
    induction tail with
    | nil => exact Nat.zero_le _
    | cons p tail ih =>
      obtain ⟨hp, htail⟩ := List.forall_mem_cons.1 hpos
      rw [List.flatMap_cons, List.length_append, List.length_cons]
      have := ih htail
      omega
  have hfuel : tail.length < (tail.flatMap Piece.text ++ x :: t).length + 2 := by
    rw [List.length_append]
    omega
  obtain ⟨segs, hloop, hsegs, hval⟩ :=
    @parseCmdArgLoop_pieces _ skipNL _ _ x t hfuel (List.forall_mem_singleton.2 hfixed) htail hx
  refine ⟨seg :: segs, ?_, List.forall_mem_cons.2 ⟨hfixed, hsegs⟩, ?_⟩
  · rw [htoken, parseCmdArg, hseg [] nofun]
    exact hloop
  · rw [List.flatMap_cons, hvalue, hval, List.flatMap_append]

/-- What is written for an argument is UTF-8 and read as one argument, up to what ends it, and the
argument stands for the bytes that were quoted. -/
theorem parseCmdArg_quoteAsCmdOrShellArg {ref : Bytes} {x : Nat} {rest : List Nat} (hne : ref ≠ [])
    (href : ∀ b ∈ ref, b < 256) (hx : x ∈ argEnds) : ∃ (cs : List Nat) (segs : List Segment),
      (∀ c ∈ cs, isValidCodePoint c = true) ∧
      encode cs = (quoteAsCmdOrShellArg ref false false).1 ∧
      parseCmdArg skipNL (tokenAt skipNL (cs ++ x :: rest)) =
        some (segs, tokenAt skipNL (x :: rest)) ∧
      (∀ seg ∈ segs, seg.Fixed) ∧ segs.flatMap Segment.value = ref := by
  obtain ⟨ps, hps, htext, hval⟩ :=
    @quoteLoop_pieces ref.length ref [] 0 (Nat.le_refl _) href
  have hnil : ps ≠ [] := by
    rintro rfl
    exact hne hval.symm
  obtain ⟨segs, hparse, hfixed, hvalue⟩ :=
    @parseCmdArg_pieces _ skipNL x rest hnil hps hx
  refine ⟨ps.flatMap Piece.text, segs, fun c hc => ?_, ?_, hparse, hfixed, hvalue.trans hval⟩
  · obtain ⟨p, hp, hc⟩ := List.mem_flatMap.1 hc
    exact Piece.valid (hps p hp) c hc
  · obtain ⟨b, ref, rfl⟩ := List.exists_cons_of_ne_nil hne
    exact htext.symm

/-- An argument with a control character, a byte that is no UTF-8 and special characters, before a
newline. -/
theorem parseCmdArg_quoteAsCmdOrShellArg_value : ∃ (cs : List Nat) (segs : List Segment),
    (∀ c ∈ cs, isValidCodePoint c = true) ∧
    encode cs = (quoteAsCmdOrShellArg [97, 61, 10, 0xFF, 32, 49] false false).1 ∧
    parseCmdArg false (tokenAt false (cs ++ [10, 0])) = some (segs, tokenAt false [10, 0]) ∧
    (∀ seg ∈ segs, seg.Fixed) ∧ segs.flatMap Segment.value = [97, 61, 10, 0xFF, 32, 49] :=
  parseCmdArg_quoteAsCmdOrShellArg (by decide) (by decide) (by decide)

end Arsh.Cmd
