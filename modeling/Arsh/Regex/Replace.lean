import Arsh.Regex.Global

/-!
# `replace`

A replacement is text with `$` patterns; `interpretReplacePattern` expands them for one match. The
output of a global `replace` is the text with an expansion for every visit of the repeated search,
so that a late match is expanded twice.
-/

namespace Arsh.Regex

open UnicodeUtil Machine GlobalSearch

/-! ## Expansion -/

/-- The bytes of an ASCII text. -/
def ascii (text : String) : List Nat := text.toList.map Char.toNat

/-- The capture groups of a regex: their number and their names. -/
structure Groups where
  captureGroupCount : Nat
  named : List NamedCaptureEntry
  find : List Nat → Option Nat

/-- A call of `replace`. -/
structure ReplaceParam where
  groups : Groups
  text : List Nat
  replacement : List Nat
  /-- Replace all matches. -/
  isGlobal : Bool
  /-- Whether the consumer takes a piece, after what it was given. -/
  consumer : List Nat → List Nat → Bool

namespace ReplaceParam

/-- `text.substr`. -/
def substr (param : ReplaceParam) (c : Capture) : List Nat :=
  slice param.text c.offset (c.offset + c.size)

/-- Give a piece to the consumer. -/
def consume (param : ReplaceParam) (out piece : List Nat) : Option (List Nat) :=
  if param.consumer out piece then some (out ++ piece) else none

def isDecimal (b : Nat) : Bool := decide (48 ≤ b) && decide (b ≤ 57)

/-- The number with some decimal digits. -/
def toNum10 (digits : List Nat) : Nat := digits.foldl (fun n b => 10 * n + (b - 48)) 0

/-- A capture that may not be set. -/
def inserting (param : ReplaceParam) (c : Capture) : List Nat :=
  if c.isUnset then [] else param.substr c

/-- What comes for a `$`, given what is behind it, and how many bytes that takes; or the text of an
error. -/
def pattern (param : ReplaceParam) (captures : Captures) :
    List Nat → Except (List Nat) (List Nat × Nat)
  | [] => .error (ascii "invalid replace pattern: `$'")
  | b :: rest =>
    match b with
    | 36 => .ok ([36], 1) -- `$$`
    | 38 => .ok (param.substr (captures 0), 1) -- `$&`
    | 96 => .ok (param.text.take (captures 0).offset, 1)
    | 39 => .ok (param.text.drop (captures 0).endOffset, 1)
    | 60 => -- `$<name>`
      let name := rest.takeWhile (· != 62)
      if name.length = rest.length then
        .error (ascii "replace pattern `$<' must end with `>'")
      else
        match param.groups.find name with
        | some i =>
          .ok (param.inserting (resolveBackRef param.groups.named captures i true), name.length + 2)
        | none => .error (ascii "undefined capture group name: `" ++ name ++ [39])
    | b =>
      if isDecimal b then
        let num := (b :: rest).takeWhile isDecimal
        let index := toNum10 num
        if index < 2 ^ 32 ∧ index ≤ param.groups.captureGroupCount ∧ 0 < index then
          .ok (param.inserting (captures index), num.length)
        else .error (ascii "undefined capture group index: `" ++ num ++ [39])
      else .error (ascii "invalid replace pattern: `$'")

/-- `interpretReplacePattern`, with what is left of the replacement. -/
def interpretReplacePattern (param : ReplaceParam) (captures : Captures) (rest out : List Nat) :
    GlobalResult Nat :=
  match param.consume out (rest.takeWhile (· != 36)) with
  | none => ⟨.consumedLimit, out, []⟩
  | some out =>
    match _h : rest.dropWhile (· != 36) with
    | [] => .ok out
    | _ :: after =>
      match param.pattern captures after with
      | .error err => ⟨.invalidReplacePattern, out, err⟩
      | .ok (piece, size) =>
        match param.consume out piece with
        | none => ⟨.consumedLimit, out, []⟩
        | some out => param.interpretReplacePattern captures (after.drop size) out
termination_by rest.length
decreasing_by
  have hle := (List.dropWhile_suffix (· != 36) (l := rest)).length_le
  rw [_h, List.length_cons] at hle
  rw [List.length_drop]
  omega

end ReplaceParam

open ReplaceParam

/-- The end of `replace`: the text from an offset on. -/
def ReplaceParam.finish (param : ReplaceParam) (iter : Nat) (out : List Nat) : GlobalResult Nat :=
  match param.consume out (param.text.drop iter) with
  | none => ⟨.consumedLimit, out, []⟩
  | some out => .ok out

/-- The loop of `replace`, in its `n`-th round. -/
def replaceLoop (matchAt : Nat → Nat → MatchResult) (param : ReplaceParam) :
    Nat → Nat → Nat → List Nat → Option (GlobalResult Nat)
  | 0, _, _, _ => none
  | fuel + 1, n, matchStartOffset, out =>
    let r := matchAt n matchStartOffset
    if r.status = .fail then some (param.finish matchStartOffset out)
    else if r.status ≠ .ok then some ⟨.matched r.status, out, []⟩
    else
      match param.consume out (slice param.text matchStartOffset (r.captures 0).offset) with
      | none => some ⟨.consumedLimit, out, []⟩
      | some out =>
        let e := param.interpretReplacePattern r.captures param.replacement out
        if e.status ≠ .matched .ok then some e
        else
          let iter := if notConsumed param.text matchStartOffset r.iter then
            (unsafeNextUtf8 param.text r.iter).2 else r.iter
          let skipped := if notConsumed param.text matchStartOffset r.iter then
            param.consume e.out (slice param.text matchStartOffset iter) else some e.out
          match skipped with
          | none => some ⟨.consumedLimit, e.out, []⟩
          | some out =>
            if param.isGlobal ∧ iter ≠ matchStartOffset then
              replaceLoop matchAt param fuel (n + 1) iter out
            else some (param.finish iter out)

def replace (matchAt : Nat → Nat → MatchResult) (param : ReplaceParam) :
    Option (GlobalResult Nat) :=
  match tryToCreateMatchContext param.text 0 with
  | .error status => some ⟨status, [], []⟩
  | .ok input => replaceLoop matchAt param (param.text.length + 1) 0 input.iter []

/-! ## The text with its matches replaced -/

/-- The same call, with a consumer that takes everything. -/
def ReplaceParam.accepting (param : ReplaceParam) : ReplaceParam :=
  { param with consumer := fun _ _ => true }

/-- What the replacement is for a match. -/
def ReplaceParam.expansion (param : ReplaceParam) (captures : Captures) : List Nat :=
  (param.accepting.interpretReplacePattern captures param.replacement []).out

/-- The text from an offset on, with other text in place of some of its spans. -/
def splice (text : List Nat) : Nat → List (Nat × Nat × List Nat) → List Nat
  | i, [] => text.drop i
  | i, (start, stop, e) :: ms => slice text i start ++ e ++ splice text stop ms

/-- A match with its replacement. -/
def ReplaceParam.spanOf (param : ReplaceParam) (cs : List Nat)
    (q : Nat × GlobalSearch.Hit Captures) :
    Nat × Nat × List Nat :=
  (off cs q.2.start, off cs q.2.stop, param.expansion q.2.value)

section
variable {text : List Nat} {i j : Nat} {ms : List (Nat × Nat × List Nat)}

/-- What is in front of the first span can be taken off. -/
theorem slice_append_splice (hij : i ≤ j) (hms : ∀ m ∈ ms, j ≤ m.1) :
    slice text i j ++ splice text j ms = splice text i ms := by
  cases ms with
  | nil => exact slice_append_drop text hij
  | cons m ms =>
    obtain ⟨start, stop, e⟩ := m
    have hle : j ≤ start := hms _ List.mem_cons_self
    simp only [splice]
    rw [← List.append_assoc, ← List.append_assoc, slice_append text hij hle]

/-- Spans that are replaced by themselves. -/
theorem splice_self (hms : ∀ m ∈ ms, m.1 ≤ m.2.1 ∧ m.2.2 = slice text m.1 m.2.1)
    (hi : ∀ m ∈ ms, i ≤ m.1) (hord : ms.Pairwise fun m m' => m.2.1 ≤ m'.1) :
    splice text i ms = text.drop i := by
  induction ms generalizing i with
  | nil => rfl
  | cons m ms ih =>
    obtain ⟨start, stop, e⟩ := m
    obtain ⟨⟨hle, he⟩, hms⟩ := List.forall_mem_cons.1 hms
    obtain ⟨hfirst, hord⟩ := List.pairwise_cons.1 hord
    have hstart : i ≤ start := hi _ List.mem_cons_self
    change start ≤ stop at hle
    change e = slice text start stop at he
    simp only [splice]
    rw [ih hms hfirst hord, he, slice_append text hstart hle,
      slice_append_drop text (Nat.le_trans hstart hle)]

end

/-! ## Interpreting a replacement -/

namespace ReplaceParam

section
variable {param : ReplaceParam} {captures : Captures}

theorem consume_some {out piece out' : List Nat} (h : param.consume out piece = some out') :
    out' = out ++ piece := by
  unfold consume at h
  split at h
  · exact (Option.some.inj h).symm
  · cases h

theorem consume_accepting (out piece : List Nat) :
    param.accepting.consume out piece = some (out ++ piece) := rfl

theorem interpret_nil {rest out : List Nat} (h : rest.dropWhile (· != 36) = []) :
    param.interpretReplacePattern captures rest out =
      match param.consume out (rest.takeWhile (· != 36)) with
      | none => ⟨.consumedLimit, out, []⟩
      | some out => .ok out := by
  rw [interpretReplacePattern]
  cases param.consume out (rest.takeWhile (· != 36)) with
  | none => rfl
  | some out =>
    dsimp only
    split
    · rfl
    · next h' =>
      rw [h] at h'
      cases h'

theorem interpret_cons {b : Nat} {rest after out : List Nat}
    (h : rest.dropWhile (· != 36) = b :: after) :
    param.interpretReplacePattern captures rest out =
      match param.consume out (rest.takeWhile (· != 36)) with
      | none => ⟨.consumedLimit, out, []⟩
      | some out =>
        match param.pattern captures after with
        | .error err => ⟨.invalidReplacePattern, out, err⟩
        | .ok (piece, size) =>
          match param.consume out piece with
          | none => ⟨.consumedLimit, out, []⟩
          | some out => param.interpretReplacePattern captures (after.drop size) out := by
  rw [interpretReplacePattern]
  cases param.consume out (rest.takeWhile (· != 36)) with
  | none => rfl
  | some out =>
    dsimp only
    split
    · next h' =>
      rw [h] at h'
      cases h'
    · next h' =>
      rw [h] at h'
      cases h'
      rfl

/-- Without an error the consumer is given what a consumer that takes everything is given. -/
theorem interpret_ok (rest : List Nat) : ∀ out,
    (param.interpretReplacePattern captures rest out).status = .matched .ok →
    ∃ e, (param.interpretReplacePattern captures rest out).out = out ++ e ∧
      ∀ out', param.accepting.interpretReplacePattern captures rest out' = .ok (out' ++ e) := by
  induction hn : rest.length using Nat.strongRecOn generalizing rest with
  | ind n ih =>
    intro out hok
    cases hrest : rest.dropWhile (· != 36) with
    | nil =>
      rw [interpret_nil hrest] at hok ⊢
      refine ⟨rest.takeWhile (· != 36), ?_, fun out' => interpret_nil hrest⟩
      cases hsub : param.consume out (rest.takeWhile (· != 36)) with
      | none =>
        rw [hsub] at hok
        cases hok
      | some out₁ => exact consume_some hsub
    | cons b after =>
      rw [interpret_cons hrest] at hok ⊢
      cases hsub : param.consume out (rest.takeWhile (· != 36)) with
      | none =>
        rw [hsub] at hok
        cases hok
      | some out₁ =>
        rw [hsub] at hok
        dsimp only at hok ⊢
        cases hpat : param.pattern captures after with
        | error err =>
          rw [hpat] at hok
          cases hok
        | ok piece =>
          obtain ⟨piece, size⟩ := piece
          rw [hpat] at hok
          dsimp only at hok ⊢
          cases hpiece : param.consume out₁ piece with
          | none =>
            rw [hpiece] at hok
            cases hok
          | some out₂ =>
            rw [hpiece] at hok
            dsimp only at hok ⊢
            have hle := (List.dropWhile_suffix (· != 36) (l := rest)).length_le
            rw [hrest, List.length_cons] at hle
            obtain ⟨e, hout, hacc⟩ := ih (after.drop size).length
              (by rw [List.length_drop]; omega) (after.drop size) rfl out₂ hok
            refine ⟨rest.takeWhile (· != 36) ++ (piece ++ e), ?_, fun out' => ?_⟩
            · rw [hout, consume_some hpiece, consume_some hsub]
              simp only [List.append_assoc]
            · have hpat' : param.accepting.pattern captures after = .ok (piece, size) := hpat
              rw [interpret_cons hrest]
              simp only [consume_accepting, hpat']
              rw [hacc]
              simp only [List.append_assoc]

/-- What an expansion adds to the output. -/
theorem interpret_expansion {out : List Nat}
    (h : (param.interpretReplacePattern captures param.replacement out).status = .matched .ok) :
    (param.interpretReplacePattern captures param.replacement out).out =
      out ++ param.expansion captures := by
  obtain ⟨e, hout, hacc⟩ := interpret_ok param.replacement out h
  rw [hout, expansion, hacc []]
  rfl

/-- The replacement that stands for the match itself. -/
def isMatch (param : ReplaceParam) : Prop := param.replacement = ascii "$&"

theorem expansion_isMatch (h : param.isMatch) :
    param.expansion captures = param.substr (captures 0) := by
  have hpat : param.accepting.pattern captures [38] = .ok (param.substr (captures 0), 1) := rfl
  have hrep : param.replacement = [36, 38] := h
  have hrest : [36, 38].dropWhile (· != 36) = [36, 38] := rfl
  rw [expansion, hrep, interpret_cons hrest]
  simp only [consume_accepting, hpat]
  rw [interpret_nil rfl]
  simp only [consume_accepting]
  exact List.append_nil _

end

end ReplaceParam

/-! ## The loop -/

section
variable {S : Subject} {p : Node} {cs : List Nat} {matchAt : Nat → Nat → MatchResult}
  {param : ReplaceParam}

/-- The rest of the output, for the visits from the `k`-th character on. -/
def replaced (S : Subject) (p : Node) (cs : List Nat) (param : ReplaceParam) (fuel k : Nat) :
    List Nat :=
  splice (encode cs) (off cs k)
    ((visits (firstMatch S p cs) cs.length fuel k).map (param.spanOf cs))

/-- A character that is skipped and what follows. -/
theorem slice_append_replaced (hcs : CodePoints cs) {fuel k : Nat} (hk : k < cs.length) :
    slice (encode cs) (off cs k) (off cs (k + 1)) ++ replaced S p cs param fuel (k + 1) =
      splice (encode cs) (off cs k)
        ((visits (firstMatch S p cs) cs.length fuel (k + 1)).map (param.spanOf cs)) := by
  apply slice_append_splice (off_le hcs (Nat.le_succ k) hk)
  intro m hm
  obtain ⟨q, hq, rfl⟩ := List.mem_map.1 hm
  obtain ⟨hle, hlt, hn⟩ := lawful_firstMatch.mem_visits hk hq
  exact off_le hcs hle (by omega)

theorem finish_ok {iter : Nat} {out : List Nat}
    (h : (param.finish iter out).status = .matched .ok) :
    (param.finish iter out).out = out ++ param.text.drop iter := by
  unfold ReplaceParam.finish at h ⊢
  cases hc : param.consume out (param.text.drop iter) with
  | none =>
    rw [hc] at h
    cases h
  | some out' => exact consume_some hc

theorem replaced_none {fuel k : Nat} (h : firstMatch S p cs k = none) :
    replaced S p cs param fuel k = (encode cs).drop (off cs k) := by
  rw [replaced, visits_none h]
  rfl

section
variable {h : GlobalSearch.Hit Captures} {fuel k : Nat}

/-- A match that stays where the search started, and the character behind it. -/
theorem replaced_stay (hcs : CodePoints cs) (hh : firstMatch S p cs k = some h) (hstay : h.stop = k)
    (hend : k < cs.length) :
    replaced S p cs param (fuel + 1) k = slice (encode cs) (off cs k) (off cs h.start) ++
      param.expansion h.value ++ (slice (encode cs) (off cs k) (off cs (k + 1)) ++
        replaced S p cs param fuel (k + 1)) := by
  rw [slice_append_replaced hcs hend, replaced, visits_stay hh hstay, if_pos hend, List.map_cons]
  simp only [ReplaceParam.spanOf, splice, hstay]

theorem replaced_end (hh : firstMatch S p cs k = some h) (hstay : h.stop = k)
    (hend : ¬ k < cs.length) :
    replaced S p cs param (fuel + 1) k = slice (encode cs) (off cs k) (off cs h.start) ++
      param.expansion h.value ++ (encode cs).drop (off cs k) := by
  rw [replaced, visits_stay hh hstay, if_neg hend, List.map_cons]
  simp only [ReplaceParam.spanOf, List.map_nil, splice, hstay]

theorem replaced_stop (hh : firstMatch S p cs k = some h) (hne : h.stop ≠ k) :
    replaced S p cs param (fuel + 1) k = slice (encode cs) (off cs k) (off cs h.start) ++
      param.expansion h.value ++ replaced S p cs param fuel h.stop := by
  rw [replaced, visits_stop hh hne, List.map_cons]
  rfl

end

/-- The loop ends, and without an error its output is the text with the visits replaced. -/
theorem replaceLoop_ok (hcs : CodePoints cs) (htext : param.text = encode cs)
    (hg : param.isGlobal = true) (ha : Answers S p cs matchAt) (fuel : Nat) :
    ∀ n k out, k ≤ cs.length → cs.length - k < fuel →
      ∃ r, replaceLoop matchAt param fuel n (off cs k) out = some r ∧
        (r.status = .matched .ok → r.out = out ++ replaced S p cs param fuel k) := by
  induction fuel with
  | zero =>
    intro n k out _ h
    omega
  | succ fuel ih =>
    intro n k out hk hf
    rw [replaceLoop]
    rcases ha n k hk with hl | ⟨h, hh, hr⟩ | ⟨hnone, hs⟩
    · have hne : (matchAt n (off cs k)).status ≠ .fail ∧ (matchAt n (off cs k)).status ≠ .ok := by
        rcases hl with h | h | h <;> rw [h] <;> exact ⟨nofun, nofun⟩
      simp only [hne.1, if_false, ne_eq, hne.2, not_false_eq_true, if_true]
      exact ⟨_, rfl, fun h => absurd (GlobalStatus.matched.inj h) hne.2⟩
    · obtain ⟨hle, hlt, hstop⟩ := lawful_firstMatch.le hk hh
      obtain ⟨-, hn, hat, -⟩ := firstMatch_spec hh
      have hzero : (h.value 0).offset = off cs h.start := by
        rw [(hitAt_spec hat hn).2.2.2]
      have hiff := notConsumed_off hcs hk hstop
      simp only [hr, reduceCtorEq, if_false, ne_eq, not_true_eq_false, hzero, htext]
      cases hgap : param.consume out (slice (encode cs) (off cs k) (off cs h.start)) with
      | none => exact ⟨_, rfl, nofun⟩
      | some out₁ =>
        dsimp only
        by_cases hok : (param.interpretReplacePattern h.value param.replacement out₁).status =
            .matched .ok
        · have hexp := interpret_expansion hok
          rw [if_neg (not_not_intro hok)]
          generalize param.interpretReplacePattern h.value param.replacement out₁ = e at hexp
          rw [consume_some hgap] at hexp
          by_cases hstay : h.stop = k
          · by_cases hend : k < cs.length
            · have hcond := hiff.2 ⟨hstay, hend⟩
              have hmove : off cs (k + 1) ≠ off cs k := fun h => by
                have := (off_inj hcs (by omega) hk).1 h
                omega
              simp only [if_pos hcond]
              rw [hstay, unsafeNextUtf8_off hcs hend, replaced_stay hcs hh hstay hend]
              dsimp only
              cases hskip : param.consume e.out (slice (encode cs) (off cs k) (off cs (k + 1))) with
              | none => exact ⟨_, rfl, nofun⟩
              | some out₂ =>
                dsimp only
                rw [if_pos ⟨hg, hmove⟩]
                obtain ⟨r, hr, hok⟩ := ih (n + 1) (k + 1) out₂ (by omega) (by omega)
                refine ⟨r, hr, fun hs => ?_⟩
                rw [hok hs, consume_some hskip, hexp]
                simp only [List.append_assoc]
            · have hcond : ¬ notConsumed (encode cs) (off cs k) (off cs h.stop) = true :=
                fun h => hend (hiff.1 h).2
              simp only [if_neg hcond]
              rw [if_neg fun h => h.2 (by rw [hstay]), replaced_end hh hstay hend, hstay]
              refine ⟨_, rfl, fun hs => ?_⟩
              rw [finish_ok hs, hexp, htext]
              simp only [List.append_assoc]
          · have hcond : ¬ notConsumed (encode cs) (off cs k) (off cs h.stop) = true :=
              fun h => hstay (hiff.1 h).1
            have hmove : off cs h.stop ≠ off cs k := fun h => hstay ((off_inj hcs hstop hk).1 h)
            simp only [if_neg hcond]
            rw [if_pos ⟨hg, hmove⟩, replaced_stop hh hstay]
            obtain ⟨r, hr, hok⟩ := ih (n + 1) h.stop e.out hstop (by omega)
            refine ⟨r, hr, fun hs => ?_⟩
            rw [hok hs, hexp]
            simp only [List.append_assoc]
        · rw [if_pos hok]
          exact ⟨_, rfl, fun h => absurd h hok⟩
    · simp only [hs, if_true]
      refine ⟨_, rfl, fun hs => ?_⟩
      rw [finish_ok hs, replaced_none hnone, htext]

end

/-! ## The sequence -/

/-- Late matches twice make the text longer, unless nothing comes for them. -/
theorem splice_twice (param : ReplaceParam) (cs text : List Nat)
    (ps : List (Nat × GlobalSearch.Hit Captures)) :
    ∀ i, (splice text i (ps.map (param.spanOf cs))).length ≤
        (splice text i ((ps.flatMap twice).map (param.spanOf cs))).length ∧
      ((splice text i ((ps.flatMap twice).map (param.spanOf cs))).length =
          (splice text i (ps.map (param.spanOf cs))).length →
        ∀ q ∈ ps, Late q → param.expansion q.2.value = []) ∧
      ((∀ q ∈ ps, Late q → param.expansion q.2.value = []) →
        splice text i ((ps.flatMap twice).map (param.spanOf cs)) =
          splice text i (ps.map (param.spanOf cs))) := by
  induction ps with
  | nil => exact fun i => ⟨Nat.le_refl _, fun _ => nofun, fun _ => rfl⟩
  | cons q ps ih =>
    intro i
    obtain ⟨hle, heq, hnone⟩ := ih (off cs q.2.stop)
    by_cases hlate : Late q
    · have hself : slice text (off cs q.2.stop) (off cs q.2.start) = [] := by
        rw [hlate.1]
        exact slice_self text _
      rw [List.flatMap_cons, twice, if_pos hlate]
      simp only [List.cons_append, List.nil_append, List.map_cons, ReplaceParam.spanOf, splice,
        hself, List.length_append]
      refine ⟨by omega, fun h => ?_, fun h => ?_⟩
      · refine List.forall_mem_cons.2 ⟨fun _ => List.length_eq_zero_iff.1 (by omega), ?_⟩
        exact heq (by omega)
      · obtain ⟨hq, hps⟩ := List.forall_mem_cons.1 h
        rw [hq hlate]
        simp only [List.append_nil, List.nil_append]
        exact congrArg _ (hnone hps)
    · rw [List.flatMap_cons, twice, if_neg hlate]
      simp only [List.cons_append, List.nil_append, List.map_cons, ReplaceParam.spanOf, splice,
        List.length_append]
      refine ⟨by omega, fun h => ?_, fun h => ?_⟩
      · exact List.forall_mem_cons.2 ⟨fun h => absurd h hlate, heq (by omega)⟩
      · exact congrArg _ (hnone (List.forall_mem_cons.1 h).2)

/-- A match that stands for itself gives the text back. -/
theorem splice_isMatch {S : Subject} {p : Node} {cs : List Nat} {param : ReplaceParam}
    (hcs : CodePoints cs) (htext : param.text = encode cs) (hmatch : param.isMatch) :
    splice (encode cs) 0 ((globalMatches S p cs 0).map (param.spanOf cs)) = encode cs := by
  have hspec : ∀ q ∈ globalMatches S p cs 0, q.2.start ≤ q.2.stop ∧ q.2.stop ≤ cs.length ∧
      q.2.value 0 = ⟨off cs q.2.start, off cs q.2.stop - off cs q.2.start⟩ := by
    intro q hq
    obtain ⟨-, -, hq⟩ := lawful_firstMatch.mem_sequence hq
    obtain ⟨-, hn, hat, -⟩ := firstMatch_spec hq
    exact (hitAt_spec hat hn).2
  refine (splice_self ?_ (fun _ _ => Nat.zero_le _) ?_).trans (List.drop_zero)
  · intro m hm
    obtain ⟨q, hq, rfl⟩ := List.mem_map.1 hm
    obtain ⟨hle, hstop, hzero⟩ := hspec q hq
    have hoff := off_le hcs hle hstop
    refine ⟨hoff, ?_⟩
    simp only [ReplaceParam.spanOf]
    rw [expansion_isMatch hmatch, hzero, substr, htext]
    simp only [Nat.add_sub_cancel' hoff]
  · refine List.pairwise_map.2 (lawful_firstMatch.sequence_pairwise.imp_of_mem ?_)
    intro a b ha hb hab
    obtain ⟨hle, hstop, -⟩ := hspec b hb
    exact off_le hcs hab.2 (by omega)

/-- `replace` ends. Without an error the output of a global `replace` is the text with every match of
the ECMAScript global match sequence replaced exactly if nothing comes for its late matches; this
includes the replacement `$&`, which gives the text back. -/
theorem replace_eq_iff {E : Env} {p : Node} {matchAt : Nat → Nat → MatchResult}
    {param : ReplaceParam} (hT : E.tables.Ok) (hw : p.wf true = true)
    (hc : CodeGen.compile E.tables E.regex.named p = some E.regex) (hm : Calls E matchAt)
    (htext : param.text = E.bytes) (hg : param.isGlobal = true) :
    ∃ r, replace matchAt param = some r ∧
      (r.status = .matched .ok → ∃ cs, CodePoints cs ∧ E.bytes = encode cs ∧
        (r.out = splice E.bytes 0 ((globalMatches E.subject p cs 0).map (param.spanOf cs)) ∧
            (param.isMatch → r.out = E.bytes) ↔
          ∀ q ∈ globalMatches E.subject p cs 0, Late q → param.expansion q.2.value = [])) := by
  unfold replace tryToCreateMatchContext
  rw [htext]
  cases hin : Input.create E.bytes 0 with
  | error e =>
    cases e with
    | tooLarge => exact ⟨_, rfl, nofun⟩
    | invalidUtf8 => exact ⟨_, rfl, nofun⟩
  | ok input =>
    obtain ⟨cs, hcs, hb, hlen, rfl⟩ := Input.create_ok hin
    have hlt : (encode cs).length < 2 ^ 32 := by
      rw [← hb]
      exact Nat.lt_of_le_of_lt hlen (by decide)
    have h : Compiled E cs p := ⟨hcs, hb, hlt, hw, p.supported hT hcs hb true, hc⟩
    have hsize := length_le_encode hcs
    rw [hb] at htext ⊢
    obtain ⟨r, hr, hok⟩ := replaceLoop_ok hcs htext hg (hm.answers h hT)
      ((encode cs).length + 1) 0 0 [] (Nat.zero_le _) (by omega)
    rw [off_zero] at hr
    refine ⟨r, ?_, fun hs => ⟨cs, hcs, rfl, ?_⟩⟩
    · rw [Nat.zero_min, off_zero]
      exact hr
    · have hvisits : visits (firstMatch E.subject p cs) cs.length ((encode cs).length + 1) 0 =
          (globalMatches E.subject p cs 0).flatMap twice :=
        lawful_firstMatch.visits_eq (Nat.zero_le _) (by omega) (by omega)
      obtain ⟨-, hlength, hnone⟩ :=
        splice_twice param cs (encode cs) (globalMatches E.subject p cs 0)
        0
      rw [hok hs, List.nil_append, replaced, hvisits, off_zero]
      constructor
      · exact fun h => hlength (congrArg List.length h.1)
      · intro h
        have heq := hnone h
        exact ⟨heq, fun hmatch => heq.trans (splice_isMatch hcs htext hmatch)⟩

/-- A global call for a regex without groups, with a consumer that takes everything. -/
def ReplaceParam.simple (text replacement : List Nat) : ReplaceParam where
  groups := ⟨0, [], fun _ => none⟩
  text := text
  replacement := replacement
  isGlobal := true
  consumer _ _ := true

theorem replace_eq_iff_sample :
    ∃ r, replace (runMatch (.ascii .sample [99, 97, 97, 98] true) 100)
        (.simple [99, 97, 97, 98] (ascii "<$&>")) = some r ∧
      (r.status = .matched .ok → ∃ cs, CodePoints cs ∧ [99, 97, 97, 98] = encode cs ∧
        (r.out = splice [99, 97, 97, 98] 0
            ((globalMatches (Env.ascii .sample [99, 97, 97, 98] true).subject .sample cs 0).map
              ((ReplaceParam.simple [99, 97, 97, 98] (ascii "<$&>")).spanOf cs)) ∧
            ((ReplaceParam.simple [99, 97, 97, 98] (ascii "<$&>")).isMatch →
              r.out = [99, 97, 97, 98]) ↔
          ∀ q ∈ globalMatches (Env.ascii .sample [99, 97, 97, 98] true).subject .sample cs 0,
            Late q →
              (ReplaceParam.simple [99, 97, 97, 98] (ascii "<$&>")).expansion q.2.value = [])) :=
  @replace_eq_iff (.ascii .sample [99, 97, 97, 98] true) .sample _ _ Tables.ascii_ok (by decide) rfl
    (calls_runMatch rfl) rfl rfl

/-- `(?=a)` in the text `ba`, replaced by a hyphen: the output is `b--a`, where the sequence has one
match. -/
theorem replace_late :
    Calls (.ascii .ahead [98, 97] true) (runMatch (.ascii .ahead [98, 97] true) 50) ∧
      ∃ r, replace (runMatch (.ascii .ahead [98, 97] true) 50) (.simple [98, 97] (ascii "-")) =
          some r ∧ r.status = .matched .ok ∧ r.out = ascii "b--a" ∧
        splice [98, 97] 0 ((globalMatches (Env.ascii .ahead [98, 97] true).subject .ahead
          [98, 97] 0).map ((ReplaceParam.simple [98, 97] (ascii "-")).spanOf [98, 97])) =
            ascii "b-a" := by
  have hexp : ∀ c out, (ReplaceParam.simple [98, 97] (ascii "-")).interpretReplacePattern c
      (ReplaceParam.simple [98, 97] (ascii "-")).replacement out = .ok (out ++ [45]) :=
    fun c out => interpret_nil rfl
  have hacc : ∀ c, (ReplaceParam.simple [98, 97] (ascii "-")).expansion c = [45] := fun c =>
    congrArg GlobalResult.out (hexp c [])
  refine ⟨calls_runMatch rfl, .ok (ascii "b--a"), ?_, rfl, rfl, ?_⟩
  · have hctx : tryToCreateMatchContext (ReplaceParam.simple [98, 97] (ascii "-")).text 0 =
        .ok ⟨[98, 97], 0⟩ := rfl
    simp only [replace, hctx, replaceLoop, hexp]
    decide +kernel
  · have hseq : globalMatches (Env.ascii .ahead [98, 97] true).subject .ahead [98, 97] 0 =
        [(0, ⟨1, 1, Function.update (fun _ => .unset) 0 ⟨1, 0⟩⟩)] := rfl
    rw [hseq, List.map_singleton, ReplaceParam.spanOf, hacc]
    rfl

end Arsh.Regex
