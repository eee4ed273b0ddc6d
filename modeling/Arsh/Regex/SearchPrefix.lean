import Arsh.Regex.Match

/-!
# The prefilter is an optimisation

With the prefilter `match` skips start positions: those before the next occurrence of the character
or string the code begins with, or before the next byte that can begin a match. None of them has a
match, so the run ends as it does without the prefilter.
-/

namespace Arsh.Regex

open UnicodeUtil Machine

/-! ## Searching bytes -/

theorem findBytes_some {needle bs : List Nat} {pos : Nat} (h : findBytes needle bs = some pos) :
    needle <+: bs.drop pos ∧ ∀ j < pos, ¬ needle <+: bs.drop j := by
  induction bs generalizing pos with
  | nil =>
    rw [findBytes] at h
    split at h
    · next he =>
      cases h
      rw [List.isEmpty_iff.1 he]
      exact ⟨List.nil_prefix, fun j hj => absurd hj (Nat.not_lt_zero j)⟩
    · cases h
  | cons b bs ih =>
    rw [findBytes] at h
    split at h
    · next hp =>
      cases h
      exact ⟨List.isPrefixOf_iff_prefix.1 hp, fun j hj => absurd hj (Nat.not_lt_zero j)⟩
    · next hp =>
      obtain ⟨pos', hpos, rfl⟩ := Option.map_eq_some_iff.1 h
      obtain ⟨h₁, h₂⟩ := ih hpos
      refine ⟨h₁, fun j hj => ?_⟩
      cases j with
      | zero => exact fun hj' => hp (List.isPrefixOf_iff_prefix.2 hj')
      | succ j => exact h₂ j (Nat.lt_of_succ_lt_succ hj)

theorem findBytes_none {needle bs : List Nat} (h : findBytes needle bs = none) (j : Nat) :
    ¬ needle <+: bs.drop j := by
  induction bs generalizing j with
  | nil =>
    rw [findBytes] at h
    split at h
    · cases h
    · next he =>
      rw [List.drop_nil, List.prefix_nil]
      exact fun e => he (List.isEmpty_iff.2 e)
  | cons b bs ih =>
    rw [findBytes] at h
    split at h
    · cases h
    · next hp =>
      cases j with
      | zero => exact fun hj => hp (List.isPrefixOf_iff_prefix.2 hj)
      | succ j => exact ih (Option.map_eq_none_iff.1 h) j

theorem takeWhile_skips {f : Nat → Bool} {xs : List Nat} {j b : Nat}
    (hj : j < (xs.takeWhile f).length) (hb : xs[j]? = some b) : f b = true := by
  have hlt : j < xs.length := (List.getElem?_eq_some_iff.1 hb).1
  have hget : (xs.takeWhile f)[j] = xs[j] := (List.takeWhile_prefix f).getElem hj
  rw [List.getElem?_eq_getElem hlt, ← hget] at hb
  exact List.all_eq_true.1 (List.all_takeWhile) b (Option.some.inj hb ▸ List.getElem_mem hj)

theorem takeWhile_stops {f : Nat → Bool} {xs : List Nat}
    (h : (xs.takeWhile f).length < xs.length) :
    ∃ b, xs[(xs.takeWhile f).length]? = some b ∧ f b = false := by
  induction xs with
  | nil => cases h
  | cons x xs ih =>
    cases hx : f x with
    | false => exact ⟨x, by simp [hx], hx⟩
    | true =>
      rw [List.takeWhile_cons_of_pos hx] at h ⊢
      exact ih (Nat.lt_of_succ_lt_succ h)

/-! ## The first instruction -/

/-- An instruction that `searchPrefix` searches for stands for a text. -/
def Inst.Needle (re : CompiledRegex) : Inst → Prop
  | .char c => c ≤ codePointMax
  | .string index => ∃ xs, xs ≠ [] ∧ CodePoints xs ∧ (re.matcher index).asStrRef = encode xs
  | _ => True

section
variable {re : CompiledRegex} {ms ms' : List Matcher} {code : List Inst} {a : Nat} {ins : Inst}

theorem needle_chars {xs : List Nat} (hxs : CodePoints xs)
    (hg : CodeGen.generateChars true ms xs = some (code, ms')) (hms : ms' <+: re.matchers)
    (hi : code.head? = some ins) : ins.Needle re := by
  unfold CodeGen.generateChars at hg
  split at hg
  · cases hg
    cases hi
  · cases hg
    cases hi
    exact hxs.cons.1
  · next hne _ =>
    simp only [Option.bind_eq_bind, Option.bind_eq_some_iff] at hg
    obtain ⟨⟨index, ms₁⟩, hem, hg⟩ := hg
    cases hg
    cases hi
    exact ⟨xs, hne, hxs, by rw [emitMatcher_some hem hms]; rfl⟩

theorem needle_seq {ps : List Node}
    (ih : ∀ p ∈ ps, ∀ {a : Nat} {ms ms' : List Matcher} {code : List Inst}, p.wf true = true →
      CodeGen.generate true a ms p = some (code, ms') → ms' <+: re.matchers →
      code.head? = some ins → ins.Needle re) :
    ∀ {pending : List Nat} {a : Nat} {ms ms' : List Matcher} {code : List Inst},
      CodePoints pending → (∀ p ∈ ps, p.wf true = true) →
      CodeGen.generateSeq a ms pending ps = some (code, ms') → ms' <+: re.matchers →
      code.head? = some ins → ins.Needle re := by
  induction ps with
  | nil => exact fun hpend _ hg hms hi => needle_chars hpend hg hms hi
  | cons p ps ihs =>
    intro pending a ms ms' code hpend hwf hg hms hi
    have hmem := fun q (hq : q ∈ ps) => List.mem_cons_of_mem p hq
    have h0 : p ∈ p :: ps := List.mem_cons_self
    have ihs' := @ihs fun q hq => ih q (hmem q hq)
    have hwf' := fun q hq => hwf q (hmem q hq)
    unfold CodeGen.generateSeq at hg
    split at hg
    · next x hch =>
      obtain rfl := charNode_some hch
      have hcp : x ≤ codePointMax := by simpa [Node.wf] using hwf _ h0
      exact ihs' (CodePoints.append_singleton hpend hcp) hwf' hg hms hi
    · simp only [Option.bind_eq_bind, Option.bind_eq_some_iff] at hg
      obtain ⟨⟨chars, ms₁⟩, h₁, ⟨body, ms₂⟩, h₂, ⟨tail, ms₃⟩, h₃, hg⟩ := hg
      cases hg
      have hms₂ : ms₂ <+: re.matchers :=
        (generateSeq_extends (fun q _ => generate_extends q) h₃).trans hms
      have hms₁ : ms₁ <+: re.matchers := (generate_extends p h₂).trans hms₂
      -- the first part that has code
      cases chars with
      | cons x xs => exact needle_chars hpend h₁ hms₁ hi
      | nil =>
        cases body with
        | cons x xs => exact ih p h0 (hwf p h0) h₂ hms₂ hi
        | nil => exact ihs' codePoints_nil hwf' h₃ hms hi

theorem needle_head (p : Node) (hw : p.wf true = true)
    (hg : CodeGen.generate true a ms p = some (code, ms')) (hms : ms' <+: re.matchers)
    (hi : code.head? = some ins) : ins.Needle re := by
  induction p using Node.induct generalizing a ms ms' code with
  | empty =>
    cases hg
    cases hi
  | atom atom =>
    simp only [CodeGen.generate, Option.bind_eq_bind, Option.bind_eq_some_iff] at hg
    obtain ⟨⟨i, ms₁⟩, h₁, hg⟩ := hg
    cases hg
    cases hi
    cases atom with
    | any dotAll => cases dotAll <;> cases h₁ <;> trivial
    | char c =>
      cases h₁
      have : c ≤ codePointMax := by simpa [Node.wf] using hw
      exact this
    | foldChar c =>
      cases h₁
      trivial
    | charSet set invert ignoreCase =>
      simp only [CodeGen.generateAtom, Option.bind_eq_bind, Option.bind_eq_some_iff] at h₁
      obtain ⟨⟨index, ms₂⟩, -, h₁⟩ := h₁
      cases h₁
      cases ignoreCase <;> trivial
  | grapheme =>
    cases hg
    cases hi
    trivial
  | boundary b =>
    cases hg
    cases hi
    cases b with
    | start | stop => trivial
    | word ignoreCase | notWord ignoreCase => cases ignoreCase <;> trivial
  | backRef index named ignoreCase =>
    cases hg
    cases hi
    cases ignoreCase <;> trivial
  | repeated l first last min max greedy p ih =>
    simp only [CodeGen.generate, Option.bind_eq_bind, Option.bind_eq_some_iff] at hg
    obtain ⟨⟨body, ms₁⟩, h₁, hg⟩ := hg
    cases hg
    cases hi
    trivial
  | seq ps ih =>
    simp only [Node.wf, Bool.and_eq_true] at hw
    exact needle_seq (fun p hp _ _ _ _ hw hg hms hi => ih p hp hw hg hms hi) codePoints_nil
      (Node.wfList_mem.1 hw.1.1) hg hms hi
  | alt ps ih =>
    rcases ps with _ | ⟨p, _ | ⟨q, qs⟩⟩
    · simp [Node.wf] at hw
    · simp only [CodeGen.generate, Option.bind_eq_bind, Option.bind_eq_some_iff] at hg
      obtain ⟨⟨body, ms₁⟩, h₁, hg⟩ := hg
      cases hg
      cases hi
      trivial
    · simp only [CodeGen.generate, CodeGen.generateAlt, Option.bind_eq_bind,
        Option.bind_eq_some_iff] at hg
      obtain ⟨⟨body, ms₁⟩, h₁, ⟨rest, ms₂⟩, h₂, hg⟩ := hg
      cases hg
      cases hi
      trivial
  | lookAround _ _ p ih | group _ p ih =>
    simp only [CodeGen.generate, Option.bind_eq_bind, Option.bind_eq_some_iff] at hg
    obtain ⟨⟨body, ms₁⟩, h₁, hg⟩ := hg
    cases hg
    cases hi
    trivial
  | strSet s =>
    obtain ⟨i, chars, rfl, -⟩ := generateStrSet_code hg hms
    cases hi
    trivial

end

/-! ## Skipped positions -/

theorem collect_firstBitSet (T : Tables) (re : CompiledRegex) (set : List Nat) (fuel a stop : Nat) :
    collect T { re with firstBitSet := set } fuel a stop = collect T re fuel a stop := by
  induction fuel generalizing a stop with
  | zero => rfl
  | succ fuel ih =>
    rw [collect, collect]
    simp only [ih]
    rfl

section
variable {cap : Option Nat} {E : Env} {counted keep : Bool} {cs : List Nat} {p : Node} {k m : Nat}
  {s : State cap}

/-- Where the code is dead the attempt fails. -/
theorem Compiled.fails (h : Compiled E cs p) (hT : E.tables.Ok) (hm : m ≤ cs.length)
    (hd : DeadFrom E (off cs m) 0 E.regex.instSeq.length) : Fails E keep cs p m := by
  obtain ⟨code, ms, hgen, hcode, hseq, hms, -⟩ := CodeGen.compile_some h.compile
  have hdead : StaysDead E keep (off cs m) p := staysDead hT h.codePoints h.bytes hm p
  have hstay := hdead h.wf hgen hms hcode hd (fun _ => .unset) []
  rw [Nat.zero_add] at hstay
  have hend : ¬ DeadFrom E (off cs m) code.length E.regex.instSeq.length := by
    intro hd
    have hi : E.regex.instSeq[code.length]? = some .matchIns := by rw [hseq]; simp
    have hlen : E.regex.instSeq.length = code.length + 1 := by rw [hseq]; simp
    rw [hlen] at hd
    exact not_deadFrom_self (hd.ins hi)
  unfold Fails attempt
  cases hf : p.search false E.subject keep true (off cs m) (fun _ => .unset) [] with
  | fail c => rfl
  | found q c u next =>
    rw [hf] at hstay
    exact absurd hstay.2.1 hend

/-- The first bytes, when some are known. -/
theorem Compiled.firstBitSet (h : Compiled E cs p) (hne : E.regex.firstBitSet ≠ []) :
    collect E.tables E.regex (E.regex.instSeq.length + 1) 0 E.regex.instSeq.length =
      some E.regex.firstBitSet := by
  obtain ⟨-, -, -, -, -, -, hset⟩ := CodeGen.compile_some h.compile
  rw [hset, createFirstBitSet] at hne
  rw [hset, createFirstBitSet]
  simp only [collect_firstBitSet] at hne ⊢
  cases hc : collect E.tables E.regex (E.regex.instSeq.length + 1) 0 E.regex.instSeq.length with
  | none =>
    rw [hc] at hne
    exact absurd rfl hne
  | some bytes => rfl

/-! ## Looking for a start position -/

theorem Tries.after {t : State cap} (h : Tries E counted keep cs p k s) (hl : s.label = .dispatch)
    (hstep : stepWith keep E s = .inl t) : Tries E counted keep cs p k t := by
  unfold Tries at h ⊢
  split at h
  · apply Leads.after h hstep
    intro hq
    rw [hl] at hq
    exact absurd hq.1 (by decide)
  · rcases h with ⟨r, hr, hlim⟩ | ⟨j, hkj, hj, hq, hr⟩
    · exact .inl ⟨r, hr.after hstep, hlim⟩
    · exact .inr ⟨j, hkj, hj, hq, hr.after hstep⟩

/-- The state in which `match` goes on after `searchPrefix`. -/
def startState (r : Bool × State cap) : State cap :=
  if r.1 = true then { r.2 with label := .dispatch } else r.2.backtrack

/-- Code that begins with a text is tried at the next occurrence of the text. -/
theorem Compiled.seeks_needle (h : Compiled E cs p) (hT : E.tables.Ok)
    (hcap : counted = false → StackLimited cap) {xs : List Nat}
    (hxs : CodePoints xs) (hne : xs ≠ [])
    (hdead : ∀ q, expect E.bytes true q (encode xs) = none →
      DeadFrom E q 0 E.regex.instSeq.length)
    (hstep : ∀ (s : State cap) (i : Nat), s.label = .dispatch → s.inst = 0 → s.iter = off cs i →
      xs <+: cs.drop i →
      stepWith keep E s = .inl { s.next with iter := off cs i + (encode xs).length })
    (hk : k ≤ cs.length) (hs : Starts cs k s) :
    Seeks E counted keep cs p (Fails E keep cs p) k (startState (findNeedle E s (encode xs))) := by
  unfold findNeedle
  have hcs := h.codePoints
  -- a position without the text
  have hfail : ∀ j m, m ≤ cs.length → off cs m = off cs k + j →
      ¬ encode xs <+: (E.bytes.drop s.iter).drop j → Fails E keep cs p m := by
    intro j m hm hj hnot
    refine h.fails hT hm (hdead _ ?_)
    rw [List.drop_drop, hs.iter, ← hj] at hnot
    rw [expect, if_pos rfl, if_neg fun hp => hnot (List.isPrefixOf_iff_prefix.1 hp)]
  have hle : ∀ m, k ≤ m → m ≤ cs.length → off cs m = off cs k + (off cs m - off cs k) := by
    intro m hkm hm
    have := off_le hcs hkm hm
    omega
  cases hf : findBytes (encode xs) (E.bytes.drop s.iter) with
  | none =>
    refine .inr ⟨fun m hkm hm => ?_, rfl, hs.stack, ?_, hs.sound.captures (E := E)⟩
    · exact hfail _ m hm (hle m hkm hm) (findBytes_none hf _)
    · show E.bytes.length = _
      rw [off_length, h.bytes]
  | some pos =>
    obtain ⟨hpre, hbefore⟩ := findBytes_some hf
    rw [List.drop_drop, hs.iter, h.bytes] at hpre
    -- the text begins with a first byte
    obtain ⟨i, hi, hpos⟩ : ∃ i, i < cs.length ∧ off cs k + pos = off cs i := by
      cases xs with
      | nil => exact absurd rfl hne
      | cons x xs =>
        obtain ⟨b, bs, e, hb, -⟩ := codePointToUtf8_shape hxs.cons.1
        obtain ⟨t, ht⟩ := hpre
        rw [encode_cons, e] at ht
        have hget : (encode cs)[off cs k + pos]? = some b := by
          have : (encode cs)[off cs k + pos]? = ((encode cs).drop (off cs k + pos))[0]? := by simp
          rw [this, ← ht]
          rfl
        have hlt := (List.getElem?_eq_some_iff.1 hget).1
        apply exists_off_of_first hcs hlt
        rw [List.getD_eq_getElem?_getD, hget, Option.getD_some, hb]
        exact Nat.succ_ne_zero _
    have hki : k ≤ i := le_of_off_le hcs hk (by omega)
    refine .inl ⟨i, hki, Nat.le_of_lt hi, fun m hkm hm => ?_, ?_⟩
    · have hlt := off_lt hcs hm (Nat.le_of_lt hi)
      have hkm' := off_le hcs hkm (show m ≤ cs.length by omega)
      exact hfail _ m (by omega) (hle m hkm (by omega)) (hbefore _ (by omega))
    · have hdrop : xs <+: cs.drop i := by
        rw [hpos, encode_drop] at hpre
        exact (encode_prefix_iff hxs (hcs.drop i)).1 hpre
      let s' : State cap := { s with label := .dispatch, iter := off cs i, oldIter := off cs i }
      have htry : Tries E counted keep cs p i s' :=
        h.tries hcap (Nat.le_of_lt hi) rfl hs.inst rfl rfl hs.captures hs.stack
      have := htry.after rfl (hstep s' i rfl hs.inst rfl hdrop)
      simp only [startState, hs.iter, hpos]
      exact this

/-- With the set of first bytes the next one of them is tried. -/
theorem Compiled.seeks_first (h : Compiled E cs p) (hT : E.tables.Ok)
    (hcap : counted = false → StackLimited cap) (hk : k ≤ cs.length)
    (hs : Starts cs k s) : Seeks E counted keep cs p (Fails E keep cs p) k (startState (findFirstByte E s)) := by
  unfold findFirstByte
  split
  case isFalse =>
    exact .inl ⟨k, Nat.le_refl k, hk, fun m h₁ h₂ => by omega,
      h.tries hcap hk rfl hs.inst hs.iter hs.oldIter hs.captures hs.stack⟩
  case isTrue hne =>
  have hne : E.regex.firstBitSet ≠ [] := by simpa using hne
  simp only [startState, decide_eq_true_eq]
  generalize hskip : ((E.bytes.drop s.iter).takeWhile fun b =>
    !E.regex.firstBitSet.contains b) = skipped
  have hcs := h.codePoints
  have hcol := h.firstBitSet hne
  -- a position with a byte that has been skipped, or at the end
  have hfail : ∀ m, k ≤ m → m ≤ cs.length →
      (off cs m - off cs k < skipped.length ∨ off cs m = E.bytes.length) → Fails E keep cs p m := by
    intro m hkm hm hor
    refine h.fails hT hm ⟨_, dead_of_collect hcol fun b hb hmem => ?_⟩
    rcases hor with hlt | hend
    · have hkm' := off_le hcs hkm hm
      have hb' : (E.bytes.drop s.iter)[off cs m - off cs k]? = some b := by
        rw [List.getElem?_drop, hs.iter, Nat.add_sub_cancel' hkm', hb]
      have := takeWhile_skips (hskip.symm ▸ hlt) hb'
      rw [List.contains_eq_mem, decide_eq_true hmem] at this
      cases this
    · rw [hend, List.getElem?_eq_none (Nat.le_refl _)] at hb
      cases hb
  have hlen : (E.bytes.drop s.iter).length = E.bytes.length - off cs k := by
    rw [List.length_drop, hs.iter]
  split
  · next hlt =>
    obtain ⟨b, hb, hmem⟩ := takeWhile_stops (hskip.symm ▸ hlt :
      ((E.bytes.drop s.iter).takeWhile fun b => !E.regex.firstBitSet.contains b).length < _)
    rw [hskip, List.getElem?_drop, hs.iter, h.bytes] at hb
    have hmem' : b ∈ E.regex.firstBitSet := by simpa using hmem
    obtain ⟨i, hi, hpos⟩ : ∃ i, i < cs.length ∧ off cs k + skipped.length = off cs i := by
      refine exists_off_of_first hcs (List.getElem?_eq_some_iff.1 hb).1 ?_
      rw [List.getD_eq_getElem?_getD, hb]
      exact collect_first hcol b hmem'
    rw [hs.iter, hpos]
    refine .inl ⟨i, le_of_off_le hcs hk (by omega), Nat.le_of_lt hi, fun m hkm hm => ?_, ?_⟩
    · have := off_lt hcs hm (Nat.le_of_lt hi)
      have := off_le hcs hkm (show m ≤ cs.length by omega)
      exact hfail m hkm (by omega) (.inl (by omega))
    · exact h.tries hcap (Nat.le_of_lt hi) rfl hs.inst rfl rfl hs.captures hs.stack
  · next hge =>
    have hle : skipped.length ≤ (E.bytes.drop s.iter).length := by
      rw [← hskip]
      exact (List.takeWhile_prefix _).length_le
    have hend := off_length cs
    rw [← h.bytes] at hend
    have hk' := off_le hcs hk (Nat.le_refl _)
    refine .inr ⟨fun m hkm hm => hfail m hkm hm ?_, rfl, hs.stack, ?_, hs.sound.captures (E := E)⟩
    · have := off_le hcs hm (Nat.le_refl _)
      have := off_le hcs hkm hm
      omega
    · show s.iter + skipped.length = _
      rw [hs.iter]
      omega

/-- With the prefilter only positions without a match are skipped. -/
theorem Compiled.seeks_on (h : Compiled E cs p) (hT : E.tables.Ok)
    (hcap : counted = false → StackLimited cap) (hpre : E.prefilter = true) (hk : k ≤ cs.length) (hs : Starts cs k s) :
    ∃ t, stepWith keep E s = .inl t ∧ Seeks E counted keep cs p (Fails E keep cs p) k t := by
  obtain ⟨code, ms, hgen, hcode, hseq, hms, -⟩ := CodeGen.compile_some h.compile
  have hpos : (0 : Nat) ≠ E.regex.instSeq.length := by
    rw [hseq]
    simp
  have hstep : stepWith keep E s = .inl (startState (searchPrefix E s)) := by
    rw [stepWith, hs.label]
    simp only [hpre, if_true, startState]
    split <;> rfl
  refine ⟨_, hstep, ?_⟩
  -- the needle of the first instruction
  have hneedle : ∀ ins, E.regex.instSeq[0]? = some ins → ins.Needle E.regex := by
    intro ins hi
    cases code with
    | nil =>
      rw [hseq] at hi
      cases hi
      trivial
    | cons x xs =>
      rw [hseq] at hi
      exact needle_head p h.wf hgen hms hi
  unfold searchPrefix
  rw [hs.inst]
  split
  · next c hi =>
    have hc : CodePoints [c] := fun x hx => by
      rw [List.mem_singleton.1 hx]
      exact hneedle _ hi
    have henc : encode [c] = codePointToUtf8 c := by simp [encode]
    rw [← henc]
    refine h.seeks_needle hT hcap hc (List.cons_ne_nil _ _) (fun q hq => ⟨1, hpos, _, hi, .inr ?_⟩)
      (fun t i hl hin hp hx => ?_) hk hs
    · rwa [henc] at hq
    · have hlt : i < cs.length := by
        by_contra hge
        rw [List.drop_of_length_le (Nat.le_of_not_lt hge)] at hx
        cases List.prefix_nil.1 hx
      rw [List.drop_eq_getElem_cons hlt] at hx
      have hget := (List.cons_prefix_cons.1 hx).1
      rw [stepWith_dispatch hl (hin ▸ hi), dispatch, single, hp, h.bytes,
        consume_forward h.codePoints hlt, henc, hget, ← off_succ hlt]
      simp only [beq_self_eq_true, if_true]
      rfl
  · next index hi =>
    obtain ⟨xs, hne, hxs, hstr⟩ := hneedle _ hi
    rw [hstr]
    refine h.seeks_needle hT hcap hxs hne (fun q hq => ⟨1, hpos, _, hi, .inr ?_⟩)
      (fun t i hl hin hp hx => ?_) hk hs
    · rwa [hstr]
    · have hpre : (encode xs).isPrefixOf (E.bytes.drop (off cs i)) = true := by
        rw [h.bytes, encode_drop]
        exact List.isPrefixOf_iff_prefix.2 ((encode_prefix_iff hxs (h.codePoints.drop i)).2 hx)
      rw [stepWith_dispatch hl (hin ▸ hi), dispatch, stringIns, hp, hstr, expect, if_pos rfl,
        if_pos hpre]
      rfl
  · exact h.seeks_first hT hcap hk hs

end

/-! ## The same result -/

theorem Node.supported (p : Node) {S : Subject} {cs : List Nat} (hT : S.tables.Ok)
    (hcs : CodePoints cs) (hS : S.bytes = encode cs) (forward : Bool) : p.Supported S cs forward := by
  induction p using Node.induct generalizing forward with
  | grapheme => exact hT.grapheme
  | strSet s => exact s.ok hT hcs hS forward
  | empty | atom | boundary | backRef => trivial
  | repeated _ _ _ _ _ _ p ih => exact ih forward
  | seq ps ih | alt ps ih => exact Node.supportedList_mem.2 fun q hq => ih q hq forward
  | lookAround lookAhead _ p ih => exact ih lookAhead
  | group _ p ih => exact ih forward

/-- The same call of `match` with the prefilter on or off. -/
def Env.withPrefilter (E : Env) (prefilter : Bool) : Env := { E with prefilter := prefilter }

theorem Compiled.withPrefilter {E : Env} {p : Node} {cs : List Nat} (h : Compiled E cs p)
    (prefilter : Bool) : Compiled (E.withPrefilter prefilter) cs p :=
  ⟨h.codePoints, h.bytes, h.length, h.wf, h.supported, h.compile⟩

/-- With and without the prefilter only positions without a match are skipped. -/
theorem Compiled.seeks {cap : Option Nat} {E : Env} {p : Node} {cs : List Nat} {k : Nat}
    {counted keep : Bool} {s : State cap} (h : Compiled E cs p) (hT : E.tables.Ok)
    (hcap : counted = false → StackLimited cap) (hk : k ≤ cs.length) (hs : Starts cs k s) :
    ∃ t, stepWith keep E s = .inl t ∧ Seeks E counted keep cs p (Fails E keep cs p) k t := by
  cases hpre : E.prefilter with
  | false => exact h.seeks_off hcap hpre hk hs
  | true => exact h.seeks_on hT hcap hpre hk hs

theorem Compiled.outcome_withPrefilter {E : Env} {p : Node} {cs : List Nat} {k : Nat} {keep : Bool}
    (h : Compiled E cs p) (hT : E.tables.Ok) (hk : k ≤ cs.length) (prefilter : Bool) :
    (∃ r, Halts (stepWith keep (E.withPrefilter prefilter)) (.init (off cs k) : State) r ∧
        r.Limited) ∨
      (∃ i j c u next, k ≤ i ∧ i ≤ j ∧ j ≤ cs.length ∧
        attempt false E.subject keep p cs i = .found (off cs j) c u next ∧
        (∀ m, k ≤ m → m < i → Fails E keep cs p m) ∧
        Halts (stepWith keep (E.withPrefilter prefilter)) (.init (off cs k) : State)
          (.found cs i j c)) ∨
      (∀ m, k ≤ m → m ≤ cs.length → Fails E keep cs p m) ∧
        ∃ r, Halts (stepWith keep (E.withPrefilter prefilter)) (.init (off cs k) : State) r ∧
          r.status = .fail := by
  have h' := h.withPrefilter prefilter
  have hcap : false = false → StackLimited (some maxStackCap) := fun _ => stackLimited_maxStackCap
  have hout := @Compiled.outcome _ _ false keep cs p k _ (Fails E keep cs p) h' (fun _ hm => hm)
    (fun m s hm hs => h'.seeks hT hcap hm hs) hk (starts_init cs k)
  rcases hout with ⟨r, hr, hl⟩ | ⟨i, j, c, u, next, hki, hij, hj, hf, hbefore, hr⟩ | ⟨hall, r, hr, hs⟩
  · exact .inl ⟨r, hr.halts, hl⟩
  · exact .inr (.inl ⟨i, j, c, u, next, hki, hij, hj, hf, hbefore, hr.halts⟩)
  · exact .inr (.inr ⟨hall, r, hr.halts, hs⟩)

/-- `match` ends with the same status whether the prefilter is on or off, and a match has the same
captures. Every run ends. -/
theorem match_prefilter {E : Env} {p : Node} {k : Nat} {input : Input} (hT : E.tables.Ok)
    (hw : p.wf true = true) (hc : CodeGen.compile E.tables E.regex.named p = some E.regex)
    (hin : Input.create E.bytes k = .ok input) :
    ∃ r r', Halts (step (E.withPrefilter true)) (.init input.iter) r ∧
      Halts (step (E.withPrefilter false)) (.init input.iter) r' ∧
      (r.Limited ∨ r'.Limited ∨
        r.status = r'.status ∧ (r.status = .ok → r.captures = r'.captures)) := by
  obtain ⟨cs, hcs, hb, hlen, rfl⟩ := Input.create_ok hin
  have hlt : (encode cs).length < 2 ^ 32 := by
    rw [← hb]
    exact Nat.lt_of_le_of_lt hlen (by decide)
  have h : Compiled E cs p := ⟨hcs, hb, hlt, hw, p.supported hT hcs hb true, hc⟩
  have hk : min k cs.length ≤ cs.length := Nat.min_le_right ..
  have hon := @Compiled.outcome_withPrefilter E p cs _ false h hT hk true
  have hoff := @Compiled.outcome_withPrefilter E p cs _ false h hT hk false
  rcases hon with ⟨r, hr, hl⟩ | ⟨i, j, c, u, next, hki, hij, hj, hf, hbefore, hr⟩ | ⟨hall, r, hr, hs⟩
  · rcases hoff with ⟨r', hr', -⟩ | ⟨_, _, _, _, _, -, -, -, -, -, hr'⟩ | ⟨-, r', hr', -⟩ <;>
      exact ⟨r, _, hr, hr', .inl hl⟩
  · rcases hoff with ⟨r', hr', hl'⟩ |
      ⟨i', j', c', u', next', hki', hij', hj', hf', hbefore', hr'⟩ | ⟨hall', r', hr', -⟩
    · exact ⟨_, r', hr, hr', .inr (.inl hl')⟩
    · -- both attempts are the first that does not fail
      have hii : i = i' := by
        rcases Nat.lt_trichotomy i i' with hlt | heq | hlt
        · have := hbefore' i hki hlt
          rw [Fails, hf] at this
          cases this
        · exact heq
        · have := hbefore i' hki' hlt
          rw [Fails, hf'] at this
          cases this
      subst hii
      rw [hf] at hf'
      injection hf' with hq hc hu hn
      obtain rfl := (off_inj hcs hj hj').1 hq
      subst hc
      exact ⟨_, _, hr, hr', .inr (.inr ⟨rfl, fun _ => rfl⟩)⟩
    · have := hall' i hki (Nat.le_trans hij hj)
      rw [Fails, hf] at this
      cases this
  · rcases hoff with ⟨r', hr', hl'⟩ | ⟨i', j', _, _, _, hki', hij', hj', hf', -, -⟩ |
      ⟨-, r', hr', hs'⟩
    · exact ⟨r, r', hr, hr', .inr (.inl hl')⟩
    · have := hall i' hki' (Nat.le_trans hij' hj')
      rw [Fails, hf'] at this
      cases this
    · refine ⟨r, r', hr, hr', .inr (.inr ⟨hs.trans hs'.symm, fun h => ?_⟩)⟩
      rw [hs] at h
      cases h

theorem Tables.ascii_ok : Tables.ascii.Ok where
  grapheme cs hcs hne := by
    cases cs with
    | nil => exact absurd rfl hne
    | cons c cs =>
      show ∃ i, _ ∧ _ ∧ (if (encode (c :: cs)).take 2 = [13, 10] then 2
        else utf8ByteSize ((encode (c :: cs)).getD 0 0)) = _
      split
      · next h =>
        -- a carriage return and a line feed
        have hcrlf : CodePoints [13, 10] := by simp [CodePoints, codePointMax]
        have hpre : encode [13, 10] <+: encode (c :: cs) := by
          rw [show encode [13, 10] = [13, 10] from rfl, ← h]
          exact List.take_prefix _ _
        obtain ⟨t, ht⟩ := (encode_prefix_iff hcrlf hcs).1 hpre
        rw [← ht]
        exact ⟨2, by decide, Nat.le_add_left 2 t.length, rfl⟩
      · refine ⟨1, by decide, Nat.succ_le_succ (Nat.zero_le _), ?_⟩
        have := getD_encode_off hcs (Nat.zero_lt_succ cs.length)
        rw [off_zero] at this
        rw [this, off_succ (Nat.zero_lt_succ cs.length), off_zero, Nat.zero_add]
  folding_le c hc := by
    show (if _ then _ else _) ≤ _
    split
    · next h => exact Nat.le_trans (Nat.add_le_add_right h.2 32) (by decide)
    · exact hc
  unfold c := by
    show c = (if 65 ≤ c ∧ c ≤ 90 then c + 32 else c) ∨ c ∈ Tables.ascii.simpleCaseUnfold
      (if 65 ≤ c ∧ c ≤ 90 then c + 32 else c)
    split
    · next h =>
      refine .inr ?_
      show c ∈ if 97 ≤ c + 32 ∧ c + 32 ≤ 122 then [c + 32 - 32] else []
      rw [if_pos (by omega), Nat.add_sub_cancel]
      exact List.mem_singleton_self c
    · exact .inl rfl
  emoji := RadixTree.texts_nil

theorem match_prefilter_sample :
    ∃ r r', Halts (step ((Env.ascii .sample [99, 97, 97, 98] false).withPrefilter true)) (.init 1) r ∧
      Halts (step ((Env.ascii .sample [99, 97, 97, 98] false).withPrefilter false)) (.init 1) r' ∧
      (r.Limited ∨ r'.Limited ∨
        r.status = r'.status ∧ (r.status = .ok → r.captures = r'.captures)) :=
  @match_prefilter (.ascii .sample [99, 97, 97, 98] false) .sample 1 ⟨[99, 97, 97, 98], 1⟩
    Tables.ascii_ok (by decide) rfl rfl

/-- The pattern `(?<=(a))b`. -/
def Node.leftBehind : Node :=
  .seq [.lookAround false false (.group 1 (.atom (.char 97))), .atom (.char 98)]

/-- Without a match the captures can differ: at the end of the text `a` the group has matched
behind the position, and is only left there when the position is tried. -/
theorem match_prefilter_captures_of_fail :
    ∃ r r', Halts (step (.ascii .leftBehind [97] true)) (.init 0) r ∧
      Halts (step (.ascii .leftBehind [97] false)) (.init 0) r' ∧
      r.status = .fail ∧ r'.status = .fail ∧ r.captures 1 = .unset ∧ r'.captures 1 = ⟨0, 1⟩ :=
  ⟨_, _, @halts_of_runN _ _ _ _ _ 50 rfl, @halts_of_runN _ _ _ _ _ 50 rfl, rfl, rfl, rfl, rfl⟩

end Arsh.Regex
