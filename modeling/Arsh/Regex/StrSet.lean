import Arsh.Regex.Leaf
import Arsh.Unicode.RadixLookup

/-!
# String sets

The code of a string set tries the longest string first and is resumed with one character less.
The texts it looks at are windows: whole characters from the cursor on, or backwards up to it.
-/

namespace Arsh.Regex

open UnicodeUtil Machine

/-! ## Windows -/

/-- The `size` bytes after `p`, or backwards before it, are whole characters. -/
def Window (cs : List Nat) (forward : Bool) (p size : Nat) : Prop :=
  ∃ i j, i ≤ cs.length ∧ j ≤ cs.length ∧ p = off cs i ∧
    if forward then i ≤ j ∧ off cs i + size = off cs j else j ≤ i ∧ off cs j + size = off cs i

/-- The position at the other end of a window. -/
def windowEnd (forward : Bool) (p size : Nat) : Nat := if forward then p + size else p - size

section
variable {cs : List Nat} {forward : Bool} {p size : Nat}

theorem Window.valid (h : Window cs forward p size) :
    Valid cs (windowEnd forward p size) ∧ Advances forward p (windowEnd forward p size) := by
  obtain ⟨i, j, -, hj, rfl, hij⟩ := h
  cases forward with
  | true => exact ⟨⟨j, hj, hij.2⟩, Nat.le_add_right _ _⟩
  | false =>
    have : off cs i - size = off cs j := by rw [← hij.2, Nat.add_sub_cancel]
    exact ⟨⟨j, hj, this⟩, Nat.sub_le _ _⟩

theorem skipCodePoints_forward (hcs : CodePoints cs) (count : Nat) {i : Nat} (hi : i ≤ cs.length) :
    ∃ j, i ≤ j ∧ j ≤ cs.length ∧ skipCodePoints (encode cs) true count (off cs i) = off cs j := by
  induction count generalizing i with
  | zero => exact ⟨i, Nat.le_refl i, hi, rfl⟩
  | succ count ih =>
    rcases Nat.lt_or_eq_of_le hi with hlt | rfl
    · have hpos : off cs i < (encode cs).length := by
        rw [← off_length]
        exact off_lt hcs hlt (Nat.le_refl _)
      obtain ⟨j, hij, hj, he⟩ := ih hlt
      refine ⟨j, by omega, hj, ?_⟩
      rw [skipCodePoints, if_pos rfl, if_pos hpos, getD_encode_off hcs hlt, ← off_succ hlt]
      exact he
    · refine ⟨cs.length, Nat.le_refl _, Nat.le_refl _, ?_⟩
      rw [skipCodePoints, if_pos rfl, if_neg (by rw [off_length]; exact Nat.lt_irrefl _)]

theorem skipCodePoints_backward (hcs : CodePoints cs) (count : Nat) {i : Nat}
    (hi : i ≤ cs.length) :
    ∃ j, j ≤ i ∧ skipCodePoints (encode cs) false count (off cs i) = off cs j := by
  induction count generalizing i with
  | zero => exact ⟨i, Nat.le_refl i, rfl⟩
  | succ count ih =>
    cases i with
    | zero => exact ⟨0, Nat.le_refl _, by simp [skipCodePoints]⟩
    | succ i =>
      have hpos : off cs (i + 1) > 0 := Nat.lt_of_le_of_lt (Nat.zero_le _) (off_lt_succ hcs hi)
      obtain ⟨j, hij, he⟩ := ih (Nat.le_of_lt hi)
      refine ⟨j, by omega, ?_⟩
      rw [skipCodePoints, if_neg Bool.false_ne_true, if_pos hpos, unsafePrevUtf8_off hcs hi]
      exact he

theorem window_remainSize (hcs : CodePoints cs) (hp : Valid cs p) (count : Nat) :
    Window cs forward p (remainSize (encode cs) forward count p) := by
  obtain ⟨i, hi, rfl⟩ := hp
  cases forward with
  | true =>
    obtain ⟨j, hij, hj, he⟩ := skipCodePoints_forward hcs count hi
    refine ⟨i, j, hi, hj, rfl, hij, ?_⟩
    rw [remainSize, he]
    exact Nat.add_sub_of_le (off_le hcs hij hj)
  | false =>
    obtain ⟨j, hij, he⟩ := skipCodePoints_backward hcs count hi
    refine ⟨i, j, hi, Nat.le_trans hij hi, rfl, hij, ?_⟩
    rw [remainSize, he]
    exact Nat.add_sub_of_le (off_le hcs hij hi)

/-- The text of a window. -/
theorem radixRef_forward {i j : Nat} (h : i ≤ j) (hs : off cs i + size = off cs j) :
    radixRef (encode cs) true (off cs i) size = encode ((cs.take j).drop i) := by
  rw [radixRef, if_pos rfl, hs, slice_encode h]

theorem radixRef_backward {i j : Nat} (h : j ≤ i) (hs : off cs j + size = off cs i) :
    radixRef (encode cs) false (off cs i) size = encode ((cs.take i).drop j) := by
  rw [radixRef, if_neg Bool.false_ne_true, ← hs, Nat.add_sub_cancel, hs, slice_encode h]

/-- A window without its last character is a smaller window. -/
theorem Window.shorten (hcs : CodePoints cs) (h : Window cs forward p size) (hs : size ≠ 0) :
    Window cs forward p (shortenSize (encode cs) forward p size) ∧
      shortenSize (encode cs) forward p size < size := by
  obtain ⟨i, j, hi, hj, rfl, hij⟩ := h
  cases forward with
  | true =>
    obtain ⟨hle, he⟩ := hij
    cases j with
    | zero =>
      have hi0 : i = 0 := Nat.le_zero.1 hle
      subst hi0
      simp at he
      exact absurd he hs
    | succ j =>
      have hne : i ≠ j + 1 := by
        rintro rfl
        omega
      have hij' : i ≤ j := by omega
      have hlen : ((cs.take (j + 1)).drop i).length = j - i + 1 := by
        rw [List.length_drop, List.length_take]
        omega
      have hcs' : CodePoints ((cs.take (j + 1)).drop i) := fun c hc =>
        hcs c (List.mem_of_mem_take (List.mem_of_mem_drop hc))
      have hsize : shortenSize (encode cs) true (off cs i) size =
          off ((cs.take (j + 1)).drop i) (j - i) := by
        rw [shortenSize, radixRef_forward hle he, if_pos rfl, ← off_length, hlen,
          unsafePrevUtf8_off hcs' (by omega)]
      have hoff : off cs i + off ((cs.take (j + 1)).drop i) (j - i) = off cs j := by
        have h₁ : off ((cs.take (j + 1)).drop i) (j - i) = off (cs.drop i) (j - i) := by
          rw [off, off, List.drop_take, List.take_take, Nat.min_eq_left (by omega)]
        rw [h₁, off_drop]
        congr 1
        omega
      rw [hsize]
      refine ⟨⟨i, j, hi, by omega, rfl, hij', hoff⟩, ?_⟩
      have := off_lt_succ hcs (i := j) (by omega)
      omega
  | false =>
    obtain ⟨hle, he⟩ := hij
    have hne : j ≠ i := by
      rintro rfl
      omega
    have hlt : j < i := by omega
    have hdrop : (cs.take i).drop j = cs[j] :: (cs.take i).drop (j + 1) := by
      rw [List.drop_eq_getElem_cons (by rw [List.length_take]; omega), List.getElem_take]
    have hcs' : CodePoints ((cs.take i).drop j) := fun c hc =>
      hcs c (List.mem_of_mem_take (List.mem_of_mem_drop hc))
    have hfirst : utf8ByteSize ((encode ((cs.take i).drop j)).getD 0 0) =
        (codePointToUtf8 cs[j]).length := by
      have hlen : 0 < ((cs.take i).drop j).length := by
        rw [hdrop]
        exact Nat.zero_lt_succ _
      have := getD_encode_off hcs' hlen
      rw [off_zero] at this
      rw [this]
      congr 2
      simp
    have hlen : (encode ((cs.take i).drop j)).length = size := by
      have : slice (encode cs) (off cs j) (off cs i) = encode ((cs.take i).drop j) :=
        slice_encode hle
      rw [← this, slice, List.length_drop, List.length_take, ← he,
        Nat.min_eq_left (by rw [he, ← off_length]; exact off_le hcs hi (Nat.le_refl _)),
        Nat.add_sub_cancel_left]
    have hsize : shortenSize (encode cs) false (off cs i) size =
        size - (codePointToUtf8 cs[j]).length := by
      rw [shortenSize, radixRef_backward hle he]
      simp only [Bool.false_eq_true, if_false]
      rw [hfirst, hlen]
    have hsucc : off cs (j + 1) = off cs j + (codePointToUtf8 cs[j]).length :=
      off_succ (by omega)
    have hpos := codePointToUtf8_length_pos (hcs _ (List.getElem_mem (show j < cs.length by omega)))
    have hle' : off cs (j + 1) ≤ off cs i := off_le hcs hlt hi
    rw [hsize]
    refine ⟨⟨i, j + 1, hi, by omega, rfl, hlt, ?_⟩, ?_⟩ <;> omega

end

/-! ## The loop of a string set -/

/-- The strings found in a window are windows. It holds when the strings of the set are whole
characters. -/
def StrSet.Ok (S : Subject) (cs : List Nat) (s : StrSet) (forward : Bool) : Prop :=
  ∀ p size, Window cs forward p size →
    let found := consumedSize S.tables forward s.emoji s.tree s.ignoreCase
      (radixRef S.bytes forward p size)
    found ≠ 0 → Window cs forward p found ∧ found ≤ size

section
variable {cap : Option Nat} {E : Env} {keep : Bool} {cs : List Nat} {K L : Level} {R W : List Nat}
  {a exit : Nat} {B : Base} {r : Search} {t : State cap}

/-- The label of the loop. -/
def radixLabel (forward : Bool) : Label := if forward then .radixOrEmoji else .lbRadixOrEmoji

/-- The instruction of the loop. -/
def radixInst (forward : Bool) (ins : RadixIns) : Inst :=
  if forward then .radixOrEmoji ins else .lbRadixOrEmoji ins

/-- A search that fails into an entry `radixState` passes it. -/
theorem Refines.radixState {size : Nat}
    (h : Refines E keep cs K L R W exit { B with stack := .radixState size :: B.stack } r t) :
    Refines E keep cs K L R W exit B r t := by
  rw [← Search.orElse_fail r]
  refine Refines.orElse h (.refl _) (List.Subset.refl _)
    ⟨⟨[.radixState size], rfl, clean_nil.cons trivial, rfl⟩, rfl, .refl _ _, .refl _ _, .refl _ _⟩
    fun c t' ht' => ?_
  obtain ⟨st, hst, hstep⟩ := @stepWith_backtrack cap E keep t' _ _ ht'.label ht'.stack
  refine .of_step ht'.sound hstep (refines_fail ?_)
  exact { ht' with stack := hst }

theorem stepWith_radix {forward : Bool} {ins : RadixIns} (hl : t.label = radixLabel forward)
    (hi : E.regex.instSeq[t.inst]? = some (radixInst forward ins)) :
    stepWith keep E t = radixStep E t forward ins := by
  cases forward <;> simp_all [stepWith, radixLabel, radixInst]

theorem updateRadixState_cons {st : BacktrackStack cap} {e : Backtrack} {es : List Backtrack}
    (h : st.entries = e :: es) (size : Nat) :
    (st.updateRadixState size).entries = .radixState size :: es := by
  unfold BacktrackStack.updateRadixState
  split
  · next h' => rw [h] at h'; cases h'
  · next h' =>
    rw [h] at h'
    cases h'
    rfl

/-- The code at `RADIX_OR_EMOJI` does what `searchLoop` says. -/
theorem refines_radix {forward : Bool} {s : StrSet} {ins : RadixIns} (hcs : CodePoints cs)
    (hE : E.bytes = encode cs) (hf : L.forward = forward) (hok : s.Ok E.subject cs forward)
    (hemoji : ins.emoji = s.emoji) (hic : ins.ignoreCase = s.ignoreCase)
    (htree : (E.regex.radix ins).map (·.asRadixTree) = s.tree)
    (hi : E.regex.instSeq[a]? = some (radixInst forward ins))
    (hchars : match s.chars with
      | some atom => ins.nextOffset = 1 ∧ Simulates cap E keep cs K L
          (fun p c u => .ofOption c u (atom.iter E.subject forward p)) R W (a + 1) (a + 2)
      | none => ins.nextOffset = 0)
    (hL : L.Within K) (hv : Valid cs B.iter) :
    ∀ (fuel size : Nat) (t : State cap), size < fuel → Window cs forward B.iter size →
      t.label = radixLabel forward → t.inst = a → t.iter = B.iter → t.oldIter = B.oldIter →
      t.stack.entries = .radixState size :: B.stack → CapturesOk cs t.captures →
      Frame K t.captures B.captures → LoopFrame K t.loops B.loops →
      Refines E keep cs K L R W (a + 1 + ins.nextOffset) B
        (s.searchLoop E.subject forward B.iter B.undo fuel size t.captures) t := by
  intro fuel
  induction fuel with
  | zero => exact fun size t h => absurd h (Nat.not_lt_zero _)
  | succ fuel ih =>
    intro size t hsize hw hl hin hp ho hst hcap hfr hlo
    have hget : t.stack.getRadixState = size := by
      rw [BacktrackStack.getRadixState, hst]
    -- to `BACKTRACK`, past the entry of this string set
    have hfail : Refines E keep cs K L R W (a + 1 + ins.nextOffset) B (.fail t.captures)
        t.backtrack :=
      Refines.radixState (refines_fail ⟨rfl, hst, ho, rfl, hcap, hfr, hlo⟩)
    refine .of_ok (.of_label hcap (by rw [hl]; cases forward <;> decide)) ?_
    rw [stepWith_radix hl (hin ▸ hi), radixStep, hget, hp, hemoji, hic, htree, StrSet.searchLoop]
    have hfound := hok B.iter size hw
    simp only at hfound ⊢
    rw [Env.subject_tables, Env.subject_bytes] at hfound ⊢
    generalize consumedSize E.tables forward s.emoji s.tree s.ignoreCase
      (radixRef E.bytes forward B.iter size) = found at hfound ⊢
    split
    · split
      · next hne =>
        obtain ⟨hw', hle⟩ := hfound (by simpa using hne)
        obtain ⟨hwv, hwa⟩ := hw'.valid
        obtain ⟨hws, hlt⟩ := hw'.shorten hcs (by simpa using hne)
        apply tryPush_ok
        intro st hst'
        have hes : st.entries = .setIns a B.iter :: .radixState found :: B.stack := by
          rw [hst', hin]
          show _ :: (t.stack.updateRadixState found).entries = _
          rw [updateRadixState_cons hst]
        refine Leads.here ⟨⟨rfl, ?_, rfl, ho, rfl,
          ⟨[.setIns a B.iter, .radixState found], hes,
            Clean.cons trivial (clean_nil.cons trivial), rfl⟩, hwv, hf ▸ hwa, hcap, hfr.within hL,
            hlo.within hL⟩, fun t' ht' => ?_⟩
        · rw [← hin]
          rfl
        · refine .of_ok ht'.sound (backtrack_setIns ht'.label (ht'.stack.trans hes)
            fun t₁ h1 h2 h3 h4 h5 h6 h7 => ?_)
          -- the instruction shortens the string and goes on with the loop
          have hgs : t₁.stack.getRadixState = found := by
            rw [BacktrackStack.getRadixState, h4]
          have hstep : stepWith keep E t₁ = shortenRadix E t₁ forward := by
            rw [stepWith_dispatch h1 (h2 ▸ hi)]
            cases forward <;> rfl
          rw [shortenRadix, hgs, h3] at hstep
          have hsound : Sound E cs t₁ :=
            Sound.of_inst (h5 ▸ ht'.ok) (h2 ▸ hi) (by cases forward <;> trivial)
          refine .of_step hsound hstep ?_
          rw [hE, ← h5]
          let t₂ : State cap := {
            t₁ with
            label := radixLabel forward
            iter := B.iter
            stack := t₁.stack.updateRadixState (shortenSize (encode cs) forward B.iter found) }
          refine ih _ t₂ (by omega) hws rfl h2 rfl (h7.trans (ht'.oldIter.trans ho))
            (updateRadixState_cons h4 _) (h5 ▸ ht'.ok) ?_ ?_
          · exact (h5 ▸ ht'.frame.of_pass : Frame K t₁.captures t.captures).trans hfr
          · exact (h6 ▸ ht'.loops.of_pass : LoopFrame K t₁.loops t.loops).trans hlo
      · cases hc : s.chars with
        | none =>
          rw [hc] at hchars
          rw [hchars]
          exact .of (hchars ▸ hfail)
        | some atom =>
          rw [hc] at hchars
          obtain ⟨hone, hsim⟩ := hchars
          rw [hone]
          refine .of (@Refines.radixState cap E keep cs K L R W _ B _ _ size ?_)
          have := hsim t.next B.undo ⟨rfl, congrArg (· + 1) hin, hp ▸ hv, hcap⟩
          refine (hp ▸ this).rebase hL (List.Subset.refl _) (List.Subset.refl _) hst rfl ho ?_ hfr hlo
          exact hp ▸ .refl _ _
    · exact .of hfail

/-- The matchers of a string set: its radix tree, then that of its single code points. -/
theorem generateStrSet_some {forward : Bool} {s : StrSet} {ms ms' : List Matcher}
    {code : List Inst} (h : CodeGen.generateStrSet forward ms s = some (code, ms')) :
    ∃ (index : Nat) (ms₁ : List Matcher) (chars : List Inst),
      (if s.radix.empty = true then ms₁ = ms
      else CodeGen.emitMatcher ms (.radix s.radix (s.radix.maxCodePointCount % 2 ^ 16)) =
        some (index, ms₁)) ∧
      (match s.chars with
      | some atom => ∃ ins, chars = [ins] ∧
          CodeGen.generateAtom forward ms₁ atom = some (ins, ms')
      | none => chars = [] ∧ ms' = ms₁) ∧
      code = (if !forward then Inst.prepareLBRadix else .prepareRadix) ::
        radixInst forward ⟨s.emoji, s.ignoreCase, !s.radix.empty, index, chars.length⟩ ::
          chars := by
  simp only [CodeGen.generateStrSet, Option.bind_eq_bind, Option.bind_eq_some_iff] at h
  obtain ⟨⟨index, ms₁⟩, hr, ⟨chars, ms₂⟩, hc, h⟩ := h
  cases h
  refine ⟨index, ms₁, chars, ?_, ?_, ?_⟩
  · unfold CodeGen.emitRadix at hr
    split
    · next he =>
      rw [if_pos he] at hr
      cases hr
      rfl
    · next he =>
      rw [if_neg he] at hr
      split at hr
      · cases hr
      · exact hr
  · cases hch : s.chars with
    | none =>
      rw [hch] at hc
      cases hc
      exact ⟨rfl, rfl⟩
    | some atom =>
      rw [hch, CodeGen.generateChild, Option.map_eq_some_iff] at hc
      obtain ⟨⟨ins, ms₃⟩, hg, hc⟩ := hc
      cases hc
      exact ⟨ins, rfl, hg⟩
  · cases forward <;> rfl

theorem generateAtom_extends {forward : Bool} {atom : Atom} {ms ms' : List Matcher} {ins : Inst}
    (h : CodeGen.generateAtom forward ms atom = some (ins, ms')) : ms <+: ms' := by
  cases atom with
  | charSet set invert ignoreCase =>
    simp only [CodeGen.generateAtom, Option.bind_eq_bind, Option.bind_eq_some_iff] at h
    obtain ⟨⟨index, ms₁⟩, hem, h⟩ := h
    cases h
    exact emitMatcher_extends hem
  | _ =>
    cases h
    exact List.prefix_rfl

/-- The code of a string set, and what its instruction refers to. -/
theorem generateStrSet_code {re : CompiledRegex} {forward : Bool} {s : StrSet}
    {ms ms' : List Matcher} {code : List Inst}
    (hg : CodeGen.generateStrSet forward ms s = some (code, ms')) (hms : ms' <+: re.matchers) :
    ∃ (ins : RadixIns) (chars : List Inst),
      code = (if !forward then Inst.prepareLBRadix else .prepareRadix) ::
        radixInst forward ins :: chars ∧
      ins.emoji = s.emoji ∧ ins.ignoreCase = s.ignoreCase ∧ ins.nextOffset = chars.length ∧
      re.radix ins = s.tree.map (fun t => .radix t (t.maxCodePointCount % 2 ^ 16)) ∧
      match s.chars with
      | some atom => ∃ ins ms₁, chars = [ins] ∧ CodeGen.generateAtom forward ms₁ atom = some (ins, ms')
      | none => chars = [] := by
  obtain ⟨index, ms₁, chars, hr, hch, rfl⟩ := generateStrSet_some hg
  have hms₁ : ms₁ <+: re.matchers := by
    cases h : s.chars with
    | none =>
      rw [h] at hch
      exact hch.2 ▸ hms
    | some atom =>
      rw [h] at hch
      obtain ⟨i, -, hi⟩ := hch
      exact (generateAtom_extends hi).trans hms
  refine ⟨_, chars, rfl, rfl, rfl, rfl, ?_, ?_⟩
  · cases he : s.radix.empty with
    | true => simp [CompiledRegex.radix, StrSet.tree, he]
    | false =>
      rw [he] at hr
      have := emitMatcher_some hr hms₁
      simp [CompiledRegex.radix, StrSet.tree, he, this]
  · cases h : s.chars with
    | none =>
      rw [h] at hch
      exact hch.1
    | some atom =>
      rw [h] at hch
      obtain ⟨i, hi, hg⟩ := hch
      exact ⟨i, ms₁, hi, hg⟩

theorem simulates_strSet {forward : Bool} {s : StrSet} {ms ms' : List Matcher} {code : List Inst}
    (hcs : CodePoints cs) (hE : E.bytes = encode cs) (hf : L.forward = forward)
    (hok : s.Ok E.subject cs forward) (hL : L.Within K)
    (hg : CodeGen.generateStrSet forward ms s = some (code, ms')) (hms : ms' <+: E.regex.matchers)
    (hc : CodeAt E.regex a code) :
    Simulates cap E keep cs K L (s.search E.subject forward) R W a (a + code.length) := by
  obtain ⟨ins, chars, rfl, hemoji, hic, hnext, hradix, hch⟩ := generateStrSet_code hg hms
  have htree : (E.regex.radix ins).map (·.asRadixTree) = s.tree := by
    rw [hradix]
    cases s.tree <;> rfl
  have hcount : (E.regex.radix ins).map (·.maxCodePointCount) =
      s.tree.map (·.maxCodePointCount % 2 ^ 16) := by
    rw [hradix]
    cases s.tree <;> rfl
  intro t u ht
  have hstep : stepWith keep E t = prepareRadix E t forward ins := by
    rw [stepWith_dispatch ht.label (ht.inst ▸ hc.head)]
    have := hc.tail.head
    rw [← ht.inst] at this
    cases forward <;> simp [dispatch, this, radixInst]
  refine .of_ok (ht.sound hc.head (by cases forward <;> trivial)) ?_
  rw [hstep, prepareRadix, hcount, hemoji]
  apply tryPush_ok
  intro st hst
  have hsize : remainSize E.bytes forward (maxCodePoints E.tables s.emoji
      (s.tree.map (·.maxCodePointCount % 2 ^ 16))) t.iter = s.maxSize E.subject forward t.iter := rfl
  rw [hsize] at hst
  have hw : Window cs forward t.iter (s.maxSize E.subject forward t.iter) := by
    rw [StrSet.maxSize, Env.subject_bytes, hE]
    exact window_remainSize hcs ht.valid _
  have hexit : a + ((if !forward then Inst.prepareLBRadix else .prepareRadix) ::
      radixInst forward ins :: chars).length = a + 1 + 1 + ins.nextOffset := by
    rw [hnext]
    simp only [List.length_cons]
    omega
  rw [hexit]
  let t₁ : State cap := { t with stack := st, label := radixLabel forward, inst := t.inst + 1 }
  refine refines_radix (B := t.base u) hcs hE hf hok hemoji hic htree
    hc.tail.head ?_ hL ht.valid _ _ t₁ (Nat.lt_succ_self _) hw rfl (congrArg (· + 1) ht.inst) rfl rfl
    hst ht.ok (.refl _ _) (.refl _ _)
  cases h : s.chars with
  | none =>
    rw [h] at hch
    rw [hnext, hch]
    rfl
  | some atom =>
    rw [h] at hch
    obtain ⟨i, ms₁, rfl, hi⟩ := hch
    exact ⟨hnext, simulates_atom hcs hE hf hi hms hc.tail.tail.head⟩

end

end Arsh.Regex
