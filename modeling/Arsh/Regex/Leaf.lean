import Mathlib.Data.Nat.Bitwise
import Arsh.Regex.Sim

/-!
# Leaves

The code of the nodes without children: atoms, boundaries, graphemes, back-references and runs of
characters. Each moves the cursor or fails, so `simulates_leaf` covers them all once their
positions are known to be valid.
-/

namespace Arsh.Regex

open UnicodeUtil Machine

/-! ## Code and matchers -/

/-- The code stands at the address `a`. -/
def CodeAt (re : CompiledRegex) (a : Nat) (code : List Inst) : Prop :=
  ∀ i, i < code.length → re.instSeq[a + i]? = code[i]?

section
variable {re : CompiledRegex} {a : Nat} {xs ys : List Inst} {ins : Inst}

theorem CodeAt.left (h : CodeAt re a (xs ++ ys)) : CodeAt re a xs := by
  intro i hi
  rw [h i (by rw [List.length_append]; omega), List.getElem?_append_left hi]

theorem CodeAt.right (h : CodeAt re a (xs ++ ys)) : CodeAt re (a + xs.length) ys := by
  intro i hi
  rw [Nat.add_assoc, h _ (by rw [List.length_append]; omega),
    List.getElem?_append_right (Nat.le_add_right _ _), Nat.add_sub_cancel_left]

theorem CodeAt.cast {b : Nat} (h : CodeAt re a xs) (hb : a = b) : CodeAt re b xs := hb ▸ h

theorem CodeAt.head (h : CodeAt re a (ins :: xs)) : re.instSeq[a]? = some ins :=
  h 0 (Nat.zero_lt_succ _)

theorem CodeAt.tail (h : CodeAt re a (ins :: xs)) : CodeAt re (a + 1) xs :=
  @CodeAt.right _ _ [ins] _ h

end

theorem emitMatcher_extends {ms ms' : List Matcher} {m : Matcher} {index : Nat}
    (h : CodeGen.emitMatcher ms m = some (index, ms')) : ms <+: ms' := by
  unfold CodeGen.emitMatcher at h
  split at h
  · cases h
  · cases h
    exact List.prefix_append _ _

/-- An emitted matcher is found at its index. -/
theorem emitMatcher_some {re : CompiledRegex} {ms ms' : List Matcher} {m : Matcher} {index : Nat}
    (h : CodeGen.emitMatcher ms m = some (index, ms')) (hms : ms' <+: re.matchers) :
    re.matcher index = m := by
  unfold CodeGen.emitMatcher at h
  split at h
  · cases h
  · cases h
    obtain ⟨t, ht⟩ := hms
    rw [CompiledRegex.matcher, ← ht]
    simp [List.getD_eq_getElem?_getD]

/-! ### Ascii sets -/

theorem AsciiSet.testBit_add {s : AsciiSet} {c : Nat} (hc : c ≤ 127) (i : Nat) :
    (s.add c).bits.testBit i = (s.bits.testBit i || decide (c = i)) := by
  rw [add, if_pos hc, Nat.testBit_or, Nat.testBit_two_pow]

theorem AsciiSet.testBit_foldl {cs : List Nat} (hcs : ∀ c ∈ cs, c ≤ 127) (s : AsciiSet) (i : Nat) :
    (cs.foldl add s).bits.testBit i = (s.bits.testBit i || decide (i ∈ cs)) := by
  induction cs generalizing s with
  | nil => simp
  | cons c cs ih =>
    rw [List.foldl_cons, ih fun x hx => hcs x (List.mem_cons_of_mem _ hx),
      testBit_add (hcs c List.mem_cons_self)]
    by_cases h : c = i
    · simp [h]
    · simp [h, Ne.symm h]

/-- The bits of the ascii set made from ranges. -/
theorem testBit_ranges {rs : List (Nat × Nat)}
    (hrs : ∀ r ∈ rs, Matcher.withinAsciiSet r.1 && Matcher.withinAsciiSet r.2) (s : AsciiSet)
    (i : Nat) :
    (rs.foldl (fun s r => (List.range' r.1 (r.2 + 1 - r.1)).foldl AsciiSet.add s) s).bits.testBit i =
      (s.bits.testBit i || rs.any fun r => r.1 ≤ i && i ≤ r.2) := by
  induction rs generalizing s with
  | nil => simp
  | cons r rs ih =>
    have hr := hrs r List.mem_cons_self
    simp only [Matcher.withinAsciiSet, Bool.and_eq_true, decide_eq_true_eq] at hr
    have hle : ∀ c ∈ List.range' r.1 (r.2 + 1 - r.1), c ≤ 127 := by
      intro c hc
      have := (List.mem_range'_1.1 hc).2
      omega
    have hmem : decide (i ∈ List.range' r.1 (r.2 + 1 - r.1)) = (r.1 ≤ i && i ≤ r.2) := by
      rw [← Bool.decide_and, decide_eq_decide, List.mem_range'_1]
      omega
    rw [List.foldl_cons, ih fun x hx => hrs x (List.mem_cons_of_mem _ hx),
      AsciiSet.testBit_foldl hle, hmem, List.any_cons, Bool.or_assoc]

/-- An ascii set stands for the code point set it was made from. -/
theorem tryToGenerateAsciiSet_contains {set : CodePointSet} {s : AsciiSet}
    (h : tryToGenerateAsciiSet set = some s) (c : Nat) :
    (Matcher.ofAsciiSet s).contains c = set.contains c := by
  unfold tryToGenerateAsciiSet at h
  split at h
  · next hall =>
    have hrs := List.all_eq_true.1 hall
    cases h
    have hbits := testBit_ranges hrs { bits := 0 } c
    simp only [Nat.zero_testBit, Bool.false_or] at hbits
    rw [Matcher.ofAsciiSet, Matcher.contains, AsciiSet.contains, Nat.testBit_mul_two_pow,
      Nat.testBit_div_two_pow]
    by_cases hc : 8 ≤ c
    · rw [Nat.sub_add_cancel hc, hbits, CodePointSet.contains]
      by_cases hc' : c ≤ 127
      · simp [hc, hc']
      · have : (set.ranges.any fun r => r.1 ≤ c && c ≤ r.2) = false := by
          apply List.any_eq_false.2
          intro r hr
          have := hrs r hr
          simp only [Matcher.withinAsciiSet, Bool.and_eq_true, decide_eq_true_eq] at this ⊢
          omega
        simp [hc', this]
    · have : set.contains c = false := by
        apply List.any_eq_false.2
        intro r hr
        have := hrs r hr
        simp only [Matcher.withinAsciiSet, Bool.and_eq_true, decide_eq_true_eq] at this ⊢
        omega
      simp [hc, this]
  · cases h

/-! ## Atoms and zero-width checks -/

theorem Atom.iter_valid {S : Subject} {cs : List Nat} {a : Atom} {forward : Bool} {p q : Nat}
    (hcs : CodePoints cs) (hS : S.bytes = encode cs) (hp : Valid cs p)
    (h : a.iter S forward p = some q) : Valid cs q ∧ Advances forward p q := by
  unfold Atom.iter at h
  split at h
  · next c iter hc =>
    split at h
    · cases h
      exact consume_valid hcs hp (hS ▸ hc)
    · cases h
  · cases h

section
variable {cap : Option Nat} {E : Env} {keep : Bool} {cs : List Nat} {K L : Level} {R W : List Nat}
  {a : Nat} {counted : Bool}

/-- An instruction that consumes one character. -/
theorem simulates_single {forward : Bool} {atom : Atom} {ins : Inst} (hcs : CodePoints cs)
    (hE : E.bytes = encode cs) (hf : L.forward = forward)
    (hi : E.regex.instSeq[a]? = some ins)
    (hfree : ∀ s : State cap, ins.Asserts s)
    (hd : ∀ s : State cap, dispatch keep E s ins = single E s forward (atom.test E.tables)) :
    Simulates cap E keep cs K L (fun p c u => .ofOption c u (atom.iter E.subject forward p)) R W a
      (a + 1) := by
  refine simulates_leaf hi hfree (fun s hl hs => ?_)
    fun p c q hp _ h => hf ▸ Atom.iter_valid hcs hE hp h
  rw [stepWith_dispatch hl (hs ▸ hi), hd, single]
  cases hc : consume E.bytes forward s.iter with
  | none =>
    have hiter : atom.iter E.subject forward s.iter = none := by simp [Atom.iter, hc]
    rw [hiter]
    exact ⟨_, rfl, rfl, rfl, rfl, rfl, rfl⟩
  | some x =>
    obtain ⟨c, iter⟩ := x
    dsimp only
    by_cases h : atom.test E.tables c = true
    · have hiter : atom.iter E.subject forward s.iter = some iter := by simp [Atom.iter, hc, h]
      rw [hiter, if_pos h]
      exact ⟨_, rfl, rfl, rfl, rfl, rfl, rfl, congrArg (· + 1) hs, rfl⟩
    · have hiter : atom.iter E.subject forward s.iter = none := by simp [Atom.iter, hc, h]
      rw [hiter, if_neg h]
      exact ⟨_, rfl, rfl, rfl, rfl, rfl, rfl⟩

/-- The instruction of an atom asserts nothing. -/
theorem generateAtom_free {forward : Bool} {atom : Atom} {ins : Inst} {ms ms' : List Matcher}
    (hg : CodeGen.generateAtom forward ms atom = some (ins, ms')) (s : State cap) :
    ins.Asserts s := by
  cases atom with
  | any dotAll => cases forward <;> cases dotAll <;> cases hg <;> trivial
  | char c => cases forward <;> cases hg <;> trivial
  | foldChar c => cases forward <;> cases hg <;> trivial
  | charSet set invert ignoreCase =>
    simp only [CodeGen.generateAtom, Option.bind_eq_bind, Option.bind_eq_some_iff] at hg
    obtain ⟨⟨index, ms₁⟩, -, hg⟩ := hg
    cases hg
    cases forward <;> cases ignoreCase <;> trivial

theorem simulates_atom {forward : Bool} {atom : Atom} {ins : Inst} {ms ms' : List Matcher}
    (hcs : CodePoints cs) (hE : E.bytes = encode cs) (hf : L.forward = forward)
    (hg : CodeGen.generateAtom forward ms atom = some (ins, ms')) (hms : ms' <+: E.regex.matchers)
    (hi : E.regex.instSeq[a]? = some ins) :
    Simulates cap E keep cs K L (fun p c u => .ofOption c u (atom.iter E.subject forward p)) R W a
      (a + 1) := by
  apply simulates_single hcs hE hf hi (generateAtom_free hg)
  intro s
  cases atom with
  | any dotAll => cases forward <;> cases dotAll <;> cases hg <;> rfl
  | char c => cases forward <;> cases hg <;> rfl
  | foldChar c => cases forward <;> cases hg <;> rfl
  | charSet set invert ignoreCase =>
    simp only [CodeGen.generateAtom, Option.bind_eq_bind, Option.bind_eq_some_iff] at hg
    obtain ⟨⟨index, ms₁⟩, hem, hg⟩ := hg
    cases hg
    have hm := emitMatcher_some hem hms
    have hcontains : ∀ c, (E.regex.matcher index).contains c = set.contains c := by
      intro c
      rw [hm]
      split
      · next s hs => exact tryToGenerateAsciiSet_contains hs c
      · rfl
    cases forward <;> cases ignoreCase <;> simp [dispatch, hcontains] <;> rfl

/-- An instruction that only looks at the input. -/
theorem simulates_check {ins : Inst} {test : Nat → Bool} (hi : E.regex.instSeq[a]? = some ins)
    (hfree : ∀ s : State cap, ins.Asserts s)
    (hd : ∀ s : State cap, dispatch keep E s ins = check s (test s.iter)) :
    Simulates cap E keep cs K L (fun p c u => if test p then .one p c u else .fail c) R W a (a + 1) := by
  have hleaf : Simulates cap E keep cs K L
      (fun p c u => .ofOption c u (if test p then some p else none)) R W a (a + 1) := by
    refine simulates_leaf (o := fun p _ => if test p then some p else none) hi hfree
      (fun s hl hs => ?_) fun p c q hp _ h => ?_
    · rw [stepWith_dispatch hl (hs ▸ hi), hd, check]
      cases test s.iter with
      | true => exact ⟨_, rfl, rfl, rfl, rfl, rfl, rfl, congrArg (· + 1) hs, rfl⟩
      | false => exact ⟨_, rfl, rfl, rfl, rfl, rfl, rfl⟩
    · split at h
      · cases h
        exact ⟨hp, .refl _ _⟩
      · cases h
  intro s u hs
  have := hleaf s u hs
  cases ht : test s.iter <;> simpa [ht, Search.ofOption] using this

theorem generateBoundary_free (b : Boundary) (s : State cap) :
    (CodeGen.generateBoundary b).Asserts s := by
  cases b with
  | start => trivial
  | stop => trivial
  | word ignoreCase => cases ignoreCase <;> trivial
  | notWord ignoreCase => cases ignoreCase <;> trivial

theorem simulates_boundary {b : Boundary}
    (hi : E.regex.instSeq[a]? = some (CodeGen.generateBoundary b)) :
    Simulates cap E keep cs K L
      (fun p c u => if b.test E.subject p then .one p c u else .fail c) R W a (a + 1) := by
  refine simulates_check hi (fun s => generateBoundary_free b s) fun s => ?_
  cases b with
  | start multiline => rfl
  | stop multiline => rfl
  | word ignoreCase => cases ignoreCase <;> rfl
  | notWord ignoreCase => cases ignoreCase <;> rfl

/-- What the grapheme scanner promises of a text: a cluster is one or more whole characters. -/
def GraphemeOk (T : Tables) : Prop :=
  ∀ cs, CodePoints cs → cs ≠ [] → ∃ i, 0 < i ∧ i ≤ cs.length ∧ T.graphemeSize (encode cs) = off cs i

theorem off_drop {cs : List Nat} (i j : Nat) : off cs i + off (cs.drop i) j = off cs (i + j) := by
  rw [off, off, off, ← List.length_append, ← encode_append, List.take_add]

/-- The position after a grapheme cluster. -/
def graphemeIter (S : Subject) (iter : Nat) : Option Nat :=
  if iter ≠ S.bytes.length then some (iter + S.tables.graphemeSize (S.bytes.drop iter)) else none

theorem graphemeIter_valid {S : Subject} {p q : Nat} (hcs : CodePoints cs)
    (hS : S.bytes = encode cs) (hT : GraphemeOk S.tables) (hp : Valid cs p)
    (h : graphemeIter S p = some q) : Valid cs q ∧ p < q := by
  obtain ⟨i, hi, rfl⟩ := hp
  unfold graphemeIter at h
  split at h
  · next hne =>
    cases h
    rw [hS, Ne, off_eq_end hcs hi] at hne
    have hlt : i < cs.length := Nat.lt_of_le_of_ne hi hne
    have hne' : cs.drop i ≠ [] := by simpa using hlt
    obtain ⟨j, hj, hjl, hsize⟩ := hT (cs.drop i) (fun c hc => hcs c (List.mem_of_mem_drop hc)) hne'
    rw [List.length_drop] at hjl
    rw [hS, encode_drop, hsize, off_drop]
    exact ⟨.off (by omega), off_lt hcs (by omega) (by omega)⟩
  · cases h

theorem simulates_grapheme (hcs : CodePoints cs) (hE : E.bytes = encode cs) (hf : L.forward = true)
    (hT : GraphemeOk E.tables) (hi : E.regex.instSeq[a]? = some .grapheme) :
    Simulates cap E keep cs K L (fun p c u => .ofOption c u (graphemeIter E.subject p)) R W a
      (a + 1) := by
  refine simulates_leaf hi (fun _ => trivial) (fun s hl hs => ?_) fun p c q hp _ h => ?_
  · rw [stepWith_dispatch hl (hs ▸ hi), dispatch, graphemeIter]
    by_cases hne : s.iter ≠ E.bytes.length
    · rw [if_pos hne, if_pos (show s.iter ≠ E.subject.bytes.length from hne)]
      exact ⟨_, rfl, rfl, rfl, rfl, rfl, rfl, congrArg (· + 1) hs, rfl⟩
    · rw [if_neg hne, if_neg (show ¬ s.iter ≠ E.subject.bytes.length from hne)]
      exact ⟨_, rfl, rfl, rfl, rfl, rfl, rfl⟩
  · obtain ⟨hv, hlt⟩ := graphemeIter_valid hcs hE hT hp h
    rw [hf]
    exact ⟨hv, Nat.le_of_lt hlt⟩

/-! ## Back-references -/

theorem isUnset_iff {c : Capture} : c.isUnset = true ↔ c = .unset := by
  cases c
  simp [Capture.isUnset, Capture.unset]

theorem resolveBackRef_ok {named : List NamedCaptureEntry} {c : Captures} (h : CapturesOk cs c)
    (index : Nat) (isNamed : Bool) :
    resolveBackRef named c index isNamed = .unset ∨
      (resolveBackRef named c index isNamed).Spans cs := by
  cases isNamed with
  | false => exact h index
  | true =>
    unfold resolveBackRef
    dsimp only
    split
    · exact h _
    · next is _ =>
      cases hf : (is.map c).find? (!·.isUnset) with
      | none => exact .inl rfl
      | some x =>
        obtain ⟨i, -, rfl⟩ := List.mem_map.1 (List.mem_of_find?_eq_some hf)
        exact h i

theorem expect_forward {xs : List Nat} (hcs : CodePoints cs) (hxs : CodePoints xs)
    (i : Nat) :
    expect (encode cs) true (off cs i) (encode xs) =
      if xs.isPrefixOf (cs.drop i) then some (off cs (i + xs.length)) else none := by
  have hd : CodePoints (cs.drop i) := fun c hc => hcs c (List.mem_of_mem_drop hc)
  rw [expect, if_pos rfl, encode_drop]
  by_cases h : xs <+: cs.drop i
  · rw [if_pos (List.isPrefixOf_iff_prefix.2 ((encode_prefix_iff hxs hd).2 h)),
      if_pos (List.isPrefixOf_iff_prefix.2 h), ← off_drop]
    obtain ⟨t, ht⟩ := h
    rw [off, off, ← ht, List.take_left]
  · rw [if_neg fun e => h ((encode_prefix_iff hxs hd).1 (List.isPrefixOf_iff_prefix.1 e)),
      if_neg fun e => h (List.isPrefixOf_iff_prefix.1 e)]

theorem expect_backward {xs : List Nat} (hcs : CodePoints cs) (hxs : CodePoints xs) {i : Nat}
    (hi : i ≤ cs.length) :
    expect (encode cs) false (off cs i) (encode xs) =
      if xs.isSuffixOf (cs.take i) then some (off cs (i - xs.length)) else none := by
  have hd : CodePoints (cs.take i) := fun c hc => hcs c (List.mem_of_mem_take hc)
  rw [expect, if_neg Bool.false_ne_true, encode_take]
  by_cases h : xs <:+ cs.take i
  · rw [if_pos (List.isSuffixOf_iff_suffix.2 ((encode_suffix_iff hxs hd).2 h)),
      if_pos (List.isSuffixOf_iff_suffix.2 h)]
    obtain ⟨t, ht⟩ := h
    have hlen : t.length + xs.length = i := by
      have := congrArg List.length ht
      rwa [List.length_append, List.length_take, Nat.min_eq_left hi] at this
    have htake : cs.take t.length = t := by
      have h₁ : (cs.take i).take t.length = t := by rw [← ht, List.take_left]
      rwa [List.take_take, Nat.min_eq_left (by omega)] at h₁
    have hoff : off cs i = (encode t).length + (encode xs).length := by
      rw [off, ← ht, encode_append, List.length_append]
    rw [hoff, Nat.add_sub_cancel, ← hlen, Nat.add_sub_cancel, off, htake]
  · rw [if_neg fun e => h ((encode_suffix_iff hxs hd).1 (List.isSuffixOf_iff_suffix.1 e)),
      if_neg fun e => h (List.isSuffixOf_iff_suffix.1 e)]

theorem slice_encode {i j : Nat} (h : i ≤ j) :
    slice (encode cs) (off cs i) (off cs j) = encode ((cs.take j).drop i) := by
  have hoff : off cs i = off (cs.take j) i := by rw [off, off, List.take_take, Nat.min_eq_left h]
  rw [slice, encode_take, hoff, encode_drop]

/-- A text matched at a valid position ends at one. -/
theorem expect_valid {xs : List Nat} {forward : Bool} {p q : Nat} (hcs : CodePoints cs)
    (hxs : CodePoints xs) (hp : Valid cs p) (h : expect (encode cs) forward p (encode xs) = some q) :
    Valid cs q ∧ Advances forward p q := by
  obtain ⟨i, hi, rfl⟩ := hp
  cases forward with
  | true =>
    rw [expect_forward hcs hxs] at h
    split at h
    · next hpre =>
      cases h
      have := (List.isPrefixOf_iff_prefix.1 hpre).length_le
      rw [List.length_drop] at this
      exact ⟨.off (by omega), off_le hcs (by omega) (by omega)⟩
    · cases h
  | false =>
    rw [expect_backward hcs hxs hi] at h
    split at h
    · cases h
      exact ⟨.off (by omega), off_le hcs (by omega) (by omega)⟩
    · cases h

theorem ibackRefLoop_valid {T : Tables} {ref : List Nat} {forward : Bool} (hcs : CodePoints cs)
    {fuel i p q : Nat} (hp : Valid cs p)
    (h : ibackRefLoop T (encode cs) ref forward fuel i p = some q) :
    Valid cs q ∧ Advances forward p q := by
  induction fuel generalizing i p with
  | zero =>
    cases h
    exact ⟨hp, .refl _ _⟩
  | succ fuel ih =>
    unfold ibackRefLoop at h
    split at h
    · cases h
      exact ⟨hp, .refl _ _⟩
    · split at h
      · next hc =>
        split at h
        · obtain ⟨hv, ha⟩ := consume_valid hcs hp hc
          obtain ⟨hv', ha'⟩ := ih hv h
          exact ⟨hv', ha.trans ha'⟩
        · cases h
      · cases h

theorem backRefIter_valid {S : Subject} {c : Captures} {forward named ignoreCase : Bool}
    {index p q : Nat} (hcs : CodePoints cs) (hS : S.bytes = encode cs) (hc : CapturesOk cs c)
    (hp : Valid cs p) (h : backRefIter S c forward index named ignoreCase p = some q) :
    Valid cs q ∧ Advances forward p q := by
  unfold backRefIter at h
  simp only at h
  split at h
  · cases h
    exact ⟨hp, .refl _ _⟩
  · next hset =>
    rw [hS] at h
    split at h
    · exact ibackRefLoop_valid hcs hp h
    · have hsp := (resolveBackRef_ok hc index named).resolve_left
        fun e => hset (isUnset_iff.2 e)
      obtain ⟨i, j, hij, -, ho, he⟩ := hsp
      rw [he, ho, slice_encode hij] at h
      refine expect_valid hcs (fun x hx => hcs x ?_) hp h
      exact List.mem_of_mem_take (List.mem_of_mem_drop hx)

theorem simulates_backRef {forward named ignoreCase : Bool} {index : Nat} (hcs : CodePoints cs)
    (hE : E.bytes = encode cs) (hf : L.forward = forward)
    (hi : E.regex.instSeq[a]? = some (CodeGen.generateBackRef forward index named ignoreCase)) :
    Simulates cap E keep cs K L (fun p c u =>
      .ofOption c u (backRefIter E.subject c forward index named ignoreCase p)) R W a (a + 1) := by
  refine simulates_leaf hi (fun _ => by cases forward <;> cases ignoreCase <;> trivial)
    (fun s hl hs => ?_) fun p c q hp hc h => hf ▸ backRefIter_valid hcs hE hc hp h
  have hd : dispatch keep E s (CodeGen.generateBackRef forward index named ignoreCase) =
      backRefIns E s forward index named ignoreCase := by
    cases forward <;> cases ignoreCase <;> rfl
  rw [stepWith_dispatch hl (hs ▸ hi), hd, backRefIns]
  cases backRefIter E.subject s.captures forward index named ignoreCase s.iter with
  | some p => exact ⟨_, rfl, rfl, rfl, rfl, rfl, rfl, congrArg (· + 1) hs, rfl⟩
  | none => exact ⟨_, rfl, rfl, rfl, rfl, rfl, rfl⟩

/-! ## Runs of characters -/

theorem simulates_string {forward : Bool} {index : Nat} {xs : List Nat} (hcs : CodePoints cs)
    (hxs : CodePoints xs) (hE : E.bytes = encode cs) (hf : L.forward = forward)
    (hm : E.regex.matcher index = .string (encode xs))
    (hi : E.regex.instSeq[a]? = some (if !forward then .lbString index else .string index)) :
    Simulates cap E keep cs K L (fun p c u =>
      .ofOption c u (expect E.bytes forward p (encode xs))) R W a (a + 1) := by
  refine simulates_leaf hi (fun _ => by cases forward <;> trivial) (fun s hl hs => ?_)
    fun p c q hp _ h => hf ▸ expect_valid hcs hxs hp (hE ▸ h)
  have hd : dispatch keep E s (if !forward then .lbString index else .string index) =
      stringIns E s forward index := by
    cases forward <;> rfl
  rw [stepWith_dispatch hl (hs ▸ hi), hd, stringIns, hm, Matcher.asStrRef]
  cases expect E.bytes forward s.iter (encode xs) with
  | some p => exact ⟨_, rfl, rfl, rfl, rfl, rfl, rfl, congrArg (· + 1) hs, rfl⟩
  | none => exact ⟨_, rfl, rfl, rfl, rfl, rfl, rfl⟩

/-- The nodes of a run of characters. -/
def charNodes (xs : List Nat) : List Node := xs.map fun c => .atom (.char c)

/-- Matching a run of characters one by one is matching its text. -/
theorem searchSeq_chars {S : Subject} {xs : List Nat} (hcs : CodePoints cs) (hxs : CodePoints xs)
    (hS : S.bytes = encode cs) {p : Nat} (hp : Valid cs p) (c : Captures) (u : Undo) :
    Node.searchSeq counted S keep (charNodes xs) p c u =
      .ofOption c u (expect S.bytes true p (encode xs)) := by
  obtain ⟨i, hi, rfl⟩ := hp
  rw [hS, expect_forward hcs hxs]
  induction xs generalizing i with
  | nil => simp [charNodes, Node.searchSeq, List.isPrefixOf, Search.ofOption]
  | cons x xs ih =>
    show (Search.ofOption c u (Atom.iter S (.char x) true (off cs i))).bind _ = _
    rw [Atom.iter, hS]
    rcases Nat.lt_or_eq_of_le hi with hlt | rfl
    · rw [consume_forward hcs hlt, List.drop_eq_getElem_cons hlt, List.isPrefixOf]
      by_cases hx : cs[i] = x
      · have := ih hxs.cons.2 (i + 1) hlt
        simp only [Atom.test, hx, beq_self_eq_true, if_true, Bool.true_and]
        rw [Search.ofOption, Search.one_bind, List.length_cons, Nat.add_comm xs.length,
          ← Nat.add_assoc]
        exact this
      · simp [Atom.test, hx, Ne.symm hx, Search.ofOption, Search.bind]
    · simp [consume_forward_end, Search.ofOption, Search.bind]

theorem suffix_cons_append {x : Nat} {xs t : List Nat} : x :: xs <:+ t ++ xs ↔ [x] <:+ t := by
  constructor
  · rintro ⟨s, hs⟩
    refine ⟨s, @List.append_cancel_right _ _ xs _ ?_⟩
    rw [← hs, List.append_assoc, List.singleton_append]
  · rintro ⟨s, rfl⟩
    exact ⟨s, by rw [List.append_assoc, List.singleton_append]⟩

theorem searchLBSeq_chars {S : Subject} {xs : List Nat} (hcs : CodePoints cs)
    (hxs : CodePoints xs) (hS : S.bytes = encode cs) {p : Nat} (hp : Valid cs p) (c : Captures)
    (u : Undo) :
    Node.searchLBSeq counted S keep (charNodes xs) p c u =
      .ofOption c u (expect S.bytes false p (encode xs)) := by
  obtain ⟨i, hi, rfl⟩ := hp
  rw [hS, expect_backward hcs hxs hi]
  induction xs with
  | nil => simp [charNodes, Node.searchLBSeq, Search.ofOption]
  | cons x xs ih =>
    show (Node.searchLBSeq counted S keep (charNodes xs) (off cs i) c u).bind _ = _
    rw [ih hxs.cons.2]
    by_cases hsuf : xs <:+ cs.take i
    · obtain ⟨t, ht⟩ := hsuf
      have hlen : t.length + xs.length = i := by
        have := congrArg List.length ht
        rwa [List.length_append, List.length_take, Nat.min_eq_left hi] at this
      rw [if_pos (List.isSuffixOf_iff_suffix.2 ⟨t, ht⟩), Search.ofOption, Search.one_bind]
      show Search.ofOption c u (Atom.iter S (.char x) false (off cs (i - xs.length))) = _
      rw [Atom.iter, hS]
      cases t using List.reverseRecOn with
      | nil =>
        have h0 : i - xs.length = 0 := by
          rw [← hlen]
          simp
        have hno : ¬ x :: xs <:+ cs.take i := by
          rw [← ht, suffix_cons_append]
          exact fun h => absurd h.length_le (by simp)
        rw [h0, consume_backward_zero, if_neg fun h => hno (List.isSuffixOf_iff_suffix.1 h)]
      | append_singleton t y =>
        rw [List.length_append, List.length_singleton] at hlen
        have hi' : i - xs.length = t.length + 1 := by omega
        have hlt : t.length < cs.length := by omega
        have hy : cs[t.length] = y := by
          have hget : (cs.take i)[t.length]? = some y := by
            rw [← ht, List.append_assoc, List.getElem?_append_right (Nat.le_refl _)]
            simp
          rw [List.getElem?_take_of_lt (by omega), List.getElem?_eq_getElem hlt] at hget
          exact Option.some.inj hget
        rw [hi', consume_backward hcs hlt, hy]
        have hiff : x :: xs <:+ cs.take i ↔ y = x := by
          rw [← ht, suffix_cons_append]
          constructor
          · rintro ⟨s, hs⟩
            exact (List.append_inj_right' hs rfl |> List.cons.inj).1.symm
          · rintro rfl
            exact List.suffix_append t _
        by_cases hx : y = x
        · rw [if_pos (List.isSuffixOf_iff_suffix.2 (hiff.2 hx))]
          simp [Atom.test, hx, show i - (xs.length + 1) = t.length by omega]
        · rw [if_neg fun h => hx (hiff.1 (List.isSuffixOf_iff_suffix.1 h))]
          simp [Atom.test, hx]
    · have hno : ¬ x :: xs <:+ cs.take i := fun h => hsuf ((List.suffix_cons x xs).trans h)
      rw [if_neg fun h => hsuf (List.isSuffixOf_iff_suffix.1 h),
        if_neg fun h => hno (List.isSuffixOf_iff_suffix.1 h)]
      rfl

theorem generateChars_extends {forward : Bool} {xs : List Nat} {ms ms' : List Matcher}
    {code : List Inst} (h : CodeGen.generateChars forward ms xs = some (code, ms')) :
    ms <+: ms' := by
  unfold CodeGen.generateChars at h
  split at h
  · cases h
    exact List.prefix_rfl
  · cases h
    exact List.prefix_rfl
  · simp only [Option.bind_eq_bind, Option.bind_eq_some_iff] at h
    obtain ⟨⟨index, ms₁⟩, hem, h⟩ := h
    cases h
    exact emitMatcher_extends hem

/-- The search of a sequence, forwards or backwards. -/
def seqSearch (counted : Bool) (S : Subject) (keep forward : Bool) (ps : List Node) :
    Nat → Captures → Undo → Search :=
  if forward then Node.searchSeq counted S keep ps else Node.searchLBSeq counted S keep ps

theorem seqSearch_chars {S : Subject} {forward : Bool} {xs : List Nat} (hcs : CodePoints cs)
    (hxs : CodePoints xs) (hS : S.bytes = encode cs) {p : Nat} (hp : Valid cs p) (c : Captures)
    (u : Undo) :
    seqSearch counted S keep forward (charNodes xs) p c u =
      .ofOption c u (expect S.bytes forward p (encode xs)) := by
  cases forward with
  | true => exact searchSeq_chars hcs hxs hS hp c u
  | false => exact searchLBSeq_chars hcs hxs hS hp c u

theorem seqSearch_singleton {S : Subject} {forward : Bool} (q : Node) (p : Nat) (c : Captures)
    (u : Undo) : seqSearch counted S keep forward [q] p c u = q.search counted S keep forward p c u := by
  cases forward with
  | true => exact Search.bind_one _
  | false => exact Search.one_bind ..

theorem Simulates.congr {b : Nat} {f g : Nat → Captures → Undo → Search}
    (h : Simulates cap E keep cs K L f R W a b) (hfg : ∀ p c u, Valid cs p → f p c u = g p c u) :
    Simulates cap E keep cs K L g R W a b := by
  intro s u hs
  rw [← hfg _ _ _ hs.valid]
  exact h s u hs

theorem simulates_chars {forward : Bool} {xs : List Nat} {ms ms' : List Matcher}
    {code : List Inst} (hcs : CodePoints cs) (hxs : CodePoints xs) (hE : E.bytes = encode cs)
    (hf : L.forward = forward) (hg : CodeGen.generateChars forward ms xs = some (code, ms'))
    (hms : ms' <+: E.regex.matchers) (hc : CodeAt E.regex a code) :
    Simulates cap E keep cs K L (seqSearch counted E.subject keep forward (charNodes xs)) R W a
      (a + code.length) := by
  unfold CodeGen.generateChars at hg
  split at hg
  · cases hg
    apply Simulates.congr simulates_empty
    intro p c u _
    cases forward <;> rfl
  · next c =>
    cases hg
    have hsingle : Simulates cap E keep cs K L
        (fun p c' u => .ofOption c' u (Atom.iter E.subject (.char c) forward p)) R W a (a + 1) := by
      refine simulates_single hcs hE hf hc.head (fun _ => by cases forward <;> trivial) fun s => ?_
      cases forward <;> rfl
    exact hsingle.congr fun p c' u _ => (seqSearch_singleton (.atom (.char c)) p c' u).symm
  · simp only [Option.bind_eq_bind, Option.bind_eq_some_iff] at hg
    obtain ⟨⟨index, ms₁⟩, hem, hg⟩ := hg
    cases hg
    have hstr : Simulates cap E keep cs K L
        (fun p c u => .ofOption c u (expect E.bytes forward p (encode xs))) R W a (a + 1) :=
      simulates_string hcs hxs hE hf (emitMatcher_some hem hms) hc.head
    apply hstr.congr
    intro p c u hp
    exact (@seqSearch_chars keep cs counted E.subject forward xs hcs hxs hE p hp c u).symm

end

end Arsh.Regex
