import Arsh.Regex.Lookahead

/-!
# Classes and quantifiers under the look-ahead

The classes, quantifiers and new groups of a pattern against the scanner of
`resolveCaptureGroups`. In a class the scanner's level is the number of open classes.
-/

namespace Arsh.Regex.Parser

open UnicodeUtil

variable {C : Config} {forward : Bool} {node : Tree} {cur cur' : Cursor} {r r' : Bytes} {k : Nat}
  {p : Prop} {set : Bool}

/-! ## Strings of a class -/

theorem not_special_of_classSet {ch : Nat} (h : isClassSetSyntaxCharacter ch = false) :
    Plain ch := by
  simp [isClassSetSyntaxCharacter, Plain, byte] at h ⊢
  omega

theorem parseCodePointInCharClass_ok {mode : Mode}
    (h : parseCodePointInCharClass mode r = .ok (node, r')) :
    (∃ c, nextValidCodePoint r = .ok (c, r')) ∧ (mode = .unicodeSet → Plain (r.headD 0)) := by
  unfold parseCodePointInCharClass at h
  split at h
  · cases h
  split at h
  · cases h
  next hs =>
  cases hn : nextValidCodePoint r with
  | error err => simp [hn, Except.map] at h
  | ok x =>
    simp only [hn, Except.map, Except.ok.injEq, Prod.mk.injEq] at h
    refine ⟨⟨x.1, by rw [← h.2]⟩, fun hm => not_special_of_classSet ?_⟩
    simpa [hm] using hs

theorem Moves.classStringStep {s t : ClassString} (hm : C.mode = .unicodeSet)
    (h : classStringStep C forward s = .inl t) : Moves C s.cursor t.cursor := by
  unfold Parser.classStringStep at h
  split at h
  · cases h
  next ch rest hr =>
  split at h
  · next hch =>
    split at h
    · cases h
    · next ha =>
      cases h
      exact (Reads.parseAtomEscape (by rw [hr, hch]; rfl) ha).2 rfl
  split at h
  · cases h
  split at h
  · next hch =>
    cases h
    exact ⟨hr ▸ .plain (hch ▸ by decide), rfl⟩
  split at h
  · cases h
  · next hc =>
    cases h
    obtain ⟨⟨c, hn⟩, hp⟩ := parseCodePointInCharClass_ok hc
    exact ⟨.codePoint hn (hp hm), rfl⟩

theorem Moves.trans {cur'' : Cursor} (h : Moves C cur cur') (h' : Moves C cur' cur'') :
    Moves C cur cur'' :=
  ⟨h.1.trans h'.1.1, h'.2.trans h.2⟩

theorem Moves.parseClassString (hm : C.mode = .unicodeSet)
    (hr : startsWith ['\\', 'q'] cur.rest = true)
    (h : parseClassString C forward cur = .ok (node, cur')) : Moves C cur cur' := by
  have hr' : byte '\\' :: byte 'q' :: cur.rest.drop 2 = cur.rest := startsWith_eq hr
  unfold Parser.parseClassString at h
  split at h
  · cases h
  next hb =>
  rw [Bool.not_eq_true, Bool.not_eq_false'] at hb
  have hb' : byte '{' :: (cur.rest.drop 2).drop 1 = cur.rest.drop 2 := startsWith_eq hb
  have hstart : Moves C cur { cur with rest := cur.rest.drop 3 } := by
    refine ⟨?_, rfl⟩
    rw [List.drop_drop] at hb'
    rw [← hr', ← hb']
    exact Eats.escape.trans (Eats.plain (by decide)).1
  refine Machine.runTo_rule (I := fun s : ClassString => Moves C cur s.cursor)
    (P := fun x : Except Error (Tree × Cursor) => x = .ok (node, cur') → Moves C cur cur')
    ?_ ?_ ?_ _ hstart h
  · intro s _ h
    cases h
  · intro s t hs h
    exact hs.trans (.classStringStep hm h)
  · intro s x hs h hx
    subst hx
    unfold Parser.classStringStep at h
    split at h
    · cases h
    next ch rest hr =>
    split at h
    · split at h <;> cases h
    split at h
    · next hch =>
      cases h
      exact hs.trans ⟨hr ▸ .plain (hch ▸ by decide), rfl⟩
    split at h
    · cases h
    · split at h <;> cases h

/-- The loop over a string of a class comes to its end. -/
theorem classStringStep_ends (hm : C.mode = .unicodeSet) (s : ClassString) :
    Machine.Ends (classStringStep C forward) (fun _ => True) s
      (Machine.runTo (classStringStep C forward) (fun _ => .error .unclosedSubstring)
        s.cursor.rest.length s) := by
  refine Machine.halts_runTo (fun s => s.cursor.rest.length) ?_ ?_ trivial (Nat.le_refl _)
  · intro s _ hs
    rw [classStringStep, List.length_eq_zero_iff.1 hs]
  · intro s t _ h
    exact ⟨trivial, (Moves.classStringStep hm h).1.2⟩

/-! ## Classes -/

/-- What an element of a class does: the scanner, which is in the class, sees no group. -/
structure InClass (C : Config) (cur cur' : Cursor) : Prop where
  lookahead : ∀ level, lookahead C.unicodeSet (level + 1) cur.rest =
    lookahead C.unicodeSet (level + 1) cur'.rest
  length_lt : cur'.rest.length < cur.rest.length
  groups : cur'.groups = cur.groups

theorem Moves.inClass (h : Moves C cur cur') : InClass C cur cur' :=
  ⟨fun l => h.1.1.lookahead (l + 1), h.1.2, h.2⟩

theorem InClass.codePoint {c ch : Nat} (hr : cur.rest = ch :: r) (h1 : ch ≠ byte '\\')
    (h2 : ch ≠ byte '[') (h3 : ch ≠ byte ']') (hn : nextValidCodePoint cur.rest = .ok (c, r')) :
    InClass C cur { cur with rest := r' } := by
  by_cases hp : ch = byte '('
  · obtain ⟨hc, e⟩ := nextValidCodePoint_ok hn
    obtain ⟨b, bs, e', -, hbs⟩ := codePointToUtf8_plain hc
    rw [hr, e', List.cons_append, List.cons.injEq] at e
    have hskip : Skips C.unicodeSet r r' := e.2 ▸ .plain hbs
    refine ⟨fun l => ?_, ?_, rfl⟩
    · rw [hr, hp, lookahead_paren_class, hskip.lookahead]
    · rw [hr, List.length_cons]
      exact Nat.lt_succ_of_le hskip.length_le
  · exact Moves.inClass ⟨.codePoint hn (hr ▸ ⟨h1, hp, h2, h3⟩), rfl⟩

theorem InClass.parseClassAtom {ch : Nat} (hr : cur.rest = ch :: r) (hclose : ch ≠ byte ']')
    (hopen : ¬ (ch = byte '[' ∧ C.mode = .unicodeSet))
    (h : parseClassAtom C forward cur = .ok (node, cur')) : InClass C cur cur' := by
  unfold Parser.parseClassAtom at h
  split at h
  · next hq =>
    simp only [Bool.and_eq_true, decide_eq_true_eq] at hq
    exact (Moves.parseClassString hq.1 hq.2 h).inClass
  split at h
  · next hs => exact ((Reads.parseAtomEscape hs h).2 rfl).inClass
  next hs =>
  split at h
  · next hb =>
    cases h
    have hb' : byte '[' :: cur.rest.drop 1 = cur.rest := startsWith_eq hb
    have hch : ch = byte '[' := by
      rw [hr, List.cons.injEq] at hb'
      exact hb'.1.symm
    have hset : C.unicodeSet = false := by simpa using fun hm => hopen ⟨hch, hm⟩
    refine ⟨fun l => ?_, by simp [hr], rfl⟩
    conv_lhs => rw [← hb', lookahead_open]
    simp [hset]
  next hb =>
  split at h
  · cases h
  next hc =>
  cases h
  obtain ⟨⟨c, hn⟩, -⟩ := parseCodePointInCharClass_ok hc
  refine .codePoint hr ?_ ?_ hclose hn
  · rintro rfl
    exact hs (by rw [hr]; rfl)
  · rintro rfl
    exact hb (by rw [hr]; rfl)

theorem Skips.parseSetOperator {type : CharClassType} {q : Property} {op : Bytes}
    (h : parseSetOperator r = .ok (some (type, q, op))) :
    Skips set r (r.drop op.length) := by
  unfold Parser.parseSetOperator at h
  have hlen (n : Nat) (hn : n ≤ r.length) : (r.take n).length = n := List.length_take_of_le hn
  split at h
  · next hs =>
    split at h <;> cases h
    have hr := congrArg List.length (startsWith_eq hs)
    rw [hlen 2 (by simp at hr; omega)]
    exact .startsWith hs (by decide)
  split at h
  · next hs =>
    cases h
    have hr := congrArg List.length (startsWith_eq hs)
    rw [hlen 2 (by simp at hr; omega)]
    exact .startsWith hs (by decide)
  split at h
  · next hs =>
    cases h
    have hr := congrArg List.length (startsWith_eq hs)
    rw [hlen 1 (by simp at hr; omega)]
    exact .startsWith hs (by decide)
  · cases h

theorem Skips.resolveSetOperation {cls cls' : CharClass}
    (h : resolveSetOperation cls node r = .ok (cls', r')) : Skips set r r' := by
  unfold Parser.resolveSetOperation at h
  split at h
  · cases h
  dsimp only at h
  split at h
  · cases h
  · cases h
    exact .refl _ _
  next hop =>
  split at h
  · cases h
  split at h
  · cases h
  split at h
  · cases h
  · cases h
    exact .parseSetOperator hop

theorem Skips.resolveRange {mode : Mode} {cls cls' : CharClass}
    (h : resolveRange mode cls node r = .ok (cls', r')) : Skips set r r' := by
  unfold Parser.resolveRange at h
  dsimp only at h
  split at h
  · next hs =>
    have hskip : Skips set r (r.drop 1) := .startsWith hs (by decide)
    split_ifs at h <;> cases h <;> exact hskip
  · cases h
    exact .refl _ _

theorem ClassState.add_inl {s t : ClassState} (h : s.add C node = .inl t) :
    Skips C.unicodeSet s.cursor.rest t.cursor.rest ∧ t.cursor.groups = s.cursor.groups ∧
      t.below = s.below := by
  unfold ClassState.add at h
  split at h
  · cases h
  split at h
  · cases h
  next hadd =>
  cases h
  refine ⟨?_, rfl, rfl⟩
  split at hadd
  · exact .resolveSetOperation hadd
  · exact .resolveRange hadd

theorem ClassState.add_ne {s : ClassState} {x : Tree × Cursor} :
    s.add C node ≠ .inr (.ok x) := by
  unfold ClassState.add
  split
  · simp
  split <;> simp

/-- The invariant of the loop over a class that begins at `cur`. -/
structure ClassInv (C : Config) (cur : Cursor) (s : ClassState) : Prop where
  flat : C.unicodeSet = false → s.below = []
  lookahead : lookahead C.unicodeSet (s.below.length + 1) s.cursor.rest =
    lookahead C.unicodeSet 0 cur.rest
  length_lt : s.cursor.rest.length < cur.rest.length
  groups : s.cursor.groups = cur.groups

theorem ClassInv.add {s t : ClassState} (hs : ClassInv C cur s) (h : s.add C node = .inl t) :
    ClassInv C cur t := by
  obtain ⟨hskip, hg, hb⟩ := ClassState.add_inl h
  refine ⟨fun hset => hb ▸ hs.flat hset, ?_, hskip.length_le.trans_lt hs.length_lt,
    hg.trans hs.groups⟩
  rw [hb, ← hskip.lookahead, hs.lookahead]

theorem openClass_rest (below : List CharClass) (cur : Cursor) :
    Skips set cur.rest (openClass below cur).cursor.rest := by
  unfold openClass
  dsimp only
  split
  · next hi => exact .startsWith hi (by decide)
  · exact .refl _ _

/-- Each round takes some text and keeps the invariant. -/
theorem ClassInv.step {depth : Nat} {s t : ClassState} (hs : ClassInv C cur s)
    (h : classStep C forward depth s = .inl t) :
    ClassInv C cur t ∧ t.cursor.rest.length < s.cursor.rest.length := by
  unfold classStep at h
  split at h
  · cases h
  next ch rest hr =>
  have hlen : rest.length < s.cursor.rest.length := by simp [hr]
  split at h
  · next hopen =>
    simp only [Bool.and_eq_true, decide_eq_true_eq] at hopen
    split at h
    · cases h
    cases h
    have hskip := @openClass_rest C.unicodeSet (s.top :: s.below) { s.cursor with rest := rest }
    have hlt := hskip.length_le.trans_lt hlen
    refine ⟨⟨fun hset => by simp [hopen.2] at hset, ?_, hlt.trans hs.length_lt, hs.groups⟩, hlt⟩
    rw [← hskip.lookahead, ← hs.lookahead, hr, hopen.1, lookahead_open]
    simp [hopen.2, openClass]
  split at h
  · next hclose =>
    split at h
    · cases h
    · cases h
    · next node cls below hfin hb =>
      have hs' : ClassInv C cur ⟨cls, below, { s.cursor with rest := rest }⟩ := by
        refine ⟨fun hset => ?_, ?_, hlen.trans hs.length_lt, hs.groups⟩
        · have hnil := hs.flat hset
          rw [hb] at hnil
          cases hnil
        · rw [← hs.lookahead, hr, hclose, lookahead_close, hb]
          rfl
      exact ⟨hs'.add h, (ClassState.add_inl h).1.length_le.trans_lt hlen⟩
  next hopen hclose =>
  split at h
  · cases h
  · next node cursor ha =>
    have hin := InClass.parseClassAtom hr hclose (by simpa using hopen) ha
    have hs' : ClassInv C cur { s with cursor := cursor } :=
      ⟨hs.flat, (hin.lookahead _).symm.trans hs.lookahead, hin.length_lt.trans hs.length_lt,
        hin.groups.trans hs.groups⟩
    exact ⟨hs'.add h, (ClassState.add_inl h).1.length_le.trans_lt hin.length_lt⟩

theorem ClassInv.close {depth : Nat} {s : ClassState} (hs : ClassInv C cur s)
    (h : classStep C forward depth s = .inr (.ok (node, cur'))) :
    cur'.rest.length < cur.rest.length ∧ cur'.groups = cur.groups ∧
      Parser.lookahead C.unicodeSet 0 cur.rest = Parser.lookahead C.unicodeSet 0 cur'.rest := by
  unfold classStep at h
  split at h
  · cases h
  next ch rest hr =>
  split at h
  · split at h <;> cases h
  split at h
  · next hclose =>
    split at h
    · cases h
    · next hfin hb =>
      cases h
      have hlen := hs.length_lt
      rw [hr, List.length_cons] at hlen
      refine ⟨Nat.lt_of_succ_lt hlen, hs.groups, ?_⟩
      rw [← hs.lookahead, hr, hclose, lookahead_close, hb]
      rfl
    · exact absurd h ClassState.add_ne
  split at h
  · cases h
  · exact absurd h ClassState.add_ne

theorem ClassInv.openClass (hr : startsWith [ '['] cur.rest = true) :
    ClassInv C cur (openClass [] { cur with rest := cur.rest.drop 1 }) := by
  have hr' : byte '[' :: cur.rest.drop 1 = cur.rest := startsWith_eq hr
  have hskip := @openClass_rest C.unicodeSet [] { cur with rest := cur.rest.drop 1 }
  refine ⟨fun _ => rfl, ?_, hskip.length_le.trans_lt ?_, rfl⟩
  · rw [← hskip.lookahead]
    conv_rhs => rw [← hr', lookahead_open]
    rfl
  · conv_rhs => rw [← hr', List.length_cons]
    exact Nat.lt_succ_self _

/-- A class keeps what is foreseen. -/
theorem Reads.parseCharClass {depth : Nat} (hr : startsWith [ '['] cur.rest = true)
    (h : parseCharClass C forward depth cur = .ok (node, cur')) : Reads C cur cur' := by
  unfold Parser.parseCharClass at h
  split at h
  · cases h
  obtain ⟨hlen, hg, hl⟩ := Machine.runTo_rule (I := ClassInv C cur)
    (P := fun x : Except Error (Tree × Cursor) => x = .ok (node, cur') →
      cur'.rest.length < cur.rest.length ∧ cur'.groups = cur.groups ∧
        lookahead C.unicodeSet 0 cur.rest = lookahead C.unicodeSet 0 cur'.rest)
    (fun _ _ h => by cases h) (fun _ _ hs h => (hs.step h).1)
    (fun _ _ hs h hx => hs.close (hx ▸ h)) _ (.openClass hr) h
  refine ⟨hlen, by rw [hg], by rw [hg], fun k p hf => ?_⟩
  obtain ⟨hc, hn, hp⟩ := hf
  rw [hl] at hc hn
  exact ⟨hg ▸ hc, hg ▸ hn, hg ▸ hp⟩

/-- The loop over a class comes to its end. -/
theorem classStep_ends {depth : Nat} (hr : startsWith [ '['] cur.rest = true) :
    Machine.Ends (classStep C forward depth) (ClassInv C cur)
      (openClass [] { cur with rest := cur.rest.drop 1 })
      (Machine.runTo (classStep C forward depth) (fun _ => .error .unclosedCharClass)
        cur.rest.length (openClass [] { cur with rest := cur.rest.drop 1 })) := by
  have hstart := @ClassInv.openClass C cur hr
  refine Machine.halts_runTo (fun s => s.cursor.rest.length) ?_ (fun _ _ hs h => hs.step h) hstart
    hstart.length_lt.le
  intro s _ hs
  rw [classStep, List.length_eq_zero_iff.1 hs]

/-! ## Quantifiers and groups -/

variable {s t : State}

theorem Skips.repeatAtom {mode : Mode} {atom res : Option Tree} {n n' min max : Nat} {old : Bytes}
    (h : repeatAtom mode atom n old min max r = .ok (res, n', r')) :
    Skips set r r' ∧ ∃ q, atom = some q ∧ res.isSome := by
  unfold Parser.repeatAtom at h
  dsimp only at h
  split at h
  · cases h
  split at h
  · split at h
    · cases h
    · cases h
      exact ⟨.parseGreedy rfl, _, rfl, rfl⟩
  · cases h

/-- A quantifier takes plain text only, and nothing when there is no atom. -/
theorem Skips.tryToParseQuantifier {atom res : Option Tree} {n n' : Nat}
    (h : tryToParseQuantifier C atom n r = .ok (res, n', r')) :
    Skips set r r' ∧ (res = none ↔ atom = none) ∧ (atom = none → r' = r) := by
  have of_repeat {c min max : Nat} {rest rest' : Bytes} (hc : Eats set (c :: rest) rest')
      (h : Parser.repeatAtom C.mode atom n (c :: rest) min max rest' = .ok (res, n', r')) :
      Skips set (c :: rest) r' ∧ (res = none ↔ atom = none) ∧
        (atom = none → r' = c :: rest) := by
    obtain ⟨hs, q, rfl, hres⟩ := Skips.repeatAtom h
    exact ⟨hc.1.trans hs, by simp [Option.isSome_iff_ne_none.1 hres], by simp⟩
  unfold Parser.tryToParseQuantifier at h
  split at h
  · cases h
    exact ⟨.refl _ _, .rfl, fun _ => rfl⟩
  split at h
  · next hc => exact of_repeat (hc ▸ .plain (by decide)) h
  split at h
  · next hc => exact of_repeat (hc ▸ .plain (by decide)) h
  split at h
  · next hc => exact of_repeat (hc ▸ .plain (by decide)) h
  split at h
  · next hc =>
    subst hc
    split at h
    · split at h
      · cases h
        exact ⟨.refl _ _, .rfl, fun _ => rfl⟩
      · cases h
    · next hb => exact of_repeat (.parseQuantifierBounds hb) h
  · cases h
    exact ⟨.refl _ _, .rfl, fun _ => rfl⟩

theorem quantify_ne {atom : Option Tree} {x : Tree × State} :
    s.quantify C atom ≠ .inr (.ok x) := by
  unfold State.quantify
  split <;> simp

theorem quantify_some {q : Tree} (h : s.quantify C (some q) = .inl t) :
    Skips C.unicodeSet s.rest t.rest ∧ t.groups = s.groups := by
  unfold State.quantify at h
  split at h
  · cases h
  · next hq =>
    cases h
    exact ⟨(Skips.tryToParseQuantifier hq).1, rfl⟩
  · next hq =>
    have hnone := (@Skips.tryToParseQuantifier C _ _ true _ _ _ _ hq).2.1.1 rfl
    cases hnone

theorem quantify_none {ch : Nat} (hr : s.rest = ch :: r) (hch : Plain ch)
    (h : s.quantify C none = .inl t) :
    Eats C.unicodeSet s.rest t.rest ∧ t.groups = s.groups := by
  unfold State.quantify at h
  split at h
  · cases h
  · next hq =>
    have hsome := (@Skips.tryToParseQuantifier C _ _ true _ _ _ _ hq).2.1.2 rfl
    cases hsome
  · next hq =>
    have e := (@Skips.tryToParseQuantifier C _ _ true _ _ _ _ hq).2.2 rfl
    cases h
    exact ⟨by rw [e, hr]; exact .plain hch, rfl⟩

theorem Reads.trans_skips (h : Reads C cur cur') (hs : Skips C.unicodeSet cur'.rest r) :
    Reads C cur { cur' with rest := r } :=
  ⟨hs.length_le.trans_lt h.1, h.count, h.named, fun k p hf => (h.foresees k p hf).skips hs⟩

theorem newCaptureGroup_ok {g g' : Groups} {index : Nat}
    (h : newCaptureGroup g = .ok (index, g')) :
    index = g.captureGroupCount + 1 ∧ g' = { g with captureGroupCount := index } := by
  unfold newCaptureGroup at h
  split at h <;> cases h
  exact ⟨rfl, rfl⟩

theorem newNamedCaptureGroup_ok {name : Bytes} {index : Nat}
    (h : newNamedCaptureGroup C s name = .ok (index, t)) :
    index = s.groups.captureGroupCount + 1 ∧
      t = { s with
        top := { s.top with existingGroupNames := name :: s.top.existingGroupNames }
        cursor := { s.cursor with
          groups := { s.groups with
            captureGroupCount := index
            namedCaptureGroups := addName name index s.groups.namedCaptureGroups } } } := by
  unfold newNamedCaptureGroup at h
  split at h
  · cases h
  split at h
  · cases h
  next hn =>
  obtain ⟨rfl, rfl⟩ := newCaptureGroup_ok hn
  cases h
  exact ⟨rfl, rfl⟩

theorem addName_length (name : Bytes) (index : Nat) (es : List (Bytes × List Nat)) :
    0 < (addName name index es).length := by
  cases es with
  | nil => simp [addName]
  | cons e es =>
    unfold addName
    split <;> simp

end Arsh.Regex.Parser
