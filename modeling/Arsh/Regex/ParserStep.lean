import Arsh.Regex.LookaheadClasses

/-!
# What a round of the parser can do

`Round C s t` lists the ways in which the loop of `parse` goes on: it appends an atom, opens a
group, closes one or begins the next alternative. `Round.of_step` is the only place that looks into
`step`; what holds along a parse is proved from the four cases.
-/

namespace Arsh.Regex

/-- A node that holds no group. -/
def Tree.isAtom : Tree → Bool
  | .any | .char _ | .charClass _ _ _ _ | .property _ | .boundary _ | .backRef _ _ => true
  | _ => false

namespace Parser

open UnicodeUtil

variable {C : Config} {forward : Bool} {node q : Tree} {cur cur' : Cursor} {r r' : Bytes}
  {op : EscapeParseOp} {ch : Nat} {s t : State}

/-! ## Atoms -/

theorem isAtom_of_propertyNode {U : Ucp} {left right : Bytes} {invert : Bool}
    (h : propertyNode U left right invert r = .ok (node, r')) : node.isAtom = true := by
  unfold propertyNode at h
  split at h <;> cases h
  rfl

theorem isAtom_of_parseUnicodePropertyEscape {U : Ucp} {mode : Mode}
    (h : parseUnicodePropertyEscape U mode r = .ok (node, r')) : node.isAtom = true := by
  unfold parseUnicodePropertyEscape at h
  dsimp only at h
  split at h
  · split at h
    · split at h
      · cases h
        rfl
      · exact isAtom_of_propertyNode h
    · split at h
      · split at h
        · cases h
        · exact isAtom_of_propertyNode h
      · cases h
  · cases h

theorem isAtom_of_parseLegacyOctal : (parseLegacyOctal r).1.isAtom = true := by
  unfold parseLegacyOctal
  split <;> rfl

theorem isAtom_of_parseBackRefOrOctal {inCharClass : Bool}
    (h : parseBackRefOrOctal C inCharClass cur = .ok (node, cur')) : node.isAtom = true := by
  unfold parseBackRefOrOctal at h
  dsimp only at h
  split at h
  · cases h
    rfl
  split at h
  · split at h <;> cases h
    exact isAtom_of_parseLegacyOctal
  split at h
  · split at h <;> cases h
    exact isAtom_of_parseLegacyOctal
  split at h
  · cases h
    rfl
  · split at h <;> cases h
    exact isAtom_of_parseLegacyOctal

theorem isAtom_of_parseNamedBackRef {inCharClass : Bool}
    (h : parseNamedBackRef C inCharClass cur = .ok (node, cur')) : node.isAtom = true := by
  unfold parseNamedBackRef at h
  split at h
  · split at h <;> cases h
    rfl
  split at h
  · cases h
  dsimp only at h
  split_ifs at h <;> cases h <;> rfl

theorem isAtom_of_parseIdentityEscape {start : Bytes}
    (h : parseIdentityEscape C op forward start r = .ok (node, r')) : node.isAtom = true := by
  unfold parseIdentityEscape at h
  dsimp only at h
  split at h
  · split at h <;> cases h
    rfl
  split at h
  · cases h
    rfl
  split at h
  · cases h
    rfl
  split at h
  · cases h
  split at h <;> cases h
  rfl

theorem isAtom_of_parseCharEscape {start : Bytes}
    (h : parseCharEscape C op forward start ch r = .ok (node, r')) : node.isAtom = true := by
  unfold parseCharEscape at h
  dsimp only at h
  split at h
  · cases h
    rfl
  split at h
  · split_ifs at h <;> cases h <;> rfl
  split at h
  · cases h
    split <;> rfl
  split at h
  · split_ifs at h <;> cases h <;> rfl
  split at h
  · split at h <;> cases h
    rfl
  split at h
  · split at h
    · cases h
    split at h
    · cases h
      rfl
    · exact isAtom_of_parseUnicodePropertyEscape h
  split at h
  · split at h
    · cases h
      rfl
    · split at h <;> cases h
      rfl
  split at h
  · split at h
    · cases h
      rfl
    · split at h <;> cases h
      rfl
  split at h
  · cases h
    rfl
  split at h
  · cases h
  · exact isAtom_of_parseIdentityEscape h

theorem isAtom_of_parseAtomEscape (h : parseAtomEscape C op forward cur = .ok (node, cur')) :
    node.isAtom = true := by
  unfold parseAtomEscape at h
  split at h
  · cases h
  split at h
  · exact isAtom_of_parseBackRefOrOctal h
  split at h
  · exact isAtom_of_parseNamedBackRef h
  split at h
  · cases h
  next hc =>
  cases h
  exact isAtom_of_parseCharEscape hc

theorem isAtom_of_finalize {cls : CharClass} (h : cls.finalize = some node) :
    node.isAtom = true := by
  unfold CharClass.finalize at h
  split at h <;> cases h
  rfl

theorem isAtom_of_parseCharClass {depth : Nat}
    (h : parseCharClass C forward depth cur = .ok (node, cur')) : node.isAtom = true := by
  unfold parseCharClass at h
  split at h
  · cases h
  refine Machine.runTo_rule (I := fun _ => True)
    (P := fun x : Except Error (Tree × Cursor) => x = .ok (node, cur') → node.isAtom = true)
    (fun _ _ h => by cases h) (fun _ _ _ _ => trivial) ?_ _ trivial h
  intro s x _ h hx
  subst hx
  unfold classStep at h
  split at h
  · cases h
  split at h
  · split at h <;> cases h
  split at h
  · split at h
    · cases h
    · next hfin _ =>
      cases h
      exact isAtom_of_finalize hfin
    · exact absurd h ClassState.add_ne
  split at h
  · cases h
  · exact absurd h ClassState.add_ne

/-! ## Quantifiers -/

/-- The node of an atom with its quantifier. -/
def Quantified (p q : Tree) : Prop :=
  q = p ∨ ∃ loopIndex min max greedy, q = p.repeatNode loopIndex min max greedy

theorem Quantified.of_tryToParseQuantifier {p : Tree} {n n' : Nat}
    (h : tryToParseQuantifier C (some p) n r = .ok (some q, n', r')) : Quantified p q := by
  have of_repeat {old rest : Bytes} {min max : Nat}
      (h : repeatAtom C.mode (some p) n old min max rest = .ok (some q, n', r')) :
      Quantified p q := by
    unfold repeatAtom at h
    dsimp only at h
    split at h
    · cases h
    split at h
    · next he _ =>
      split at h
      · cases h
      · cases h
        cases he
        exact .inr ⟨_, _, _, _, rfl⟩
    · cases h
  unfold tryToParseQuantifier at h
  split at h
  · cases h
    exact .inl rfl
  split at h
  · exact of_repeat h
  split at h
  · exact of_repeat h
  split at h
  · exact of_repeat h
  split at h
  · split at h
    · split at h <;> cases h
      exact .inl rfl
    · exact of_repeat h
  · cases h
    exact .inl rfl

theorem quantify_some_eq {p : Tree} (h : s.quantify C (some p) = .inl t) :
    ∃ q n rest, Quantified p q ∧ Skips C.unicodeSet s.rest rest ∧
      t = { s.moveTo rest with loopCount := n }.append q := by
  have hs := (quantify_some h).1
  unfold State.quantify at h
  split at h
  · cases h
  · next hq =>
    cases h
    exact ⟨_, _, _, .of_tryToParseQuantifier hq, hs, rfl⟩
  · next hq =>
    have hnone := (@Skips.tryToParseQuantifier C _ _ true _ _ _ _ hq).2.1.1 rfl
    cases hnone

theorem quantify_none_eq (hr : s.rest = ch :: r) (hch : Plain ch)
    (h : s.quantify C none = .inl t) :
    ∃ rest, Eats C.unicodeSet s.rest rest ∧ t = (s.moveTo rest).append (.char ch) := by
  have hs := (quantify_none hr hch h).1
  unfold State.quantify at h
  split at h
  · cases h
  · next hq =>
    have hsome := (@Skips.tryToParseQuantifier C _ _ true _ _ _ _ hq).2.1.2 rfl
    cases hsome
  · next hq =>
    have e := (@Skips.tryToParseQuantifier C _ _ true _ _ _ _ hq).2.2 rfl
    cases h
    exact ⟨_, hs, by rw [e, hr]; rfl⟩

/-! ## Groups -/

/-- The capture group of a frame. -/
def FrameType.captures : FrameType → List Nat
  | .group .capture groupIndex _ _ => [groupIndex]
  | _ => []

/-- A new group with a name, in front of `rest`. -/
def State.enterNamed (s : State) (name rest : Bytes) : State :=
  { s with top := { s.top with
      existingGroupNames := name :: s.top.existingGroupNames } }.push
    (.group .capture (s.groups.captureGroupCount + 1) .none .none) rest
    { s.groups with
      captureGroupCount := s.groups.captureGroupCount + 1
      namedCaptureGroups :=
        addName name (s.groups.captureGroupCount + 1) s.groups.namedCaptureGroups }

/-- How `enterGroup` opens a group. -/
inductive Enters (C : Config) (s : State) : State → Prop where
  | capture {rest : Bytes} (hr : s.rest = byte '(' :: rest)
      (hq : startsWith ['?'] rest = false) :
      Enters C s (s.push (.group .capture (s.groups.captureGroupCount + 1) .none .none) rest
        { s.groups with captureGroupCount := s.groups.captureGroupCount + 1 })
  | named {rest rest' name : Bytes} (hr : s.rest = byte '(' :: byte '?' :: byte '<' :: rest)
      (he : startsWith ['='] rest = false) (hn : startsWith ['!'] rest = false)
      (hskip : Skips C.unicodeSet rest rest') (hdup : (C.checkNames && s.nameExists name) = false) :
      Enters C s (s.enterNamed name rest')
  | other {type : FrameType} {rest : Bytes} {directions : List Bool} (ht : type.captures = [])
      (hr : Reads C s.cursor ⟨rest, s.groups⟩) :
      Enters C s { s.push type rest s.groups with directions := directions }

theorem Reads.of_level_zero (hl : r'.length < cur.rest.length)
    (h : lookahead C.unicodeSet 0 cur.rest = lookahead C.unicodeSet 0 r') :
    Reads C cur { cur with rest := r' } := by
  refine ⟨hl, rfl, rfl, fun k p hf => ?_⟩
  obtain ⟨hc, hn, hp⟩ := hf
  rw [h] at hc hn
  exact ⟨hc, hn, hp⟩

theorem lookAroundType_some {type : LookAroundType} (h : lookAroundType r = some (type, r')) :
    r'.length < r.length ∧
      lookahead C.unicodeSet 0 (byte '(' :: byte '?' :: r) = lookahead C.unicodeSet 0 r' := by
  have other {c : Char} (hc : startsWith [c] r = true)
      (hlt : startsWith ['<'] (byte c :: r.drop 1) = false) (hp : Plain (byte c)) :
      (r.drop 1).length < r.length ∧ lookahead C.unicodeSet 0 (byte '(' :: byte '?' :: r) =
        lookahead C.unicodeSet 0 (r.drop 1) := by
    have hr : byte c :: r.drop 1 = r := startsWith_eq hc
    have hl := congrArg List.length hr
    rw [List.length_cons] at hl
    refine ⟨by omega, ?_⟩
    rw [hr] at hlt
    rw [lookahead_other hlt]
    conv_lhs => rw [← hr, lookahead_plain hp]
  have behind {c : Char} (hc : startsWith ['<', c] r = true) (hb : c = '=' ∨ c = '!')
      (hp : Plain (byte c)) :
      (r.drop 2).length < r.length ∧ lookahead C.unicodeSet 0 (byte '(' :: byte '?' :: r) =
        lookahead C.unicodeSet 0 (r.drop 2) := by
    have hr : byte '<' :: byte c :: r.drop 2 = r := startsWith_eq hc
    have hs : startsWith ['='] (byte c :: r.drop 2) = true ∨
        startsWith ['!'] (byte c :: r.drop 2) = true := by
      rcases hb with rfl | rfl
      · exact .inl rfl
      · exact .inr rfl
    have hl := congrArg List.length hr
    rw [List.length_cons, List.length_cons] at hl
    refine ⟨by omega, ?_⟩
    conv_lhs => rw [← hr, lookahead_lookBehind hs, lookahead_plain hp]
  unfold lookAroundType at h
  split at h
  · next hc =>
    cases h
    exact other hc rfl (by decide)
  split at h
  · next hc =>
    cases h
    exact other hc rfl (by decide)
  split at h
  · next hc =>
    cases h
    exact behind hc (.inl rfl) (by decide)
  split at h
  · next hc =>
    cases h
    exact behind hc (.inr rfl) (by decide)
  · cases h

theorem lookAroundType_none (h : lookAroundType (byte '<' :: r) = none) :
    startsWith ['='] r = false ∧ startsWith ['!'] r = false := by
  have he : startsWith ['<', '='] (byte '<' :: r) = startsWith ['='] r := by
    simp [startsWith, byte]
  have hn : startsWith ['<', '!'] (byte '<' :: r) = startsWith ['!'] r := by
    simp [startsWith, byte]
  rw [lookAroundType, if_neg (by simp [startsWith, byte]), if_neg (by simp [startsWith, byte]),
    he, hn] at h
  split at h
  · cases h
  split at h
  · cases h
  · next h1 h2 => exact ⟨by simpa using h1, by simpa using h2⟩

theorem Enters.of_enterGroup (hr : s.rest = byte '(' :: r) (h : enterGroup C s = .ok t) :
    Enters C s t := by
  unfold enterGroup at h
  simp only [hr, List.drop_succ_cons, List.drop_zero] at h
  split at h
  · cases h
  split at h
  · next hq =>
    rw [Bool.not_eq_true'] at hq
    split at h
    · cases h
    next hn =>
    obtain ⟨rfl, rfl⟩ := newCaptureGroup_ok hn
    cases h
    exact .capture hr hq
  next hq =>
  rw [Bool.not_eq_true', Bool.not_eq_false] at hq
  have hr' : byte '?' :: r.drop 1 = r := startsWith_eq hq
  rw [← hr'] at hr
  -- what the text up to `rest` means to the scanner
  have reads {rest : Bytes} (hl : rest.length ≤ (r.drop 1).length)
      (h : lookahead C.unicodeSet 0 s.rest = lookahead C.unicodeSet 0 rest) :
      Reads C s.cursor ⟨rest, s.groups⟩ := by
    refine .of_level_zero ?_ h
    have : s.cursor.rest = byte '(' :: byte '?' :: r.drop 1 := hr
    rw [this, List.length_cons, List.length_cons]
    omega
  split at h
  · next hla =>
    cases h
    obtain ⟨hl, hlook⟩ := lookAroundType_some (C := C) hla
    exact @Enters.other C s (.lookAround _) _ _ rfl (reads hl.le (hr ▸ hlook))
  next hla =>
  split at h
  · cases h
  split at h
  · next hc =>
    cases h
    have hlt : startsWith ['<'] (r.drop 1) = false := by
      have hc' : byte ':' :: (r.drop 1).drop 1 = r.drop 1 := startsWith_eq hc
      rw [← hc']
      rfl
    have hskip : Skips C.unicodeSet (r.drop 1) ((r.drop 1).drop 1) := .startsWith hc (by decide)
    refine @Enters.other C s (.group .nonCapture 0 .none .none) _ s.directions rfl
      (reads hskip.length_le ?_)
    rw [hr, lookahead_other hlt, hskip.lookahead]
  split at h
  · next hlt =>
    have hlt' : byte '<' :: (r.drop 1).drop 1 = r.drop 1 := startsWith_eq hlt
    split at h
    · cases h
    next name rest hname =>
    split at h
    · cases h
    next index s' hnew =>
    have hdup : (C.checkNames && s.nameExists name) = false := by
      unfold newNamedCaptureGroup at hnew
      split at hnew
      · cases hnew
      · next hd => simpa using hd
    obtain ⟨rfl, rfl⟩ := newNamedCaptureGroup_ok hnew
    cases h
    rw [← hlt'] at hr hla hname
    obtain ⟨he, hn⟩ := lookAroundType_none (Option.eq_none_iff_forall_ne_some.2 fun x hx =>
      hla x.1 x.2 hx)
    have heats := @Eats.parseCaptureGroupName C.unicodeSet _ _ _ _ _ _ hname (by simp)
    have hskip : Skips C.unicodeSet ((r.drop 1).drop 1) rest := by
      refine ⟨fun l => ?_, ?_⟩
      · rw [← heats.1.lookahead, lookahead_plain (by decide)]
      · exact Nat.le_of_lt_succ heats.2
    exact .named hr he hn hskip hdup
  next hlt =>
  split at h
  · cases h
  next hm =>
  cases h
  have hskip := @Skips.parseGroupModifiers C.unicodeSet _ _ _ _ _ hm
  refine @Enters.other C s (.group .modifier 0 _ _) _ s.directions rfl
    (reads hskip.length_le ?_)
  rw [hr, lookahead_other (by simpa using hlt), hskip.lookahead]

/-! ## Rounds -/

/-- What a round of the loop does. -/
inductive Round (C : Config) (s : State) : State → Prop where
  | atom {p q : Tree} {cursor : Cursor} {n : Nat} (hp : p.isAtom = true) (hq : Quantified p q)
      (hr : Reads C s.cursor cursor) :
      Round C s ({ s with cursor := cursor, loopCount := n }.append q)
  | enter {t : State} (h : Enters C s t) : Round C s t
  | exit {parent : Frame} {below : List Frame} {q : Tree} {cursor : Cursor} {n : Nat}
      {directions : List Bool} (hb : s.below = parent :: below) (hq : Quantified s.top.wrap q)
      (hr : Reads C s.cursor cursor) :
      Round C s ({
        cursor := cursor
        loopCount := n
        top := { parent with existingGroupNames :=
          s.top.clearAndMergeGroupNames.mergedExistingGroupNames ++ parent.existingGroupNames }
        below := below
        directions := directions : State }.append q)
  | alternative {rest : Bytes} (hr : Reads C s.cursor { s.cursor with rest := rest }) :
      Round C s { s.moveTo rest with top := s.top.nextAlternative }

theorem Reads.plain (hr : s.rest = ch :: r) (hch : Plain ch) :
    Reads C s.cursor { s.cursor with rest := r } := by
  have hr' : s.cursor.rest = ch :: r := hr
  exact Moves.reads ⟨hr' ▸ .plain hch, rfl⟩

theorem Round.quantify {p : Tree} {cursor : Cursor} (hp : p.isAtom = true)
    (hr : Reads C s.cursor cursor)
    (h : { s with cursor := cursor }.quantify C (some p) = .inl t) : Round C s t := by
  obtain ⟨q, n, rest, hq, hs, rfl⟩ := quantify_some_eq h
  exact .atom hp hq (hr.trans_skips hs)

/-- An atom of the loop, or a brace or another quantifier without an atom. -/
theorem parseAtom_ok {atom : Option Tree} (hr : s.rest = ch :: r) (h1 : ch ≠ byte '(')
    (h : parseAtom C s ch r = .ok (atom, cur')) :
    (∃ p, atom = some p ∧ p.isAtom = true ∧ Reads C s.cursor cur') ∨
      (atom = none ∧ cur' = s.cursor ∧ Plain ch) := by
  have hr' : s.cursor.rest = ch :: r := hr
  unfold parseAtom at h
  dsimp only at h
  split at h
  · next hch =>
    cases ha : parseAtomEscape C .default s.direction s.cursor with
    | error err => simp [ha, Except.map] at h
    | ok x =>
      simp only [ha, Except.map, Except.ok.injEq, Prod.mk.injEq] at h
      obtain ⟨rfl, rfl⟩ := h
      exact .inl ⟨_, rfl, isAtom_of_parseAtomEscape ha,
        (Reads.parseAtomEscape (by rw [hr', hch]; rfl) ha).1⟩
  next h3 =>
  split at h
  · next hch =>
    cases h
    exact .inl ⟨_, rfl, rfl, .plain hr (hch ▸ by decide)⟩
  split at h
  · next hch =>
    cases h
    refine .inr ⟨rfl, rfl, ?_⟩
    simp only [Bool.or_eq_true, decide_eq_true_eq] at hch
    rcases hch with ((rfl | rfl) | rfl) | rfl <;> decide
  split at h
  · next hch =>
    cases hc : parseCharClass C s.direction (s.below.length + 1) s.cursor with
    | error err => simp [hc, Except.map] at h
    | ok x =>
      simp only [hc, Except.map, Except.ok.injEq, Prod.mk.injEq] at h
      obtain ⟨rfl, rfl⟩ := h
      exact .inl ⟨_, rfl, isAtom_of_parseCharClass hc,
        .parseCharClass (by rw [hr', hch]; rfl) hc⟩
  next h8 =>
  split at h
  · next hch =>
    split at h <;> cases h
    refine .inl ⟨_, rfl, rfl, .of_level_zero ?_ ?_⟩
    · rw [hr']
      exact Nat.lt_succ_self _
    · rw [hr', hch, lookahead_close]
  next h9 =>
  split at h
  · next hch =>
    split at h <;> cases h
    exact .inl ⟨_, rfl, rfl, .plain hr (hch ▸ by decide)⟩
  · cases hn : nextValidCodePoint s.rest with
    | error err => simp [hn, Except.map] at h
    | ok x =>
      simp only [hn, Except.map, Except.ok.injEq, Prod.mk.injEq] at h
      obtain ⟨rfl, rfl⟩ := h
      refine .inl ⟨_, rfl, rfl, Moves.reads ⟨.codePoint hn ?_, rfl⟩⟩
      rw [hr']
      exact ⟨h3, h1, h8, h9⟩

/-- A round of the loop is one of the four cases. -/
theorem Round.of_step (h : step C s = .inl t) : Round C s t := by
  unfold step at h
  split at h
  · cases h
  next ch rest hr =>
  split at h
  · next hch =>
    cases h
    exact .atom (p := .boundary .start) (n := s.loopCount) rfl (.inl rfl)
      (.plain hr (hch ▸ by decide))
  split at h
  · next hch =>
    cases h
    exact .atom (p := .boundary .stop) (n := s.loopCount) rfl (.inl rfl)
      (.plain hr (hch ▸ by decide))
  split at h
  · next hch =>
    split at h
    · cases h
    next he =>
    cases h
    exact .enter (.of_enterGroup (hch ▸ hr) he)
  next hopen =>
  split at h
  · next hch =>
    split at h
    · cases h
    next node s' he =>
    unfold exitGroup at he
    split at he
    · cases he
    next parent below hb =>
    cases he
    obtain ⟨q, n, rest', hq, hs, rfl⟩ := quantify_some_eq h
    have hreads : Reads C s.cursor { s.cursor with rest := rest } := .plain hr (hch ▸ by decide)
    refine .exit hb hq (hreads.trans_skips ?_)
    have e : s.rest.drop 1 = rest := by rw [hr]; rfl
    rw [← e]
    exact hs
  split at h
  · next hch =>
    cases h
    exact .alternative (.plain hr (hch ▸ by decide))
  split at h
  · cases h
  · next ha =>
    cases h
    rcases parseAtom_ok hr hopen ha with ⟨p, hp, -, hreads⟩ | ⟨hn, -⟩
    · cases hp
      exact .atom (n := s.loopCount) rfl (.inl rfl) hreads
    · cases hn
  · next node cursor _ ha =>
    rcases parseAtom_ok hr hopen ha with ⟨p, rfl, hatom, hreads⟩ | ⟨rfl, rfl, hplain⟩
    · exact .quantify hatom hreads h
    · obtain ⟨rest, hs, rfl⟩ := quantify_none_eq hr hplain h
      exact .atom (p := .char ch) (n := s.loopCount) rfl (.inl rfl) (Moves.reads ⟨hs, rfl⟩)

end Parser

end Arsh.Regex
