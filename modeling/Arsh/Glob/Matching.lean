import Arsh.Glob.Segments

/-!
# Matching a component

The loop reads the elements of the component one by one and, when one does not match, resumes behind
the last star, one byte further on. So it succeeds if and only if the parts between the stars can be
laid one behind the other where they fit first (`returns_laid`). Whether this is the language depends
on these places: it is, if they are as good as those at characters.
-/

namespace Arsh.Glob

open UnicodeUtil

/-! ## The loop -/

section
variable {isctype : CharClass → Option Nat → Bool} {iter name n t u rest : Bytes} {s : State}
  {es : List Elem} {e : Elem}

/-- The pattern ends with `rest`, wherever the loop goes on. -/
structure Inv (rest : Bytes) (s : State) : Prop where
  parsed : (parse s.iter).2 = rest
  old {oldName oldIter : Bytes} : s.old = some (oldName, oldIter) → (parse oldIter).2 = rest

/-- What the loop finds where it resumes. -/
def State.Resumes (isctype : CharClass → Option Nat → Bool) (s : State) : Prop :=
  match s.old with
  | some (oldName, oldIter) => Laid isctype (elems oldIter) oldName
  | none => False

/-- The part that is read fits here, or further on behind the last star, and the parts behind it can
be laid. -/
def State.Succeeds (isctype : CharClass → Option Nat → Bool) (s : State) : Prop :=
  (attempt isctype (elems s.iter) s.name).Answer isctype (s.Resumes isctype)

/-- A round keeps the invariant and the answer, or gives the answer. -/
def Sound (isctype : CharClass → Option Nat → Bool) (rest : Bytes) (s : State) :
    State ⊕ Status × Bytes → Prop
  | .inl s' => Inv rest s' ∧ (s'.Succeeds isctype ↔ s.Succeeds isctype)
  | .inr r => (r.1.success = true ↔ s.Succeeds isctype) ∧ (r.1.success = true → r.2 = rest)

theorem backtrack_sound (hinv : Inv rest s)
    (hstuck : attempt isctype (elems s.iter) s.name = .stuck) :
    Sound isctype rest s s.backtrack := by
  have hanswer : s.Succeeds isctype ↔ s.Resumes isctype := by
    unfold State.Succeeds
    rw [hstuck]
    exact Iff.rfl
  unfold State.backtrack
  split
  · next oldName oldIter hold =>
    have hrest := hinv.old hold
    refine ⟨⟨hrest, fun hold' => ?_⟩, ?_⟩
    · cases hold'
      exact hrest
    · rw [hanswer, State.Resumes, hold]
      exact laid_attempt.symm
  · next hold =>
    refine ⟨?_, fun h => (nomatch h)⟩
    rw [hanswer, State.Resumes, hold]
    exact ⟨fun h => (nomatch h), False.elim⟩

theorem finish_eq (iter : Bytes) :
    (isEndOrSep (iter.dropWhile (· = chStar)) = true ↔ ∀ e ∈ elems iter, e = .star) ∧
      (isEndOrSep (iter.dropWhile (· = chStar)) = true →
        (parse iter).2 = iter.dropWhile (· = chStar)) := by
  induction iter with
  | nil =>
    rw [elems, parse_nil]
    exact ⟨⟨fun _ e he => (nomatch he), fun _ => rfl⟩, fun _ => rfl⟩
  | cons ch iter ih =>
    by_cases hch : ch = chStar
    · subst hch
      have hread := Reads.star iter
      rw [List.dropWhile_cons_of_pos (by rfl), hread.elems, hread.parse]
      refine ⟨?_, ih.2⟩
      rw [ih.1]
      exact ⟨fun h e he => (List.mem_cons.1 he).elim id (h e), fun h e he =>
        h e (List.mem_cons_of_mem _ he)⟩
    · rw [List.dropWhile_cons_of_neg (by simpa using hch)]
      rcases reads_or_end (ch :: iter) with hend | ⟨e, iter', hread⟩
      · rw [elems_nil_iff.2 hend, parse_end hend]
        exact ⟨⟨fun _ e he => (nomatch he), fun _ => hend⟩, fun _ => rfl⟩
      · have hend : isEndOrSep (ch :: iter) ≠ true := by
          intro hend
          rw [← elems_nil_iff, hread.elems] at hend
          cases hend
        have he : e ≠ .star := by
          rintro rfl
          cases hread
          exact hch rfl
        refine ⟨⟨fun h => absurd h hend, fun h => ?_⟩, fun h => absurd h hend⟩
        rw [hread.elems] at h
        exact absurd (h e (List.mem_cons_self ..)) he

theorem step_sound (hinv : Inv rest s) : Sound isctype rest s (step isctype s) := by
  by_cases hname : s.name = []
  · -- at the end of the name, where no part is tried further on
    have hstep : step isctype s = .inr s.finish := if_pos hname
    have hanswer : s.Succeeds isctype ↔ ∀ e ∈ elems s.iter, e = .star := by
      unfold State.Succeeds
      rw [hname]
      exact answer_nil
    obtain ⟨hiff, hrest⟩ := finish_eq s.iter
    rw [hstep]
    unfold State.finish Sound
    simp only
    rw [hanswer, ← hiff, ← hinv.parsed]
    cases hend : isEndOrSep (s.iter.dropWhile (· = chStar)) with
    | true => exact ⟨⟨fun _ => rfl, fun _ => rfl⟩, fun _ => (hrest hend).symm⟩
    | false =>
      exact ⟨⟨fun h => absurd h (by decide), fun h => absurd h Bool.false_ne_true⟩,
        fun h => absurd h (by decide)⟩
  rcases reads_or_end s.iter with hend | ⟨e, iter', hread⟩
  · -- at the end of the component
    rw [step_end hname hend]
    apply backtrack_sound hinv
    rw [elems_nil_iff.2 hend, attempt, if_neg hname]
  have hparsed := hinv.parsed
  rw [hread.parse] at hparsed
  have hsucceeds : s.Succeeds isctype ↔ (attempt isctype (e :: elems iter') s.name).Answer isctype
      (s.Resumes isctype) := by
    unfold State.Succeeds
    rw [hread.elems]
  rcases step_reads isctype hname hread with ⟨rfl, hend, hstep⟩ | ⟨rfl, hend, hstep⟩ |
      ⟨rfl, err, it, hstep⟩ | ⟨he, hbad, hpass, hstep⟩ | ⟨he, hbad, hpass, hstep⟩
  · -- a star at the end of the component
    rw [hstep]
    refine ⟨⟨fun _ => hsucceeds.2 ?_, fun _ => rfl⟩, fun _ => ?_⟩
    · rw [elems_nil_iff.2 hend]
      exact laid_nil s.name
    · rw [← hparsed, parse_end hend]
  · -- another star
    rw [hstep]
    refine ⟨⟨hparsed, fun hold => ?_⟩, ?_⟩
    · cases hold
      exact hparsed
    · rw [hsucceeds]
      exact laid_attempt.symm
  · -- a bracket expression that is not one
    rw [hstep]
    rw [attempt_bad] at hsucceeds
    exact ⟨⟨fun h => absurd h Bool.false_ne_true, fun h => (hsucceeds.1 h).elim⟩,
      fun h => absurd h Bool.false_ne_true⟩
  · -- the element matches
    rw [hstep]
    refine ⟨⟨hparsed, hinv.old⟩, ?_⟩
    rw [hsucceeds, attempt_cons he hbad hname, if_pos hpass]
    rfl
  · -- it does not
    rw [hstep]
    apply backtrack_sound hinv
    rw [hread.elems, attempt_cons he hbad hname, hpass]
    rfl

/-! ## The end of the loop -/

/-- The loop succeeds if and only if the parts can be laid where they fit first. -/
theorem halts_sound {r : Status × Bytes} (h : Machine.Halts (step isctype) s r)
    (hinv : Inv rest s) :
    (r.1.success = true ↔ s.Succeeds isctype) ∧ (r.1.success = true → r.2 = rest) := by
  obtain ⟨t, hrun, hstep⟩ := h
  induction hrun with
  | refl s =>
    have hsound : Sound isctype rest s (step isctype s) := step_sound hinv
    rw [hstep] at hsound
    exact hsound
  | @step s s' _ hs _ ih =>
    have hsound : Sound isctype rest s (step isctype s) := step_sound hinv
    rw [hs] at hsound
    obtain ⟨hinv', hanswer⟩ := hsound
    rw [← hanswer]
    exact ih hinv' hstep

/-- The rounds that are left: each star leaves less of the pattern, each resumption less of the
name, each element less of the pattern until the next resumption. -/
def State.measure (s : State) : Nat × Nat × Nat :=
  (match s.old with
    | some (_, oldIter) => oldIter.length
    | none => s.iter.length + 1,
  match s.name, s.old with
    | [], _ => 0
    | _, some (oldName, _) => oldName.length + 1
    | _, none => 0,
  s.iter.length)

/-- What is resumed is not shorter than what is read. -/
def State.Bounded (s : State) : Prop :=
  ∀ oldName oldIter, s.old = some (oldName, oldIter) → s.iter.length ≤ oldIter.length

def measureLt : Nat × Nat × Nat → Nat × Nat × Nat → Prop :=
  Prod.Lex (· < ·) (Prod.Lex (· < ·) (· < ·))

theorem measureLt_wf : WellFounded measureLt :=
  WellFounded.prod_lex Nat.lt_wfRel.wf (WellFounded.prod_lex Nat.lt_wfRel.wf Nat.lt_wfRel.wf)

theorem backtrack_measure {s' : State} (hname : s.name ≠ []) (h : s.backtrack = .inl s') :
    s'.Bounded ∧ measureLt s'.measure s.measure := by
  obtain ⟨name, iter, old⟩ := s
  unfold State.backtrack at h
  simp only at hname h
  split at h
  · next oldName oldIter =>
    cases h
    refine ⟨fun _ _ hold => ?_, .right _ (.left _ _ ?_)⟩
    · cases hold
      exact Nat.le_refl _
    · cases name with
      | nil => exact absurd rfl hname
      | cons c name =>
        cases oldName with
        | nil => exact Nat.zero_lt_succ _
        | cons c oldName => exact Nat.lt_succ_self _
  · cases h

theorem step_measure {s' : State} (hbound : s.Bounded) (h : step isctype s = .inl s') :
    s'.Bounded ∧ measureLt s'.measure s.measure := by
  by_cases hname : s.name = []
  · rw [step, if_pos hname] at h
    cases h
  rcases reads_or_end s.iter with hend | ⟨e, iter', hread⟩
  · rw [step_end hname hend] at h
    exact backtrack_measure hname h
  have hlen := hread.length
  rcases step_reads isctype hname hread with ⟨rfl, hend, hstep⟩ | ⟨rfl, hend, hstep⟩ |
      ⟨rfl, err, it, hstep⟩ | ⟨-, -, -, hstep⟩ | ⟨-, -, -, hstep⟩
  · rw [hstep] at h
    cases h
  · rw [hstep] at h
    cases h
    refine ⟨fun _ _ hold => ?_, .left _ _ ?_⟩
    · cases hold
      exact Nat.le_refl _
    · show iter'.length < _
      split
      · next oldName oldIter hold =>
        have hle := hbound _ _ hold
        omega
      · omega
  · rw [hstep] at h
    cases h
  · rw [hstep] at h
    cases h
    obtain ⟨name, iter, old⟩ := s
    simp only at hname hbound hread hlen ⊢
    cases old with
    | none => exact ⟨fun _ _ hold => (nomatch hold), .left _ _ (Nat.succ_lt_succ hlen)⟩
    | some p =>
      obtain ⟨oldName, oldIter⟩ := p
      refine ⟨fun _ _ hold => ?_, .right _ ?_⟩
      · have hle := hbound _ _ hold
        exact Nat.le_trans (Nat.le_of_lt hlen) hle
      · cases name with
        | nil => exact absurd rfl hname
        | cons c name =>
          simp only
          cases e.advance (c :: name) with
          | nil => exact .left _ _ (Nat.zero_lt_succ _)
          | cons c' name' => exact .right _ hlen
  · rw [hstep] at h
    exact backtrack_measure hname h

theorem exists_halts_init (isctype : CharClass → Option Nat → Bool) (name iter : Bytes) :
    ∃ r, Machine.Halts (step isctype) ⟨name, iter, none⟩ r :=
  Machine.exists_halts measureLt_wf State.measure (fun _ _ => step_measure)
    (fun _ _ h => (nomatch h))

/-! ## Dot files -/

theorem takeWhile_nil_iff : iter.takeWhile (· ≠ chSlash) = [] ↔ isEndOrSep iter = true := by
  cases iter with
  | nil => exact ⟨fun _ => rfl, fun _ => rfl⟩
  | cons c iter =>
    rw [List.takeWhile_cons]
    by_cases hc : c = chSlash
    · simp [isEndOrSep, hc]
    · simp [isEndOrSep, hc]

theorem takeWhile_dot_iff : iter.takeWhile (· ≠ chSlash) = chDot :: name ↔
    ∃ iter', iter = chDot :: iter' ∧ iter'.takeWhile (· ≠ chSlash) = name := by
  cases iter with
  | nil => simp
  | cons c iter =>
    rw [List.takeWhile_cons]
    by_cases hc : c = chSlash
    · subst hc
      simp
    · simp [hc]

theorem expect_iff {ch : Nat} : expect ch iter = true ↔ ∃ iter', iter = ch :: iter' := by
  cases iter with
  | nil => simp [expect]
  | cons c iter => simp [expect]

theorem reads_dot (iter : Bytes) : Reads (chDot :: iter) (.literal chDot) iter :=
  .literal (by decide) (by decide) (by decide) (by decide) fun h => absurd h (by decide)

variable {dotglob allowEmptyPattern : Bool}

/-- `.` and `..` are matched by themselves. -/
theorem matchDots_eq (h : name = [chDot] ∨ name = [chDot, chDot]) : matchDots name iter =
    if iter.takeWhile (· ≠ chSlash) = name then (name.length, iter.drop name.length)
    else (0, iter) := by
  by_cases hdot : expect chDot iter = true
  · obtain ⟨iter, rfl⟩ := expect_iff.1 hdot
    rcases h with rfl | rfl
    · have hiff : (chDot :: iter).takeWhile (· ≠ chSlash) = [chDot] ↔ isEndOrSep iter = true := by
        rw [takeWhile_dot_iff, ← takeWhile_nil_iff]
        simp
      simp only [hiff]
      cases hend : isEndOrSep iter with
      | true => simp [matchDots, expect, hend]
      | false => simp [matchDots, expect, hend]
    · by_cases hdot' : expect chDot iter = true
      · obtain ⟨iter, rfl⟩ := expect_iff.1 hdot'
        have hiff : (chDot :: chDot :: iter).takeWhile (· ≠ chSlash) = [chDot, chDot] ↔
            isEndOrSep iter = true := by
          rw [takeWhile_dot_iff, ← takeWhile_nil_iff]
          simp
        simp only [hiff]
        cases hend : isEndOrSep iter with
        | true => simp [matchDots, expect, hend]
        | false => simp [matchDots, expect, hend]
      · have hne : (chDot :: iter).takeWhile (· ≠ chSlash) ≠ [chDot, chDot] := by
          intro h
          obtain ⟨iter', heq, h⟩ := takeWhile_dot_iff.1 h
          cases heq
          obtain ⟨iter', rfl, -⟩ := takeWhile_dot_iff.1 h
          exact hdot' (expect_iff.2 ⟨iter', rfl⟩)
        rw [if_neg hne]
        simp [matchDots, hdot, hdot']
  · have hne : iter.takeWhile (· ≠ chSlash) ≠ name := by
      intro h'
      apply hdot
      rcases h with rfl | rfl
      · obtain ⟨iter', rfl, -⟩ := takeWhile_dot_iff.1 h'
        exact expect_iff.2 ⟨iter', rfl⟩
      · obtain ⟨iter', rfl, -⟩ := takeWhile_dot_iff.1 h'
        exact expect_iff.2 ⟨iter', rfl⟩
    rw [if_neg hne]
    simp [matchDots, hdot]

theorem parse_dots (h : name = [chDot] ∨ name = [chDot, chDot])
    (hcomp : iter.takeWhile (· ≠ chSlash) = name) :
    parse iter = (name.map .literal, iter.drop name.length) := by
  rcases h with rfl | rfl
  · obtain ⟨iter₁, rfl, hend⟩ := takeWhile_dot_iff.1 hcomp
    rw [(reads_dot iter₁).parse, parse_end (takeWhile_nil_iff.1 hend)]
    rfl
  · obtain ⟨iter₁, rfl, hdot⟩ := takeWhile_dot_iff.1 hcomp
    obtain ⟨iter₂, rfl, hend⟩ := takeWhile_dot_iff.1 hdot
    rw [(reads_dot _).parse, (reads_dot iter₂).parse, parse_end (takeWhile_nil_iff.1 hend)]
    rfl

/-- Literals stand for themselves. -/
theorem language_literals {bytes : Bytes} :
    Language isctype (bytes.map .literal) t ↔ t = bytes := by
  induction bytes generalizing t with
  | nil =>
    constructor
    · intro h
      cases h
      rfl
    · rintro rfl
      exact .nil
  | cons ch bytes ih =>
    constructor
    · intro h
      cases h with
      | literal h => rw [ih.1 h]
    · rintro rfl
      exact .literal (ih.2 rfl)

theorem count_literals (bytes : Bytes) : (bytes.map Elem.literal).count .star = 0 := by
  rw [List.count_eq_zero]
  intro h
  obtain ⟨ch, -, hch⟩ := List.mem_map.1 h
  cases hch

theorem start_dots (iter : Bytes) (dotglob allowEmptyPattern : Bool)
    (h : name = [chDot] ∨ name = [chDot, chDot]) :
    ∃ r, start name iter dotglob allowEmptyPattern = .inr r ∧
      (r.1.success = true ↔ iter.takeWhile (· ≠ chSlash) = name) ∧
      (r.1.success = true → r.2 = (parse iter).2) := by
  unfold start
  rw [if_pos h, matchDots_eq h]
  by_cases hcomp : iter.takeWhile (· ≠ chSlash) = name
  · rw [if_pos hcomp, parse_dots h hcomp]
    rcases h with rfl | rfl
    · exact ⟨_, rfl, ⟨fun _ => hcomp, fun _ => rfl⟩, fun _ => rfl⟩
    · exact ⟨_, rfl, ⟨fun _ => hcomp, fun _ => rfl⟩, fun _ => rfl⟩
  · rw [if_neg hcomp]
    refine ⟨_, rfl, ⟨fun h => ?_, fun h => absurd h hcomp⟩, fun h => ?_⟩ <;> cases h

/-- The beginning of `match` for other names. -/
theorem start_cases (iter : Bytes) (dotglob allowEmptyPattern : Bool)
    (hdots : ¬ (name = [chDot] ∨ name = [chDot, chDot])) :
    (¬ DotRule name iter dotglob ∧
      start name iter dotglob allowEmptyPattern = .inr (.unmatchedDotPrefix, iter)) ∨
    DotRule name iter dotglob ∧
      ((allowEmptyPattern = true ∧ elems iter = [] ∧
        start name iter dotglob allowEmptyPattern = .inr (.matched, iter)) ∨
      (¬ (allowEmptyPattern = true ∧ elems iter = []) ∧
        start name iter dotglob allowEmptyPattern = .inl ⟨name, iter, none⟩)) := by
  have hskip : (isEndOrSep iter || !expect chDot iter) = !expect chDot iter := by
    by_cases hdot : expect chDot iter = true
    · obtain ⟨iter', rfl⟩ := expect_iff.1 hdot
      rfl
    · simp [hdot]
  unfold start
  rw [if_neg hdots, hskip]
  by_cases hleading : (expect chDot name && !expect chDot iter && !dotglob) = true
  · left
    rw [if_pos hleading]
    simp only [Bool.and_eq_true, Bool.not_eq_true'] at hleading
    obtain ⟨⟨hname, hiter⟩, hglob⟩ := hleading
    refine ⟨fun hrule => ?_, rfl⟩
    rcases hrule.leading hname with h | h
    · rw [hiter] at h
      cases h
    · rw [hglob] at h
      cases h
  · right
    rw [if_neg hleading]
    refine ⟨⟨fun h => absurd h hdots, fun hname => ?_⟩, ?_⟩
    · by_contra hc
      rw [not_or, Bool.not_eq_true, Bool.not_eq_true] at hc
      rw [hname, hc.1, hc.2] at hleading
      exact hleading rfl
    · rw [elems_nil_iff, ← Bool.and_eq_true]
      by_cases hempty : (allowEmptyPattern && isEndOrSep iter) = true
      · left
        obtain ⟨hallow, hend⟩ := Bool.and_eq_true_iff.1 hempty
        exact ⟨hallow, hend, if_pos hempty⟩
      · right
        exact ⟨hempty, if_neg hempty⟩

/-! ## The component -/

/-- The dot files are named by the rule, the other names by the parts. -/
theorem returns_laid {r : Status × Bytes}
    (hr : Returns isctype name iter dotglob allowEmptyPattern r) :
    (r.1.success = true ↔ DotRule name iter dotglob ∧
      ((attempt isctype (elems iter) name).Answer isctype False ∨
        allowEmptyPattern = true ∧ elems iter = [])) ∧
      (r.1.success = true → r.2 = (parse iter).2) := by
  unfold Returns at hr
  by_cases hdots : name = [chDot] ∨ name = [chDot, chDot]
  · obtain ⟨r', hstart, hiff, hrest⟩ := start_dots iter dotglob allowEmptyPattern hdots
    rw [hstart] at hr
    cases (hr : r = r')
    refine ⟨?_, hrest⟩
    rw [hiff]
    constructor
    · intro hcomp
      refine ⟨⟨fun _ => hcomp, fun _ => ?_⟩, .inl ?_⟩
      · rcases hdots with rfl | rfl
        · obtain ⟨iter', rfl, -⟩ := takeWhile_dot_iff.1 hcomp
          exact .inl (expect_iff.2 ⟨iter', rfl⟩)
        · obtain ⟨iter', rfl, -⟩ := takeWhile_dot_iff.1 hcomp
          exact .inl (expect_iff.2 ⟨iter', rfl⟩)
      · rw [elems, parse_dots hdots hcomp, answer_of_count (count_literals name),
          language_literals]
    · intro hin
      exact hin.1.special hdots
  rcases start_cases iter dotglob allowEmptyPattern hdots with
    ⟨hrule, hstart⟩ | ⟨hrule, ⟨hallow, hempty, hstart⟩ | ⟨hempty, hstart⟩⟩
  · rw [hstart] at hr
    cases (hr : r = _)
    exact ⟨⟨fun h => (nomatch h), fun hin => absurd hin.1 hrule⟩, fun h => (nomatch h)⟩
  · rw [hstart] at hr
    cases (hr : r = _)
    refine ⟨⟨fun _ => ⟨hrule, .inr ⟨hallow, hempty⟩⟩, fun _ => rfl⟩, fun _ => ?_⟩
    rw [parse_end (elems_nil_iff.1 hempty)]
  · rw [hstart] at hr
    have hinv : Inv (parse iter).2 ⟨name, iter, none⟩ := ⟨rfl, fun hold => (nomatch hold)⟩
    obtain ⟨hiff, hrest⟩ := halts_sound hr hinv
    refine ⟨?_, hrest⟩
    rw [hiff]
    constructor
    · exact fun h => ⟨hrule, .inl h⟩
    · rintro ⟨-, h | hallow⟩
      · exact h
      · exact absurd hallow hempty

/-- `match` returns. -/
theorem exists_returns (isctype : CharClass → Option Nat → Bool) (name iter : Bytes)
    (dotglob allowEmptyPattern : Bool) :
    ∃ r, Returns isctype name iter dotglob allowEmptyPattern r := by
  unfold Returns
  by_cases hdots : name = [chDot] ∨ name = [chDot, chDot]
  · obtain ⟨r, hstart, -⟩ := start_dots iter dotglob allowEmptyPattern hdots
    rw [hstart]
    exact ⟨r, rfl⟩
  rcases start_cases iter dotglob allowEmptyPattern hdots with ⟨-, hstart⟩ | ⟨-, ⟨-, -, hstart⟩ | ⟨-, hstart⟩⟩
  · rw [hstart]
    exact ⟨_, rfl⟩
  · rw [hstart]
    exact ⟨_, rfl⟩
  · rw [hstart]
    exact exists_halts_init isctype name iter

theorem Returns.unique {r r' : Status × Bytes}
    (h : Returns isctype name iter dotglob allowEmptyPattern r)
    (h' : Returns isctype name iter dotglob allowEmptyPattern r') : r = r' := by
  unfold Returns at h h'
  cases hstart : start name iter dotglob allowEmptyPattern with
  | inr r'' =>
    rw [hstart] at h h'
    exact Eq.trans h (Eq.symm h')
  | inl s =>
    rw [hstart] at h h'
    exact Machine.Halts.unique h h'

/-- By places at characters the answer is that of the language. -/
theorem ByCharacters.answer (h : ByCharacters isctype name iter dotglob)
    (hrule : DotRule name iter dotglob) :
    (attempt isctype (elems iter) name).Answer isctype False ↔
      Language isctype (elems iter) name := by
  rw [language_attempt]
  have hchars := h hrule
  cases heq : attempt isctype (elems iter) name with
  | star es name' =>
    obtain ⟨haligned, hcovered⟩ := hchars es name' heq
    exact ⟨fun hlaid => (haligned hlaid).language, fun hl =>
      not_not.1 fun hlaid => (hcovered hlaid).not_language hl⟩
  | _ => exact Iff.rfl

/-- In a pattern of whole characters every place is as good as one at a character, if nothing that
stands for one character is behind a star, or if the name is all ASCII. -/
theorem byCharacters_of_whole (hes : Whole (elems iter))
    (h : (∀ c ∈ name, c < 0x80) ∨ Steady (elems iter)) :
    ByCharacters isctype name iter dotglob := by
  intro _ es name' heq
  have hrest := attempt_rest.1 _ _ heq
  have hsuf := List.dropWhile_suffix (l := elems iter) (p := (· ≠ Elem.star))
  rw [hrest] at hsuf
  refine ⟨fun hlaid => hlaid.aligned (hes.rest hrest) ?_, (hes.rest hrest).covered⟩
  exact h.imp (fun hascii c hc => hascii c ((attempt_suffix heq).subset hc)) fun hsteady =>
    ⟨hsteady es hsuf, fun es' hes' => hsteady es' (hes'.trans ((List.suffix_cons _ _).trans hsuf))⟩

end

/-! ## A slip -/

/-- No character is in any class. -/
def noClasses : CharClass → Option Nat → Bool := fun _ _ => false

end Arsh.Glob
