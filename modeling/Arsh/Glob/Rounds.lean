import Arsh.Glob.Language

/-!
# The rounds of the loop

What the pattern begins with, and what a round of the loop of `match` does about it.
-/

namespace Arsh.Glob

open UnicodeUtil

/-! ## The elements of the pattern -/

/-- The pattern begins with the element `e`; `iter'` is left behind it. -/
inductive Reads : Bytes → Elem → Bytes → Prop where
  | any (iter : Bytes) : Reads (chQuestion :: iter) .any iter
  | star (iter : Bytes) : Reads (chStar :: iter) .star iter
  | charSet {iter iter' : Bytes} {s : CharSet} : readCharSet (chOpen :: iter) = .ok (s, iter') →
    Reads (chOpen :: iter) (.charSet s) iter'
  | bad {iter : Bytes} {err : String} : readCharSet (chOpen :: iter) = .error err →
    Reads (chOpen :: iter) .bad []
  | escape (ch : Nat) (iter : Bytes) : Reads (chBackslash :: ch :: iter) (.literal ch) iter
  | literal {ch : Nat} {iter : Bytes} : ch ≠ chSlash → ch ≠ chQuestion → ch ≠ chOpen →
    ch ≠ chStar → (ch = chBackslash → iter = []) → Reads (ch :: iter) (.literal ch) iter

section
variable {isctype : CharClass → Option Nat → Bool} {iter iter' name : Bytes} {e : Elem} {s : State}

theorem parse_nil : parse [] = ([], []) := by
  rw [parse.eq_def]

theorem parse_end (h : isEndOrSep iter = true) : parse iter = ([], iter) := by
  cases iter with
  | nil => exact parse_nil
  | cons ch iter =>
    have hch : ch = chSlash := of_decide_eq_true h
    rw [parse.eq_def]
    simp only
    rw [if_pos hch]

theorem Reads.parse (h : Reads iter e iter') :
    parse iter = (e :: (parse iter').1, (parse iter').2) := by
  cases h with
  | any =>
    rw [Glob.parse.eq_def]
    simp only
    rw [if_neg (by decide), if_pos trivial]
  | star =>
    rw [Glob.parse.eq_def]
    simp only
    rw [if_neg (by decide), if_neg (by decide), if_neg (by decide), if_pos trivial]
  | charSet hread =>
    rw [Glob.parse.eq_def]
    simp only
    rw [if_neg (by decide), if_neg (by decide), if_pos trivial]
    split
    · next hread' =>
      rw [hread] at hread'
      cases hread'
      rfl
    · next hread' =>
      rw [hread] at hread'
      cases hread'
  | bad hread =>
    rw [Glob.parse.eq_def]
    simp only
    rw [if_neg (by decide), if_neg (by decide), if_pos trivial]
    split
    · next hread' =>
      rw [hread] at hread'
      cases hread'
    · rw [parse_nil]
  | escape ch iter =>
    rw [Glob.parse.eq_def]
    simp only
    rw [if_neg (by decide), if_neg (by decide), if_neg (by decide),
      if_neg (by decide), if_pos trivial]
  | @literal ch _ h₁ h₂ h₃ h₄ h₅ =>
    rw [Glob.parse.eq_def]
    simp only
    rw [if_neg h₁, if_neg h₂, if_neg h₃, if_neg h₄]
    split
    · next h =>
      cases h₅ h
      rw [parse_nil]
    · rfl

theorem reads_or_end (iter : Bytes) : isEndOrSep iter = true ∨ ∃ e iter', Reads iter e iter' := by
  cases iter with
  | nil => exact .inl rfl
  | cons ch iter =>
    by_cases h₁ : ch = chSlash
    · exact .inl (decide_eq_true h₁)
    by_cases h₂ : ch = chQuestion
    · subst h₂
      exact .inr ⟨_, _, .any iter⟩
    by_cases h₃ : ch = chOpen
    · subst h₃
      cases hread : readCharSet (chOpen :: iter) with
      | error err => exact .inr ⟨_, _, .bad hread⟩
      | ok r => exact .inr ⟨_, _, @Reads.charSet iter r.2 r.1 hread⟩
    by_cases h₄ : ch = chStar
    · subst h₄
      exact .inr ⟨_, _, .star iter⟩
    by_cases h₅ : ch = chBackslash
    · cases iter with
      | nil => exact .inr ⟨_, _, .literal h₁ h₂ h₃ h₄ fun _ => rfl⟩
      | cons ch' iter =>
        subst h₅
        exact .inr ⟨_, _, .escape ch' iter⟩
    · exact .inr ⟨_, _, .literal h₁ h₂ h₃ h₄ fun h => absurd h h₅⟩

theorem Reads.elems (h : Reads iter e iter') : elems iter = e :: elems iter' := by
  unfold Glob.elems
  rw [h.parse]

theorem elems_nil_iff : elems iter = [] ↔ isEndOrSep iter = true := by
  unfold elems
  constructor
  · intro h
    rcases reads_or_end iter with hend | ⟨e, iter', hread⟩
    · exact hend
    · rw [hread.parse] at h
      cases h
  · intro h
    rw [parse_end h]

theorem Reads.length (h : Reads iter e iter') : iter'.length < iter.length := by
  cases h with
  | any | star | literal => exact Nat.lt_succ_self _
  | charSet hread => exact readCharSet_length hread
  | bad => exact Nat.zero_lt_succ _
  | escape => exact Nat.lt_succ_of_lt (Nat.lt_succ_self _)

/-! ## A round of the loop -/

/-- The element matches at the beginning of `name`. -/
def Elem.passes (isctype : CharClass → Option Nat → Bool) (e : Elem) (name : Bytes) : Bool :=
  match e with
  | .star | .any => true
  | .charSet cs => cs.mem isctype (utf8ToCodePoint name).2
  | .bad => false
  | .literal ch => expect ch name

def Elem.isLiteral : Elem → Bool
  | .literal _ => true
  | _ => false

/-- What an element other than a star leaves of the name. -/
def Elem.advance (e : Elem) (name : Bytes) : Bytes :=
  match e with
  | .literal _ => name.drop 1
  | _ => nextChar name

/-- What a round of the loop can do. -/
theorem step_reads (isctype : CharClass → Option Nat → Bool) (hname : s.name ≠ []) (h : Reads s.iter e iter') :
    (e = .star ∧ isEndOrSep iter' = true ∧ step isctype s = .inr (.matched, iter')) ∨
    (e = .star ∧ isEndOrSep iter' = false ∧
      step isctype s = .inl ⟨s.name, iter', some (s.name.tail, iter')⟩) ∨
    (e = .bad ∧ ∃ err rest, step isctype s = .inr (.badPattern err, rest)) ∨
    (e ≠ .star ∧ e ≠ .bad ∧ e.passes isctype s.name = true ∧
      step isctype s = .inl ⟨e.advance s.name, iter', s.old⟩) ∨
    (e ≠ .star ∧ e ≠ .bad ∧ e.passes isctype s.name = false ∧ step isctype s = s.backtrack) := by
  obtain ⟨name, iter, old⟩ := s
  have hliteral : ∀ ch iter', step isctype ⟨name, iter, old⟩ = State.literal ⟨name, iter, old⟩ ch iter' →
      (expect ch name = true ∧
        step isctype ⟨name, iter, old⟩ = .inl ⟨name.drop 1, iter', old⟩) ∨
      (expect ch name = false ∧
        step isctype ⟨name, iter, old⟩ = State.backtrack ⟨name, iter, old⟩) := by
    intro ch iter' hstep
    rw [hstep]
    unfold State.literal
    cases hch : expect ch name with
    | false => exact .inr ⟨rfl, if_neg (by simp)⟩
    | true => exact .inl ⟨rfl, if_pos rfl⟩
  simp only at hname h
  cases h with
  | any =>
    refine .inr (.inr (.inr (.inl ⟨by simp, by simp, rfl, ?_⟩)))
    unfold step
    rw [if_neg hname]
    simp only
    rw [if_neg (by decide), if_pos trivial]
    rfl
  | star =>
    have hstep : step isctype ⟨name, chStar :: iter', old⟩ =
        if isEndOrSep iter' then .inr (.matched, iter')
        else .inl ⟨name, iter', some (name.tail, iter')⟩ := by
      unfold step
      rw [if_neg hname]
      simp only
      rw [if_neg (by decide), if_neg (by decide), if_neg (by decide), if_pos trivial]
    cases hend : isEndOrSep iter' with
    | true => exact .inl ⟨rfl, rfl, by rw [hstep, hend]; rfl⟩
    | false => exact .inr (.inl ⟨rfl, rfl, by rw [hstep, hend]; rfl⟩)
  | @charSet iter _ cs hread =>
    have hstep : step isctype ⟨name, chOpen :: iter, old⟩ =
        if cs.mem isctype (utf8ToCodePoint name).2 then .inl ⟨nextChar name, iter', old⟩
        else State.backtrack ⟨name, chOpen :: iter, old⟩ := by
      unfold step
      rw [if_neg hname]
      simp only
      rw [if_neg (by decide), if_neg (by decide), if_pos trivial, matchCharSetImpl_eq, hread]
      simp only [Except.map]
      cases cs.mem isctype (utf8ToCodePoint name).2 with
      | false => rfl
      | true => rfl
    cases hmem : cs.mem isctype (utf8ToCodePoint name).2 with
    | true =>
      refine .inr (.inr (.inr (.inl ⟨by simp, by simp, hmem, ?_⟩)))
      rw [hstep, hmem]
      rfl
    | false =>
      refine .inr (.inr (.inr (.inr ⟨by simp, by simp, hmem, ?_⟩)))
      rw [hstep, hmem]
      rfl
  | @bad iter err hread =>
    refine .inr (.inr (.inl ⟨rfl, err, iter, ?_⟩))
    unfold step
    rw [if_neg hname]
    simp only
    rw [if_neg (by decide), if_neg (by decide), if_pos trivial, matchCharSetImpl_eq, hread]
    rfl
  | escape ch iter =>
    have hstep : step isctype ⟨name, chBackslash :: ch :: iter', old⟩ =
        State.literal ⟨name, chBackslash :: ch :: iter', old⟩ ch iter' := by
      unfold step
      rw [if_neg hname]
      simp only
      rw [if_neg (by decide), if_neg (by decide), if_neg (by decide), if_neg (by decide),
        if_pos trivial]
    rcases hliteral ch iter' hstep with ⟨hch, heq⟩ | ⟨hch, heq⟩
    · exact .inr (.inr (.inr (.inl ⟨by simp, by simp, hch, heq⟩)))
    · exact .inr (.inr (.inr (.inr ⟨by simp, by simp, hch, heq⟩)))
  | @literal ch _ h₁ h₂ h₃ h₄ h₅ =>
    have hstep : step isctype ⟨name, ch :: iter', old⟩ =
        State.literal ⟨name, ch :: iter', old⟩ ch iter' := by
      unfold step
      rw [if_neg hname]
      simp only
      rw [if_neg h₁, if_neg h₂, if_neg h₃, if_neg h₄]
      split
      · next h =>
        cases h₅ h
        rfl
      · rfl
    rcases hliteral ch iter' hstep with ⟨hch, heq⟩ | ⟨hch, heq⟩
    · exact .inr (.inr (.inr (.inl ⟨by simp, by simp, hch, heq⟩)))
    · exact .inr (.inr (.inr (.inr ⟨by simp, by simp, hch, heq⟩)))

/-- At the end of the component, before the end of the name. -/
theorem step_end (hname : s.name ≠ []) (h : isEndOrSep s.iter = true) :
    step isctype s = s.backtrack := by
  unfold step
  rw [if_neg hname]
  split
  · rfl
  · next ch iter hiter =>
    rw [hiter] at h
    rw [if_pos (of_decide_eq_true h)]

end

end Arsh.Glob
