import Arsh.Glob.Rounds

/-!
# Parts between stars

What is between two stars of a component, or behind the last one, is a part. At a place of the name
it either fits, up to the next star or to the end, or it does not. The loop of `match` lays each part
at the first byte from which it fits; the language asks for a place at a character. A component whose
parts have the same ends at characters is decided by its first places.
-/

namespace Arsh.Glob

open UnicodeUtil

/-! ## Parts -/

/-- What becomes of the elements up to the next star. -/
inductive Outcome where
  /-- they end where the name ends -/
  | done
  /-- a star comes, with these elements behind it and this left of the name -/
  | star (es : List Elem) (name : Bytes)
  /-- the name ends before them, or a bracket expression is not one: it is not tried further on -/
  | ended
  /-- one of them does not match, or the name goes on behind them -/
  | stuck
  deriving DecidableEq, Repr

section
variable (isctype : CharClass → Option Nat → Bool)

/-- The elements up to the next star, from the beginning of the name. -/
def attempt : List Elem → Bytes → Outcome
  | [], name => if name = [] then .done else .stuck
  | e :: es, name =>
    if e = .star then .star es name
    else if name = [] ∨ e = .bad then .ended
    else if e.passes isctype name then attempt es (e.advance name)
    else .stuck

/-- The elements from the first byte of the name from which they are not stuck. -/
def first (es : List Elem) : Bytes → Outcome
  | [] => attempt isctype es []
  | ch :: name =>
    match attempt isctype es (ch :: name) with
    | .stuck => first es name
    | o => o

/-- Behind a star, each part fits somewhere: it is taken where it fits first. -/
inductive Laid : List Elem → Bytes → Prop where
  | done {es : List Elem} {name : Bytes} : first isctype es name = .done → Laid es name
  | star {es es' : List Elem} {name name' : Bytes} : first isctype es name = .star es' name' →
    Laid es' name' → Laid es name

/-- Each part also ends there from a character behind its star. -/
inductive Aligned : List Elem → Bytes → Prop where
  | done {es : List Elem} {name u : Bytes} : first isctype es name = .done →
    Boundary name u → attempt isctype es u = .done → Aligned es name
  | star {es es' : List Elem} {name name' u : Bytes} : first isctype es name = .star es' name' →
    Boundary name u → attempt isctype es u = .star es' name' → Aligned es' name' → Aligned es name

/-- What another place leads to is reached from there by whole characters. -/
def Outcome.Covers : Outcome → Outcome → Prop
  | .star _ name, .star _ name' => Boundary name name'
  | .ended, .star _ _ | .ended, .done => False
  | _, _ => True

/-- A part fits nowhere, and those before it lead no further from any character than from where they
fit first. -/
inductive Covered : List Elem → Bytes → Prop where
  | ended {es : List Elem} {name : Bytes} : first isctype es name = .ended →
    (∀ u, Boundary name u → Outcome.ended.Covers (attempt isctype es u)) → Covered es name
  | star {es es' : List Elem} {name name' : Bytes} : first isctype es name = .star es' name' →
    (∀ u, Boundary name u → (Outcome.star es' name').Covers (attempt isctype es u)) →
    Covered es' name' → Covered es name

/-- The literal bytes are those of whole characters. -/
inductive Whole : List Elem → Prop where
  | nil : Whole []
  | cons {e : Elem} {es : List Elem} : e.isLiteral = false → Whole es → Whole (e :: es)
  | char {c : Nat} {es : List Elem} : c ≤ codePointMax → Whole es →
    Whole ((codePointToUtf8 c).map .literal ++ es)

/-- What stands for one character. -/
def Elem.isSingle : Elem → Bool
  | .any | .charSet _ => true
  | _ => false

/-- Nothing that stands for one character is behind a star. -/
def Steady (es : List Elem) : Prop :=
  ∀ es', .star :: es' <:+ es → ∀ e ∈ es'.head?, e.isSingle = false

/-- Behind the first star of a component, the places of the parts are places at characters. -/
def ByCharacters (name iter : Bytes) (dotglob : Bool) : Prop :=
  DotRule name iter dotglob → ∀ es name', attempt isctype (elems iter) name = .star es name' →
    (Laid isctype es name' → Aligned isctype es name') ∧
      (¬ Laid isctype es name' → Covered isctype es name')

end

section
variable {isctype : CharClass → Option Nat → Bool} {n t u : Bytes} {e : Elem} {es es' : List Elem}

theorem Elem.advance_suffix (e : Elem) (name : Bytes) : e.advance name <:+ name := by
  cases e with
  | literal ch => exact List.drop_suffix _ _
  | _ => exact nextChar_suffix _

/-! ## The language along the parts -/

theorem language_star : Language isctype (.star :: es) t ↔
    ∃ u, Boundary t u ∧ Language isctype es u := by
  constructor
  · intro h
    cases h with
    | star hb h => exact ⟨_, hb, h⟩
  · rintro ⟨u, hb, h⟩
    exact .star hb h

theorem language_cons (he : e ≠ .star) : Language isctype (e :: es) t ↔
    t ≠ [] ∧ e.passes isctype t = true ∧ Language isctype es (e.advance t) := by
  constructor
  · intro h
    cases h with
    | star => exact absurd rfl he
    | any hne h => exact ⟨hne, rfl, h⟩
    | charSet hne hmem h => exact ⟨hne, hmem, h⟩
    | literal h => exact ⟨List.cons_ne_nil _ _, decide_eq_true rfl, h⟩
  · rintro ⟨hne, hpass, h⟩
    cases e with
    | star => exact absurd rfl he
    | any => exact .any hne h
    | charSet cs => exact .charSet hne hpass h
    | bad => cases hpass
    | literal ch =>
      cases t with
      | nil => exact absurd rfl hne
      | cons c t =>
        cases (of_decide_eq_true hpass : c = ch)
        exact .literal h

theorem attempt_star : attempt isctype (.star :: es) t = .star es t := rfl

theorem attempt_nil (he : e ≠ .star) : attempt isctype (e :: es) [] = .ended := by
  unfold attempt
  rw [if_neg he, if_pos (.inl rfl)]

theorem attempt_bad : attempt isctype (.bad :: es) t = .ended := by
  unfold attempt
  rw [if_neg (by decide), if_pos (.inr rfl)]

theorem attempt_cons (he : e ≠ .star) (hbad : e ≠ .bad) (hne : t ≠ []) :
    attempt isctype (e :: es) t =
      if e.passes isctype t then attempt isctype es (e.advance t) else .stuck := by
  rw [attempt, if_neg he, if_neg (not_or.2 ⟨hne, hbad⟩)]

/-- What an outcome says about the language. -/
def Outcome.Means (isctype : CharClass → Option Nat → Bool) : Outcome → Prop
  | .done => True
  | .star es name => Language isctype (.star :: es) name
  | .ended | .stuck => False

/-- The elements stand for the name if the first part fits, and what begins with the next star stands
for the rest. -/
theorem language_attempt : Language isctype es t ↔ (attempt isctype es t).Means isctype := by
  induction es generalizing t with
  | nil =>
    rw [attempt]
    constructor
    · intro h
      cases h
      trivial
    · intro h
      split at h
      · next ht =>
        rw [ht]
        exact .nil
      · exact h.elim
  | cons e es ih =>
    by_cases he : e = .star
    · rw [he]
      exact Iff.rfl
    rw [language_cons he]
    by_cases hne : t = []
    · rw [hne, attempt_nil he]
      exact ⟨fun h => h.1 rfl, False.elim⟩
    by_cases hbad : e = .bad
    · rw [hbad, attempt_bad]
      exact ⟨fun h => (nomatch h.2.1), False.elim⟩
    rw [attempt_cons he hbad hne, ih]
    split
    · next hpass => exact ⟨fun h => h.2.2, fun h => ⟨hne, hpass, h⟩⟩
    · next hpass => exact ⟨fun h => hpass h.2.1, False.elim⟩

/-- Where the first part ends in the component, wherever it fits. -/
theorem attempt_rest :
    (∀ es' name, attempt isctype es t = .star es' name → es.dropWhile (· ≠ .star) = .star :: es') ∧
      (attempt isctype es t = .done → es.dropWhile (· ≠ .star) = []) := by
  induction es generalizing t with
  | nil =>
    refine ⟨fun es' name h => ?_, fun _ => rfl⟩
    rw [attempt] at h
    split at h <;> cases h
  | cons e es ih =>
    by_cases he : e = .star
    · rw [he, attempt_star]
      refine ⟨fun es' name h => ?_, fun h => (nomatch h)⟩
      cases h
      rfl
    rw [List.dropWhile_cons_of_pos (by simpa using he)]
    by_cases hne : t = []
    · rw [hne, attempt_nil he]
      exact ⟨fun _ _ h => (nomatch h), fun h => (nomatch h)⟩
    by_cases hbad : e = .bad
    · rw [hbad, attempt_bad]
      exact ⟨fun _ _ h => (nomatch h), fun h => (nomatch h)⟩
    rw [attempt_cons he hbad hne]
    split
    · exact ih
    · exact ⟨fun _ _ h => (nomatch h), fun h => (nomatch h)⟩

/-- Behind a star there are fewer stars. -/
theorem count_of_attempt {name : Bytes} (h : attempt isctype es t = .star es' name) :
    es'.count .star < es.count .star := by
  have hrest := attempt_rest.1 _ _ h
  have hsub := (List.dropWhile_suffix (l := es) (p := (· ≠ Elem.star))).sublist.count_le Elem.star
  rw [hrest, List.count_cons_self] at hsub
  exact hsub

/-! ## The first places -/

/-- What an outcome is worth, if `resumed` is what comes of trying further on. -/
def Outcome.Answer (isctype : CharClass → Option Nat → Bool) (o : Outcome) (resumed : Prop) :
    Prop :=
  match o with
  | .done => True
  | .star es name => Laid isctype es name
  | .ended => False
  | .stuck => resumed

theorem laid_iff : Laid isctype es n ↔ (first isctype es n).Answer isctype False := by
  constructor
  · intro h
    cases h with
    | done h =>
      rw [h]
      trivial
    | star h hl =>
      rw [h]
      exact hl
  · intro h
    cases hfirst : first isctype es n with
    | done => exact .done hfirst
    | star es' name =>
      rw [hfirst] at h
      exact .star hfirst h
    | ended =>
      rw [hfirst] at h
      exact h.elim
    | stuck =>
      rw [hfirst] at h
      exact h.elim

/-- At the end of the name nothing is stuck. -/
theorem attempt_nil_ne : attempt isctype es [] ≠ .stuck := by
  cases es with
  | nil => exact fun h => (nomatch h)
  | cons e es =>
    by_cases he : e = .star
    · rw [he, attempt_star]
      exact fun h => (nomatch h)
    · rw [attempt_nil he]
      exact fun h => (nomatch h)

theorem first_ne_stuck : first isctype es n ≠ .stuck := by
  induction n with
  | nil => exact attempt_nil_ne
  | cons ch n ih =>
    unfold first
    split
    · exact ih
    · next h => exact h

theorem laid_cons {ch : Nat} : Laid isctype es (ch :: n) ↔
    (attempt isctype es (ch :: n)).Answer isctype (Laid isctype es n) := by
  rw [laid_iff, first]
  cases attempt isctype es (ch :: n) with
  | stuck => exact laid_iff.symm
  | _ => exact Iff.rfl

/-- A part at the end of the name, and the parts behind it. -/
theorem answer_nil {resumed : Prop} :
    (attempt isctype es []).Answer isctype resumed ↔ ∀ e ∈ es, e = .star := by
  induction es generalizing resumed with
  | nil => exact ⟨fun _ e he => (nomatch he), fun _ => trivial⟩
  | cons e es ih =>
    rw [List.forall_mem_cons]
    by_cases he : e = .star
    · subst he
      rw [attempt_star]
      show Laid isctype es [] ↔ _
      rw [laid_iff, first, ih]
      exact (and_iff_right rfl).symm
    · rw [attempt_nil he]
      exact ⟨False.elim, fun h => absurd h.1 he⟩

/-- Behind a star, at any place. -/
theorem laid_attempt : Laid isctype es n ↔
    (attempt isctype es n).Answer isctype (Laid isctype es n.tail) := by
  cases n with
  | nil =>
    rw [laid_iff, first, answer_nil]
    exact answer_nil.symm
  | cons ch n => exact laid_cons

theorem laid_nil (n : Bytes) : Laid isctype [] n := by
  induction n with
  | nil => exact .done rfl
  | cons ch n ih => exact laid_cons.2 ih

/-- The place that is tried first among those that are not stuck. -/
theorem first_attempt (isctype : CharClass → Option Nat → Bool) (es : List Elem) (n : Bytes) :
    ∃ t, t <:+ n ∧ attempt isctype es t = first isctype es n ∧
      ∀ u, u <:+ n → attempt isctype es u ≠ .stuck → u <:+ t := by
  induction n with
  | nil => exact ⟨[], List.suffix_refl [], rfl, fun u hu _ => hu⟩
  | cons ch n ih =>
    unfold first
    split
    · next hstuck =>
      obtain ⟨t, ht, heq, hfirst⟩ := ih
      refine ⟨t, ht.trans (List.suffix_cons ch n), heq, fun u hu hne => ?_⟩
      rcases List.suffix_cons_iff.1 hu with rfl | hu
      · exact absurd hstuck hne
      · exact hfirst u hu hne
    · exact ⟨ch :: n, List.suffix_refl _, rfl, fun u hu _ => hu⟩

/-! ## Places at characters -/

/-- At the same ends the parts stand for the name. -/
theorem Aligned.language (h : Aligned isctype es n) : Language isctype (.star :: es) n := by
  induction h with
  | done _ hb hu =>
    refine language_star.2 ⟨_, hb, language_attempt.2 ?_⟩
    rw [hu]
    trivial
  | star _ hb hu _ ih =>
    refine language_star.2 ⟨_, hb, language_attempt.2 ?_⟩
    rw [hu]
    exact ih

/-- If no part leads further from a character, they do not. -/
theorem Covered.not_language (h : Covered isctype es n) : ¬ Language isctype (.star :: es) n := by
  induction h with
  | ended _ hcov =>
    intro hl
    obtain ⟨u, hb, hl⟩ := language_star.1 hl
    have hu := hcov u hb
    rw [language_attempt] at hl
    cases heq : attempt isctype _ u with
    | done | star =>
      rw [heq] at hu
      exact hu
    | ended | stuck =>
      rw [heq] at hl
      exact hl
  | @star es es' n name' hfirst hcov _ ih =>
    intro hl
    obtain ⟨u, hb, hl⟩ := language_star.1 hl
    obtain ⟨v, -, hv, -⟩ := first_attempt isctype es n
    have hrest := attempt_rest.1 _ _ (hv.trans hfirst)
    have hu := hcov u hb
    rw [language_attempt] at hl
    cases heq : attempt isctype es u with
    | done =>
      rw [attempt_rest.2 heq] at hrest
      cases hrest
    | star es'' name'' =>
      rw [heq] at hl hu
      rw [attempt_rest.1 _ _ heq] at hrest
      cases hrest
      obtain ⟨w, hw, hl⟩ := language_star.1 hl
      exact ih (language_star.2 ⟨w, Boundary.trans hu hw, hl⟩)
    | ended | stuck =>
      rw [heq] at hl
      exact hl

/-- A component without stars is matched in one way only. -/
theorem answer_of_count (h : es.count .star = 0) :
    (attempt isctype es n).Answer isctype False ↔ Language isctype es n := by
  rw [language_attempt]
  cases heq : attempt isctype es n with
  | star es' name =>
    have hlt := count_of_attempt heq
    omega
  | _ => exact Iff.rfl

/-! ## Whole characters -/

/-- Literal bytes fit, or the name ends inside of them, or they do not match. -/
theorem attempt_literals (isctype : CharClass → Option Nat → Bool) (es : List Elem)
    (t bytes : Bytes) :
    (∃ t', t = bytes ++ t' ∧ attempt isctype (bytes.map .literal ++ es) t = attempt isctype es t') ∨
    (t.length < bytes.length ∧ attempt isctype (bytes.map .literal ++ es) t = .ended) ∨
    attempt isctype (bytes.map .literal ++ es) t = .stuck := by
  induction bytes generalizing t with
  | nil => exact .inl ⟨t, rfl, rfl⟩
  | cons ch bytes ih =>
    cases t with
    | nil => exact .inr (.inl ⟨Nat.zero_lt_succ _, attempt_nil (by simp)⟩)
    | cons c t =>
      rw [List.map_cons, List.cons_append, attempt_cons (by simp) (by simp) (List.cons_ne_nil _ _)]
      by_cases hc : c = ch
      · have hpass : (Elem.literal ch).passes isctype (c :: t) = true := decide_eq_true hc
        have hadvance : (Elem.literal ch).advance (c :: t) = t := rfl
        rw [if_pos hpass, hadvance, hc]
        rcases ih (t := t) with ⟨t', rfl, heq⟩ | ⟨hlt, heq⟩ | heq
        · exact .inl ⟨t', rfl, heq⟩
        · exact .inr (.inl ⟨Nat.succ_lt_succ hlt, heq⟩)
        · exact .inr (.inr heq)
      · have hpass : ¬ (Elem.literal ch).passes isctype (c :: t) = true :=
          fun h => hc (of_decide_eq_true h)
        exact .inr (.inr (if_neg hpass))

theorem Outcome.covers_of_not_fits {o o' : Outcome} (h : o' = .ended ∨ o' = .stuck) :
    o.Covers o' := by
  rcases h with rfl | rfl <;> cases o <;> trivial

theorem covers_cons {p : Bytes} (hlit : e.isLiteral = false) (hb : Boundary p u)
    (hp : attempt isctype (e :: es) p ≠ .stuck)
    (ih : ∀ {p u : Bytes}, Boundary p u → attempt isctype es p ≠ .stuck →
      (attempt isctype es p).Covers (attempt isctype es u)) :
    (attempt isctype (e :: es) p).Covers (attempt isctype (e :: es) u) := by
  by_cases he : e = .star
  · rw [he]
    exact hb
  by_cases hbad : e = .bad
  · rw [hbad, attempt_bad, attempt_bad]
    trivial
  by_cases hu : u = []
  · rw [hu, attempt_nil he]
    exact Outcome.covers_of_not_fits (.inl rfl)
  have hpne : p ≠ [] := by
    rintro rfl
    exact hu (List.suffix_nil.1 hb.suffix)
  have hadvance (name : Bytes) : e.advance name = nextChar name := by
    cases e with
    | literal => cases hlit
    | _ => rfl
  rw [attempt_cons he hbad hpne] at hp ⊢
  rw [attempt_cons he hbad hu]
  split at hp
  · next hpass =>
    rw [if_pos hpass]
    split
    · rw [hadvance] at hp ⊢
      rw [hadvance]
      refine ih ?_ hp
      cases hb with
      | refl => exact .refl _
      | next _ hb => exact hb.trans (.next hu (.refl _))
    · exact Outcome.covers_of_not_fits (.inr rfl)
  · exact absurd rfl hp

theorem covers_char {c : Nat} {p : Bytes} (hc : c ≤ codePointMax) (hb : Boundary p u)
    (hp : attempt isctype ((codePointToUtf8 c).map .literal ++ es) p ≠ .stuck)
    (ih : ∀ {p u : Bytes}, Boundary p u → attempt isctype es p ≠ .stuck →
      (attempt isctype es p).Covers (attempt isctype es u)) :
    (attempt isctype ((codePointToUtf8 c).map .literal ++ es) p).Covers
      (attempt isctype ((codePointToUtf8 c).map .literal ++ es) u) := by
  rcases attempt_literals isctype es u (codePointToUtf8 c) with ⟨u', rfl, hu⟩ | ⟨-, hu⟩ | hu
  · have hlen := hb.suffix.length_le
    rw [List.length_append] at hlen
    rcases attempt_literals isctype es p (codePointToUtf8 c) with
      ⟨p', rfl, hp'⟩ | ⟨hlt, hp'⟩ | hp'
    · rw [hp'] at hp ⊢
      rw [hu]
      refine ih ?_ hp
      have hb' : Boundary (codePointToUtf8 c ++ p') u' := hb.trans (boundary_char hc u')
      have hsuf : u' <:+ p' := by
        refine List.suffix_of_suffix_length_le hb'.suffix (List.suffix_append _ p') ?_
        rw [List.length_append] at hlen
        omega
      exact hb'.of_suffix (List.suffix_append _ p') hsuf
    · omega
    · exact absurd hp' hp
  · rw [hu]
    exact Outcome.covers_of_not_fits (.inl rfl)
  · rw [hu]
    exact Outcome.covers_of_not_fits (.inr rfl)

/-- Later by some characters, elements of whole characters also end later by some characters. -/
theorem Whole.covers (hes : Whole es) {p : Bytes} (hb : Boundary p u)
    (hp : attempt isctype es p ≠ .stuck) :
    (attempt isctype es p).Covers (attempt isctype es u) := by
  induction hes generalizing p u with
  | nil =>
    have hpnil : p = [] := by
      by_contra hne
      exact hp (if_neg hne)
    subst hpnil
    rw [List.suffix_nil.1 hb.suffix]
    trivial
  | cons hlit _ ih => exact covers_cons hlit hb hp ih
  | char hc _ ih => exact covers_char hc hb hp ih

theorem Whole.rest (h : Whole es) (hrest : es.dropWhile (· ≠ .star) = .star :: es') :
    Whole es' := by
  induction h with
  | nil => cases hrest
  | @cons e es _ hes ih =>
    by_cases he : e = .star
    · rw [List.dropWhile_cons_of_neg (by simpa using he)] at hrest
      cases hrest
      exact hes
    · rw [List.dropWhile_cons_of_pos (by simpa using he)] at hrest
      exact ih hrest
  | char _ _ ih =>
    rw [List.dropWhile_append_of_pos] at hrest
    · exact ih hrest
    · intro e he
      obtain ⟨x, -, rfl⟩ := List.mem_map.1 he
      rfl

/-- In a pattern of whole characters the first places cover those at characters. -/
theorem Whole.covered (hes : Whole es) (hlaid : ¬ Laid isctype es n) : Covered isctype es n := by
  induction hlen : es.count .star using Nat.strong_induction_on generalizing es n with
  | _ len ih =>
    obtain ⟨p, hsuf, hp, hfirst⟩ := first_attempt isctype es n
    have hcov : ∀ u, Boundary n u → (first isctype es n).Covers (attempt isctype es u) := by
      intro u hb
      by_cases hstuck : attempt isctype es u = .stuck
      · exact Outcome.covers_of_not_fits (.inr hstuck)
      · rw [← hp]
        apply hes.covers (hb.of_suffix hsuf (hfirst u hb.suffix hstuck))
        rw [hp]
        exact first_ne_stuck
    cases heq : first isctype es n with
    | done => exact absurd (.done heq) hlaid
    | ended =>
      rw [heq] at hcov
      exact .ended heq hcov
    | star es' name' =>
      rw [heq] at hcov
      have hattempt := hp.trans heq
      refine .star heq hcov (ih _ (hlen ▸ count_of_attempt hattempt)
        (hes.rest (attempt_rest.1 _ _ hattempt)) (fun h => hlaid (.star heq h)) rfl)
    | stuck => exact absurd heq first_ne_stuck

/-- Where nothing that stands for one character is behind a star, or the name is all ASCII, a part
fits first at a character. -/
theorem Whole.boundary {p : Bytes} (hes : Whole es) (hp : p <:+ n)
    (hfit : attempt isctype es p ≠ .stuck ∧ attempt isctype es p ≠ .ended)
    (hfirst : ∀ u, u <:+ n → attempt isctype es u ≠ .stuck → u <:+ p)
    (h : (∀ c ∈ n, c < 0x80) ∨ ∀ e ∈ es.head?, e.isSingle = false) : Boundary n p := by
  rcases h with hascii | hhead
  · apply boundary_of_head hp
    intro x hx hfollowing
    have hlt := hascii x (hp.subset (List.mem_of_mem_head? hx))
    exact absurd hfollowing.2.1 (Nat.not_le_of_lt hlt)
  cases hes with
  | nil =>
    have hpnil : p = [] := by
      by_contra hne
      exact hfit.1 (if_neg hne)
    rw [hpnil]
    exact boundary_nil n
  | @cons e es hlit _ =>
    cases e with
    | star =>
      rw [hp.eq_of_length (Nat.le_antisymm hp.length_le
        (hfirst n (List.suffix_refl n) (fun h => (nomatch h))).length_le)]
      exact .refl n
    | bad => exact absurd attempt_bad hfit.2
    | any | charSet => cases hhead _ rfl
    | literal => cases hlit
  | @char c es hc _ =>
    rcases attempt_literals isctype es p (codePointToUtf8 c) with
      ⟨p', rfl, -⟩ | ⟨-, hended⟩ | hstuck
    · obtain ⟨b, bs, hbytes, hsize, -⟩ := codePointToUtf8_shape hc
      apply boundary_of_head hp
      rw [hbytes]
      rintro x ⟨⟩ hfollowing
      rw [hfollowing.1] at hsize
      cases hsize
    · exact absurd hended hfit.2
    · exact absurd hstuck hfit.1

theorem attempt_suffix {name : Bytes} (h : attempt isctype es t = .star es' name) :
    name <:+ t := by
  induction es generalizing t with
  | nil =>
    rw [attempt] at h
    split at h <;> cases h
  | cons e es ih =>
    by_cases he : e = .star
    · rw [he, attempt_star] at h
      cases h
      exact List.suffix_refl _
    by_cases hstop : t = [] ∨ e = .bad
    · rw [attempt, if_neg he, if_pos hstop] at h
      cases h
    · rw [attempt, if_neg he, if_neg hstop] at h
      split at h
      · exact (ih h).trans (e.advance_suffix t)
      · cases h

theorem Laid.aligned (hlaid : Laid isctype es n) (hes : Whole es)
    (h : (∀ c ∈ n, c < 0x80) ∨ (∀ e ∈ es.head?, e.isSingle = false) ∧ Steady es) :
    Aligned isctype es n := by
  induction hlaid with
  | @done es n hdone =>
    obtain ⟨p, hp, heq, hfirst⟩ := first_attempt isctype es n
    have hattempt := heq.trans hdone
    refine .done hdone (hes.boundary hp ?_ hfirst (h.imp_right And.left)) hattempt
    rw [hattempt]
    exact ⟨fun h => (nomatch h), fun h => (nomatch h)⟩
  | @star es es' n name' hstar _ ih =>
    obtain ⟨p, hp, heq, hfirst⟩ := first_attempt isctype es n
    have hattempt := heq.trans hstar
    have hrest := attempt_rest.1 _ _ hattempt
    have hsuf := List.dropWhile_suffix (l := es) (p := (· ≠ Elem.star))
    rw [hrest] at hsuf
    have hname := (attempt_suffix hattempt).trans hp
    refine .star hstar (hes.boundary hp ?_ hfirst (h.imp_right And.left)) hattempt
      (ih (hes.rest hrest) ?_)
    · rw [hattempt]
      exact ⟨fun h => (nomatch h), fun h => (nomatch h)⟩
    · exact h.imp (fun hascii c hc => hascii c (hname.subset hc)) fun hsteady =>
        ⟨hsteady.2 es' hsuf, fun es'' hes'' =>
          hsteady.2 es'' (hes''.trans ((List.suffix_cons _ _).trans hsuf))⟩

end

end Arsh.Glob
