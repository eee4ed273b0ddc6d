import Mathlib.Computability.Language
import Mathlib.Tactic.Common

/-!
# Lexers

Regular expressions over sets of symbols, and rules with a regular expression each. A lexer takes
the longest match of all rules, and the first of the rules that have it. Matches are found by
derivatives, which are kept small enough that a match that has ended is seen to have ended:
`longest_append` and `next_append` say that what comes behind does not matter then.
-/

namespace Arsh.Lexer

variable {α κ : Type*}

inductive Re (α : Type*) where
  | empty
  | eps
  | set (p : α → Bool)
  | cat (r s : Re α)
  | alt (r s : Re α)
  | star (r : Re α)

namespace Re

variable {r s : Re α} {a : α} {u v w : List α} {n : Nat}

/-- The words of an expression. -/
def lang : Re α → Language α
  | empty => 0
  | eps => 1
  | set p => {w | ∃ a, p a = true ∧ w = [a]}
  | cat r s => r.lang * s.lang
  | alt r s => r.lang + s.lang
  | star r => KStar.kstar r.lang

/-- A single symbol. -/
def sym [DecidableEq α] (a : α) : Re α := set (decide <| · = a)

/-- A fixed word. -/
def lit [DecidableEq α] : List α → Re α
  | [] => eps
  | [a] => sym a
  | a :: w => cat (sym a) (lit w)

/-- One or more. -/
def plus (r : Re α) : Re α := cat r (star r)

/-- None or one. -/
def opt (r : Re α) : Re α := alt r eps

/-! ## Derivatives -/

def nullable : Re α → Bool
  | empty => false
  | eps => true
  | set _ => false
  | cat r s => r.nullable && s.nullable
  | alt r s => r.nullable || s.nullable
  | star _ => true

def mkCat : Re α → Re α → Re α
  | empty, _ => empty
  | eps, s => s
  | r, s => cat r s

def mkAlt : Re α → Re α → Re α
  | empty, s => s
  | r, empty => r
  | r, s => alt r s

/-- What is left of the words that start with `a`. -/
def deriv (a : α) : Re α → Re α
  | empty => empty
  | eps => empty
  | set p => if p a then eps else empty
  | cat r s =>
    if r.nullable then mkAlt (mkCat (r.deriv a) s) (s.deriv a) else mkCat (r.deriv a) s
  | alt r s => mkAlt (r.deriv a) (s.deriv a)
  | star r => mkCat (r.deriv a) (star r)

def derivs (r : Re α) (w : List α) : Re α := w.foldl (fun r a => r.deriv a) r

-- The equations are made here, once, and not inside the proofs that unfold a definition.
attribute [local grind =] lang nullable mkCat mkAlt deriv

theorem mem_cat : w ∈ (cat r s).lang ↔ ∃ u ∈ r.lang, ∃ v ∈ s.lang, u ++ v = w := Language.mem_mul

theorem mem_alt : w ∈ (alt r s).lang ↔ w ∈ r.lang ∨ w ∈ s.lang := Iff.rfl

theorem mem_eps : w ∈ (eps : Re α).lang ↔ w = [] := Iff.rfl

theorem not_mem_empty : w ∉ (empty : Re α).lang := id

theorem mem_set {p : α → Bool} : w ∈ (set p).lang ↔ ∃ a, p a = true ∧ w = [a] := Iff.rfl

theorem mem_star : w ∈ (star r).lang ↔ w = [] ∨ ∃ u ∈ r.lang, ∃ v ∈ (star r).lang, u ++ v = w := by
  have h := Language.one_add_self_mul_kstar_eq_kstar r.lang
  have hw : w ∈ 1 + r.lang * KStar.kstar r.lang ↔ w ∈ KStar.kstar r.lang := by rw [h]
  exact hw.symm.trans (or_congr Iff.rfl Language.mem_mul)

theorem mem_star_cons : a :: w ∈ (star r).lang ↔
    ∃ u v, a :: u ∈ r.lang ∧ v ∈ (star r).lang ∧ u ++ v = w := by
  constructor
  · intro h
    have h' := h
    unfold lang at h'
    rw [Language.kstar_def_nonempty] at h'
    obtain ⟨L, hL, hmem⟩ := h'
    cases L with
    | nil => cases hL
    | cons x L =>
      obtain ⟨hx, hne⟩ := hmem x List.mem_cons_self
      obtain ⟨b, u, rfl⟩ := List.exists_cons_of_ne_nil hne
      rw [List.flatten_cons, List.cons_append, List.cons.injEq] at hL
      obtain ⟨rfl, rfl⟩ := hL
      exact ⟨u, L.flatten, hx,
        Language.join_mem_kstar fun y hy => (hmem y (List.mem_cons_of_mem _ hy)).1, rfl⟩
  · rintro ⟨u, v, hu, hv, rfl⟩
    exact mem_star.2 (.inr ⟨a :: u, hu, v, hv, rfl⟩)

theorem nullable_iff : r.nullable = true ↔ [] ∈ r.lang := by
  induction r with
  | empty => exact ⟨nofun, fun h => absurd h not_mem_empty⟩
  | eps => exact ⟨fun _ => rfl, fun _ => rfl⟩
  | set p => exact ⟨nofun, fun ⟨a, _, h⟩ => by cases h⟩
  | cat r s ihr ihs =>
    rw [nullable, Bool.and_eq_true, ihr, ihs, mem_cat]
    constructor
    · rintro ⟨hr, hs⟩
      exact ⟨[], hr, [], hs, rfl⟩
    · rintro ⟨u, hu, v, hv, h⟩
      obtain ⟨rfl, rfl⟩ := List.append_eq_nil_iff.1 h
      exact ⟨hu, hv⟩
  | alt r s ihr ihs => rw [nullable, Bool.or_eq_true, ihr, ihs, mem_alt]
  | star r _ => exact ⟨fun _ => Language.nil_mem_kstar _, fun _ => rfl⟩

theorem mem_mkCat : w ∈ (mkCat r s).lang ↔ w ∈ (cat r s).lang := by
  unfold mkCat
  split
  · exact ⟨fun h => absurd h not_mem_empty, fun h => by
      obtain ⟨u, hu, -⟩ := mem_cat.1 h
      exact absurd hu not_mem_empty⟩
  · rw [mem_cat]
    constructor
    · exact fun h => ⟨[], rfl, w, h, rfl⟩
    · rintro ⟨u, hu, v, hv, rfl⟩
      rw [mem_eps.1 hu]
      exact hv
  · rfl

theorem mem_mkAlt : w ∈ (mkAlt r s).lang ↔ w ∈ r.lang ∨ w ∈ s.lang := by
  unfold mkAlt
  split
  · exact ⟨.inr, fun h => h.resolve_left not_mem_empty⟩
  · exact ⟨.inl, fun h => h.resolve_right not_mem_empty⟩
  · rfl

theorem mem_deriv : w ∈ (r.deriv a).lang ↔ a :: w ∈ r.lang := by
  induction r generalizing w with
  | empty => exact Iff.rfl
  | eps => exact ⟨fun h => absurd h not_mem_empty, fun h => by cases h⟩
  | set p =>
    rw [deriv, mem_set]
    split
    · next hp =>
      constructor
      · rintro h
        rw [mem_eps.1 h]
        exact ⟨a, hp, rfl⟩
      · rintro ⟨b, -, h⟩
        cases h
        rfl
    · next hp =>
      apply iff_of_false not_mem_empty
      rintro ⟨b, hb, h⟩
      cases h
      exact hp hb
  | cat r s ihr ihs =>
    have hcat : w ∈ (cat (r.deriv a) s).lang ↔
        ∃ u v, a :: u ∈ r.lang ∧ v ∈ s.lang ∧ u ++ v = w := by
      rw [mem_cat]
      constructor
      · rintro ⟨u, hu, v, hv, h⟩
        exact ⟨u, v, ihr.1 hu, hv, h⟩
      · rintro ⟨u, v, hu, hv, h⟩
        exact ⟨u, ihr.2 hu, v, hv, h⟩
    have hsplit : a :: w ∈ (cat r s).lang ↔
        (∃ u v, a :: u ∈ r.lang ∧ v ∈ s.lang ∧ u ++ v = w) ∨ [] ∈ r.lang ∧ a :: w ∈ s.lang := by
      rw [mem_cat]
      constructor
      · rintro ⟨u, hu, v, hv, h⟩
        cases u with
        | nil => exact .inr ⟨hu, h ▸ hv⟩
        | cons b u =>
          rw [List.cons_append, List.cons.injEq] at h
          obtain ⟨rfl, h⟩ := h
          exact .inl ⟨u, v, hu, hv, h⟩
      · rintro (⟨u, v, hu, hv, rfl⟩ | ⟨hr, hs⟩)
        · exact ⟨a :: u, hu, v, hv, rfl⟩
        · exact ⟨[], hr, a :: w, hs, rfl⟩
    rw [deriv, hsplit]
    split
    · next hn => rw [mem_mkAlt, mem_mkCat, hcat, ihs, and_iff_right (nullable_iff.1 hn)]
    · next hn =>
      rw [mem_mkCat, hcat, or_iff_left]
      rintro ⟨hr, -⟩
      exact hn (nullable_iff.2 hr)
  | alt r s ihr ihs => rw [deriv, mem_mkAlt, ihr, ihs, mem_alt]
  | star r ih =>
    rw [deriv, mem_mkCat, mem_cat, mem_star_cons]
    constructor
    · rintro ⟨u, hu, v, hv, h⟩
      exact ⟨u, v, ih.1 hu, hv, h⟩
    · rintro ⟨u, v, hu, hv, h⟩
      exact ⟨u, ih.2 hu, v, hv, h⟩

theorem mem_derivs : v ∈ (r.derivs w).lang ↔ w ++ v ∈ r.lang := by
  induction w generalizing r with
  | nil => rfl
  | cons a w ih =>
    show v ∈ ((r.deriv a).derivs w).lang ↔ _
    rw [ih, mem_deriv, List.cons_append]

theorem mem_sym [DecidableEq α] : w ∈ (sym a).lang ↔ w = [a] := by
  unfold sym
  rw [mem_set]
  constructor
  · rintro ⟨b, hb, rfl⟩
    rw [of_decide_eq_true hb]
  · rintro rfl
    exact ⟨a, decide_eq_true rfl, rfl⟩

theorem mem_lit [DecidableEq α] : w ∈ (lit u).lang ↔ w = u := by
  induction u generalizing w with
  | nil => exact mem_eps
  | cons a u ih =>
    cases u with
    | nil => exact mem_sym
    | cons b u =>
      rw [lit, mem_cat]
      · constructor
        · rintro ⟨x, hx, y, hy, rfl⟩
          rw [mem_sym.1 hx, ih.1 hy]
          rfl
        · rintro rfl
          exact ⟨[a], mem_sym.2 rfl, b :: u, ih.2 rfl, rfl⟩
      · nofun

theorem mem_opt : w ∈ (opt r).lang ↔ w ∈ r.lang ∨ w = [] := Iff.rfl

/-- The expression does not tell two symbols apart. -/
def Agree (a b : α) : Re α → Prop
  | empty | eps => True
  | set p => p a = p b
  | cat r s | alt r s => r.Agree a b ∧ s.Agree a b
  | star r => r.Agree a b

theorem Agree.deriv_eq {b : α} (h : r.Agree a b) : r.deriv a = r.deriv b := by
  induction r with
  | empty | eps => rfl
  | set p =>
    rw [deriv, deriv]
    exact congrArg (fun x => if x = true then eps else empty) h
  | cat r s ihr ihs => rw [deriv, deriv, ihr h.1, ihs h.2]
  | alt r s ihr ihs => rw [deriv, deriv, ihr h.1, ihs h.2]
  | star r ih => rw [deriv, deriv, ih h]

theorem agree_sym [DecidableEq α] {b x : α} (ha : a ≠ x) (hb : b ≠ x) : (sym x).Agree a b := by
  show decide (a = x) = decide (b = x)
  rw [decide_eq_false ha, decide_eq_false hb]

theorem agree_lit [DecidableEq α] {b : α} (h : ∀ x ∈ w, a ≠ x ∧ b ≠ x) : (lit w).Agree a b := by
  induction w with
  | nil => exact trivial
  | cons x w ih =>
    obtain ⟨hx, hw⟩ := List.forall_mem_cons.1 h
    cases w with
    | nil => exact agree_sym hx.1 hx.2
    | cons y w => exact ⟨agree_sym hx.1 hx.2, ih hw⟩

/-! ## The longest match -/

/-- The length of the longest prefix that is a word. -/
def longest : Re α → List α → Option Nat
  | r, [] => if r.nullable then some 0 else none
  | r, a :: w =>
    match longest (r.deriv a) w with
    | some n => some (n + 1)
    | none => if r.nullable then some 0 else none

attribute [local grind =] longest

@[simp] theorem longest_empty : (empty : Re α).longest w = none := by
  induction w with
  | nil => rfl
  | cons a w ih =>
    unfold longest
    rw [deriv, ih]
    rfl

@[simp] theorem longest_eps : (eps : Re α).longest w = some 0 := by
  cases w with
  | nil => rfl
  | cons a w =>
    unfold longest
    rw [deriv, longest_empty]
    rfl

theorem longest_none_iff : r.longest w = none ↔ ∀ u, u <+: w → u ∉ r.lang := by
  induction w generalizing r with
  | nil =>
    unfold longest
    simp only [List.prefix_nil, forall_eq]
    rw [← nullable_iff]
    cases r.nullable <;> simp
  | cons a w ih =>
    unfold longest
    have hcons : (∀ u, u <+: a :: w → u ∉ r.lang) ↔
        [] ∉ r.lang ∧ ∀ u, u <+: w → u ∉ (r.deriv a).lang := by
      constructor
      · intro h
        refine ⟨h [] List.nil_prefix, fun u hu hm => ?_⟩
        exact h (a :: u) (List.cons_prefix_cons.2 ⟨rfl, hu⟩) (mem_deriv.1 hm)
      · rintro ⟨hnil, h⟩ u hu hm
        cases u with
        | nil => exact hnil hm
        | cons b u =>
          obtain ⟨rfl, hp⟩ := List.cons_prefix_cons.1 hu
          exact h u hp (mem_deriv.2 hm)
    rw [hcons, ← ih, ← nullable_iff]
    cases (r.deriv a).longest w with
    | none => cases r.nullable <;> simp
    | some n => simp

theorem longest_some (h : r.longest w = some n) :
    n ≤ w.length ∧ w.take n ∈ r.lang ∧ ∀ u, u <+: w → u ∈ r.lang → u.length ≤ n := by
  induction w generalizing r n with
  | nil =>
    unfold longest at h
    split at h
    · next hn =>
      cases h
      refine ⟨Nat.le_refl _, nullable_iff.1 hn, fun u hu _ => ?_⟩
      rw [List.prefix_nil.1 hu]
      exact Nat.le_refl _
    · cases h
  | cons a w ih =>
    unfold longest at h
    split at h
    · next m hm =>
      cases h
      obtain ⟨hle, hmem, hmax⟩ := ih hm
      refine ⟨Nat.succ_le_succ hle, mem_deriv.1 hmem, fun u hu hum => ?_⟩
      cases u with
      | nil => exact Nat.zero_le _
      | cons b u =>
        obtain ⟨rfl, hp⟩ := List.cons_prefix_cons.1 hu
        exact Nat.succ_le_succ (hmax u hp (mem_deriv.2 hum))
    · next hnone =>
      split at h
      · next hn =>
        cases h
        refine ⟨Nat.zero_le _, nullable_iff.1 hn, fun u hu hum => ?_⟩
        cases u with
        | nil => exact Nat.le_refl _
        | cons b u =>
          obtain ⟨rfl, hp⟩ := List.cons_prefix_cons.1 hu
          exact absurd (mem_deriv.2 hum) (longest_none_iff.1 hnone u hp)
      · cases h

theorem longest_cons (h : (r.deriv a).longest w = some n) :
    r.longest (a :: w) = some (n + 1) := by
  rw [longest, h]

theorem longest_cons_none (h : (r.deriv a).longest w = none) (hn : r.nullable = false) :
    r.longest (a :: w) = none := by
  rw [longest, h, hn]
  rfl

/-- No word is left. -/
def dead : Re α → Bool
  | empty => true
  | _ => false

theorem eq_empty_of_dead (h : r.dead = true) : r = empty := by
  cases r with
  | empty => rfl
  | eps | set | cat | alt | star => cases h

theorem longest_of_dead (h : (r.deriv a).dead = true) :
    r.longest (a :: w) = if r.nullable then some 0 else none := by
  rw [longest, eq_empty_of_dead h, longest_empty]

/-- A rule that has not died has a word that starts with the symbol. -/
theorem deriv_not_dead (h : r.longest (a :: w) = some (n + 1)) : (r.deriv a).dead = false := by
  cases hd : (r.deriv a).dead with
  | false => rfl
  | true =>
    rw [longest_of_dead hd] at h
    split at h <;> cases h

/-- No longer word starts as a word that has been read. -/
def stops : Re α → Bool
  | empty | eps => true
  | _ => false

/-- What comes behind a match that has ended does not matter. -/
theorem longest_append (h : (r.derivs w).stops = true) (v : List α) :
    r.longest (w ++ v) = r.longest w := by
  induction w generalizing r with
  | nil =>
    cases r with
    | empty => rw [longest_empty, longest_empty]
    | eps => rw [longest_eps, longest_eps]
    | set | cat | alt | star => cases h
  | cons a w ih =>
    rw [List.cons_append, longest, longest, ih h]

theorem derivs_append : r.derivs (u ++ v) = (r.derivs u).derivs v := List.foldl_append

theorem longest_derivs (h : (r.derivs w).longest v = some n) :
    r.longest (w ++ v) = some (w.length + n) := by
  induction w generalizing r with
  | nil => rw [List.nil_append, List.length_nil, Nat.zero_add]; exact h
  | cons a w ih =>
    rw [List.cons_append, longest_cons (ih h), List.length_cons]
    congr 1
    omega

/-- A match ends before its rule has died. -/
theorem longest_lt (h : (r.derivs w).dead = true) (hn : r.longest (w ++ v) = some n) :
    n < w.length := by
  have hd := eq_empty_of_dead h
  rw [longest_append (by rw [hd]; rfl)] at hn
  obtain ⟨hle, hmem, -⟩ := longest_some hn
  apply Nat.lt_of_le_of_ne hle
  intro heq
  rw [heq, List.take_length] at hmem
  have hnil : [] ∈ (r.derivs w).lang := mem_derivs.2 (by rwa [List.append_nil])
  rw [hd] at hnil
  exact not_mem_empty hnil

end Re

/-! ## Rules -/

/-- A rule: at the end of a match, `trail` symbols are looked at only. -/
structure Rule (α κ : Type*) where
  kind : κ
  re : Re α
  trail : Nat := 0

variable {rules pre post : List (Rule α κ)} {r : Rule α κ} {w : List α} {n : Nat}

/-- The first rule of those with the longest match. -/
def next : List (Rule α κ) → List α → Option (Rule α κ × Nat)
  | [], _ => none
  | r :: rules, w =>
    match r.re.longest w, next rules w with
    | none, found => found
    | some n, none => some (r, n)
    | some n, some (r', m) => if m ≤ n then some (r, n) else some (r', m)

attribute [local grind =] next

theorem next_le (h : next rules w = some (r, n)) : r ∈ rules ∧ r.re.longest w = some n := by
  induction rules with
  | nil => cases h
  | cons r' rules ih =>
    unfold next at h
    split at h
    · obtain ⟨hr, hn⟩ := ih h
      exact ⟨List.mem_cons_of_mem _ hr, hn⟩
    · next hl _ =>
      cases h
      exact ⟨List.mem_cons_self, hl⟩
    · next hl hrest =>
      split at h
      · cases h
        exact ⟨List.mem_cons_self, hl⟩
      · cases h
        obtain ⟨hr, hn⟩ := ih hrest
        exact ⟨List.mem_cons_of_mem _ hr, hn⟩

/-- A rule with a match that is longer than those of the rules before it, and not shorter than those
of the rules behind it. -/
theorem next_eq (hr : r.re.longest w = some n)
    (hpre : ∀ r' ∈ pre, ∀ m, r'.re.longest w = some m → m < n)
    (hpost : ∀ r' ∈ post, ∀ m, r'.re.longest w = some m → m ≤ n) :
    next (pre ++ r :: post) w = some (r, n) := by
  induction pre with
  | nil =>
    rw [List.nil_append, next, hr]
    cases hnext : next post w with
    | none => rfl
    | some e =>
      obtain ⟨hmem, hlong⟩ := next_le (r := e.1) (n := e.2) hnext
      exact if_pos (hpost e.1 hmem e.2 hlong)
  | cons r' pre ih =>
    obtain ⟨hr', hpre⟩ := List.forall_mem_cons.1 hpre
    rw [List.cons_append, next, ih hpre]
    cases hl : r'.re.longest w with
    | none => rfl
    | some m => exact if_neg (Nat.not_le.2 (hr' m hl))

/-- What comes behind does not matter when the matches of all rules have ended. -/
theorem next_append (h : ∀ r ∈ rules, (r.re.derivs w).stops = true) (v : List α) :
    next rules (w ++ v) = next rules w := by
  induction rules with
  | nil => rfl
  | cons r rules ih =>
    obtain ⟨hr, h⟩ := List.forall_mem_cons.1 h
    rw [next, next, ih h, Re.longest_append hr]

end Arsh.Lexer
