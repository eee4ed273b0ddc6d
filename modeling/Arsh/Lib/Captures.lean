import Arsh.Lib.Lexer

/-!
# Regular expressions with captures

Parts of an expression have tags, and a match says which words the tagged parts stand for. A scanner
takes the longest match. If an expression is unambiguous, there is one way to match a word only, and
the scanner's captures do not depend on the order in which the ways are tried
(`scan_of_matches`).
-/

namespace Arsh.Lexer

variable {α κ : Type*}

/-! ## The symbols of an expression -/

namespace Re

/-- All symbols of all words have a property. -/
def Over (p : α → Prop) : Re α → Prop
  | empty | eps => True
  | set q => ∀ a, q a = true → p a
  | cat r s | alt r s => r.Over p ∧ s.Over p
  | star r => r.Over p

/-- `r` exactly `n` times. -/
def times (r : Re α) : Nat → Re α
  | 0 => eps
  | n + 1 => cat r (r.times n)

/-- `r` at most `n` times. -/
def upTo (r : Re α) : Nat → Re α
  | 0 => eps
  | n + 1 => opt (cat r (r.upTo n))

section
variable {p q : α → Prop} {r s : Re α} {w : List α} {n : Nat}

theorem Over.mem (h : r.Over p) (hw : w ∈ r.lang) : ∀ a ∈ w, p a := by
  induction r generalizing w with
  | empty => exact absurd hw not_mem_empty
  | eps =>
    rw [mem_eps.1 hw]
    exact fun a ha => absurd ha List.not_mem_nil
  | set q =>
    obtain ⟨a, ha, rfl⟩ := hw
    intro b hb
    rw [List.mem_singleton.1 hb]
    exact h a ha
  | cat r s ihr ihs =>
    obtain ⟨u, hu, v, hv, rfl⟩ := mem_cat.1 hw
    intro a ha
    rcases List.mem_append.1 ha with ha | ha
    · exact ihr h.1 hu a ha
    · exact ihs h.2 hv a ha
  | alt r s ihr ihs =>
    rcases mem_alt.1 hw with hw | hw
    · exact ihr h.1 hw
    · exact ihs h.2 hw
  | star r ih =>
    obtain ⟨L, rfl, hL⟩ := Language.mem_kstar.1 hw
    intro a ha
    obtain ⟨u, hu, hau⟩ := List.mem_flatten.1 ha
    exact ih h (hL u hu) a hau

theorem Over.mono (h : r.Over p) (hpq : ∀ a, p a → q a) : r.Over q := by
  induction r with
  | empty => exact trivial
  | eps => exact trivial
  | set f => exact fun a ha => hpq a (h a ha)
  | cat r s ihr ihs => exact ⟨ihr h.1, ihs h.2⟩
  | alt r s ihr ihs => exact ⟨ihr h.1, ihs h.2⟩
  | star r ih => exact ih h

theorem Over.opt (h : r.Over p) : r.opt.Over p := ⟨h, trivial⟩

theorem Over.plus (h : r.Over p) : r.plus.Over p := ⟨h, h⟩

theorem Over.times (h : r.Over p) (n : Nat) : (r.times n).Over p := by
  induction n with
  | zero => exact trivial
  | succ n ih => exact ⟨h, ih⟩

theorem Over.upTo (h : r.Over p) (n : Nat) : (r.upTo n).Over p := by
  induction n with
  | zero => exact trivial
  | succ n ih => exact Over.opt ⟨h, ih⟩

theorem over_sym [DecidableEq α] {a : α} (h : p a) : (sym a).Over p := fun b hb => by
  rw [of_decide_eq_true hb]
  exact h

theorem over_lit [DecidableEq α] (h : ∀ a ∈ w, p a) : (lit w).Over p := by
  induction w with
  | nil => exact trivial
  | cons a w ih =>
    cases w with
    | nil => exact over_sym (h a List.mem_cons_self)
    | cons b w =>
      exact ⟨over_sym (h a List.mem_cons_self), ih fun c hc => h c (List.mem_cons_of_mem a hc)⟩

end

end Re

/-! ## Expressions with tags -/

inductive Tre (α κ : Type*) where
  | re (r : Re α)
  | group (k : κ) (r : Re α)
  | cat (s t : Tre α κ)
  | alt (s t : Tre α κ)

namespace Tre

/-- None or one. -/
def opt (t : Tre α κ) : Tre α κ := alt t (re .eps)

/-- The expression without its tags. -/
def toRe : Tre α κ → Re α
  | re r => r
  | group _ r => r
  | cat s t => .cat s.toRe t.toRe
  | alt s t => .alt s.toRe t.toRe

/-- A way to match a word, with the words of the tagged parts in order. -/
def Matches : Tre α κ → List α → List (κ × List α) → Prop
  | re r, w, c => w ∈ r.lang ∧ c = []
  | group k r, w, c => w ∈ r.lang ∧ c = [(k, w)]
  | cat s t, w, c => ∃ u c₁ v c₂, s.Matches u c₁ ∧ t.Matches v c₂ ∧ u ++ v = w ∧ c₁ ++ c₂ = c
  | alt s t, w, c => s.Matches w c ∨ t.Matches w c

/-- All ways to match a word. Parts on the left take as much as they can first. -/
def readings : Tre α κ → List α → List (List (κ × List α))
  | re r, w => if (r.derivs w).nullable then [[]] else []
  | group k r, w => if (r.derivs w).nullable then [[(k, w)]] else []
  | cat s t, w => (List.range (w.length + 1)).reverse.flatMap fun n =>
    (s.readings (w.take n)).flatMap fun c => (t.readings (w.drop n)).map (c ++ ·)
  | alt s t, w => s.readings w ++ t.readings w

/-- The captures of the longest match at the beginning of a text. -/
def scan (t : Tre α κ) (w : List α) : Option (List (κ × List α)) :=
  match t.toRe.longest w with
  | none => none
  | some n => (t.readings (w.take n)).head?

/-- There is one way to match a word at most. -/
def Unambiguous (t : Tre α κ) : Prop := ∀ w c c', t.Matches w c → t.Matches w c' → c = c'

section
variable {s t : Tre α κ} {r : Re α} {u v w : List α} {c c' : List (κ × List α)} {k : κ} {a : α}

theorem mem_toRe : w ∈ t.toRe.lang ↔ ∃ c, t.Matches w c := by
  induction t generalizing w with
  | re r => exact ⟨fun h => ⟨[], h, rfl⟩, fun ⟨_, h, _⟩ => h⟩
  | group k r => exact ⟨fun h => ⟨_, h, rfl⟩, fun ⟨_, h, _⟩ => h⟩
  | cat s t ihs iht =>
    rw [toRe, Re.mem_cat]
    constructor
    · rintro ⟨u, hu, v, hv, rfl⟩
      obtain ⟨c₁, h₁⟩ := ihs.1 hu
      obtain ⟨c₂, h₂⟩ := iht.1 hv
      exact ⟨_, u, c₁, v, c₂, h₁, h₂, rfl, rfl⟩
    · rintro ⟨_, u, c₁, v, c₂, h₁, h₂, rfl, rfl⟩
      exact ⟨u, ihs.2 ⟨c₁, h₁⟩, v, iht.2 ⟨c₂, h₂⟩, rfl⟩
  | alt s t ihs iht =>
    rw [toRe, Re.mem_alt, ihs, iht]
    exact exists_or.symm

theorem nullable_derivs : (r.derivs w).nullable = true ↔ w ∈ r.lang := by
  rw [Re.nullable_iff, Re.mem_derivs, List.append_nil]

theorem mem_readings : c ∈ t.readings w ↔ t.Matches w c := by
  induction t generalizing w c with
  | re r =>
    unfold readings Matches
    rw [← nullable_derivs]
    split <;> simp [*]
  | group k r =>
    unfold readings Matches
    rw [← nullable_derivs]
    split <;> simp [*]
  | cat s t ihs iht =>
    simp only [readings, List.mem_flatMap, List.mem_reverse, List.mem_range, List.mem_map, ihs, iht]
    constructor
    · rintro ⟨n, -, c₁, h₁, c₂, h₂, rfl⟩
      exact ⟨_, c₁, _, c₂, h₁, h₂, List.take_append_drop n w, rfl⟩
    · rintro ⟨u, c₁, v, c₂, h₁, h₂, rfl, rfl⟩
      refine ⟨u.length, by rw [List.length_append]; omega, c₁, ?_, c₂, ?_, rfl⟩
      · rwa [List.take_left]
      · rwa [List.drop_left]
  | alt s t ihs iht =>
    rw [readings, List.mem_append, ihs, iht]
    rfl

theorem scan_eq_none_iff : t.scan w = none ↔ ∀ u, u <+: w → u ∉ t.toRe.lang := by
  rw [← Re.longest_none_iff, scan]
  cases h : t.toRe.longest w with
  | none => simp
  | some n =>
    obtain ⟨-, hm, -⟩ := Re.longest_some h
    obtain ⟨c, hc⟩ := mem_toRe.1 hm
    have hne : t.readings (w.take n) ≠ [] := List.ne_nil_of_mem (mem_readings.2 hc)
    simp [List.head?_eq_none_iff, hne]

/-- What is scanned matches the longest word at the beginning. -/
theorem scan_some (h : t.scan w = some c) : ∃ u, u <+: w ∧ t.Matches u c ∧
    ∀ v, v <+: w → v ∈ t.toRe.lang → v.length ≤ u.length := by
  unfold scan at h
  split at h
  · cases h
  · next n hn =>
    obtain ⟨hle, -, hmax⟩ := Re.longest_some hn
    refine ⟨w.take n, List.take_prefix n w, mem_readings.1 (List.mem_of_head? h), fun v hv hm => ?_⟩
    rw [List.length_take, Nat.min_eq_left hle]
    exact hmax v hv hm

/-- A text that matches as a whole is scanned as a whole. -/
theorem scan_of_matches (hu : t.Unambiguous) (h : t.Matches w c) : t.scan w = some c := by
  cases hs : t.scan w with
  | none => exact absurd (mem_toRe.2 ⟨c, h⟩) (scan_eq_none_iff.1 hs w (List.prefix_refl w))
  | some c' =>
    obtain ⟨u, hp, hm, hmax⟩ := scan_some hs
    have hlen := hmax w (List.prefix_refl w) (mem_toRe.2 ⟨c, h⟩)
    obtain rfl := hp.eq_of_length_le hlen
    rw [hu u c c' h hm]

/-! ## Unambiguous expressions -/

theorem unambiguous_re (r : Re α) : (re r : Tre α κ).Unambiguous :=
  fun _ _ _ h h' => h.2.trans h'.2.symm

theorem unambiguous_group (k : κ) (r : Re α) : (group k r).Unambiguous :=
  fun _ _ _ h h' => h.2.trans h'.2.symm

/-- The two words of a concatenation are found again. -/
theorem Unambiguous.cat (hs : s.Unambiguous) (ht : t.Unambiguous)
    (h : ∀ u u' v v', u ∈ s.toRe.lang → u' ∈ s.toRe.lang → v ∈ t.toRe.lang → v' ∈ t.toRe.lang →
      u ++ v = u' ++ v' → u = u') : (cat s t).Unambiguous := by
  rintro w c c' ⟨u, c₁, v, c₂, h₁, h₂, rfl, rfl⟩ ⟨u', d₁, v', d₂, h₁', h₂', he, rfl⟩
  obtain rfl := h u' u v' v (mem_toRe.2 ⟨_, h₁'⟩) (mem_toRe.2 ⟨_, h₁⟩) (mem_toRe.2 ⟨_, h₂'⟩)
    (mem_toRe.2 ⟨_, h₂⟩) he
  obtain rfl := List.append_cancel_left he
  rw [hs _ _ _ h₁ h₁', ht _ _ _ h₂ h₂']

theorem Unambiguous.alt (hs : s.Unambiguous) (ht : t.Unambiguous)
    (h : ∀ w, w ∈ s.toRe.lang → w ∉ t.toRe.lang) : (alt s t).Unambiguous := by
  rintro w c c' (hc | hc) (hc' | hc')
  · exact hs w c c' hc hc'
  · exact absurd (mem_toRe.2 ⟨_, hc'⟩) (h w (mem_toRe.2 ⟨_, hc⟩))
  · exact absurd (mem_toRe.2 ⟨_, hc⟩) (h w (mem_toRe.2 ⟨_, hc'⟩))
  · exact ht w c c' hc hc'

theorem Unambiguous.opt (ht : t.Unambiguous) (h : [] ∉ t.toRe.lang) : t.opt.Unambiguous :=
  ht.alt (unambiguous_re _) fun _ hw hn => h (Re.mem_eps.1 hn ▸ hw)

/-- A word ends where the first symbol of the next one stands, if it has no such symbol itself. -/
theorem cut_unique {p : α → Prop} {u' v' : List α} (hu : ∀ a ∈ u, ¬ p a) (hu' : ∀ a ∈ u', ¬ p a)
    (hv : ∀ a ∈ v.head?, p a) (hv' : ∀ a ∈ v'.head?, p a) (h : u ++ v = u' ++ v') : u = u' := by
  induction u generalizing u' with
  | nil =>
    cases u' with
    | nil => rfl
    | cons a u' =>
      rw [List.nil_append] at h
      rw [h] at hv
      exact absurd (hv a rfl) (hu' a List.mem_cons_self)
  | cons a u ih =>
    cases u' with
    | nil =>
      rw [List.nil_append] at h
      rw [← h] at hv'
      exact absurd (hv' a rfl) (hu a List.mem_cons_self)
    | cons b u' =>
      obtain ⟨rfl, he⟩ := List.cons.inj h
      rw [ih (fun x hx => hu x (List.mem_cons_of_mem a hx))
        (fun x hx => hu' x (List.mem_cons_of_mem a hx)) he]

end

end Tre

end Arsh.Lexer
