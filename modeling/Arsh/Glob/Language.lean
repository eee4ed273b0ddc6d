import Arsh.Glob.CharSet

/-!
# The language of a pattern component

A component is a list of elements, up to a slash that is not escaped. Each of them stands for
something that begins where the one before has ended: `*` for any characters in sequence, `?` and a
bracket expression for one character, and every other byte for itself. An invalid byte is a
character of its own.
-/

namespace Arsh.Glob

open UnicodeUtil

inductive Elem where
  | star
  | any
  | charSet (s : CharSet)
  /-- a bracket expression that is not one -/
  | bad
  | literal (ch : Nat)
  deriving DecidableEq, Repr

/-- The elements of the first component, and what is left of the pattern behind them. -/
def parse (iter : Bytes) : List Elem × Bytes :=
  match iter with
  | [] => ([], [])
  | ch :: iter =>
    if ch = chSlash then ([], ch :: iter)
    else if ch = chQuestion then
      let (elems, rest) := parse iter
      (.any :: elems, rest)
    else if ch = chOpen then
      match h : readCharSet (ch :: iter) with
      | .ok (s, iter') =>
        have : iter'.length < iter.length + 1 := readCharSet_length h
        let (elems, rest) := parse iter'
        (.charSet s :: elems, rest)
      | .error _ => ([.bad], [])
    else if ch = chStar then
      let (elems, rest) := parse iter
      (.star :: elems, rest)
    else if ch = chBackslash then
      match iter with
      | [] => ([.literal ch], [])
      | ch :: iter =>
        let (elems, rest) := parse iter
        (.literal ch :: elems, rest)
    else
      let (elems, rest) := parse iter
      (.literal ch :: elems, rest)
termination_by iter.length

/-- The elements of the first component of a pattern. -/
def elems (iter : Bytes) : List Elem := (parse iter).1

/-- `s` is what is left of the name `n` behind some of its characters. -/
inductive Boundary : Bytes → Bytes → Prop where
  | refl (n : Bytes) : Boundary n n
  | next {n s : Bytes} : n ≠ [] → Boundary (nextChar n) s → Boundary n s

section
variable (isctype : CharClass → Option Nat → Bool)

/-- The elements stand for the name. -/
inductive Language : List Elem → Bytes → Prop where
  | nil : Language [] []
  | star {es : List Elem} {s t : Bytes} : Boundary s t → Language es t → Language (.star :: es) s
  | any {es : List Elem} {s : Bytes} : s ≠ [] → Language es (nextChar s) → Language (.any :: es) s
  | charSet {cs : CharSet} {es : List Elem} {s : Bytes} : s ≠ [] →
    cs.mem isctype (utf8ToCodePoint s).2 = true → Language es (nextChar s) →
    Language (.charSet cs :: es) s
  | literal {ch : Nat} {es : List Elem} {s : Bytes} : Language es s →
    Language (.literal ch :: es) (ch :: s)

/-- The rule for dot files: `.` and `..` are matched by themselves only, and the dot at the
beginning of another name by a dot at the beginning of the pattern, unless all are wanted. -/
structure DotRule (name iter : Bytes) (dotglob : Bool) : Prop where
  special : name = [chDot] ∨ name = [chDot, chDot] → iter.takeWhile (· ≠ chSlash) = name
  leading : expect chDot name = true → expect chDot iter = true ∨ dotglob = true

/-- The name is in the language of the first component of a pattern. -/
def InLanguage (name iter : Bytes) (dotglob allowEmptyPattern : Bool) : Prop :=
  DotRule name iter dotglob ∧
    (Language isctype (elems iter) name ∨ allowEmptyPattern = true ∧ elems iter = [])

end

section
variable {n t u : Bytes}

/-! ## Boundaries -/

theorem charSize_pos (name : Bytes) : 0 < charSize name := by
  unfold charSize
  simp only
  split
  · exact Nat.one_pos
  · next h => exact Nat.pos_of_ne_zero h

theorem nextChar_length (h : n ≠ []) : (nextChar n).length < n.length := by
  have hpos := List.length_pos_iff.2 h
  have hsize := charSize_pos n
  rw [nextChar, List.length_drop]
  omega

theorem nextChar_suffix (n : Bytes) : nextChar n <:+ n := List.drop_suffix _ _

theorem Boundary.suffix (h : Boundary n t) : t <:+ n := by
  induction h with
  | refl n => exact List.suffix_refl n
  | next _ _ ih => exact ih.trans (nextChar_suffix _)

theorem Boundary.trans (h : Boundary n t) (h' : Boundary t u) : Boundary n u := by
  induction h with
  | refl n => exact h'
  | next hne _ ih => exact .next hne (ih h')

/-- The end of the name is a boundary. -/
theorem boundary_nil (n : Bytes) : Boundary n [] := by
  induction hlen : n.length using Nat.strong_induction_on generalizing n with
  | _ len ih =>
    by_cases hne : n = []
    · rw [hne]
      exact .refl []
    · have hlt := nextChar_length hne
      exact .next hne (ih _ (hlen ▸ hlt) _ rfl)

/-- An invalid byte stands for itself. -/
theorem nextChar_of_invalid (h : utf8ValidateChar t = 0) : nextChar t = t.drop 1 := by
  rw [nextChar, charSize, h]
  rfl

theorem utf8ValidateChar_eq (h : utf8ValidateChar t ≠ 0) :
    utf8ValidateChar t = wtf8ValidateChar t := by
  unfold utf8ValidateChar at h ⊢
  split at h
  · exact absurd rfl h
  · next hsurrogate => rw [if_neg hsurrogate]

theorem nextChar_of_valid {c : Nat} {rest : Bytes} (hc : c ≤ codePointMax)
    (h : utf8ValidateChar (codePointToUtf8 c ++ rest) ≠ 0) :
    nextChar (codePointToUtf8 c ++ rest) = rest := by
  have hpos := codePointToUtf8_length_pos hc
  rw [nextChar, charSize, utf8ValidateChar_eq h, wtf8ValidateChar_append hc,
    if_neg (Nat.ne_of_gt hpos), List.drop_left]

/-- The first character: one byte, or a byte with others that follow. -/
theorem charSize_cases (h : t ≠ []) : ∃ b bs rest, t = b :: bs ++ rest ∧ nextChar t = rest ∧
    ∀ x ∈ bs, Following x := by
  by_cases hzero : utf8ValidateChar t = 0
  · cases t with
    | nil => exact absurd rfl h
    | cons b t =>
      exact ⟨b, [], t, rfl, nextChar_of_invalid hzero, fun x hx => (nomatch hx)⟩
  · have hvalid := hzero
    rw [utf8ValidateChar_eq hzero] at hvalid
    obtain ⟨c, rest, hc, rfl⟩ := exists_of_wtf8ValidateChar hvalid
    obtain ⟨b, bs, hbytes, -, -, hfollowing⟩ := codePointToUtf8_shape hc
    exact ⟨b, bs, rest, by rw [hbytes], nextChar_of_valid hc hzero, hfollowing⟩

/-- Bytes that follow a first one are characters of their own without it. -/
theorem boundary_of_following {bs : Bytes} (h : ∀ x ∈ bs, Following x) (rest : Bytes) :
    Boundary (bs ++ rest) rest := by
  induction bs with
  | nil => exact .refl rest
  | cons x bs ih =>
    obtain ⟨-, hle, hlt⟩ := h x (List.mem_cons_self ..)
    have hvalid : utf8ValidateChar (x :: (bs ++ rest)) = 0 := by
      unfold utf8ValidateChar
      split
      · rfl
      · unfold wtf8ValidateChar
        dsimp only
        rw [if_neg (by omega), if_neg (by omega), if_neg (by omega), if_neg (by omega)]
    refine .next (List.cons_ne_nil _ _) ?_
    rw [List.cons_append, nextChar_of_invalid hvalid]
    exact ih fun x hx => h x (List.mem_cons_of_mem _ hx)

/-- A place that is not behind the first character is at its beginning or inside of it. -/
theorem suffix_cases {p : Bytes} (hp : p <:+ t) (hlen : (nextChar t).length ≤ p.length) :
    p = t ∨ ∃ bs, p = bs ++ nextChar t ∧ ∀ x ∈ bs, Following x := by
  by_cases ht : t = []
  · left
    rw [ht] at hp ⊢
    exact List.suffix_nil.1 hp
  obtain ⟨b, bs, rest, rfl, hnext, hfollowing⟩ := charSize_cases ht
  rw [hnext] at hlen ⊢
  rcases List.suffix_cons_iff.1 hp with rfl | hp
  · exact .inl rfl
  · right
    obtain ⟨bs', rfl⟩ := List.suffix_of_suffix_length_le (List.suffix_append bs rest) hp hlen
    have hbs : bs' <:+ bs := List.suffix_append_self_iff.1 hp
    exact ⟨bs', rfl, fun x hx => hfollowing x (hbs.subset hx)⟩

/-- From every place between, the characters lead to the same boundary. -/
theorem Boundary.of_suffix {p : Bytes} (h : Boundary t u) (hp : p <:+ t) (hu : u <:+ p) :
    Boundary p u := by
  induction h with
  | refl t => rw [hp.eq_of_length (Nat.le_antisymm hp.length_le hu.length_le)]; exact .refl t
  | @next t u hne hb ih =>
    by_cases hlen : p.length ≤ (nextChar t).length
    · exact ih (List.suffix_of_suffix_length_le hp (nextChar_suffix t) hlen) hu
    · rcases suffix_cases hp (Nat.le_of_not_le hlen) with rfl | ⟨bs, rfl, hfollowing⟩
      · exact .next hne hb
      · exact (boundary_of_following hfollowing _).trans hb

/-- A place before a byte that begins a character is a boundary. -/
theorem boundary_of_head {p : Bytes} (hp : p <:+ t) (hhead : ∀ x ∈ p.head?, ¬ Following x) :
    Boundary t p := by
  induction hlen : t.length using Nat.strong_induction_on generalizing t with
  | _ len ih =>
    by_cases hle : p.length ≤ (nextChar t).length
    · by_cases ht : t = []
      · rw [ht] at hp ⊢
        rw [List.suffix_nil.1 hp]
        exact .refl []
      · have hlt := nextChar_length ht
        have hp' := List.suffix_of_suffix_length_le hp (nextChar_suffix t) hle
        exact .next ht (ih _ (hlen ▸ hlt) hp' rfl)
    · rcases suffix_cases hp (Nat.le_of_not_le hle) with rfl | ⟨bs, rfl, hfollowing⟩
      · exact .refl _
      · cases bs with
        | nil => exact absurd (Nat.le_refl _) hle
        | cons x bs =>
          exact absurd (hfollowing x (List.mem_cons_self ..)) (hhead x rfl)

theorem boundary_char {c : Nat} (hc : c ≤ codePointMax) (rest : Bytes) :
    Boundary (codePointToUtf8 c ++ rest) rest := by
  obtain ⟨b, bs, hbytes, -, -, hfollowing⟩ := codePointToUtf8_shape hc
  have hne : codePointToUtf8 c ++ rest ≠ [] := by
    rw [hbytes]
    exact List.cons_ne_nil _ _
  apply Boundary.next hne
  by_cases hzero : utf8ValidateChar (codePointToUtf8 c ++ rest) = 0
  · rw [nextChar_of_invalid hzero, hbytes]
    exact boundary_of_following hfollowing rest
  · rw [nextChar_of_valid hc hzero]
    exact .refl rest

end

end Arsh.Glob
