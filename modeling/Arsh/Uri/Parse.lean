import Arsh.Uri.Grammar

/-!
# `URI::parse`

The scanner takes the longest URI at the beginning of the text, and nothing checks that the text
ends there. A text that is a URI is cut into its components (`parse_text`); of another one that
begins with a scheme and a colon, a part is accepted.
-/

namespace Arsh.Uri

open Lexer

/-! ## The source -/

structure Authority where
  userinfo : Bytes
  host : Bytes
  port : Bytes
  deriving DecidableEq, Repr

structure URI where
  scheme : Bytes
  authority : Authority
  path : Bytes
  query : Bytes
  fragment : Bytes
  deriving DecidableEq, Repr

/-- `URI()`. -/
def URI.empty : URI := ⟨[], ⟨[], [], []⟩, [], [], []⟩

/-- `URI::operator bool`. -/
def URI.isUri (u : URI) : Bool := u.scheme ≠ []

def hexToNum (ch : Nat) : Nat :=
  if isDigit ch then ch - 48
  else if 97 ≤ ch ∧ ch ≤ 102 then 10 + (ch - 97)
  else if 65 ≤ ch ∧ ch ≤ 70 then 10 + (ch - 65)
  else 0

def decode : Bytes → Bytes
  | [] => []
  | [ch] => [ch]
  | [ch, ch1] => [ch, ch1]
  | ch :: ch1 :: ch2 :: rest =>
    if ch = 37 ∧ isHexdig ch1 ∧ isHexdig ch2 then
      (16 * hexToNum ch1 + hexToNum ch2) :: decode rest
    else ch :: decode (ch1 :: ch2 :: rest)

/-- `create`; the pointers are null where no tag was met. -/
def create : Option Bytes → Bytes
  | none => []
  | some range => decode range

def createPath (r1 r2 : Option Bytes) : Bytes :=
  match r1 with
  | some range => create (some range)
  | none => create r2

/-- The action of the rule `uri`. -/
def ofCaptures (c : List (Tag × Bytes)) : URI where
  scheme := create (c.lookup .scheme)
  authority := ⟨create (c.lookup .userInfo), create (c.lookup .host), create (c.lookup .port)⟩
  path := createPath (c.lookup .path01) (c.lookup .path23)
  query := create (c.lookup .query)
  fragment := create (c.lookup .fragment)

/-- `URI::parse`. A NUL ends the text, which is in no class of the grammar. -/
def parse (str : Bytes) : URI :=
  match uri.scan str with
  | none => .empty
  | some c => ofCaptures c

/-! ## What a URI is -/

/-- The components of the rule `uri`; what is behind `//` is the user, the host and the port. -/
structure Parts where
  scheme : Bytes
  authority : Option (Option Bytes × Bytes × Option Bytes)
  path : Bytes
  query : Option Bytes
  fragment : Option Bytes

namespace Parts

def authorityText : Option (Option Bytes × Bytes × Option Bytes) → Bytes
  | none => []
  | some (user, host, port) =>
    [47, 47] ++ (user.elim [] (· ++ [64]) ++ (host ++ port.elim [] (58 :: ·)))

def text (p : Parts) : Bytes :=
  p.scheme ++ ([58] ++ ((authorityText p.authority ++ p.path) ++
    (p.query.elim [] (63 :: ·) ++ p.fragment.elim [] (35 :: ·))))

/-- The path without an authority. -/
def pathOnly : Re Nat := .alt pathAbsolute (.alt pathRootless pathEmpty)

structure Valid (p : Parts) : Prop where
  scheme : p.scheme ∈ Uri.scheme.lang
  authority : ∀ user host port, p.authority = some (user, host, port) →
    (∀ u ∈ user, u ∈ userInfo.lang) ∧ host ∈ Uri.host.lang ∧ ∀ o ∈ port, o ∈ Uri.port.lang
  path : p.path ∈ (if p.authority.isSome then pathAbempty else pathOnly).lang
  query : ∀ q ∈ p.query, q ∈ Uri.query.lang
  fragment : ∀ f ∈ p.fragment, f ∈ Uri.fragment.lang

/-- The components as `URI::parse` gives them: decoded, and empty where there is none. -/
def toURI (p : Parts) : URI where
  scheme := decode p.scheme
  authority :=
    match p.authority with
    | none => ⟨[], [], []⟩
    | some (user, host, port) => ⟨create user, decode host, create port⟩
  path := decode p.path
  query := create p.query
  fragment := create p.fragment

def authorityCaptures : Option (Option Bytes × Bytes × Option Bytes) → Bytes → List (Tag × Bytes)
  | none, path => [(.path23, path)]
  | some (user, host, port), path =>
    (user.elim [] (fun u => [(.userInfo, u)]) ++
      ([(.host, host)] ++ port.elim [] fun o => [(.port, o)])) ++ [(.path01, path)]

def captures (p : Parts) : List (Tag × Bytes) :=
  [(.scheme, p.scheme)] ++ (authorityCaptures p.authority p.path ++
    (p.query.elim [] (fun q => [(.query, q)]) ++ p.fragment.elim [] fun f => [(.fragment, f)]))

end Parts

section
variable {w : Bytes} {c : List (Tag × Bytes)} {p : Parts} {k : Tag} {r : Re Nat}

theorem ofCaptures_captures (p : Parts) : ofCaptures p.captures = p.toURI := by
  obtain ⟨s, a, path, q, f⟩ := p
  rcases a with _ | ⟨user, host, port⟩
  · cases q <;> cases f <;> rfl
  · cases user <;> cases port <;> cases q <;> cases f <;> rfl

theorem matches_opt (ch : Char) : (Tre.opt (.cat (.re (text [ch])) (.group k r))).Matches w c ↔
    ∃ x : Option Bytes, (∀ y ∈ x, y ∈ r.lang) ∧ x.elim [] (ch.toNat :: ·) = w ∧
      (x.elim [] fun y => [(k, y)]) = c := by
  constructor
  · rintro (⟨u, _, v, _, ⟨hu, rfl⟩, ⟨hv, rfl⟩, rfl, rfl⟩ | ⟨hw, rfl⟩)
    · refine ⟨some v, by simpa using hv, ?_, rfl⟩
      rw [mem_text.1 hu]
      rfl
    · exact ⟨none, by simp, (Re.mem_eps.1 hw).symm, rfl⟩
  · rintro ⟨_ | y, hy, rfl, rfl⟩
    · exact .inr ⟨rfl, rfl⟩
    · exact .inl ⟨[ch.toNat], [], y, _, ⟨mem_text.2 rfl, rfl⟩, ⟨hy y rfl, rfl⟩, rfl, rfl⟩

theorem matches_userPart : userPart.Matches w c ↔
    ∃ x : Option Bytes, (∀ y ∈ x, y ∈ userInfo.lang) ∧ x.elim [] (· ++ [64]) = w ∧
      (x.elim [] fun y => [(Tag.userInfo, y)]) = c := by
  constructor
  · rintro (⟨u, _, v, _, ⟨hu, rfl⟩, ⟨hv, rfl⟩, rfl, rfl⟩ | ⟨hw, rfl⟩)
    · refine ⟨some u, by simpa using hu, ?_, rfl⟩
      rw [mem_text.1 hv]
      rfl
    · exact ⟨none, by simp, (Re.mem_eps.1 hw).symm, rfl⟩
  · rintro ⟨_ | y, hy, rfl, rfl⟩
    · exact .inr ⟨rfl, rfl⟩
    · exact .inl ⟨y, _, [64], [], ⟨hy y rfl, rfl⟩, ⟨mem_text.2 rfl, rfl⟩, rfl, rfl⟩

/-- The part behind the colon of the scheme. -/
theorem matches_hierPart : hierPart.Matches w c ↔ ∃ a path,
    (∀ user host port, a = some (user, host, port) → (∀ u ∈ user, u ∈ userInfo.lang) ∧
      host ∈ Uri.host.lang ∧ ∀ o ∈ port, o ∈ Uri.port.lang) ∧
    path ∈ (if a.isSome then pathAbempty else Parts.pathOnly).lang ∧
    Parts.authorityText a ++ path = w ∧ Parts.authorityCaptures a path = c := by
  constructor
  · rintro (⟨u, _, v, _, ⟨hu, rfl⟩, ⟨x, _, path, _, ha, ⟨hp, rfl⟩, rfl, rfl⟩, rfl, rfl⟩ |
      ⟨hw, rfl⟩)
    · obtain ⟨y, _, z, _, hy, ⟨host, _, o, _, ⟨hh, rfl⟩, ho, rfl, rfl⟩, rfl, rfl⟩ := ha
      obtain ⟨user, huser, rfl, rfl⟩ := matches_userPart.1 hy
      obtain ⟨port, hport, rfl, rfl⟩ := (matches_opt ':').1 ho
      refine ⟨some (user, host, port), path, ?_, hp, ?_, rfl⟩
      · rintro _ _ _ ⟨⟩
        exact ⟨huser, hh, hport⟩
      · rw [mem_text.1 hu]
        simp [Parts.authorityText]
    · exact ⟨none, w, nofun, hw, rfl, rfl⟩
  · rintro ⟨_ | ⟨user, host, port⟩, path, ha, hp, rfl, rfl⟩
    · exact .inr ⟨hp, rfl⟩
    · obtain ⟨huser, hh, hport⟩ := ha _ _ _ rfl
      refine .inl ⟨[47, 47], [], _, _, ⟨mem_text.2 rfl, rfl⟩, ⟨_, _, path, _,
        ⟨_, _, _, _, matches_userPart.2 ⟨user, huser, rfl, rfl⟩, ⟨host, _, _, _, ⟨hh, rfl⟩,
          (matches_opt ':').2 ⟨port, hport, rfl, rfl⟩, rfl, rfl⟩, rfl, rfl⟩, ⟨hp, rfl⟩, rfl, rfl⟩,
        ?_, rfl⟩
      simp [Parts.authorityText]

/-- The rule is matched by the text of its components. -/
theorem matches_iff : uri.Matches w c ↔ ∃ p : Parts, p.Valid ∧ p.text = w ∧ p.captures = c := by
  constructor
  · rintro ⟨s, _, _, _, ⟨hs, rfl⟩, ⟨x, _, _, _, ⟨hx, rfl⟩, ⟨y, _, _, _, hy, ⟨z, _, v, _, hq, hf,
      rfl, rfl⟩, rfl, rfl⟩, rfl, rfl⟩, rfl, rfl⟩
    obtain ⟨a, path, ha, hp, rfl, rfl⟩ := matches_hierPart.1 hy
    obtain ⟨q, hq', rfl, rfl⟩ := (matches_opt '?').1 hq
    obtain ⟨f, hf', rfl, rfl⟩ := (matches_opt '#').1 hf
    refine ⟨⟨s, a, path, q, f⟩, ⟨hs, ha, hp, hq', hf'⟩, ?_, rfl⟩
    rw [mem_text.1 hx]
    rfl
  · rintro ⟨p, h, rfl, rfl⟩
    exact ⟨p.scheme, _, _, _, ⟨h.scheme, rfl⟩, ⟨[58], _, _, _, ⟨mem_text.2 rfl, rfl⟩, ⟨_, _, _, _,
      matches_hierPart.2 ⟨p.authority, p.path, h.authority, h.path, rfl, rfl⟩, ⟨_, _, _, _,
        (matches_opt '?').2 ⟨p.query, h.query, rfl, rfl⟩,
        (matches_opt '#').2 ⟨p.fragment, h.fragment, rfl, rfl⟩, rfl, rfl⟩, rfl, rfl⟩, rfl, rfl⟩,
      rfl, rfl⟩

/-- A text that is a URI is cut into its components. -/
theorem parse_text (h : p.Valid) : parse p.text = p.toURI := by
  rw [parse, Tre.scan_of_matches uri_unambiguous (matches_iff.2 ⟨p, h, rfl, rfl⟩)]
  exact ofCaptures_captures p

theorem decode_ne_nil (h : w ≠ []) : decode w ≠ [] := by
  fun_cases decode w with
  | case1 => exact absurd rfl h
  | case2 => simp
  | case3 => simp
  | case4 => simp
  | case5 => simp

theorem toURI_isUri (h : p.Valid) : p.toURI.isUri = true := by
  have hs : p.scheme ≠ [] := fun h0 => @nil_notMem Uri.scheme (by decide) (h0 ▸ h.scheme)
  exact decide_eq_true (decode_ne_nil hs)

/-! ## What is accepted -/

/-- The text begins with a scheme and a colon. -/
def HasScheme (w : Bytes) : Prop := ∃ s ∈ scheme.lang, s ++ [58] <+: w

/-- A scheme and a colon are a URI. -/
theorem exists_prefix_iff : (∃ u, u <+: w ∧ u ∈ uri.toRe.lang) ↔ HasScheme w := by
  constructor
  · rintro ⟨u, hu, hm⟩
    obtain ⟨c, hc⟩ := Tre.mem_toRe.1 hm
    obtain ⟨p, h, rfl, -⟩ := matches_iff.1 hc
    refine ⟨p.scheme, h.scheme, List.IsPrefix.trans ?_ hu⟩
    rw [Parts.text, ← List.append_assoc]
    exact List.prefix_append _ _
  · rintro ⟨s, hs, hp⟩
    refine ⟨s ++ [58], hp, Tre.mem_toRe.2
      ⟨_, matches_iff.2 ⟨⟨s, none, [], none, none⟩, ?_, ?_, rfl⟩⟩⟩
    · exact ⟨hs, nofun, .inr (.inr rfl), by simp, by simp⟩
    · simp [Parts.text, Parts.authorityText]

/-- `parse` accepts what begins with a URI. -/
theorem parse_isUri : (parse w).isUri = true ↔ HasScheme w := by
  rw [← exists_prefix_iff, parse]
  cases hs : uri.scan w with
  | none =>
    refine iff_of_false (by decide) ?_
    rintro ⟨u, hu, hm⟩
    exact Tre.scan_eq_none_iff.1 hs u hu hm
  | some c =>
    obtain ⟨u, hu, hm, -⟩ := Tre.scan_some hs
    obtain ⟨p, h, -, rfl⟩ := matches_iff.1 hm
    refine iff_of_true ?_ ⟨u, hu, Tre.mem_toRe.2 ⟨_, hm⟩⟩
    dsimp only
    rw [ofCaptures_captures]
    exact toURI_isUri h

/-- `parse` accepts the text exactly if it is a URI, and gives its components. -/
structure ParsesExactly (w : Bytes) : Prop where
  accepts : (parse w).isUri = true ↔ ∃ p : Parts, p.Valid ∧ p.text = w
  components : ∀ p : Parts, p.Valid → p.text = w → parse w = p.toURI

/-- A text is parsed exactly if and only if it is a URI as a whole or does not begin with a scheme
and a colon. -/
theorem parsesExactly_iff (w : Bytes) :
    ParsesExactly w ↔ (∃ p : Parts, p.Valid ∧ p.text = w) ∨ ¬ HasScheme w := by
  constructor
  · intro h
    by_cases hs : HasScheme w
    · exact .inl (h.accepts.1 (parse_isUri.2 hs))
    · exact .inr hs
  · intro h
    refine ⟨?_, fun p hp hw => hw ▸ parse_text hp⟩
    rw [parse_isUri]
    refine ⟨fun hs => h.resolve_right (not_not.2 hs), ?_⟩
    rintro ⟨p, hp, rfl⟩
    exact parse_isUri.1 (by rw [parse_text hp]; exact toURI_isUri hp)

/-- `a: ` is accepted. -/
theorem not_parsesExactly : ¬ ParsesExactly [97, 58, 32] := fun h => by
  have hs : HasScheme [97, 58, 32] := ⟨[97], Tre.nullable_derivs.1 (by decide), by decide⟩
  obtain ⟨p, hp, hw⟩ := h.accepts.1 (parse_isUri.2 hs)
  have hm := Tre.mem_toRe.2 ⟨_, matches_iff.2 ⟨p, hp, hw, rfl⟩⟩
  exact absurd (Tre.nullable_derivs.2 hm) (by decide)

end

end Arsh.Uri
