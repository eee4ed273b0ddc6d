import Arsh.Uri.Parse

/-!
# File URIs

What `encode` leaves alone is in the grammar of paths, and `decode` undoes it. The text of the URI
of an absolute path is parsed as one with the scheme `file`, which resolves to the path.
-/

namespace Arsh.Uri

open Lexer

/-! ## The source -/

def isEscaped (ch : Nat) : Bool :=
  !([46, 95, 126].contains ch || ch == 47 || (isDigit ch || isAlpha ch))

/-- A digit of `%X`. -/
def toHex (n : Nat) : Nat := if n < 10 then 48 + n else 55 + n

def encode : Bytes → Bytes
  | [] => []
  | ch :: rest =>
    if isEscaped ch then 37 :: toHex (ch / 16) :: toHex (ch % 16) :: encode rest
    else ch :: encode rest

/-- `Authority::operator bool`. -/
def Authority.hasHost (a : Authority) : Bool := a.host ≠ []

def Authority.toString (a : Authority) : Bytes :=
  (if a.userinfo ≠ [] then encode a.userinfo ++ [64] else []) ++ encode a.host ++
    (if a.port ≠ [] then 58 :: encode a.port else [])

def URI.toString (u : URI) : Bytes :=
  u.scheme ++ [58] ++
    (if u.authority.hasHost ∨ u.path.head? = some 47 then [47, 47] ++ u.authority.toString
      else []) ++
    encode u.path ++ (if u.query ≠ [] then 63 :: encode u.query else []) ++
    (if u.fragment ≠ [] then 35 :: encode u.fragment else [])

def fromPath (scheme path : Bytes) : URI := ⟨scheme, ⟨[], [], []⟩, path, [], []⟩

/-- The scheme `file`. -/
def file : Bytes := [102, 105, 108, 101]

/-- The scheme `test`. -/
def test : Bytes := [116, 101, 115, 116]

def fromFilePath (filePath : Bytes) : URI := fromPath file filePath

/-- `SourceManager::resolveURI`; there is no test directory outside of tests. -/
def resolveURI (testWorkDir : Option Bytes) (uri : URI) : Bytes :=
  if uri.scheme = file then uri.path
  else match testWorkDir with
    | some dir =>
      if uri.scheme = test then
        dir ++ (if dir.getLast? ≠ some 47 ∧ uri.path ≠ [] ∧ uri.path.head? ≠ some 47 then [47]
          else []) ++ uri.path
      else []
    | none => []

def toURI (testWorkDir : Option Bytes) (path : Bytes) : URI :=
  match testWorkDir with
  | some dir =>
    if dir <+: path then fromPath test (path.drop dir.length) else fromPath file path
  | none => fromPath file path

/-! ## Encoding and decoding -/

section
variable {path w : Bytes} {ch n : Nat}

theorem isHexdig_toHex (h : n < 16) : isHexdig (toHex n) = true := by
  have hall : ∀ m ∈ List.range 16, isHexdig (toHex m) = true := by decide
  exact hall n (List.mem_range.2 h)

theorem hexToNum_toHex (h : n < 16) : hexToNum (toHex n) = n := by
  have hall : ∀ m ∈ List.range 16, hexToNum (toHex m) = m := by decide
  exact hall n (List.mem_range.2 h)

theorem decode_cons (h : ch ≠ 37) : decode (ch :: w) = ch :: decode w := by
  rcases w with _ | ⟨ch1, _ | ⟨ch2, w⟩⟩
  · rfl
  · rfl
  · rw [decode, if_neg fun hc => h hc.1]

theorem decode_escape (h : ch < 256) :
    decode (37 :: toHex (ch / 16) :: toHex (ch % 16) :: w) = ch :: decode w := by
  have hhi : ch / 16 < 16 := by omega
  have hlo : ch % 16 < 16 := by omega
  rw [decode, if_pos ⟨rfl, isHexdig_toHex hhi, isHexdig_toHex hlo⟩, hexToNum_toHex hhi,
    hexToNum_toHex hlo, show 16 * (ch / 16) + ch % 16 = ch by omega]

theorem isEscaped_percent : isEscaped 37 = true := by decide

theorem decode_encode (h : ∀ ch ∈ w, ch < 256) : decode (encode w) = w := by
  induction w with
  | nil => rfl
  | cons ch w ih =>
    have ih := ih fun c hc => h c (.tail _ hc)
    rw [encode]
    split
    · rw [decode_escape (h ch (.head _)), ih]
    · next hesc =>
      rw [decode_cons, ih]
      rintro rfl
      exact hesc isEscaped_percent

/-! ## Encoded paths are in the grammar -/

theorem slash_mem : [47] ∈ (text ['/']).lang := mem_text.2 rfl

theorem escape_mem (h : ch < 256) : [37, toHex (ch / 16), toHex (ch % 16)] ∈ pchar.lang := by
  have hhi : isHexdig (toHex (ch / 16)) = true := isHexdig_toHex (by omega)
  have hlo : isHexdig (toHex (ch % 16)) = true := isHexdig_toHex (by omega)
  refine .inl (.inr (.inl (Re.mem_cat.2 ⟨[37], mem_text.2 rfl, _, ?_, rfl⟩)))
  exact Re.mem_cat.2 ⟨[_], ⟨_, hhi, rfl⟩, [_], ⟨_, hlo, rfl⟩, rfl⟩

theorem unescaped_mem (h : isEscaped ch = false) (hs : ch ≠ 47) : [ch] ∈ pchar.lang := by
  refine .inl (.inl ⟨ch, ?_, rfl⟩)
  simp only [isEscaped, isUnreserved, List.contains_cons, List.contains_nil, Bool.not_eq_false',
    Bool.or_eq_true, beq_iff_eq, Bool.or_false] at h ⊢
  tauto

/-- An encoded text is a segment with a path behind it. -/
theorem encode_segments (h : ∀ ch ∈ w, ch < 256) :
    ∃ s ∈ segment.lang, ∃ v ∈ pathAbempty.lang, s ++ v = encode w := by
  induction w with
  | nil => exact ⟨[], Re.mem_star.2 (.inl rfl), [], Re.mem_star.2 (.inl rfl), rfl⟩
  | cons ch w ih =>
    obtain ⟨s, hs, v, hv, he⟩ := ih fun c hc => h c (.tail _ hc)
    rw [encode, ← he]
    split
    · have hx := escape_mem (h ch (.head _))
      exact ⟨_ ++ s, Re.mem_star.2 (.inr ⟨_, hx, s, hs, rfl⟩), v, hv, rfl⟩
    · next hesc =>
      by_cases hslash : ch = 47
      · subst hslash
        refine ⟨[], Re.mem_star.2 (.inl rfl), [47] ++ s ++ v, Re.mem_star.2 (.inr ?_), rfl⟩
        exact ⟨_, Re.mem_cat.2 ⟨[47], slash_mem, s, hs, rfl⟩, v, hv, rfl⟩
      · have hx := unescaped_mem (Bool.not_eq_true _ ▸ hesc) hslash
        exact ⟨[ch] ++ s, Re.mem_star.2 (.inr ⟨_, hx, s, hs, rfl⟩), v, hv, rfl⟩

theorem encode_mem_pathAbempty (h : ∀ ch ∈ w, ch < 256) (hw : w.head? = some 47) :
    encode w ∈ pathAbempty.lang := by
  obtain ⟨u, rfl⟩ : ∃ u, w = 47 :: u := by
    cases w with
    | nil => cases hw
    | cons c u => exact ⟨u, by cases hw; rfl⟩
  obtain ⟨s, hs, v, hv, he⟩ := encode_segments fun c hc => h c (.tail _ hc)
  rw [encode, if_neg (by decide), ← he]
  exact Re.mem_star.2 (.inr ⟨_, Re.mem_cat.2 ⟨[47], slash_mem, s, hs, rfl⟩, v, hv, rfl⟩)

/-! ## The round trip -/

/-- The components of the text of a file URI. -/
def fileParts (path : Bytes) : Parts := ⟨file, some (none, [], none), encode path, none, none⟩

theorem file_mem : file ∈ scheme.lang := Tre.nullable_derivs.1 (by decide)

theorem fileParts_valid (h : ∀ ch ∈ path, ch < 256) (hp : path.head? = some 47) :
    (fileParts path).Valid where
  scheme := file_mem
  authority := by
    rintro user host port ⟨⟩
    exact ⟨nofun, .inr (.inr (Re.mem_star.2 (.inl rfl))), nofun⟩
  path := encode_mem_pathAbempty h hp
  query := nofun
  fragment := nofun

theorem toString_fromFilePath (hp : path.head? = some 47) :
    (fromFilePath path).toString = (fileParts path).text := by
  simp [URI.toString, fromFilePath, fromPath, hp, Authority.toString, encode, fileParts,
    Parts.text, Parts.authorityText]

/-- The text of a file URI is parsed as the URI itself. -/
theorem parse_toString (h : ∀ ch ∈ path, ch < 256) (hp : path.head? = some 47) :
    parse (fromFilePath path).toString = fromFilePath path := by
  rw [toString_fromFilePath hp, parse_text (fileParts_valid h hp)]
  have hpath : decode (encode path) = path := decode_encode h
  simp only [Parts.toURI, fileParts, hpath]
  rfl

/-- Outside of the test directory the manager makes file URIs. -/
theorem toURI_eq {dir : Option Bytes} (h : ∀ d ∈ dir, ¬ d <+: path) :
    toURI dir path = fromFilePath path := by
  cases dir with
  | none => rfl
  | some d => exact if_neg (h d rfl)

/-- The text of the file URI of an absolute path is parsed as a URI with the scheme `file`, and that
URI resolves to the path. -/
theorem resolveURI_fromFilePath (dir : Option Bytes) (path : Bytes) (h : ∀ ch ∈ path, ch < 256)
    (hp : path.head? = some 47) :
    (parse (fromFilePath path).toString).isUri = true ∧
      (parse (fromFilePath path).toString).scheme = file ∧
      resolveURI dir (parse (fromFilePath path).toString) = path ∧ decode (encode path) = path ∧
      ((∀ d ∈ dir, ¬ d <+: path) → toURI dir path = fromFilePath path) := by
  rw [parse_toString h hp]
  exact ⟨rfl, rfl, rfl, decode_encode h, toURI_eq⟩

/-- `/% é` with the byte 255 behind it. -/
theorem resolveURI_odd_path :
    resolveURI none (parse (fromFilePath [47, 37, 32, 195, 169, 255]).toString) =
      [47, 37, 32, 195, 169, 255] :=
  (resolveURI_fromFilePath none [47, 37, 32, 195, 169, 255] (by decide) rfl).2.2.1

end

end Arsh.Uri
