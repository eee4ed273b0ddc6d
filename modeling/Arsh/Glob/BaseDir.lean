import Arsh.Glob.Matching

/-!
# The base directory of a pattern

`extractDirFromPattern` and `GlobPatternWrapper::create` take the directory off a pattern that has
no glob character in it, with its escapes removed.
-/

namespace Arsh.Glob

/-! ## The source -/

/-- The loop of `extractDirFromPattern`: the text read, and the pattern behind the last slash. -/
def extractLoop : Bytes → Bytes → Option Bytes → Bytes × Option Bytes
  | [], baseDir, latestSep => (baseDir, latestSep)
  | ch :: iter, baseDir, latestSep =>
    if ch = chStar ∨ ch = chQuestion ∨ ch = chOpen then (baseDir, latestSep)
    else if ch = chBackslash then
      match iter with
      | [] => (baseDir ++ [ch], latestSep)
      | ch :: iter => extractLoop iter (baseDir ++ [ch]) latestSep
    else if ch = chSlash then
      extractLoop iter (if baseDir.getLast? = some chSlash then baseDir else baseDir ++ [ch])
        (some iter)
    else extractLoop iter (baseDir ++ [ch]) latestSep

/-- `pop_back` until there is a slash at the end. -/
def popToSlash (baseDir : Bytes) : Bytes := (baseDir.reverse.dropWhile (· ≠ chSlash)).reverse

/-- `extractDirFromPattern`: the directory, and what remains of the pattern. -/
def extractDirFromPattern (pattern : Bytes) : Bytes × Bytes :=
  match extractLoop pattern [] none with
  | (_, none) => ([], pattern)
  | (baseDir, some iter) => (popToSlash baseDir, iter)

structure GlobPatternWrapper where
  baseDir : Bytes
  pattern : Bytes
  deriving DecidableEq, Repr

def GlobPatternWrapper.create (value : Bytes) : GlobPatternWrapper :=
  let (baseDir, tmp) := extractDirFromPattern value
  ⟨baseDir, value.drop (value.length - tmp.length)⟩

/-! ## The parts of a pattern -/

/-- The directory part of a pattern: its components (what is left of the pattern at the beginning of
each, and its literal bytes), its text without the escapes, and what remains of the pattern. A
component belongs to it that has no active glob character and is followed by a slash. -/
inductive Splits : Bytes → List (Bytes × Bytes) → Bytes → Bytes → Prop where
  | nil : Splits [] [] [] []
  | slash {pattern text rest : Bytes} {dirs : List (Bytes × Bytes)} :
    Splits pattern dirs text rest → Splits (chSlash :: pattern) dirs (chSlash :: text) rest
  | dir {pattern pattern' dir text rest : Bytes} {dirs : List (Bytes × Bytes)} :
    isEndOrSep pattern = false → parse pattern = (dir.map .literal, chSlash :: pattern') →
    Splits (chSlash :: pattern') dirs text rest →
    Splits pattern ((pattern, dir) :: dirs) (dir ++ text) rest
  | rest {pattern : Bytes} : isEndOrSep pattern = false →
    (∀ (dir pattern' : Bytes), parse pattern ≠ (dir.map .literal, chSlash :: pattern')) →
    Splits pattern [] [] pattern

/-- `text` is what the beginning of the pattern stands for without its escapes; there is no active
glob character in it. -/
inductive LiteralPrefix : Bytes → Bytes → Bytes → Prop where
  | nil (pattern : Bytes) : LiteralPrefix pattern [] pattern
  | slash {pattern text rest : Bytes} : LiteralPrefix pattern text rest →
    LiteralPrefix (chSlash :: pattern) (chSlash :: text) rest
  | literal {pattern pattern' text rest : Bytes} {ch : Nat} :
    Reads pattern (.literal ch) pattern' → LiteralPrefix pattern' text rest →
    LiteralPrefix pattern (ch :: text) rest

section
variable {pattern pattern' text text' rest rest' dir base : Bytes} {latestSep : Option Bytes}
  {dirs : List (Bytes × Bytes)} {es : List Elem} {ch : Nat}

theorem LiteralPrefix.append (h : LiteralPrefix pattern text rest)
    (h' : LiteralPrefix rest text' rest') : LiteralPrefix pattern (text ++ text') rest' := by
  induction h with
  | nil => exact h'
  | slash _ ih => exact .slash (ih h')
  | literal hread _ ih => exact .literal hread (ih h')

theorem LiteralPrefix.take (h : LiteralPrefix pattern (text ++ text') rest) :
    ∃ rest', LiteralPrefix pattern text rest' := by
  induction text generalizing pattern with
  | nil => exact ⟨pattern, .nil pattern⟩
  | cons ch text ih =>
    cases h with
    | slash h =>
      obtain ⟨rest', h⟩ := ih h
      exact ⟨rest', .slash h⟩
    | literal hread h =>
      obtain ⟨rest', h⟩ := ih h
      exact ⟨rest', .literal hread h⟩

/-- Literal elements come from a literal prefix. -/
theorem literalPrefix_of_parse (h : parse pattern = (dir.map .literal ++ es, rest)) :
    ∃ pattern', LiteralPrefix pattern dir pattern' ∧ parse pattern' = (es, rest) := by
  induction dir generalizing pattern with
  | nil => exact ⟨pattern, .nil pattern, h⟩
  | cons ch dir ih =>
    rcases reads_or_end pattern with hend | ⟨e, pattern', hread⟩
    · rw [parse_end hend] at h
      cases h
    · rw [hread.parse] at h
      simp only [List.map_cons, List.cons_append, Prod.mk.injEq, List.cons.injEq] at h
      obtain ⟨⟨rfl, hes⟩, hrest⟩ := h
      obtain ⟨pattern'', hprefix, hparse⟩ := ih (Prod.ext hes hrest)
      exact ⟨pattern'', .literal hread hprefix, hparse⟩

theorem parse_nil_left (h : parse pattern = ([], rest)) : pattern = rest := by
  have hend : isEndOrSep pattern = true := elems_nil_iff.1 (by rw [elems, h])
  rw [parse_end hend] at h
  cases h
  rfl

theorem Reads.suffix {iter iter' : Bytes} {e : Elem} (h : Reads iter e iter') (he : e ≠ .bad)
    (hset : ∀ s, e ≠ .charSet s) : iter' <:+ iter := by
  cases h with
  | any | star | literal => exact List.suffix_cons _ _
  | charSet => exact absurd rfl (hset _)
  | bad => exact absurd rfl he
  | escape ch iter => exact (List.suffix_cons _ _).trans (List.suffix_cons _ _)

theorem LiteralPrefix.suffix (h : LiteralPrefix pattern text rest) : rest <:+ pattern := by
  induction h with
  | nil => exact List.suffix_refl _
  | slash _ ih => exact ih.trans (List.suffix_cons _ _)
  | literal hread _ ih => exact ih.trans (hread.suffix (by simp) (by simp))

theorem Splits.literalPrefix (h : Splits pattern dirs text rest) :
    LiteralPrefix pattern text rest := by
  induction h with
  | nil => exact .nil []
  | slash _ ih => exact .slash ih
  | dir _ hparse _ ih =>
    obtain ⟨pattern'', hprefix, hparse'⟩ := literalPrefix_of_parse
      (hparse.trans (by rw [List.append_nil]))
    cases parse_nil_left hparse'
    exact hprefix.append ih
  | rest => exact .nil _

/-- Every pattern has a directory part. -/
theorem exists_splits (pattern : Bytes) : ∃ dirs text rest, Splits pattern dirs text rest := by
  induction hlen : pattern.length using Nat.strong_induction_on generalizing pattern with
  | _ len ih =>
    cases hend : isEndOrSep pattern with
    | true =>
      cases pattern with
      | nil => exact ⟨[], [], [], .nil⟩
      | cons ch pattern =>
        cases (of_decide_eq_true hend : ch = chSlash)
        obtain ⟨dirs, text, rest, h⟩ := ih _ (hlen ▸ Nat.lt_succ_self _) pattern rfl
        exact ⟨dirs, _, rest, .slash h⟩
    | false =>
      by_cases hdir : ∃ (dir pattern' : Bytes), parse pattern = (dir.map .literal, chSlash :: pattern')
      · obtain ⟨dir, pattern', hparse⟩ := hdir
        obtain ⟨pattern'', hprefix, hparse'⟩ := literalPrefix_of_parse
          (hparse.trans (by rw [List.append_nil]))
        cases parse_nil_left hparse'
        have hlt : pattern'.length < len := by
          have hle := hprefix.suffix.length_le
          rw [List.length_cons] at hle
          omega
        obtain ⟨dirs, text, rest, h⟩ := ih _ hlt pattern' rfl
        exact ⟨_, _, rest, .dir hend hparse (.slash h)⟩
      · refine ⟨[], [], pattern, .rest hend fun dir pattern' hparse => hdir ⟨dir, pattern', hparse⟩⟩

/-- What remains begins with a component that is the last one or has an active glob character. -/
theorem Splits.rest_cases (h : Splits pattern dirs text rest) : rest = [] ∨
    isEndOrSep rest = false ∧
      ∀ (dir pattern' : Bytes), parse rest ≠ (dir.map .literal, chSlash :: pattern') := by
  induction h with
  | nil => exact .inl rfl
  | slash _ ih => exact ih
  | dir _ _ _ ih => exact ih
  | rest hend hne => exact .inr ⟨hend, hne⟩

/-! ## The loop -/

theorem extractLoop_literal {iter iter' : Bytes} (h : Reads iter (.literal ch) iter') :
    extractLoop iter base latestSep = extractLoop iter' (base ++ [ch]) latestSep := by
  cases h with
  | escape ch iter =>
    rw [extractLoop.eq_def]
    simp only
    rw [if_neg (by decide), if_pos trivial]
  | literal h₁ h₂ h₃ h₄ h₅ =>
    rw [extractLoop.eq_def]
    simp only
    rw [if_neg (by rw [not_or, not_or]; exact ⟨h₄, h₂, h₃⟩)]
    split
    · next h =>
      rw [h₅ h]
      rfl
    · rfl

theorem extractLoop_active {iter iter' : Bytes} {e : Elem} (h : Reads iter e iter')
    (he : e.isLiteral = false) : extractLoop iter base latestSep = (base, latestSep) := by
  cases h with
  | any =>
    unfold extractLoop
    rw [if_pos (by decide)]
  | star =>
    unfold extractLoop
    rw [if_pos (by decide)]
  | charSet =>
    unfold extractLoop
    rw [if_pos (by decide)]
  | bad =>
    unfold extractLoop
    rw [if_pos (by decide)]
  | escape => cases he
  | literal => cases he

theorem extractLoop_dir (h : parse pattern = (dir.map .literal, rest)) :
    extractLoop pattern base latestSep = extractLoop rest (base ++ dir) latestSep := by
  induction dir generalizing pattern base with
  | nil => rw [parse_nil_left h, List.append_nil]
  | cons ch dir ih =>
    rcases reads_or_end pattern with hend | ⟨e, pattern', hread⟩
    · rw [parse_end hend] at h
      cases h
    · rw [hread.parse] at h
      simp only [List.map_cons, Prod.mk.injEq, List.cons.injEq] at h
      obtain ⟨⟨rfl, hdir⟩, hrest⟩ := h
      rw [extractLoop_literal hread, ih (Prod.ext hdir hrest), List.append_assoc]
      rfl

/-- In what remains the loop reads the literal bytes up to an active glob character. -/
theorem extractLoop_rest
    (h : ∀ (dir pattern' : Bytes), parse pattern ≠ (dir.map .literal, chSlash :: pattern')) :
    ∃ text es, elems pattern = text.map .literal ++ es ∧
      (∃ rest, LiteralPrefix pattern text rest) ∧ ∀ base latestSep,
        extractLoop pattern base latestSep = (base ++ text, latestSep) := by
  induction hlen : pattern.length using Nat.strong_induction_on generalizing pattern with
  | _ len ih =>
    rcases reads_or_end pattern with hend | ⟨e, pattern', hread⟩
    · cases pattern with
      | nil =>
        refine ⟨[], elems [], rfl, ⟨[], .nil []⟩, fun base latestSep => ?_⟩
        rw [List.append_nil]
        rfl
      | cons ch pattern =>
        cases (of_decide_eq_true hend : ch = chSlash)
        exact absurd (parse_end hend) (h [] pattern)
    · cases he : e.isLiteral with
      | false =>
        refine ⟨[], elems pattern, rfl, ⟨pattern, .nil pattern⟩, fun base latestSep => ?_⟩
        rw [extractLoop_active hread he, List.append_nil]
      | true =>
        cases e with
        | literal ch =>
          have hlt := hread.length
          have hne : ∀ (dir pattern'' : Bytes),
              parse pattern' ≠ (dir.map .literal, chSlash :: pattern'') := by
            intro dir pattern'' hparse
            apply h (ch :: dir) pattern''
            rw [hread.parse, hparse]
            rfl
          obtain ⟨text, es, helems, ⟨rest, hprefix⟩, hloop⟩ := ih _ (hlen ▸ hlt) hne rfl
          refine ⟨ch :: text, es, ?_, ⟨rest, .literal hread hprefix⟩, fun base latestSep => ?_⟩
          · rw [hread.elems, helems]
            rfl
          · rw [extractLoop_literal hread, hloop, List.append_assoc]
            rfl
        | _ => cases he

end

end Arsh.Glob
