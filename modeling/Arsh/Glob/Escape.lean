import Arsh.Glob.Matching

/-!
# Escaping

`appendAndEscapeGlobMeta` writes a string as a pattern. What it writes is read as the literal bytes
of the string again, so the pattern matches this name and no other.
-/

namespace Arsh.Glob

/-! ## The source -/

def isAppendable (srcSize maxSize : Nat) (out : Bytes) : Bool :=
  out.length ≤ maxSize ∧ srcSize ≤ maxSize - out.length

def checkedAppend (ref : Bytes) (maxSize : Nat) (out : Bytes) : Bool × Bytes :=
  if isAppendable ref.length maxSize out then (true, out ++ ref) else (false, out)

/-- The characters that are escaped. -/
def isGlobMeta (ch : Nat) : Bool :=
  ch = chQuestion || ch = chStar || ch = chOpen || ch = chClose || ch = chHat || ch = chNot ||
    ch = chMinus || ch = chBackslash

/-- The loop of `appendAndEscapeGlobMeta`; `sub` is what is between `start` and `iter`. -/
def escapeLoop (maxSize : Nat) : Bytes → Bytes → Bytes → Bool × Bytes
  | sub, [], out => checkedAppend sub maxSize out
  | sub, ch :: iter, out =>
    if isGlobMeta ch then
      let (r, out) := checkedAppend sub maxSize out
      if r && decide (out.length < maxSize) then escapeLoop maxSize [ch] iter (out ++ [chBackslash])
      else (false, out)
    else escapeLoop maxSize (sub ++ [ch]) iter out

def appendAndEscapeGlobMeta (ref : Bytes) (maxSize : Nat) (out : Bytes) : Bool × Bytes :=
  if isAppendable ref.length maxSize out then escapeLoop maxSize [] ref out else (false, out)

/-! ## What is written -/

/-- The string with its glob characters escaped. -/
def escape (ref : Bytes) : Bytes :=
  ref.flatMap fun ch => if isGlobMeta ch then [chBackslash, ch] else [ch]

section
variable {ref sub iter out pat name : Bytes} {maxSize ch : Nat}

theorem escape_meta (h : isGlobMeta ch = true) (iter : Bytes) :
    escape (ch :: iter) = chBackslash :: ch :: escape iter := by
  simp [escape, h]

theorem escape_other (h : isGlobMeta ch = false) (iter : Bytes) :
    escape (ch :: iter) = ch :: escape iter := by
  simp [escape, h]

theorem checkedAppend_eq (ref out : Bytes) (maxSize : Nat) : checkedAppend ref maxSize out =
    if out.length + ref.length ≤ maxSize then (true, out ++ ref) else (false, out) := by
  have hiff : isAppendable ref.length maxSize out = true ↔ out.length + ref.length ≤ maxSize := by
    simp only [isAppendable, decide_eq_true_eq]
    omega
  unfold checkedAppend
  simp only [hiff]

/-- The loop writes everything, if there is room for it. -/
theorem escapeLoop_fst : (escapeLoop maxSize sub iter out).1 = true ↔
    out.length + sub.length + (escape iter).length ≤ maxSize := by
  induction iter generalizing sub out with
  | nil =>
    unfold escapeLoop
    rw [checkedAppend_eq]
    split
    · next h => simpa [escape] using h
    · next h => simpa [escape] using h
  | cons ch iter ih =>
    unfold escapeLoop
    split
    · next hmeta =>
      rw [escape_meta hmeta, checkedAppend_eq]
      by_cases hroom : out.length + sub.length ≤ maxSize
      · by_cases hmore : (out ++ sub).length < maxSize
        · simp only [hroom, hmore, if_true, Bool.true_and, decide_true]
          rw [ih]
          simp only [List.length_append, List.length_cons, List.length_nil]
          omega
        · simp only [hroom, hmore, if_true, Bool.true_and, decide_false, Bool.false_eq_true,
            if_false, false_iff]
          simp only [List.length_append, List.length_cons] at hmore ⊢
          omega
      · simp only [hroom, if_false, Bool.false_and, Bool.false_eq_true, false_iff,
          List.length_cons]
        omega
    · next hmeta =>
      rw [escape_other (Bool.not_eq_true _ ▸ hmeta), ih]
      simp only [List.length_append, List.length_cons, List.length_nil]
      omega

theorem escapeLoop_snd (h : (escapeLoop maxSize sub iter out).1 = true) :
    (escapeLoop maxSize sub iter out).2 = out ++ sub ++ escape iter := by
  induction iter generalizing sub out with
  | nil =>
    unfold escapeLoop at h ⊢
    rw [checkedAppend_eq] at h ⊢
    split at h
    · next hroom => rw [if_pos hroom]; simp [escape]
    · cases h
  | cons ch iter ih =>
    unfold escapeLoop at h ⊢
    split at h
    · next hmeta =>
      rw [if_pos hmeta]
      rw [checkedAppend_eq] at h ⊢
      by_cases hroom : out.length + sub.length ≤ maxSize
      · simp only [hroom, if_true] at h ⊢
        split at h
        · next hmore =>
          rw [if_pos hmore, ih h, escape_meta hmeta]
          simp
        · cases h
      · simp only [hroom, if_false, Bool.false_and, Bool.false_eq_true] at h
    · next hmeta =>
      rw [if_neg hmeta, ih h, escape_other (Bool.not_eq_true _ ▸ hmeta)]
      simp

theorem length_le_escape (ref : Bytes) : ref.length ≤ (escape ref).length := by
  induction ref with
  | nil => exact Nat.zero_le _
  | cons ch ref ih =>
    cases hmeta : isGlobMeta ch with
    | true =>
      rw [escape_meta hmeta, List.length_cons, List.length_cons, List.length_cons]
      omega
    | false =>
      rw [escape_other hmeta, List.length_cons, List.length_cons]
      omega

/-- The escaped string is appended if there is room for it. -/
theorem appendAndEscapeGlobMeta_eq (ref out : Bytes) (maxSize : Nat) :
    ((appendAndEscapeGlobMeta ref maxSize out).1 = true ↔
      out.length + (escape ref).length ≤ maxSize) ∧
    ((appendAndEscapeGlobMeta ref maxSize out).1 = true →
      (appendAndEscapeGlobMeta ref maxSize out).2 = out ++ escape ref) := by
  have hle := length_le_escape ref
  unfold appendAndEscapeGlobMeta
  split
  · refine ⟨?_, fun h => ?_⟩
    · rw [escapeLoop_fst, List.length_nil, Nat.add_zero]
    · rw [escapeLoop_snd h, List.append_nil]
  · next h =>
    refine ⟨⟨fun h => (nomatch h), fun hroom => ?_⟩, fun h => (nomatch h)⟩
    apply absurd _ h
    simp only [isAppendable, decide_eq_true_eq]
    omega

/-! ## What is read again -/

/-- An escaped byte is read as itself. -/
theorem reads_escape (hch : ch ≠ chSlash) (ref rest : Bytes) :
    Reads (escape (ch :: ref) ++ rest) (.literal ch) (escape ref ++ rest) := by
  cases hmeta : isGlobMeta ch with
  | true =>
    rw [escape_meta hmeta]
    exact .escape ch _
  | false =>
    rw [escape_other hmeta]
    simp only [isGlobMeta, Bool.or_eq_false_iff, decide_eq_false_iff_not] at hmeta
    obtain ⟨⟨⟨⟨⟨⟨⟨hq, hs⟩, ho⟩, -⟩, -⟩, -⟩, -⟩, hb⟩ := hmeta
    exact .literal hch hq ho hs fun h => absurd h hb

/-- An escaped string is read as its literal bytes, whatever comes behind it. -/
theorem parse_escape (href : chSlash ∉ ref) (rest : Bytes) :
    parse (escape ref ++ rest) = (ref.map .literal ++ (parse rest).1, (parse rest).2) := by
  induction ref with
  | nil => rfl
  | cons ch ref ih =>
    rw [List.mem_cons, not_or] at href
    rw [(reads_escape (Ne.symm href.1) ref rest).parse, ih href.2]
    rfl

theorem elems_escape (href : chSlash ∉ ref) : elems (escape ref) = ref.map .literal := by
  have hparse := parse_escape href []
  rw [List.append_nil, parse_nil, List.append_nil] at hparse
  rw [elems, hparse]

variable {isctype : CharClass → Option Nat → Bool} {dotglob allowEmptyPattern : Bool}

/-- A dot is not escaped. -/
theorem expect_escape_dot : expect chDot (escape ref) = expect chDot ref := by
  cases ref with
  | nil => rfl
  | cons ch ref =>
    cases hmeta : isGlobMeta ch with
    | true =>
      rw [escape_meta hmeta]
      have hne : ch ≠ chDot := by
        rintro rfl
        cases hmeta
      simp [expect, hne]
    | false =>
      rw [escape_other hmeta]
      rfl

theorem dotRule_escape (ref : Bytes) : DotRule ref (escape ref) dotglob where
  special h := by
    rcases h with rfl | rfl
    · rfl
    · rfl
  leading h := .inl (by rw [expect_escape_dot]; exact h)

/-- An escaped name matches this name and no other. The empty pattern matches any name where it is
allowed. -/
theorem match_escape (href : chSlash ∉ ref)
    (hpat : appendAndEscapeGlobMeta ref maxSize [] = (true, pat))
    (hempty : allowEmptyPattern = true → ref ≠ []) :
    ∃ r, Returns isctype name pat dotglob allowEmptyPattern r ∧
      (r.1.success = true ↔ name = ref) := by
  have heq := (appendAndEscapeGlobMeta_eq ref [] maxSize).2 (by rw [hpat])
  rw [hpat, List.nil_append] at heq
  cases (heq : pat = escape ref)
  obtain ⟨r, hr⟩ := exists_returns isctype name (escape ref) dotglob allowEmptyPattern
  refine ⟨r, hr, ?_⟩
  rw [(returns_laid hr).1, elems_escape href, answer_of_count (count_literals ref),
    language_literals, List.map_eq_nil_iff]
  constructor
  · rintro ⟨-, hname | ⟨hallow, hnil⟩⟩
    · exact hname
    · exact absurd hnil (hempty hallow)
  · rintro rfl
    exact ⟨dotRule_escape name, .inl rfl⟩

end

/-- The name `*a`. -/
theorem match_escape_sample :
    ∃ r, Returns noClasses [chStar, 0x61] [chBackslash, chStar, 0x61] false false r ∧
      (r.1.success = true ↔ [chStar, 0x61] = [chStar, 0x61]) := by
  have hpat : appendAndEscapeGlobMeta [chStar, 0x61] 64 [] =
      (true, [chBackslash, chStar, 0x61]) := by decide
  exact match_escape (by decide) hpat (fun h => (nomatch h))

end Arsh.Glob
