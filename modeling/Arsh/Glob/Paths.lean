import Arsh.Glob.BaseDir

/-!
# The paths of a pattern

A pattern stands for paths, component by component: each name is in the language of its component.
The base directory and what remains of the pattern stand for the same paths as the whole pattern, up
to repeated slashes, unless a component of the directory part would not match its own text: one with
an escaped slash, or one that begins with an escaped dot.
-/

namespace Arsh.Glob

/-- The paths that a pattern stands for. -/
inductive Paths (isctype : CharClass → Option Nat → Bool) (dotglob : Bool) :
    Bytes → Bytes → Prop where
  | nil : Paths isctype dotglob [] []
  | slash {pattern path : Bytes} : Paths isctype dotglob pattern path →
    Paths isctype dotglob (chSlash :: pattern) (chSlash :: path)
  | component {pattern name path : Bytes} : isEndOrSep pattern = false →
    name ≠ [] → chSlash ∉ name → InLanguage isctype name pattern dotglob false →
    Paths isctype dotglob (parse pattern).2 path → Paths isctype dotglob pattern (name ++ path)

/-- The path with one slash for each run of slashes. -/
def squeeze : Bytes → Bytes
  | [] => []
  | [c] => [c]
  | c :: d :: path =>
    if c = chSlash ∧ d = chSlash then squeeze (d :: path) else c :: squeeze (d :: path)

/-- The base directory followed by the remaining pattern stands for the same paths as the pattern,
up to repeated slashes. -/
def SamePaths (isctype : CharClass → Option Nat → Bool) (dotglob : Bool) (pattern : Bytes) : Prop :=
  ∀ path, (∃ x, Paths isctype dotglob pattern x ∧ squeeze x = path) ↔
    ∃ x, Paths isctype dotglob (GlobPatternWrapper.create pattern).pattern x ∧
      squeeze ((GlobPatternWrapper.create pattern).baseDir ++ x) = path

/-- A component of the directory part matches its own text. -/
def MatchesItself (dotglob : Bool) (dir : Bytes × Bytes) : Prop :=
  chSlash ∉ dir.2 ∧ DotRule dir.2 dir.1 dotglob

section
variable {isctype : CharClass → Option Nat → Bool} {dotglob : Bool}
  {pattern pattern' text text' rest dir base path x : Bytes} {latestSep : Option Bytes}
  {dirs : List (Bytes × Bytes)} {es : List Elem}

/-! ## Repeated slashes -/

theorem squeeze_slash (a x : Bytes) :
    squeeze (a ++ chSlash :: chSlash :: x) = squeeze (a ++ chSlash :: x) := by
  induction a with
  | nil => rfl
  | cons c a ih =>
    cases a with
    | nil =>
      show squeeze (c :: chSlash :: chSlash :: x) = squeeze (c :: chSlash :: x)
      have hone : squeeze (chSlash :: chSlash :: x) = squeeze (chSlash :: x) := rfl
      rw [squeeze.eq_def (c :: chSlash :: chSlash :: x), squeeze.eq_def (c :: chSlash :: x)]
      simp only [hone]
    | cons d a =>
      show squeeze (c :: d :: (a ++ _)) = squeeze (c :: d :: (a ++ _))
      have ih' : squeeze (d :: (a ++ chSlash :: chSlash :: x)) =
          squeeze (d :: (a ++ chSlash :: x)) := ih
      unfold squeeze
      simp only [ih']

/-- The texts are the same up to repeated slashes, whatever comes behind. -/
def SameText (a b : Bytes) : Prop := ∀ x, squeeze (a ++ x) = squeeze (b ++ x)

theorem sameText_addSlash (base : Bytes) :
    SameText (if base.getLast? = some chSlash then base else base ++ [chSlash])
      (base ++ [chSlash]) := by
  intro x
  split
  · next h =>
    obtain ⟨base', rfl⟩ := List.getLast?_eq_some_iff.1 h
    rw [List.append_assoc, List.append_assoc, List.append_assoc]
    exact (squeeze_slash base' x).symm
  · rfl

theorem SameText.append {a b : Bytes} (h : SameText a b) (t : Bytes) :
    SameText (a ++ t) (b ++ t) := by
  intro x
  rw [List.append_assoc, List.append_assoc]
  exact h (t ++ x)

theorem SameText.trans {a b c : Bytes} (h : SameText a b) (h' : SameText b c) : SameText a c :=
  fun x => (h x).trans (h' x)

/-! ## The base directory -/

theorem Splits.text_nil (h : Splits pattern dirs text rest) (hnil : text = []) :
    rest = pattern := by
  have hprefix := h.literalPrefix
  rw [hnil] at hprefix
  cases hprefix
  rfl

/-- Over the directory part the loop appends its text, but for repeated slashes. -/
theorem extractLoop_splits (h : Splits pattern dirs text rest) (base : Bytes)
    (latestSep : Option Bytes) : ∃ base', extractLoop pattern base latestSep =
      extractLoop rest base' (if text = [] then latestSep else some rest) ∧
        SameText base' (base ++ text) ∧ (text ≠ [] → base'.getLast? = some chSlash) ∧
        (text = [] → base' = base) := by
  induction h generalizing base latestSep with
  | nil => exact ⟨base, rfl, fun x => by rw [List.append_nil], fun h => absurd rfl h, fun _ => rfl⟩
  | rest => exact ⟨base, rfl, fun x => by rw [List.append_nil], fun h => absurd rfl h, fun _ => rfl⟩
  | @slash pattern text rest dirs hsplits ih =>
    obtain ⟨base', hloop, hsame, hlast, hnil⟩ :=
      ih (if base.getLast? = some chSlash then base else base ++ [chSlash]) (some pattern)
    have hstep : extractLoop (chSlash :: pattern) base latestSep = extractLoop pattern
        (if base.getLast? = some chSlash then base else base ++ [chSlash]) (some pattern) := by
      rw [extractLoop.eq_def]
      simp only
      rw [if_neg (by decide), if_neg (by decide), if_pos trivial]
    refine ⟨base', ?_, ?_, fun _ => ?_, fun h => (nomatch h)⟩
    · rw [hstep, hloop]
      by_cases htext : text = []
      · rw [hsplits.text_nil htext, if_pos htext, if_neg (List.cons_ne_nil _ _)]
      · rw [if_neg htext, if_neg (List.cons_ne_nil _ _)]
    · have happend := (sameText_addSlash base).append text
      rw [List.append_assoc] at happend
      exact hsame.trans happend
    · by_cases htext : text = []
      · rw [hnil htext]
        split
        · next h => exact h
        · exact List.getLast?_concat
      · exact hlast htext
  | @dir pattern pattern' dir text rest dirs hend hparse hsplits ih =>
    obtain ⟨base', hloop, hsame, hlast, hnil⟩ := ih (base ++ dir) latestSep
    have htext : text ≠ [] := by
      intro htext
      rcases hsplits.rest_cases with hrest | ⟨hrest, -⟩
      · rw [hsplits.text_nil htext] at hrest
        cases hrest
      · rw [hsplits.text_nil htext] at hrest
        cases hrest
    have hne : dir ++ text ≠ [] := fun h => htext (List.append_eq_nil_iff.1 h).2
    refine ⟨base', ?_, ?_, fun _ => hlast htext, fun h => absurd h hne⟩
    · rw [extractLoop_dir hparse, hloop, if_neg htext, if_neg hne]
    · rw [List.append_assoc] at hsame
      exact hsame

theorem dropWhile_append_stop (p : Nat → Bool) {c : Nat} (hc : p c = false) (a b : Bytes) :
    (a ++ c :: b).dropWhile p = a.dropWhile p ++ c :: b := by
  induction a with
  | nil => rw [List.nil_append, List.dropWhile_cons_of_neg (by simp [hc])]; rfl
  | cons d a ih =>
    rw [List.cons_append, List.dropWhile_cons, List.dropWhile_cons, ih]
    split
    · rfl
    · rfl

/-- Nothing in front of a slash is popped. -/
theorem popToSlash_append (h : base.getLast? = some chSlash) (text : Bytes) :
    popToSlash (base ++ text) = base ++ popToSlash text := by
  obtain ⟨base', rfl⟩ := List.getLast?_eq_some_iff.1 h
  unfold popToSlash
  rw [List.reverse_append, List.reverse_append, List.reverse_singleton, List.singleton_append,
    dropWhile_append_stop _ (by simp), List.reverse_append, List.reverse_cons, List.reverse_reverse]

theorem popToSlash_prefix (text : Bytes) : popToSlash text <+: text := by
  unfold popToSlash
  rw [← List.reverse_suffix, List.reverse_reverse]
  exact List.dropWhile_suffix _

theorem popToSlash_nil (h : chSlash ∉ text) : popToSlash text = [] := by
  have hall : ∀ l : Bytes, chSlash ∉ l → l.dropWhile (· ≠ chSlash) = [] := by
    intro l hl
    induction l with
    | nil => rfl
    | cons c l ih =>
      rw [List.mem_cons, not_or] at hl
      rw [List.dropWhile_cons_of_pos (by simpa using Ne.symm hl.1), ih hl.2]
  unfold popToSlash
  rw [hall _ (by rwa [List.mem_reverse]), List.reverse_nil]

/-- What is taken off, and what remains: the text of the directory part, and of what remains the
literal text up to its last slash, if it has one. -/
theorem extractDirFromPattern_splits (h : Splits pattern dirs text rest) :
    ∃ base text' es, elems rest = text'.map .literal ++ es ∧
      (∃ rest', LiteralPrefix rest text' rest') ∧ SameText base text ∧
      extractDirFromPattern pattern = (if text = [] then [] else base ++ popToSlash text', rest) ∧
      (text = [] → base = []) := by
  obtain ⟨base, hloop, hsame, hlast, hnil⟩ := extractLoop_splits h [] none
  obtain ⟨text', es, helems, hprefix, hrest⟩ : ∃ text' es, elems rest = text'.map .literal ++ es ∧
      (∃ rest', LiteralPrefix rest text' rest') ∧ ∀ base latestSep,
        extractLoop rest base latestSep = (base ++ text', latestSep) := by
    rcases h.rest_cases with rfl | ⟨-, hne⟩
    · exact ⟨[], elems [], rfl, ⟨[], .nil []⟩, fun _ _ => by rw [List.append_nil]; rfl⟩
    · exact extractLoop_rest hne
  refine ⟨base, text', es, helems, hprefix, hsame, ?_, hnil⟩
  unfold extractDirFromPattern
  rw [hloop, hrest]
  by_cases htext : text = []
  · rw [if_pos htext, if_pos htext, h.text_nil htext]
  · rw [if_neg htext, if_neg htext]
    simp only
    rw [popToSlash_append (hlast htext)]

theorem GlobPatternWrapper.create_eq (pattern : Bytes) : GlobPatternWrapper.create pattern =
    ⟨(extractDirFromPattern pattern).1, (extractDirFromPattern pattern).2⟩ := by
  obtain ⟨dirs, text, rest, h⟩ := exists_splits pattern
  obtain ⟨base, text', es, -, -, -, hextract, -⟩ := extractDirFromPattern_splits h
  obtain ⟨front, rfl⟩ := h.literalPrefix.suffix
  have hlen : (front ++ rest).length - rest.length = front.length := by
    rw [List.length_append]
    omega
  unfold GlobPatternWrapper.create
  rw [hextract]
  simp only
  rw [hlen, List.drop_left]

/-! ## Paths along the directory part -/

theorem language_begins (h : Language isctype (text.map .literal ++ es) x) :
    text <+: x := by
  induction text generalizing x with
  | nil => exact List.nil_prefix
  | cons ch text ih =>
    cases h with
    | literal h => exact List.cons_prefix_cons.2 ⟨rfl, ih h⟩

theorem inLanguage_begins (h : elems pattern = text.map .literal ++ es)
    (hin : InLanguage isctype x pattern dotglob false) : text <+: x := by
  obtain ⟨-, hl | ⟨hallow, -⟩⟩ := hin
  · rw [h] at hl
    exact language_begins hl
  · cases hallow

/-- A component of literal bytes matches its text, by the rule for dot files. -/
theorem inLanguage_literals (h : elems pattern = text.map .literal) :
    InLanguage isctype x pattern dotglob false ↔ x = text ∧ DotRule text pattern dotglob := by
  unfold InLanguage
  rw [h, language_literals]
  constructor
  · rintro ⟨hrule, rfl | ⟨hallow, -⟩⟩
    · exact ⟨rfl, hrule⟩
    · cases hallow
  · rintro ⟨rfl, hrule⟩
    exact ⟨hrule, .inl rfl⟩

theorem Paths.component_inv (h : Paths isctype dotglob pattern x)
    (hend : isEndOrSep pattern = false) : ∃ name path, x = name ++ path ∧ chSlash ∉ name ∧
      InLanguage isctype name pattern dotglob false ∧
      Paths isctype dotglob (parse pattern).2 path := by
  cases h with
  | nil => cases hend
  | slash => cases hend
  | component _ _ hname hin hpath => exact ⟨_, _, rfl, hname, hin, hpath⟩

/-- The paths of a pattern begin with the text of its directory part, if that matches itself. -/
theorem paths_splits (h : Splits pattern dirs text rest) : Paths isctype dotglob pattern x ↔
    (∀ dir ∈ dirs, MatchesItself dotglob dir) ∧
      ∃ path, x = text ++ path ∧ Paths isctype dotglob rest path := by
  induction h generalizing x with
  | nil => simp
  | rest => simp
  | @slash pattern text rest dirs _ ih =>
    constructor
    · intro h
      cases h with
      | slash h =>
        obtain ⟨hdirs, path, rfl, hpath⟩ := ih.1 h
        exact ⟨hdirs, path, rfl, hpath⟩
      | component hend => cases hend
    · rintro ⟨hdirs, path, rfl, hpath⟩
      exact .slash (ih.2 ⟨hdirs, path, rfl, hpath⟩)
  | @dir pattern pattern' dir text rest dirs hend hparse _ ih =>
    have helems : elems pattern = dir.map .literal := by rw [elems, hparse]
    rw [List.forall_mem_cons]
    constructor
    · intro h
      obtain ⟨name, path, rfl, hname, hin, hpath⟩ := h.component_inv hend
      obtain ⟨rfl, hrule⟩ := (inLanguage_literals helems).1 hin
      rw [hparse] at hpath
      obtain ⟨hdirs, path', rfl, hpath'⟩ := ih.1 hpath
      exact ⟨⟨⟨hname, hrule⟩, hdirs⟩, path', (List.append_assoc _ _ _).symm, hpath'⟩
    · rintro ⟨⟨⟨hname, hrule⟩, hdirs⟩, path, rfl, hpath⟩
      have hne : dir ≠ [] := by
        rintro rfl
        rw [← Bool.not_eq_true, ← elems_nil_iff, helems] at hend
        exact hend rfl
      rw [List.append_assoc]
      refine .component hend hne hname ((inLanguage_literals helems).2 ⟨rfl, hrule⟩) ?_
      rw [hparse]
      exact ih.2 ⟨hdirs, path, rfl, hpath⟩

/-! ## The result -/

/-- The base directory is the text of a literal prefix of the pattern. Together with what remains it
stands for the same paths as the pattern if and only if every component of the directory part
matches its own text, or what remains stands for no path at all. -/
theorem create_samePaths (h : Splits pattern dirs text rest) :
    (∃ prefixText rest', LiteralPrefix pattern prefixText rest' ∧
      squeeze (GlobPatternWrapper.create pattern).baseDir = squeeze prefixText) ∧
    (SamePaths isctype dotglob pattern ↔ (∀ dir ∈ dirs, MatchesItself dotglob dir) ∨
      ∀ path, ¬ Paths isctype dotglob rest path) := by
  obtain ⟨base, text', es, helems, ⟨rest', hprefix⟩, hsame, hextract, hnil⟩ :=
    extractDirFromPattern_splits h
  have hcreate := GlobPatternWrapper.create_eq pattern
  rw [hextract] at hcreate
  constructor
  · rw [hcreate]
    by_cases htext : text = []
    · rw [if_pos htext]
      exact ⟨[], pattern, .nil _, rfl⟩
    · rw [if_neg htext]
      obtain ⟨tail, htail⟩ := popToSlash_prefix text'
      rw [← htail] at hprefix
      obtain ⟨rest'', hprefix⟩ := hprefix.take
      exact ⟨_, rest'', h.literalPrefix.append hprefix, hsame (popToSlash text')⟩
  -- what remains has no escaped slash at its beginning, if it stands for a path
  have hbase : ∀ path, Paths isctype dotglob rest path →
      SameText (GlobPatternWrapper.create pattern).baseDir text := by
    intro path hpath
    have hslash : chSlash ∉ text' := by
      intro hmem
      rcases h.rest_cases with rfl | ⟨hend, -⟩
      · rw [elems, parse_nil] at helems
        cases text' with
        | nil => cases hmem
        | cons => cases helems
      · obtain ⟨name, path, rfl, hname, hin, -⟩ := hpath.component_inv hend
        exact hname ((inLanguage_begins helems hin).subset hmem)
    rw [hcreate]
    by_cases htext : text = []
    · rw [if_pos htext, htext]
      exact fun x => rfl
    · rw [if_neg htext, popToSlash_nil hslash, List.append_nil]
      exact hsame
  unfold SamePaths
  simp only [paths_splits h]
  have hpattern : (GlobPatternWrapper.create pattern).pattern = rest := by rw [hcreate]
  rw [hpattern]
  constructor
  · intro heq
    by_contra hc
    obtain ⟨hdirs, hsome⟩ := not_or.1 hc
    obtain ⟨path, hpath⟩ := not_forall.1 hsome
    rw [not_not] at hpath
    obtain ⟨_, ⟨hdirs', -⟩, -⟩ := (heq _).2 ⟨path, hpath, rfl⟩
    exact hdirs hdirs'
  · rintro (hdirs | hnone) path
    · constructor
      · rintro ⟨_, ⟨-, x, rfl, hx⟩, rfl⟩
        exact ⟨x, hx, hbase x hx x⟩
      · rintro ⟨x, hx, rfl⟩
        exact ⟨_, ⟨hdirs, x, rfl, hx⟩, (hbase x hx x).symm⟩
    · constructor
      · rintro ⟨_, ⟨-, x, -, hx⟩, -⟩
        exact absurd hx (hnone x)
      · rintro ⟨x, hx, -⟩
        exact absurd hx (hnone x)

end

/-! ## An escaped slash -/

/-- `a`, an escaped slash, a slash, and any name. -/
def escapedSlash : Bytes := [0x61, chBackslash, chSlash, chSlash, chStar]

theorem escapedSlash_splits :
    Splits escapedSlash [(escapedSlash, [0x61, chSlash])] [0x61, chSlash, chSlash] [chStar] := by
  have hstar : Reads [chStar] .star [] := .star []
  have hread : Reads escapedSlash (.literal 0x61) (escapedSlash.drop 1) :=
    .literal (by decide) (by decide) (by decide) (by decide) fun h => absurd h (by decide)
  have hread' : Reads (escapedSlash.drop 1) (.literal chSlash) (escapedSlash.drop 3) :=
    .escape chSlash _
  have hparse : parse escapedSlash =
      (([0x61, chSlash] : Bytes).map .literal, chSlash :: [chStar]) := by
    rw [hread.parse, hread'.parse, parse_end rfl]
    rfl
  have hrest : Splits [chStar] [] [] [chStar] := by
    refine .rest rfl fun dir pattern' h => ?_
    rw [hstar.parse, parse_nil] at h
    have helems := congrArg Prod.fst h
    cases dir with
    | nil => cases helems
    | cons => cases helems
  exact .dir rfl hparse (.slash hrest)

theorem star_paths : Paths noClasses false [chStar] [0x62] := by
  have hstar : Reads [chStar] .star [] := .star []
  have hin : InLanguage noClasses [0x62] [chStar] false false := by
    refine ⟨⟨fun h => ?_, fun h => (nomatch h)⟩, .inl ?_⟩
    · rcases h with h | h
      · cases h
      · cases h
    · rw [hstar.elems, language_star, elems, parse_nil]
      exact ⟨[], boundary_nil _, .nil⟩
  have hrest : Paths noClasses false (parse [chStar]).2 [] := by
    rw [hstar.parse, parse_nil]
    exact .nil
  exact @Paths.component _ _ [chStar] [0x62] [] rfl (by decide) (by decide) hin hrest

/-- The escaped slash is taken for a slash of the directory. -/
theorem create_not_samePaths : ¬ ∀ isctype dotglob pattern, SamePaths isctype dotglob pattern := by
  intro h
  have hcreate : GlobPatternWrapper.create escapedSlash = ⟨[0x61, chSlash], [chStar]⟩ := by decide
  have hsame := h noClasses false escapedSlash [0x61, chSlash, 0x62]
  rw [hcreate] at hsame
  obtain ⟨x, hx, -⟩ := hsame.2 ⟨[0x62], star_paths, rfl⟩
  have hmatch := ((paths_splits escapedSlash_splits).1 hx).1 _ (List.mem_singleton.2 rfl)
  exact hmatch.1 (by decide)

theorem create_samePaths_escapedSlash :
    (∃ prefixText rest', LiteralPrefix escapedSlash prefixText rest' ∧
      squeeze (GlobPatternWrapper.create escapedSlash).baseDir = squeeze prefixText) ∧
    (SamePaths noClasses false escapedSlash ↔
      (∀ dir ∈ [(escapedSlash, [0x61, chSlash])], MatchesItself false dir) ∨
        ∀ path, ¬ Paths noClasses false [chStar] path) :=
  create_samePaths escapedSlash_splits

end Arsh.Glob
