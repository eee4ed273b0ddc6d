import Arsh.Dirs.Paths

/-!
# `expandDots` as normalisation of paths

`normalPath` is what a path stands for by its text: `.` and empty components count for nothing, and
`..` removes the component before it, if there is one. `expandDots` computes it unless a `..` comes
when only the root is left, which is then removed itself, or a `.` or `..` of the base remains.
-/

namespace Arsh.Dirs

def IsDotDot (c : Bytes) : Prop := c = [chDot, chDot]

def IsDot (c : Bytes) : Prop := c = [chDot]

instance : DecidablePred IsDotDot := fun c => inferInstanceAs (Decidable (c = [chDot, chDot]))

instance : DecidablePred IsDot := fun c => inferInstanceAs (Decidable (c = [chDot]))

/-! ## What a path stands for -/

/-- The components that are left when each `..` has removed the one before it. -/
def resolve (cs : List Bytes) : List Bytes := PopStack.run IsDotDot IsDot [] cs

/-- The path from the root: a relative one goes on from the base. -/
def joined (basePath path : Bytes) : Bytes :=
  if path.head? = some chSlash then path else basePath ++ chSlash :: path

def normalPath (basePath path : Bytes) : Bytes := text (resolve (names (joined basePath path)))

/-- The path is `/` and components that are names, without `.` and `..`. -/
def IsNormal (path : Bytes) : Prop :=
  path.head? = some chSlash ∧
    (path = [chSlash] ∨ ∀ c ∈ path.tail.splitOn chSlash, c ≠ [] ∧ ¬ IsDot c ∧ ¬ IsDotDot c)

/-- `expandDots` normalises a path: it gives what the path stands for, which is a normal path, and
normalising that changes nothing. -/
structure Normalises (getCWD : Option Bytes) (basePath path : Bytes) : Prop where
  eq : expandDots getCWD basePath path = normalPath basePath path
  isNormal : IsNormal (expandDots getCWD basePath path)
  again : ∀ basePath', expandDots getCWD basePath' (expandDots getCWD basePath path) =
    expandDots getCWD basePath path

/-- How far the components of a path go above the directory where it begins. -/
def ascent (path : Bytes) : Nat := PopStack.depth IsDotDot IsDot (names path)

/-- The components of the base under a path. -/
def baseNames (basePath path : Bytes) : List Bytes :=
  if path.head? = some chSlash then [] else names basePath

/-- The path does not go above the root, and no `.` or `..` of the base remains. -/
def StaysBelowRoot (basePath path : Bytes) : Prop :=
  ascent path ≤ (baseNames basePath path).length ∧
    ((∀ c ∈ baseNames basePath path, ¬ IsDotDot c ∧ ¬ IsDot c) ∨
      ascent path = (baseNames basePath path).length)

/-! ## The stack of the source -/

section
variable {getCWD : Option Bytes} {base path c : Bytes} {cs stack : List Bytes}

theorem pushElement_eq : pushElement = PopStack.act IsDotDot IsDot := by
  funext stack e
  unfold pushElement PopStack.act
  by_cases hpop : IsDotDot e
  · rw [if_pos (show e = _ from hpop), if_pos hpop]
    cases stack <;> simp
  · rw [if_neg (show ¬ e = _ from hpop), if_neg hpop]
    by_cases hskip : IsDot e
    · rw [if_pos hskip, if_neg (not_not.2 (show e = _ from hskip))]
    · rw [if_neg hskip, if_pos (show ¬ e = _ from hskip)]

theorem createPathStack_eq (h : path.head? = some chSlash) :
    createPathStack path = [chSlash] :: names path := by
  cases path with
  | nil => cases h
  | cons ch path =>
    obtain rfl : ch = chSlash := by simpa using h
    rw [createPathStack, if_pos rfl, stackLoop_eq, names_slash]

theorem createPathStack_of_relative (h : path.head? ≠ some chSlash) :
    createPathStack path = names path := by
  cases path with
  | nil => rfl
  | cons ch path =>
    have hch : ch ≠ chSlash := by simpa using h
    rw [createPathStack, if_neg hch, stackLoop_eq]

theorem names_relative_head (h : path.head? ≠ some chSlash) :
    (createPathStack path).head? ≠ some [chSlash] := by
  rw [createPathStack_of_relative h]
  intro hs
  have := isName_of_mem (List.mem_of_head? hs)
  exact this.2 List.mem_cons_self

/-- The components of the base and of the path, on a stack with the root at its bottom. -/
theorem expandDots_eq (hb : base.head? = some chSlash) (hp : path ≠ []) :
    expandDots getCWD base path =
      createPath (PopStack.run IsDotDot IsDot ([chSlash] :: baseNames base path) (names path)) := by
  rw [expandDots, if_neg hp, pushElement_eq]
  by_cases h : path.head? = some chSlash
  · simp only [createPathStack_eq h, List.head?_cons, baseNames, if_pos h, ne_eq,
      not_true_eq_false, if_false]
    rfl
  · rw [if_pos (names_relative_head h), if_pos hb, createPathStack_eq hb, baseNames, if_neg h,
      createPathStack_of_relative h]
    rfl

theorem names_joined : names (joined base path) = baseNames base path ++ names path := by
  unfold joined baseNames
  split
  · rfl
  · exact names_append_slash

theorem resolve_append (cs ds : List Bytes) : resolve (cs ++ ds) =
    (resolve cs).take ((resolve cs).length - PopStack.depth IsDotDot IsDot ds) ++ resolve ds := by
  rw [resolve, PopStack.run_append, PopStack.run_eq]
  rfl

theorem createPath_root (cs : List Bytes) : createPath ([chSlash] :: cs) = text cs := by
  cases cs <;> simp [createPath, text]

theorem isName_resolve (hc : c ∈ resolve (names path)) : IsName c ∧ ¬ IsDotDot c ∧ ¬ IsDot c := by
  rcases PopStack.mem_run hc with hc | ⟨hc, h⟩
  · cases hc
  · exact ⟨isName_of_mem hc, h⟩

/-! ## Where the two agree -/

/-- The path stays below the root: the stack of the source is the root and the rest. -/
theorem expandDots_below (hb : base.head? = some chSlash) (hp : path ≠ [])
    (h : ascent path ≤ (baseNames base path).length) : expandDots getCWD base path =
      text ((baseNames base path).take ((baseNames base path).length - ascent path) ++
        resolve (names path)) := by
  rw [expandDots_eq hb hp, PopStack.run_eq, List.length_cons]
  have hlen : (baseNames base path).length + 1 - PopStack.depth IsDotDot IsDot (names path) =
      (baseNames base path).length - ascent path + 1 := by
    unfold ascent at h ⊢
    omega
  rw [hlen, List.take_succ_cons, List.cons_append, createPath_root]
  rfl

/-- The root has been removed: the first component that is left is taken for it. -/
theorem expandDots_above (hb : base.head? = some chSlash) (hp : path ≠ [])
    (h : (baseNames base path).length < ascent path) :
    expandDots getCWD base path = createPath (resolve (names path)) := by
  rw [expandDots_eq hb hp, PopStack.run_eq, List.length_cons]
  have hlen :
      (baseNames base path).length + 1 - PopStack.depth IsDotDot IsDot (names path) = 0 := by
    unfold ascent at h
    omega
  rw [hlen, List.take_zero, List.nil_append]
  rfl

theorem normalPath_eq : normalPath base path =
    text ((resolve (baseNames base path)).take
      ((resolve (baseNames base path)).length - ascent path) ++ resolve (names path)) := by
  rw [normalPath, names_joined, resolve_append]
  rfl

theorem resolve_eq_self (h : ∀ c ∈ cs, ¬ IsDotDot c ∧ ¬ IsDot c) : resolve cs = cs :=
  PopStack.run_of_pushes h

theorem length_resolve_le : (resolve cs).length ≤ cs.length := by
  have := @PopStack.length_run_le Bytes IsDotDot IsDot _ _ [] cs
  rwa [List.length_nil, Nat.zero_add] at this

theorem baseNames_isName (h : c ∈ baseNames base path) : IsName c := by
  unfold baseNames at h
  split at h
  · cases h
  · exact isName_of_mem h

theorem resolve_baseNames_isName (h : c ∈ resolve (baseNames base path)) : IsName c := by
  rcases PopStack.mem_run h with h | ⟨h, -⟩
  · cases h
  · exact baseNames_isName h

/-- The root is lost: something is missing in the result. -/
theorem expandDots_ne (hb : base.head? = some chSlash) (hp : path ≠ [])
    (h : (baseNames base path).length < ascent path) :
    expandDots getCWD base path ≠ normalPath base path := by
  have hle : (resolve (baseNames base path)).length ≤ (baseNames base path).length :=
    length_resolve_le
  have h0 : (resolve (baseNames base path)).length - ascent path = 0 := by omega
  rw [expandDots_above hb hp h, normalPath_eq, h0, List.take_zero, List.nil_append]
  have hn : ∀ c ∈ resolve (names path), IsName c := fun c hc => (isName_resolve hc).1
  rcases hk : resolve (names path) with _ | ⟨k, ks⟩
  · exact fun he => text_ne_nil he.symm
  · rw [hk] at hn
    have hks : createPath (k :: ks) = text ks := by
      rw [← createPath_root ks]
      rfl
    rw [hks]
    intro he
    have := text_injective (fun c hc => hn c (List.mem_cons_of_mem k hc)) hn he
    simpa using congrArg List.length this

/-- Below the root, the base counts as it is. -/
theorem expandDots_eq_iff (hb : base.head? = some chSlash) (hp : path ≠ []) :
    expandDots getCWD base path = normalPath base path ↔ StaysBelowRoot base path := by
  unfold StaysBelowRoot
  rcases Nat.lt_or_ge (baseNames base path).length (ascent path) with h | h
  · exact ⟨fun he => absurd he (expandDots_ne hb hp h), fun ⟨h', _⟩ => absurd h' (by omega)⟩
  · rw [expandDots_below hb hp h, normalPath_eq]
    constructor
    · intro he
      refine ⟨h, ?_⟩
      have he := text_injective
        (fun c hc => (List.mem_append.1 hc).elim
          (fun hc => baseNames_isName (List.mem_of_mem_take hc))
          fun hc => (isName_resolve hc).1)
        (fun c hc => (List.mem_append.1 hc).elim
          (fun hc => resolve_baseNames_isName (List.mem_of_mem_take hc))
          fun hc => (isName_resolve hc).1) he
      have hlen := congrArg List.length (List.append_cancel_right he)
      rw [List.length_take, List.length_take] at hlen
      by_cases hd : ∃ c ∈ baseNames base path, IsDotDot c ∨ IsDot c
      · have hlt : (resolve (baseNames base path)).length < (baseNames base path).length :=
          PopStack.length_run_lt hd
        right
        omega
      · exact .inl fun c hc => ⟨fun h => hd ⟨c, hc, .inl h⟩, fun h => hd ⟨c, hc, .inr h⟩⟩
    · rintro ⟨-, hd | hd⟩
      · rw [resolve_eq_self hd]
      · have hle : (resolve (baseNames base path)).length ≤ (baseNames base path).length :=
          length_resolve_le
        have h0 : (resolve (baseNames base path)).length - ascent path = 0 := by omega
        rw [h0, hd, Nat.sub_self, List.take_zero, List.take_zero]

/-! ## Normal paths -/

theorem tail_text (h : ∀ c ∈ cs, IsName c) (h0 : cs ≠ []) :
    (text cs).tail.splitOn chSlash = cs := by
  rw [text, if_neg h0]
  induction cs with
  | nil => exact absurd rfl h0
  | cons c cs ih =>
    have hc := (h c List.mem_cons_self).2
    cases cs with
    | nil => simpa using List.splitOn_eq_singleton hc
    | cons d cs =>
      have := ih (fun d hd => h d (List.mem_cons_of_mem c hd)) (by simp)
      rw [List.flatMap_cons, List.cons_append, List.tail_cons] at this
      rw [List.flatMap_cons, List.cons_append, List.tail_cons, List.flatMap_cons, List.cons_append,
        List.splitOn_append_cons_self_of_not_mem hc, this]

theorem isNormal_text (h : ∀ c ∈ cs, IsName c ∧ ¬ IsDotDot c ∧ ¬ IsDot c) : IsNormal (text cs) := by
  refine ⟨head?_text, ?_⟩
  by_cases h0 : cs = []
  · exact .inl (by rw [text, if_pos h0])
  · right
    rw [tail_text (fun c hc => (h c hc).1) h0]
    exact fun c hc => ⟨(h c hc).1.1, (h c hc).2.2, (h c hc).2.1⟩

/-- A normal path is what it stands for, from any base. -/
theorem expandDots_text (h : ∀ c ∈ cs, IsName c ∧ ¬ IsDotDot c ∧ ¬ IsDot c) :
    expandDots getCWD base (text cs) = text cs := by
  have hr : createPathStack (text cs) = [chSlash] :: cs := by
    rw [createPathStack_eq head?_text, names_text fun c hc => (h c hc).1]
  have hrun : PopStack.run IsDotDot IsDot [] ([chSlash] :: cs) = [chSlash] :: cs := by
    apply PopStack.run_of_pushes
    intro c hc
    rcases List.mem_cons.1 hc with rfl | hc
    · exact ⟨by decide, by decide⟩
    · exact (h c hc).2
  rw [expandDots, if_neg text_ne_nil, hr]
  simp only [List.head?_cons, ne_eq, not_true_eq_false, if_false]
  rw [pushElement_eq, ← createPath_root]
  exact congrArg createPath hrun

theorem normalPath_isNormal (base path : Bytes) :
    ∃ cs : List Bytes, normalPath base path = text cs ∧
      ∀ c ∈ cs, IsName c ∧ ¬ IsDotDot c ∧ ¬ IsDot c :=
  ⟨_, rfl, fun _ hc => isName_resolve hc⟩

/-- A path is normalised if and only if it stays below the root and its base is normal as far as it
remains. -/
theorem normalises_iff (getCWD : Option Bytes) {base path : Bytes}
    (hb : base.head? = some chSlash) (hp : path ≠ []) :
    Normalises getCWD base path ↔ StaysBelowRoot base path := by
  rw [← @expandDots_eq_iff getCWD base path hb hp]
  refine ⟨Normalises.eq, fun he => ?_⟩
  obtain ⟨cs, hcs, hn⟩ := normalPath_isNormal base path
  rw [hcs] at he
  refine ⟨he.trans hcs.symm, ?_, fun base' => ?_⟩
  · rw [he]
    exact isNormal_text hn
  · rw [he]
    exact expandDots_text hn

/-- `/../a` is `/a`, and not `/`. -/
theorem not_normalises : ¬ Normalises none [47] [47, 46, 46, 47, 97] := fun h => by
  have h := h.eq
  rw [expandDots_eq (by decide) (by decide)] at h
  revert h
  decide

/-- `../b/./c` from `/a/x`. -/
theorem normalises_sample : Normalises none [47, 97, 47, 120] [46, 46, 47, 98, 47, 46, 47, 99] :=
  (normalises_iff none (by decide) (by decide)).2 ⟨by decide, .inl (by decide)⟩

end

end Arsh.Dirs
