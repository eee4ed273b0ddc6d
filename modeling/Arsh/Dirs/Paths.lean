import Arsh.Lib.PopStack

/-!
# Paths

`createPathStack` splits a path at its slashes and `expandDots` takes `.` and `..` out of it, by the
text alone. The root is an ordinary element at the bottom of the stack, so `..` can remove it too.
A path is its bytes without the NUL at the end.
-/

namespace Arsh.Dirs

abbrev Bytes := List Nat

def chSlash : Nat := 47

def chDot : Nat := 46

/-! ## The source -/

/-- The loop of `createPathStack`; `strchr` finds the next slash. -/
def stackLoop (path : Bytes) : List Bytes :=
  match _h : path.findIdx? (· = chSlash) with
  | none => if path = [] then [] else [path]
  | some size =>
    if size = 0 then stackLoop (path.drop 1) else path.take size :: stackLoop (path.drop size)
termination_by path.length
decreasing_by
  all_goals
    have := (List.findIdx?_eq_some_iff_getElem.1 _h).1
    simp only [List.length_drop]
    omega

def createPathStack : Bytes → List Bytes
  | [] => []
  | ch :: path => if ch = chSlash then [chSlash] :: stackLoop path else stackLoop (ch :: path)

/-- The element is popped, or kept off the stack. -/
def pushElement (stack : List Bytes) (e : Bytes) : List Bytes :=
  if e = [chDot, chDot] then (if stack ≠ [] then stack.dropLast else stack)
  else if e ≠ [chDot] then stack ++ [e] else stack

/-- The text of a stack. -/
def createPath (stack : List Bytes) : Bytes :=
  (if stack.length = 1 then [chSlash] else []) ++ (stack.drop 1).flatMap (chSlash :: ·)

/-- `expandDots`. What `getCWD` gives is a parameter. -/
def expandDots (getCWD : Option Bytes) (basePath path : Bytes) : Bytes :=
  if path = [] then []
  else
    let pathStack := createPathStack path
    if pathStack.head? ≠ some [chSlash] then
      if basePath.head? = some chSlash then
        createPath (pathStack.foldl pushElement (createPathStack basePath))
      else
        match getCWD with
        | none => []
        | some cwd => createPath (pathStack.foldl pushElement (createPathStack cwd))
    else createPath (pathStack.foldl pushElement [])

/-! ## Names -/

/-- The components of a path; an empty one does not count. -/
def names (path : Bytes) : List Bytes := (path.splitOn chSlash).filter (· ≠ [])

/-- The path with these components. -/
def text (cs : List Bytes) : Bytes := if cs = [] then [chSlash] else cs.flatMap (chSlash :: ·)

def IsName (c : Bytes) : Prop := c ≠ [] ∧ chSlash ∉ c

section
variable {path base : Bytes} {cs ds : List Bytes} {c : Bytes}

theorem names_slash : names (chSlash :: path) = names path := by
  simp [names, List.splitOn_eq_splitOnP, List.splitOnP_cons_eq_if_modifyHead]

theorem names_append_slash : names (base ++ chSlash :: path) = names base ++ names path := by
  rw [names, List.splitOn_append_cons_self, List.filter_append, names, names]

theorem names_of_isName (h : IsName c) : names c = [c] := by
  rw [names, List.splitOn_eq_singleton h.2]
  simp [h.1]

/-- The first slash of a path, if it has one. -/
theorem findIdx?_slash {size : Nat} (h : path.findIdx? (· = chSlash) = some size) :
    path.drop size = chSlash :: path.drop (size + 1) ∧ chSlash ∉ path.take size := by
  obtain ⟨hlt, hs, hn⟩ := List.findIdx?_eq_some_iff_getElem.1 h
  have hs : path[size] = chSlash := by simpa using hs
  refine ⟨by rw [List.drop_eq_getElem_cons hlt, hs], fun hm => ?_⟩
  obtain ⟨j, hj, hje⟩ := List.getElem_of_mem hm
  rw [List.length_take] at hj
  rw [List.getElem_take] at hje
  exact absurd hje (by simpa using hn j (by omega))

theorem isName_take {size : Nat} (h : path.findIdx? (· = chSlash) = some size) (h0 : size ≠ 0) :
    IsName (path.take size) := by
  have hlt := (List.findIdx?_eq_some_iff_getElem.1 h).1
  refine ⟨fun hn => ?_, (findIdx?_slash h).2⟩
  have := congrArg List.length hn
  rw [List.length_take, List.length_nil] at this
  omega

theorem slash_notMem (h : path.findIdx? (· = chSlash) = none) : chSlash ∉ path := fun hm => by
  simpa using List.findIdx?_eq_none_iff.1 h _ hm

/-- The loop finds the components. -/
theorem stackLoop_eq (path : Bytes) : stackLoop path = names path := by
  fun_induction stackLoop path with
  | case1 => rfl
  | case2 path h hp => exact (names_of_isName ⟨hp, slash_notMem h⟩).symm
  | case3 path h ih =>
    have hd := (findIdx?_slash h).1
    rw [List.drop_zero] at hd
    rw [ih]
    conv_rhs => rw [hd, names_slash]
  | case4 path size h h0 ih =>
    have hd := (findIdx?_slash h).1
    rw [ih, hd, names_slash]
    conv_rhs => rw [← List.take_append_drop size path, hd, names_append_slash]
    rw [names_of_isName (isName_take h h0), List.singleton_append]

theorem isName_of_mem (h : c ∈ names path) : IsName c := by
  rw [← stackLoop_eq] at h
  fun_induction stackLoop path with
  | case1 => cases h
  | case2 path hf hp =>
    obtain rfl := List.mem_singleton.1 h
    exact ⟨hp, slash_notMem hf⟩
  | case3 path hf ih => exact ih h
  | case4 path size hf h0 ih =>
    rcases List.mem_cons.1 h with rfl | h
    · exact isName_take hf h0
    · exact ih h

theorem names_flatMap (h : ∀ c ∈ cs, IsName c) : names (cs.flatMap (chSlash :: ·)) = cs := by
  induction cs with
  | nil => rfl
  | cons c cs ih =>
    have hcs : ∀ c ∈ cs, IsName c := fun d hd => h d (List.mem_cons_of_mem c hd)
    rw [List.flatMap_cons, List.cons_append, names_slash]
    cases cs with
    | nil => simpa using names_of_isName (h c List.mem_cons_self)
    | cons d cs =>
      have := ih hcs
      rw [List.flatMap_cons, List.cons_append, names_slash] at this
      rw [List.flatMap_cons, List.cons_append, names_append_slash, this,
        names_of_isName (h c List.mem_cons_self), List.singleton_append]

theorem names_text (h : ∀ c ∈ cs, IsName c) : names (text cs) = cs := by
  unfold text
  split
  · next h0 => rw [h0]; rfl
  · exact names_flatMap h

theorem text_injective (hc : ∀ c ∈ cs, IsName c) (hd : ∀ d ∈ ds, IsName d)
    (h : text cs = text ds) : cs = ds := by
  rw [← names_text hc, h, names_text hd]

theorem text_ne_nil : text cs ≠ [] := by
  unfold text
  cases cs <;> simp

theorem head?_text : (text cs).head? = some chSlash := by
  unfold text
  cases cs <;> simp

end

end Arsh.Dirs
