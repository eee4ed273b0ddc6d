import Arsh.Dirs.Rotation
import Mathlib.Logic.Relation

/-!
# Runs of `cd`, `pushd` and `popd`

From a normal directory and a stack of normal directories these commands reach nothing else, so that
an entry that comes to the front of the listing stands there as it was.
-/

namespace Arsh.Dirs

open NumUtil

/-- No directory has an empty name, and the system gives the current directory as a normal path. -/
structure Proper (sys : Sys) : Prop where
  chdir : sys.chdir [] = false
  newCWD : ∀ cwd, sys.newCWD = some cwd → IsNormal cwd

structure Normal (st : State) : Prop where
  size : st.dirStack.length ≤ dirStackLimit
  cwd : IsNormal st.logicalWorkingDir
  entries : ∀ dir ∈ st.dirStack, IsNormal dir

/-- One command; `dirs -c` clears the array. -/
inductive Step : State → State → Prop where
  | cd {sys : Sys} {st : State} {dest : Bytes} {useLogical : Bool} : Proper sys →
    Step st (changeWorkingDir sys st dest useLogical).2
  | pushdPopd {sys : Sys} {st : State} {cmd : Cmd} {args : List Bytes} : Proper sys →
    Step st (builtinPushdPopd sys st cmd args).2
  | clear {st : State} : Step st { st with dirStack := [] }

/-! ## Normal paths -/

section
variable {sys : Sys} {st st' : State} {dir base path cwd : Bytes} {cs : List Bytes} {k : Nat}

theorem flatMap_slash (h : cs ≠ []) :
    cs.flatMap (chSlash :: ·) = chSlash :: [chSlash].intercalate cs := by
  induction cs with
  | nil => exact absurd rfl h
  | cons c cs ih =>
    cases cs with
    | nil => simp
    | cons d cs =>
      rw [List.flatMap_cons, ih (by simp), List.intercalate_cons_cons]
      simp

theorem isNormal_iff :
    IsNormal path ↔ ∃ cs, path = text cs ∧ ∀ c ∈ cs, IsName c ∧ ¬ IsDotDot c ∧ ¬ IsDot c := by
  constructor
  · rintro ⟨hh, rfl | hc⟩
    · exact ⟨[], rfl, by simp⟩
    · cases path with
      | nil => cases hh
      | cons ch path =>
        obtain rfl : ch = chSlash := by simpa using hh
        rw [List.tail_cons] at hc
        refine ⟨path.splitOn chSlash, ?_, fun c hm => ?_⟩
        · rw [text, if_neg (List.splitOn_ne_nil _ _), flatMap_slash (List.splitOn_ne_nil _ _),
            List.intercalate_splitOn]
        · obtain ⟨h0, hd, hdd⟩ := hc c hm
          exact ⟨isName_of_mem (List.mem_filter.2 ⟨hm, by simpa using h0⟩), hdd, hd⟩
  · rintro ⟨cs, rfl, h⟩
    exact isNormal_text h

theorem destination_of_isNormal (h : IsNormal dir) : destination sys st dir = dir := by
  obtain ⟨cs, rfl, hn⟩ := isNormal_iff.1 h
  exact expandDots_text hn

theorem baseNames_of_isNormal (h : IsNormal base) {c : Bytes} (hc : c ∈ baseNames base path) :
    IsName c ∧ ¬ IsDotDot c ∧ ¬ IsDot c := by
  obtain ⟨cs, rfl, hn⟩ := isNormal_iff.1 h
  unfold baseNames at hc
  split at hc
  · cases hc
  · rw [names_text fun c hc => (hn c hc).1] at hc
    exact hn c hc

/-- From a normal base, what is not normal is empty. -/
theorem isNormal_expandDots {getCWD : Option Bytes} (h : IsNormal base)
    (hne : expandDots getCWD base path ≠ []) : IsNormal (expandDots getCWD base path) := by
  have hp : path ≠ [] := fun hp => hne (by rw [expandDots, if_pos hp])
  rcases Nat.lt_or_ge (baseNames base path).length (ascent path) with hlt | hge
  · rw [expandDots_above h.1 hp hlt] at hne ⊢
    cases hk : resolve (names path) with
    | nil =>
      rw [hk] at hne
      exact absurd rfl hne
    | cons k ks =>
      have hks : createPath (k :: ks) = text ks := by
        rw [← createPath_root ks]
        rfl
      rw [hks]
      exact isNormal_text fun c hc => isName_resolve (hk ▸ List.mem_cons_of_mem k hc)
  · rw [expandDots_below h.1 hp hge]
    apply isNormal_text
    intro c hc
    rcases List.mem_append.1 hc with hc | hc
    · exact baseNames_of_isNormal h (List.mem_of_mem_take hc)
    · exact isName_resolve hc

/-! ## What a command preserves -/

theorem changeWorkingDir_dirStack (dest : Bytes) (useLogical : Bool) :
    (changeWorkingDir sys st dest useLogical).2.dirStack = st.dirStack := by
  unfold changeWorkingDir
  split
  · rfl
  · cases useLogical with
    | true =>
      simp only [if_true]
      split <;> rfl
    | false =>
      simp only [Bool.false_eq_true, if_false]
      split
      · rfl
      · cases sys.newCWD <;> rfl

theorem changeWorkingDir_isNormal (h : IsNormal st.logicalWorkingDir) (hs : Proper sys)
    (dest : Bytes) (useLogical : Bool) :
    IsNormal (changeWorkingDir sys st dest useLogical).2.logicalWorkingDir := by
  unfold changeWorkingDir
  split
  · exact h
  · cases useLogical with
    | true =>
      simp only [if_true]
      split
      · exact h
      · next hc =>
        rw [not_not] at hc
        apply isNormal_expandDots h
        intro hn
        rw [hn, hs.chdir] at hc
        cases hc
    | false =>
      simp only [Bool.false_eq_true, if_false]
      split
      · exact h
      · cases hcwd : sys.newCWD with
        | none => exact h
        | some cwd => exact hs.newCWD cwd hcwd

theorem Normal.changeWorkingDir (h : Normal st) (hs : Proper sys) (dest : Bytes)
    (useLogical : Bool) : Normal (changeWorkingDir sys st dest useLogical).2 := by
  refine ⟨?_, changeWorkingDir_isNormal h.cwd hs dest useLogical, ?_⟩
  · rw [changeWorkingDir_dirStack]
    exact h.size
  · rw [changeWorkingDir_dirStack]
    exact h.entries

theorem Normal.enterDir (h : Normal st) (hs : Proper sys) {update : List Bytes → List Bytes}
    (hl : (update st.dirStack).length ≤ dirStackLimit)
    (hu : ∀ d ∈ update st.dirStack, IsNormal d) : Normal (enterDir sys st dir update).2 := by
  have hn := h.changeWorkingDir hs dir true
  unfold Dirs.enterDir
  split
  · next st' hc =>
    rw [hc] at hn
    exact hn
  · next st' hc =>
    have hd := @changeWorkingDir_dirStack sys st dir true
    rw [hc] at hn hd
    dsimp only at hd ⊢
    exact ⟨by rw [hd]; exact hl, hn.cwd, by rw [hd]; exact hu⟩

theorem Normal.pushRotate (h : Normal st) (hs : Proper sys) (hc : IsNormal cwd) :
    Normal (pushRotate sys st cwd k).2 := by
  unfold Dirs.pushRotate
  split
  · exact h
  · next dest hd =>
    have hk : k < st.dirStack.length := (List.getElem?_eq_some_iff.1 hd).1
    have hr := rotateStack_reverse cwd hk
    refine h.enterDir hs ?_ fun d hm => ?_
    · have := congrArg List.length hr
      simp only [List.length_reverse, List.length_tail, List.length_rotate,
        List.length_cons] at this
      have := h.size
      omega
    · have hm := hr ▸ List.mem_reverse.2 hm
      rcases List.mem_cons.1 (List.mem_rotate.1 (List.mem_of_mem_tail hm)) with rfl | hm
      · exact hc
      · exact h.entries d (List.mem_reverse.1 hm)

theorem Normal.dropLast (h : Normal st) : st.dirStack.dropLast.length ≤ dirStackLimit ∧
    ∀ d ∈ st.dirStack.dropLast, IsNormal d := by
  have := h.size
  refine ⟨by rw [List.length_dropLast]; omega, fun d hd => h.entries d (List.dropLast_subset _ hd)⟩

theorem Normal.concat {l : List Bytes} (hl : ∀ d ∈ l, IsNormal d) (hc : IsNormal cwd) :
    ∀ d ∈ l ++ [cwd], IsNormal d := fun d hd =>
  (List.mem_append.1 hd).elim (hl d) fun hd => List.mem_singleton.1 hd ▸ hc

theorem Normal.pushDir (h : Normal st) (hs : Proper sys) (hc : IsNormal cwd)
    (dest : Option Bytes) : Normal (pushDir sys st cwd dest).2 := by
  unfold Dirs.pushDir
  split
  · split
    · exact h
    · next hlimit =>
      refine h.enterDir hs ?_ (Normal.concat h.entries hc)
      rw [List.length_append, List.length_singleton]
      omega
  · split
    · exact h
    · next dest hlast =>
      refine h.enterDir hs ?_ (Normal.concat h.dropLast.2 hc)
      have hpos : 0 < st.dirStack.length :=
        List.length_pos_of_ne_nil fun hn => by rw [hn] at hlast; cases hlast
      have := h.size
      rw [List.length_append, List.length_dropLast, List.length_singleton]
      omega

theorem Normal.popTop (h : Normal st) (hs : Proper sys) : Normal (popTop sys st).2 := by
  unfold Dirs.popTop
  split
  · exact h
  · exact h.enterDir hs h.dropLast.1 h.dropLast.2

theorem Normal.popd (h : Normal st) (hs : Proper sys) (index : Option Nat) :
    Normal (popd sys st index).2 := by
  unfold Dirs.popd
  split
  · exact h
  · split
    · exact h.popTop hs
    · split
      · refine ⟨?_, h.cwd, fun d hd => h.entries d (List.mem_of_mem_eraseIdx hd)⟩
        exact (List.length_eraseIdx_le _ _).trans h.size
      · exact h.popTop hs

theorem Normal.pushd (h : Normal st) (hs : Proper sys) (dest : Option Bytes)
    (index : Option Nat) : Normal (pushd sys st dest index).2 := by
  unfold Dirs.pushd
  split
  · exact h
  · next cwd hw =>
    have hc : IsNormal cwd := by
      have := getWorkingDir_isSome (by rw [hw]; rfl)
      rw [hw] at this
      exact Option.some.inj this ▸ h.cwd
    split
    · exact h.pushDir hs hc dest
    · exact h.pushRotate hs hc

theorem Normal.truncate_eq (h : Normal st) : truncate st = st :=
  if_neg (Nat.not_lt.2 h.size)

theorem Normal.builtinPushdPopd (h : Normal st) (hs : Proper sys) (cmd : Cmd)
    (args : List Bytes) : Normal (builtinPushdPopd sys st cmd args).2 := by
  unfold Dirs.builtinPushdPopd
  rw [thenPrint_state]
  unfold updateDirStack
  rw [h.truncate_eq]
  split
  · exact h
  · exact h
  · dsimp only
    split
    · exact h
    · cases cmd with
      | pushd => exact h.pushd hs _ _
      | popd => exact h.popd hs _

theorem Normal.step (h : Normal st) (hstep : Step st st') : Normal st' := by
  cases hstep with
  | cd hs => exact h.changeWorkingDir hs _ _
  | pushdPopd hs => exact h.builtinPushdPopd hs _ _
  | clear => exact ⟨Nat.zero_le _, h.cwd, by simp⟩

/-- What is reached from a normal state is normal. -/
theorem Normal.run (h : Normal st) (hr : Relation.ReflTransGen Step st st') : Normal st' := by
  induction hr with
  | refl => exact h
  | tail _ hstep ih => exact ih.step hstep

/-! ## The listing under `pushd`, `popd` and tilde expansion -/

/-- A number with a sign is no option. -/
theorem parseOptions_number {ch n : Nat} {num : Bytes} (hch : ch = chPlus ∨ ch = chMinus)
    (hn : Numeral 10 num n) (rest : List Bytes) :
    parseOptions ((ch :: num) :: rest) = .operand (some (ch :: num)) := by
  rcases hch with rfl | rfl
  · rfl
  · cases hn with
    | digits hb hd =>
      cases num with
      | nil => exact absurd rfl hd.ne_nil
      | cons d ds =>
        obtain ⟨v, hv, hlt⟩ := hd.all d List.mem_cons_self
        have hdec : isDecimal d = true := by
          unfold digitValue at hv
          unfold isDecimal
          grind
        obtain ⟨-, hm⟩ := decimal_ne hdec
        have h104 : d ≠ 104 := by
          rintro rfl
          cases hdec
        change parseOptions ((45 :: d :: ds) :: rest) = _
        rw [parseOptions, if_neg hm, if_neg h104, if_pos hdec]

/-- The commands as operations on the listing of the stack up to its limit, which is printed
last. -/
structure Rotating (sys : Sys) (st : State) : Prop where
  number : ∀ ch num n rest, ch = chPlus ∨ ch = chMinus → Numeral 10 num n →
    parseOptions ((ch :: num) :: rest) = .operand (some (ch :: num))
  pushFirst : ∀ args arg, parseOptions args = .operand (some arg) →
    IndexArg (truncate st).dirStack.length arg 0 → (getWorkingDir sys st).isSome →
    builtinPushdPopd sys st .pushd args = (printResult sys (truncate st), truncate st)
  pushIndex : ∀ args arg k dir, parseOptions args = .operand (some arg) →
    IndexArg (truncate st).dirStack.length arg k → (getWorkingDir sys st).isSome → 0 < k →
    (listing (truncate st))[k]? = some dir →
    Enters sys (truncate st) dir ((listing (truncate st)).rotate k).tail (printResult sys)
      (builtinPushdPopd sys st .pushd args)
  popFirst : ∀ args arg cwd dir rest, parseOptions args = .operand (some arg) →
    IndexArg (truncate st).dirStack.length arg 0 → listing (truncate st) = cwd :: dir :: rest →
    Enters sys (truncate st) dir rest (printResult sys) (builtinPushdPopd sys st .popd args)
  popIndex : ∀ args arg k, parseOptions args = .operand (some arg) →
    IndexArg (truncate st).dirStack.length arg k → 0 < k →
    (builtinPushdPopd sys st .popd args).1 =
        printResult sys (builtinPushdPopd sys st .popd args).2 ∧
      listing (builtinPushdPopd sys st .popd args).2 = (listing (truncate st)).eraseIdx k
  pushDir : ∀ args dir, parseOptions args = .operand (some dir) → dir.head? ≠ some chPlus →
    dir.head? ≠ some chMinus → (getWorkingDir sys st).isSome →
    (truncate st).dirStack.length < dirStackLimit →
    Enters sys (truncate st) dir (listing (truncate st)) (printResult sys)
      (builtinPushdPopd sys st .pushd args)
  pushNone : ∀ args cwd dir rest, parseOptions args = .operand none →
    (getWorkingDir sys st).isSome → listing (truncate st) = cwd :: dir :: rest →
    Enters sys (truncate st) dir (cwd :: rest) (printResult sys)
      (builtinPushdPopd sys st .pushd args)
  failed : ∀ cmd args,
    (builtinPushdPopd sys st cmd args).1 = printResult sys (builtinPushdPopd sys st cmd args).2 ∨
      (builtinPushdPopd sys st cmd args).2 = truncate st
  tilde : ∀ arg k dir, IndexArg (truncate st).dirStack.length arg k →
    (k = 0 → (getWorkingDir sys st).isSome) → (listing (truncate st))[k]? = some dir →
    dir ≠ [] → 0 ∉ dir → dir.length ≤ strLimit →
    expandTilde sys.env (chTilde :: arg) true (some (dirStackProvider sys st)) strLimit = (.ok, dir)
  printed : ∀ st' text, printResult sys st' = .printed text ↔
    sys.isNewDir st'.logicalWorkingDir ∧ sys.writeError = none ∧
      ∃ home, dirsHome sys.env = some home ∧
        text = (((listing st').map (formatDir · home)).intersperse [32]).flatten ++ [10]

theorem update_of_index {cmd : Cmd} {args : List Bytes} {arg : Bytes}
    (ho : parseOptions args = .operand (some arg))
    (ha : IndexArg (truncate st).dirStack.length arg k) :
    updateDirStack sys st cmd args =
      match cmd with
      | .pushd => pushd sys (truncate st) (some arg) (some ((truncate st).dirStack.length - k))
      | .popd => popd sys (truncate st) (some ((truncate st).dirStack.length - k)) := by
  cases cmd <;> simp only [updateDirStack, ho, rotateIndex_of ha truncate_length_le]

theorem pushd_of_cwd {dest : Option Bytes} {index : Option Nat}
    (hw : (getWorkingDir sys st).isSome) : pushd sys (truncate st) dest index =
      match index with
      | none => pushDir sys (truncate st) (truncate st).logicalWorkingDir dest
      | some index => pushRotate sys (truncate st) (truncate st).logicalWorkingDir index := by
  rw [← getWorkingDir_truncate] at hw
  cases index <;> simp only [pushd, getWorkingDir_isSome hw]

theorem rotateIndex_dir (hp : dir.head? ≠ some chPlus) (hm : dir.head? ≠ some chMinus) :
    rotateIndex k (some dir) = .ok none := by
  cases dir with
  | nil => rfl
  | cons ch dir =>
    have hch : ¬ (ch = chPlus ∨ ch = chMinus) := by
      rintro (rfl | rfl)
      · exact hp rfl
      · exact hm rfl
    rw [rotateIndex, if_neg hch]

theorem popd_first {rest : List Bytes} (h : listing st = cwd :: dir :: rest) :
    popd sys st (some (st.dirStack.length - 0)) = popTop sys st := by
  obtain ⟨-, hlast, -⟩ := getLast?_of_listing h
  have hne : st.dirStack ≠ [] := fun hn => by rw [hn] at hlast; cases hlast
  rw [popd, if_neg hne]
  simp

/-- The current directory and the stack are one list for all commands. In a run of `cd`, `pushd` and
`popd` no stack gets too long, and an entry is entered as it is. -/
theorem rotating_list (sys : Sys) (st : State) : Rotating sys st ∧
    ∀ st₀, Normal st₀ → Relation.ReflTransGen Step st₀ st →
      truncate st = st ∧ ∀ dir ∈ listing st, destination sys st dir = dir := by
  constructor
  · refine ⟨fun ch num n rest hch hn => parseOptions_number hch hn rest, ?_, ?_, ?_, ?_, ?_, ?_,
      builtin_cases, ?_, ?_⟩
    · intro args arg ho ha hw
      rw [builtinPushdPopd, update_of_index ho ha]
      simp only [pushd_of_cwd hw, Nat.sub_zero, pushRotate_zero]
      rfl
    · intro args arg k dir ho ha hw h0 hd
      rw [builtinPushdPopd, update_of_index ho ha]
      simp only [pushd_of_cwd hw]
      exact (pushRotate_enters h0 ha.le hd).thenPrint
    · intro args arg cwd dir rest ho ha hl
      rw [builtinPushdPopd, update_of_index ho ha]
      simp only [popd_first hl]
      exact (popTop_enters hl).thenPrint
    · intro args arg k ho ha h0
      rw [builtinPushdPopd, update_of_index ho ha]
      obtain ⟨hdone, hl⟩ := @popd_erase sys (truncate st) k h0 ha.le
      rw [thenPrint_state, thenPrint_done hdone]
      exact ⟨rfl, hl⟩
    · intro args dir ho hp hm hw hlimit
      simp only [builtinPushdPopd, updateDirStack, ho, rotateIndex_dir hp hm, pushd_of_cwd hw]
      exact (pushDir_enters hlimit).thenPrint
    · intro args cwd dir rest ho hw hl
      simp only [builtinPushdPopd, updateDirStack, ho, rotateIndex, pushd_of_cwd hw]
      exact (pushNone_enters hl).thenPrint
    · intro arg k dir ha hw hd hne h0 hsize
      rw [← getWorkingDir_truncate] at hw
      exact expandTilde_index ha hw hd hne h0 hsize
    · intro st' text
      simp only [printed_iff, printDirStack_eq]
  · intro st₀ h₀ hr
    have h := h₀.run hr
    refine ⟨h.truncate_eq, fun dir hd => destination_of_isNormal ?_⟩
    rcases List.mem_cons.1 hd with rfl | hd
    · exact h.cwd
    · exact h.entries dir (List.mem_reverse.1 hd)

/-- A system where every directory is there. -/
def sysSample : Sys := ⟨envSample, fun _ => true, fun _ => true, fun _ => true, none, none, none⟩

/-- The root, and 256 times the root on the stack. -/
def longSample : State := ⟨[47], List.replicate 256 [47], none, none⟩

/-- The root, and `/a/..` on the stack. -/
def dotsSample : State := ⟨[47], [[47, 97, 47, 46, 46]], none, none⟩

theorem indexArg_digit {n : Nat} (size : Nat) (hn : n < 10) (hle : n ≤ size) :
    IndexArg size [43, 48 + n] n := by
  have hd : digitValue (48 + n) = some n := by
    unfold digitValue
    rw [if_pos (by omega)]
    congr 1
    omega
  have hv : valueOf 10 [48 + n] 0 = n := by simp [valueOf, hd]
  have : Numeral 10 [48 + n] n := by
    conv => arg 3; rw [← hv]
    refine .digits (by decide) ⟨by simp, fun ch hch => ?_⟩
    obtain rfl := List.mem_singleton.1 hch
    exact ⟨n, hd, hn⟩
  exact .left (.inl this) hle

theorem printResult_sample (st : State) : ∃ text, printResult sysSample st = .printed text := by
  have hhome : dirsHome sysSample.env = some [47, 104, 47, 117] := by decide
  exact ⟨_, printed_iff.2 ⟨rfl, rfl, _, hhome, rfl⟩⟩

/-- `pushd +0` shortens a stack above the limit, and `pushd +1` enters `/a/..` as the root. -/
theorem not_rotating_list :
    ((∃ text, (builtinPushdPopd sysSample longSample .pushd [[43, 48]]).1 = .printed text) ∧
      listing (builtinPushdPopd sysSample longSample .pushd [[43, 48]]).2 ≠
        (listing longSample).rotate 0) ∧
    ((∃ text, (builtinPushdPopd sysSample dotsSample .pushd [[43, 49]]).1 = .printed text) ∧
      listing (builtinPushdPopd sysSample dotsSample .pushd [[43, 49]]).2 ≠
        (listing dotsSample).rotate 1) := by
  constructor
  · rw [builtinPushdPopd, update_of_index rfl (@indexArg_digit 0 _ (by decide) (Nat.zero_le _))]
    simp only [pushd_of_cwd (show (getWorkingDir sysSample longSample).isSome from rfl),
      Nat.sub_zero, pushRotate_zero]
    refine ⟨printResult_sample _, fun h => ?_⟩
    rw [thenPrint_state] at h
    have := congrArg List.length h
    rw [List.length_rotate, listing, listing, List.length_cons, List.length_cons,
      List.length_reverse, List.length_reverse, truncate_dirStack, List.length_take, longSample,
      List.length_replicate] at this
    cases this
  · rw [builtinPushdPopd, update_of_index rfl (@indexArg_digit 1 _ (by decide) (by decide))]
    simp only [pushd_of_cwd (show (getWorkingDir sysSample dotsSample).isSome from rfl)]
    have hd : (listing (truncate dotsSample))[1]? = some [47, 97, 47, 46, 46] := rfl
    have he := (@pushRotate_enters sysSample _ _ _ (by decide) (by decide) hd).thenPrint
    obtain ⟨hdone, hl⟩ := he.done ⟨by decide, rfl⟩
    refine ⟨hdone ▸ printResult_sample _, ?_⟩
    rw [hl, destination, expandDots_eq (by rfl) (by decide)]
    decide

end

end Arsh.Dirs
