import Arsh.Dirs.DirStack
import Mathlib.Data.List.Rotate

/-!
# The directory stack as one rotating list

The current directory and the stack from its top are one list. `pushd` and `popd` rotate it, remove
an entry or put one in front, and what comes to its front is entered: it stands there as
`expandDots` has it.
-/

namespace Arsh.Dirs

open NumUtil

/-- The directories in the order `dirs` prints them. -/
def listing (st : State) : List Bytes := st.logicalWorkingDir :: st.dirStack.reverse

/-- Where changing to a directory leads. -/
def destination (sys : Sys) (st : State) (dir : Bytes) : Bytes :=
  expandDots sys.getCWD st.logicalWorkingDir dir

def CanChange (sys : Sys) (st : State) (dir : Bytes) : Prop :=
  0 ∉ dir ∧ sys.chdir (destination sys st dir)

/-- `+N` is the `N`-th entry of a listing from the left and `-N` the one from the right; `size` is
the index of its last entry. -/
inductive IndexArg (size : Nat) : Bytes → Nat → Prop where
  | left {num : Bytes} {n : Nat} : UnsignedNumeral 10 num n → n ≤ size →
    IndexArg size (chPlus :: num) n
  | right {num : Bytes} {n : Nat} : UnsignedNumeral 10 num n → n ≤ size →
    IndexArg size (chMinus :: num) (size - n)

/-- The directory is entered, `rest` follows it in the listing, and the command ends in the new
state; or nothing changes. -/
structure Enters (sys : Sys) (st : State) (dir : Bytes) (rest : List Bytes)
    (ends : State → Outcome) (res : Outcome × State) : Prop where
  done : CanChange sys st dir → res.1 = ends res.2 ∧ listing res.2 = destination sys st dir :: rest
  failed : ¬ CanChange sys st dir → res = (.cannotChange dir, st)

/-! ## The array and the listing -/

section
variable {sys : Sys} {st : State} {dest arg dir cwd : Bytes} {k size : Nat} {l : List Bytes}

theorem changeWorkingDir_of (h : CanChange sys st dir) : ∃ st', changeWorkingDir sys st dir true =
    (true, st') ∧ st'.logicalWorkingDir = destination sys st dir ∧ st'.dirStack = st.dirStack := by
  obtain ⟨h0, hc⟩ := h
  unfold destination at hc
  rw [changeWorkingDir, if_neg h0]
  simp only [if_true, hc, not_true_eq_false, if_false]
  exact ⟨_, rfl, rfl, rfl⟩

theorem changeWorkingDir_of_not (h : ¬ CanChange sys st dir) :
    changeWorkingDir sys st dir true = (false, st) := by
  unfold CanChange destination at h
  unfold changeWorkingDir
  by_cases h0 : 0 ∈ dir
  · rw [if_pos h0]
  · have hc : ¬ sys.chdir (expandDots sys.getCWD st.logicalWorkingDir dir) = true :=
      fun hc => h ⟨h0, hc⟩
    rw [if_neg h0]
    simp only [if_true, if_pos hc]

theorem backToFront_eq (l : List Bytes) : backToFront l = (l.reverse.rotate 1).reverse := by
  rcases List.eq_nil_or_concat l with rfl | ⟨l, x, rfl⟩
  · rfl
  · simp [backToFront]

theorem backToFront_iterate (n : Nat) (l : List Bytes) :
    backToFront^[n] l = (l.reverse.rotate n).reverse := by
  induction n generalizing l with
  | zero => simp
  | succ n ih =>
    rw [Function.iterate_succ_apply, ih, backToFront_eq, List.reverse_reverse, List.rotate_rotate,
      Nat.add_comm]

/-- The rotated array, seen from its top. -/
theorem rotateStack_reverse (cwd : Bytes) {stack : List Bytes} {index : Nat}
    (h : index < stack.length) : (rotateStack cwd index stack).reverse =
      ((cwd :: stack.reverse).rotate (stack.length - index)).tail := by
  have hr : (cwd :: stack).reverse = (cwd :: stack.reverse).rotate 1 := by simp
  rw [rotateStack, backToFront_iterate, hr, List.rotate_rotate, ← List.tail_reverse,
    List.reverse_reverse]
  congr 2
  omega

theorem reverse_eraseIdx {stack : List Bytes} {index : Nat} (h : index < stack.length) :
    (stack.eraseIdx index).reverse = stack.reverse.eraseIdx (stack.length - (index + 1)) := by
  have h1 : stack.length - (index + 1) + 1 = stack.length - index := by omega
  rw [List.eraseIdx_eq_take_drop_succ, List.eraseIdx_eq_take_drop_succ, List.reverse_append,
    List.reverse_take, List.reverse_drop, h1]

/-- An entry behind the first is an element of the array. -/
theorem listing_getElem? (h0 : 0 < k) (hk : k ≤ st.dirStack.length) :
    (listing st)[k]? = st.dirStack[st.dirStack.length - k]? := by
  obtain ⟨j, rfl⟩ := Nat.exists_eq_succ_of_ne_zero (by omega : k ≠ 0)
  rw [listing, List.getElem?_cons_succ, List.getElem?_reverse (by omega)]
  congr 1
  omega

theorem getLast?_of_listing {rest : List Bytes} (h : listing st = cwd :: dir :: rest) :
    cwd = st.logicalWorkingDir ∧ st.dirStack.getLast? = some dir ∧
      st.dirStack.dropLast.reverse = rest := by
  unfold listing at h
  obtain ⟨rfl, ht⟩ := List.cons.inj h
  have hs : st.dirStack = rest.reverse ++ [dir] := by
    rw [← List.reverse_cons, ← ht, List.reverse_reverse]
  rw [hs]
  simp

/-! ## The commands -/

theorem IndexArg.le (h : IndexArg size arg k) : k ≤ size := by
  cases h <;> omega

theorem rotateIndex_of (h : IndexArg size arg k) (hs : size ≤ dirStackLimit) :
    rotateIndex size (some arg) = .ok (some (size - k)) := by
  have hlimit : dirStackLimit < Width.w64.size := by decide
  cases h with
  | left hn hle =>
    obtain ⟨hk, hv⟩ := parse_ok_iff.2 ⟨hn, by omega⟩
    simp only [rotateIndex, true_or, if_true, hk, ne_eq, not_true_eq_false, if_false, hv,
      if_neg (Nat.not_lt.2 hle)]
    rfl
  | @right num n hn hle =>
    obtain ⟨hk, hv⟩ := parse_ok_iff.2 ⟨hn, by omega⟩
    have hsub : size - (size - n) = n := by omega
    simp only [rotateIndex, or_true, if_true, hk, ne_eq, not_true_eq_false, if_false, hv,
      if_neg (Nat.not_lt.2 hle), hsub]
    rfl

theorem pushRotate_zero : pushRotate sys st cwd st.dirStack.length = (.done, st) := by
  rw [pushRotate, List.getElem?_eq_none (Nat.le_refl _)]

/-- An update of the array is what follows in the listing. -/
theorem enterDir_enters {update : List Bytes → List Bytes} {rest : List Bytes}
    (h : (update st.dirStack).reverse = rest) :
    Enters sys st dir rest (fun _ => .done) (enterDir sys st dir update) := by
  constructor
  · intro hc
    obtain ⟨st', hst', hl, hs⟩ := changeWorkingDir_of hc
    rw [enterDir, hst']
    refine ⟨rfl, ?_⟩
    simp only [listing, hl, hs, h]
  · intro hc
    rw [enterDir, changeWorkingDir_of_not hc]

theorem pushRotate_enters (h0 : 0 < k) (hk : k ≤ st.dirStack.length)
    (hd : (listing st)[k]? = some dir) :
    Enters sys st dir ((listing st).rotate k).tail (fun _ => .done)
      (pushRotate sys st st.logicalWorkingDir (st.dirStack.length - k)) := by
  rw [listing_getElem? h0 hk] at hd
  have hr := @rotateStack_reverse st.logicalWorkingDir st.dirStack (st.dirStack.length - k)
    (by omega)
  rw [Nat.sub_sub_self hk] at hr
  simp only [pushRotate, hd]
  exact enterDir_enters hr

theorem pushDir_enters (hs : st.dirStack.length < dirStackLimit) :
    Enters sys st dir (listing st) (fun _ => .done)
      (pushDir sys st st.logicalWorkingDir (some dir)) := by
  rw [pushDir, if_neg (by omega)]
  exact enterDir_enters List.reverse_concat

theorem pushNone_enters {rest : List Bytes} (h : listing st = cwd :: dir :: rest) :
    Enters sys st dir (cwd :: rest) (fun _ => .done)
      (pushDir sys st st.logicalWorkingDir none) := by
  obtain ⟨rfl, hlast, hrest⟩ := getLast?_of_listing h
  simp only [pushDir, hlast]
  apply enterDir_enters
  rw [List.reverse_concat, hrest]

theorem popTop_enters {rest : List Bytes} (h : listing st = cwd :: dir :: rest) :
    Enters sys st dir rest (fun _ => .done) (popTop sys st) := by
  obtain ⟨-, hlast, hrest⟩ := getLast?_of_listing h
  simp only [popTop, hlast]
  exact enterDir_enters hrest

theorem popd_erase (h0 : 0 < k) (hk : k ≤ st.dirStack.length) :
    (popd sys st (some (st.dirStack.length - k))).1 = .done ∧
      listing (popd sys st (some (st.dirStack.length - k))).2 = (listing st).eraseIdx k := by
  have hne : st.dirStack ≠ [] := fun h => by rw [h, List.length_nil] at hk; omega
  rw [popd, if_neg hne]
  simp only [show st.dirStack.length - k < st.dirStack.length by omega, if_true, true_and]
  obtain ⟨j, rfl⟩ := Nat.exists_eq_succ_of_ne_zero (by omega : k ≠ 0)
  rw [listing, listing, List.eraseIdx_cons_succ, reverse_eraseIdx (by omega)]
  congr 2
  omega

/-- Whatever fails leaves the state as it is. -/
theorem enterDir_failed {update : List Bytes → List Bytes}
    (h : (enterDir sys st dir update).1 ≠ .done) : (enterDir sys st dir update).2 = st := by
  by_cases hc : CanChange sys st dir
  · obtain ⟨st', hst', -⟩ := changeWorkingDir_of hc
    rw [enterDir, hst'] at h
    exact absurd rfl h
  · rw [enterDir, changeWorkingDir_of_not hc]

theorem pushRotate_failed (h : (pushRotate sys st cwd k).1 ≠ .done) :
    (pushRotate sys st cwd k).2 = st := by
  unfold pushRotate at h ⊢
  split
  · rfl
  · next dest hd =>
    rw [hd] at h
    exact enterDir_failed h

theorem pushDir_failed {dest : Option Bytes} (h : (pushDir sys st cwd dest).1 ≠ .done) :
    (pushDir sys st cwd dest).2 = st := by
  unfold pushDir at h ⊢
  split at h
  · split at h
    · next hlimit => rw [if_pos hlimit]
    · next hlimit =>
      rw [if_neg hlimit]
      exact enterDir_failed h
  · split at h
    · rfl
    · exact enterDir_failed h

theorem pushd_failed {dest : Option Bytes} {index : Option Nat}
    (h : (pushd sys st dest index).1 ≠ .done) : (pushd sys st dest index).2 = st := by
  unfold pushd at h ⊢
  split at h
  · rfl
  · split at h
    · exact pushDir_failed h
    · exact pushRotate_failed h

theorem popTop_failed (h : (popTop sys st).1 ≠ .done) : (popTop sys st).2 = st := by
  unfold popTop at h ⊢
  split
  · rfl
  · next dest hlast =>
    rw [hlast] at h
    exact enterDir_failed h

theorem popd_failed {index : Option Nat} (h : (popd sys st index).1 ≠ .done) :
    (popd sys st index).2 = st := by
  unfold popd at h ⊢
  split at h
  · next he => rw [if_pos he]
  · next he =>
    rw [if_neg he]
    split at h
    · exact popTop_failed h
    · split at h
      · exact absurd rfl h
      · next hi =>
        rw [if_neg hi]
        exact popTop_failed h

theorem update_failed {cmd : Cmd} {args : List Bytes}
    (h : (updateDirStack sys st cmd args).1 ≠ .done) :
    (updateDirStack sys st cmd args).2 = truncate st := by
  unfold updateDirStack at h ⊢
  dsimp only at h ⊢
  split
  · rfl
  · rfl
  · next dest ho =>
    rw [ho] at h
    simp only at h
    cases hr : rotateIndex (truncate st).dirStack.length dest with
    | error e => rfl
    | ok index =>
      rw [hr] at h
      cases cmd with
      | pushd => exact pushd_failed h
      | popd => exact popd_failed h

/-! ## The output -/

theorem thenPrint_state (res : Outcome × State) : (thenPrint sys res).2 = res.2 := by
  unfold thenPrint
  split <;> rfl

theorem thenPrint_done {res : Outcome × State} (h : res.1 = .done) :
    (thenPrint sys res).1 = printResult sys res.2 := by
  obtain ⟨_, st'⟩ := res
  cases h
  rfl

/-- What is entered is entered before the output. -/
theorem Enters.thenPrint {rest : List Bytes} {res : Outcome × State}
    (h : Enters sys st dir rest (fun _ => .done) res) :
    Enters sys st dir rest (printResult sys) (thenPrint sys res) := by
  constructor
  · intro hc
    obtain ⟨hdone, hl⟩ := h.done hc
    rw [thenPrint_state, thenPrint_done hdone]
    exact ⟨rfl, hl⟩
  · intro hc
    rw [h.failed hc]
    rfl

/-- The state does not depend on the output, and a command that fails before it changes nothing. -/
theorem builtin_cases (cmd : Cmd) (args : List Bytes) :
    (builtinPushdPopd sys st cmd args).1 = printResult sys (builtinPushdPopd sys st cmd args).2 ∨
      (builtinPushdPopd sys st cmd args).2 = truncate st := by
  unfold builtinPushdPopd
  by_cases h : (updateDirStack sys st cmd args).1 = .done
  · rw [thenPrint_state, thenPrint_done h]
    exact .inl rfl
  · rw [thenPrint_state]
    exact .inr (update_failed h)

/-! ## Names of entries -/

@[simp]
theorem truncate_dirStack : (truncate st).dirStack = st.dirStack.take dirStackLimit := by
  unfold truncate
  split
  · rfl
  · exact (List.take_of_length_le (by omega)).symm

@[simp]
theorem truncate_logicalWorkingDir :
    (truncate st).logicalWorkingDir = st.logicalWorkingDir := by
  unfold truncate
  split <;> rfl

theorem truncate_length_le : (truncate st).dirStack.length ≤ dirStackLimit := by
  rw [truncate_dirStack, List.length_take]
  exact Nat.min_le_left _ _

theorem dirStackProvider_size : (dirStackProvider sys st).size = (truncate st).dirStack.length := by
  rw [truncate_dirStack, List.length_take, Nat.min_comm]
  rfl

theorem getWorkingDir_truncate : getWorkingDir sys (truncate st) = getWorkingDir sys st := by
  rw [getWorkingDir, truncate_logicalWorkingDir, getWorkingDir]

theorem getWorkingDir_isSome (h : (getWorkingDir sys st).isSome) :
    getWorkingDir sys st = some st.logicalWorkingDir := by
  unfold getWorkingDir at h ⊢
  by_cases hd : sys.isDir st.logicalWorkingDir
  · rw [if_pos hd]
  · rw [if_neg hd] at h
    cases h

/-- The provider and the listing number the entries from opposite ends. -/
theorem dirStackProvider_get (hk : k ≤ (truncate st).dirStack.length)
    (hw : k = 0 → (getWorkingDir sys (truncate st)).isSome)
    (hd : (listing (truncate st))[k]? = some dir) :
    (dirStackProvider sys st).get ((truncate st).dirStack.length - k) = dir := by
  have hsize := @dirStackProvider_size sys st
  change min _ _ = _ at hsize
  simp only [dirStackProvider, hsize]
  rcases Nat.eq_zero_or_pos k with rfl | h0
  · have hw := getWorkingDir_isSome (hw rfl)
    rw [getWorkingDir_truncate] at hw
    rw [if_neg (by omega), if_pos (by omega), hw]
    simpa [listing] using hd
  · rw [listing_getElem? h0 hk] at hd
    rw [if_pos (by omega)]
    simp only [truncate_dirStack, List.getElem?_take] at hd
    split at hd
    · rw [truncate_dirStack, hd]
      rfl
    · cases hd

theorem Digits.noNull_noSlash (h : Digits 10 arg) : 0 ∉ arg ∧ chSlash ∉ arg := by
  constructor
  · intro hm
    obtain ⟨v, hv, -⟩ := h.all _ hm
    cases hv
  · intro hm
    obtain ⟨v, hv, -⟩ := h.all _ hm
    cases hv

theorem UnsignedNumeral.noNull_noSlash {n : Nat} (h : UnsignedNumeral 10 arg n) :
    0 ∉ arg ∧ chSlash ∉ arg := by
  rcases h with h | ⟨ds, rfl, h⟩
  · cases h with
    | digits hb h => exact Digits.noNull_noSlash h
  · cases h with
    | digits hb h =>
      obtain ⟨h0, hs⟩ := Digits.noNull_noSlash h
      exact ⟨List.not_mem_cons_of_ne_of_not_mem (by decide) h0,
        List.not_mem_cons_of_ne_of_not_mem (by decide) hs⟩

/-- `~+N` and `~-N`. -/
theorem expandTilde_index (ha : IndexArg (truncate st).dirStack.length arg k)
    (hw : k = 0 → (getWorkingDir sys (truncate st)).isSome)
    (hd : (listing (truncate st))[k]? = some dir) (hne : dir ≠ []) (h0 : 0 ∉ dir)
    (hsize : dir.length ≤ strLimit) :
    expandTilde sys.env (chTilde :: arg) true (some (dirStackProvider sys st)) strLimit =
      (.ok, dir) := by
  have hget := dirStackProvider_get ha.le hw hd
  have hlimit : dirStackLimit < Width.w64.size := by decide
  have hle := @truncate_length_le st
  have hp := @dirStackProvider_size sys st
  have key : chSlash ∉ arg ∧ 0 ∉ arg ∧
      Denotes sys.env (some (dirStackProvider sys st)) arg dir := by
    cases ha with
    | @left num n hn hk =>
      obtain ⟨h0', hs⟩ := UnsignedNumeral.noNull_noSlash hn
      refine ⟨List.not_mem_cons_of_ne_of_not_mem (by decide) hs,
        List.not_mem_cons_of_ne_of_not_mem (by decide) h0',
        .left rfl hn (hp ▸ hk) (by omega) ⟨?_, hne, h0⟩⟩
      rw [hp, hget]
    | @right num n hn hk =>
      obtain ⟨h0', hs⟩ := UnsignedNumeral.noNull_noSlash hn
      refine ⟨List.not_mem_cons_of_ne_of_not_mem (by decide) hs,
        List.not_mem_cons_of_ne_of_not_mem (by decide) h0',
        .right rfl hn (hp ▸ hk) (by omega) ⟨?_, hne, h0⟩⟩
      rw [Nat.sub_sub_self hk] at hget
      exact hget
  obtain ⟨hs, h0', hden⟩ := key
  have := @expandTilde_of_denotes sys.env (some (dirStackProvider sys st)) arg dir strLimit [] hs
    (.inl rfl) (by simpa using h0') hden (by simpa using hsize)
  simpa using this

theorem printed_iff {text : Bytes} : printResult sys st = .printed text ↔
    sys.isNewDir st.logicalWorkingDir ∧ sys.writeError = none ∧ ∃ home, dirsHome sys.env = some home ∧
      text = printDirStack st.dirStack st.logicalWorkingDir home := by
  unfold printResult getNewWorkingDir
  by_cases hd : sys.isNewDir st.logicalWorkingDir = true
  · rw [if_pos hd]
    cases hhome : dirsHome sys.env with
    | none => simp
    | some home =>
      cases hw : sys.writeError with
      | some errNum => simp
      | none => simp [hd, eq_comm]
  · rw [if_neg hd]
    simp [hd]

theorem printDirStack_eq (home : Bytes) :
    printDirStack st.dirStack st.logicalWorkingDir home =
      (((listing st).map (formatDir · home)).intersperse [32]).flatten ++ [10] := by
  unfold printDirStack listing
  rw [List.map_cons]
  congr 1
  generalize st.dirStack.reverse = l
  generalize formatDir st.logicalWorkingDir home = x
  induction l generalizing x with
  | nil => simp
  | cons d l ih =>
    rw [List.map_cons, List.intersperse_cons_cons, List.flatMap_cons, List.flatten_cons,
      List.flatten_cons, ← ih (formatDir d home)]
    simp

end

end Arsh.Dirs
