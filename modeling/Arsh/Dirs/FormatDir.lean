import Arsh.Dirs.Tilde

/-!
# Abbreviated directories

`dirs` prints a directory with the home directory at its beginning replaced by a tilde. The
beginning is a matter of bytes, so what follows the tilde need not be a path: it is read as part of
a name when the text is expanded again.
-/

namespace Arsh.Dirs

open NumUtil

/-! ## The source -/

/-- `SYS_LIMIT_STRING_MAX`, the limit of a string of the language. -/
def strLimit : Nat := 0x7FFFFFFF

/-- `std::string::max_size`. -/
def maxSize : Nat := 0x7FFFFFFFFFFFFFFF

def dots : Bytes := [chDot, chDot, chDot]

/-- A control character. -/
def isControl (ch : Nat) : Bool := ch < 32 || ch == 127

/-- `\x` and two hexadecimal digits. -/
def hexEscape (ch : Nat) : Bytes := [92, 120, digitChar (ch / 16), digitChar (ch % 16)]

/-- `appendAsPrintable`: whether all of it fits, and what `out` is afterwards. -/
def appendAsPrintable (maxSize : Nat) : Bytes → Bytes → Bool × Bytes
  | [], out => (true, out)
  | ch :: ref, out =>
    if maxSize ≤ out.length then
      (false, if 3 ≤ maxSize then out.take (maxSize - 3) ++ dots else out)
    else appendAsPrintable maxSize ref (out ++ if isControl ch then hexEscape ch else [ch])

def formatDir (dir home : Bytes) : Bytes :=
  if home ≠ [] ∧ home.isPrefixOf dir then
    (appendAsPrintable maxSize (dir.drop home.length) [chTilde]).2
  else (appendAsPrintable maxSize dir []).2

/-- The home directory `printDirStack` takes, if there is one. -/
def dirsHome (env : Env) : Option Bytes :=
  match expandTilde env [chTilde] true none strLimit with
  | (.ok, home) => some home
  | _ => none

/-! ## Reading it back -/

/-- The directory is the home directory or one below it, component by component. -/
def AtOrBelow (home dir : Bytes) : Prop := names home <+: names dir

/-- The text for a directory stands for it again, and it is the directory itself unless that is the
home directory or below it. -/
structure Abbreviates (env : Env) (provider : Option DirStackProvider) (home dir : Bytes) :
    Prop where
  expands : (expandTilde env (formatDir dir home) true provider strLimit).2 = dir
  full : ¬ AtOrBelow home dir → formatDir dir home = dir

/-- What follows the home directory begins with a slash, or the name that the tilde gets stands for
just that directory. -/
def Separated (env : Env) (provider : Option DirStackProvider) (home dir : Bytes) : Prop :=
  home = [] ∨ ¬ home <+: dir ∨
    dir.drop home.length = [] ∨ (dir.drop home.length).head? = some chSlash ∨
    AtOrBelow home dir ∧ Denotes env provider ((dir.drop home.length).takeWhile (· ≠ chSlash))
      (home ++ (dir.drop home.length).takeWhile (· ≠ chSlash))

section
variable {env : Env} {provider : Option DirStackProvider} {home dir rest ref out pre : Bytes}
  {limit : Nat}

theorem appendAsPrintable_eq (h : ∀ ch ∈ ref, isControl ch = false)
    (hsize : out.length + ref.length ≤ limit) :
    appendAsPrintable limit ref out = (true, out ++ ref) := by
  induction ref generalizing out with
  | nil => simp [appendAsPrintable]
  | cons ch ref ih =>
    rw [List.length_cons] at hsize
    rw [appendAsPrintable, if_neg (by omega), h ch List.mem_cons_self, if_neg (by simp),
      ih (fun c hc => h c (List.mem_cons_of_mem ch hc)) (by simp; omega), List.append_assoc,
      List.singleton_append]

theorem dirsHome_eq_some (h : dirsHome env = some home) : Denotes env provider [] home := by
  have he := @expandTilde_eq env none [] strLimit [] List.not_mem_nil (.inl rfl) List.not_mem_nil
  rw [List.append_nil, expandPrefix] at he
  rw [dirsHome, he] at h
  cases hv : env.home.or env.userDir with
  | none => simp [expandHome, hv] at h
  | some d =>
    rw [expandHome_eq_ok.2 hv] at h
    simp only [List.append_nil] at h
    by_cases hsize : d.length ≤ strLimit
    · rw [if_pos hsize] at h
      obtain rfl := Option.some.inj h
      exact .home hv
    · rw [if_neg hsize] at h
      cases h

/-- Printable characters stay as they are. -/
theorem formatDir_eq (h : ∀ ch ∈ dir, isControl ch = false) (hsize : dir.length ≤ strLimit) :
    formatDir dir home =
      if home ≠ [] ∧ home <+: dir then chTilde :: dir.drop home.length else dir := by
  have hlimit : strLimit < maxSize := by decide
  simp only [formatDir, List.isPrefixOf_iff_prefix]
  split
  · rw [appendAsPrintable_eq (fun c hc => h c (List.mem_of_mem_drop hc)) (by simp; omega)]
    rfl
  · rw [appendAsPrintable_eq h (by simp; omega)]
    rfl

theorem zero_notMem (h : ∀ ch ∈ ref, isControl ch = false) : 0 ∉ ref := fun h0 => by
  simpa [isControl] using h 0 h0

theorem atOrBelow_append (h : rest = [] ∨ rest.head? = some chSlash) :
    AtOrBelow home (home ++ rest) := by
  unfold AtOrBelow
  rcases h with rfl | h
  · exact ⟨[], by rw [List.append_nil, List.append_nil]⟩
  · cases rest with
    | nil => cases h
    | cons c rest =>
      obtain rfl : c = chSlash := by simpa using h
      rw [names_append_slash]
      exact List.prefix_append _ _

/-- No tilde at all. -/
theorem abbreviates_full (habs : dir.head? = some chSlash) (h : formatDir dir home = dir) :
    Abbreviates env provider home dir := by
  refine ⟨?_, fun _ => h⟩
  rw [h, expandTilde_of_head_ne (by rw [habs]; decide)]

/-- A tilde, and a slash or nothing behind it. -/
theorem abbreviates_slash (hhome : Denotes env provider [] home)
    (hprint : ∀ ch ∈ home ++ rest, isControl ch = false) (hsize : (home ++ rest).length ≤ strLimit)
    (hr : rest = [] ∨ rest.head? = some chSlash)
    (h : formatDir (home ++ rest) home = chTilde :: rest) :
    Abbreviates env provider home (home ++ rest) := by
  refine ⟨?_, fun hb => absurd (atOrBelow_append hr) hb⟩
  have hn : 0 ∉ [] ++ rest := fun h0 => zero_notMem hprint (List.mem_append_right home h0)
  rw [h]
  exact congrArg Prod.snd (expandTilde_of_denotes List.not_mem_nil hr hn hhome hsize)

/-- A tilde, and the rest of a name behind it. -/
theorem abbreviates_name (hprint : ∀ ch ∈ home ++ (pre ++ rest), isControl ch = false)
    (habs : (home ++ (pre ++ rest)).head? = some chSlash)
    (hsize : (home ++ (pre ++ rest)).length ≤ strLimit) (hs : chSlash ∉ pre)
    (hr : rest = [] ∨ rest.head? = some chSlash)
    (h : formatDir (home ++ (pre ++ rest)) home = chTilde :: (pre ++ rest)) :
    Abbreviates env provider home (home ++ (pre ++ rest)) ↔
      AtOrBelow home (home ++ (pre ++ rest)) ∧ Denotes env provider pre (home ++ pre) := by
  have hn : 0 ∉ pre ++ rest := fun h0 => zero_notMem hprint (List.mem_append_right home h0)
  have htilde : (home ++ (pre ++ rest)).head? ≠ some chTilde := by rw [habs]; decide
  constructor
  · intro ha
    refine ⟨Classical.byContradiction fun hb => ?_, ?_⟩
    · have := ha.full hb
      rw [h] at this
      rw [← this] at htilde
      exact htilde rfl
    · have he := ha.expands
      rw [h] at he
      obtain ⟨d, hd, hdir⟩ := expandTilde_snd hs hr hn htilde he
      rw [← List.append_assoc] at hdir
      rwa [List.append_cancel_right hdir]
  · rintro ⟨hb, hd⟩
    refine ⟨?_, fun hb' => absurd hb hb'⟩
    rw [← List.append_assoc] at hsize
    rw [h, expandTilde_of_denotes hs hr hn hd hsize, List.append_assoc]

/-- What comes before the first slash. -/
theorem exists_name (text : Bytes) : ∃ pre rest : Bytes, text = pre ++ rest ∧ chSlash ∉ pre ∧
    (rest = [] ∨ rest.head? = some chSlash) := by
  refine ⟨text.takeWhile (· ≠ chSlash), _, List.takeWhile_append_dropWhile.symm, ?_, ?_⟩
  · intro h
    simpa using List.all_eq_true.1 (@List.all_takeWhile _ _ text) _ h
  · cases hd : text.dropWhile (· ≠ chSlash) with
    | nil => exact .inl rfl
    | cons c rest =>
      right
      have := List.head?_dropWhile_not (· ≠ chSlash) text
      simp only [hd] at this
      simpa using this

/-- The text of a printable directory stands for it again if and only if there is nothing to
abbreviate, or the abbreviated part ends where a component does, or the name behind the tilde
happens to fit. -/
theorem abbreviates_iff (env : Env) (provider : Option DirStackProvider) {home dir : Bytes}
    (hhome : dirsHome env = some home) (habs : dir.head? = some chSlash)
    (hprint : ∀ ch ∈ dir, isControl ch = false) (hsize : dir.length ≤ strLimit) :
    Abbreviates env provider home dir ↔ Separated env provider home dir := by
  have hf := @formatDir_eq home dir hprint hsize
  unfold Separated
  by_cases h0 : home = []
  · rw [if_neg (by simp [h0])] at hf
    exact ⟨fun _ => .inl h0, fun _ => abbreviates_full habs hf⟩
  by_cases hp : home <+: dir
  · rw [if_pos ⟨h0, hp⟩] at hf
    obtain ⟨rest, rfl⟩ := hp
    rw [List.drop_left] at hf ⊢
    by_cases hr : rest = [] ∨ rest.head? = some chSlash
    · exact ⟨fun _ => .inr (.inr (or_assoc.1 (.inl hr))),
        fun _ => abbreviates_slash (dirsHome_eq_some hhome) hprint hsize hr hf⟩
    · obtain ⟨hr0, hr1⟩ := not_or.1 hr
      obtain ⟨pre, tail, rfl, hs, ht⟩ := exists_name rest
      rw [abbreviates_name hprint habs hsize hs ht hf, (takeWhile_name hs ht).1]
      simp only [h0, List.prefix_append, not_true_eq_false, hr0, hr1, false_or]
  · rw [if_neg (fun h => hp h.2)] at hf
    exact ⟨fun _ => .inr (.inl hp), fun _ => abbreviates_full habs hf⟩

/-- The home directory is `/h/u`, and there are no users. -/
def envSample : Env := ⟨some [47, 104, 47, 117], none, none, none, fun _ => none, 256⟩

/-- `/h/ux` is printed as `~x`. -/
theorem not_abbreviates :
    ¬ Abbreviates envSample none [47, 104, 47, 117] [47, 104, 47, 117, 120] := fun h => by
  have := h.expands
  revert this
  decide

/-- `/h/u/x` is printed as `~/x`. -/
theorem abbreviates_sample :
    Abbreviates envSample none [47, 104, 47, 117] [47, 104, 47, 117, 47, 120] :=
  (abbreviates_iff envSample none (by decide) (by decide) (by decide) (by decide)).2
    (.inr (.inr (.inr (.inl (by decide)))))

end

end Arsh.Dirs
