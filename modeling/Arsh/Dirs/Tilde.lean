import Arsh.Dirs.Paths
import Arsh.Misc.NumUtil

/-!
# Tilde expansion

`expandTilde` replaces the beginning of a text, from the tilde to the first slash, with a directory.
What stands between the two names the directory (`Denotes`): nothing for the home directory, `+` and
`-` for the working directories, a number for an entry of the directory stack, else a user.
-/

namespace Arsh.Dirs

open NumUtil

def chTilde : Nat := 126

def chPlus : Nat := 43

def chMinus : Nat := 45

/-! ## The source -/

/-- What `expandTilde` asks the system for: `getenv`, `getpwuid(getuid())`, `getpwnam` and
`sysconf(_SC_LOGIN_NAME_MAX)`. -/
structure Env where
  home : Option Bytes
  pwd : Option Bytes
  oldpwd : Option Bytes
  userDir : Option Bytes
  getpwnam : Bytes → Option Bytes
  loginNameMax : Int

structure DirStackProvider where
  size : Nat
  get : Nat → Bytes

inductive TildeExpandStatus where
  | ok
  | noTilde
  | noUser
  | noDirStack
  | undefOrEmpty
  | invalidNum
  | outOfRange
  | hasNull
  | emptyAssign
  | sizeLimit
  deriving DecidableEq, Repr

def isDecimal (ch : Nat) : Bool := 48 ≤ ch && ch ≤ 57

/-- `~`. -/
def expandHome (env : Env) (useHOME : Bool) : Except TildeExpandStatus Bytes :=
  match (if useHOME then env.home else none).or env.userDir with
  | some value => .ok value
  | none => .error .noUser

/-- `~+` and `~-`: the variable must not be empty. -/
def expandEnv : Option Bytes → Except TildeExpandStatus Bytes
  | none => .error .undefOrEmpty
  | some value => if value ≠ [] then .ok value else .error .undefOrEmpty

/-- The index of the `n`-th entry, from the right for a minus. -/
def entryIndex (size ch n : Nat) : Nat := if ch = chMinus then n else size - n

/-- `~+N`, `~-N` and `~N`. -/
def expandIndex (provider : DirStackProvider) (ch : Nat) (num : Bytes) :
    Except TildeExpandStatus Bytes :=
  let pair := (parseUnsigned Width.w64.size num 10).1
  if pair.kind ≠ .ok then .error .invalidNum
  else
    if provider.size < pair.value then .error .outOfRange
    else
      let ret := provider.get (entryIndex provider.size ch pair.value)
      if ret = [] then .error .undefOrEmpty
      else if 0 ∈ ret then .error .hasNull
      else .ok ret

/-- The prefix begins with `ch`, which is a sign or a digit. -/
def expandDirStack (env : Env) (provider : Option DirStackProvider) (ch : Nat) (pre : Bytes) :
    Except TildeExpandStatus Bytes :=
  match provider with
  | none => .error .noDirStack
  | some provider =>
    if pre = [chPlus] then expandEnv env.pwd
    else if pre = [chMinus] then expandEnv env.oldpwd
    else expandIndex provider ch (if ch = chPlus ∨ ch = chMinus then pre.tail else pre)

/-- Too large for a user name. -/
def tooLarge (env : Env) (pre : Bytes) : Bool :=
  -1 < env.loginNameMax &&
    (toUnsigned Width.w32.size env.loginNameMax + 16) % Width.w32.size ≤ pre.length

def expandUser (env : Env) (pre : Bytes) : Except TildeExpandStatus Bytes :=
  if tooLarge env pre then .error .noUser
  else
    match env.getpwnam pre with
    | some dir => .ok dir
    | none => .error .noUser

/-- The directory for what stands behind the tilde. -/
def expandPrefix (env : Env) (useHOME : Bool) (provider : Option DirStackProvider) :
    Bytes → Except TildeExpandStatus Bytes
  | [] => expandHome env useHOME
  | ch :: pre =>
    if ch = chPlus ∨ ch = chMinus ∨ isDecimal ch then expandDirStack env provider ch (ch :: pre)
    else expandUser env (ch :: pre)

/-- `expandTilde`: the status, and what `str` is afterwards. -/
def expandTilde (env : Env) (str : Bytes) (useHOME : Bool) (provider : Option DirStackProvider)
    (maxSize : Nat) : TildeExpandStatus × Bytes :=
  if str.head? ≠ some chTilde then (.noTilde, str)
  else if 0 ∈ str then (.hasNull, str)
  else
    match expandPrefix env useHOME provider (str.tail.takeWhile (· ≠ chSlash)) with
    | .error status => (status, str)
    | .ok expanded =>
      let path := str.tail.dropWhile (· ≠ chSlash)
      if expanded.length ≤ maxSize ∧ path.length ≤ maxSize - expanded.length then
        (.ok, expanded ++ path)
      else (.sizeLimit, str)

/-! ## What a name stands for -/

/-- The number of an entry: it must be there and be a directory. -/
structure Entry (provider : DirStackProvider) (index : Nat) (dir : Bytes) : Prop where
  get : provider.get index = dir
  ne_nil : dir ≠ []
  noNull : 0 ∉ dir

/-- What stands between the tilde and the slash names a directory. The entries of the directory
stack are numbered from both ends. -/
inductive Denotes (env : Env) (provider : Option DirStackProvider) : Bytes → Bytes → Prop where
  | home {dir : Bytes} : env.home.or env.userDir = some dir → Denotes env provider [] dir
  | pwd {dir : Bytes} : provider ≠ none → env.pwd = some dir → dir ≠ [] →
    Denotes env provider [chPlus] dir
  | oldpwd {dir : Bytes} : provider ≠ none → env.oldpwd = some dir → dir ≠ [] →
    Denotes env provider [chMinus] dir
  | left {p : DirStackProvider} {num dir : Bytes} {n : Nat} : provider = some p →
    UnsignedNumeral 10 num n → n ≤ p.size → n < Width.w64.size → Entry p (p.size - n) dir →
    Denotes env provider (chPlus :: num) dir
  | right {p : DirStackProvider} {num dir : Bytes} {n : Nat} : provider = some p →
    UnsignedNumeral 10 num n → n ≤ p.size → n < Width.w64.size → Entry p n dir →
    Denotes env provider (chMinus :: num) dir
  | index {p : DirStackProvider} {num dir : Bytes} {n : Nat} : provider = some p →
    Numeral 10 num n → (∃ ch ∈ num.head?, isDecimal ch) → n ≤ p.size → n < Width.w64.size →
    Entry p (p.size - n) dir → Denotes env provider num dir
  | user {name dir : Bytes} : (∃ ch ∈ name.head?, ch ≠ chPlus ∧ ch ≠ chMinus ∧ ¬ isDecimal ch) →
    tooLarge env name = false → env.getpwnam name = some dir → Denotes env provider name dir

section
variable {env : Env} {provider : Option DirStackProvider} {p : DirStackProvider}
  {pre num dir str : Bytes} {ch maxSize : Nat}

theorem expandHome_eq_ok : expandHome env true = .ok dir ↔ env.home.or env.userDir = some dir := by
  unfold expandHome
  cases h : env.home.or env.userDir with
  | none => simp [h]
  | some d => simp [h]

theorem expandEnv_eq_ok {value : Option Bytes} :
    expandEnv value = .ok dir ↔ value = some dir ∧ dir ≠ [] := by
  unfold expandEnv
  cases value with
  | none => simp
  | some d =>
    by_cases hd : d = []
    · simp only [hd, ne_eq, not_true_eq_false, if_false, Option.some.injEq, reduceCtorEq, false_iff,
        not_and, not_not]
      exact fun h => h.symm
    · simp only [hd, ne_eq, not_false_eq_true, if_true, Except.ok.injEq, Option.some.injEq]
      exact ⟨fun h => ⟨h, h ▸ hd⟩, fun h => h.1⟩

theorem expandUser_eq_ok :
    expandUser env pre = .ok dir ↔ tooLarge env pre = false ∧ env.getpwnam pre = some dir := by
  unfold expandUser
  cases ht : tooLarge env pre with
  | true => simp
  | false => cases env.getpwnam pre <;> simp

theorem parse_ok_iff {n : Nat} :
    ((parseUnsigned Width.w64.size num 10).1.kind = .ok ∧
      (parseUnsigned Width.w64.size num 10).1.value = n) ↔
    UnsignedNumeral 10 num n ∧ n < Width.w64.size := by
  obtain ⟨hn, hok⟩ := @parseUnsigned_spec 10 Width.w64.size num (.inr (by decide))
    Width.w64.size_pos.1
  constructor
  · rintro ⟨hk, rfl⟩
    obtain ⟨m, hm⟩ := hok hk
    rcases Nat.lt_or_ge m Width.w64.size with hlt | hge
    · obtain ⟨-, hv⟩ := (hn m hm).1 hlt
      rw [hv]
      exact ⟨hm, hlt⟩
    · rw [(hn m hm).2 hge] at hk
      cases hk
  · rintro ⟨hm, hlt⟩
    exact (hn n hm).1 hlt

theorem expandIndex_eq_ok : expandIndex p ch num = .ok dir ↔
    ∃ n, UnsignedNumeral 10 num n ∧ n < Width.w64.size ∧ n ≤ p.size ∧
      Entry p (entryIndex p.size ch n) dir := by
  unfold expandIndex
  dsimp only
  constructor
  · intro h
    split at h
    · cases h
    · next hk =>
      obtain ⟨hnum, hlt⟩ := parse_ok_iff.1 ⟨not_not.1 hk, rfl⟩
      split at h
      · cases h
      · next hsize =>
        split at h
        · cases h
        · next hne =>
          split at h
          · cases h
          · next hnul =>
            obtain rfl := Except.ok.inj h
            exact ⟨_, hnum, hlt, by omega, rfl, hne, hnul⟩
  · rintro ⟨n, hnum, hlt, hsize, hget, hne, hnul⟩
    obtain ⟨hk, hv⟩ := parse_ok_iff.2 ⟨hnum, hlt⟩
    rw [hv, if_neg (not_not.2 hk), if_neg (by omega), hget, if_neg hne, if_neg hnul]

theorem sign_ne {num : Bytes} (h : num ≠ []) : ch :: num ≠ [chPlus] ∧ ch :: num ≠ [chMinus] := by
  cases num with
  | nil => exact absurd rfl h
  | cons d num => simp

theorem decimal_ne (h : isDecimal ch) : ch ≠ chPlus ∧ ch ≠ chMinus := by
  constructor <;> (rintro rfl; exact absurd h (by decide))

theorem unsignedNumeral_ne_nil {n : Nat} (h : UnsignedNumeral 10 num n) : num ≠ [] := by
  rintro rfl
  rcases h with h | ⟨ds, h, -⟩
  · cases h with
    | digits hb h => exact h.ne_nil rfl
  · cases h

theorem expandDirStack_of_denotes (h : Denotes env provider (ch :: pre) dir)
    (hc : ch = chPlus ∨ ch = chMinus ∨ isDecimal ch) :
    expandDirStack env provider ch (ch :: pre) = .ok dir := by
  cases h with
  | pwd hp hv hne =>
    obtain ⟨p, rfl⟩ := Option.ne_none_iff_exists'.1 hp
    exact expandEnv_eq_ok.2 ⟨hv, hne⟩
  | oldpwd hp hv hne =>
    obtain ⟨p, rfl⟩ := Option.ne_none_iff_exists'.1 hp
    exact expandEnv_eq_ok.2 ⟨hv, hne⟩
  | left hp hn hle hlt he =>
    obtain ⟨h1, h2⟩ := @sign_ne chPlus _ (unsignedNumeral_ne_nil hn)
    subst hp
    simp only [expandDirStack, if_neg h1, if_neg h2, true_or, if_true, List.tail_cons]
    exact expandIndex_eq_ok.2 ⟨_, hn, hlt, hle, he⟩
  | right hp hn hle hlt he =>
    obtain ⟨h1, h2⟩ := @sign_ne chMinus _ (unsignedNumeral_ne_nil hn)
    subst hp
    simp only [expandDirStack, if_neg h1, if_neg h2, or_true, if_true, List.tail_cons]
    exact expandIndex_eq_ok.2 ⟨_, hn, hlt, hle, he⟩
  | index hp hn hd hle hlt he =>
    obtain ⟨h1, h2⟩ := decimal_ne (by simpa using hd)
    subst hp
    simp only [expandDirStack, List.cons.injEq, h1, h2, false_and, or_self, if_false]
    refine expandIndex_eq_ok.2 ⟨_, .inl hn, hlt, hle, ?_⟩
    rwa [entryIndex, if_neg h2]
  | user hname =>
    obtain ⟨h1, h2, h3⟩ : ch ≠ chPlus ∧ ch ≠ chMinus ∧ ¬ isDecimal ch := by simpa using hname
    exact absurd hc (by simp [h1, h2, h3])

/-- A sign or a digit. -/
theorem expandDirStack_eq_ok (hc : ch = chPlus ∨ ch = chMinus ∨ isDecimal ch) :
    expandDirStack env provider ch (ch :: pre) = .ok dir ↔
      Denotes env provider (ch :: pre) dir := by
  refine ⟨fun h => ?_, fun h => expandDirStack_of_denotes h hc⟩
  cases provider with
  | none => cases h
  | some p =>
    simp only [expandDirStack] at h
    split at h
    · next hpre =>
      obtain ⟨hv, hne⟩ := expandEnv_eq_ok.1 h
      rw [hpre]
      exact .pwd (by simp) hv hne
    · split at h
      · next hpre =>
        obtain ⟨hv, hne⟩ := expandEnv_eq_ok.1 h
        rw [hpre]
        exact .oldpwd (by simp) hv hne
      · obtain ⟨n, hn, hlt, hle, he⟩ := expandIndex_eq_ok.1 h
        rcases hc with rfl | rfl | hd
        · exact .left rfl hn hle hlt he
        · exact .right rfl hn hle hlt he
        · obtain ⟨h1, h2⟩ := decimal_ne hd
          rw [if_neg (by simp [h1, h2])] at hn
          rw [entryIndex, if_neg h2] at he
          rcases hn with hn | ⟨ds, hds, -⟩
          · exact .index rfl hn (by simpa using hd) hle hlt he
          · exact absurd (List.cons.inj hds).1 h1

/-- What `expandTilde` finds is what the name stands for. -/
theorem expandPrefix_eq_ok :
    expandPrefix env true provider pre = .ok dir ↔ Denotes env provider pre dir := by
  cases pre with
  | nil =>
    rw [expandPrefix, expandHome_eq_ok]
    refine ⟨.home, fun h => ?_⟩
    cases h with
    | home h => exact h
    | index hp hn hd => simp at hd
    | user hname => simp at hname
  | cons ch pre =>
    rw [expandPrefix]
    by_cases hc : ch = chPlus ∨ ch = chMinus ∨ isDecimal ch
    · rw [if_pos hc, expandDirStack_eq_ok hc]
    · rw [if_neg hc, expandUser_eq_ok]
      have hch : ch ≠ chPlus ∧ ch ≠ chMinus ∧ ¬ isDecimal ch := by simpa using hc
      refine ⟨fun ⟨ht, hu⟩ => .user (by simpa using hch) ht hu, fun h => ?_⟩
      cases h with
      | pwd => exact absurd rfl hch.1
      | oldpwd => exact absurd rfl hch.2.1
      | left => exact absurd rfl hch.1
      | right => exact absurd rfl hch.2.1
      | index hp hn hd => exact absurd (by simpa using hd) hch.2.2
      | user hname ht hu => exact ⟨ht, hu⟩

/-- A text without a tilde stays as it is. -/
theorem expandTilde_of_head_ne (h : str.head? ≠ some chTilde) :
    expandTilde env str true provider maxSize = (.noTilde, str) := if_pos h

theorem takeWhile_name {rest : Bytes} (hs : chSlash ∉ pre)
    (hr : rest = [] ∨ rest.head? = some chSlash) :
    (pre ++ rest).takeWhile (· ≠ chSlash) = pre ∧ (pre ++ rest).dropWhile (· ≠ chSlash) = rest := by
  have hp : ∀ x ∈ pre, decide (x ≠ chSlash) = true := fun x hx => by
    simpa using fun h : x = chSlash => hs (h ▸ hx)
  rw [List.takeWhile_append_of_pos hp, List.dropWhile_append_of_pos hp]
  rcases hr with rfl | hr
  · simp
  · cases rest with
    | nil => cases hr
    | cons c rest =>
      obtain rfl : c = chSlash := by simpa using hr
      simp

/-- A tilde, a name, and what follows from a slash on. -/
theorem expandTilde_eq {rest : Bytes} (hs : chSlash ∉ pre)
    (hr : rest = [] ∨ rest.head? = some chSlash) (hn : 0 ∉ pre ++ rest) :
    expandTilde env (chTilde :: (pre ++ rest)) true provider maxSize =
      match expandPrefix env true provider pre with
      | .error status => (status, chTilde :: (pre ++ rest))
      | .ok d =>
        if (d ++ rest).length ≤ maxSize then (.ok, d ++ rest)
        else (.sizeLimit, chTilde :: (pre ++ rest)) := by
  obtain ⟨htake, hdrop⟩ := takeWhile_name hs hr
  have hn' : 0 ∉ chTilde :: (pre ++ rest) := by
    rw [List.mem_cons, not_or]
    exact ⟨by decide, hn⟩
  rw [expandTilde, if_neg (by simp), if_neg hn', List.tail_cons, htake, hdrop]
  cases expandPrefix env true provider pre with
  | error status => rfl
  | ok d =>
    have hsize : d.length ≤ maxSize ∧ rest.length ≤ maxSize - d.length ↔
        (d ++ rest).length ≤ maxSize := by
      rw [List.length_append]
      omega
    simp only [hsize]

theorem expandTilde_of_denotes {rest : Bytes} (hs : chSlash ∉ pre)
    (hr : rest = [] ∨ rest.head? = some chSlash) (hn : 0 ∉ pre ++ rest)
    (hd : Denotes env provider pre dir) (hsize : (dir ++ rest).length ≤ maxSize) :
    expandTilde env (chTilde :: (pre ++ rest)) true provider maxSize = (.ok, dir ++ rest) := by
  rw [expandTilde_eq hs hr hn, expandPrefix_eq_ok.2 hd]
  exact if_pos hsize

/-- The text becomes one without a tilde only if its name stands for a directory. -/
theorem expandTilde_snd {rest : Bytes} (hs : chSlash ∉ pre)
    (hr : rest = [] ∨ rest.head? = some chSlash) (hn : 0 ∉ pre ++ rest)
    (hdir : dir.head? ≠ some chTilde)
    (h : (expandTilde env (chTilde :: (pre ++ rest)) true provider maxSize).2 = dir) :
    ∃ d, Denotes env provider pre d ∧ dir = d ++ rest := by
  rw [expandTilde_eq hs hr hn] at h
  cases he : expandPrefix env true provider pre with
  | error status =>
    rw [he] at h
    exact absurd (by rw [← h]; rfl) hdir
  | ok d =>
    rw [he] at h
    dsimp only at h
    split at h
    · exact ⟨d, expandPrefix_eq_ok.1 he, h.symm⟩
    · exact absurd (by rw [← h]; rfl) hdir

end

end Arsh.Dirs
