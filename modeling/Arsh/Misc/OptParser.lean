import Mathlib.Data.List.Basic
import Mathlib.Tactic.Common
import Mathlib.Algebra.GroupWithZero.Nat

/-!
# The option parser

`OptParser` (`misc/opt_parser.hpp`): recognizes one option of an argument vector at a time. A text
has one character for each byte. `next_mem` and `next_size_lt`: a call that recognizes an option
has it from its table and leaves less to read.
-/

namespace Arsh

abbrev Text := List Char

inductive OptParseOp where
  | noArg
  /-- requires an additional argument -/
  | hasArg
  /-- may have an additional argument -/
  | optArg
  deriving DecidableEq, Repr

/-- One option. `shortOptName` is `none` and `longOptName` is empty where there is no such name. -/
structure OptParseOption (T : Type) where
  kind : T
  op : OptParseOp
  shortOptName : Option Char
  longOptName : Text
  argName : Text
  deriving DecidableEq, Repr

inductive OptParseResult (T : Type) where
  /-- recognizes an option -/
  | ok (opt : T) (shortOpt : Bool)
  /-- recognizes an option and its argument -/
  | okArg (opt : T) (shortOpt : Bool) (arg : Text)
  | undef (shortOpt : Bool) (name : Text)
  | needArg (opt : T) (shortOpt : Bool) (name : Text)
  /-- stops parsing -/
  | reachEnd
  deriving DecidableEq, Repr

namespace OptParseResult

variable {T : Type}

def optPrefix (shortOpt : Bool) : Text := if shortOpt then ['-'] else ['-', '-']

/-- `formatError`, for the two kinds of error. -/
def formatError : OptParseResult T → Option Text
  | undef shortOpt name => some ("invalid option: ".toList ++ optPrefix shortOpt ++ name)
  | needArg _ shortOpt name => some (optPrefix shortOpt ++ name ++ " option needs argument".toList)
  | _ => none

end OptParseResult

/-- What an `OptParser` has not read yet: the rest of a group of short options, and the arguments
from `begin` to `end` (a group stays the first argument until its last option is read). -/
structure Scanner where
  remain : Text
  args : List Text
  deriving DecidableEq, Repr

namespace Scanner

variable {T : Type}

/-- The loop of `matchLongOption`; the first argument is `--` and `longName`. -/
def matchLongOption (arg longName : Text) (rest : List Text) :
    List (OptParseOption T) → OptParseResult T × Scanner
  | [] => (.undef false (longName.takeWhile (· ≠ '=')), ⟨[], arg :: rest⟩)
  | option :: options =>
    if option.longOptName = [] then matchLongOption arg longName rest options
    else match option.op with
      | .noArg =>
        if option.longOptName = longName then (.ok option.kind false, ⟨[], rest⟩)
        else matchLongOption arg longName rest options
      | op =>
        if option.longOptName.isPrefixOf longName then
          match longName.drop option.longOptName.length with
          | [] =>
            if op = .optArg then (.ok option.kind false, ⟨[], rest⟩)
            else match rest with
              | next :: rest => (.okArg option.kind false next, ⟨[], rest⟩)
              | [] => (.needArg option.kind false longName, ⟨[], []⟩)
          | c :: v =>
            if c = '=' then (.okArg option.kind false v, ⟨[], rest⟩)
            else matchLongOption arg longName rest options
        else matchLongOption arg longName rest options

/-- The loop of `matchShortOption`; `s :: remain` is what remains of the group. -/
def matchShortOption (s : Char) (remain : Text) (args : List Text) :
    List (OptParseOption T) → OptParseResult T × Scanner
  | [] => (.undef true [s], ⟨s :: remain, args⟩)
  | option :: options =>
    if option.shortOptName ≠ some s then matchShortOption s remain args options
    else match option.op with
      | .noArg => (.ok option.kind true, ⟨remain, if remain = [] then args.tail else args⟩)
      | op =>
        if remain = [] then
          if op = .optArg then (.ok option.kind true, ⟨[], args.tail⟩)
          else match args.tail with
            | next :: rest => (.okArg option.kind true next, ⟨[], rest⟩)
            | [] => (.needArg option.kind true [s], ⟨[], []⟩)
        else (.okArg option.kind true remain, ⟨[], args.tail⟩)

/-- `OptParser::operator()`. -/
def next (options : List (OptParseOption T)) (st : Scanner) : OptParseResult T × Scanner :=
  match st.remain with
  | s :: remain => matchShortOption s remain st.args options
  | [] =>
    match st.args with
    | [] => (.reachEnd, st)
    | arg :: rest =>
      match arg with
      | '-' :: '-' :: [] => (.reachEnd, ⟨[], rest⟩)
      | '-' :: '-' :: longName => matchLongOption arg longName rest options
      | '-' :: s :: remain => matchShortOption s remain st.args options
      | _ => (.reachEnd, st)

/-! ## Progress -/

/-- The bytes of the arguments and their ends. -/
def argsSize (args : List Text) : Nat := (args.map fun arg => arg.length + 1).sum

/-- What is left to read. -/
def size (st : Scanner) : Nat :=
  if st.remain = [] then argsSize st.args else st.remain.length + argsSize st.args.tail

/-- The option that a result recognizes. -/
def recognized : OptParseResult T → Option T
  | .ok opt _ => some opt
  | .okArg opt _ _ => some opt
  | _ => none

@[simp] theorem argsSize_cons (arg : Text) (args : List Text) :
    argsSize (arg :: args) = arg.length + 1 + argsSize args := by
  simp [argsSize]

theorem argsSize_tail (args : List Text) : argsSize args.tail ≤ argsSize args := by
  cases args with
  | nil => exact Nat.le_refl _
  | cons arg args =>
    rw [List.tail_cons, argsSize_cons]
    omega

/-- A long option takes its own argument, and perhaps the next. -/
theorem matchLongOption_cases (arg longName : Text) (rest : List Text)
    (options : List (OptParseOption T)) :
    recognized (matchLongOption arg longName rest options).1 = none ∨
      ∃ option ∈ options,
        recognized (matchLongOption arg longName rest options).1 = some option.kind ∧
        (matchLongOption arg longName rest options).2.remain = [] ∧
        ∃ k, (matchLongOption arg longName rest options).2.args = rest.drop k := by
  induction options with
  | nil => exact .inl rfl
  | cons option options ih =>
    have hskip : recognized (matchLongOption arg longName rest options).1 = none ∨
        ∃ o ∈ option :: options,
          recognized (matchLongOption arg longName rest options).1 = some o.kind ∧
          (matchLongOption arg longName rest options).2.remain = [] ∧
          ∃ k, (matchLongOption arg longName rest options).2.args = rest.drop k := by
      apply ih.imp_right
      rintro ⟨o, ho, h⟩
      exact ⟨o, List.mem_cons_of_mem _ ho, h⟩
    unfold matchLongOption
    split
    · exact hskip
    split
    · split
      · exact .inr ⟨option, List.mem_cons_self .., rfl, rfl, 0, rfl⟩
      · exact hskip
    · split
      · split
        · split
          · exact .inr ⟨option, List.mem_cons_self .., rfl, rfl, 0, rfl⟩
          · split
            · exact .inr ⟨option, List.mem_cons_self .., rfl, rfl, 1, rfl⟩
            · exact .inl rfl
        · split
          · exact .inr ⟨option, List.mem_cons_self .., rfl, rfl, 0, rfl⟩
          · exact hskip
      · exact hskip

theorem matchShortOption_cases (s : Char) (remain : Text) (args : List Text)
    (options : List (OptParseOption T)) :
    recognized (matchShortOption s remain args options).1 = none ∨
      ∃ option ∈ options,
        recognized (matchShortOption s remain args options).1 = some option.kind ∧
        ((matchShortOption s remain args options).2 = ⟨remain, args⟩ ∧ remain ≠ [] ∨
          (matchShortOption s remain args options).2.remain = [] ∧
          ∃ k, (matchShortOption s remain args options).2.args = args.tail.drop k) := by
  induction options with
  | nil => exact .inl rfl
  | cons option options ih =>
    unfold matchShortOption
    split
    · apply ih.imp_right
      rintro ⟨o, ho, h⟩
      exact ⟨o, List.mem_cons_of_mem _ ho, h⟩
    split
    · refine .inr ⟨option, List.mem_cons_self .., rfl, ?_⟩
      by_cases hr : remain = []
      · exact .inr ⟨hr, 0, by rw [if_pos hr]; rfl⟩
      · exact .inl ⟨by rw [if_neg hr], hr⟩
    · split
      · split
        · exact .inr ⟨option, List.mem_cons_self .., rfl, .inr ⟨rfl, 0, rfl⟩⟩
        · split
          · next next rest htail =>
            exact .inr ⟨option, List.mem_cons_self .., rfl, .inr ⟨rfl, 1, by rw [htail]; rfl⟩⟩
          · exact .inl rfl
      · exact .inr ⟨option, List.mem_cons_self .., rfl, .inr ⟨rfl, 0, rfl⟩⟩

theorem argsSize_drop (args : List Text) (k : Nat) : argsSize (args.drop k) ≤ argsSize args := by
  induction k generalizing args with
  | zero => exact Nat.le_refl _
  | succ k ih =>
    rw [← List.drop_tail]
    exact Nat.le_trans (ih _) (argsSize_tail args)

theorem size_matchShortOption {s : Char} {remain : Text} {args : List Text}
    {options : List (OptParseOption T)} {opt : T}
    (h : recognized (matchShortOption s remain args options).1 = some opt) :
    (matchShortOption s remain args options).2.size ≤ remain.length + argsSize args.tail := by
  rcases matchShortOption_cases s remain args options with hn | ⟨-, -, -, hst⟩
  · rw [hn] at h
    cases h
  rcases hst with ⟨hst, hr⟩ | ⟨hr, k, hk⟩
  · apply Nat.le_of_eq
    rw [hst, size, if_neg hr]
  · rw [size, if_pos hr, hk]
    have := argsSize_drop args.tail k
    omega

/-- A call that recognizes an option recognizes one of its options. -/
theorem next_mem {options : List (OptParseOption T)} {st : Scanner} {opt : T}
    (h : recognized (next options st).1 = some opt) : ∃ option ∈ options, option.kind = opt := by
  have hlong : ∀ arg longName rest, recognized (matchLongOption arg longName rest options).1 =
      some opt → ∃ option ∈ options, option.kind = opt := by
    intro arg longName rest h
    rcases matchLongOption_cases arg longName rest options with hn | ⟨o, ho, hk, -⟩
    · rw [hn] at h
      cases h
    · rw [hk, Option.some.injEq] at h
      exact ⟨o, ho, h⟩
  have hshort : ∀ s remain args, recognized (matchShortOption s remain args options).1 =
      some opt → ∃ option ∈ options, option.kind = opt := by
    intro s remain args h
    rcases matchShortOption_cases s remain args options with hn | ⟨o, ho, hk, -⟩
    · rw [hn] at h
      cases h
    · rw [hk, Option.some.injEq] at h
      exact ⟨o, ho, h⟩
  unfold next at h
  split at h
  · exact hshort _ _ _ h
  · split at h
    · cases h
    · split at h
      · cases h
      · exact hlong _ _ _ h
      · exact hshort _ _ _ h
      · cases h

/-- A call that recognizes an option leaves less to read. -/
theorem next_size_lt {options : List (OptParseOption T)} {st : Scanner} {opt : T}
    (h : recognized (next options st).1 = some opt) : (next options st).2.size < st.size := by
  obtain ⟨remain, args⟩ := st
  unfold next at h ⊢
  cases remain with
  | cons s remain =>
    simp only at h ⊢
    have := size_matchShortOption h
    simp only [size, List.cons_ne_nil, if_false, List.length_cons] at this ⊢
    omega
  | nil =>
    cases args with
    | nil => cases h
    | cons arg rest =>
      simp only at h ⊢
      split at h
      · cases h
      · next longName _ =>
        rcases matchLongOption_cases ('-' :: '-' :: longName) longName rest options with
          hn | ⟨-, -, -, hr, k, hk⟩
        · rw [hn] at h
          cases h
        · have := argsSize_drop rest k
          simp only [size, if_true, argsSize_cons]
          rw [if_pos hr, hk]
          omega
      · have := size_matchShortOption h
        simp only [size, if_true, argsSize_cons, List.tail_cons, List.length_cons] at this ⊢
        omega
      · cases h

theorem matchLongOption_args (arg longName : Text) (rest : List Text)
    (options : List (OptParseOption T)) :
    (matchLongOption arg longName rest options).2.args.length ≤ rest.length + 1 := by
  induction options with
  | nil => exact Nat.le_refl _
  | cons option options ih =>
    unfold matchLongOption
    split
    · exact ih
    split
    · split
      · exact Nat.le_succ _
      · exact ih
    · split
      · split
        · split
          · exact Nat.le_succ _
          · split
            · simp only [List.length_cons]
              omega
            · exact Nat.zero_le _
        · split
          · exact Nat.le_succ _
          · exact ih
      · exact ih

theorem matchShortOption_args (s : Char) (remain : Text) (args : List Text)
    (options : List (OptParseOption T)) :
    (matchShortOption s remain args options).2.args.length ≤ args.length := by
  have htail : args.tail.length ≤ args.length := by
    rw [List.length_tail]
    omega
  induction options with
  | nil => exact Nat.le_refl _
  | cons option options ih =>
    unfold matchShortOption
    split
    · exact ih
    split
    · simp only
      split
      · exact htail
      · exact Nat.le_refl _
    · split
      · split
        · exact htail
        · split
          · next next rest hrest =>
            rw [hrest, List.length_cons] at htail
            simp only
            omega
          · exact Nat.zero_le _
      · exact htail

/-- A call leaves no more arguments than there are. -/
theorem next_args (options : List (OptParseOption T)) (st : Scanner) :
    (next options st).2.args.length ≤ st.args.length := by
  unfold next
  split
  · exact matchShortOption_args ..
  · split
    · exact Nat.le_refl _
    · next arg rest hargs =>
      split
      · rw [hargs]
        exact Nat.le_succ _
      · rw [hargs]
        exact matchLongOption_args ..
      · exact matchShortOption_args ..
      · exact Nat.le_refl _

end Scanner

end Arsh
