import Arsh.Misc.OptParser
import Mathlib.Data.List.Perm.Basic

/-!
# The grammar of options

What the arguments of a command line say when they are read as options: groups of short options, long
options, and what ends them. The names of a table are looked up, so its order has no part in the
grammar. `readOptions_iff`: the option parser, called again and again, reads arguments as the grammar does.
-/

namespace Arsh

variable {T : Type}

/-! ## Tables -/

/-- The names of the options are distinct, and the long ones have no `=`. -/
structure OptNames (options : List (OptParseOption T)) : Prop where
  short : options.Pairwise fun a b => ∀ s, a.shortOptName = some s → b.shortOptName ≠ some s
  long : options.Pairwise fun a b => a.longOptName ≠ [] → a.longOptName ≠ b.longOptName
  noEq : ∀ option ∈ options, '=' ∉ option.longOptName

def HasShort (options : List (OptParseOption T)) (s : Char) (op : OptParseOp) (kind : T) : Prop :=
  ∃ option ∈ options, option.shortOptName = some s ∧ option.op = op ∧ option.kind = kind

def HasLong (options : List (OptParseOption T)) (name : Text) (op : OptParseOp) (kind : T) : Prop :=
  name ≠ [] ∧ ∃ option ∈ options, option.longOptName = name ∧ option.op = op ∧ option.kind = kind

/-! ## The grammar -/

/-- How an option has its argument. -/
inductive OptArg where
  | none
  | attached (arg : Text)
  | following (arg : Text)
  deriving DecidableEq, Repr

namespace OptArg

/-- An optional argument is attached. -/
def Allowed : OptParseOp → OptArg → Prop
  | .noArg, none | .hasArg, attached _ | .hasArg, following _ | .optArg, none | .optArg, attached _ =>
    True
  | _, _ => False

/-- What follows the name of a short option. -/
def shortText : OptArg → Text
  | attached arg => arg
  | _ => []

/-- What follows the name of a long option. -/
def longText : OptArg → Text
  | attached arg => '=' :: arg
  | _ => []

/-- The argument of its own that the option's argument is. -/
def words : OptArg → List Text
  | following arg => [arg]
  | _ => []

def result (kind : T) (shortOpt : Bool) : OptArg → OptParseResult T
  | none => .ok kind shortOpt
  | attached arg | following arg => .okArg kind shortOpt arg

end OptArg

/-- The text of a group up to an option, from the options before it. -/
def groupText (flags : List (Char × T)) (s : Char) : Text := flags.map Prod.fst ++ [s]

/-- One argument that is options, perhaps with the next one. -/
inductive OptItem (T : Type) where
  /-- `-abs`, `-absARG`, `-abs ARG`: only the last option may have an argument -/
  | group (flags : List (Char × T)) (s : Char) (kind : T) (arg : OptArg)
  /-- `--name`, `--name=ARG`, `--name ARG` -/
  | long (name : Text) (kind : T) (arg : OptArg)

/-- A group does not look like a long option, and the options before its last one are flags. -/
structure GroupOk (options : List (OptParseOption T)) (flags : List (Char × T)) (s : Char) : Prop where
  flag : ∀ f ∈ flags, HasShort options f.1 .noArg f.2
  head : (groupText flags s).head? ≠ some '-'

namespace OptItem

def Ok (options : List (OptParseOption T)) : OptItem T → Prop
  | group flags s kind arg => GroupOk options flags s ∧ arg ≠ .attached [] ∧
    ∃ op, HasShort options s op kind ∧ arg.Allowed op
  | long name kind arg => ∃ op, HasLong options name op kind ∧ arg.Allowed op

/-- The arguments. -/
def words : OptItem T → List Text
  | group flags s _ arg => ('-' :: groupText flags s ++ arg.shortText) :: arg.words
  | long name _ arg => ('-' :: '-' :: name ++ arg.longText) :: arg.words

def flagResults (flags : List (Char × T)) : List (OptParseResult T) :=
  flags.map fun f => .ok f.2 true

def results : OptItem T → List (OptParseResult T)
  | group flags _ kind arg => flagResults flags ++ [arg.result kind true]
  | long _ kind arg => [arg.result kind false]

end OptItem

/-- How the options end. -/
inductive OptEnd (T : Type) where
  /-- no argument is left, or the next one is no option -/
  | operand (rest : List Text)
  /-- `--` -/
  | mark (rest : List Text)
  | undefShort (flags : List (Char × T)) (s : Char) (tail : Text) (rest : List Text)
  | undefLong (text : Text) (rest : List Text)
  | needShort (flags : List (Char × T)) (s : Char) (kind : T)
  | needLong (name : Text) (kind : T)

/-- The name in the text of a long option. -/
def nameOf (text : Text) : Text := text.takeWhile (· ≠ '=')

def isOperand : Text → Bool
  | '-' :: _ :: _ => false
  | _ => true

namespace OptEnd

/-- No option has the name; a value that is given to a flag counts as an undefined option. -/
def Ok (options : List (OptParseOption T)) : OptEnd T → Prop
  | operand rest => ∀ arg ∈ rest.head?, isOperand arg = true
  | mark _ => True
  | undefShort flags s _ _ => GroupOk options flags s ∧ ∀ op kind, ¬ HasShort options s op kind
  | undefLong text _ => text ≠ [] ∧
    ∀ op kind, HasLong options (nameOf text) op kind → op = .noArg ∧ '=' ∈ text
  | needShort flags s kind => GroupOk options flags s ∧ HasShort options s .hasArg kind
  | needLong name kind => HasLong options name .hasArg kind

/-- The arguments that are read. -/
def words : OptEnd T → List Text
  | mark _ => [['-', '-']]
  | needShort flags s _ => ['-' :: groupText flags s]
  | needLong name _ => ['-' :: '-' :: name]
  | _ => []

/-- The arguments that are left. -/
def rest : OptEnd T → List Text
  | operand rest | mark rest => rest
  | undefShort flags s tail rest => ('-' :: groupText flags s ++ tail) :: rest
  | undefLong text rest => ('-' :: '-' :: text) :: rest
  | needShort .. | needLong .. => []

def results : OptEnd T → List (OptParseResult T)
  | operand _ | mark _ => [.reachEnd]
  | undefShort flags s _ _ => OptItem.flagResults flags ++ [.undef true [s]]
  | undefLong text _ => [.undef false (nameOf text)]
  | needShort flags s kind => OptItem.flagResults flags ++ [.needArg kind true [s]]
  | needLong name kind => [.needArg kind false name]

end OptEnd

/-- The arguments are options, and what ends them. -/
structure OptReading (options : List (OptParseOption T)) (args : List Text) where
  items : List (OptItem T)
  stop : OptEnd T
  items_ok : ∀ item ∈ items, item.Ok options
  stop_ok : stop.Ok options
  args_eq : args = items.flatMap OptItem.words ++ stop.words ++ stop.rest

def OptReading.results {options : List (OptParseOption T)} {args : List Text}
    (r : OptReading options args) : List (OptParseResult T) :=
  r.items.flatMap OptItem.results ++ r.stop.results

namespace Scanner

variable {options options' : List (OptParseOption T)} {s : Char} {kind : T} {remain : Text}
  {args rest : List Text}

/-! ## Looking up names -/

theorem matchShortOption_of_mem (hn : OptNames options) {option : OptParseOption T}
    (ho : option ∈ options) (hs : option.shortOptName = some s) :
    matchShortOption s remain args options = matchShortOption s remain args [option] := by
  obtain ⟨hn, -, -⟩ := hn
  induction options with
  | nil => cases ho
  | cons o os ih =>
    obtain ⟨hhead, hos⟩ := List.pairwise_cons.1 hn
    rcases List.mem_cons.1 ho with rfl | ho
    · rw [matchShortOption, matchShortOption, if_neg (not_not.2 hs), if_neg (not_not.2 hs)]
    · rw [matchShortOption, if_pos fun h => hhead _ ho s h hs]
      exact ih ho hos

theorem matchShortOption_of_not_mem (h : ∀ op kind, ¬ HasShort options s op kind) :
    matchShortOption s remain args options = (.undef true [s], ⟨s :: remain, args⟩) := by
  induction options with
  | nil => rfl
  | cons o os ih =>
    rw [matchShortOption, if_pos fun hs => h _ _ ⟨o, List.mem_cons_self .., hs, rfl, rfl⟩]
    apply ih
    rintro op kind ⟨option, ho, hopt⟩
    exact h op kind ⟨option, List.mem_cons_of_mem _ ho, hopt⟩

/-- A flag leaves the rest of its group. -/
theorem matchShortOption_flag (hn : OptNames options) (h : HasShort options s .noArg kind) :
    matchShortOption s remain args options =
      (.ok kind true, ⟨remain, if remain = [] then args.tail else args⟩) := by
  obtain ⟨option, ho, hs, hop, rfl⟩ := h
  rw [matchShortOption_of_mem hn ho hs, matchShortOption, if_neg (not_not.2 hs), hop]

/-- The last option of a group, with the argument that the grammar gives it. -/
theorem matchShortOption_last (hn : OptNames options) {op : OptParseOp} {arg : OptArg}
    (h : HasShort options s op kind) (hallowed : arg.Allowed op) (harg : arg ≠ .attached [])
    {word : Text} :
    matchShortOption s arg.shortText (word :: (arg.words ++ args)) options =
      (arg.result kind true, ⟨[], args⟩) := by
  cases op with
  | noArg =>
    cases arg with
    | none => exact (matchShortOption_flag hn h).trans rfl
    | attached _ => cases hallowed
    | following _ => cases hallowed
  | hasArg =>
    obtain ⟨option, ho, hs, hop, rfl⟩ := h
    rw [matchShortOption_of_mem hn ho hs, matchShortOption, if_neg (not_not.2 hs), hop]
    cases arg with
    | none => cases hallowed
    | attached arg => exact if_neg fun h => harg (congrArg _ h)
    | following arg => rfl
  | optArg =>
    obtain ⟨option, ho, hs, hop, rfl⟩ := h
    rw [matchShortOption_of_mem hn ho hs, matchShortOption, if_neg (not_not.2 hs), hop]
    cases arg with
    | none => rfl
    | attached arg => exact if_neg fun h => harg (congrArg _ h)
    | following _ => cases hallowed

theorem matchShortOption_need (hn : OptNames options) (h : HasShort options s .hasArg kind)
    {word : Text} :
    matchShortOption s [] [word] options = (.needArg kind true [s], ⟨[], []⟩) := by
  obtain ⟨option, ho, hs, hop, rfl⟩ := h
  rw [matchShortOption_of_mem hn ho hs, matchShortOption, if_neg (not_not.2 hs), hop]
  rfl

/-- The text of a long option is its name, perhaps with a value. -/
theorem text_cases (text : Text) :
    text = nameOf text ∧ '=' ∉ text ∨ ∃ v, text = nameOf text ++ '=' :: v ∧ '=' ∈ text := by
  induction text with
  | nil => exact .inl ⟨rfl, nofun⟩
  | cons c text ih =>
    by_cases hc : c = '='
    · subst hc
      exact .inr ⟨text, rfl, List.mem_cons_self ..⟩
    · have hname : nameOf (c :: text) = c :: nameOf text :=
        List.takeWhile_cons_of_pos (decide_eq_true hc)
      rw [hname]
      rcases ih with ⟨h, hmem⟩ | ⟨v, h, hmem⟩
      · refine .inl ⟨by rw [← h], ?_⟩
        rw [List.mem_cons, not_or]
        exact ⟨fun h => hc h.symm, hmem⟩
      · exact .inr ⟨v, by rw [List.cons_append, ← h], List.mem_cons_of_mem _ hmem⟩

theorem nameOf_self {name : Text} (h : '=' ∉ name) : nameOf name = name := by
  rcases text_cases name with ⟨hname, -⟩ | ⟨-, -, hmem⟩
  · exact hname.symm
  · exact absurd hmem h

theorem nameOf_append {name v : Text} (h : '=' ∉ name) : nameOf (name ++ '=' :: v) = name := by
  unfold nameOf
  rw [List.takeWhile_append_of_pos]
  · exact List.append_nil _
  · intro c hc
    exact decide_eq_true fun heq => h (heq ▸ hc)

/-- An option with another name is skipped, even if its name begins the text. -/
theorem matchLongOption_skip {option : OptParseOption T} {arg text : Text}
    (heq : '=' ∉ option.longOptName)
    (hname : option.longOptName = [] ∨ option.longOptName ≠ nameOf text) :
    matchLongOption arg text rest (option :: options) = matchLongOption arg text rest options := by
  conv_lhs => unfold matchLongOption
  by_cases hnil : option.longOptName = []
  · rw [if_pos hnil]
  rw [if_neg hnil]
  have hne := hname.resolve_left hnil
  have hself : option.longOptName ≠ text := fun h => hne (by rw [← h, nameOf_self heq])
  have hvalue : ∀ v, option.longOptName ++ '=' :: v ≠ text := fun v h =>
    hne (by rw [← h, nameOf_append heq])
  split
  · rw [if_neg hself]
  · split
    · next hprefix =>
      obtain ⟨t, rfl⟩ := List.isPrefixOf_iff_prefix.1 hprefix
      rw [List.drop_left]
      cases t with
      | nil => exact absurd (List.append_nil _).symm hself
      | cons c v =>
        dsimp only
        rw [if_neg]
        rintro rfl
        exact hvalue v rfl
    · rfl

theorem matchLongOption_skip_all {arg text : Text} (heq : ∀ option ∈ options, '=' ∉ option.longOptName)
    (h : ∀ option ∈ options, option.longOptName = [] ∨ option.longOptName ≠ nameOf text) :
    matchLongOption arg text rest options = (.undef false (nameOf text), ⟨[], arg :: rest⟩) := by
  induction options with
  | nil => rfl
  | cons o os ih =>
    obtain ⟨heqo, heqs⟩ := List.forall_mem_cons.1 heq
    obtain ⟨ho, hos⟩ := List.forall_mem_cons.1 h
    rw [matchLongOption_skip heqo ho]
    exact ih heqs hos

theorem matchLongOption_of_mem (hn : OptNames options) {option : OptParseOption T} {arg text : Text}
    (ho : option ∈ options) (hnil : option.longOptName ≠ [])
    (hname : option.longOptName = nameOf text) :
    matchLongOption arg text rest options = matchLongOption arg text rest [option] := by
  obtain ⟨-, hn, heq⟩ := hn
  induction options with
  | nil => cases ho
  | cons o os ih =>
    obtain ⟨hhead, hos⟩ := List.pairwise_cons.1 hn
    obtain ⟨heqo, heqs⟩ := List.forall_mem_cons.1 heq
    rcases List.mem_cons.1 ho with rfl | ho
    · have hskip : matchLongOption arg text rest os = matchLongOption arg text rest [] :=
        matchLongOption_skip_all heqs fun o ho =>
          .inr fun h => hhead o ho hnil (hname.trans h.symm)
      unfold matchLongOption
      rw [hskip]
    · rw [matchLongOption_skip heqo]
      · exact ih ho hos heqs
      · by_cases hnil' : o.longOptName = []
        · exact .inl hnil'
        · exact .inr fun h => hhead _ ho hnil' (h.trans hname.symm)

theorem matchLongOption_undef (hn : OptNames options) {arg text : Text}
    (h : ∀ op kind, HasLong options (nameOf text) op kind → op = .noArg ∧ '=' ∈ text) :
    matchLongOption arg text rest options = (.undef false (nameOf text), ⟨[], arg :: rest⟩) := by
  by_cases hmem : ∃ option ∈ options, option.longOptName ≠ [] ∧ option.longOptName = nameOf text
  · obtain ⟨option, ho, hnil, hname⟩ := hmem
    rw [matchLongOption_of_mem hn ho hnil hname]
    obtain ⟨hop, heq⟩ := h option.op option.kind ⟨hname ▸ hnil, option, ho, hname, rfl, rfl⟩
    unfold matchLongOption
    rw [if_neg hnil, hop]
    rw [if_neg]
    · rfl
    · intro h
      rw [← h] at heq
      exact hn.noEq option ho heq
  · apply matchLongOption_skip_all hn.noEq
    intro option ho
    by_cases hnil : option.longOptName = []
    · exact .inl hnil
    · exact .inr fun hname => hmem ⟨option, ho, hnil, hname⟩

theorem isPrefixOf_append {α : Type} [BEq α] [LawfulBEq α] (a b : List α) :
    a.isPrefixOf (a ++ b) = true := List.isPrefixOf_iff_prefix.2 (List.prefix_append a b)

/-- A long option, with the argument that the grammar gives it. -/
theorem matchLongOption_item (hn : OptNames options) {name : Text} {op : OptParseOp} {arg : OptArg}
    (h : HasLong options name op kind) (hallowed : arg.Allowed op) {word : Text} :
    matchLongOption word (name ++ arg.longText) (arg.words ++ rest) options =
      (arg.result kind false, ⟨[], rest⟩) := by
  obtain ⟨hnil, option, ho, rfl, hop, rfl⟩ := h
  have heq := hn.noEq option ho
  have hname : option.longOptName = nameOf (option.longOptName ++ arg.longText) := by
    cases arg with
    | attached v => exact (nameOf_append heq).symm
    | none | following _ => exact (List.append_nil _).symm ▸ (nameOf_self heq).symm
  rw [matchLongOption_of_mem hn ho hnil hname]
  unfold matchLongOption
  rw [if_neg hnil, hop, isPrefixOf_append, List.drop_left]
  cases op with
  | noArg =>
    cases arg with
    | none => exact if_pos (List.append_nil _).symm
    | attached _ | following _ => cases hallowed
  | hasArg =>
    cases arg with
    | none => cases hallowed
    | attached _ | following _ => rfl
  | optArg =>
    cases arg with
    | none | attached _ => rfl
    | following _ => cases hallowed

theorem matchLongOption_need (hn : OptNames options) {name : Text} (h : HasLong options name .hasArg kind)
    {word : Text} :
    matchLongOption word name [] options = (.needArg kind false name, ⟨[], []⟩) := by
  obtain ⟨hnil, option, ho, rfl, hop, rfl⟩ := h
  rw [matchLongOption_of_mem hn ho hnil (nameOf_self (hn.noEq option ho)).symm]
  have hprefix := isPrefixOf_append option.longOptName []
  rw [List.append_nil] at hprefix
  unfold matchLongOption
  rw [if_neg hnil, hop, hprefix, List.drop_length]
  rfl

/-- The order of the options has no part. -/
theorem next_perm (hn : OptNames options) (hn' : OptNames options')
    (hmem : ∀ option, option ∈ options ↔ option ∈ options') (st : Scanner) :
    next options st = next options' st := by
  have hshort : ∀ s remain args, matchShortOption s remain args options =
      matchShortOption s remain args options' := by
    intro s remain args
    by_cases h : ∃ option ∈ options, option.shortOptName = some s
    · obtain ⟨option, ho, hs⟩ := h
      rw [matchShortOption_of_mem hn ho hs, matchShortOption_of_mem hn' ((hmem _).1 ho) hs]
    · rw [matchShortOption_of_not_mem, matchShortOption_of_not_mem]
      · rintro op kind ⟨option, ho, hs, -⟩
        exact h ⟨option, (hmem _).2 ho, hs⟩
      · rintro op kind ⟨option, ho, hs, -⟩
        exact h ⟨option, ho, hs⟩
  have hlong : ∀ arg text rest, matchLongOption arg text rest options =
      matchLongOption arg text rest options' := by
    intro arg text rest
    by_cases h : ∃ option ∈ options, option.longOptName ≠ [] ∧ option.longOptName = nameOf text
    · obtain ⟨option, ho, hnil, hname⟩ := h
      rw [matchLongOption_of_mem hn ho hnil hname,
        matchLongOption_of_mem hn' ((hmem _).1 ho) hnil hname]
    · rw [matchLongOption_undef hn, matchLongOption_undef hn']
      · rintro op kind ⟨hnil, option, ho, hname, -⟩
        exact absurd ⟨option, (hmem _).2 ho, hname ▸ hnil, hname⟩ h
      · rintro op kind ⟨hnil, option, ho, hname, -⟩
        exact absurd ⟨option, ho, hname ▸ hnil, hname⟩ h
  unfold next
  simp only [hshort, hlong]

/-! ## Calls -/

/-- The calls of a parser until it ends or reports an error: the results, and the scanner at the end.
`fuel` bounds the calls. -/
def readOptions (options : List (OptParseOption T)) :
    Nat → Scanner → List (OptParseResult T) × Scanner
  | 0, st => ([], st)
  | fuel + 1, st =>
    let (ret, st) := next options st
    if (recognized ret).isSome then
      let (rets, last) := readOptions options fuel st
      (ret :: rets, last)
    else ([ret], st)

/-- The results of the calls from a scanner on, and the scanner at the end. -/
inductive Reads (options : List (OptParseOption T)) :
    Scanner → List (OptParseResult T) → Scanner → Prop
  | last {st st' : Scanner} {ret : OptParseResult T} (h : next options st = (ret, st'))
      (hret : recognized ret = none) : Reads options st [ret] st'
  | call {st st' last : Scanner} {ret : OptParseResult T} {opt : T} {rets : List (OptParseResult T)}
      (h : next options st = (ret, st')) (hret : recognized ret = some opt)
      (hreads : Reads options st' rets last) : Reads options st (ret :: rets) last

theorem readOptions_of_reads {fuel : Nat} {st last : Scanner} {rets : List (OptParseResult T)}
    (h : Reads options st rets last) (hfuel : st.size < fuel) :
    readOptions options fuel st = (rets, last) := by
  induction h generalizing fuel with
  | @last st st' ret h hret =>
    obtain ⟨fuel, rfl⟩ : ∃ k, fuel = k + 1 := ⟨fuel - 1, by omega⟩
    rw [readOptions, h]
    exact if_neg (by rw [hret]; exact Bool.false_ne_true)
  | @call st st' last ret opt rets h hret _ ih =>
    obtain ⟨fuel, rfl⟩ : ∃ k, fuel = k + 1 := ⟨fuel - 1, by omega⟩
    have hlt := @next_size_lt T options st opt (by rw [h]; exact hret)
    rw [h] at hlt
    rw [readOptions, h]
    show (if (recognized ret).isSome then _ else _) = _
    rw [hret, ih (by dsimp only at hlt; omega)]
    rfl

/-! ## A parser reads what the grammar says -/

/-- The next option of a group that has been read in part. -/
theorem next_group {t : Text} : next options ⟨s :: t, args⟩ = matchShortOption s t args options := rfl

theorem reads_flags (hn : OptNames options) {flags : List (Char × T)} {t word : Text}
    {rets : List (OptParseResult T)} {last : Scanner}
    (hflags : ∀ f ∈ flags, HasShort options f.1 .noArg f.2) (ht : t ≠ [])
    (h : Reads options ⟨t, word :: rest⟩ rets last) :
    Reads options ⟨flags.map Prod.fst ++ t, word :: rest⟩ (OptItem.flagResults flags ++ rets) last := by
  induction flags with
  | nil => exact h
  | cons f flags ih =>
    obtain ⟨hf, hflags⟩ := List.forall_mem_cons.1 hflags
    refine .call ?_ rfl (ih hflags)
    rw [List.map_cons, List.cons_append, next_group, matchShortOption_flag hn hf, if_neg]
    exact fun h => ht (List.append_eq_nil_iff.1 h).2

/-- A group begins like a group that has been read in part goes on. -/
theorem reads_group {t : Text} {rets : List (OptParseResult T)} {last : Scanner} (ht : t ≠ [])
    (hhead : t.head? ≠ some '-') (h : Reads options ⟨t, ('-' :: t) :: rest⟩ rets last) :
    Reads options ⟨[], ('-' :: t) :: rest⟩ rets last := by
  have hnext : next options ⟨[], ('-' :: t) :: rest⟩ = next options ⟨t, ('-' :: t) :: rest⟩ := by
    cases t with
    | nil => exact absurd rfl ht
    | cons c t =>
      have hc : c ≠ '-' := fun h => hhead (congrArg some h)
      unfold next
      split <;> simp_all
  cases h with
  | last h hret => exact .last (hnext.trans h) hret
  | call h hret hreads => exact .call (hnext.trans h) hret hreads

theorem head?_groupText (flags : List (Char × T)) (s : Char) (t : Text) :
    (groupText flags s ++ t).head? = (groupText flags s).head? := by
  cases flags <;> rfl

/-- The options of a group up to one that the parser goes on from. -/
theorem reads_groupText (hn : OptNames options) {flags : List (Char × T)} {t : Text}
    {ret : List (OptParseResult T)} {last : Scanner} (h : GroupOk options flags s)
    (hreads : Reads options ⟨s :: t, ('-' :: groupText flags s ++ t) :: rest⟩ ret last) :
    Reads options ⟨[], ('-' :: groupText flags s ++ t) :: rest⟩ (OptItem.flagResults flags ++ ret)
      last := by
  have htext : groupText flags s ++ t = flags.map Prod.fst ++ s :: t := List.append_assoc ..
  have hne : groupText flags s ++ t ≠ [] := by
    rw [htext]
    exact List.append_ne_nil_of_right_ne_nil _ (List.cons_ne_nil _ _)
  apply reads_group hne (by rw [head?_groupText]; exact h.head)
  rw [List.cons_append] at hreads
  have hall := reads_flags hn h.flag (List.cons_ne_nil s t) hreads
  rwa [← htext] at hall

theorem next_long {text : Text} (h : text ≠ []) : next options ⟨[], ('-' :: '-' :: text) :: rest⟩ =
    matchLongOption ('-' :: '-' :: text) text rest options := by
  cases text with
  | nil => exact absurd rfl h
  | cons c text => rfl

theorem next_operand (h : ∀ arg ∈ args.head?, isOperand arg = true) :
    next options ⟨[], args⟩ = (.reachEnd, ⟨[], args⟩) := by
  cases args with
  | nil => rfl
  | cons arg args =>
    have harg := h arg rfl
    unfold isOperand at harg
    unfold next
    split at harg <;> simp_all

theorem recognized_result {shortOpt : Bool} {arg : OptArg} :
    recognized (arg.result kind shortOpt) = some kind := by
  cases arg <;> rfl

theorem reads_item (hn : OptNames options) {item : OptItem T} (hitem : item.Ok options)
    {rets : List (OptParseResult T)} {last : Scanner} (h : Reads options ⟨[], args⟩ rets last) :
    Reads options ⟨[], item.words ++ args⟩ (item.results ++ rets) last := by
  cases item with
  | group flags s kind arg =>
    obtain ⟨hgroup, harg, op, hs, hallowed⟩ := hitem
    show Reads options ⟨[], _ :: (arg.words ++ args)⟩ (_ ++ [_] ++ rets) last
    rw [List.append_assoc]
    apply reads_groupText hn hgroup
    refine .call ?_ recognized_result h
    rw [next_group, matchShortOption_last hn hs hallowed harg]
  | long name kind arg =>
    obtain ⟨op, hname, hallowed⟩ := hitem
    refine .call ?_ recognized_result h
    show next options ⟨[], ('-' :: '-' :: (name ++ arg.longText)) :: (arg.words ++ args)⟩ = _
    rw [next_long fun h => hname.1 (List.append_eq_nil_iff.1 h).1,
      matchLongOption_item hn hname hallowed]

theorem reads_end (hn : OptNames options) {stop : OptEnd T} (hstop : stop.Ok options) :
    ∃ last, Reads options ⟨[], stop.words ++ stop.rest⟩ stop.results last ∧ last.args = stop.rest := by
  cases stop with
  | operand rest => exact ⟨_, .last (next_operand hstop) rfl, rfl⟩
  | mark rest => exact ⟨_, .last rfl rfl, rfl⟩
  | undefShort flags s tail rest =>
    obtain ⟨hgroup, hs⟩ := hstop
    exact ⟨_, reads_groupText hn hgroup (.last (matchShortOption_of_not_mem hs) rfl), rfl⟩
  | undefLong text rest =>
    obtain ⟨htext, h⟩ := hstop
    exact ⟨_, .last ((next_long htext).trans (matchLongOption_undef hn h)) rfl, rfl⟩
  | needShort flags s kind =>
    obtain ⟨hgroup, hs⟩ := hstop
    have hlast : Reads options ⟨[s], ['-' :: groupText flags s ++ []]⟩ [.needArg kind true [s]] ⟨[], []⟩ :=
      .last (matchShortOption_need hn hs) rfl
    have hreads := reads_groupText hn hgroup hlast
    rw [List.append_nil] at hreads
    exact ⟨_, hreads, rfl⟩
  | needLong name kind =>
    exact ⟨_, .last ((next_long hstop.1).trans (matchLongOption_need hn hstop)) rfl, rfl⟩

theorem reads_reading (hn : OptNames options) (r : OptReading options args) :
    ∃ last, Reads options ⟨[], args⟩ r.results last ∧ last.args = r.stop.rest := by
  obtain ⟨items, stop, hitems, hstop, rfl⟩ := r
  unfold OptReading.results
  dsimp only
  rw [List.append_assoc]
  induction items with
  | nil => exact reads_end hn hstop
  | cons item items ih =>
    obtain ⟨hitem, hitems⟩ := List.forall_mem_cons.1 hitems
    obtain ⟨last, hreads, hlast⟩ := ih hitems
    rw [List.flatMap_cons, List.flatMap_cons, List.append_assoc, List.append_assoc]
    exact ⟨last, reads_item hn hitem hreads, hlast⟩

/-! ## The grammar covers all arguments -/

/-- A name has one option. -/
theorem hasLong_unique (hn : OptNames options) {name : Text} {op op' : OptParseOp} {kind' : T}
    (h : HasLong options name op kind) (h' : HasLong options name op' kind') : op = op' := by
  obtain ⟨hnil, option, ho, rfl, rfl, -⟩ := h
  obtain ⟨-, option', ho', hname, rfl, -⟩ := h'
  have hsame : ∀ a ∈ options, ∀ b ∈ options, a.longOptName ≠ [] → a.longOptName = b.longOptName →
      a.op = b.op := by
    intro a ha b hb
    refine List.Pairwise.forall_of_forall_of_flip (R := fun a b : OptParseOption T =>
      a.longOptName ≠ [] → a.longOptName = b.longOptName → a.op = b.op) (fun _ _ _ _ => rfl)
      (hn.long.imp fun h hnil heq => absurd heq (h hnil))
      (hn.long.imp fun h hnil heq => absurd heq.symm (h (by rw [← heq]; exact hnil))) ha hb
  exact hsame option ho option' ho' hnil hname.symm

/-- What a group is: flags, and then an option that takes the rest, or a character that is no
option. -/
theorem group_cases {t : Text} (ht : t ≠ []) : ∃ (flags : List (Char × T)) (s : Char) (tail : Text),
    t = groupText flags s ++ tail ∧ (∀ f ∈ flags, HasShort options f.1 .noArg f.2) ∧
      ((∀ op kind, ¬ HasShort options s op kind) ∨
        ∃ op kind, HasShort options s op kind ∧ (op = .noArg → tail = [])) := by
  induction t with
  | nil => exact absurd rfl ht
  | cons c t ih =>
    by_cases hc : ∃ op kind, HasShort options c op kind
    · obtain ⟨op, kind, hc⟩ := hc
      by_cases hflag : op = .noArg ∧ t ≠ []
      · obtain ⟨rfl, ht⟩ := hflag
        obtain ⟨flags, s, tail, rfl, hflags, hlast⟩ := ih ht
        exact ⟨(c, kind) :: flags, s, tail, rfl, List.forall_mem_cons.2 ⟨hc, hflags⟩, hlast⟩
      · exact ⟨[], c, t, rfl, nofun, .inr ⟨op, kind, hc, fun h =>
          Decidable.not_not.1 fun ht => hflag ⟨h, ht⟩⟩⟩
    · exact ⟨[], c, t, rfl, nofun, .inl fun op kind h => hc ⟨op, kind, h⟩⟩

/-- A reading of the arguments behind an item. -/
def consReading (item : OptItem T) (hitem : item.Ok options) (r : OptReading options args) :
    OptReading options (item.words ++ args) where
  items := item :: r.items
  stop := r.stop
  items_ok := List.forall_mem_cons.2 ⟨hitem, r.items_ok⟩
  stop_ok := r.stop_ok
  args_eq := by
    conv_lhs => rw [r.args_eq]
    rw [List.flatMap_cons, List.append_assoc, List.append_assoc, List.append_assoc]

/-- A reading of no options. -/
def stopReading (stop : OptEnd T) (hstop : stop.Ok options) :
    OptReading options (stop.words ++ stop.rest) where
  items := []
  stop := stop
  items_ok := nofun
  stop_ok := hstop
  args_eq := rfl

theorem exists_group_reading {t : Text} (ht : t ≠ []) (hhead : t.head? ≠ some '-')
    (ih : ∀ k, Nonempty (OptReading options (rest.drop k))) :
    Nonempty (OptReading options (('-' :: t) :: rest)) := by
  obtain ⟨flags, s, tail, rfl, hflags, hlast⟩ := @group_cases T options t ht
  rw [head?_groupText] at hhead
  rcases hlast with hs | ⟨op, kind, hs, htail⟩
  · exact ⟨stopReading (.undefShort flags s tail rest) ⟨⟨hflags, hhead⟩, hs⟩⟩
  · obtain ⟨r⟩ := ih 0
    rw [List.drop_zero] at r
    have hnone (hallowed : OptArg.Allowed op .none) (h : tail = []) :
        Nonempty (OptReading options (('-' :: (groupText flags s ++ tail)) :: rest)) := by
      subst h
      exact ⟨consReading (.group flags s kind .none) ⟨⟨hflags, hhead⟩, nofun, op, hs, hallowed⟩ r⟩
    have hattached (hallowed : OptArg.Allowed op (.attached tail)) (h : tail ≠ []) :
        Nonempty (OptReading options (('-' :: (groupText flags s ++ tail)) :: rest)) :=
      ⟨consReading (.group flags s kind (.attached tail)) ⟨⟨hflags, hhead⟩, fun he => h (by
        cases he
        rfl), op, hs, hallowed⟩ r⟩
    by_cases hnil : tail = []
    · cases op with
      | noArg | optArg => exact hnone trivial hnil
      | hasArg =>
        subst hnil
        rw [List.append_nil]
        cases rest with
        | nil => exact ⟨stopReading (.needShort flags s kind) ⟨⟨hflags, hhead⟩, hs⟩⟩
        | cons next rest =>
          obtain ⟨r⟩ := ih 1
          have := consReading (.group flags s kind (.following next))
            ⟨⟨hflags, hhead⟩, nofun, .hasArg, hs, trivial⟩ r
          simp only [OptItem.words, OptArg.shortText, List.append_nil] at this
          exact ⟨this⟩
    · cases op with
      | noArg => exact absurd (htail rfl) hnil
      | hasArg | optArg => exact hattached trivial hnil

theorem exists_long_reading (hn : OptNames options) {text : Text} (ht : text ≠ [])
    (ih : ∀ k, Nonempty (OptReading options (rest.drop k))) :
    Nonempty (OptReading options (('-' :: '-' :: text) :: rest)) := by
  obtain ⟨r⟩ := ih 0
  rw [List.drop_zero] at r
  by_cases h : ∃ op kind, HasLong options (nameOf text) op kind
  · obtain ⟨op, kind, h⟩ := h
    rcases text_cases text with ⟨htext, heq⟩ | ⟨v, htext, heq⟩
    · rw [htext]
      have hnone (hallowed : OptArg.Allowed op .none) :
          Nonempty (OptReading options (('-' :: '-' :: nameOf text) :: rest)) := by
        have := consReading (.long (nameOf text) kind .none) ⟨op, h, hallowed⟩ r
        simp only [OptItem.words, OptArg.longText, List.append_nil] at this
        exact ⟨this⟩
      cases op with
      | noArg | optArg => exact hnone trivial
      | hasArg =>
        cases rest with
        | nil => exact ⟨stopReading (.needLong (nameOf text) kind) h⟩
        | cons next rest =>
          obtain ⟨r⟩ := ih 1
          have := consReading (.long (nameOf text) kind (.following next)) ⟨.hasArg, h, trivial⟩ r
          simp only [OptItem.words, OptArg.longText, List.append_nil] at this
          exact ⟨this⟩
    · cases op with
      | noArg =>
        exact ⟨stopReading (.undefLong text rest) ⟨ht, fun _ _ h' => ⟨hasLong_unique hn h' h, heq⟩⟩⟩
      | hasArg | optArg =>
        rw [htext]
        exact ⟨consReading (.long (nameOf text) kind (.attached v)) ⟨_, h, trivial⟩ r⟩
  · exact ⟨stopReading (.undefLong text rest) ⟨ht, fun op kind h' => absurd ⟨op, kind, h'⟩ h⟩⟩

theorem exists_reading (hn : OptNames options) (args : List Text) :
    Nonempty (OptReading options args) := by
  obtain ⟨n, hlen⟩ : ∃ n, args.length ≤ n := ⟨_, Nat.le_refl _⟩
  induction n generalizing args with
  | zero =>
    obtain rfl := List.length_eq_zero_iff.1 (Nat.le_zero.1 hlen)
    exact ⟨stopReading (.operand []) nofun⟩
  | succ n ih =>
    cases args with
    | nil => exact ⟨stopReading (.operand []) nofun⟩
    | cons arg rest =>
      have hrest k : Nonempty (OptReading options (rest.drop k)) := by
        apply ih
        rw [List.length_cons] at hlen
        rw [List.length_drop]
        omega
      by_cases hop : isOperand arg = true
      · exact ⟨stopReading (.operand (arg :: rest)) fun a ha => by
          cases ha
          exact hop⟩
      · unfold isOperand at hop
        split at hop
        · next c t =>
          by_cases hc : c = '-'
          · subst hc
            by_cases ht : t = []
            · subst ht
              exact ⟨stopReading (.mark rest) trivial⟩
            · exact exists_long_reading hn ht hrest
          · exact exists_group_reading (List.cons_ne_nil c t) (fun h => hc (by
              cases h
              rfl)) hrest
        · exact absurd rfl hop

/-! ## The scanners of a parser -/

/-- The scanners that calls lead to. -/
inductive Called (options : List (OptParseOption T)) (args : List Text) : Scanner → Prop
  | start : Called options args ⟨[], args⟩
  | next {st : Scanner} (h : Called options args st) : Called options args (next options st).2

/-- What remains of a group is the end of the argument the scanner is at. -/
def InGroup (st : Scanner) : Prop :=
  st.remain ≠ [] → ∃ read rest, st.args = ('-' :: read ++ st.remain) :: rest

theorem matchShortOption_scanner (read : Text) (options : List (OptParseOption T)) :
    InGroup (matchShortOption s remain (('-' :: read ++ s :: remain) :: rest) options).2 ∧
      (matchShortOption s remain (('-' :: read ++ s :: remain) :: rest) options).2.args <:+
        ('-' :: read ++ s :: remain) :: rest := by
  induction options with
  | nil => exact ⟨fun _ => ⟨read, rest, rfl⟩, List.suffix_refl _⟩
  | cons o os ih =>
    unfold matchShortOption
    split
    · exact ih
    split
    · by_cases hr : remain = []
      · rw [if_pos hr]
        exact ⟨fun h => absurd hr h, List.suffix_cons _ _⟩
      · rw [if_neg hr]
        exact ⟨fun _ => ⟨read ++ [s], rest, by simp⟩, List.suffix_refl _⟩
    · split
      · split
        · exact ⟨fun h => absurd rfl h, List.suffix_cons _ _⟩
        · split
          · next next tail htail =>
            rw [List.tail_cons] at htail
            rw [htail]
            exact ⟨fun h => absurd rfl h, (List.suffix_cons _ _).trans (List.suffix_cons _ _)⟩
          · exact ⟨fun h => absurd rfl h, List.nil_suffix⟩
      · exact ⟨fun h => absurd rfl h, List.suffix_cons _ _⟩

theorem matchLongOption_scanner {arg text : Text} (options : List (OptParseOption T)) :
    InGroup (matchLongOption arg text rest options).2 ∧
      (matchLongOption arg text rest options).2.args <:+ arg :: rest := by
  induction options with
  | nil => exact ⟨fun h => absurd rfl h, List.suffix_refl _⟩
  | cons o os ih =>
    unfold matchLongOption
    split
    · exact ih
    split
    · split
      · exact ⟨fun h => absurd rfl h, List.suffix_cons _ _⟩
      · exact ih
    · split
      · split
        · split
          · exact ⟨fun h => absurd rfl h, List.suffix_cons _ _⟩
          · split
            · exact ⟨fun h => absurd rfl h, (List.suffix_cons _ _).trans (List.suffix_cons _ _)⟩
            · exact ⟨fun h => absurd rfl h, List.nil_suffix⟩
        · split
          · exact ⟨fun h => absurd rfl h, List.suffix_cons _ _⟩
          · exact ih
      · exact ih

/-- A call goes forward in the arguments, and a group that is read in part is not left. -/
theorem next_scanner {st : Scanner} (h : InGroup st) :
    InGroup (next options st).2 ∧ (next options st).2.args <:+ st.args := by
  obtain ⟨remain, args⟩ := st
  unfold next
  cases remain with
  | cons s remain =>
    obtain ⟨read, rest, hargs⟩ := h (List.cons_ne_nil _ _)
    dsimp only at hargs ⊢
    rw [hargs]
    exact matchShortOption_scanner read options
  | nil =>
    dsimp only
    split
    · exact ⟨h, List.suffix_refl _⟩
    · split
      · exact ⟨fun h => absurd rfl h, List.suffix_cons _ _⟩
      · exact matchLongOption_scanner options
      · exact matchShortOption_scanner [] options
      · exact ⟨h, List.suffix_refl _⟩

theorem called_scanner {st : Scanner} (h : Called options args st) :
    InGroup st ∧ st.args <:+ args := by
  induction h with
  | start => exact ⟨fun h => absurd rfl h, List.suffix_refl _⟩
  | next _ ih =>
    obtain ⟨hgroup, hargs⟩ := @next_scanner T options _ ih.1
    exact ⟨hgroup, hargs.trans ih.2⟩

/-- The calls of an option parser read the arguments as the grammar does, and leave what it leaves; they
stay in the arguments, and do the same for the options in another order. -/
theorem readOptions_iff (hn : OptNames options) (args : List Text) (fuel : Nat)
    (hfuel : argsSize args < fuel) :
    (∀ rets rest, (∃ last, readOptions options fuel ⟨[], args⟩ = (rets, last) ∧ last.args = rest) ↔
      ∃ r : OptReading options args, r.results = rets ∧ r.stop.rest = rest) ∧
    (∀ st, Called options args st → InGroup st ∧ st.args <:+ args) ∧
    ∀ options', options.Perm options' → ∀ st, next options' st = next options st := by
  have hsize : Scanner.size ⟨[], args⟩ < fuel := hfuel
  refine ⟨fun rets rest => ⟨?_, ?_⟩, fun st => called_scanner, fun options' hperm st => ?_⟩
  · rintro ⟨last, hread, rfl⟩
    obtain ⟨r⟩ := exists_reading hn args
    obtain ⟨last', hreads, hrest⟩ := reads_reading hn r
    rw [readOptions_of_reads hreads hsize] at hread
    cases hread
    exact ⟨r, rfl, hrest.symm⟩
  · rintro ⟨r, rfl, rfl⟩
    obtain ⟨last, hreads, hrest⟩ := reads_reading hn r
    exact ⟨last, readOptions_of_reads hreads hsize, hrest⟩
  · refine (next_perm hn ⟨?_, ?_, ?_⟩ (fun _ => hperm.mem_iff) st).symm
    · refine (hperm.pairwise_iff ?_).1 hn.short
      exact fun h s hs hs' => h s hs' hs
    · refine (hperm.pairwise_iff ?_).1 hn.long
      exact fun h hnil heq => h (heq ▸ hnil) heq.symm
    · exact fun option ho => hn.noEq option (hperm.mem_iff.2 ho)

/-- A flag, an option with an argument whose name begins that of another, and one that may have an
argument. -/
def sampleOptions : List (OptParseOption Nat) :=
  [⟨0, .noArg, some 'a', "all".toList, []⟩, ⟨1, .hasArg, some 'o', "out".toList, []⟩,
    ⟨2, .optArg, none, "out-dir".toList, []⟩]

theorem optNames_sample : OptNames sampleOptions where
  short := by simp [sampleOptions]
  long := by simp [sampleOptions]
  noEq := by simp [sampleOptions]

/-- `-ao x --out-dir=d -- -a` is three options, and `-a` is left. -/
theorem readOptions_iff_sample :
    ∃ r : OptReading sampleOptions
        ["-ao".toList, "x".toList, "--out-dir=d".toList, "--".toList, "-a".toList],
      r.results = [.ok 0 true, .okArg 1 true ['x'], .okArg 2 false ['d'], .reachEnd] ∧
        r.stop.rest = ["-a".toList] := by
  refine ((readOptions_iff optNames_sample _ 100 (by decide)).1 _ _).1 ⟨⟨[], ["-a".toList]⟩, ?_, rfl⟩
  decide

end Scanner

end Arsh
