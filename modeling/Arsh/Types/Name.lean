import Mathlib.Data.List.TakeWhile
import Mathlib.Tactic.Common

/-!
# Type names

The names that the type pool gives to types (`toReifiedTypeName`, `toTupleTypeName`,
`toFunctionTypeName`, `toQualifiedTypeName`, `toModTypeName`). A name has no escapes, but it can be
read back: `readType` takes the name of a type off a text that goes on with what may follow a type.
An option type is its element and a question mark, so a reader does not know it before it has read
the element; a function type ends with its return type, so its option type has parentheses.
-/

namespace Arsh.Types

abbrev Text := List Char

/-- The types that `TypePool::TypePool` makes first. -/
def baseTypeNames : List String :=
  ["<unresolved>", "process guard%%", "Any", "Void", "Nothing", "%Eq_", "%Ord_", "%Value_", "Int",
    "Float", "Bool", "String", "Regex", "RegexMatch", "Signal", "Signals", "Throwable", "Error",
    "Job", "Jobs", "Module", "%StringIter", "FD", "ProcSubst", "Reader", "Command", "LineEditor",
    "CLI", "Candidates", "UnicodeData"]

/-- The types derived from `Error`. -/
def errorTypeNames : List String :=
  ["ArithmeticError", "OutOfRangeError", "KeyNotFoundError", "TypeCastError", "SystemError",
    "StackOverflowError", "RegexSyntaxError", "RegexMatchError", "TildeError", "GlobError",
    "UnwrapError", "IllegalAccessError", "InvalidOperationError", "ExecError", "CLIError",
    "ArgumentError"]

/-- What ends a shell. -/
def exitTypeNames : List String := ["ShellExit", "AssertionFailed"]

/-- The types that have a name of their own. -/
def builtinTypeNames : List String := baseTypeNames ++ errorTypeNames ++ exitTypeNames

/-- A type that is not made from others: a builtin type, a module, or what a script defines in a
module (an error type, a record or a CLI record). -/
inductive Leaf where
  | builtin (name : Text)
  | mod (modId : Nat)
  | user (modId : Nat) (name : Text)
  deriving DecidableEq, Repr

/-- The structure of a type. -/
inductive Ty where
  | leaf (a : Leaf)
  | array (e : Ty)
  | map (k v : Ty)
  | tuple (es : List Ty)
  | func (ret : Ty) (params : List Ty)
  | option (e : Ty)

namespace Ty

def isFuncType : Ty → Bool
  | .func _ _ => true
  | _ => false

def isOptionType : Ty → Bool
  | .option _ => true
  | _ => false

end Ty

/-! ## Names -/

inductive TypeTemplate where
  | array
  | map
  | tuple
  | option
  | func
  deriving DecidableEq, Repr

def TypeTemplate.getName : TypeTemplate → Text
  | .array => "Array".toList
  | .map => "Map".toList
  | .tuple => "Tuple".toList
  | .option => "Option".toList
  | .func => "Func".toList

def toModTypeName (modId : Nat) : Text := '%' :: 'm' :: 'o' :: 'd' :: Nat.toDigits 10 modId

def toQualifiedTypeName (name : Text) (belongedModId : Nat) : Text :=
  toModTypeName belongedModId ++ '.' :: name

/-- Names one after another, with commas between them. -/
def joinNames : List Text → Text
  | [] => []
  | [x] => x
  | x :: xs => x ++ ',' :: ' ' :: joinNames xs

/-- `toReifiedTypeName`, from the names of the element types; the option template asks whether its
element is a function type. -/
def toReifiedTypeName (typeTemplate : TypeTemplate) (isFuncType : Bool) (names : List Text) : Text :=
  match typeTemplate with
  | .array => '[' :: names.getD 0 [] ++ [']']
  | .map => '[' :: names.getD 0 [] ++ ' ' :: ':' :: ' ' :: names.getD 1 [] ++ [']']
  | .option =>
    if isFuncType then '(' :: names.getD 0 [] ++ [')', '?'] else names.getD 0 [] ++ ['?']
  | t => t.getName ++ '<' :: joinNames names ++ ['>']

def toTupleTypeName (names : List Text) : Text :=
  '(' :: joinNames names ++ if names.length = 1 then [',', ')'] else [')']

def toFunctionTypeName (returnName : Text) (paramNames : List Text) : Text :=
  '(' :: joinNames paramNames ++ ')' :: ' ' :: '-' :: '>' :: ' ' :: returnName

def Leaf.name : Leaf → Text
  | .builtin name => name
  | .mod modId => toModTypeName modId
  | .user modId name => toQualifiedTypeName name modId

mutual

/-- The name that the pool gives to a type. -/
def Ty.name : Ty → Text
  | .leaf a => a.name
  | .array e => toReifiedTypeName .array false [e.name]
  | .map k v => toReifiedTypeName .map false [k.name, v.name]
  | .tuple es => toTupleTypeName (Ty.names es)
  | .func ret params => toFunctionTypeName ret.name (Ty.names params)
  | .option e => toReifiedTypeName .option e.isFuncType [e.name]

def Ty.names : List Ty → List Text
  | [] => []
  | t :: ts => t.name :: Ty.names ts

end

theorem Ty.names_eq_map (ts : List Ty) : Ty.names ts = ts.map Ty.name := by
  induction ts with
  | nil => rfl
  | cons t ts ih => rw [Ty.names, ih, List.map_cons]

/-! ## Well-formed types -/

/-- `[_a-zA-Z][_0-9a-zA-Z]*`. -/
def isIdentifier (name : Text) : Bool :=
  match name with
  | [] => false
  | c :: cs => (c.isAlpha || c == '_') && cs.all fun c => c.isAlphanum || c == '_'

/-- A name of the constructor, or an identifier of a script. -/
def Leaf.WF : Leaf → Prop
  | .builtin name => name ∈ builtinTypeNames.map String.toList
  | .mod _ => True
  | .user _ name => isIdentifier name = true

/-- What the constructors of the pool make: a tuple has elements, and the option type of an option
type is that type. -/
inductive Ty.WF : Ty → Prop
  | leaf {a : Leaf} (h : a.WF) : WF (.leaf a)
  | array {e : Ty} (h : WF e) : WF (.array e)
  | map {k v : Ty} (hk : WF k) (hv : WF v) : WF (.map k v)
  | tuple {es : List Ty} (hne : es ≠ []) (h : ∀ e ∈ es, WF e) : WF (.tuple es)
  | func {ret : Ty} {params : List Ty} (hr : WF ret) (h : ∀ p ∈ params, WF p) : WF (.func ret params)
  | option {e : Ty} (hne : e.isOptionType = false) (h : WF e) : WF (.option e)

/-! ## Reading names -/

/-- What ends the name of a leaf. -/
def isDelim (c : Char) : Bool := c == ']' || c == ')' || c == ',' || c == '?'

/-- The name of a leaf, and what comes after it. -/
def scanLeaf : Text → Text × Text
  | [] => ([], [])
  | c :: cs =>
    if isDelim c || c == ' ' && cs.head? == some ':' then ([], c :: cs)
    else (c :: (scanLeaf cs).1, (scanLeaf cs).2)

def readLeaf (name : Text) : Leaf :=
  if name.take 4 = ['%', 'm', 'o', 'd'] then
    let cs := name.drop 4
    match cs.dropWhile Char.isDigit with
    | '.' :: name => .user (Nat.ofDigitChars 10 (cs.takeWhile Char.isDigit) 0) name
    | _ => .mod (Nat.ofDigitChars 10 (cs.takeWhile Char.isDigit) 0)
  else .builtin name

/-- A type that may be followed by a question mark. -/
def readOption (t : Ty) : Text → Ty × Text
  | '?' :: cs => (.option t, cs)
  | cs => (t, cs)

mutual

def readType : Nat → Text → Option (Ty × Text)
  | 0, _ => none
  | n + 1, '[' :: cs =>
    match readType n cs with
    | some (e, ']' :: cs) => some (readOption (.array e) cs)
    | some (k, ' ' :: ':' :: ' ' :: cs) =>
      match readType n cs with
      | some (v, ']' :: cs) => some (readOption (.map k v) cs)
      | _ => none
    | _ => none
  | n + 1, '(' :: cs =>
    match readTypes n cs with
    | some (es, ',' :: ')' :: cs) => some (readOption (.tuple es) cs)
    | some (es, ')' :: ' ' :: '-' :: '>' :: ' ' :: cs) =>
      match readType n cs with
      | some (ret, cs) => some (.func ret es, cs)
      | none => none
    | some ([.func ret params], ')' :: '?' :: cs) => some (.option (.func ret params), cs)
    | some (es, ')' :: cs) => some (readOption (.tuple es) cs)
    | _ => none
  | _ + 1, cs => some (readOption (.leaf (readLeaf (scanLeaf cs).1)) (scanLeaf cs).2)

def readTypes : Nat → Text → Option (List Ty × Text)
  | 0, _ => none
  | _ + 1, ')' :: cs => some ([], ')' :: cs)
  | n + 1, cs =>
    match readType n cs with
    | some (t, ',' :: ' ' :: cs) =>
      match readTypes n cs with
      | some (ts, cs) => some (t :: ts, cs)
      | none => none
    | some (t, cs) => some ([t], cs)
    | none => none

end

/-! ## Leaves -/

/-- What may follow the name of a type. -/
inductive Follows : Text → Prop
  | nil : Follows []
  | bracket (cs : Text) : Follows (']' :: cs)
  | paren (cs : Text) : Follows (')' :: cs)
  | comma (cs : Text) : Follows (',' :: cs)
  | colon (cs : Text) : Follows (' ' :: ':' :: cs)

/-- What may follow the name of an element of an option type. -/
inductive FollowsElement : Text → Prop
  | follows {s : Text} (h : Follows s) : FollowsElement s
  | question (cs : Text) : FollowsElement ('?' :: cs)

structure IsLeafName (a : Text) : Prop where
  nonempty : a ≠ []
  chars : ∀ c ∈ a, isDelim c = false ∧ c ≠ ':' ∧ c ≠ '[' ∧ c ≠ '('
  last : a.getLast? ≠ some ' '

theorem scanLeaf_follows {s : Text} (h : FollowsElement s) : scanLeaf s = ([], s) := by
  rcases h with h | cs
  · cases h <;> simp [scanLeaf, isDelim]
  · simp [scanLeaf, isDelim]

theorem scanLeaf_append {a s : Text} (hc : ∀ c ∈ a, isDelim c = false ∧ c ≠ ':')
    (hl : a.getLast? ≠ some ' ') (hs : FollowsElement s) : scanLeaf (a ++ s) = (a, s) := by
  induction a with
  | nil => exact scanLeaf_follows hs
  | cons c cs ih =>
    have htail : scanLeaf (cs ++ s) = (cs, s) := by
      refine ih (fun c hc' => hc c (List.mem_cons_of_mem _ hc')) fun hlast => hl ?_
      rw [List.getLast?_cons, hlast]
      rfl
    have hcolon : (isDelim c || c == ' ' && (cs ++ s).head? == some ':') = false := by
      rw [(hc c List.mem_cons_self).1, Bool.false_or]
      rcases cs with - | ⟨d, ds⟩
      · -- a space does not end the name
        have : c ≠ ' ' := fun h => hl (by rw [h]; rfl)
        simp [this]
      · have := (hc d (List.mem_cons_of_mem _ List.mem_cons_self)).2
        simp [this]
    rw [List.cons_append, scanLeaf, hcolon, htail]
    rfl

/-- The characters of identifiers and numbers. -/
theorem word_char {c : Char} (h : (c.isAlphanum || c == '_' || c == '%' || c == '.') = true) :
    (isDelim c = false ∧ c ≠ ':' ∧ c ≠ '[' ∧ c ≠ '(') ∧ c ≠ ' ' := by
  have hne : ∀ d : Char, (d.isAlphanum || d == '_' || d == '%' || d == '.') = false → c ≠ d := by
    rintro d hd rfl
    rw [h] at hd
    cases hd
  refine ⟨⟨?_, hne _ rfl, hne _ rfl, hne _ rfl⟩, hne _ rfl⟩
  unfold isDelim
  simp [hne ']' rfl, hne ')' rfl, hne ',' rfl, hne '?' rfl]

theorem isLeafName_of_word {a : Text} (hne : a ≠ [])
    (h : ∀ c ∈ a, (c.isAlphanum || c == '_' || c == '%' || c == '.') = true) : IsLeafName a where
  nonempty := hne
  chars c hc := (word_char (h c hc)).1
  last hl := (word_char (h ' ' (List.mem_of_getLast? hl))).2 rfl

theorem isDigit_toDigits {n : Nat} {c : Char} (h : c ∈ Nat.toDigits 10 n) : c.isDigit = true :=
  Nat.isDigit_of_mem_toDigits (by decide) (by decide) h

/-- What the names of the constructor are like: no delimiters, and not the name of a module. -/
def isLeafText (a : Text) : Bool :=
  !a.isEmpty && (a.all fun c => !(isDelim c || c == ':' || c == '[' || c == '(')) &&
    a.getLast? != some ' ' && a.take 4 != ['%', 'm', 'o', 'd']

theorem builtin_isLeafText : (builtinTypeNames.all fun a => isLeafText a.toList) = true := by
  decide

theorem builtin_names : ∀ a ∈ builtinTypeNames.map String.toList,
    a ≠ [] ∧ (∀ c ∈ a, isDelim c = false ∧ c ≠ ':' ∧ c ≠ '[' ∧ c ≠ '(') ∧
      a.getLast? ≠ some ' ' ∧ a.take 4 ≠ ['%', 'm', 'o', 'd'] := by
  intro a ha
  obtain ⟨name, hname, rfl⟩ := List.mem_map.1 ha
  have h := List.all_eq_true.1 builtin_isLeafText name hname
  simp only [isLeafText, Bool.and_eq_true, bne_iff_ne, List.all_eq_true, Bool.not_eq_true',
    Bool.or_eq_false_iff, beq_eq_false_iff_ne, List.isEmpty_eq_false_iff] at h
  exact ⟨h.1.1.1, fun c hc => ⟨(h.1.1.2 c hc).1.1.1, (h.1.1.2 c hc).1.1.2, (h.1.1.2 c hc).1.2,
    (h.1.1.2 c hc).2⟩, h.1.2, h.2⟩

theorem word_mod {modId : Nat} {c : Char} (h : c ∈ toModTypeName modId) :
    (c.isAlphanum || c == '_' || c == '%' || c == '.') = true := by
  unfold toModTypeName at h
  simp only [List.mem_cons] at h
  rcases h with rfl | rfl | rfl | rfl | h
  · rfl
  · rfl
  · rfl
  · rfl
  · have := isDigit_toDigits h
    simp [Char.isAlphanum, this]

theorem word_identifier {name : Text} (h : isIdentifier name = true) :
    ∀ c ∈ name, (c.isAlphanum || c == '_' || c == '%' || c == '.') = true := by
  rcases name with - | ⟨d, ds⟩
  · cases h
  · simp only [isIdentifier, Bool.and_eq_true, Bool.or_eq_true, List.all_eq_true] at h
    intro c hc
    rcases List.mem_cons.1 hc with rfl | hc
    · rcases h.1 with h | h
      · simp [Char.isAlphanum, h]
      · simp [h]
    · rcases h.2 c hc with h | h
      · simp [h]
      · simp [h]

theorem Leaf.WF.isLeafName {a : Leaf} (h : a.WF) : IsLeafName a.name := by
  cases a with
  | builtin name =>
    obtain ⟨hne, hc, hl, -⟩ := builtin_names name h
    exact ⟨hne, hc, hl⟩
  | mod modId => exact isLeafName_of_word (List.cons_ne_nil _ _) fun c hc => word_mod hc
  | user modId name =>
    refine isLeafName_of_word (List.cons_ne_nil _ _) fun c hc => ?_
    unfold Leaf.name toQualifiedTypeName at hc
    rcases List.mem_append.1 hc with hc | hc
    · exact word_mod hc
    · rcases List.mem_cons.1 hc with rfl | hc
      · rfl
      · exact word_identifier h c hc

theorem Leaf.WF.readLeaf {a : Leaf} (h : a.WF) : readLeaf a.name = a := by
  cases a with
  | builtin name =>
    obtain ⟨-, -, -, htake⟩ := builtin_names name h
    exact if_neg htake
  | mod modId =>
    have hd : ∀ c ∈ Nat.toDigits 10 modId, c.isDigit = true := fun c hc => isDigit_toDigits hc
    simp only [Types.readLeaf, Leaf.name, toModTypeName, List.take, List.drop, if_pos]
    rw [List.dropWhile_eq_nil_iff.2 hd, List.takeWhile_eq_self_iff.2 hd,
      Nat.ofDigitChars_ten_toDigits]
  | user modId name =>
    have hd : ∀ c ∈ Nat.toDigits 10 modId, c.isDigit = true := fun c hc => isDigit_toDigits hc
    simp only [Types.readLeaf, Leaf.name, toQualifiedTypeName, toModTypeName, List.cons_append,
      List.take, List.drop, if_pos]
    rw [List.dropWhile_append_of_pos hd, List.takeWhile_append_of_pos hd]
    simp [Nat.ofDigitChars_ten_toDigits]

/-! ## Reading back -/

/-- The name is read off, with a question mark if there is one. -/
def ReadsElement (t : Ty) : Prop :=
  ∃ n, ∀ m ≥ n, ∀ s, FollowsElement s → readType m (t.name ++ s) = some (readOption t s)

def Reads (t : Ty) : Prop :=
  ∃ n, ∀ m ≥ n, ∀ s, Follows s → readType m (t.name ++ s) = some (t, s)

theorem readOption_follows {t : Ty} {s : Text} (h : Follows s) : readOption t s = (t, s) := by
  cases h <;> rfl

theorem ReadsElement.reads {t : Ty} (h : ReadsElement t) : Reads t := by
  obtain ⟨n, hn⟩ := h
  refine ⟨n, fun m hm s hs => ?_⟩
  rw [hn m hm s (.follows hs), readOption_follows hs]

theorem readType_leaf {a : Leaf} (h : a.WF) : ReadsElement (.leaf a) := by
  refine ⟨1, fun m hm s hs => ?_⟩
  obtain ⟨m, rfl⟩ : ∃ k, m = k + 1 := ⟨m - 1, by omega⟩
  have hname := h.isLeafName
  have hscan := scanLeaf_append (fun c hc => ⟨(hname.chars c hc).1, (hname.chars c hc).2.1⟩)
    hname.last hs
  change readType (m + 1) (a.name ++ s) = _
  obtain ⟨c, cs, hcs⟩ := List.exists_cons_of_ne_nil hname.nonempty
  have hc := (hname.chars c (by rw [hcs]; exact List.mem_cons_self)).2.2
  rw [hcs, List.cons_append, readType, ← List.cons_append, ← hcs, hscan, h.readLeaf]
  · rintro cs' heq
    exact hc.1 (List.cons.inj heq).1
  · rintro cs' heq
    exact hc.2 (List.cons.inj heq).1

/-- No name begins with a closing parenthesis. -/
theorem Ty.WF.head {t : Ty} (h : t.WF) : ∃ c cs, t.name = c :: cs ∧ c ≠ ')' := by
  induction h with
  | leaf h =>
    obtain ⟨c, cs, hcs⟩ := List.exists_cons_of_ne_nil h.isLeafName.nonempty
    refine ⟨c, cs, hcs, ?_⟩
    rintro rfl
    have := (h.isLeafName.chars ')' (by rw [hcs]; exact List.mem_cons_self)).1
    cases this
  | array _ _ => exact ⟨_, _, rfl, by decide⟩
  | map _ _ _ _ => exact ⟨_, _, rfl, by decide⟩
  | tuple _ _ _ => exact ⟨_, _, rfl, by decide⟩
  | func _ _ _ _ => exact ⟨_, _, rfl, by decide⟩
  | @option e _ _ ih =>
    rw [Ty.name, toReifiedTypeName]
    split
    · exact ⟨_, _, rfl, by decide⟩
    · obtain ⟨c, cs, hcs, hc⟩ := ih
      refine ⟨c, cs ++ ['?'], ?_, hc⟩
      rw [List.getD_cons_zero, hcs, List.cons_append]

/-- What follows the elements of a tuple or the parameters of a function. -/
inductive Closes : Text → Prop
  | paren (cs : Text) : Closes (')' :: cs)
  | comma (cs : Text) : Closes (',' :: ')' :: cs)

theorem Closes.follows {s : Text} (h : Closes s) : Follows s := by
  cases h with
  | paren cs => exact .paren cs
  | comma cs => exact .comma _

theorem readTypes_names {es : List Ty} (hw : ∀ e ∈ es, e.WF) (h : ∀ e ∈ es, Reads e) :
    ∃ n, ∀ m ≥ n, ∀ s, Closes s → (es = [] → ∃ cs, s = ')' :: cs) →
      readTypes m (joinNames (Ty.names es) ++ s) = some (es, s) := by
  induction es with
  | nil =>
    refine ⟨1, fun m hm s _ hs => ?_⟩
    obtain ⟨m, rfl⟩ : ∃ k, m = k + 1 := ⟨m - 1, by omega⟩
    obtain ⟨cs, rfl⟩ := hs rfl
    rfl
  | cons e es ih =>
    obtain ⟨n, hn⟩ := h e List.mem_cons_self
    obtain ⟨n', hn'⟩ := ih (fun x hx => hw x (List.mem_cons_of_mem _ hx))
      fun x hx => h x (List.mem_cons_of_mem _ hx)
    obtain ⟨c, cs, hcs, hc⟩ := (hw e List.mem_cons_self).head
    have hparen : ∀ s cs' : Text, c :: (cs ++ s) = ')' :: cs' → False :=
      fun s cs' heq => hc (List.cons.inj heq).1
    refine ⟨n + n' + 1, fun m hm s hs _ => ?_⟩
    obtain ⟨m, rfl⟩ : ∃ k, m = k + 1 := ⟨m - 1, by omega⟩
    rcases es with - | ⟨e', es⟩
    · change readTypes (m + 1) (e.name ++ s) = _
      have he := hn m (by omega) s hs.follows
      rw [hcs, List.cons_append] at he ⊢
      rw [readTypes, he]
      · cases hs <;> rfl
      · exact hparen s
    · have hjoin : joinNames (Ty.names (e :: e' :: es)) ++ s =
          e.name ++ (',' :: ' ' :: (joinNames (Ty.names (e' :: es)) ++ s)) := by
        simp [Ty.names, joinNames]
      have he := hn m (by omega) _ (.comma (' ' :: (joinNames (Ty.names (e' :: es)) ++ s)))
      rw [hjoin, hcs, List.cons_append, readTypes]
      · rw [hcs, List.cons_append] at he
        rw [he]
        simp only
        rw [hn' m (by omega) s hs nofun]
      · exact hparen _

theorem readType_array {e : Ty} (h : Reads e) : ReadsElement (.array e) := by
  obtain ⟨n, hn⟩ := h
  refine ⟨n + 1, fun m hm s _ => ?_⟩
  obtain ⟨m, rfl⟩ : ∃ k, m = k + 1 := ⟨m - 1, by omega⟩
  have hname : (Ty.array e).name ++ s = '[' :: (e.name ++ ']' :: s) := by
    simp [Ty.name, toReifiedTypeName]
  rw [hname, readType, hn m (by omega) _ (.bracket s)]
  rfl

theorem readType_map {k v : Ty} (hk : Reads k) (hv : Reads v) : ReadsElement (.map k v) := by
  obtain ⟨n, hn⟩ := hk
  obtain ⟨n', hn'⟩ := hv
  refine ⟨n + n' + 1, fun m hm s _ => ?_⟩
  obtain ⟨m, rfl⟩ : ∃ k, m = k + 1 := ⟨m - 1, by omega⟩
  have hname : (Ty.map k v).name ++ s = '[' :: (k.name ++ ' ' :: ':' :: ' ' :: (v.name ++ ']' :: s)) := by
    simp [Ty.name, toReifiedTypeName]
  rw [hname, readType, hn m (by omega) _ (.colon _)]
  simp only
  rw [hn' m (by omega) _ (.bracket s)]
  rfl

theorem readType_func {ret : Ty} {params : List Ty} (hw : ∀ p ∈ params, p.WF) (hr : Reads ret)
    (hp : ∀ p ∈ params, Reads p) : Reads (.func ret params) := by
  obtain ⟨n, hn⟩ := hr
  obtain ⟨n', hn'⟩ := readTypes_names hw hp
  refine ⟨n + n' + 1, fun m hm s hs => ?_⟩
  obtain ⟨m, rfl⟩ : ∃ k, m = k + 1 := ⟨m - 1, by omega⟩
  have hname : (Ty.func ret params).name ++ s =
      '(' :: (joinNames (Ty.names params) ++ ')' :: ' ' :: '-' :: '>' :: ' ' :: (ret.name ++ s)) := by
    simp [Ty.name, toFunctionTypeName]
  rw [hname, readType, hn' m (by omega) _ (.paren _) fun _ => ⟨_, rfl⟩]
  simp only
  rw [hn m (by omega) s hs]

theorem readType_tuple {es : List Ty} (hne : es ≠ []) (hw : ∀ e ∈ es, e.WF)
    (h : ∀ e ∈ es, Reads e) : ReadsElement (.tuple es) := by
  obtain ⟨n, hn⟩ := readTypes_names hw h
  refine ⟨n + 1, fun m hm s hs => ?_⟩
  obtain ⟨m, rfl⟩ : ∃ k, m = k + 1 := ⟨m - 1, by omega⟩
  have hlen : (Ty.names es).length = es.length := by
    rw [Ty.names_eq_map, List.length_map]
  by_cases h1 : es.length = 1
  · have hname : (Ty.tuple es).name ++ s = '(' :: (joinNames (Ty.names es) ++ ',' :: ')' :: s) := by
      simp [Ty.name, toTupleTypeName, hlen, h1]
    rw [hname, readType, hn m (by omega) _ (.comma s) fun h => absurd h hne]
    rfl
  · have hname : (Ty.tuple es).name ++ s = '(' :: (joinNames (Ty.names es) ++ ')' :: s) := by
      simp [Ty.name, toTupleTypeName, hlen, h1]
    rw [hname, readType, hn m (by omega) _ (.paren s) fun h => absurd h hne]
    rcases es with - | ⟨e, - | ⟨e', es⟩⟩
    · exact absurd rfl hne
    · exact absurd rfl h1
    · rcases hs with hs | cs
      · cases hs <;> rfl
      · cases e <;> rfl

theorem readType_option_func {e : Ty} (hf : e.isFuncType = true) (hw : e.WF) (h : Reads e) :
    Reads (.option e) := by
  obtain ⟨n, hn⟩ := readTypes_names (List.forall_mem_singleton.2 hw) (List.forall_mem_singleton.2 h)
  refine ⟨n + 1, fun m hm s hs => ?_⟩
  obtain ⟨m, rfl⟩ : ∃ k, m = k + 1 := ⟨m - 1, by omega⟩
  have hname : (Ty.option e).name ++ s = '(' :: (joinNames (Ty.names [e]) ++ ')' :: '?' :: s) := by
    simp [Ty.name, toReifiedTypeName, hf, Ty.names, joinNames]
  rw [hname, readType, hn m (by omega) _ (.paren _) nofun]
  cases e with
  | func ret params => rfl
  | _ => cases hf

theorem readType_option {e : Ty} (hf : e.isFuncType = false) (h : ReadsElement e) :
    Reads (.option e) := by
  obtain ⟨n, hn⟩ := h
  refine ⟨n, fun m hm s hs => ?_⟩
  have hname : (Ty.option e).name ++ s = e.name ++ '?' :: s := by
    simp [Ty.name, toReifiedTypeName, hf]
  rw [hname, hn m hm _ (.question s)]
  rfl

/-- Every name can be read back. -/
theorem Ty.WF.reads {t : Ty} (h : t.WF) :
    Reads t ∧ (t.isFuncType = false → t.isOptionType = false → ReadsElement t) := by
  induction h with
  | leaf h =>
    have := readType_leaf h
    exact ⟨this.reads, fun _ _ => this⟩
  | array _ ih =>
    have := readType_array ih.1
    exact ⟨this.reads, fun _ _ => this⟩
  | map _ _ ihk ihv =>
    have := readType_map ihk.1 ihv.1
    exact ⟨this.reads, fun _ _ => this⟩
  | tuple hne hw ih =>
    have := readType_tuple hne hw fun e he => (ih e he).1
    exact ⟨this.reads, fun _ _ => this⟩
  | func _ hw ihr ihp => exact ⟨readType_func hw ihr.1 fun p hp => (ihp p hp).1, nofun⟩
  | @option e hne hw ih =>
    refine ⟨?_, fun _ => nofun⟩
    cases hf : e.isFuncType with
    | true => exact readType_option_func hf hw ih.1
    | false => exact readType_option hf (ih.2 hf hne)

/-- Different types have different names. -/
theorem Ty.WF.name_inj {t u : Ty} (ht : t.WF) (hu : u.WF) (h : t.name = u.name) : t = u := by
  obtain ⟨n, hn⟩ := ht.reads.1
  obtain ⟨n', hn'⟩ := hu.reads.1
  have h₁ := hn (n + n') (by omega) [] .nil
  have h₂ := hn' (n + n') (by omega) [] .nil
  rw [h, h₂] at h₁
  cases h₁
  rfl

end Arsh.Types
