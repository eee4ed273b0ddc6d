import Arsh.Misc.OptParser

/-!
# Argument entries

The entries of a command-line record (`arg_parser_base.{h,cpp}`) and how the type checker builds
them from the attributes of the fields (`type_checker_attr.cpp`). Errors of the type checker are
`none`: a record with one never runs. The completion handler of an entry is left out, and of its
description only that it is checked for a null character.
-/

namespace Arsh.Cli

def argEntryMax : Nat := 0xFFFF

def xorArgGroupNum : Nat := 63

def attrChoiceSize : Nat := 16

/-! ## Decimal integers -/

/-- The digits of an unsigned 64-bit integer, after `value`. -/
def parseUnsigned : Text → Nat → Option Nat
  | [], value => some value
  | ch :: rest, value =>
    if ch.isDigit then
      let next := value * 10 + (ch.toNat - '0'.toNat)
      if next < 0x10000000000000000 then parseUnsigned rest next else none
    else none

/-- `makeSigned` for 64 bits. -/
def makeSigned (v : Nat) (negate : Bool) : Option Int :=
  if negate then (if v ≤ 0x8000000000000000 then some (-(v : Int)) else none)
  else if v ≤ 0x7FFFFFFFFFFFFFFF then some (v : Int)
  else none

/-- `convertToNum10<int64_t>`. -/
def convertToNum10 (arg : Text) : Option Int :=
  let sign := arg.head? = some '-' ∧ arg.tail.head? ≠ some '+'
  let rest := if sign then arg.tail else arg
  let digits := if rest.head? = some '+' then rest.tail else rest
  if digits = [] then none
  else (parseUnsigned digits 0).bind fun v => makeSigned v (decide sign)

/-! ## Entries -/

/-- The types of fields that attributes are for, optional types included. -/
inductive FieldType where
  | bool
  | int
  | string
  | stringArray
  | intArray
  | stringMap
  /-- a command-line record, for a sub-command -/
  | record
  deriving DecidableEq, Repr

structure ArgEntryAttr where
  required : Bool
  positional : Bool
  /-- the last positional argument, which accepts a string array -/
  remain : Bool
  storeFalse : Bool
  stopOption : Bool
  subcmd : Bool
  deriving DecidableEq, Repr

def ArgEntryAttr.none : ArgEntryAttr := ⟨false, false, false, false, false, false⟩

inductive Checker where
  | nop
  | int (min max : Int)
  | choice (choices : List Text)
  deriving DecidableEq, Repr

def Checker.isChoice : Checker → Bool
  | .choice _ => true
  | _ => false

/-- The `kind` of the option is the index of the entry; `xorGroupId` is `none` for `-1`. -/
structure ArgEntry extends OptParseOption Nat where
  fieldType : FieldType
  fieldOffset : Nat
  attr : ArgEntryAttr
  xorGroupId : Option Nat
  checker : Checker
  defaultValue : Text
  deriving DecidableEq, Repr

namespace ArgEntry

def isHelp (e : ArgEntry) : Bool := e.fieldOffset = 0

def isRequired (e : ArgEntry) : Bool := e.attr.required

def isPositional (e : ArgEntry) : Bool := e.attr.positional

def isRemainArg (e : ArgEntry) : Bool := e.attr.remain

def isSubCmd (e : ArgEntry) : Bool := e.attr.subcmd

def isOption (e : ArgEntry) : Bool := !e.isPositional && !e.isSubCmd

def newHelp (index : Nat) : ArgEntry where
  kind := index
  op := .noArg
  shortOptName := some 'h'
  longOptName := "help".toList
  argName := []
  fieldType := .bool
  fieldOffset := 0
  attr := .none
  xorGroupId := none
  checker := .nop
  defaultValue := []

/-- The name an option was given by. -/
def toOptName (e : ArgEntry) (shortOpt : Bool) : Text :=
  if shortOpt then '-' :: e.shortOptName.toList else '-' :: '-' :: e.longOptName

/-- ` for -o option` in the message about the argument of an option. -/
def forOption (e : ArgEntry) (shortOpt : Bool) : Text :=
  if e.isOption then " for ".toList ++ e.toOptName shortOpt ++ " option".toList else []

def quoted (arg : Text) : Text := "invalid argument: `".toList ++ arg ++ ['\'']

/-- `checkArg`: the parsed integer (`0` if none is), or the message of the error. -/
def checkArg (e : ArgEntry) (arg : Text) (shortOpt : Bool) : Except Text Int :=
  match e.checker with
  | .nop => .ok 0
  | .int min max =>
    match convertToNum10 arg with
    | none => .error (quoted arg ++ e.forOption shortOpt ++ ", must be decimal integer".toList)
    | some value =>
      if min ≤ value ∧ value ≤ max then .ok value
      else .error (quoted arg ++ e.forOption shortOpt ++ ", must be [".toList ++
        (toString min).toList ++ ", ".toList ++ (toString max).toList ++ [']'])
  | .choice choices =>
    if arg ∈ choices then .ok 0
    else .error (quoted arg ++ e.forOption shortOpt ++ ", must be \x7b".toList ++
      (", ".toList).intercalate choices ++ ['\x7d'])

end ArgEntry

/-! ## Names made from those of variables -/

def isLowerOrDigit (ch : Char) : Bool := ch.isLower || ch.isDigit

/-- One step of `splitCamelCaseIdentifier` at index `i`, with the words so far and the start of
the next. -/
def splitStep (ref : Text) (acc : List Text × Nat) (i : Nat) : List Text × Nat :=
  let word := fun stop => (ref.take stop).drop acc.2
  let ch := ref.getD i ' '
  if ch = '_' then
    if acc.2 < i then (acc.1 ++ [word i], i + 1) else (acc.1, i + 1)
  else if i + 1 = ref.length then
    if acc.2 < ref.length then (acc.1 ++ [word ref.length], i) else acc
  else if ch.isUpper && ((ref.getD (i + 1) ' ').isLower ||
      (0 < i && isLowerOrDigit (ref.getD (i - 1) ' '))) then
    if acc.2 < i then (acc.1 ++ [word i], i) else acc
  else acc

def splitCamelCaseIdentifier (ref : Text) : List Text :=
  ((List.range ref.length).foldl (splitStep ref) ([], 0)).1

def toLongOpt (name : Text) : Text :=
  (['-'].intercalate (splitCamelCaseIdentifier name)).map Char.toLower

def toArgName (name : Text) : Text :=
  (['_'].intercalate (splitCamelCaseIdentifier name)).map Char.toUpper

def isValidLongOpt : Text → Bool
  | [] => false
  | [_] => false
  | ch :: rest => ch.isAlpha && rest.all fun ch => ch.isAlphanum || ch = '-'

/-! ## Attributes of fields -/

inductive AttributeKind where
  | flag
  | option
  | arg
  | subcmd
  deriving DecidableEq, Repr

inductive Param where
  | help (text : Text)
  | short (name : Text)
  | long (name : Text)
  | required (b : Bool)
  | store (b : Bool)
  | opt (b : Bool)
  | stop (b : Bool)
  | default (text : Text)
  | placeHolder (text : Text)
  | range (a b : Int)
  | choice (elements : List Text)
  | xor (v : Int)
  | name (text : Text)
  | comp
  deriving DecidableEq, Repr

/-- The parameters of each attribute (`AttributeMap::create`). -/
def AttributeKind.lookupParam : AttributeKind → Param → Bool
  | .flag, .short _ | .flag, .long _ | .flag, .required _ | .flag, .stop _ | .flag, .store _
  | .flag, .xor _ | .flag, .help _ => true
  | .option, .short _ | .option, .long _ | .option, .required _ | .option, .opt _
  | .option, .stop _ | .option, .default _ | .option, .placeHolder _ | .option, .range _ _
  | .option, .choice _ | .option, .xor _ | .option, .help _ | .option, .comp => true
  | .arg, .required _ | .arg, .placeHolder _ | .arg, .range _ _ | .arg, .choice _
  | .arg, .help _ => true
  | .subcmd, .name _ | .subcmd, .help _ => true
  | _, _ => false

/-- The field types of each attribute. -/
def AttributeKind.typeIds : AttributeKind → List FieldType
  | .flag => [.bool, .int]
  | .option => [.string, .int, .stringArray, .intArray, .stringMap]
  | .arg => [.stringArray, .string, .int]
  | .subcmd => [.record]

/-- An attribute of a field of the record. -/
structure FieldAttribute where
  kind : AttributeKind
  params : List Param
  varName : Text
  fieldType : FieldType
  fieldOffset : Nat
  /-- the field at offset 0 is the name of the command -/
  pos : 0 < fieldOffset

structure ResolveArgEntryParam where
  foundOptionSet : List Text
  foundSubCmdSet : List Text
  requiredXORGroupSet : List Nat
  /-- whether `<remain>` was found -/
  remain : Bool
  argCount : Nat

def hasNullChar (text : Text) : Bool := text.contains '\x00'

/-- An entry under construction, and whether it has a completion handler. -/
structure Draft where
  entry : ArgEntry
  comp : Bool
  found : ResolveArgEntryParam

/-- An option name that no other option has. -/
def Draft.addOptName (d : Draft) (name : Text) (entry : ArgEntry) : Option Draft :=
  if name ∈ d.found.foundOptionSet then none
  else some { d with entry := entry,
                     found := { d.found with foundOptionSet := name :: d.found.foundOptionSet } }

def Draft.addSubCmd (d : Draft) (name : Text) : Option Draft :=
  if name ∈ d.found.foundSubCmdSet then none
  else some { d with entry := { d.entry with argName := name },
                     found := { d.found with foundSubCmdSet := name :: d.found.foundSubCmdSet } }

/-- The entry with one parameter of its attribute (the loop of `resolveArgEntry`). -/
def Draft.fill (d : Draft) : Param → Option Draft
  | .help text => if hasNullChar text then none else some d
  | .short name =>
    match name with
    | [ch] =>
      if ch.isAlpha then d.addOptName name { d.entry with shortOptName := some ch } else none
    | _ => none
  | .long name =>
    if isValidLongOpt name then d.addOptName name { d.entry with longOptName := name } else none
  | .required b => some { d with entry.attr.required := b }
  | .store b => some { d with entry.attr.storeFalse := !b }
  | .opt b => some { d with entry.op := if b then .optArg else .hasArg }
  | .stop b => some { d with entry.attr.stopOption := b }
  | .default text => some { d with entry.defaultValue := text }
  | .placeHolder text => some { d with entry.argName := text }
  | .range a b =>
    if d.entry.fieldType = .int ∨ d.entry.fieldType = .intArray then
      some { d with entry.checker := .int (min a b) (max a b) }
    else none
  | .choice elements =>
    if d.entry.fieldType = .string ∨ d.entry.fieldType = .stringArray ∨
        d.entry.fieldType = .stringMap then
      if attrChoiceSize < elements.length ∨ elements.any hasNullChar ∨ ¬ elements.Nodup then none
      else if elements = [] then some d
      else some { d with entry.checker := .choice elements }
    else none
  | .xor v =>
    if v < 0 ∨ (xorArgGroupNum : Int) < v then none
    else some { d with entry.xorGroupId := some v.toNat }
  | .name text =>
    if text = [] ∨ text.head? = some '-' ∨ hasNullChar text then none else d.addSubCmd text
  | .comp => some { d with comp := true }

/-- The entry that a field starts from. -/
def Draft.new (found : ResolveArgEntryParam) (attr : FieldAttribute) (index : Nat) : Draft where
  entry :=
    { kind := index
      op := if attr.kind = .option then .hasArg else .noArg
      shortOptName := none
      longOptName := []
      argName := []
      fieldType := attr.fieldType
      fieldOffset := attr.fieldOffset
      attr := { ArgEntryAttr.none with
        positional := decide (attr.kind = .arg)
        subcmd := decide (attr.kind = .subcmd) }
      xorGroupId := none
      checker :=
        if attr.fieldType = .int ∨ attr.fieldType = .intArray then
          .int (-0x8000000000000000) 0x7FFFFFFFFFFFFFFF
        else .nop
      defaultValue := [] }
  comp := false
  found :=
    { found with
      argCount := if attr.kind = .arg then found.argCount + 1 else found.argCount }

/-- The default name of an option, an argument or a sub-command. -/
def Draft.addName (d : Draft) (attr : FieldAttribute) : Option Draft :=
  match attr.kind with
  | .flag | .option =>
    if d.entry.shortOptName = none ∧ d.entry.longOptName = [] then
      d.addOptName (toLongOpt attr.varName)
        { d.entry with longOptName := toLongOpt attr.varName }
    else some d
  | .arg =>
    if d.found.remain then none
    else if attr.fieldType = .stringArray then
      some { d with entry.attr.remain := true, found.remain := true }
    else some d
  | .subcmd => if d.entry.argName = [] then d.addSubCmd attr.varName else some d

/-- The entry with the default name of its argument. -/
def Draft.finish (d : Draft) (varName : Text) : ArgEntry :=
  if d.entry.argName = [] then { d.entry with argName := toArgName varName } else d.entry

/-- A group with a required option. -/
def ResolveArgEntryParam.addRequired (found : ResolveArgEntryParam) (e : ArgEntry) :
    ResolveArgEntryParam :=
  match e.xorGroupId with
  | some group =>
    if e.isRequired then { found with requiredXORGroupSet := group :: found.requiredXORGroupSet }
    else found
  | none => found

/-- `resolveArgEntry`, with what `visitAttributeNode` and `postCheckFieldAttributes` check first:
the attribute has the parameters, each of them once, and is for the type of the field. -/
def resolveArgEntry (found : ResolveArgEntryParam) (attr : FieldAttribute)
    (entries : List ArgEntry) : Option (ResolveArgEntryParam × List ArgEntry) := do
  guard (attr.params.all attr.kind.lookupParam)
  guard ((attr.params.map Param.ctorIdx).Nodup)
  guard (attr.fieldType ∈ attr.kind.typeIds)
  let d ← attr.params.foldlM Draft.fill (Draft.new found attr (entries.length % (argEntryMax + 1)))
  let d ← d.addName attr
  let entry := d.finish attr.varName
  let found := d.found.addRequired entry
  guard ¬ (0 < found.argCount ∧ found.foundSubCmdSet ≠ [] ∧
    (attr.kind = .arg ∨ attr.kind = .subcmd))
  guard ¬ (entry.checker.isChoice ∧ d.comp)
  return (found, entries ++ [entry])

/-- The entries of the attributes of some kinds, in order (`iterateFieldAttribute`). -/
def resolveEach (attrs : List FieldAttribute) (acc : ResolveArgEntryParam × List ArgEntry) :
    Option (ResolveArgEntryParam × List ArgEntry) :=
  attrs.foldlM (fun acc attr => resolveArgEntry acc.1 attr acc.2) acc

/-- `resolveArgEntries`: the options, the help option, then the arguments and sub-commands. -/
def resolveArgEntries (attrs : List FieldAttribute) : Option (List ArgEntry) := do
  let (found, entries) ← resolveEach
    (attrs.filter fun attr => attr.kind = .flag ∨ attr.kind = .option)
    (⟨["h".toList, "help".toList], [], [], false, 0⟩, [])
  let (found, entries) ← resolveEach
    (attrs.filter fun attr => attr.kind = .arg ∨ attr.kind = .subcmd)
    (found, entries ++ [.newHelp (entries.length % (argEntryMax + 1))])
  guard ¬ ∃ e ∈ entries, ∃ group ∈ found.requiredXORGroupSet,
    e.xorGroupId = some group ∧ ¬ e.isRequired
  return entries

end Arsh.Cli
