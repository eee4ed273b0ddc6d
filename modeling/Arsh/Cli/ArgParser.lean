import Arsh.Cli.ArgEntry
import Arsh.Lib.Vec

/-!
# Parsing a command line

`arg_parser.{h,cpp}`: the options, the arguments and the sub-commands of a command-line record.
A `Report` is what is raised; the usage text that goes with a message is left out. The records
themselves are lists of field values, and `init` stands for the constructors of sub-commands,
which the virtual machine runs.
-/

namespace Arsh.Cli

open Vec

/-! ## Presence -/

/-- `RequiredOptionSet`: the indices of required options and positional arguments, from index `i`
on. -/
def requiredValues : List ArgEntry → Nat → List Nat
  | [], _ => []
  | e :: entries, i =>
    if e.isRequired || e.isPositional then i % (argEntryMax + 1) :: requiredValues entries (i + 1)
    else requiredValues entries (i + 1)

/-- `RequiredOptionSet::del`. The parameter is an unsigned char. -/
def delRequired (values : List Nat) (n : Nat) : List Nat :=
  let n := n % 256
  let iter := lowerBound id values n
  if values[iter]? = some n then values.eraseIdx iter else values

/-- `XORArgGroupSet::Entry` -/
structure XORArgEntry where
  index : Nat
  shortOp : Bool
  groupId : Nat
  deriving DecidableEq, Repr

/-- `XORArgGroupSet::add`: the set, the index of the entry of the group, and whether it is new. -/
def addGroup (values : List XORArgEntry) (entry : XORArgEntry) : List XORArgEntry × Nat × Bool :=
  let iter := lowerBound XORArgEntry.groupId values entry.groupId
  match values[iter]? with
  | none => (insertAt values iter entry, iter, true)
  | some e =>
    if e.groupId ≠ entry.groupId then (insertAt values iter entry, iter, true)
    else (values, iter, false)

/-- `XORArgGroupSet::has` -/
def hasGroup (values : List XORArgEntry) (groupId : Nat) : Bool :=
  lowerBound XORArgEntry.groupId values groupId ≠ values.length

/-- The entry is in a group, and the set has the group. -/
def groupGiven (e : ArgEntry) (groups : List XORArgEntry) : Bool :=
  match e.xorGroupId with
  | some groupId => hasGroup groups groupId
  | none => false

/-! ## Field values -/

inductive LockType where
  | none
  | iter
  | sortBy
  | searchSortedBy
  | history
  deriving DecidableEq, Repr

inductive Element where
  | int (v : Int)
  | str (s : Text)
  deriving DecidableEq, Repr

inductive Value where
  | invalid
  | bool (b : Bool)
  | int (v : Int)
  | str (s : Text)
  | array (lock : LockType) (values : List Element)
  | map (entries : List (Text × Text))
  deriving DecidableEq, Repr

def arrayMax : Nat := 0x7FFFFFFF

def stringMax : Nat := 0x7FFFFFFF

def mapMax : Nat := 0x7FFFFFF

inductive Report where
  /-- an error of the option parser -/
  | badOption (message : Text)
  /-- the help option was given -/
  | help
  /-- an option after another one of its exclusive group -/
  | exclusive (index : Nat) (shortOpt : Bool) (prev : Nat) (prevShort : Bool)
  | badArgument (message : Text)
  | requireOption (index : Nat)
  | requireArgument (index : Nat)
  | unknownCommand (name : Text)
  | arrayLocked (lock : LockType)
  | arrayLimit
  | mapLimit
  /-- the constructor of a sub-command, or its name, failed -/
  | subCommand
  deriving DecidableEq, Repr

namespace Report

/-- The message of a command-line error, from the entries of the record. That of an unknown command
has its name in a printable form, which is left out. -/
def message (entries : List ArgEntry) : Report → Option Text
  | badOption message => some message
  | help => some []
  | exclusive index shortOpt prev prevShort =>
    match entries[index]?, entries[prev]? with
    | some e, some p => some (e.toOptName shortOpt ++ " option is not allowed after ".toList ++
        p.toOptName prevShort ++ " option".toList)
    | _, _ => none
  | badArgument message => some message
  | requireOption index =>
    (entries[index]?).map fun e =>
      "require ".toList ++ (match e.shortOptName with | some s => ['-', s] | none => []) ++
        (if e.longOptName = [] then []
          else (if e.shortOptName.isSome then " or ".toList else []) ++ "--".toList ++
            e.longOptName) ++ " option".toList
  | requireArgument index =>
    (entries[index]?).map fun e => "require \x60".toList ++ e.argName ++ "' argument".toList
  | _ => none

/-- The exit status that goes with the message. -/
def status : Report → Nat
  | badOption _ | unknownCommand _ => 2
  | help => 0
  | _ => 1

end Report

def append (value : Value) (element : Element) : Except Report Value :=
  match value with
  | .array lock values =>
    if lock ≠ .none then .error (.arrayLocked lock)
    else if values.length = arrayMax then .error .arrayLimit
    else .ok (.array lock (values ++ [element]))
  | _ => .ok (.array .none [element])

/-- `OrderedMapObject::put`: an existing key keeps its place. -/
def put (value : Value) (key text : Text) : Except Report Value :=
  match value with
  | .map entries =>
    if entries.any (·.1 = key) then
      .ok (.map (entries.map fun e => if e.1 = key then (key, text) else e))
    else if entries.length = mapMax then .error .mapLimit
    else .ok (.map (entries ++ [(key, text)]))
  | _ => .ok (.map [(key, text)])

/-- The field of an entry. -/
def field (out : List Value) (e : ArgEntry) : Value := out.getD e.fieldOffset .invalid

def checkAndSetArg (e : ArgEntry) (arg : Text) (shortOpt : Bool) (out : List Value) :
    Except Report (List Value) :=
  match e.checkArg arg shortOpt with
  | .error message => .error (.badArgument message)
  | .ok v =>
    let element := match e.checker with
      | .int _ _ => Element.int v
      | _ => Element.str arg
    match e.fieldType with
    | .stringMap => do
      let key := arg.takeWhile (· ≠ '=')
      let value := if '=' ∈ arg then arg.drop (key.length + 1) else []
      return out.set e.fieldOffset (← put (field out e) key value)
    | .stringArray | .intArray => do
      return out.set e.fieldOffset (← append (field out e) element)
    | _ =>
      .ok (out.set e.fieldOffset (match element with
        | .int v => .int v
        | .str s => .str s))

/-! ## Options -/

/-- An option that was recognized. -/
structure Given where
  index : Nat
  shortOpt : Bool
  arg : Option Text
  deriving DecidableEq, Repr

def recognize : OptParseResult Nat → Option Given
  | .ok opt shortOpt => some ⟨opt, shortOpt, none⟩
  | .okArg opt shortOpt arg => some ⟨opt, shortOpt, some arg⟩
  | _ => none

/-- What `ArgParser::create` lets the option parser see: the entries before the first that is not
an option. -/
def optionTable (entries : List ArgEntry) : List (OptParseOption Nat) :=
  (entries.takeWhile ArgEntry.isOption).map ArgEntry.toOptParseOption

/-- Store a flag. Counters are saturated 64-bit integers. -/
def setFlag (e : ArgEntry) (out : List Value) : List Value :=
  match e.fieldType with
  | .bool => out.set e.fieldOffset (.bool (!e.attr.storeFalse))
  | _ =>
    let base := match field out e with
      | .int v => v
      | _ => 0
    out.set e.fieldOffset (.int (if e.attr.storeFalse then max (base - 1) (-0x8000000000000000)
      else min (base + 1) 0x7FFFFFFFFFFFFFFF))

/-- The value that an option stores. -/
def setOption (e : ArgEntry) (given : Given) (out : List Value) : Except Report (List Value) :=
  match e.op with
  | .noArg => .ok (setFlag e out)
  | _ => checkAndSetArg e (given.arg.getD e.defaultValue) given.shortOpt out

/-- `checkXORGroup`, for an entry in a group. -/
def checkXORGroup (given : Given) (group : Nat) (groups : List XORArgEntry) :
    Except Report (List XORArgEntry) :=
  let (values, iter, added) := addGroup groups ⟨given.index, given.shortOpt, group⟩
  if added then .ok values
  else match values[iter]? with
    | some prev =>
      if prev.index = given.index then .ok values
      else .error (.exclusive given.index given.shortOpt prev.index prev.shortOp)
    | none => .ok values

/-- What the loop over the options keeps. -/
structure OptionState where
  scanner : Scanner
  required : List Nat
  groups : List XORArgEntry
  help : Bool
  out : List Value

/-- An error, with the number of arguments from the iterator on. What the record has by then is
left out. -/
structure Failure where
  report : Report
  left : Nat
  deriving DecidableEq, Repr

/-- The body of the loop, for an option that was recognized. -/
def optionStep (e : ArgEntry) (given : Given) (st : OptionState) :
    Except Failure OptionState :=
  let st := { st with required := delRequired st.required given.index }
  if e.isHelp then .ok { st with help := true }
  else
    let checked := match e.xorGroupId with
      | some group => checkXORGroup given group st.groups
      | none => .ok st.groups
    match checked with
    | .error report => .error ⟨report, st.scanner.args.length⟩
    | .ok groups =>
      match setOption e given st.out with
      | .error report => .error ⟨report, st.scanner.args.length + 1⟩
      | .ok out => .ok { st with groups := groups, out := out }

/-- The loop over the options, and whether it ends by a stop option. `fuel` bounds the options
left. -/
def parseOptions (entries : List ArgEntry) :
    Nat → OptionState → Option (Except Failure (OptionState × Bool))
  | 0, _ => none
  | fuel + 1, st =>
    let (ret, scanner) := Scanner.next (optionTable entries) st.scanner
    let st := { st with scanner := scanner }
    match recognize ret with
    | none =>
      match ret.formatError with
      | some message => some (.error ⟨.badOption message, scanner.args.length⟩)
      | none => some (.ok (st, false))
    | some given =>
      match entries[given.index]? with
      | none => some (.ok (st, false))
      | some e =>
        match optionStep e given st with
        | .error failure => some (.error failure)
        | .ok st =>
          if !e.isHelp && e.attr.stopOption then some (.ok (st, true))
          else parseOptions entries fuel st

/-! ## Arguments -/

/-- The arguments that the last positional argument takes with its own. -/
def appendAll (value : Value) : List Text → Except Failure Value
  | [] => .ok value
  | arg :: args =>
    match append value (.str arg) with
    | .error report => .error ⟨report, args.length + 1⟩
    | .ok value => appendAll value args

/-- The arguments of one positional entry: the record and the arguments after them. -/
def setPositional (e : ArgEntry) (arg : Text) (args : List Text) (out : List Value) :
    Except Failure (List Value × List Text) :=
  if e.isRemainArg then
    match append (field out e) (.str arg) with
    | .error report => .error ⟨report, args.length⟩
    | .ok value =>
      match appendAll value args with
      | .error failure => .error failure
      | .ok value => .ok (out.set e.fieldOffset value, [])
  else
    match checkAndSetArg e arg true out with
    | .error report => .error ⟨report, args.length + 1⟩
    | .ok out => .ok (out, args)

/-- `checkRequireOrPositionalArgs`, over the indices of the required set. -/
def checkRequireOrPositionalArgs (entries : List ArgEntry) (groups : List XORArgEntry) :
    List Nat → List Text → List Value → Except Failure (List Value × List Text)
  | [], args, out => .ok (out, args)
  | i :: required, args, out =>
    match entries[i]? with
    | none => .ok (out, args)
    | some e =>
      if e.isOption then
        if groupGiven e groups then
          checkRequireOrPositionalArgs entries groups required args out
        else .error ⟨.requireOption i, args.length⟩
      else if !e.isPositional then checkRequireOrPositionalArgs entries groups required args out
      else match args with
        | arg :: args =>
          match setPositional e arg args out with
          | .error failure => .error failure
          | .ok (out, args) => checkRequireOrPositionalArgs entries groups required args out
        | [] =>
          if e.isRequired then .error ⟨.requireArgument i, 0⟩
          else checkRequireOrPositionalArgs entries groups required [] out

/-! ## Records -/

/-- A command-line record type; `subCmdType` is the type of a field that is a sub-command. -/
structure CLIRecordType where
  entries : List ArgEntry
  subCmdType : Nat → Option Nat

def CLIRecordType.hasSubCmd (type : CLIRecordType) : Bool := type.entries.any ArgEntry.isSubCmd

/-- `findSubCmdInfo`: the type and the field of a sub-command. -/
def CLIRecordType.findSubCmdInfo (type : CLIRecordType) (name : Text) : Option (Nat × Nat) := do
  let e ← type.entries.find? fun e => e.isSubCmd && name = e.argName
  let sub ← type.subCmdType e.fieldOffset
  return (sub, e.fieldOffset)

/-- The end of one record: parsed, or at a sub-command with its type and record. -/
inductive Parsed where
  | done (out : List Value) (left : List Text)
  | sub (type : Nat) (out : List Value) (left : List Text)

/-- `createSubCmd`: the record the constructor makes, its name that of both commands. That the
record of the command refers to it is left out. -/
def createSubCmd (init : Nat → Option (List Value)) (base : Text) (type : Nat) (subCmd : Text) :
    Option (List Value) :=
  let name := base ++ " ".toList ++ subCmd
  if stringMax < name.length then none else (init type).map fun out => out.set 0 (.str name)

/-- The name of the command. -/
def cmdName (out : List Value) : Text :=
  match out.getD 0 .invalid with
  | .str s => s
  | _ => []

/-- `parseCommandLineImpl`; `fuel` bounds the options of the command line. -/
def parseCommandLineImpl (init : Nat → Option (List Value)) (type : CLIRecordType) (fuel : Nat)
    (args : List Text) (out : List Value) : Option (Except Failure Parsed) :=
  match parseOptions type.entries fuel
    ⟨⟨[], args⟩, requiredValues type.entries 0, [], false, out⟩ with
  | none => none
  | some (.error failure) => some (.error failure)
  | some (.ok (st, stop)) => some <|
    if st.help then .error ⟨.help, st.scanner.args.length⟩
    else match checkRequireOrPositionalArgs type.entries st.groups st.required st.scanner.args
        st.out with
      | .error failure => .error failure
      | .ok (out, left) =>
        match left with
        | [] => .ok (.done out [])
        | arg :: rest =>
          if !stop && type.hasSubCmd then
            match type.findSubCmdInfo arg with
            | none => .error ⟨.unknownCommand arg, rest.length + 1⟩
            | some (sub, _) =>
              match createSubCmd init (cmdName out) sub arg with
              | none => .error ⟨.subCommand, rest.length⟩
              | some sout => .ok (.sub sub sout rest)
          else .ok (.done out (arg :: rest))

/-- The bound of the options of a command line. -/
def optionFuel (args : List Text) : Nat := Scanner.argsSize args + 1

/-- `parseCommandLine`: the record of the command, then those of its sub-commands. `fuel` bounds
the sub-commands. -/
def parseCommandLine (pool : Nat → CLIRecordType) (init : Nat → Option (List Value)) :
    Nat → Nat → List Text → List Value → Option (Except Failure (List Value × List Text))
  | 0, _, _, _ => none
  | fuel + 1, type, args, out =>
    match parseCommandLineImpl init (pool type) (optionFuel args) args out with
    | none => none
    | some (.error failure) => some (.error failure)
    | some (.ok (.done out left)) => some (.ok (out, left))
    | some (.ok (.sub sub out left)) => parseCommandLine pool init fuel sub left out

end Arsh.Cli
