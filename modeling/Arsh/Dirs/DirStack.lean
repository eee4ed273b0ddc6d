import Arsh.Dirs.ExpandDots
import Arsh.Dirs.FormatDir
import Mathlib.Logic.Function.Iterate

/-!
# The directory stack

`pushd` and `popd` over the array `DIRSTACK`, whose last element is the top, when no loop iterates
over it. The current directory is kept elsewhere; both together are the listing that `dirs` prints,
and that these commands print when they have changed it. What the system answers to one command is a
parameter.
-/

namespace Arsh.Dirs

open NumUtil

/-! ## The source -/

/-- `SYS_LIMIT_DIRSTACK_SIZE`. -/
def dirStackLimit : Nat := 255

/-- What the system does for one command: whether `chdir` succeeds, whether `stat` finds a
directory before and after that, `getCWD` before and after it, and the error of the output. -/
structure Sys where
  env : Env
  chdir : Bytes → Bool
  isDir : Bytes → Bool
  isNewDir : Bytes → Bool
  getCWD : Option Bytes
  newCWD : Option Bytes
  writeError : Option Nat

structure State where
  logicalWorkingDir : Bytes
  dirStack : List Bytes
  pwd : Option Bytes
  oldpwd : Option Bytes

/-- `getWorkingDir` for the logical directory. -/
def getWorkingDir (sys : Sys) (st : State) : Option Bytes :=
  if sys.isDir st.logicalWorkingDir then some st.logicalWorkingDir else none

/-- `getWorkingDir` once more, at the end of a command. -/
def getNewWorkingDir (sys : Sys) (st : State) : Option Bytes :=
  if sys.isNewDir st.logicalWorkingDir then some st.logicalWorkingDir else none

def changeWorkingDir (sys : Sys) (st : State) (dest : Bytes) (useLogical : Bool) : Bool × State :=
  if 0 ∈ dest then (false, st)
  else
    let actualDest := expandDots sys.getCWD st.logicalWorkingDir dest
    if ¬ sys.chdir (if useLogical then actualDest else dest) then (false, st)
    else
      let st := { st with oldpwd := some (st.pwd.getD []) }
      if useLogical then (true, { st with pwd := some actualDest, logicalWorkingDir := actualDest })
      else
        match sys.newCWD with
        | none => (true, st)
        | some cwd => (true, { st with pwd := some cwd, logicalWorkingDir := cwd })

inductive Cmd where
  | pushd
  | popd
  deriving DecidableEq, Repr

/-- How a command ends. With `done` the directories are changed, and nothing is printed yet. -/
inductive Outcome where
  | done
  | printed (text : Bytes)
  | ioError (errNum : Nat)
  | assertFailed
  | help
  | invalidOption
  | invalidNumber (dest : Bytes)
  | outOfRange (dest : Bytes) (size : Nat)
  | cannotResolve
  | reachesLimit
  | noOther
  | stackEmpty
  | cannotChange (dest : Bytes)
  deriving DecidableEq, Repr

/-- What the options leave: the first argument behind them, if there is one. -/
inductive Options where
  | help
  | invalid
  | operand (dest : Option Bytes)
  deriving DecidableEq, Repr

def helpOption : Bytes := "--help".toList.map Char.toNat

/-- The loop over `GetOptState optState("h")`, which ends at the first option. The arguments are
those behind the name of the command. -/
def parseOptions : List Bytes → Options
  | [] => .operand none
  | (45 :: ch :: opt) :: rest =>
    if ch = chMinus then
      if opt = [] then .operand rest.head?
      else if chMinus :: ch :: opt = helpOption then .help
      else .invalid
    else if ch = 104 then .help
    else if isDecimal ch then .operand (some (chMinus :: ch :: opt))
    else .invalid
  | dest :: _ => .operand (some dest)

/-- The index that `+N` or `-N` gives, none for another argument. -/
def rotateIndex (size : Nat) (dest : Option Bytes) : Except Outcome (Option Nat) :=
  match dest with
  | some (ch :: num) =>
    if ch = chPlus ∨ ch = chMinus then
      let pair := (parseUnsigned Width.w64.size num 10).1
      if pair.kind ≠ .ok then .error (.invalidNumber (ch :: num))
      else if size < pair.value then .error (.outOfRange (ch :: num) size)
      else .ok (some (entryIndex size ch pair.value))
    else .ok none
  | _ => .ok none

/-- The top of the array goes to its front. -/
def backToFront (dirStack : List Bytes) : List Bytes :=
  (dirStack.getLast?.toList) ++ dirStack.dropLast

/-- Change to a directory; the array is updated if that succeeds. -/
def enterDir (sys : Sys) (st : State) (dest : Bytes) (update : List Bytes → List Bytes) :
    Outcome × State :=
  match changeWorkingDir sys st dest true with
  | (false, st) => (.cannotChange dest, st)
  | (true, st) => (.done, { st with dirStack := update st.dirStack })

/-- The array after `pushd` with an index: the entry is gone, those above it are below, and `cwd` is
between them. -/
def rotateStack (cwd : Bytes) (index : Nat) (dirStack : List Bytes) : List Bytes :=
  (backToFront^[dirStack.length - (index + 1)] (cwd :: dirStack)).dropLast

def pushRotate (sys : Sys) (st : State) (cwd : Bytes) (index : Nat) : Outcome × State :=
  match st.dirStack[index]? with
  | none => (.done, st)
  | some dest => enterDir sys st dest (rotateStack cwd index)

/-- `pushd` with a directory or without an argument. -/
def pushDir (sys : Sys) (st : State) (cwd : Bytes) (dest : Option Bytes) : Outcome × State :=
  match dest with
  | some dest =>
    if dirStackLimit < st.dirStack.length + 1 then (.reachesLimit, st)
    else enterDir sys st dest (· ++ [cwd])
  | none =>
    match st.dirStack.getLast? with
    | none => (.noOther, st)
    | some dest => enterDir sys st dest (·.dropLast ++ [cwd])

def pushd (sys : Sys) (st : State) (dest : Option Bytes) (index : Option Nat) : Outcome × State :=
  match getWorkingDir sys st with
  | none => (.cannotResolve, st)
  | some cwd =>
    match index with
    | none => pushDir sys st cwd dest
    | some index => pushRotate sys st cwd index

def popTop (sys : Sys) (st : State) : Outcome × State :=
  match st.dirStack.getLast? with
  | none => (.stackEmpty, st)
  | some dest => enterDir sys st dest (·.dropLast)

def popd (sys : Sys) (st : State) (index : Option Nat) : Outcome × State :=
  if st.dirStack = [] then (.stackEmpty, st)
  else
    match index with
    | none => popTop sys st
    | some index =>
      if index < st.dirStack.length then
        (.done, { st with dirStack := st.dirStack.eraseIdx index })
      else popTop sys st

/-- A stack above the limit is truncated. -/
def truncate (st : State) : State :=
  if dirStackLimit < st.dirStack.length then
    { st with dirStack := st.dirStack.take dirStackLimit }
  else st

/-- `builtin_pushd_popd` up to the output. -/
def updateDirStack (sys : Sys) (st : State) (cmd : Cmd) (args : List Bytes) : Outcome × State :=
  let st := truncate st
  match parseOptions args with
  | .help => (.help, st)
  | .invalid => (.invalidOption, st)
  | .operand dest =>
    match rotateIndex st.dirStack.length dest with
    | .error e => (e, st)
    | .ok index =>
      match cmd with
      | .pushd => pushd sys st dest index
      | .popd => popd sys st index

/-- `printDirStack` on one line; `home` is empty for full paths. -/
def printDirStack (dirStack : List Bytes) (cwd home : Bytes) : Bytes :=
  formatDir cwd home ++ dirStack.reverse.flatMap (fun dir => 32 :: formatDir dir home) ++ [10]

def enoent : Nat := 2

/-- The end of `builtin_pushd_popd`. -/
def printResult (sys : Sys) (st : State) : Outcome :=
  match getNewWorkingDir sys st with
  | none => .assertFailed
  | some cwd =>
    match dirsHome sys.env with
    | none => .ioError enoent
    | some home =>
      match sys.writeError with
      | some errNum => .ioError errNum
      | none => .printed (printDirStack st.dirStack cwd home)

/-- What a change of the directories comes to. -/
def thenPrint (sys : Sys) : Outcome × State → Outcome × State
  | (.done, st) => (printResult sys st, st)
  | res => res

def builtinPushdPopd (sys : Sys) (st : State) (cmd : Cmd) (args : List Bytes) : Outcome × State :=
  thenPrint sys (updateDirStack sys st cmd args)

/-- `DefaultDirStackProvider`. -/
def dirStackProvider (sys : Sys) (st : State) : DirStackProvider where
  size := min st.dirStack.length dirStackLimit
  get index :=
    if index < min st.dirStack.length dirStackLimit then (st.dirStack[index]?).getD []
    else if index = min st.dirStack.length dirStackLimit then (getWorkingDir sys st).getD []
    else []

end Arsh.Dirs
