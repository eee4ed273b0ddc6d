import Arsh.Misc.NumUtil

/-!
# The operators of `test`

The expressions of one to three arguments of `cmd_test.cpp`. A status is the code with the error
that was reported, if there is one. What the system says of files is a parameter.
-/

namespace Arsh.Test

abbrev Bytes := List Nat

def word (w : List Char) : Bytes := w.map Char.toNat

inductive UnaryFileOp where
  | isExist
  | isBlock
  | isChar
  | isDir
  | isFile
  | hasGidBit
  | isSymlink
  | hasStikyBit
  | isNamedPipe
  | isReadable
  | isSizeNonZero
  | isTty
  | hasUidBit
  | isWritable
  | isExecutable
  | isOwnedByEgid
  | isOwnedByEuid
  | isSocket
  deriving DecidableEq, Repr

inductive BinaryOp where
  | strEq
  | strNe
  | strLt
  | strGt
  | eq
  | ne
  | lt
  | gt
  | le
  | ge
  | nt
  | ot
  | ef
  deriving DecidableEq, Repr

/-- `testFile`, and what `compareFile` says of two files, by system calls. -/
structure System where
  testFile : UnaryFileOp → Bytes → Bool
  compareFile : BinaryOp → Bytes → Bytes → Bool

/-- What `ERROR` reports. -/
inductive Report where
  | notInteger (arg : Bytes)
  | nullCharacters
  | emptyParens
  | needCloseParen (actual : Bytes)
  | invalidUnary (op : Bytes)
  | invalidBinary (op : Bytes)
  | tooManyArguments
  | tooManyNesting
  deriving DecidableEq, Repr

structure Status where
  code : Nat
  report : Option Report
  deriving DecidableEq, Repr

namespace Status

/-- `b ? 0 : 1`. -/
def ofBool (b : Bool) : Status := ⟨if b then 0 else 1, none⟩

def error (r : Report) : Status := ⟨2, some r⟩

end Status

/-! ## One and two arguments -/

def eval1ArgExpr (arg : Bytes) : Status := .ofBool (arg ≠ [])

def fileOps : List (Char × UnaryFileOp) :=
  [('e', .isExist), ('L', .isSymlink), ('a', .isExist), ('b', .isBlock), ('c', .isChar),
    ('d', .isDir), ('f', .isFile), ('g', .hasGidBit), ('h', .isSymlink), ('k', .hasStikyBit),
    ('p', .isNamedPipe), ('r', .isReadable), ('s', .isSizeNonZero), ('t', .isTty),
    ('u', .hasUidBit), ('w', .isWritable), ('x', .isExecutable), ('G', .isOwnedByEgid),
    ('O', .isOwnedByEuid), ('S', .isSocket)]

/-- `resolveFileOp`; `INVALID` is `none`. -/
def resolveFileOp (ch : Nat) : Option UnaryFileOp :=
  (fileOps.find? fun e => e.1.toNat == ch).map (·.2)

def negateStatus (status : Status) : Status :=
  if status.code = 0 then { status with code := 1 }
  else if status.code = 1 then { status with code := 0 }
  else status

def needCloseParen (actual : Bytes) : Status := .error (.needCloseParen actual)

/-- The end of `eval2ArgsExpr`. -/
def eval2ArgsError (op arg : Bytes) : Status :=
  if op = word ['('] then
    if arg = word [')'] then .error .emptyParens
    else needCloseParen []
  else .error (.invalidUnary op)

def eval2ArgsExpr (sys : System) (op arg : Bytes) : Status :=
  if op = word ['!'] then negateStatus (eval1ArgExpr arg)
  else
    match op with
    | [45, opKind] =>
      if opKind = 'z'.toNat then .ofBool (arg = [])
      else if opKind = 'n'.toNat then .ofBool (arg ≠ [])
      else
        match resolveFileOp opKind with
        | some fileOp =>
          if arg.contains 0 then .error .nullCharacters else .ofBool (sys.testFile fileOp arg)
        | none => eval2ArgsError op arg
    | _ => eval2ArgsError op arg

def isUnaryOp (op : Bytes) : Bool :=
  match op with
  | [45, o] => o == 'z'.toNat || o == 'n'.toNat || (resolveFileOp o).isSome
  | _ => false

/-! ## Three arguments -/

def binaryOps : List (List Char × BinaryOp) :=
  [(['='], .strEq), (['-', 'e', 'q'], .eq), (['-', 'n', 'e'], .ne), (['-', 'l', 't'], .lt),
    (['-', 'g', 't'], .gt), (['-', 'l', 'e'], .le), (['-', 'g', 'e'], .ge), (['=', '='], .strEq),
    (['!', '='], .strNe), (['<'], .strLt), (['>'], .strGt), (['-', 'n', 't'], .nt),
    (['-', 'o', 't'], .ot), (['-', 'e', 'f'], .ef)]

/-- `resolveBinaryOp`; `INVALID` is `none`. -/
def resolveBinaryOp (opStr : Bytes) : Option BinaryOp :=
  (binaryOps.find? fun e => word e.1 == opStr).map (·.2)

def compareStr (left : Bytes) (op : BinaryOp) (right : Bytes) : Bool :=
  match op with
  | .strEq => left == right
  | .strNe => left != right
  | .strLt => left < right
  | .strGt => right < left
  | _ => false

def compareInt (x : Int) (op : BinaryOp) (y : Int) : Bool :=
  match op with
  | .eq => x == y
  | .ne => x != y
  | .lt => x < y
  | .gt => y < x
  | .le => x ≤ y
  | .ge => y ≤ x
  | _ => false

def compareFile (sys : System) (x : Bytes) (op : BinaryOp) (y : Bytes) : Bool :=
  if x.contains 0 || y.contains 0 then false else sys.compareFile op x y

/-- `convertToNum10<int64_t>` of an argument, which a NUL ends. -/
def convertToNum10 (arg : Bytes) : Option Int :=
  let ret := (NumUtil.parseSigned NumUtil.Width.w64.size arg 0 10).1
  if ret.kind = .ok then some ret.value else none

/-- The operators of `EACH_BINARY_INT_COMP_OP`. -/
def compareIntArgs (left : Bytes) (op : BinaryOp) (right : Bytes) : Status :=
  match convertToNum10 left with
  | none => .error (.notInteger left)
  | some n1 =>
    match convertToNum10 right with
    | none => .error (.notInteger right)
    | some n2 => .ofBool (compareInt n1 op n2)

def evalBinary (sys : System) (left : Bytes) (op : BinaryOp) (right : Bytes) : Status :=
  match op with
  | .strEq | .strNe | .strLt | .strGt => .ofBool (compareStr left op right)
  | .eq | .ne | .lt | .gt | .le | .ge => compareIntArgs left op right
  | .nt | .ot | .ef => .ofBool (compareFile sys left op right)

def eval3ArgsExpr (sys : System) (left opStr right : Bytes) : Status :=
  match resolveBinaryOp opStr with
  | some op => evalBinary sys left op right
  | none =>
    if opStr = word ['-', 'a'] then
      .ofBool ((eval1ArgExpr left).code = 0 ∧ (eval1ArgExpr right).code = 0)
    else if opStr = word ['-', 'o'] then
      .ofBool ((eval1ArgExpr left).code = 0 ∨ (eval1ArgExpr right).code = 0)
    else if left = word ['!'] then negateStatus (eval2ArgsExpr sys opStr right)
    else if left = word ['('] then
      if right = word [')'] then eval1ArgExpr opStr else needCloseParen right
    else .error (.invalidBinary opStr)

/-! ## Codes -/

section
variable {sys : System} {s : Status} {a b op : Bytes}

/-- The status is a truth value, and not an error. -/
def Status.Decided (s : Status) : Prop := s.code = 0 ∨ s.code = 1

instance : DecidablePred Status.Decided := fun s => by
  unfold Status.Decided
  infer_instance

@[simp] theorem Status.decided_ofBool (b : Bool) : (Status.ofBool b).Decided := by
  cases b
  · exact .inr rfl
  · exact .inl rfl

@[simp] theorem Status.not_decided_error (r : Report) : ¬ (Status.error r).Decided := by
  simp [Status.Decided, Status.error]

@[simp] theorem Status.code_ofBool (b : Bool) : (Status.ofBool b).code = if b then 0 else 1 := rfl

@[simp] theorem decided_eval1ArgExpr (a : Bytes) : (eval1ArgExpr a).Decided :=
  Status.decided_ofBool _

@[simp] theorem negateStatus_ofBool (b : Bool) :
    negateStatus (.ofBool b) = .ofBool !b := by
  cases b <;> rfl

theorem code_negateStatus_le {k : Nat} (hk : 1 ≤ k) (h : s.code ≤ k) :
    (negateStatus s).code ≤ k := by
  unfold negateStatus
  split
  · exact hk
  · split
    · exact Nat.zero_le k
    · exact h

theorem Status.code_ofBool_le (b : Bool) : (Status.ofBool b).code ≤ 2 := by
  cases b <;> decide

theorem eval2ArgsError_code : (eval2ArgsError op a).code = 2 := by
  unfold eval2ArgsError needCloseParen
  split
  · split <;> rfl
  · rfl

theorem eval2ArgsExpr_code : (eval2ArgsExpr sys op a).code ≤ 2 := by
  unfold eval2ArgsExpr
  split
  · exact code_negateStatus_le (by omega) (Status.code_ofBool_le _)
  · split
    · split
      · exact Status.code_ofBool_le _
      · split
        · exact Status.code_ofBool_le _
        · split
          · split
            · exact Nat.le_refl 2
            · exact Status.code_ofBool_le _
          · exact Nat.le_of_eq eval2ArgsError_code
    · exact Nat.le_of_eq eval2ArgsError_code

theorem compareIntArgs_code {o : BinaryOp} : (compareIntArgs a o b).code ≤ 2 := by
  unfold compareIntArgs
  split
  · exact Nat.le_refl 2
  · split
    · exact Nat.le_refl 2
    · exact Status.code_ofBool_le _

theorem evalBinary_code {o : BinaryOp} : (evalBinary sys a o b).code ≤ 2 := by
  cases o <;> first | exact Status.code_ofBool_le _ | exact compareIntArgs_code

theorem eval3ArgsExpr_code : (eval3ArgsExpr sys a op b).code ≤ 2 := by
  unfold eval3ArgsExpr
  split
  · exact evalBinary_code
  · split
    · exact Status.code_ofBool_le _
    · split
      · exact Status.code_ofBool_le _
      · split
        · exact code_negateStatus_le (by omega) eval2ArgsExpr_code
        · split
          · split
            · exact Status.code_ofBool_le _
            · exact Nat.le_refl 2
          · exact Nat.le_refl 2

end

end Arsh.Test
