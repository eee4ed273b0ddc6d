import Arsh.Obj.Value

/-!
# Patterns of case expressions

`visitCaseNode` and `checkPatternType` of `type_checker.cpp`: the types of patterns, and the sets in which
constants are looked for twice. A string is in the set of its bytes up to the first zero. Errors are collected,
and an expression without any is accepted. What constant folding makes of a pattern is given.
-/

namespace Arsh.Case

open Obj

/-! ## Nodes -/

inductive TYPE where
  | int
  | signal
  | string
  | regex
  | nothing
  | other (id : Nat)
  deriving DecidableEq, Repr

/-- `isSameOrBaseTypeOf`, for a type of patterns. -/
def TYPE.isSameOrBaseTypeOf (type targetType : TYPE) : Bool :=
  type = targetType || targetType = .nothing

/-- A `NumberNode` of `Int` or `Signal`, a `StringNode` or a `RegexNode`. -/
inductive ConstNode where
  | int (value : Int64)
  | signal (value : Int32)
  | string (value : Bytes)
  | regex (reStr reFlag : Bytes)
  deriving DecidableEq, Repr

namespace ConstNode

def type : ConstNode → TYPE
  | int _ => .int
  | signal _ => .signal
  | string _ => .string
  | regex .. => .regex

/-- `getIntValue`, of a `NumberNode`. -/
def getIntValue : ConstNode → Option Int64
  | int value => some value
  | signal value => some value.toInt64
  | _ => none

/-- `getValue`, of a `StringNode`. -/
def getValue : ConstNode → Option Bytes
  | string value => some value
  | _ => none

def isRegex : ConstNode → Bool
  | regex .. => true
  | _ => false

end ConstNode

inductive PatternNode where
  | const (node : ConstNode)
  /-- an expression that is no constant -/
  | expr (type : TYPE)
  deriving DecidableEq, Repr

def PatternNode.type : PatternNode → TYPE
  | const node => node.type
  | expr type => type

def PatternNode.evalConstant : PatternNode → Option ConstNode
  | const node => some node
  | expr _ => none

structure ArmNode where
  patternNodes : List PatternNode
  /-- whether the action is of type `Nothing` -/
  nothing : Bool
  deriving DecidableEq, Repr

namespace ArmNode

def isDefault (arm : ArmNode) : Bool := arm.patternNodes.isEmpty

/-- `constPatternNodes`, where constant folding did not fail. -/
def constPatternNodes (arm : ArmNode) : List ConstNode :=
  (arm.patternNodes.mapM PatternNode.evalConstant).getD []

end ArmNode

/-- A type, or its option type. -/
structure ExprType where
  isOption : Bool
  elementType : TYPE
  deriving DecidableEq, Repr

inductive Kind where
  | map
  | ifElse
  deriving DecidableEq, Repr

structure CaseNode where
  exprType : ExprType
  armNodes : List ArmNode
  deriving DecidableEq, Repr

def CaseNode.hasDefault (node : CaseNode) : Bool := node.armNodes.any ArmNode.isDefault

/-! ## Sets of constants -/

/-- What `strcmp` reads. -/
def cstr (s : Bytes) : Bytes := s.takeWhile (· ≠ 0)

inductive PatternMap where
  | int (set : List Int64)
  | str (set : List Bytes)

/-- `insert` of a set: whether it was not there. -/
def insertInto {α : Type} [DecidableEq α] (set : List α) (x : α) : Bool × List α :=
  if x ∈ set then (false, set) else (true, set ++ [x])

def PatternMap.collect : PatternMap → ConstNode → Bool × PatternMap
  | int set, constNode =>
    match constNode.getIntValue with
    | none => (false, int set)
    | some value =>
      let (inserted, set) := insertInto set value
      (inserted, int set)
  | str set, constNode =>
    match constNode.getValue with
    | none => (false, str set)
    | some value =>
      let (inserted, set) := insertInto set (cstr value)
      (inserted, str set)

structure PatternCollector where
  kind : Kind := .map
  elsePattern : Bool := false
  map : Option PatternMap := none
  type : Option TYPE := none

/-- `PatternCollector::collect`: the first constant decides on the set. -/
def PatternCollector.collect (collector : PatternCollector) (constNode : ConstNode) :
    Bool × PatternCollector :=
  let map := collector.map.or <|
    match constNode with
    | .int _ | .signal _ => some (.int [])
    | .string _ => some (.str [])
    | .regex .. => none
  match map with
  | none => (false, collector)
  | some map =>
    let (collected, map) := map.collect constNode
    (collected, { collector with map := some map })

/-! ## Type checking -/

inductive TypeError where
  | unacceptable (type : TYPE)
  | required (type actual : TYPE)
  | needPattern
  | constant
  | dupPattern (node : ConstNode)
  /-- `DupPattern` of an `else` -/
  | dupElse
  deriving DecidableEq, Repr

structure Checker where
  collector : PatternCollector := {}
  errors : List TypeError := []

namespace Checker

def reportError (s : Checker) (error : TypeError) : Checker :=
  { s with errors := s.errors ++ [error] }

/-- The part of `checkPatternType` for the type of a pattern. -/
def checkType (s : Checker) (e : PatternNode) : Checker :=
  let s := if e.type ∈ [TYPE.int, .signal, .string, .regex] then s
    else s.reportError (.unacceptable e.type)
  let s := if e.type = .regex then { s with collector := { s.collector with kind := .ifElse } } else s
  let type := if e.type = .regex then .string else e.type
  match s.collector.type with
  | none => { s with collector := { s.collector with type := some type } }
  | some required => if required = type then s else s.reportError (.required required type)

/-- The part of `checkPatternType` for the value of a pattern. -/
def checkDup (s : Checker) (e : ConstNode) : Checker :=
  if e.isRegex then s
  else
    let (collected, collector) := s.collector.collect e
    let s := { s with collector := collector }
    if collected then s else s.reportError (.dupPattern e)

/-- The part of `checkPatternType` for an arm without patterns. -/
def checkElse (s : Checker) (node : ArmNode) : Checker :=
  if node.isDefault then
    let s := if s.collector.elsePattern then s.reportError .dupElse else s
    { s with collector := { s.collector with elsePattern := true } }
  else s

def checkPatternType (s : Checker) (node : ArmNode) : Checker :=
  let s := node.patternNodes.foldl checkType (s.checkElse node)
  match node.patternNodes.mapM PatternNode.evalConstant with
  | none => s.reportError .constant
  | some constNodes => constNodes.foldl checkDup s

end Checker

/-- `visitCaseNode`, where nothing is wrong with the actions. -/
def visitCaseNode (node : CaseNode) : Checker :=
  let s := node.armNodes.foldl Checker.checkPatternType {}
  match s.collector.type with
  | some patternType =>
    if patternType.isSameOrBaseTypeOf node.exprType.elementType then s
    else s.reportError (.required patternType node.exprType.elementType)
  | none => s.reportError .needPattern

end Arsh.Case
