import Arsh.Case.Checked
import Arsh.Lib.Labels
import Arsh.Lib.Machine
import Arsh.Obj.KeyLookup

/-!
# Compilation of case expressions

`generateMapCase` and `generateIfElseCase` of `codegen.cpp`, and the instructions that they emit. The first makes
a map from constants to the offsets of arms, for `LOOKUP_HASH`, and the second compares the subject with the
patterns one after another. An instruction stands for the code of the subject, and one for that of each arm.
-/

namespace Arsh.Case

open Obj Map Machine Labels

/-! ## Constants as values -/

def withinInt56 (n : Int) : Bool := -2 ^ 55 ≤ n ∧ n < 2 ^ 55

/-- `MAX_STR_SIZE` of a `TaggedValue`. -/
def maxSmallStr : Nat := 6

/-- The object that a constant needs: an integer that is too large for a value, or a string that is too long. -/
def ConstNode.object : ConstNode → Option Object
  | int value => if withinInt56 value.toInt then none else some (.int value.toInt)
  | string value => if value.length ≤ maxSmallStr then none else some (.string value)
  | _ => none

/-- The machine that a case expression is run by. -/
structure Env (node : CaseNode) (ε : Type) where
  heap : Heap
  /-- where the objects of constants are -/
  addr : ConstNode → Addr
  objects : ∀ c ∈ node.constNodes, ∀ o ∈ c.object, heap.get (addr c) = o
  /-- the seed of the map -/
  seed : UInt64
  /-- a bound of the loop of `Equality`, as keys are compared -/
  keyFuel : Nat
  two_le_keyFuel : 2 ≤ keyFuel
  /-- `RegexObject::search`, of the regex and its flag in a string -/
  search : Bytes → Bytes → Bytes → Except ε Bool
  /-- the action of an arm throws, returns or exits -/
  leaves : Nat → Bool
  nothing_leaves : ∀ i arm, node.armNodes[i]? = some arm → arm.nothing = true → leaves i = true

section
variable {node : CaseNode} {ε : Type} (env : Env node ε)

/-- `newObject`, of a number or of a string. -/
def Env.newObject (c : ConstNode) : Option Value :=
  match c with
  | .int value =>
    some (if withinInt56 value.toInt then .smallInt value.toInt else .object (env.addr c))
  | .signal value => some (.sig value.toInt)
  | .string value =>
    some (if value.length ≤ maxSmallStr then .smallStr value else .object (env.addr c))
  | .regex .. => none

/-! ## Code -/

inductive Label where
  | else
  | merge
  | default
  | armElse (index : Nat)
  | armMerge (index : Nat)
  /-- in front of a pattern that is not the first one of its arm -/
  | pattern (index patternIndex : Nat)
  deriving DecidableEq, Repr

inductive Ins where
  /-- the code of the subject -/
  | expr
  /-- the code of an arm -/
  | arm (index : Nat)
  | loadMap
  | lookupHash
  /-- the code of a pattern -/
  | const (c : ConstNode)
  | callEq
  | callMatch
  | dup
  | pop
  | pushTrue
  | checkInvalid
  | branch (label : Label)
  | goto (label : Label)
  | mark (label : Label)
  deriving DecidableEq, Repr

/-- The label that an instruction marks. -/
def Ins.label : Ins → Option Label
  | mark label => some label
  | _ => none

/-- Code behind `base` other instructions, and the map that it loads. -/
structure Code where
  base : Nat
  ins : List Ins := []
  map : OrderedMap Value Value := {}

namespace Code

def emit (code : Code) (ins : List Ins) : Code := { code with ins := code.ins ++ ins }

def currentCodeOffset (code : Code) : Nat := code.base + code.ins.length

end Code

/-- The value kind of a code offset. -/
def numberKind : Nat := 0x0B

/-! ## Code generation -/

/-- Keys are compared by `Equality`. -/
def Env.keyEq : Value → Value → Bool := keyEquality env.heap env.keyFuel

/-- `insert`, of the map. -/
def Env.insert (map : OrderedMap Value Value) (key value : Value) :
    Option ((Option Nat × InsertStatus) × OrderedMap Value Value) :=
  @OrderedMap.insert Value Value ⟨env.keyEq⟩ (Value.hash env.heap env.seed) map (some key) value

/-- `generateCaseLabels`. It is fatal when a constant is not inserted. -/
def Env.generateCaseLabels (arm : ArmNode) (code : Code) : Option Code :=
  let offset := code.currentCodeOffset
  arm.constPatternNodes.foldlM
    (fun code e => do
      let key ← env.newObject e
      let ((_, status), map) ← env.insert code.map key (.internal numberKind offset)
      if status = .ok then some { code with map := map } else none)
    code

/-- The type of the expression is `Nothing`, and so is that of all arms: without a default, it is `Void`. -/
def CaseNode.nothing (node : CaseNode) : Bool :=
  node.hasDefault && node.armNodes.all ArmNode.nothing

/-- The part of the loop of `generateMapCase` in front of an arm; `first` when there is no arm before. -/
def Env.enterArm (arm : ArmNode) (first : Bool) (code : Code) : Option Code :=
  let code := if first || node.nothing then code else code.emit [.goto .merge]
  if arm.isDefault then some (code.emit [.mark .else]) else env.generateCaseLabels arm code

/-- The loop of `generateMapCase`. -/
def Env.generateMapArms : List ArmNode → Nat → Bool → Code → Option Code
  | [], _, _, code => some code
  | arm :: arms, index, first, code => do
    let code ← env.enterArm arm first code
    Env.generateMapArms arms (index + 1) false (code.emit [.arm index])

def Env.generateMapCase (base : Nat) : Option Code := do
  let code : Code := { base := base }
  let code := code.emit [.loadMap, .expr, .lookupHash]
  let code := code.emit [.goto (if node.hasDefault then .else else .merge)]
  let code ← env.generateMapArms node.armNodes 0 true code
  return code.emit [.mark .merge]

/-- `visit` of a pattern, and the call of `==` or `=~`. -/
def generatePattern (c : ConstNode) : List Ins :=
  [.dup, .const c, if c.isRegex then .callMatch else .callEq]

/-- The loop of `generateIfElseArm`, from a pattern on. -/
def generatePatterns (index : Nat) : List ConstNode → Nat → List Ins
  | [], _ => []
  | c :: cs, patternIndex =>
    (if patternIndex > 0 then
      [.branch (.pattern index patternIndex), .pushTrue, .goto (.armMerge index),
        .mark (.pattern index patternIndex)]
    else []) ++ generatePattern c ++ generatePatterns index cs (patternIndex + 1)

def generateIfElseArm (index : Nat) (arm : ArmNode) : List Ins :=
  generatePatterns index arm.constPatternNodes 0 ++
    [.mark (.armMerge index), .branch (.armElse index), .pop, .arm index, .goto .merge,
      .mark (.armElse index)]

/-- The loop of `generateIfElseCase`, from an arm on. -/
def generateIfElseArms : List ArmNode → Nat → List Ins
  | [], _ => []
  | arm :: arms, index =>
    (if arm.isDefault then [] else generateIfElseArm index arm) ++ generateIfElseArms arms (index + 1)

/-- The last default arm. -/
def defaultIndex (arms : List ArmNode) : Option Nat :=
  arms.zipIdx.foldl (fun i e => if e.1.isDefault then some e.2 else i) none

/-- Only strings have the methods for `==` and `=~`: with any other type the reference is to nothing. -/
def generateIfElseCase (node : CaseNode) (base : Nat) : Option Code :=
  if node.exprType.elementType = .string then
    let code : Code := { base := base }
    let code := code.emit [.expr]
    let code := if node.exprType.isOption then code.emit [.dup, .checkInvalid, .branch .default] else code
    let code := code.emit (generateIfElseArms node.armNodes 0)
    let code := code.emit [.mark .default]
    let code :=
      match defaultIndex node.armNodes with
      | some i => code.emit [.pop, .arm i]
      | none => code
    some (code.emit [.mark .merge])
  else none

/-- `visitCaseNode` of the code generator, for the kind that the type checker sets. -/
def Env.generateCase (base : Nat) : Option Code :=
  match (visitCaseNode node).collector.kind with
  | .map => env.generateMapCase base
  | .ifElse => generateIfElseCase node base

/-! ## Execution -/

inductive Operand where
  | value (v : Value)
  /-- the map that the code loads -/
  | map
  | regex (reStr reFlag : Bytes)
  deriving DecidableEq, Repr

structure State where
  /-- the code from the instruction pointer on -/
  rest : List Ins
  stack : List Operand := []
  /-- the arms that were run -/
  ran : List Nat := []
  deriving DecidableEq, Repr

inductive Result (ε : Type) where
  /-- the end of the code, or an arm that leaves it -/
  | done (ran : List Nat)
  | raised (error : ε)
  | stuck
  deriving DecidableEq, Repr

/-- The offset of the arm, if the key is in the map. -/
def Env.lookupHash (map : OrderedMap Value Value) (key : Value) : Option (Option Nat) := do
  let index ← OrderedMapKey.lookup env.heap env.keyEq env.seed map (.value key)
  match index with
  | none => return none
  | some index =>
    match (map.entries.get index).map Entry.value with
    | some (.internal _ offset) => return some offset
    | _ => none

/-- The code from an offset on. -/
def Code.from (code : Code) (offset : Nat) : List Ins := code.ins.drop (offset - code.base)

/-- A step of the virtual machine. -/
def Env.step (code : Code) (subject : Value) (s : State) : State ⊕ Result ε :=
  match s.rest with
  | [] => .inr (.done s.ran)
  | ins :: rest =>
    let next (stack : List Operand) := .inl { s with rest := rest, stack := stack }
    let jump (label : Label) (stack : List Operand) :=
      match behind Ins.label label code.ins with
      | some rest => .inl { s with rest := rest, stack := stack }
      | none => .inr .stuck
    match ins, s.stack with
    | .expr, stack => next (.value subject :: stack)
    | .arm index, stack =>
      let ran := s.ran ++ [index]
      if env.leaves index then .inr (.done ran)
      else .inl { rest := rest, stack := stack, ran := ran }
    | .loadMap, stack => next (.map :: stack)
    | .lookupHash, .value key :: .map :: stack =>
      if key.isInvalid then next stack
      else
        match env.lookupHash code.map key with
        | some (some offset) => .inl { s with rest := code.from offset, stack := stack }
        | some none => next stack
        | none => .inr .stuck
    | .const (.regex reStr reFlag), stack => next (.regex reStr reFlag :: stack)
    | .const c, stack =>
      match env.newObject c with
      | some v => next (.value v :: stack)
      | none => .inr .stuck
    | .callEq, .value target :: .value this :: stack =>
      match this.asStrRef env.heap, target.asStrRef env.heap with
      | some left, some right => next (.value (.bool (left = right)) :: stack)
      | _, _ => .inr .stuck
    | .callMatch, .regex reStr reFlag :: .value this :: stack =>
      match this.asStrRef env.heap with
      | some str =>
        match env.search reStr reFlag str with
        | .ok r => next (.value (.bool r) :: stack)
        | .error e => .inr (.raised e)
      | none => .inr .stuck
    | .dup, v :: stack => next (v :: v :: stack)
    | .pop, _ :: stack => next stack
    | .pushTrue, stack => next (.value (.bool true) :: stack)
    | .checkInvalid, .value v :: stack => next (.value (.bool !v.isInvalid) :: stack)
    | .branch label, .value (.bool b) :: stack => if b then next stack else jump label stack
    | .goto label, stack => jump label stack
    | .mark _, stack => next stack
    | _, _ => .inr .stuck

end

end Arsh.Case
