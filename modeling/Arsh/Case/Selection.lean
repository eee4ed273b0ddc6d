import Arsh.Case.Codegen

/-!
# The arm of a case expression

What a case expression means: of the arms in source order, the first one with a pattern that is equal to the
subject, or that matches it, and else the default. `Dispatches` says that the type checker and the compiled code keep
to that.
-/

namespace Arsh.Case

open Obj Map Machine

/-! ## Meaning -/

/-- The type of what a value stands for, if it is one that patterns have. -/
def viewType : View → Option TYPE
  | .int _ => some .int
  | .sig _ => some .signal
  | .str _ => some .string
  | _ => none

/-- The values of the type of a subject. -/
def ExprType.Has (type : ExprType) : View → Prop
  | .invalid => type.isOption = true
  | x => viewType x = some type.elementType

/-- The value is that of the constant. -/
def ConstNode.equals : ConstNode → View → Bool
  | .int m, .int n => m.toInt = n
  | .signal m, .sig n => m.toInt = n
  | .string s, .str t => s = t
  | _, _ => false

/-- The first arm with a pattern that is accepted. -/
def firstArm {ε : Type} (accepts : ConstNode → Except ε Bool) :
    List ArmNode → Nat → Except ε (Option Nat)
  | [], _ => .ok none
  | arm :: arms, index => do
    if ← arm.constPatternNodes.anyM accepts then return some index
    else firstArm accepts arms (index + 1)

section
variable {node : CaseNode} {ε : Type} (env : Env node ε)

/-- A regex is searched for, and anything else is compared. -/
def Env.accepts (x : View) : ConstNode → Except ε Bool
  | .regex reStr reFlag =>
    match x with
    | .str s => env.search reStr reFlag s
    | _ => .ok false
  | c => .ok (c.equals x)

/-- The arm for a subject, if there is one. -/
def Env.selected (x : View) : Except ε (Option Nat) := do
  let index ← firstArm (env.accepts x) node.armNodes 0
  return index.or (node.armNodes.findIdx? ArmNode.isDefault)

/-- No more than the selected arm is run. -/
def Env.expected (x : View) : Result ε :=
  match env.selected x with
  | .ok index => .done index.toList
  | .error e => .raised e

/-- The code comes to a result. -/
def Env.Runs (code : Code) (subject : Value) (s : State) (r : Result ε) : Prop :=
  Halts (env.step code subject) s r

/-- A duplicated pattern is reported if two constants are equal, and the code of an accepted expression runs
the selected arm. -/
structure Env.Dispatches (base : Nat) : Prop where
  reported : node.Reported ↔ HasEqual node.constNodes
  runs : node.Accepted → ∃ code, env.generateCase base = some code ∧
    ∀ subject, node.exprType.Has (view env.heap subject) →
      env.Runs code subject { rest := code.ins } (env.expected (view env.heap subject))

end

/-! ## Where it does -/

/-- The sets do not take different constants for the same, or there are equal ones besides. -/
def CaseNode.Distinguished (node : CaseNode) : Prop :=
  HasEqual node.constNodes ∨ Apart node.constNodes

/-- With a regex, the subject has a type with `==` and `=~`; without, the constants fit into a map. -/
def CaseNode.Lowerable (node : CaseNode) : Prop :=
  if node.constNodes.any ConstNode.isRegex then node.exprType.elementType ≠ .nothing
  else node.constNodes.length ≤ maxSize

end Arsh.Case
