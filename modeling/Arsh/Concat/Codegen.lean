import Arsh.Concat.Append

/-!
# Compilation of string concatenations

`generateConcat` of `codegen.cpp`, and the instructions that it emits. Without `fragment` the code pushes a string,
and with it the code appends to the string on the top. What other expressions do is a parameter: their code
pushes one value, or fails.
-/

namespace Arsh.Concat

/-! ## Nodes -/

/-- `EmbedNode::Kind`. -/
inductive EmbedKind where
  | strExpr
  | cmdArg
  deriving DecidableEq, Repr

inductive Node where
  /-- a string that is not escaped -/
  | string (value : Bytes)
  | stringExpr (exprNodes : List Node)
  /-- an addition that is no method call -/
  | add (left right : Node)
  /-- with a method that is called on the value, or without -/
  | embed (kind : EmbedKind) (handle : Bool) (exprNode : Node)
  /-- any other expression, and whether its type is `String` -/
  | expr (id : Nat) (isString : Bool)

namespace Node

/-- The type is `String`. -/
def isString : Node → Bool
  | string .. | stringExpr _ | add .. => true
  | embed _ handle exprNode => handle || exprNode.isString
  | expr _ isString => isString

def isStringNode : Node → Bool
  | string .. => true
  | _ => false

def isStringExprNode : Node → Bool
  | stringExpr _ => true
  | _ => false

def isEmbedNode : Node → Bool
  | embed .. => true
  | _ => false

end Node

def isBinaryStrConcat : Node → Bool
  | .add left _ => left.isString
  | _ => false

/-! ## Code -/

inductive Ins where
  /-- `PUSH_STR0` to `PUSH_STR3` -/
  | pushStr (value : Bytes)
  | loadConst (value : Bytes)
  /-- the code of an expression -/
  | block (node : Node)
  | callMethod
  | concat
  | interpolate

def emitString (value : Bytes) : List Ins :=
  if value.length ≤ 3 then [.pushStr value] else [.loadConst value]

def visitStringNode (value : Bytes) : List Ins := emitString value

mutual

def visit (node : Node) : List Ins :=
  match node with
  | .string value => visitStringNode value
  | .stringExpr exprNodes => generateConcat (.stringExpr exprNodes) false
  | .add left right =>
    if left.isString then generateConcat (.add left right) false else [.block (.add left right)]
  | .embed _ handle exprNode => visit exprNode ++ if handle then [.callMethod] else []
  | .expr .. => [.block node]
termination_by (sizeOf node, 1)

def generateConcat (node : Node) (fragment : Bool) : List Ins :=
  match node with
  | .string value =>
    if value = [] ∧ fragment then []
    else visitStringNode value ++ if fragment then [.concat] else []
  | .stringExpr exprNodes =>
    if ¬ fragment ∧ ¬ exprNodes.head?.any Node.isStringNode then
      .pushStr [] :: generateConcatAll exprNodes true
    else generateConcatAll exprNodes fragment
  | .add left right =>
    if isBinaryStrConcat (.add left right) then generateConcat left fragment ++ generateConcat right true
    else .block (.add left right) :: if fragment then [.concat] else []
  | .embed kind handle exprNode =>
    if isBinaryStrConcat exprNode ∨ exprNode.isStringExprNode ∨ exprNode.isStringNode then
      generateConcat exprNode fragment
    else if kind = .strExpr then visit exprNode ++ [.interpolate]
    else
      visit exprNode ++ (if handle then [.callMethod] else []) ++ if fragment then [.concat] else []
  | .expr .. => .block node :: if fragment then [.concat] else []
termination_by (sizeOf node, 0)

/-- The loop over the nodes of a string expression. -/
def generateConcatAll (exprNodes : List Node) (fragment : Bool) : List Ins :=
  match exprNodes with
  | [] => []
  | exprNode :: exprNodes => generateConcat exprNode fragment ++ generateConcatAll exprNodes true
termination_by (sizeOf exprNodes, 0)

end

/-! ## Execution -/

/-- What is on the stack: a string, or another value. -/
inductive Operand (α : Type) where
  | str (s : Bytes)
  | other (v : α)

/-- What the rest of the machine does, where `σ` is all of its state. -/
structure Env (σ α ε : Type) where
  /-- the code of an expression -/
  eval : Node → σ → Except ε (Operand α × σ)
  /-- the method of an embedded expression -/
  call : Operand α → σ → Except ε (Operand α × σ)
  /-- the pieces of `opStr`, or of `opInterp`, and what is wrong behind them -/
  pieces : Bool → α → σ → List Bytes × Option ε
  /-- `raiseStringLimit` -/
  stringLimit : ε

section
variable {σ α ε : Type} (env : Env σ α ε)

/-- `concatAsStr`, with or without `INTERPOLATE`. -/
def Env.concat (interp : Bool) (left : Bytes) (right : Operand α) (s : σ) : Except ε Bytes :=
  match right with
  | .str t => (concatText left (.str t)).elim (.error env.stringLimit) .ok
  | .other v =>
    match concatText left (.pieces (env.pieces interp v s).1), (env.pieces interp v s).2 with
    | none, _ => .error env.stringLimit
    | some _, some e => .error e
    | some out, none => .ok out

/-- A machine without enough operands is stuck. -/
abbrev Run (ε : Type) := ExceptT ε Option

abbrev State (σ α : Type) := List (Operand α) × σ

/-- One instruction. -/
def Env.step (m : State σ α) : Ins → Run ε (State σ α)
  | .pushStr value | .loadConst value => pure (.str value :: m.1, m.2)
  | .block node => .mk (some ((env.eval node m.2).map fun r => (r.1 :: m.1, r.2)))
  | .callMethod =>
    match m.1 with
    | v :: stack => .mk (some ((env.call v m.2).map fun r => (r.1 :: stack, r.2)))
    | [] => .mk none
  | .concat => concatTop false m
  | .interpolate => concatTop true m
where
  concatTop (interp : Bool) (m : State σ α) : Run ε (State σ α) :=
    match m.1 with
    | right :: .str left :: stack =>
      .mk (some ((env.concat interp left right m.2).map fun out => (.str out :: stack, m.2)))
    | _ => .mk none

def Env.exec (code : List Ins) (m : State σ α) : Run ε (State σ α) :=
  code.foldlM env.step m

end

end Arsh.Concat
