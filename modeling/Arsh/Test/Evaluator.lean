import Arsh.Test.Ops

/-!
# The evaluator of `test`

`Evaluator` of `cmd_test.cpp`. An access beyond the arguments and a failed assertion stop the
evaluation. The functions call one another with gotos between `INIT` and `OTHER`; each takes fuel,
and the fuel that is enough is part of what is proved of them.
-/

namespace Arsh.Test

/-- What stops the evaluation other than by a status. -/
inductive Stop where
  | bounds
  | assertion
  | fuel
  deriving DecidableEq, Repr

structure Evaluator where
  offset : Nat
  depth : Nat
  deriving DecidableEq, Repr

def recursionLimit : Nat := 16

/-- A status and the state behind it. -/
abbrev Outcome := Except Stop (Status × Evaluator)

def get (argvObj : List Bytes) (index : Nat) : Except Stop Bytes :=
  match argvObj[index]? with
  | some arg => .ok arg
  | none => .error .bounds

namespace Evaluator

def consume (ev : Evaluator) (argvObj : List Bytes) : Except Stop (Bytes × Evaluator) := do
  let arg ← get argvObj ev.offset
  return (arg, { ev with offset := ev.offset + 1 })

def current (ev : Evaluator) (argvObj : List Bytes) : Except Stop Bytes := get argvObj ev.offset

end Evaluator

section
variable (sys : System) (argvObj : List Bytes)

mutual

/-- `evalOrExpr` with the status `s1` of the operands before; the loop begins with 1. -/
def evalOrExpr : Nat → Nat → Nat → Nat → Evaluator → Outcome
  | 0, _, _, _, _ => .error .fuel
  | n + 1, limitOffset, level, s1, ev => do
    let (s2, ev) ← evalAndExpr n limitOffset level 0 ev
    if ¬ s2.Decided then return (s2, ev)
    else
      let s1 := if s1 = 0 ∨ s2.code = 0 then 0 else 1
      let more ← if ev.offset < limitOffset then do
          let arg ← ev.current argvObj
          pure (decide (arg = word ['-', 'o']))
        else pure false
      if more then do
        let (_, ev) ← ev.consume argvObj
        evalOrExpr n limitOffset level s1 ev
      else return (⟨s1, none⟩, ev)
termination_by structural n => n

/-- `evalAndExpr` with the status `s1` of the operands before; the loop begins with 0. -/
def evalAndExpr : Nat → Nat → Nat → Nat → Evaluator → Outcome
  | 0, _, _, _, _ => .error .fuel
  | n + 1, limitOffset, level, s1, ev => do
    let (s2, ev) ← evalBase n limitOffset level ev
    if ¬ s2.Decided then return (s2, ev)
    else
      let s1 := if s1 = 0 ∧ s2.code = 0 then 0 else 1
      let more ← if ev.offset < limitOffset then do
          let arg ← ev.current argvObj
          pure (decide (arg = word ['-', 'a']))
        else pure false
      if more then do
        let (_, ev) ← ev.consume argvObj
        evalAndExpr n limitOffset level s1 ev
      else return (⟨s1, none⟩, ev)
termination_by structural n => n

def evalBase : Nat → Nat → Nat → Evaluator → Outcome
  | 0, _, _, _ => .error .fuel
  | n + 1, limitOffset, level, ev => do
    let ev := { ev with depth := ev.depth + 1 }
    let (s, ev) ←
      if ev.depth = recursionLimit then .ok (⟨3, some .tooManyNesting⟩, ev)
      else if level ≠ 0 then evalOther n limitOffset level ev
      else evalInit n limitOffset level ev
    return (s, { ev with depth := ev.depth - 1 })
termination_by structural n => n

/-- `evalBase` from the label `INIT`. -/
def evalInit : Nat → Nat → Nat → Evaluator → Outcome
  | 0, _, _, _ => .error .fuel
  | n + 1, limitOffset, level, ev =>
    if limitOffset < ev.offset then .error .assertion
    else
      match limitOffset - ev.offset with
      | 0 => .ok (.ofBool false, ev)
      | 1 => do
        let (arg, ev) ← ev.consume argvObj
        return (eval1ArgExpr arg, ev)
      | 2 => do
        let (arg1, ev) ← ev.consume argvObj
        let (arg2, ev) ← ev.consume argvObj
        return (eval2ArgsExpr sys arg1 arg2, ev)
      | 3 => do
        let (arg1, ev) ← ev.consume argvObj
        let (arg2, ev) ← ev.consume argvObj
        let (arg3, ev) ← ev.consume argvObj
        return (eval3ArgsExpr sys arg1 arg2 arg3, ev)
      | 4 => do
        let oldEv := ev
        let (arg1, ev) ← ev.consume argvObj
        let (arg2, ev) ← ev.consume argvObj
        let (arg3, ev) ← ev.consume argvObj
        let (arg4, ev) ← ev.consume argvObj
        if arg1 = word ['!'] then return (negateStatus (eval3ArgsExpr sys arg2 arg3 arg4), ev)
        else if arg1 = word ['('] then
          if arg4 = word [')'] then return (eval2ArgsExpr sys arg2 arg3, ev)
          else return (needCloseParen arg4, ev)
        else evalOther n limitOffset level oldEv
      | _ => evalOther n limitOffset level ev
termination_by structural n => n

/-- `evalBase` from the label `OTHER`. -/
def evalOther : Nat → Nat → Nat → Evaluator → Outcome
  | 0, _, _, _ => .error .fuel
  | n + 1, limitOffset, level, ev => do
    let arg ← ev.current argvObj
    if arg = word ['!'] then do
      let (_, ev) ← ev.consume argvObj
      evalInit n limitOffset level ev
    else if arg = word ['('] then do
      let (_, ev) ← ev.consume argvObj
      let (s, ev) ← evalOrExpr n limitOffset (level + 1) 1 ev
      if ¬ s.Decided then return (s, ev)
      else
        let (close, ev) ← if ev.offset < limitOffset then ev.consume argvObj else .ok ([], ev)
        if close ≠ word [')'] then return (needCloseParen close, ev)
        else return (s, ev)
    else if limitOffset < ev.offset then .error .assertion
    else
      let remain := limitOffset - ev.offset
      let binary ← if 3 ≤ remain then do
          let op ← get argvObj (ev.offset + 1)
          pure (resolveBinaryOp op).isSome
        else pure false
      if binary then evalInit n (ev.offset + 3) level ev
      else do
        let unary ← if 2 ≤ remain then do
            let op ← get argvObj ev.offset
            pure (isUnaryOp op)
          else pure false
        if unary then evalInit n (ev.offset + 2) level ev
        else if 1 ≤ remain then evalInit n (ev.offset + 1) level ev
        else return (.ofBool false, ev)
termination_by structural n => n

end

/-- `Evaluator::eval`; the arguments begin behind the name of the command. -/
def eval (fuel : Nat) : Outcome := do
  let size := argvObj.length
  let (s, ev) ← evalOrExpr sys argvObj fuel size 0 1 ⟨1, 0⟩
  if ¬ s.Decided then return (s, ev)
  else if ev.offset < size then return (.error .tooManyArguments, ev)
  else return (s, ev)

end

end Arsh.Test
