import Mathlib.Algebra.Group.Nat.Defs
import Mathlib.Tactic.Common

/-!
# The operand stack of the virtual machine

`VMState`: one array of operands for all frames. The current frame has the index of its top, which
is increased before a push, and the lowest top it may have; `wind` saves the frame and enters the
code of a callee, whose parameters are the topmost operands of the caller.

Indices are `unsigned int`, so sums and differences are taken modulo `2 ^ 32`. Every access of the
array is checked: a function is `none` when it reads or writes outside of the array.
-/

namespace Arsh.Vm

/-- Number of values of an `unsigned int`. -/
def word : Nat := 2 ^ 32

def add32 (a b : Nat) : Nat := (a + b) % word

def sub32 (a b : Nat) : Nat := (a + (word - b % word)) % word

theorem add32_of_lt {a b : Nat} (h : a + b < word) : add32 a b = a + b := Nat.mod_eq_of_lt h

theorem sub32_of_le {a b : Nat} (h : b ≤ a) (ha : a < word) : sub32 a b = a - b := by
  unfold sub32
  rw [Nat.mod_eq_of_lt (by omega : b < word)]
  rw [show a + (word - b) = (a - b) + word by omega, Nat.add_mod_right]
  exact Nat.mod_eq_of_lt (by omega)

/-- `ARCode`; `code` is the address of the first instruction. -/
structure ARCode where
  localVarNum : Fin 256
  stackDepth : Fin 65536
  code : Nat
deriving DecidableEq

structure ControlFrame where
  code : Option ARCode := none
  ip : Nat := 0
  stackTopIndex : Nat := 0
  stackBottomIndex : Nat := 0
  localVarOffset : Nat := 0
deriving DecidableEq

def maxFrameSize : Nat := 2048

/-- The machine over values `V`; an operand is `none` when it is empty. The last of the saved frames
is the head of `frames`. -/
structure VMState (V : Type) where
  frame : ControlFrame := {}
  frames : List ControlFrame := []
  operands : List (Option V) := List.replicate 64 none
deriving DecidableEq

namespace VMState

variable {V : Type}

def operandsSize (s : VMState V) : Nat := s.operands.length

abbrev top (s : VMState V) : Nat := s.frame.stackTopIndex

abbrev bottom (s : VMState V) : Nat := s.frame.stackBottomIndex

def setTop (s : VMState V) (i : Nat) : VMState V :=
  { s with frame := { s.frame with stackTopIndex := i } }

/-- Write an operand. -/
def store (s : VMState V) (i : Nat) (v : Option V) : Option (VMState V) :=
  if i < s.operandsSize then some { s with operands := s.operands.set i v } else none

/-- `push`: the index is increased first. -/
def push (s : VMState V) (v : V) : Option (VMState V) :=
  let i := add32 s.top 1
  (s.setTop i).store i (some v)

/-- `pop`: the operand is moved out. -/
def pop (s : VMState V) : Option (Option V × VMState V) :=
  let i := s.top
  ((s.setTop (sub32 i 1)).store i none).map fun s' => (s.operands[i]?.join, s')

def popNoReturn (s : VMState V) : Option (VMState V) :=
  let i := s.top
  (s.setTop (sub32 i 1)).store i none

/-- `while (top > old) popNoReturn()`; there are at most as many rounds as the first argument says. -/
def popUntil (old : Nat) : Nat → VMState V → Option (VMState V)
  | 0, s => some s
  | n + 1, s => if s.top > old then s.popNoReturn.bind (popUntil old n) else some s

/-! ## Growth -/

/-- The loop of `resize`, for a number of rounds. -/
def grow (afterSize : Nat) : Nat → Nat → Option Nat
  | 0, _ => none
  | n + 1, newSize =>
    let newSize := add32 newSize (newSize / 2)
    if newSize < afterSize then grow afterSize n newSize else some newSize

/-- `resize`: the operands up to the top are moved. A loop that does not end in `word` rounds comes
back to a size it had before, and does not end at all. -/
def resize (s : VMState V) (afterSize : Nat) : Option (VMState V) :=
  (grow afterSize word s.operandsSize).bind fun newSize =>
    if s.top < s.operandsSize ∧ s.top < newSize then
      some { s with operands :=
        s.operands.take (s.top + 1) ++ List.replicate (newSize - (s.top + 1)) none }
    else none

def reserve (s : VMState V) (add : Nat) : Option (VMState V) :=
  let afterSize := add32 s.top add
  if afterSize < s.operandsSize then some s else s.resize afterSize

/-! ## Frames -/

/-- What `wind` needs above the top of the caller: its other variables and its operands. -/
def winding (paramSize : Nat) (code : ARCode) : Nat :=
  add32 (sub32 code.localVarNum paramSize) code.stackDepth

/-- `wind`: `false` when there are too many frames. -/
def wind (s : VMState V) (stackTopOffset paramSize : Nat) (code : ARCode) :
    Option (Bool × VMState V) :=
  let maxVarSize : Nat := code.localVarNum
  let localVarOffset := add32 (sub32 s.top paramSize) 1
  if s.frames.length = maxFrameSize then some (false, s) else
  -- the saved frame does not have the arguments of the call
  let saved := { s.frame with stackTopIndex := sub32 s.top stackTopOffset }
  let s := { s with frames := saved :: s.frames }
  (s.reserve (winding paramSize code)).map fun s =>
    let i := add32 s.top (sub32 maxVarSize paramSize)
    (true, { s with frame := { code := some code, stackTopIndex := i, stackBottomIndex := i,
                               localVarOffset := localVarOffset, ip := code.code } })

def unwind (s : VMState V) : Option (VMState V) :=
  match s.frames with
  | [] => none
  | saved :: frames =>
    let s := { s with frame :=
      { code := saved.code, stackBottomIndex := saved.stackBottomIndex,
        localVarOffset := saved.localVarOffset, ip := saved.ip, stackTopIndex := s.top } }
    (popUntil saved.stackTopIndex s.top s).map fun s => { s with frames := frames }

/-- What `nativeWind` hands out for the `nativeUnwind` of the same call: top, bottom and offset. -/
structure Native where
  stackTopIndex : Nat
  stackBottomIndex : Nat
  localVarOffset : Nat
deriving DecidableEq

def nativeWind (s : VMState V) (paramSize : Nat) : Native × VMState V :=
  (⟨sub32 s.top paramSize, s.bottom, s.frame.localVarOffset⟩,
    { s with frame := { s.frame with stackBottomIndex := s.top
                                     localVarOffset := add32 (sub32 s.top paramSize) 1 } })

def nativeUnwind (s : VMState V) (old : Native) : Option (VMState V) :=
  (popUntil old.stackTopIndex s.top s).map fun s =>
    { s with frame := { s.frame with stackBottomIndex := old.stackBottomIndex
                                     localVarOffset := old.localVarOffset } }

end VMState

end Arsh.Vm
