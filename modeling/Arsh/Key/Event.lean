import Arsh.Lib.Bits
import Arsh.Misc.Unicode

/-!
# Key events

`KeyEvent` of `keycode.h` and its canonical text, `toString` of `keycode.cpp`. A string is the list
of its bytes, a set of modifiers the number with their flags.
-/

namespace Arsh.Key

abbrev Bytes := List Nat

def word (w : List Char) : Bytes := w.map Char.toNat

/-! ## Modifiers and function keys -/

/-- `EACH_MODIFIER_KEY`: the flags and their names. -/
def modifierKeys : List (Nat × Bytes) :=
  [(1 <<< 0, word ['s', 'h', 'i', 'f', 't']), (1 <<< 1, word ['a', 'l', 't']),
    (1 <<< 2, word ['c', 't', 'r', 'l']), (1 <<< 3, word ['s', 'u', 'p', 'e', 'r']),
    (1 <<< 4, word ['h', 'y', 'p', 'e', 'r']), (1 <<< 5, word ['m', 'e', 't', 'a'])]

def shift : Nat := 1 <<< 0

def hasFlag (set flag : Nat) : Bool := set &&& flag == flag

/-- `EACH_FUNCTION_KEY`, in its order. -/
inductive FunctionKey where
  | escape
  | enter
  | tab
  | backspace
  | insert
  | delete
  | left
  | right
  | up
  | down
  | pageUp
  | pageDown
  | home
  | endKey
  | printScreen
  | pause
  | menu
  | f1
  | f2
  | f3
  | f4
  | f5
  | f6
  | f7
  | f8
  | f9
  | f10
  | f11
  | f12
  | bracketStart
  deriving DecidableEq, Repr

namespace FunctionKey

/-- The function keys by their values. -/
def all : List FunctionKey :=
  [.escape, .enter, .tab, .backspace, .insert, .delete, .left, .right, .up, .down, .pageUp,
    .pageDown, .home, .endKey, .printScreen, .pause, .menu, .f1, .f2, .f3, .f4, .f5, .f6, .f7,
    .f8, .f9, .f10, .f11, .f12, .bracketStart]

def toNat (f : FunctionKey) : Nat := all.idxOf f

def toString : FunctionKey → Bytes
  | .escape => word ['e', 's', 'c', 'a', 'p', 'e']
  | .enter => word ['e', 'n', 't', 'e', 'r']
  | .tab => word ['t', 'a', 'b']
  | .backspace => word ['b', 'a', 'c', 'k', 's', 'p', 'a', 'c', 'e']
  | .insert => word ['i', 'n', 's', 'e', 'r', 't']
  | .delete => word ['d', 'e', 'l', 'e', 't', 'e']
  | .left => word ['l', 'e', 'f', 't']
  | .right => word ['r', 'i', 'g', 'h', 't']
  | .up => word ['u', 'p']
  | .down => word ['d', 'o', 'w', 'n']
  | .pageUp => word ['p', 'a', 'g', 'e', '_', 'u', 'p']
  | .pageDown => word ['p', 'a', 'g', 'e', '_', 'd', 'o', 'w', 'n']
  | .home => word ['h', 'o', 'm', 'e']
  | .endKey => word ['e', 'n', 'd']
  | .printScreen => word ['p', 'r', 'i', 'n', 't', '_', 's', 'c', 'r', 'e', 'e', 'n']
  | .pause => word ['p', 'a', 'u', 's', 'e']
  | .menu => word ['m', 'e', 'n', 'u']
  | .f1 => word ['f', '1']
  | .f2 => word ['f', '2']
  | .f3 => word ['f', '3']
  | .f4 => word ['f', '4']
  | .f5 => word ['f', '5']
  | .f6 => word ['f', '6']
  | .f7 => word ['f', '7']
  | .f8 => word ['f', '8']
  | .f9 => word ['f', '9']
  | .f10 => word ['f', '1', '0']
  | .f11 => word ['f', '1', '1']
  | .f12 => word ['f', '1', '2']
  | .bracketStart => word ['b', 'r', 'a', 'c', 'k', 'e', 't', '_', 's', 't', 'a', 'r', 't']

end FunctionKey

/-! ## Events -/

def codeMask : Nat := (1 <<< 24) - 1

/-- The flag of a function key, the code and the modifiers in one number. -/
structure KeyEvent where
  value : Nat
  deriving DecidableEq, Repr

namespace KeyEvent

def ofCodePoint (codePoint modifiers : Nat) : KeyEvent :=
  ⟨((codePoint &&& codeMask) <<< 8) ||| modifiers⟩

def ofFuncKey (funcKey : FunctionKey) (modifiers : Nat) : KeyEvent :=
  ⟨((funcKey.toNat &&& codeMask) <<< 8) ||| modifiers ||| (1 <<< 31)⟩

def isFuncKey (e : KeyEvent) : Bool := e.value &&& (1 <<< 31) != 0

def modifiers (e : KeyEvent) : Nat := e.value &&& 0xFF

/-- The mask keeps the flag of a function key as well. -/
def asCode (e : KeyEvent) : Nat := (e.value >>> 8) &&& codeMask

/-- The cast to `FunctionKey` keeps eight bits; no key has the value otherwise. -/
def asFuncKey (e : KeyEvent) : Option FunctionKey := FunctionKey.all[e.asCode % 2 ^ 8]?

def hasModifier (e : KeyEvent) (modifier : Nat) : Bool := hasFlag e.modifiers modifier

def modifierText (e : KeyEvent) : Bytes :=
  modifierKeys.flatMap fun (modifier, name) =>
    if e.hasModifier modifier then name ++ word ['+'] else []

/-- The text behind the modifiers. -/
def keyText (e : KeyEvent) : Bytes :=
  if e.isFuncKey then (e.asFuncKey.map FunctionKey.toString).getD []
  else if e.asCode = 32 then word ['s', 'p', 'a', 'c', 'e']
  else UnicodeUtil.codePointToUtf8 e.asCode

def toString (e : KeyEvent) : Bytes := e.modifierText ++ e.keyText

end KeyEvent

end Arsh.Key
