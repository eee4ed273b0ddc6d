import Arsh.Cli.ArgEntry

/-!
# Sequence ranges

`toBraceRange`, `tryUpdateSeqValue` and `formatSeqValue` of `brace.cpp`: the range written in
`{1..10..2}` or `{a..f}`, the step from one of its values to the next, and the text of a value.
An `int64_t` is an `Int`, with the overflow checks of the source; a failed assertion is `none`.
-/

namespace Arsh.Brace

open Arsh.Cli (parseUnsigned)

def int64Min : Int := -0x8000000000000000

def int64Max : Int := 0x7FFFFFFFFFFFFFFF

/-! ## Integers -/

structure BraceInt where
  value : Int
  /-- `0` when the number is not padded -/
  digits : Nat
  ok : Bool
  deriving DecidableEq, Repr

/-- `convertToNum10<uint64_t>`. -/
def convertToNum10 (ref : Text) : Option Nat :=
  let digits := if ref.head? = some '+' then ref.tail else ref
  if digits = [] then none else parseUnsigned digits 0

/-- The loop of `countDigits`. -/
def countDigitsLoop (n c : Nat) : Nat := if n > 0 then countDigitsLoop (n / 10) (c + 1) else c

def countDigits (n : Nat) : Nat := if n = 0 then 1 else countDigitsLoop n 0

/-- `std::to_string`. -/
def toString10 (v : Int) : Text :=
  if v < 0 then '-' :: Nat.toDigits 10 v.natAbs else Nat.toDigits 10 v.natAbs

/-- The loop of `toBraceInt` over the leading zeros: their number, and the rest. -/
def dropZeros : Text → Nat → Nat × Text
  | '0' :: ch :: rest, digits => dropZeros (ch :: rest) (digits + 1)
  | ref, digits => (digits, ref)

/-- The number with its sign, if it is an `int64_t`. -/
def resolveSign (v : Nat) (negate : Bool) : Option Int :=
  if negate then
    if v < 0x8000000000000000 then some (-1 * v)
    else if v = 0x8000000000000000 then some int64Min
    else none
  else if v < 0x8000000000000000 then some v
  else none

def toBraceInt (ref : Text) : BraceInt :=
  let negate := ref.head? == some '-'
  let (digits, ref) := dropZeros (if ref.head? = some '+' || negate then ref.tail else ref) 0
  match (convertToNum10 ref).bind (resolveSign · negate) with
  | none => ⟨0, digits, false⟩
  | some value =>
    let v := if value = int64Min then int64Max.natAbs else value.natAbs
    ⟨value, if digits > 0 then digits + (countDigits v + if negate then 1 else 0) else digits, true⟩

/-! ## Ranges -/

inductive Kind where
  | char
  | int
  | outOfRange
  | outOfRangeStep
  deriving DecidableEq, Repr

/-- `BraceRange`; `first` and `last` are its `begin` and `end`, both inclusive. -/
structure BraceRange where
  first : Int
  last : Int
  step : Int
  /-- `0` for no padding -/
  digits : Nat
  kind : Kind
  deriving DecidableEq, Repr

def BraceRange.hasError (r : BraceRange) : Bool := r.kind == .outOfRange || r.kind == .outOfRangeStep

/-- The text before the first `..`, and the text behind it. -/
def splitDots : Text → Option (Text × Text)
  | '.' :: '.' :: rest => some ([], rest)
  | ch :: rest => (splitDots rest).map fun (before, behind) => (ch :: before, behind)
  | [] => none

/-- `toReversedBegin`; the products are `__int128`. -/
def toReversedBegin (first last step : Int) : Option Int :=
  let value := first + (last - first).tdiv step * step
  if int64Min ≤ value ∧ value ≤ int64Max then some value else none

/-- The width of padded values, from the two ends. -/
def resolveDigits (ret1 ret2 : BraceInt) : Nat :=
  if ret1.digits ≠ 0 ∧ ret2.digits = 0 then max ret1.digits (toString10 ret2.value).length
  else if ret1.digits = 0 ∧ ret2.digits ≠ 0 then max (toString10 ret1.value).length ret2.digits
  else max ret1.digits ret2.digits

/-- The part of `toBraceRange` that parses both ends; a range and the text of an error. -/
def parseEnds (first last : Text) (isChar : Bool) : Option (BraceRange × Option Text) :=
  if isChar then
    match first, last with
    | [x], [y] => some (⟨x.toNat, y.toNat, 1, 0, .char⟩, none)
    | _, _ => none
  else if first = [] || last = [] then none
  else
    let ret1 := toBraceInt first
    let ret2 := toBraceInt last
    if !ret1.ok then some (⟨0, 0, 1, 0, .outOfRange⟩, some first)
    else if !ret2.ok then some (⟨0, 0, 1, 0, .outOfRange⟩, some last)
    else some (⟨ret1.value, ret2.value, 1, resolveDigits ret1 ret2, .int⟩, none)

/-- The part of `toBraceRange` that parses the step. -/
def parseStep (range : BraceRange) (step : Text) : Option (BraceRange × Option Text) :=
  let ret := toBraceInt step
  if !ret.ok then some ({ range with kind := .outOfRangeStep }, some step)
  else if ret.value = 0 then some ({ range with step := 1 }, none)
  else if ret.value = int64Min then some ({ range with kind := .outOfRangeStep }, some step)
  else if ret.value < 0 then
    let v : Int := ret.value.natAbs
    (toReversedBegin range.first range.last v).map fun r =>
      ({ range with first := r, last := range.first, step := v }, none)
  else some ({ range with step := ret.value }, none)

def toBraceRange (ref : Text) (isChar : Bool) : Option (BraceRange × Option Text) :=
  (splitDots ref).bind fun (first, rest) =>
    let (last, step) := (splitDots rest).getD (rest, [])
    (parseEnds first last isChar).bind fun (range, error) =>
      if error.isNone && !step.isEmpty then parseStep range step else some (range, error)

/-! ## Values -/

/-- `sadd_overflow` and `ssub_overflow`: the result, if there is no overflow. -/
def checkOverflow (v : Int) : Option Int := if int64Min ≤ v ∧ v ≤ int64Max then some v else none

/-- `tryUpdateSeqValue`: the value after `cur`. -/
def tryUpdateSeqValue (cur : Int) (range : BraceRange) : Option Int :=
  if range.first ≤ range.last then
    match checkOverflow (cur + range.step) with
    | none => none
    | some ret => if ret > range.last then none else some ret
  else
    match checkOverflow (cur - range.step) with
    | none => none
    | some ret => if ret < range.last then none else some ret

def formatSeqValue (v : Int) (digits : Nat) (isChar : Bool) : Option Text :=
  if isChar then some [Char.ofNat v.toNat]
  else
    let value := toString10 v
    if digits = 0 then some value
    else if value.length ≤ digits then
      let tmp := List.replicate (digits - value.length) '0'
      let pos := if v < 0 then 1 else 0
      some (value.take pos ++ tmp ++ value.drop pos)
    else none

end Arsh.Brace
