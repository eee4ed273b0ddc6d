import Arsh.Tagged.SmallStr
import Mathlib.Logic.Function.Basic

/-!
# Values

The create and as functions of `Value` (`object.h`, `object.cpp`) over a heap of boxed integers,
floats and strings. The other kinds of objects are not in the heap: no function here makes them or
looks into them. A run ends with a fault where the program reads through a pointer to no object,
writes behind a value, or has no memory left.
-/

namespace Arsh.Tagged

/-! ## The heap -/

inductive ObjectKind where
  | int
  | float
  | string
  deriving DecidableEq, Repr

inductive Object where
  | int (value : BitVec 64)
  | float (value : BitVec 64)
  | string (value : Bytes)
  deriving DecidableEq, Repr

def Object.getKind : Object → ObjectKind
  | .int _ => .int
  | .float _ => .float
  | .string _ => .string

structure Cell where
  refCount : BitVec 32
  object : Object

abbrev Heap := BitVec 64 → Option Cell

inductive Fault where
  | badAlloc
  | wildPointer
  | outOfBounds
  deriving DecidableEq, Repr

/-- `operator new`: an address without an object, with room for the tag. -/
structure Allocator where
  address : Heap → Option (BitVec 64)
  fresh : ∀ {h a}, address h = some a → h a = none
  aligned : ∀ {h a}, address h = some a → hasTag a .object = true

abbrev Value := TValue

/-! ## Kinds -/

def kind (v : Value) : Option ValueKind :=
  if hasTag v .empty then some .empty
  else if hasTag v .object then some .object
  else if hasTag v .float then some .commonFloat
  else if hasTag v .int || hasTag v .uint then ValueKind.ofByte (v.setWidth 8)
  else if hasTag v .string then some .smallStr
  else some .empty

def isObject (v : Value) : Bool := hasTag v .object

def isSmallStr (v : Value) : Bool := hasTag v .string

/-- `isObject() && get()->getKind() == k`; `none` is a read through a wild pointer. -/
def isBoxed (h : Heap) (v : Value) (k : ObjectKind) : Option Bool :=
  if isObject v then (h v).map fun c => c.object.getKind == k else some false

def hasInt (h : Heap) (v : Value) : Option Bool :=
  if kind v = some .smallInt then some true else isBoxed h v .int

def hasFloat (h : Heap) (v : Value) : Option Bool :=
  if hasTag v .float then some true else isBoxed h v .float

def hasStrRef (h : Heap) (v : Value) : Option Bool :=
  if isSmallStr v then some true else isBoxed h v .string

/-! ## Decoding -/

def asNum (v : Value) : BitVec 32 := (decodeTaggedUInt v).setWidth 32

def asUInt16UInt32Pair (v : Value) : BitVec 16 × BitVec 32 :=
  let u := decodeTaggedUInt v
  ((u >>> 32).setWidth 16, (u &&& 0xFFFFFFFF).setWidth 32)

/-- A pair whose first number is an enumerator of eight bits. -/
def asEnumPair (v : Value) : BitVec 8 × BitVec 32 :=
  let (u16, u32) := asUInt16UInt32Pair v
  (u16.setWidth 8, u32)

def asBraceRangeAttr (v : Value) : BitVec 8 × BitVec 32 := asEnumPair v

def asStackGuard (v : Value) : BitVec 8 × BitVec 32 := asEnumPair v

def asExpandMeta (v : Value) : BitVec 8 × BitVec 32 := asEnumPair v

def asTypeId (v : Value) : BitVec 32 := (asUInt16UInt32Pair v).2

def asTypeIdMeta (v : Value) : BitVec 32 := (asUInt16UInt32Pair v).1.setWidth 32

def asBool (v : Value) : Bool := decodeTaggedInt v == 1

def asSig (v : Value) : BitVec 32 := (decodeTaggedInt v).setWidth 32

def asInt (h : Heap) (v : Value) : Option (BitVec 64) :=
  if hasTag v .int then some (decodeTaggedInt v)
  else
    match h v with
    | some ⟨_, .int value⟩ => some value
    | _ => none

def asFloat (h : Heap) (v : Value) : Option (BitVec 64) :=
  if hasTag v .float then some (decodeTaggedFloat .float v)
  else
    match h v with
    | some ⟨_, .float value⟩ => some value
    | _ => none

/-- The size of a string object is an `unsigned int`. -/
def objectSize (value : Bytes) : Nat := value.length % 2 ^ 32

def asStrRef (h : Heap) (v : Value) : Option Bytes :=
  if isSmallStr v then some (strData v)
  else
    match h v with
    | some ⟨_, .string value⟩ => some (value.take (objectSize value))
    | _ => none

/-! ## Construction -/

/-- `~Value`. -/
def release (v : Value) (h : Heap) : Except Fault Heap :=
  if isObject v then
    match h v with
    | none => .error .wildPointer
    | some c =>
      if c.refCount - 1 = 0 then .ok (Function.update h v none)
      else .ok (Function.update h v (some { c with refCount := c.refCount - 1 }))
  else .ok h

/-- `create<T>`: the value has the only reference to the object. -/
def create (A : Allocator) (o : Object) (h : Heap) : Except Fault (Value × Heap) :=
  match A.address h with
  | none => .error .badAlloc
  | some a => .ok (a, Function.update h a (some ⟨1, o⟩))

def ofPair (k : ValueKind) (u16 : BitVec 16) (u32 : BitVec 32) : Value :=
  encodeTaggedUInt k.toUnderlying ((u16.setWidth 64 <<< 32) ||| u32.setWidth 64)

def createNum (v : BitVec 32) : Value :=
  encodeTaggedUInt ValueKind.number.toUnderlying (v.setWidth 64)

def createBraceRangeAttr (k : BitVec 8) (digits : BitVec 32) : Value :=
  ofPair .braceRangeAttr (k.setWidth 16) digits

def createStackGuard (t : BitVec 8) (level : BitVec 32) : Value :=
  ofPair .stackGuard (t.setWidth 16) level

def createDummy (typeId v1 : BitVec 32) : Value := ofPair .dummy (v1.setWidth 16) typeId

def createExpandMeta (e : BitVec 8) (v : BitVec 32) : Value := ofPair .expandMeta (e.setWidth 16) v

def createBool (b : Bool) : Value :=
  encodeTaggedInt ValueKind.bool.toUnderlying (if b then 1 else 0)

def createSig (num : BitVec 32) : Value :=
  encodeTaggedInt ValueKind.sig.toUnderlying (num.signExtend 64)

def createInt (A : Allocator) (num : BitVec 64) (h : Heap) : Except Fault (Value × Heap) :=
  if withinInt56 num then .ok (encodeTaggedInt ValueKind.smallInt.toUnderlying num, h)
  else create A (.int num) h

def createFloat (A : Allocator) (v : BitVec 64) (h : Heap) : Except Fault (Value × Heap) :=
  let value := encodeTaggedFloat .float v
  if hasTag value .float then .ok (value, h)
  else
    -- the scope of `value` ends here, and its destructor takes it for any other value
    match release value h with
    | .error e => .error e
    | .ok h => create A (.float v) h

/-- `raw` is what the memory of a new value has. -/
def createStr (A : Allocator) (raw : TValue) (ref : Bytes) (h : Heap) :
    Except Fault (Value × Heap) :=
  if ref.length ≤ maxStrSize then
    match set raw ref with
    | none => .error .outOfBounds
    | some v => .ok (v, h)
  else create A (.string ref) h

/-- `SYS_LIMIT_STRING_MAX`. -/
def maxSize : Nat := 2 ^ 31 - 1

def unsafeAppend (v : Value) (value : Bytes) (h : Heap) : Except Fault Heap :=
  match h v with
  | some ⟨n, .string s⟩ => .ok (Function.update h v (some ⟨n, .string (s ++ value)⟩))
  | _ => .error .wildPointer

/-- The size that `appendAsStr` looks at. -/
def strSize (h : Heap) (v : Value) : Option Nat :=
  if isSmallStr v then some (size v)
  else
    match h v with
    | some ⟨_, .string value⟩ => some (objectSize value)
    | _ => none

/-- The result is `false` where the string limit is raised. The room that is left is a `size_t`. -/
def appendAsStr (A : Allocator) (v : Value) (value : Bytes) (h : Heap) :
    Except Fault (Bool × Value × Heap) :=
  if value = [] then .ok (true, v, h)
  else
    match strSize h v with
    | none => .error .wildPointer
    | some size =>
      if size > (maxSize + 2 ^ 64 - value.length) % 2 ^ 64 then .ok (false, v, h)
      else if isSmallStr v && decide (size + value.length ≤ maxStrSize) then
        match append v value with
        | none => .error .outOfBounds
        | some v => .ok (true, v, h)
      else if isSmallStr v then do
        let (v', h) ← create A (.string (strData v)) h
        let h ← release v h
        let h ← unsafeAppend v' value h
        .ok (true, v', h)
      else do
        let h ← unsafeAppend v value h
        .ok (true, v, h)

/-- The pieces one after the other, up to one that the limit does not allow. -/
def appendAll (A : Allocator) (v : Value) : List Bytes → Heap → Except Fault (Bool × Value × Heap)
  | [], h => .ok (true, v, h)
  | value :: values, h =>
    match appendAsStr A v value h with
    | .error e => .error e
    | .ok (false, v, h) => .ok (false, v, h)
    | .ok (true, v, h) => appendAll A v values h

end Arsh.Tagged
