import Arsh.Lib.Assoc
import Arsh.Types.Name

/-!
# The type pool

`TypePool`: the table of types, the map from names to type ids, and the map of methods. Types are
made from types of the pool and looked up by their name first. A record is made without fields and
finalized later, and the type of the root module can be opened again: such data is beside the
structure of the type, which never changes.

What the subtype relation decides and the generated tables of native methods are in `TypeEnv`.
-/

namespace Arsh.Types

open Assoc

/-! ## Handles -/

inductive HandleKind where
  | var
  | env
  | func
  | typeAlias
  | native
  | method
  | constructor
  | udc
  | namedMod
  | globalMod
  | inlinedMod
  | modConst
  | sysConst
  | smallConst
  deriving DecidableEq, Repr

/-- The flags of a handle. -/
structure HandleAttr where
  readOnly : Bool := false
  global : Bool := false
  boxed : Bool := false
  upvar : Bool := false
  uncaptured : Bool := false
  deriving DecidableEq, Repr

structure Handle where
  typeId : Nat
  index : Nat
  kind : HandleKind
  attr : HandleAttr := {}
  modId : Nat
  deriving DecidableEq, Repr

namespace Handle

def isModHolder (h : Handle) : Bool :=
  h.kind == .globalMod || h.kind == .namedMod || h.kind == .inlinedMod

def isMethodHandle (h : Handle) : Bool :=
  h.kind == .native || h.kind == .method || h.kind == .constructor

end Handle

/-! ## The pool -/

inductive TypeLookupError where
  | unmatchElement (template : TypeTemplate) (required size : Nat)
  | elementLimit
  | invalidElement (template : TypeTemplate) (index : Nat) (name : Text)
  | notError (name : Text)
  | definedType (name : Text)
  deriving DecidableEq, Repr

/-- An imported module: its type, and how it was imported. -/
structure Imported where
  typeId : Nat
  global : Bool
  inlined : Bool
  deriving DecidableEq, Repr

/-- What is beside the structure of a type. -/
inductive TypeData where
  | none
  | error (superType : Ty)
  | record (cli : Bool) (fields : Option (List (Text × Handle)))
  | mod (handles : List (Text × Handle)) (children : List Imported) (index attr : Nat)

/-- `ModType::reopen`: a module keeps its index. -/
def TypeData.reopen (handles : List (Text × Handle)) (children : List Imported) (attr : Nat) :
    TypeData → TypeData
  | .mod _ _ index _ => .mod handles children index attr
  | data => data

structure TypeObj where
  ty : Ty
  data : TypeData := .none

/-- A native method, or the handle that was made for it, with the time it was made. -/
inductive MethodValue where
  | index (index : Nat)
  | handle (commitId : Nat) (index : Nat)
  deriving DecidableEq, Repr

/-- `TypePool::discard` on a value: a handle made since goes back to its index. -/
def MethodValue.discard (methodIdOffset : Nat) : MethodValue → MethodValue
  | .handle commitId i => if methodIdOffset ≤ commitId then .index i else .handle commitId i
  | .index i => .index i

/-- A handle for a method that has none. -/
def MethodValue.alloc (commitId : Nat) : MethodValue → MethodValue
  | .index i => .handle commitId i
  | .handle c i => .handle c i

structure TypePool where
  typeTable : List TypeObj := []
  nameMap : List (Text × Nat) := []
  methodMap : List ((Nat × Text) × MethodValue) := []
  methodIdCount : Nat := 0

/-- The parts of the pool that are not here: whether an element type is acceptable, whether a type
is derived from `Error`, and the native methods of a type. -/
structure TypeEnv where
  accepts : TypeTemplate → Nat → Ty → Bool
  isError : Ty → Bool
  nativeMethods : Ty → List (Text × Nat)

/-- `SYS_LIMIT_TUPLE_NUM`. -/
def tupleNumLimit : Nat := 255

/-- `SYS_LIMIT_FUNC_PARAM_NUM`. -/
def funcParamNumLimit : Nat := 255

/-- How many element types a template has. -/
def TypeTemplate.getElementTypeSize : TypeTemplate → Nat
  | .array => 1
  | .map => 2
  | _ => 0

namespace Ty

def isBuiltin (t : Ty) (name : String) : Bool :=
  match t with
  | .leaf (.builtin n) => n == name.toList
  | _ => false

def isVoidType (t : Ty) : Bool := t.isBuiltin "Void"

def isNothingType (t : Ty) : Bool := t.isBuiltin "Nothing"

def isUnresolved (t : Ty) : Bool := t.isBuiltin "<unresolved>"

end Ty

namespace TypePool

/-- `get`, by the name. -/
def get (p : TypePool) (typeName : Text) : Option TypeObj := do
  let id ← mapFind p.nameMap typeName
  p.typeTable[id]?

def addType (p : TypePool) (type : TypeObj) : Option TypeObj × TypePool :=
  let (inserted, nameMap) := emplace p.nameMap type.ty.name p.typeTable.length
  if inserted then (some type, { p with nameMap := nameMap, typeTable := p.typeTable ++ [type] })
  else (none, p)

/-- `registerHandles`, for the type with the id. -/
def registerHandles (p : TypePool) (methods : List (Text × Nat)) (id : Nat) : TypePool :=
  { p with
    methodMap := methods.foldl (fun m e => (emplace m (id, e.1) (.index e.2)).2) p.methodMap }

/-- `checkElementTypes` with a limit. -/
def checkElements (t : TypeTemplate) (elementTypes : List Ty) (limit : Nat) :
    Option TypeLookupError :=
  if elementTypes.length > limit then some .elementLimit
  else
    let i := elementTypes.findIdx fun e => e.isVoidType || e.isNothingType || e.isUnresolved
    elementTypes[i]?.map fun e => .invalidElement t i e.name

/-- `checkElementTypes` for the elements of a template. -/
def checkElementTypes (env : TypeEnv) (t : TypeTemplate) (elementTypes : List Ty) :
    Option TypeLookupError :=
  if t.getElementTypeSize ≠ elementTypes.length then
    some (.unmatchElement t t.getElementTypeSize elementTypes.length)
  else
    let bad := elementTypes.zipIdx.find? fun e => !env.accepts t e.2 e.1
    bad.map fun e => .invalidElement t e.2 e.1.name

/-- The type of a name, made if there is none. -/
def getOrNew (p : TypePool) (ty : Ty) : Option TypeObj × TypePool :=
  match p.get ty.name with
  | some type => (some type, p)
  | none => p.addType { ty := ty }

/-- A type with native methods of its own. -/
def getOrNewBuiltin (env : TypeEnv) (p : TypePool) (ty : Ty) : Option TypeObj × TypePool :=
  match p.get ty.name with
  | some type => (some type, p)
  | none =>
    let id := p.typeTable.length
    let (type, p) := p.addType { ty := ty }
    (type, p.registerHandles (env.nativeMethods ty) id)

def createOptionType (p : TypePool) (elementTypes : List Ty) :
    Except TypeLookupError (Option TypeObj) × TypePool :=
  match elementTypes with
  | [e] =>
    if e.isVoidType || e.isUnresolved then (.error (.invalidElement .option 0 e.name), p)
    else if e.isOptionType then (.ok (p.get e.name), p)
    else
      let (type, p) := p.getOrNew (.option e)
      (.ok type, p)
  | es => (.error (.unmatchElement .option 1 es.length), p)

/-- `createTupleType`. There is an element. -/
def createTupleType (p : TypePool) (elementTypes : List Ty) :
    Except TypeLookupError (Option TypeObj) × TypePool :=
  match checkElements .tuple elementTypes tupleNumLimit with
  | some e => (.error e, p)
  | none =>
    let (type, p) := p.getOrNew (.tuple elementTypes)
    (.ok type, p)

def createFuncType (p : TypePool) (returnType : Ty) (paramTypes : List Ty) :
    Except TypeLookupError (Option TypeObj) × TypePool :=
  match checkElements .func paramTypes funcParamNumLimit with
  | some e => (.error e, p)
  | none =>
    let (type, p) := p.getOrNew (.func returnType paramTypes)
    (.ok type, p)

def createReifiedType (env : TypeEnv) (p : TypePool) (typeTemplate : TypeTemplate)
    (elementTypes : List Ty) : Except TypeLookupError (Option TypeObj) × TypePool :=
  match typeTemplate with
  | .tuple => p.createTupleType elementTypes
  | .option => p.createOptionType elementTypes
  | t =>
    match checkElementTypes env t elementTypes with
    | some e => (.error e, p)
    | none =>
      match t, elementTypes with
      | .array, [e] =>
        let (type, p) := getOrNewBuiltin env p (.array e)
        (.ok type, p)
      | .map, [k, v] =>
        let (type, p) := getOrNewBuiltin env p (.map k v)
        (.ok type, p)
      | t, es => (.ok (p.get (toReifiedTypeName t false (es.map Ty.name))), p)

/-- A type that a script defines: its name must be new. -/
def newUserType (p : TypePool) (typeName : Text) (belongedModId : Nat) (data : TypeData) :
    Except TypeLookupError (Option TypeObj) × TypePool :=
  match p.addType { ty := .leaf (.user belongedModId typeName), data := data } with
  | (some type, p) => (.ok (some type), p)
  | (none, p) => (.error (.definedType typeName), p)

def createErrorType (env : TypeEnv) (p : TypePool) (typeName : Text) (superType : Ty)
    (belongedModId : Nat) : Except TypeLookupError (Option TypeObj) × TypePool :=
  if env.isError superType then p.newUserType typeName belongedModId (.error superType)
  else (.error (.notError superType.name), p)

/-- `createRecordType` and `createCLIRecordType`. -/
def createRecordType (p : TypePool) (typeName : Text) (belongedModId : Nat) (cli : Bool) :
    Except TypeLookupError (Option TypeObj) × TypePool :=
  p.newUserType typeName belongedModId (.record cli none)

/-- Changes the data of a type. -/
def modifyData (p : TypePool) (typeId : Nat) (f : TypeData → TypeData) : TypePool :=
  { p with typeTable := p.typeTable.modify typeId fun type => { type with data := f type.data } }

/-- `finalizeRecordType`, where the fields are fit for it. -/
def finalizeRecordType (p : TypePool) (typeId : Nat) (cli : Bool) (fields : List (Text × Handle)) :
    TypePool := p.modifyData typeId fun _ => .record cli (some fields)

/-- `createModType`: the type of the root module is opened again. -/
def createModType (p : TypePool) (modId : Nat) (handles : List (Text × Handle))
    (children : List Imported) (index attr : Nat) : Option Nat × TypePool :=
  match mapFind p.nameMap (toModTypeName modId) with
  | none =>
    let id := p.typeTable.length
    let (type, p) := p.addType
      { ty := .leaf (.mod modId), data := .mod handles children index attr }
    (type.map fun _ => id, p)
  | some id => (some id, p.modifyData id (.reopen handles children attr))

/-- The handle of a native method is made when it is asked for. -/
def instantiate (p : TypePool) (key : Nat × Text) : TypePool :=
  match mapFind p.methodMap key with
  | some (.index _) =>
    { p with
      methodMap := p.methodMap.map fun e =>
        (e.1, if e.1 = key then e.2.alloc p.methodIdCount else e.2)
      methodIdCount := p.methodIdCount + 1 }
  | _ => p

/-- `lookupMethod`, for the ids of a type and of those it is derived from. -/
def lookupMethod (p : TypePool) (ids : List Nat) (methodName : Text) : TypePool :=
  match ids.find? fun id => (mapFind p.methodMap (id, methodName)).isSome with
  | some id => p.instantiate (id, methodName)
  | none => p

/-- `discard`: the types from the offset on go, and the handles of methods that were made since. -/
def discard (p : TypePool) (typeIdOffset methodIdOffset : Nat) : TypePool :=
  { typeTable := p.typeTable.take typeIdOffset
    nameMap := p.nameMap.filter fun e => decide (e.2 < typeIdOffset)
    methodMap := (p.methodMap.filter fun e => decide (e.1.1 < typeIdOffset)).map fun e =>
      (e.1, e.2.discard methodIdOffset)
    methodIdCount := methodIdOffset }

/-! ## The constructor -/

def initBuiltinType (env : TypeEnv) (p : TypePool) (typeName : String) : TypePool :=
  let ty := .leaf (.builtin typeName.toList)
  (p.addType { ty := ty }).2.registerHandles (env.nativeMethods ty) p.typeTable.length

def initDerivedErrorType (p : TypePool) (typeName : String) : TypePool :=
  let error := .leaf (.builtin "Error".toList)
  (p.addType { ty := .leaf (.builtin typeName.toList), data := .error error }).2

/-- `TypePool::TypePool`. -/
def new (env : TypeEnv) : TypePool :=
  let string := Ty.leaf (.builtin "String".toList)
  let p := baseTypeNames.foldl (initBuiltinType env) {}
  let p := (createReifiedType env p .array [string]).2
  let p := (createReifiedType env p .array [.leaf (.builtin "Int".toList)]).2
  let p := (createReifiedType env p .map [string, string]).2
  let p := (createReifiedType env p .option [.leaf (.builtin "Nothing".toList)]).2
  let p := errorTypeNames.foldl initDerivedErrorType p
  exitTypeNames.foldl (initBuiltinType env) p

end TypePool

end Arsh.Types
