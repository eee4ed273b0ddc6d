import Mathlib.Logic.Function.Basic
import Arsh.Types.Pool

/-!
# Name scopes

`NameScope`: global scopes of modules, and the scopes of functions and blocks below them. Scopes and
handles are objects that others refer to, so both are kept in a store by their addresses. A handle
in a scope is a local variable with a slot of its own, or an alias of something else.

The count of slots that a block has is not its own: `maxVarCount` is a reference to the count of all
global variables or to the index of another scope.
-/

namespace Arsh.Scope

open Arsh.Types Arsh.Assoc

/-- `SYS_LIMIT_GLOBAL_NUM`. -/
def globalNumLimit : Nat := 65535

/-- `SYS_LIMIT_LOCAL_NUM`. -/
def localNumLimit : Nat := 255

/-- `SYS_LIMIT_UPVAR_NUM`. -/
def upvarNumLimit : Nat := 255

/-- `SYS_LIMIT_FUNC_DEPTH`. -/
def funcDepthLimit : Nat := 32

inductive NameRegisterError where
  | defined
  | localLimit
  | globalLimit
  | invalidType
  deriving DecidableEq, Repr

inductive NameLookupError where
  | notFound
  | upvarLimit
  | uncaptureEnv
  | uncaptureField
  deriving DecidableEq, Repr

inductive ScopeKind where
  | global
  | func
  | block
  deriving DecidableEq, Repr

/-- What a `maxVarCount` refers to: the count of the loader, or the `curLocalIndex` of a scope. -/
inductive CountRef where
  | gvarCount
  | curLocalIndex (scope : Nat)
  deriving DecidableEq, Repr

/-- A scope. The handles have the order in which they were added: (name, (handle, commitId)). -/
structure NameScope where
  kind : ScopeKind := .global
  modId : Nat := 0
  parent : Option Nat := none
  curLocalIndex : Nat := 0
  localSize : Nat := 0
  maxVarCount : CountRef := .gvarCount
  handles : List (Types.Text × (Nat × Nat)) := []
  captures : List Nat := []

namespace NameScope

def isGlobal (scope : NameScope) : Bool := scope.kind == .global

def isFunc (scope : NameScope) : Bool := scope.kind == .func

def find (scope : NameScope) (name : Types.Text) : Option Nat :=
  (mapFind scope.handles name).map Prod.fst

def getBaseIndex (scope : NameScope) : Nat := scope.curLocalIndex - scope.localSize

/-- The entry that `add` makes. -/
def addEntry (scope : NameScope) (name : Types.Text) (p : Nat) : NameScope :=
  { scope with handles := scope.handles ++ [(name, (p, scope.handles.length))] }

/-- The slot that `add` takes for a local variable. -/
def addLocal (scope : NameScope) : NameScope :=
  { scope with curLocalIndex := scope.curLocalIndex + 1, localSize := scope.localSize + 1 }

theorem find_addEntry {scope : NameScope} {name m : Types.Text} {p : Nat}
    (h : scope.find name = none) :
    (scope.addEntry name p).find m = if name = m then some p else scope.find m := by
  have hnone : mapFind scope.handles name = none := by simpa [find] using h
  unfold find addEntry
  dsimp only
  rw [mapFind_snoc]
  by_cases hm : name = m
  · subst hm
    simp [hnone]
  · simp [hm]

end NameScope

/-- All scopes and handles, the current scope, and `ModuleLoader::gvarCount`. -/
structure Scopes where
  heap : Nat → Handle
  heapSize : Nat
  scopes : Nat → NameScope
  scopeSize : Nat
  cur : Nat
  gvarCount : Nat

namespace Scopes

def alloc (s : Scopes) (handle : Handle) : Scopes :=
  { s with heap := Function.update s.heap s.heapSize handle, heapSize := s.heapSize + 1 }

def setScope (s : Scopes) (a : Nat) (scope : NameScope) : Scopes :=
  { s with scopes := Function.update s.scopes a scope }

def getCount (s : Scopes) : CountRef → Nat
  | .gvarCount => s.gvarCount
  | .curLocalIndex a => (s.scopes a).curLocalIndex

def setCount (s : Scopes) (r : CountRef) (n : Nat) : Scopes :=
  match r with
  | .gvarCount => { s with gvarCount := n }
  | .curLocalIndex a => s.setScope a { s.scopes a with curLocalIndex := n }

def find (s : Scopes) (a : Nat) (name : Types.Text) : Option Nat := (s.scopes a).find name

def getMaxLocalVarIndex (s : Scopes) (a : Nat) : Nat :=
  if (s.scopes a).kind = .block then s.getCount (s.scopes a).maxVarCount
  else (s.scopes a).curLocalIndex

/-! ## Scopes that are entered and left -/

/-- The scope that `enterScope` makes. -/
def newScope (s : Scopes) (newKind : ScopeKind) : Option NameScope :=
  let this := s.scopes s.cur
  let scope : NameScope := { kind := newKind, modId := this.modId, parent := some s.cur }
  match this.kind, newKind with
  | .global, .func => some { scope with maxVarCount := this.maxVarCount }
  | .global, .block => some { scope with maxVarCount := .curLocalIndex s.cur }
  | .func, .block => some { scope with maxVarCount := .curLocalIndex s.cur }
  | .block, .func => some { scope with maxVarCount := this.maxVarCount }
  | .block, .block =>
    some { scope with maxVarCount := this.maxVarCount, curLocalIndex := this.curLocalIndex }
  | _, _ => none

/-- A new scope that is the current one. -/
def push (s : Scopes) (scope : NameScope) : Scopes :=
  { s.setScope s.scopeSize scope with scopeSize := s.scopeSize + 1, cur := s.scopeSize }

def enterScope (s : Scopes) (newKind : ScopeKind) : Option Scopes := (s.newScope newKind).map s.push

def exitScope (s : Scopes) : Option Scopes :=
  (s.scopes s.cur).parent.map fun parent => { s with cur := parent }

/-- `createGlobalScope`: a scope for a module, which takes the index of a global variable. -/
def createGlobalScope (s : Scopes) (modId : Nat) (parent : Option Nat) : Scopes :=
  { s.push { modId := modId, parent := parent } with gvarCount := s.gvarCount + 1 }

/-! ## Names that are added -/

def addEntry (s : Scopes) (a : Nat) (name : Types.Text) (p : Nat) : Scopes :=
  s.setScope a ((s.scopes a).addEntry name p)

/-- A slot, which the count must be above. -/
def addLocal (s : Scopes) (a : Nat) : Scopes :=
  let scope := (s.scopes a).addLocal
  let s := s.setScope a scope
  s.setCount scope.maxVarCount (max (s.getCount scope.maxVarCount) scope.curLocalIndex)

/-- `add`, with the flags of the operation. -/
def add (s : Scopes) (a : Nat) (name : Types.Text) (p : Nat) (asAlias ignoreConflict : Bool) :
    Except NameRegisterError Nat × Scopes :=
  let scope := s.scopes a
  let handle := s.heap p
  if !asAlias && handle.attr.global && s.getCount scope.maxVarCount == globalNumLimit then
    (.error .globalLimit, s)
  else if !asAlias && !handle.attr.global && scope.curLocalIndex == localNumLimit then
    (.error .localLimit, s)
  else if name = [] then (.error .defined, s)
  else
    match scope.find name with
    | some q =>
      if ignoreConflict && q == p && handle.isMethodHandle then (.ok p, s)
      else (.error .defined, s)
    | none =>
      let s := s.addEntry a name p
      if asAlias then (.ok p, s)
      else if handle.attr.global then
        (.ok p, s.setCount scope.maxVarCount (s.getCount scope.maxVarCount + 1))
      else (.ok p, s.addLocal a)

/-- Adds a handle that was made for it; if it is not taken, it is gone. -/
def addNew (s : Scopes) (a : Nat) (name : Types.Text) (handle : Handle) (asAlias : Bool) :
    Except NameRegisterError Nat × Scopes :=
  match (s.alloc handle).add a name s.heapSize asAlias false with
  | (.ok p, s) => (.ok p, s)
  | (.error e, _) => (.error e, s)

def definedInBuiltin (s : Scopes) (a : Nat) (name : Types.Text) : Bool :=
  match (s.scopes a).parent with
  | some b => (s.scopes a).isGlobal && (s.scopes b).modId == 0 && (s.find b name).isSome
  | none => false

/-- `defineHandle`; the type with the id 0 is the unresolved one. -/
def defineHandle (s : Scopes) (name : Types.Text) (typeId : Nat) (kind : HandleKind)
    (attr : HandleAttr) :
    Except NameRegisterError Nat × Scopes :=
  let scope := s.scopes s.cur
  if s.definedInBuiltin s.cur name then (.error .defined, s)
  else if typeId = 0 then (.error .invalidType, s)
  else
    let index := if scope.isGlobal then s.getCount scope.maxVarCount else scope.curLocalIndex
    let attr := { attr with global := scope.isGlobal }
    s.addNew s.cur name
      { typeId := typeId, index := index, kind := kind, attr := attr, modId := scope.modId } false

/-- `defineAlias` of a handle that was made for it. -/
def defineAlias (s : Scopes) (name : Types.Text) (handle : Handle) :
    Except NameRegisterError Nat × Scopes :=
  if s.definedInBuiltin s.cur name then (.error .defined, s) else s.addNew s.cur name handle true

/-- `defineTypeAlias`; a global name must not be one of the pool. -/
def defineTypeAlias (s : Scopes) (inPool : Bool) (fullName : Types.Text) (typeId : Nat) :
    Except NameRegisterError Nat × Scopes :=
  if (s.scopes s.cur).isGlobal && inPool then (.error .defined, s)
  else s.defineAlias fullName
    { typeId := typeId, index := 0, kind := .typeAlias, modId := (s.scopes s.cur).modId }

/-- A function, a method or a constructor: a read-only global variable. -/
def defineGlobal (s : Scopes) (name : Types.Text) (typeId : Nat) (kind : HandleKind) :
    Except NameRegisterError Nat × Scopes :=
  let scope := s.scopes s.cur
  s.addNew s.cur name
    { typeId := typeId, index := s.getCount scope.maxVarCount, kind := kind
      attr := { readOnly := true, global := true }, modId := scope.modId } false

def defineNamedFunction (s : Scopes) (name : Types.Text) (typeId : Nat) :
    Except NameRegisterError Nat × Scopes :=
  if !(s.scopes s.cur).isGlobal then (.error .invalidType, s)
  else if s.definedInBuiltin s.cur name then (.error .defined, s)
  else s.defineGlobal name typeId .func

/-- `defineMethod` with the full name, where the receiver is not fit for a method, or a builtin type
has the method already. -/
def defineMethod (s : Scopes) (invalidRecv hasMethod isInit : Bool) (fullName : Types.Text)
    (typeId : Nat) : Except NameRegisterError Nat × Scopes :=
  if !(s.scopes s.cur).isGlobal || invalidRecv then (.error .invalidType, s)
  else if hasMethod then (.error .defined, s)
  else s.defineGlobal fullName typeId (if isInit then .constructor else .method)

/-- The holder of a module that was imported before gets another kind (`importForeignHandles`). -/
def setInlined (s : Scopes) (p : Nat) : Scopes :=
  let holder : Handle := { s.heap p with kind := .inlinedMod }
  if (s.heap p).isModHolder then { s with heap := Function.update s.heap p holder } else s

/-! ## Lookup -/

/-- A scope and those around it, by way of `parent`. -/
def chain (scopes : Nat → NameScope) : Nat → Nat → List Nat
  | 0, _ => []
  | fuel + 1, a =>
    a :: match (scopes a).parent with
      | none => []
      | some b => chain scopes fuel b

/-- All scopes from a scope on. A parent has a lower address. -/
def ancestors (s : Scopes) (a : Nat) : List Nat := chain s.scopes (a + 1) a

def lookup (s : Scopes) (name : Types.Text) : Except NameLookupError Nat :=
  match (s.ancestors s.cur).findSome? fun a => s.find a name with
  | some p => .ok p
  | none => .error .notFound

/-- The search of `lookupAndCaptureUpVar`: the scope, the handle, and the functions on the way, the
outermost one first. -/
def search (s : Scopes) (name : Types.Text) : List Nat → List Nat → Option (Nat × Nat × List Nat)
  | [], _ => none
  | a :: as, funcScopes =>
    match s.find a name with
    | some p => some (a, p, funcScopes)
    | none =>
      if (s.scopes a).isFunc then
        if funcScopes.length < funcDepthLimit + 1 then search s name as (a :: funcScopes) else none
      else search s name as funcScopes

/-- Whether a handle must be captured: it is not global and not a type alias. -/
def needsCapture (handle : Handle) : Bool := !handle.attr.global && handle.kind != .typeAlias

/-- A variable that can be assigned to is boxed. -/
def setBoxed (s : Scopes) (p : Nat) : Scopes :=
  let handle := s.heap p
  let boxed : Handle := { handle with attr := { handle.attr with boxed := true } }
  if handle.attr.readOnly then s else { s with heap := Function.update s.heap p boxed }

/-- The upvar of a function for a handle. -/
def captureIn (s : Scopes) (name : Types.Text) (p f : Nat) :
    Except NameRegisterError Nat × Scopes :=
  let handle := s.heap p
  let scope := s.scopes f
  let attr := { handle.attr with upvar := true }
  let s := (s.setBoxed p).setScope f { scope with captures := scope.captures ++ [p] }
  s.addNew f name { handle with index := scope.captures.length, attr := attr } true

/-- The loop of `lookupAndCaptureUpVar`. The name can be added, since it was not found there. -/
def capture (s : Scopes) (name : Types.Text) (scope : Nat) :
    Nat → List Nat → Except NameLookupError Nat × Scopes
  | p, [] => (.ok p, s)
  | p, f :: funcScopes =>
    if (s.heap p).attr.uncaptured then
      let inFunc := (s.scopes scope).parent.any fun b => (s.scopes b).isFunc
      (.error (if inFunc then .uncaptureField else .uncaptureEnv), s)
    else if (s.scopes f).captures.length == upvarNumLimit then (.error .upvarLimit, s)
    else
      match s.captureIn name p f with
      | (.ok q, s) => capture s name scope q funcScopes
      | (.error _, s) => (.error .notFound, s)

def lookupAndCaptureUpVar (s : Scopes) (name : Types.Text) : Except NameLookupError Nat × Scopes :=
  match s.search name (s.ancestors s.cur) [] with
  | some (scope, p, funcScopes) =>
    if needsCapture (s.heap p) then s.capture name scope p funcScopes else (.ok p, s)
  | none => (.error .notFound, s)

end Scopes

end Arsh.Scope
