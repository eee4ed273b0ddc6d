import Arsh.Scope.Grow
import Arsh.Types.Discard

/-!
# The state of the compiler

What lives as long as the shell does: the scopes with the count of global variables, the modules
that were loaded, and the type pool. A discard point is taken before an input is compiled; if that
fails, `discardAll` drops what was defined since.
-/

namespace Arsh.Compiler

open Arsh.Types Arsh.Assoc Arsh.Scope

/-- `ModuleLoaderBase::MAX_MOD_NUM`. -/
def modNumLimit : Nat := 32767

/-- The module loader, the scopes and the pool; `scope` is the scope of the module provider. An
entry of the loader has the type of a module, or 0 while it is loaded. -/
structure State where
  scopes : Scopes
  scope : Nat
  indexMap : List (Types.Text × Nat)
  entries : List (Types.Text × Nat)
  pool : TypePool

structure DiscardPoint where
  idCount : Nat := 0
  gvarCount : Nat := 0
  commitIdOffset : Nat := 0
  typeIdOffset : Nat := 0
  methodIdOffset : Nat := 0

namespace State

def modSize (s : State) : Nat := s.indexMap.length

def handles (s : State) : List (Types.Text × (Nat × Nat)) := (s.scopes.scopes s.scope).handles

/-- The type of the root module. -/
def rootType (s : State) : Option TypeObj := s.pool.get (toModTypeName 1)

/-! ## Modules -/

def addNewModEntry (s : State) (path : Types.Text) : State :=
  match emplace s.indexMap path s.indexMap.length with
  | (true, indexMap) =>
    if indexMap.length > modNumLimit then s
    else { s with indexMap := indexMap, entries := s.entries ++ [(path, 0)] }
  | (false, _) => s

/-- `ModuleLoader::createModType`; the module with the id 1 is the root, which can be opened again. -/
def createModType (s : State) (modId : Nat) (handles : List (Types.Text × Handle))
    (children : List Imported) (index attr : Nat) : State :=
  let (typeId, pool) := s.pool.createModType modId handles children index attr
  let reopened := modId == 1 && (s.entries[1]?).any fun e => 0 < e.2
  let entries := if reopened then s.entries else
    s.entries.modify modId fun e => (e.1, typeId.getD 0)
  { s with pool := pool, entries := entries }

/-! ## Discarding -/

def getCurrentDiscardPoint (s : State) : DiscardPoint where
  idCount := s.modSize
  gvarCount := s.scopes.gvarCount
  commitIdOffset := s.handles.length
  typeIdOffset := s.pool.typeTable.length
  methodIdOffset := s.pool.methodIdCount

/-- `ModuleLoader::discard`. -/
def discardMod (s : State) (point : DiscardPoint) : State :=
  if s.modSize ≤ point.idCount then s
  else
    { s with
      entries := s.entries.take point.idCount
      indexMap := s.indexMap.filter fun e => decide (e.2 < point.idCount)
      scopes := { s.scopes with gvarCount := point.gvarCount } }

/-- `NameScope::discard`. -/
def discardScope (s : State) (point : DiscardPoint) : State :=
  let scope := s.scopes.scopes s.scope
  { s with scopes := s.scopes.setScope s.scope { scope with
      handles := scope.handles.filter fun e => decide (e.2.2 < point.commitIdOffset)
      curLocalIndex := 0
      localSize := 0 } }

def discardAll (s : State) (point : DiscardPoint) : State :=
  let s := (s.discardMod point).discardScope point
  { s with pool := s.pool.discard point.typeIdOffset point.methodIdOffset }

/-- What a discard is to restore: the entries of the scope with their handles, the count of global
variables, the modules, and the pool. -/
structure Restored (s₀ s : State) : Prop where
  handles : s.handles = s₀.handles
  heap : ∀ e ∈ s₀.handles, s.scopes.heap e.2.1 = s₀.scopes.heap e.2.1
  gvarCount : s.scopes.gvarCount = s₀.scopes.gvarCount
  indexMap : s.indexMap = s₀.indexMap
  entries : s.entries = s₀.entries
  pool : s.pool = s₀.pool

/-! ## Units -/

/-- The next unit: what is below the global scopes is gone. -/
def nextUnit (s : State) (scope : Nat) : State :=
  { s with
    scope := scope
    scopes := { s.scopes with
      cur := scope
      scopes := fun a => if (s.scopes.scopes a).kind = .global then s.scopes.scopes a else {} } }

/-- `cloneGlobal`: a scope with the same entries. -/
def cloneGlobal (s : State) : State :=
  let scope := s.scopes.scopes s.scope
  { s with
    scope := s.scopes.scopeSize
    scopes := s.scopes.push { modId := scope.modId, handles := scope.handles } }

/-- The state with nothing but the builtin types and a module for them. -/
def new (env : TypeEnv) : State where
  scopes := { Scopes.topLevel with gvarCount := 1 }
  scope := 0
  indexMap := [("(builtin)".toList, 0)]
  entries := [("(builtin)".toList, 0)]
  pool := TypePool.new env

/-- One call after a discard point. A record that is finalized and a module whose type is made are
newer than the point, but for the root module: its type is made again for every input, before the
code of the input is finalized. -/
inductive Step (env : TypeEnv) (point : DiscardPoint) : State → State → Prop
  | scope {s : State} {t : Scopes} (h : Scopes.Define s.scopes t) :
      Step env point s { s with scopes := t }
  | create {s : State} {q : TypePool} (h : TypePool.Create env s.pool q) :
      Step env point s { s with pool := q }
  | finalize {s : State} (typeId : Nat) (cli : Bool) (fields : List (Types.Text × Handle))
      (h : point.typeIdOffset ≤ typeId) :
      Step env point s { s with pool := s.pool.finalizeRecordType typeId cli fields }
  | lookupMethod {s : State} (ids : List Nat) (methodName : Types.Text) :
      Step env point s { s with pool := s.pool.lookupMethod ids methodName }
  | load {s : State} (path : Types.Text) : Step env point s (s.addNewModEntry path)
  | newMod {s : State} (modId : Nat) (handles : List (Types.Text × Handle))
      (children : List Imported) (index attr : Nat) (h : point.idCount ≤ modId) (hlt : modId < s.modSize) :
      Step env point s (s.createModType modId handles children index attr)
  | reopen {s : State} (handles : List (Types.Text × Handle)) (children : List Imported)
      (index attr : Nat) (h : ((s.entries[1]?).any fun e => 0 < e.2) = true) :
      Step env point s (s.createModType 1 handles children index attr)

/-- An import would change the kind of a holder that a state has. -/
def upgrades (s₀ s : State) (p : Nat) : Bool :=
  (s₀.handles.any fun e => e.2.1 == p) && (s.scopes.heap p).isModHolder &&
    (s.scopes.heap p).kind != .inlinedMod

/-- Runs from a state, and whether a holder of that state was changed by an import. -/
inductive Run (env : TypeEnv) (point : DiscardPoint) (s₀ : State) : Bool → State → Prop
  | start : Run env point s₀ false s₀
  | step {b : Bool} {s t : State} (h : Run env point s₀ b s) (hs : Step env point s t) :
      Run env point s₀ b t
  | inline {b : Bool} {s : State} (p : Nat) (h : Run env point s₀ b s)
      (hk : (s.scopes.scopes s.scopes.cur).kind = .global) :
      Run env point s₀ (b || upgrades s₀ s p) { s with scopes := s.scopes.setInlined p }

/-- The states at the beginning of a unit: after a unit that was compiled, or one that failed. -/
inductive Reachable (env : TypeEnv) : State → Prop
  | new : Reachable env (new env)
  | unit {b : Bool} {s t : State} {scope : Nat} (h : Reachable env s) (hr : Run env {} s b t)
      (hlt : scope < t.scopes.scopeSize) (hk : (t.scopes.scopes scope).kind = .global) :
      Reachable env (t.nextUnit scope)
  | failed {b : Bool} {s t : State} {scope : Nat} (h : Reachable env s)
      (hr : Run env s.getCurrentDiscardPoint s b t) (hlt : scope < t.scopes.scopeSize)
      (hk : (t.scopes.scopes scope).kind = .global) :
      Reachable env ((t.discardAll s.getCurrentDiscardPoint).nextUnit scope)
  | clone {s : State} (h : Reachable env s) : Reachable env s.cloneGlobal

end State

end Arsh.Compiler
