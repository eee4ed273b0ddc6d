import Arsh.Lib.Dag
import Arsh.Lib.Vec
import Mathlib.Data.List.Sort

/-!
# Module archives

`ModuleArchive` and `ModuleArchives` of the analyzer: the table from module ids to archives, and
the walks over the import graph. Of an archive only its id and the ids of its imports are read
here. An entry that was reserved holds the empty archive, whose id is 0; a reverted one holds null.

A walk that has no end, a failed assertion, a null pointer and an index out of range give `none`.
The recursion has fuel: without a cycle no walk is longer than the table.
-/

namespace Arsh.Analyzer

open Vec

structure ModuleArchive where
  modId : Nat := 0
  imported : List Nat := []
  deriving DecidableEq, Repr

def ModuleArchive.isEmpty (a : ModuleArchive) : Bool := a.modId == 0

def emptyArchive : ModuleArchive := {}

structure ModuleArchives where
  values : List (Nat × Option ModuleArchive) := []
  deriving DecidableEq, Repr

namespace ModuleArchives

def find (v : ModuleArchives) (modId : Nat) : Option ModuleArchive :=
  match v.values[lowerBound Prod.fst v.values modId]? with
  | some e => if e.1 = modId then e.2 else none
  | none => none

/-- `reserveImpl`, with the place of the entry. -/
def reserveImpl (v : ModuleArchives) (modId : Nat) : Nat × ModuleArchives :=
  let i := lowerBound Prod.fst v.values modId
  if v.values[i]?.map Prod.fst = some modId then
    (i, { values := v.values.set i (modId, some emptyArchive) })
  else (i, { values := insertAt v.values i (modId, some emptyArchive) })

def reserve (v : ModuleArchives) (modId : Nat) : ModuleArchives := (v.reserveImpl modId).2

def add (v : ModuleArchives) (archive : ModuleArchive) : ModuleArchives :=
  let (i, v) := v.reserveImpl archive.modId
  { values := v.values.set i (archive.modId, some archive) }

/-! ## Reverting -/

/-- A loop over imports that ends at the first one for which `f` is true. -/
def importLoop {σ : Type} (f : Nat → σ → Option (Bool × σ)) : List Nat → σ → Option (Bool × σ)
  | [], s => some (false, s)
  | i :: is, s => do
    let (b, s) ← f i s
    if b then some (true, s) else importLoop f is s

/-- `isRevertedArchive`. The ids of archives that are found to be reverted join the set. -/
def isRevertedArchive (v : ModuleArchives) :
    Nat → List Nat → ModuleArchive → Option (Bool × List Nat)
  | 0, _, _ => none
  | fuel + 1, revertingModIdSet, archive =>
    if archive.modId ∈ revertingModIdSet then some (true, revertingModIdSet)
    else do
      let (b, revertingModIdSet) ← importLoop (fun i revertingModIdSet =>
        match v.find i with
        | none => some (true, revertingModIdSet)
        | some child => isRevertedArchive v fuel revertingModIdSet child)
        archive.imported revertingModIdSet
      if b then some (true, revertingModIdSet.insert archive.modId)
      else some (false, revertingModIdSet)

/-- The body of the loop of `revert`, for the entry at `i`. -/
def revertStep (fuel : Nat) (st : ModuleArchives × List Nat) (i : Nat) :
    Option (ModuleArchives × List Nat) :=
  match st.1.values[i]? with
  | some (k, some archive) => do
    let (b, revertingModIdSet) ← st.1.isRevertedArchive fuel st.2 archive
    some (if b then { values := st.1.values.set i (k, none) } else st.1, revertingModIdSet)
  | _ => some st

def revert (v : ModuleArchives) (revertingModIdSet : List Nat) : Option ModuleArchives :=
  if revertingModIdSet = [] then some v
  else do
    let (v, _) ← (List.range v.values.length).foldlM (revertStep (v.values.length + 1))
      (v, revertingModIdSet)
    some v

/-! ## Removing -/

def isImported (v : ModuleArchives) (id : Nat) : Nat → ModuleArchive → Option Bool
  | 0, _ => none
  | fuel + 1, archive =>
    archive.imported.anyM fun i =>
      if i = id then some true
      else do
        let child ← v.find i
        isImported v id fuel child

def removeIfUnused (v : ModuleArchives) (id : Nat) : Option (Bool × ModuleArchives) := do
  let used ← v.values.anyM fun e =>
    match e.2 with
    | some archive => v.isImported id (v.values.length + 1) archive
    | none => some false
  if used then some (false, v)
  else
    let i := v.values.findIdx fun e => e.2.map (·.modId) = some id
    if i < v.values.length then some (true, { values := v.values.eraseIdx i })
    else some (false, v)

/-! ## Dependencies -/

def resolveTargets (v : ModuleArchives) :
    Nat → List ModuleArchive → ModuleArchive → Option (List ModuleArchive)
  | 0, _, _ => none
  | fuel + 1, targets, archive =>
    archive.imported.foldlM (fun targets i => do
      let child ← v.find i
      resolveTargets v fuel targets child) (targets ++ [archive])

def visit (v : ModuleArchives) :
    Nat → List ModuleArchive × List Bool → ModuleArchive → Option (List ModuleArchive × List Bool)
  | 0, _, _ => none
  | fuel + 1, (ret, used), archive => do
    let u ← used[archive.modId]?
    if u then some (ret, used)
    else
      let (ret, used) ← archive.imported.foldlM (fun st i => do
        let child ← v.find i
        visit v fuel st child) (ret, used.set archive.modId true)
      some (ret ++ [archive], used)

/-- `std::unique` on the ids, after `x`. -/
def uniqueFrom (x : ModuleArchive) : List ModuleArchive → List ModuleArchive
  | [] => [x]
  | y :: zs => if x.modId = y.modId then uniqueFrom x zs else x :: uniqueFrom y zs

/-- `std::sort` and `std::unique` on the ids. -/
def sortUnique (targets : List ModuleArchive) : List ModuleArchive :=
  match targets.insertionSort fun x y => x.modId ≤ y.modId with
  | [] => []
  | x :: xs => uniqueFrom x xs

def topologicalSort (v : ModuleArchives) (targets : List ModuleArchive) :
    Option (List ModuleArchive) :=
  if targets = [] then some []
  else do
    let targets := sortUnique targets
    let back ← targets.getLast?
    let used := List.replicate (back.modId + 1) false
    let (ret, _) ← targets.foldlM (v.visit (v.values.length + 1)) ([], used)
    some ret

def getDepsByTopologicalOrder (v : ModuleArchives) (archive : ModuleArchive) :
    Option (List ModuleArchive) := do
  let targets ← archive.imported.foldlM (fun targets i => do
    let child ← v.find i
    v.resolveTargets (v.values.length + 1) targets child) []
  v.topologicalSort targets

end ModuleArchives

end Arsh.Analyzer
