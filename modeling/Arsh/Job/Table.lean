import Arsh.Lib.Vec
import Mathlib.Data.Int.Order.Basic
import Mathlib.Algebra.Group.Nat.Defs
import Mathlib.Logic.Function.Basic

/-!
# The job table

`job.h` and `job.cpp`: processes, jobs, the table from pids to jobs (`ProcTable`) and the table of
jobs (`JobTable`). Jobs are shared objects, so the table holds their addresses and a `heap` gives
the object at an address. What reaches the outside (file descriptors, descriptions, messages,
foreground groups) is left out; the results of `waitpid` are arguments.

Dereferencing the end iterator is undefined: `updateProcState` is `none` there.
-/

namespace Arsh.Job

open Vec

/-- `SYS_LIMIT_JOB_TABLE_SIZE`. -/
def jobTableSizeLimit : Nat := 2 ^ 16 - 1

inductive WaitResult.Kind where
  | exited
  | signaled
  | stopped
  | continued
  | error
  deriving DecidableEq, Repr

structure WaitResult where
  pid : Int
  kind : WaitResult.Kind
  exitStatus : Nat
  coreDump : Bool
  deriving DecidableEq, Repr

/-! ## Processes -/

inductive Proc.State where
  | running
  | stopped
  | terminated
  deriving DecidableEq, Repr

structure Proc where
  pid : Int
  state : Proc.State
  exitStatus : Nat := 0
  signaled : Bool := false
  coreDump : Bool := false
  groupLeader : Bool := false
  deriving DecidableEq, Repr

def Proc.updateState (p : Proc) (ret : WaitResult) : Proc :=
  if p.state = .terminated then p
  else match ret.kind with
    | .exited => { p with state := .terminated, exitStatus := ret.exitStatus }
    | .signaled =>
      { p with
        state := .terminated
        exitStatus := ret.exitStatus
        signaled := true
        coreDump := p.coreDump || ret.coreDump }
    | .stopped => { p with state := .stopped, exitStatus := ret.exitStatus }
    | .continued => { p with state := .running }
    | .error => p

/-! ## Jobs -/

inductive JobObject.State where
  | available
  | terminated
  | uncontrolled
  deriving DecidableEq, Repr

structure JobObject where
  jobID : Nat := 0
  state : JobObject.State := .available
  disowned : Bool := false
  lastPipe : Bool := false
  procs : List Proc
  deriving DecidableEq, Repr

namespace JobObject

def isAvailable (j : JobObject) : Bool := j.state == .available

def isTerminated (j : JobObject) : Bool := j.state == .terminated

def isGrouped (j : JobObject) : Bool := (j.procs.head?.map (·.groupLeader)).getD false

def getValidPid (j : JobObject) (index : Nat) : Int :=
  if j.state = .uncontrolled then -1
  else match j.procs[index]? with
    | some p => if p.state = .terminated then -1 else p.pid
    | none => -1

def updateState (j : JobObject) : JobObject :=
  if j.isAvailable && j.procs.countP (·.state == .terminated) == j.procs.length then
    { j with state := .terminated }
  else j

end JobObject

/-! ## The process table -/

structure ProcTable.Entry where
  pid : Int
  jobId : Nat
  procOffset : Nat
  deriving DecidableEq, Repr

def ProcTable.Entry.isDeleted (e : ProcTable.Entry) : Bool := e.jobId == 0

structure ProcTable where
  entries : List ProcTable.Entry := []
  deletedCount : Nat := 0
  deriving DecidableEq, Repr

namespace ProcTable

/-- `addProc`: the new entry, if there is none with the pid. -/
def addProc (t : ProcTable) (pid : Int) (jobId offset : Nat) : Option Entry × ProcTable :=
  if pid < 0 ∨ jobId = 0 then (none, t)
  else
    let i := lowerBound Entry.pid t.entries pid
    let e := Entry.mk pid jobId offset
    if t.entries[i]?.map Entry.pid = some pid then (none, t)
    else (some e, { t with entries := insertAt t.entries i e })

/-- `findProc`: the index of the entry. The pid of what the search comes to is not compared. -/
def findProc (t : ProcTable) (pid : Int) : Option Nat :=
  if 0 < pid then
    let i := lowerBound Entry.pid t.entries pid
    if i = t.entries.length then none else some i
  else none

/-- `deleteProc`: mark the entry. -/
def deleteProc (t : ProcTable) (i : Nat) : ProcTable :=
  match t.entries[i]? with
  | none => t
  | some e =>
    if e.isDeleted then t
    else { entries := t.entries.set i { e with jobId := 0 }, deletedCount := t.deletedCount + 1 }

def add (t : ProcTable) (job : JobObject) : ProcTable :=
  (List.range job.procs.length).foldl (fun t i => (t.addProc (job.getValidPid i) job.jobID i).2) t

def batchedRemove (t : ProcTable) : ProcTable :=
  let (entries, size) := pack (fun e => !e.isDeleted) t.entries
  { entries := entries.take size, deletedCount := 0 }

end ProcTable

/-! ## The job table -/

structure JobTable where
  heap : Nat → JobObject
  jobs : List Nat := []
  procTable : ProcTable := {}
  cur : Option Nat := none
  prev : Option Nat := none
  toplevelLastPipeJob : Option Nat := none
  notifyCallback : Bool := false

namespace JobTable

/-- The job ID of the job at an address. -/
def jobID (s : JobTable) (r : Nat) : Nat := (s.heap r).jobID

/-- Whether a pointer that may be null points to a job with `p`. -/
def test (s : JobTable) (p : JobObject → Bool) (r : Option Nat) : Bool :=
  (r.map fun r => p (s.heap r)).getD false

def modify (s : JobTable) (r : Nat) (f : JobObject → JobObject) : JobTable :=
  { s with heap := Function.update s.heap r (f (s.heap r)) }

def disown (s : JobTable) (r : Nat) : JobTable := s.modify r fun j => { j with disowned := true }

/-- The loop of `findEmptyEntry`, over the job IDs. -/
def findEmptyLoop (ids : List Nat) : Nat → Nat → Nat → Nat
  | 0, firstIndex, _ => firstIndex
  | fuel + 1, firstIndex, dist =>
    if dist = 0 then firstIndex
    else
      let halfDist := dist / 2
      let midIndex := halfDist + firstIndex
      if ids[midIndex]? = some (midIndex + 1) then
        findEmptyLoop ids fuel (midIndex + 1) (dist - halfDist - 1)
      else findEmptyLoop ids fuel firstIndex halfDist

/-- `findEmptyEntry`. Every round makes `dist` smaller, so `fuel` only has to be the size. -/
def findEmptyEntry (s : JobTable) : Nat :=
  findEmptyLoop (s.jobs.map s.jobID) s.jobs.length 0 s.jobs.length

def setCurrentJob (s : JobTable) (r : Nat) : JobTable :=
  let job := s.heap r
  if job.jobID ≠ 0 ∧ job.isAvailable ∧ ¬ job.disowned ∧ ¬ job.lastPipe ∧ s.cur ≠ some r then
    { s with
      prev := if s.test (·.disowned) s.cur then none else s.cur
      cur := some r }
  else s

/-- `attach`. The job ID is an unsigned short. -/
def attach (s : JobTable) (r : Nat) (disowned : Bool) : JobTable :=
  let job := s.heap r
  if job.jobID = 0 ∧ job.isAvailable then
    let i := s.findEmptyEntry
    let job := { job with jobID := (i + 1) % 2 ^ 16 }
    let s :=
      { s with
        jobs := insertAt s.jobs i r
        heap := Function.update s.heap r job
        procTable := s.procTable.add job }
    if disowned then s.disown r
    else
      let s := s.setCurrentJob r
      if s.toplevelLastPipeJob.isNone ∧ job.lastPipe ∧ job.isGrouped then
        { s with toplevelLastPipeJob := some r }
      else s
  else s

/-- The search of `syncAndGetCurPrevJobs` for the current and the previous job. -/
def syncLoop (s : JobTable) : List Nat → Option Nat → Option Nat × Option Nat
  | [], cur => (cur, none)
  | j :: js, cur =>
    if (s.heap j).isTerminated || (s.heap j).disowned || (s.heap j).lastPipe then syncLoop s js cur
    else if some j = cur then syncLoop s js cur
    else match cur with
      | none => syncLoop s js (some j)
      | some r => (some r, some j)

def syncAndGetCurPrevJobs (s : JobTable) : JobTable :=
  let prev := if s.test (·.disowned) s.prev then none else s.prev
  let (cur, prev) := if s.test (·.disowned) s.cur then (prev, none) else (s.cur, prev)
  if prev.isNone then
    let (cur, prev) := s.syncLoop s.jobs.reverse cur
    { s with cur := cur, prev := prev }
  else { s with cur := cur, prev := prev }

def findIter (s : JobTable) (jobId : Nat) : Option Nat :=
  if 0 < jobId then
    match s.jobs[lowerBound s.jobID s.jobs jobId]? with
    | some r => if s.jobID r = jobId then some r else none
    | none => none
  else none

/-- `updateProcState`: the job and the offset of the process come along. -/
def updateProcState (s : JobTable) (ret : WaitResult) :
    Option (JobTable × Option (Nat × Nat)) :=
  match s.procTable.findProc ret.pid with
  | none => some (s, none)
  | some i => do
    let e ← s.procTable.entries[i]?
    let r ← s.findIter e.jobId
    let proc ← (s.heap r).procs[e.procOffset]?
    let proc := proc.updateState ret
    let s := s.modify r fun j => { j with procs := j.procs.set e.procOffset proc }
    let s :=
      if proc.state = .terminated then
        let s := { s with procTable := s.procTable.deleteProc i }
        if s.notifyCallback ∧ s.procTable.deletedCount = 1 then s.syncAndGetCurPrevJobs else s
      else s
    some (s.modify r JobObject.updateState, some (r, e.procOffset))

def removeTerminatedJobs (s : JobTable) : JobTable :=
  if s.procTable.deletedCount = 0 then s
  else
    let s := { s with procTable := s.procTable.batchedRemove }
    let (jobs, size) := pack (fun r => (s.heap r).isAvailable) s.jobs
    if size = s.jobs.length then s
    else
      -- the jobs at the back are popped
      let heap := (jobs.drop size).foldr (fun r heap =>
        Function.update heap r { heap r with jobID := 0, disowned := true }) s.heap
      let s := { s with heap := heap, jobs := jobs.take size }
      let prev := if s.test (·.isTerminated) s.prev then none else s.prev
      let (cur, prev) := if s.test (·.isTerminated) s.cur then (prev, none) else (s.cur, prev)
      { s with
        cur := cur
        prev := prev
        toplevelLastPipeJob :=
          if s.test (·.isTerminated) s.toplevelLastPipeJob then none else s.toplevelLastPipeJob }

def loseControlOfJobs (s : JobTable) : JobTable :=
  { s with
    heap := fun r => if r ∈ s.jobs then { s.heap r with state := .uncontrolled } else s.heap r
    procTable := {}
    toplevelLastPipeJob := none }

/-- `waitForAny`, for the results that `waitpid` gives until there is none. -/
def waitForAny (s : JobTable) (rets : List WaitResult) : Option JobTable := do
  let s ← rets.foldlM (fun s ret => (s.updateProcState ret).map (·.1)) s
  some s.removeTerminatedJobs

end JobTable

end Arsh.Job
