import Mathlib.Algebra.Group.Nat.Defs
import Mathlib.Data.List.DropRight
import Mathlib.Logic.Function.Basic
import Arsh.Lib.Vec

/-!
# Ordered maps

`OrderedMapObject`: entries in the order in which they were inserted, and a robin hood table of
their indices. A removed entry leaves a hole, which is closed when there is no room for another
entry or the table grows.

Keys have an equality that is an equivalence, and a hash. An empty bucket is `none`; a table that
is not allocated yet has empty buckets only. Loops over the buckets have no bound in the source:
here they may take as many steps as there are buckets, and are `none` after that.
-/

namespace Arsh.Map

open Vec

/-! ## Entries -/

structure Entry (κ ν : Type) where
  key : κ
  hash : UInt64
  value : ν

/-- `OrderedMapEntries`: the values up to `usedSize`. -/
structure OrderedMapEntries (κ ν : Type) where
  values : List (Option (Entry κ ν)) := []
  capacity : Nat := 0

namespace OrderedMapEntries

variable {κ ν : Type}

def getUsedSize (es : OrderedMapEntries κ ν) : Nat := es.values.length

/-- The entry at an index, if it is not deleted. -/
def get (es : OrderedMapEntries κ ν) (index : Nat) : Option (Entry κ ν) := es.values[index]?.join

/-- The capacity that `add` needs. -/
def newCapacity (es : OrderedMapEntries κ ν) : Nat :=
  if es.getUsedSize = es.capacity then
    let newCap := (es.capacity + es.capacity / 2) % 2 ^ 32
    if newCap = 0 then 4 else newCap
  else es.capacity

def add (es : OrderedMapEntries κ ν) (entry : Entry κ ν) : Nat × OrderedMapEntries κ ν :=
  (es.getUsedSize, { values := es.values ++ [some entry], capacity := es.newCapacity })

/-- `del`: the deleted entries at the end go. -/
def del (es : OrderedMapEntries κ ν) (index : Nat) : OrderedMapEntries κ ν :=
  { es with values := (es.values.set index none).rdropWhile Option.isNone }

def compact (es : OrderedMapEntries κ ν) : OrderedMapEntries κ ν :=
  let (values, usedSize) := pack Option.isSome es.values
  { es with values := values.take usedSize }

/-- What `refValue` refers to is changed. -/
def setValue (es : OrderedMapEntries κ ν) (index : Nat) (value : ν) : OrderedMapEntries κ ν :=
  { es with values := es.values.modify index fun e => e.map fun e => { e with value := value } }

end OrderedMapEntries

/-! ## Buckets -/

/-- Five bits for the exponent of the capacity, and 27 bits for the size. -/
structure BucketLen where
  capExp : Nat := 2
  size : Nat := 0

namespace BucketLen

def capacity (len : BucketLen) : Nat := 2 ^ len.capExp

def incExp (len : BucketLen) : BucketLen := { len with capExp := (len.capExp + 1) % 2 ^ 5 }

def setSize (len : BucketLen) (size : Nat) : BucketLen := { len with size := size % 2 ^ 27 }

def toBucketIndex (len : BucketLen) (hash : UInt64) : Nat := hash.toNat % len.capacity

def nextBucketIndex (len : BucketLen) (index : Nat) : Nat := (index + 1) % len.capacity

/-- `loadFactor(1) > MAX_LOAD_FACTOR`. The quotient is exact, and 0.9 is this fraction. -/
def needGrow (len : BucketLen) : Bool :=
  decide ((len.size + 1) * 2 ^ 53 > 8106479329266893 * len.capacity)

end BucketLen

structure Bucket where
  distanceToInitBucketIndex : Nat
  entryIndex : Nat
  deriving DecidableEq, Repr

structure OrderedMap (κ ν : Type) where
  bucketLen : BucketLen := {}
  buckets : Nat → Option Bucket := fun _ => none
  entries : OrderedMapEntries κ ν := {}

structure ProbeState where
  keyHash : UInt64
  bucketIndex : Nat
  dist : Nat

def maxSize : Nat := 2 ^ 27 - 1

inductive InsertStatus where
  | ok
  | inserted
  | invalidKey
  | limit
  deriving DecidableEq, Repr

/-- What `put` returns: nothing, the old value, or an error. -/
inductive PutResult (ν : Type) where
  | invalid
  | old (value : ν)
  | error

namespace OrderedMap

variable {κ ν : Type}

def size (m : OrderedMap κ ν) : Nat := m.bucketLen.size

/-- The loop of `insertEntryIndex`. -/
def insertLoop (len : BucketLen) :
    Nat → (Nat → Option Bucket) → Nat → Nat → Nat → Option (Nat → Option Bucket)
  | 0, _, _, _, _ => none
  | fuel + 1, buckets, entryIndex, bucketIndex, dist =>
    match buckets bucketIndex with
    | none => some (Function.update buckets bucketIndex (some ⟨dist, entryIndex⟩))
    | some curBucket =>
      if curBucket.distanceToInitBucketIndex < dist then
        -- the one who is closer has to go on
        insertLoop len fuel (Function.update buckets bucketIndex (some ⟨dist, entryIndex⟩))
          curBucket.entryIndex (len.nextBucketIndex bucketIndex)
          (curBucket.distanceToInitBucketIndex + 1)
      else insertLoop len fuel buckets entryIndex (len.nextBucketIndex bucketIndex) (dist + 1)

def insertEntryIndex (len : BucketLen) (buckets : Nat → Option Bucket) (entryIndex : Nat)
    (bucketIndex dist : Nat) : Option (Nat → Option Bucket) :=
  insertLoop len len.capacity buckets entryIndex bucketIndex dist

/-- The loop of `rehash`, over the entries from an index on. -/
def rehashLoop (len : BucketLen) :
    List (Option (Entry κ ν)) → Nat → (Nat → Option Bucket) → Option (Nat → Option Bucket)
  | [], _, buckets => some buckets
  | none :: es, i, buckets => rehashLoop len es (i + 1) buckets
  | some e :: es, i, buckets => do
    let buckets ← insertEntryIndex len buckets i (len.toBucketIndex e.hash) 0
    rehashLoop len es (i + 1) buckets

def rehash (m : OrderedMap κ ν) (grow : Bool) : Option (OrderedMap κ ν) := do
  let len := if grow then m.bucketLen.incExp else m.bucketLen
  let buckets ← rehashLoop len m.entries.values 0 fun _ => none
  return { m with bucketLen := len, buckets := buckets }

/-- Makes room for another entry. -/
def reserve (m : OrderedMap κ ν) (probe : ProbeState) : Option (OrderedMap κ ν × ProbeState) :=
  let needGrow := m.bucketLen.needGrow
  let deleted := m.entries.getUsedSize != m.size
  let needCompaction := m.entries.getUsedSize == m.entries.capacity && deleted
  if needGrow || needCompaction then do
    let needCompaction := needCompaction || needGrow && deleted
    let m := if needCompaction then { m with entries := m.entries.compact } else m
    let m ← m.rehash needGrow
    return (m, { probe with bucketIndex := m.bucketLen.toBucketIndex probe.keyHash, dist := 0 })
  else some (m, probe)

/-- The loop of `remove`: the buckets behind an empty one move. -/
def shiftLoop (len : BucketLen) :
    Nat → (Nat → Option Bucket) → Nat → Option (Nat → Option Bucket)
  | 0, _, _ => none
  | fuel + 1, buckets, prevBucketIndex =>
    let bucketIndex := len.nextBucketIndex prevBucketIndex
    match buckets bucketIndex with
    | none => some buckets
    | some curBucket =>
      if curBucket.distanceToInitBucketIndex = 0 then some buckets
      else
        let moved : Bucket := { curBucket with
          distanceToInitBucketIndex := curBucket.distanceToInitBucketIndex - 1 }
        let buckets := Function.update buckets prevBucketIndex (some moved)
        shiftLoop len fuel (Function.update buckets bucketIndex none) bucketIndex

def clear (m : OrderedMap κ ν) : OrderedMap κ ν :=
  if m.size = 0 then m
  else
    { bucketLen := m.bucketLen.setSize 0
      buckets := fun _ => none
      entries := { m.entries with values := [] } }

/-! ## Operations on keys -/

section
variable [BEq κ] (hash : κ → UInt64)

/-- Whether the entry at an index has the key. -/
def hasKey (m : OrderedMap κ ν) (key : κ) (index : Nat) : Bool :=
  (m.entries.get index).any fun e => hash key == e.hash && key == e.key

/-- The loop of `probeBuckets`. -/
def probeLoop (m : OrderedMap κ ν) (key : κ) : Nat → Nat → Nat → Option (Bool × Nat × Nat)
  | 0, _, _ => none
  | fuel + 1, bucketIndex, dist =>
    match m.buckets bucketIndex with
    | none => some (false, bucketIndex, dist)
    | some curBucket =>
      if dist > curBucket.distanceToInitBucketIndex then some (false, bucketIndex, dist)
      else if m.hasKey hash key curBucket.entryIndex then some (true, bucketIndex, dist)
      else probeLoop m key fuel (m.bucketLen.nextBucketIndex bucketIndex) (dist + 1)

def probeBuckets (m : OrderedMap κ ν) (key : κ) : Option (Bool × ProbeState) := do
  let (found, bucketIndex, dist) ←
    m.probeLoop hash key m.bucketLen.capacity (m.bucketLen.toBucketIndex (hash key)) 0
  return (found, ⟨hash key, bucketIndex, dist⟩)

/-- `insert`; an empty key is `none`, and so is an index of -1. -/
def insert (m : OrderedMap κ ν) (key : Option κ) (value : ν) :
    Option ((Option Nat × InsertStatus) × OrderedMap κ ν) :=
  match key with
  | none => some ((none, .invalidKey), m)
  | some key => do
    let (found, probe) ← m.probeBuckets hash key
    if found then
      return (((m.buckets probe.bucketIndex).map Bucket.entryIndex, .inserted), m)
    else if m.size == maxSize then
      return ((none, .limit), m)
    else
      let (m, probe) ← m.reserve probe
      let (entryIndex, entries) := m.entries.add ⟨key, probe.keyHash, value⟩
      let buckets ← insertEntryIndex m.bucketLen m.buckets entryIndex probe.bucketIndex probe.dist
      let len := m.bucketLen.setSize (m.bucketLen.size + 1)
      return ((some entryIndex, .ok), { bucketLen := len, buckets := buckets, entries := entries })

def lookup (m : OrderedMap κ ν) (key : κ) : Option (Option Nat) :=
  if m.size = 0 then some none
  else do
    let (found, probe) ← m.probeBuckets hash key
    return if found then (m.buckets probe.bucketIndex).map Bucket.entryIndex else none

def remove (m : OrderedMap κ ν) (key : κ) : Option (Option (Entry κ ν) × OrderedMap κ ν) :=
  if m.size = 0 then some (none, m)
  else do
    let (found, probe) ← m.probeBuckets hash key
    match found, m.buckets probe.bucketIndex with
    | true, some bucket =>
      let entry := m.entries.get bucket.entryIndex
      let entries := m.entries.del bucket.entryIndex
      let len := m.bucketLen.setSize (m.bucketLen.size - 1)
      let buckets ← shiftLoop len len.capacity
        (Function.update m.buckets probe.bucketIndex none) probe.bucketIndex
      return (entry, { bucketLen := len, buckets := buckets, entries := entries })
    | _, _ => return (none, m)

def put (m : OrderedMap κ ν) (key : Option κ) (value : ν) :
    Option (PutResult ν × OrderedMap κ ν) := do
  let ((index, status), m) ← m.insert hash key value
  match status, index with
  | .inserted, some index =>
    let old := (m.entries.get index).map Entry.value
    let m := { m with entries := m.entries.setValue index value }
    return (old.elim .invalid .old, m)
  | .limit, _ => return (.error, m)
  | _, _ => return (.invalid, m)

end

/-! ## Iteration -/

def hasNext (m : OrderedMap κ ν) (index : Nat) : Bool := decide (index < m.entries.getUsedSize)

/-- The loop of `nextEntry`, from an index on: the entry and the index behind it. -/
def skipDeleted : List (Option (Entry κ ν)) → Nat → Option (Entry κ ν × Nat)
  | [], _ => none
  | none :: es, index => skipDeleted es (index + 1)
  | some e :: _, index => some (e, index + 1)

/-- `nextEntry`. There is none behind the end. -/
def nextEntry (m : OrderedMap κ ν) (index : Nat) : Option (Entry κ ν × Nat) :=
  skipDeleted (m.entries.values.drop index) index

/-- All entries that an iterator gives, from an index on. -/
def iterate (m : OrderedMap κ ν) : Nat → Nat → Option (List (Entry κ ν))
  | 0, index => if m.hasNext index then none else some []
  | fuel + 1, index =>
    if m.hasNext index then do
      let (e, index) ← m.nextEntry index
      let es ← m.iterate fuel index
      return e :: es
    else some []

end OrderedMap

end Arsh.Map
