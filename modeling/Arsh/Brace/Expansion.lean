import Arsh.Brace.Range
import Arsh.Lib.Machine

/-!
# Brace expansion

The loop of `applyBraceExpansion` in `expand.cpp` as a machine. It is at the head of the loop, or
behind a word, in the inner loop that looks for the next alternative. What happens to a word
(globbing, tilde expansion, the check for an interrupt) is a parameter: it takes the values of the
word and the arguments so far, and may fail.

Indices that the source keeps in an `unsigned char` wrap. A failed assertion and an access out of
range are `stuck`.
-/

namespace Arsh.Brace

/-! ## Values -/

inductive ExpandMeta where
  | any
  | zeroOrMore
  | bracketOpen
  | bracketClose
  | tilde
  | assign
  | colon
  | braceOpen
  | braceClose
  | braceSep
  | braceSeqOpen
  | braceSeqClose
  deriving DecidableEq, Repr

/-- What is on the operand stack for one argument. -/
inductive Value where
  /-- `Value()` -/
  | empty
  | str (text : Text)
  | expandMeta (m : ExpandMeta) (id : Nat)
  /-- the object behind `BRACE_SEQ_OPEN` -/
  | range (r : BraceRange)
  deriving DecidableEq, Repr

/-- `static_cast<unsigned char>`. -/
def toU8 (n : Nat) : Nat := n % 256

structure ExpandState where
  index : Nat
  usedSize : Nat
  closeIndex : Nat
  braceId : Nat
  deriving DecidableEq, Repr

/-- The search for the close of a group: the number of values before it. -/
def findClose : Nat → List Value → Nat
  | _, [] => 0
  | level, .expandMeta .braceClose _ :: rest =>
    if level - 1 = 0 then 0 else findClose (level - 1) rest + 1
  | level, .expandMeta .braceOpen _ :: rest => findClose (level + 1) rest + 1
  | level, _ :: rest => findClose level rest + 1

/-- `lower_bound` on the stack (its top comes first here), and the new index of the entry found. -/
def setIndex (id i : Nat) : List ExpandState → Option (List ExpandState × Nat)
  | [] => none
  | e :: below =>
    match setIndex id i below with
    | some (below, closeIndex) => some (e :: below, closeIndex)
    | none =>
      if id ≤ e.braceId then some ({ e with index := toU8 i } :: below, e.closeIndex) else none

/-! ## The machine -/

inductive Label where
  | loop
  /-- the loop over the stack behind a word -/
  | backtrack
  deriving DecidableEq, Repr

inductive Result (σ : Type) where
  | done (argv : σ)
  | failed
  | stuck

structure State (σ : Type) where
  label : Label
  i : Nat
  usedSize : Nat
  stack : List ExpandState
  seqStack : List Int
  values : List Value
  argv : σ

section
variable {σ : Type} (values : List Value) (emit : List Value → σ → Option σ)

/-- The state before the loop. -/
def State.init (argv : σ) : State σ where
  label := .loop
  i := 0
  usedSize := 0
  stack := []
  seqStack := []
  values := List.replicate (values.length + 1) .empty
  argv := argv

/-- `values[usedSize++] = v`. -/
def State.write (s : State σ) (v : Value) : Option (State σ) :=
  if s.usedSize < s.values.length then
    some { s with values := s.values.set s.usedSize v, usedSize := s.usedSize + 1 }
  else none

def braceOpen (s : State σ) (id : Nat) : State σ :=
  let closeIndex := s.i + 1 + findClose 1 (values.drop (s.i + 1))
  { s with stack := ⟨toU8 s.i, toU8 s.usedSize, toU8 closeIndex, toU8 id⟩ :: s.stack }

/-- `BRACE_SEP` and `BRACE_CLOSE`: on behind the group. -/
def braceSep (s : State σ) (id : Nat) : Option (State σ) :=
  (setIndex id s.i s.stack).map fun (stack, closeIndex) =>
    { s with stack := stack, i := closeIndex }

def braceSeqOpen (s : State σ) (id : Nat) : Option (State σ) :=
  match values[s.i + 1]? with
  | some (.range r) =>
    some { s with
      i := s.i + 1
      stack := ⟨toU8 (s.i + 2), toU8 s.usedSize, toU8 (s.i + 2), toU8 id⟩ :: s.stack
      seqStack := r.first :: s.seqStack }
  | _ => none

/-- `BRACE_SEQ_CLOSE`: the next value of the sequence. -/
def braceSeqClose (s : State σ) : Option (State σ) :=
  match values[s.i - 1]?, s.seqStack with
  | some (.range r), cur :: _ =>
    (formatSeqValue cur r.digits (r.kind == .char)).bind fun text => s.write (.str text)
  | _, _ => none

/-- One round of the loop up to `CONTINUE`. -/
def body (s : State σ) : Value → Option (State σ)
  | .expandMeta .braceOpen id => some (braceOpen values s id)
  | .expandMeta .braceSep id => braceSep s id
  | .expandMeta .braceClose id => braceSep s id
  | .expandMeta .braceSeqOpen id => braceSeqOpen values s id
  | .expandMeta .braceSeqClose _ => braceSeqClose values s
  | v => s.write v

/-- The code at `CONTINUE`: the values are a word when the last index has been reached. -/
def behind (s : State σ) : State σ ⊕ Result σ :=
  if s.i = values.length - 1 then
    if s.usedSize < s.values.length then
      match emit (s.values.take s.usedSize) s.argv with
      | some argv =>
        .inl { s with
          label := .backtrack, values := s.values.set s.usedSize .empty, argv := argv }
      | none => .inr .failed
    else .inr .stuck
  else .inl { s with i := s.i + 1 }

/-- One round of the loop over the stack. -/
def backtrack (s : State σ) : State σ ⊕ Result σ :=
  match s.stack with
  | [] => .inl { s with label := .loop, i := s.i + 1 }
  | e :: below =>
    match values[e.index]? with
    | some (.expandMeta .braceClose _) => .inl { s with stack := below }
    | some (.expandMeta .braceSeqClose _) =>
      match values[e.index - 1]?, s.seqStack with
      | some (.range r), cur :: seqs =>
        match tryUpdateSeqValue cur r with
        | some ret =>
          .inl { s with
            label := .loop, i := e.index - 1 + 1, usedSize := e.usedSize, seqStack := ret :: seqs }
        | none => .inl { s with stack := below, seqStack := seqs }
      | _, _ => .inr .stuck
    | some (.expandMeta _ _) =>
      .inl { s with label := .loop, i := e.index + 1, usedSize := e.usedSize }
    | _ => .inr .stuck

/-- `applyBraceExpansion`, step by step. -/
def step (s : State σ) : State σ ⊕ Result σ :=
  match s.label with
  | .loop =>
    match values[s.i]? with
    | none => .inr (.done s.argv)
    | some v =>
      match body values s v with
      | none => .inr .stuck
      | some s => behind values emit s
  | .backtrack => backtrack values s

end

end Arsh.Brace
