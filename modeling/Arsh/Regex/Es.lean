import Arsh.Lib.Es
import Arsh.Regex.Vm
import Arsh.Regex.Search

/-!
# The ECMAScript semantics of a lowered tree

`Node.matcher` reads a lowered tree as an ECMAScript pattern over the code points of the text.
`\X` and string sets are no part of a plain ECMAScript pattern: a grapheme cluster is as long as
the scanner says, and a string set is the choice between the strings that it offers at a position.
-/

namespace Arsh.Regex

open UnicodeUtil

/-! ## Leaves -/

/-- Whether there is a character at index `i` that passes the test. -/
def testAt (text : List Nat) (test : Nat → Bool) (i : Nat) : Bool :=
  match text[i]? with
  | some c => test c
  | none => false

/-- Whether the character before index `i` passes the test. -/
def testBefore (text : List Nat) (test : Nat → Bool) : Nat → Bool
  | 0 => false
  | i + 1 => testAt text test i

/-- Assertions on code points. -/
def Boundary.holds (T : Tables) (text : List Nat) (i : Nat) : Boundary → Bool
  | .start multiline => i == 0 || multiline && testBefore text isLineTerminator i
  | .stop multiline => i == text.length || multiline && testAt text isLineTerminator i
  | .word ignoreCase =>
    let word := if ignoreCase then T.isExtendWord else isWord
    testBefore text word i != testAt text word i
  | .notWord ignoreCase =>
    let word := if ignoreCase then T.isExtendWord else isWord
    testBefore text word i == testAt text word i

/-- The groups a back-reference may refer to. -/
def backRefGroups (named : List NamedCaptureEntry) (index : Nat) : Bool → List Nat
  | false => [index]
  | true =>
    match named.getD index (.multiple []) with
    | .single i => [i]
    | .multiple is => is

/-- The equality of characters in a back-reference. -/
def sameChar (T : Tables) (ignoreCase : Bool) (a b : Nat) : Bool :=
  if ignoreCase then T.simpleCaseFolding a == T.simpleCaseFolding b else a == b

/-- The index after a grapheme cluster. -/
def graphemeStep (T : Tables) (text : List Nat) (i : Nat) : Option Nat :=
  if i < text.length then
    ((List.range (text.length + 1)).find? fun j =>
      off text j == off text i + T.graphemeSize (encode (text.drop i)))
  else none

/-- The indices after the strings and code points of a set that stand at index `i`, in the order in
which the set offers them. -/
def StrSet.ends (S : Subject) (s : StrSet) (text : List Nat) (forward : Bool) (i : Nat) : List Nat :=
  (s.positions S forward (off text i)).filterMap fun p =>
    (List.range (text.length + 1)).find? fun j =>
      off text j == p && if forward then decide (i ≤ j) else decide (j ≤ i)

def StrSet.outcomes (S : Subject) (s : StrSet) (text : List Nat) (forward : Bool) : Es.Outcomes :=
  fun x => (s.ends S text forward x.endIndex).map fun j => { x with endIndex := j }

/-- The choice between the outcomes of a list. -/
def choice (o : Es.Outcomes) : Es.Matcher := fun x k => (o x).findSome? k

/-! ## Nodes -/

/-- The bound of a repeat; `UNLIMIT` is none. -/
def repeatMax (max : Nat) : Option Nat := if max = Node.unlimit then none else some max

namespace Node

section
variable (T : Tables) (named : List NamedCaptureEntry) (text : List Nat)

mutual

/-- The matcher of a node. -/
def matcher (forward : Bool) : Node → Es.Matcher
  | .empty => Es.empty
  | .atom a => Es.move fun x => Es.step text forward (a.test T) x.endIndex
  | .grapheme => Es.move fun x => graphemeStep T text x.endIndex
  | .boundary b => Es.move fun x => if b.holds T text x.endIndex then some x.endIndex else none
  | .backRef index isNamed ignoreCase =>
    Es.move (Es.backStep text forward (sameChar T ignoreCase) (backRefGroups named index isNamed))
  | .repeated _ first last min max greedy p =>
    Es.repeated greedy (groupRange first last) (matcher forward p) (min + text.length + 1) min
      (repeatMax max)
  | .seq ps => if forward then matcherSeq ps else matcherLBSeq ps
  | .alt ps =>
    match ps with
    | [p] => Es.alt (matcher forward p) Es.empty
    | ps => matcherAlt forward ps
  | .lookAround lookAhead negate p => Es.lookAround negate (matcher lookAhead p)
  | .group index p => Es.group forward index (matcher forward p)
  | .strSet s => choice (s.outcomes ⟨T, encode text, named⟩ text forward)

def matcherSeq : List Node → Es.Matcher
  | [] => Es.empty
  | p :: ps => Es.seq (matcher true p) (matcherSeq ps)

def matcherLBSeq : List Node → Es.Matcher
  | [] => Es.empty
  | p :: ps => Es.seq (matcherLBSeq ps) (matcher false p)

def matcherAlt (forward : Bool) : List Node → Es.Matcher
  | [] => fun _ _ => none
  | p :: ps => Es.alt (matcher forward p) (matcherAlt forward ps)

end

mutual

/-- The outcomes of a node. -/
def outcomes (forward : Bool) : Node → Es.Outcomes
  | .empty => fun x => [x]
  | .atom a => Es.moveOutcomes fun x => Es.step text forward (a.test T) x.endIndex
  | .grapheme => Es.moveOutcomes fun x => graphemeStep T text x.endIndex
  | .boundary b =>
    Es.moveOutcomes fun x => if b.holds T text x.endIndex then some x.endIndex else none
  | .backRef index isNamed ignoreCase => Es.moveOutcomes
    (Es.backStep text forward (sameChar T ignoreCase) (backRefGroups named index isNamed))
  | .repeated _ first last min max greedy p =>
    Es.repeatOutcomes greedy (groupRange first last) (outcomes forward p) (min + text.length + 1)
      min (repeatMax max)
  | .seq ps => if forward then outcomesSeq ps else outcomesLBSeq ps
  | .alt ps =>
    match ps with
    | [p] => fun x => outcomes forward p x ++ [x]
    | ps => outcomesAlt forward ps
  | .lookAround lookAhead negate p => Es.lookAroundOutcomes negate (outcomes lookAhead p)
  | .group index p => Es.groupOutcomes forward index (outcomes forward p)
  | .strSet s => s.outcomes ⟨T, encode text, named⟩ text forward

def outcomesSeq : List Node → Es.Outcomes
  | [] => fun x => [x]
  | p :: ps => fun x => (outcomes true p x).flatMap (outcomesSeq ps)

def outcomesLBSeq : List Node → Es.Outcomes
  | [] => fun x => [x]
  | p :: ps => fun x => (outcomesLBSeq ps x).flatMap (outcomes false p)

def outcomesAlt (forward : Bool) : List Node → Es.Outcomes
  | [] => fun _ => []
  | p :: ps => fun x => outcomes forward p x ++ outcomesAlt forward ps x

end

end

section
variable {T : Tables} {named : List NamedCaptureEntry} {text : List Nat}

theorem represents_list {forward : Bool} {ps : List Node}
    (h : ∀ p ∈ ps, ∀ f, Es.Represents (p.matcher T named text f) (p.outcomes T named text f)) :
    Es.Represents (matcherSeq T named text ps) (outcomesSeq T named text ps) ∧
      Es.Represents (matcherLBSeq T named text ps) (outcomesLBSeq T named text ps) ∧
      Es.Represents (matcherAlt T named text forward ps) (outcomesAlt T named text forward ps) := by
  induction ps with
  | nil => exact ⟨Es.represents_empty, Es.represents_empty, fun _ _ => rfl⟩
  | cons p ps ih =>
    have hp := h p List.mem_cons_self
    obtain ⟨h₁, h₂, h₃⟩ := ih fun q hq => h q (List.mem_cons_of_mem _ hq)
    exact ⟨Es.represents_seq (hp true) h₁, Es.represents_seq h₂ (hp false),
      Es.represents_alt (hp forward) h₃⟩

theorem represents (p : Node) (forward : Bool) :
    Es.Represents (p.matcher T named text forward) (p.outcomes T named text forward) := by
  induction p using Node.induct generalizing forward with
  | empty => exact Es.represents_empty
  | atom a => exact Es.represents_move _
  | grapheme => exact Es.represents_move _
  | boundary b => exact Es.represents_move _
  | backRef => exact Es.represents_move _
  | repeated _ _ _ _ _ _ p ih => exact Es.represents_repeated (ih forward) _ _ _
  | seq ps ih =>
    unfold matcher outcomes
    cases forward with
    | true => exact (@represents_list T named text true ps ih).1
    | false => exact (@represents_list T named text true ps ih).2.1
  | alt ps ih =>
    unfold matcher outcomes
    split
    · next p => exact Es.represents_alt (ih p List.mem_cons_self forward) Es.represents_empty
    · exact (represents_list ih).2.2
  | lookAround lookAhead _ p ih => exact Es.represents_lookAround (ih lookAhead)
  | group _ p ih => exact Es.represents_group (ih forward)
  | strSet s => exact fun _ _ => rfl

end

end Node

end Arsh.Regex
