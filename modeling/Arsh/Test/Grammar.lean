import Arsh.Test.Bounds

/-!
# The expressions of `test`

The derivations of the grammar

    or ::= and (-o and)*      and ::= not (-a not)*
    not ::= ! not | ( or ) | unary-op arg | arg binary-op arg | arg

with their arguments and their values. A derivation is unambiguous if no other one has its
arguments.
-/

namespace Arsh.Test

/-- The operators with one operand. -/
abbrev UnaryWord := { op : Bytes // isUnaryOp op = true }

/-- The operators with two operands. -/
abbrev BinaryWord := { op : Bytes // (resolveBinaryOp op).isSome = true }

mutual

inductive OrExpr where
  | one (a : AndExpr)
  | more (a : AndExpr) (rest : OrExpr)

inductive AndExpr where
  | one (e : NotExpr)
  | more (e : NotExpr) (rest : AndExpr)

inductive NotExpr where
  | neg (e : NotExpr)
  | paren (e : OrExpr)
  | unary (op : UnaryWord) (arg : Bytes)
  | binary (left : Bytes) (op : BinaryWord) (right : Bytes)
  | arg (a : Bytes)

end

/-! ## Arguments -/

mutual

def OrExpr.text : OrExpr → List Bytes
  | .one a => a.text
  | .more a rest => a.text ++ word ['-', 'o'] :: rest.text

def AndExpr.text : AndExpr → List Bytes
  | .one e => e.text
  | .more e rest => e.text ++ word ['-', 'a'] :: rest.text

def NotExpr.text : NotExpr → List Bytes
  | .neg e => word ['!'] :: e.text
  | .paren e => word ['('] :: (e.text ++ [word [')']])
  | .unary op arg => [op, arg]
  | .binary left op right => [left, op, right]
  | .arg a => [a]

end

def OrExpr.Unambiguous (t : OrExpr) : Prop := ∀ t' : OrExpr, t'.text = t.text → t' = t

/-! ## Values -/

/-- What an operator says of its operand; a path with a NUL has no value. -/
def unaryValue (sys : System) (op arg : Bytes) : Option Bool :=
  match op with
  | [45, o] =>
    if o = 'z'.toNat then some (decide (arg = []))
    else if o = 'n'.toNat then some (decide (arg ≠ []))
    else (resolveFileOp o).bind fun fileOp =>
      if arg.contains 0 then none else some (sys.testFile fileOp arg)
  | _ => none

/-- What an operator says of two operands; numbers are compared only if both operands are. -/
def binaryValue (sys : System) (left : Bytes) (op : BinaryOp) (right : Bytes) : Option Bool :=
  if isIntOp op then do
    let n1 ← convertToNum10 left
    let n2 ← convertToNum10 right
    some (compareInt n1 op n2)
  else
    match op with
    | .nt | .ot | .ef => some (compareFile sys left op right)
    | _ => some (compareStr left op right)

mutual

def OrExpr.value (sys : System) : OrExpr → Option Bool
  | .one a => a.value sys
  | .more a rest => do
    let x ← a.value sys
    let y ← rest.value sys
    some (x || y)

def AndExpr.value (sys : System) : AndExpr → Option Bool
  | .one e => e.value sys
  | .more e rest => do
    let x ← e.value sys
    let y ← rest.value sys
    some (x && y)

/-- There is no value if an operand is of the wrong kind. -/
def NotExpr.value (sys : System) : NotExpr → Option Bool
  | .neg e => (e.value sys).map not
  | .paren e => e.value sys
  | .unary op arg => unaryValue sys op arg
  | .binary left op right => (resolveBinaryOp op).bind (binaryValue sys left · right)
  | .arg a => some (decide (a ≠ []))

end

/-! ## Nesting -/

mutual

def OrExpr.nesting : OrExpr → Nat
  | .one a => a.nesting
  | .more a rest => max a.nesting rest.nesting

def AndExpr.nesting : AndExpr → Nat
  | .one e => e.nesting
  | .more e rest => max e.nesting rest.nesting

/-- The depth of the parentheses. -/
def NotExpr.nesting : NotExpr → Nat
  | .neg e => e.nesting
  | .paren e => e.nesting + 1
  | _ => 0

end

/-! ## The condition -/

mutual

def OrExpr.Straight : OrExpr → Prop
  | .one a => a.Straight
  | .more a rest => a.Straight ∧ rest.Straight

def AndExpr.Straight : AndExpr → Prop
  | .one e => e.Straight
  | .more e rest => e.Straight ∧ rest.Straight

/-- `OTHER` reads the operand as it is: there is no negation, no word that is read as `!` or `(`,
and no operator that is taken for an operand or the other way round. -/
def NotExpr.Straight : NotExpr → Prop
  | .neg _ => False
  | .paren e => e.Straight
  | .unary _ arg => (resolveBinaryOp arg).isSome = false
  | .binary left _ _ => left ≠ word ['!'] ∧ left ≠ word ['(']
  | .arg a => a ≠ word ['!'] ∧ a ≠ word ['('] ∧ isUnaryOp a = false

end

/-- An operand outside of parentheses is read as it is, where `all` are the arguments from it on.
The last ones, if they have a fixed interpretation, are the operand itself, or two words with an
operator between them, which is not `-o` behind `-a`. -/
def NotExpr.Fits (e : NotExpr) (inAnd : Bool) (all : List Bytes) : Prop :=
  if isFixed all then
    all = e.text ∨ all.length = 3 ∧ (inAnd = true → all[1]? ≠ some (word ['-', 'o']))
  else e.Straight

def AndExpr.Fits (inAnd : Bool) (after : List Bytes) : AndExpr → Prop
  | .one e => e.Fits inAnd (e.text ++ after)
  | .more e rest =>
    e.Fits inAnd (e.text ++ word ['-', 'a'] :: (rest.text ++ after)) ∧ rest.Fits true after

/-- All operands outside of parentheses are read as they are. -/
def OrExpr.Fits : OrExpr → Prop
  | .one a => a.Fits false []
  | .more a rest => a.Fits false (word ['-', 'o'] :: rest.text) ∧ rest.Fits

/-! ## The words of a derivation -/

section
variable {sys : System} {e : NotExpr} {a : AndExpr} {t : OrExpr} {x y z : Bytes} {v : Bool}

mutual

theorem OrExpr.text_pos : ∀ t : OrExpr, 0 < t.text.length
  | .one a => a.text_pos
  | .more a rest => by
    simp only [OrExpr.text, List.length_append, List.length_cons]
    omega

theorem AndExpr.text_pos : ∀ a : AndExpr, 0 < a.text.length
  | .one e => e.text_pos
  | .more e rest => by
    simp only [AndExpr.text, List.length_append, List.length_cons]
    omega

theorem NotExpr.text_pos : ∀ e : NotExpr, 0 < e.text.length
  | .neg e => by simp [NotExpr.text]
  | .paren e => by simp [NotExpr.text]
  | .unary op arg => by simp [NotExpr.text]
  | .binary left op right => by simp [NotExpr.text]
  | .arg a => by simp [NotExpr.text]

end

/-- A derivation of one or two arguments is one operand. -/
theorem AndExpr.eq_one (h : a.text.length < 3) : ∃ e, a = .one e := by
  cases a with
  | one e => exact ⟨e, rfl⟩
  | more e rest =>
    have he := e.text_pos
    have hr := rest.text_pos
    simp only [AndExpr.text, List.length_append, List.length_cons] at h
    omega

theorem OrExpr.eq_one (h : t.text.length < 3) : ∃ e, t = .one (.one e) := by
  cases t with
  | one a =>
    obtain ⟨e, rfl⟩ := AndExpr.eq_one (a := a) h
    exact ⟨e, rfl⟩
  | more a rest =>
    have ha := a.text_pos
    have hr := rest.text_pos
    simp only [OrExpr.text, List.length_append, List.length_cons] at h
    omega

theorem NotExpr.eq_arg (h : e.text = [x]) : e = .arg x := by
  cases e with
  | neg e =>
    have he := e.text_pos
    have hl := congrArg List.length h
    simp only [NotExpr.text, List.length_cons, List.length_nil] at hl
    omega
  | paren e =>
    have hl := congrArg List.length h
    simp [NotExpr.text] at hl
  | unary op arg => simp [NotExpr.text] at h
  | binary left op right => simp [NotExpr.text] at h
  | arg a =>
    simp only [NotExpr.text, List.cons.injEq, and_true] at h
    rw [h]

theorem AndExpr.eq_arg (h : a.text = [x]) : a = .one (.arg x) := by
  obtain ⟨e, rfl⟩ := AndExpr.eq_one (a := a) (by rw [h]; simp)
  rw [NotExpr.eq_arg (e := e) h]

theorem OrExpr.eq_arg (h : t.text = [x]) : t = .one (.one (.arg x)) := by
  obtain ⟨e, rfl⟩ := OrExpr.eq_one (t := t) (by rw [h]; simp)
  rw [NotExpr.eq_arg (e := e) h]

/-! ## Parts of an unambiguous derivation -/

/-- The expression with an operand and `-a` in front. -/
def OrExpr.prepend (e : NotExpr) : OrExpr → OrExpr
  | .one a => .one (.more e a)
  | .more a rest => .more (.more e a) rest

theorem OrExpr.text_prepend (e : NotExpr) (t : OrExpr) :
    (t.prepend e).text = e.text ++ word ['-', 'a'] :: t.text := by
  cases t <;> simp [OrExpr.prepend, OrExpr.text, AndExpr.text]

theorem OrExpr.prepend_inj {t t' : OrExpr} (h : t'.prepend e = t.prepend e) : t' = t := by
  cases t <;> cases t' <;> simp_all [OrExpr.prepend]

theorem unambiguous_of_more (h : (OrExpr.one (.more e a)).Unambiguous) :
    (OrExpr.one a).Unambiguous := fun t' ht' => by
  refine OrExpr.prepend_inj (e := e) (h (t'.prepend e) ?_)
  rw [OrExpr.text_prepend, ht']
  rfl

theorem unambiguous_of_or (h : (OrExpr.more a t).Unambiguous) : t.Unambiguous := fun t' ht' => by
  have heq := h (.more a t') (by simp only [OrExpr.text, ht'])
  injection heq

def AndExpr.negate : AndExpr → AndExpr
  | .one e => .one (.neg e)
  | .more e rest => .more (.neg e) rest

/-- The expression with its first operand negated. -/
def OrExpr.negate : OrExpr → OrExpr
  | .one a => .one a.negate
  | .more a rest => .more a.negate rest

theorem OrExpr.text_negate (t : OrExpr) : t.negate.text = word ['!'] :: t.text := by
  rcases t with (_ | _) | ⟨_ | _, _⟩ <;> rfl

theorem OrExpr.negate_inj {t t' : OrExpr} (h : t'.negate = t.negate) : t' = t := by
  rcases t with (_ | _) | ⟨_ | _, _⟩ <;> rcases t' with (_ | _) | ⟨_ | _, _⟩ <;>
    simp_all [OrExpr.negate, AndExpr.negate]

theorem unambiguous_of_neg (h : (OrExpr.one (.one (.neg e))).Unambiguous) :
    (OrExpr.one (.one e)).Unambiguous := fun t' ht' => by
  refine OrExpr.negate_inj (h t'.negate ?_)
  rw [OrExpr.text_negate, ht']
  rfl

end

end Arsh.Test
