import Arsh.Obj.KeyLookup

/-!
# Ordering of values

`Ordering::operator()` of `object_util.cpp`: the loop of `Equality`, but with what decides the order. A map is
compared by its entries in their order, a key before its value; an index counts both. `cmp` is the
lexicographic order of structures, and it is transitive, whatever the heap has.
-/

namespace Arsh.Obj

open Map FrameStack

/-! ## The source -/

/-- `memcmp`, as far as its sign. -/
def memcmp : Bytes → Bytes → Int
  | a :: s, b :: t => if a < b then -1 else if b < a then 1 else memcmp s t
  | _, _ => 0

/-- `StringRef::compare`. -/
def stringCompare (s t : Bytes) : Int :=
  let size := min s.length t.length
  let ret := memcmp (s.take size) (t.take size)
  if ret ≠ 0 then ret
  else if s.length < t.length then -1
  else if s.length = t.length then 0 else 1

/-- `skipEmptyEntries2`: the index of the entry, and the index of both its parts. -/
def skipEmptyEntries2 (es : OrderedMapEntries Value Value) (index : Nat) : Nat × Nat :=
  let n := ((es.values.drop (index / 2)).takeWhile Option.isNone).length
  (index / 2 + n, index + 2 * n)

namespace Ordering

/-- A result other than 0 ends the comparison. -/
def test (r : Int) : Except Int (Unit × Action OrdFrame) :=
  if r ≠ 0 then .error r else .ok ((), .pop)

def compareSize (x y : Nat) : Except Int (Unit × Action OrdFrame) :=
  if x < y then .error (-1) else if x > y then .error 1 else .ok ((), .pop)

section
variable (h : Heap)

/-- The part for objects. -/
def stepObject (frame : OrdFrame) (a b : Addr) :
    Object → Object → Except Int (Unit × Action OrdFrame)
  | .array xa, .array ya =>
    match xa[frame.xi]?, ya[frame.yi]? with
    | some x, some y =>
      .ok ((), .push { frame with xi := frame.xi + 1, yi := frame.yi + 1 } { x := x, y := y })
    | _, _ => compareSize xa.length ya.length
  | .orderedMap _ xo, .orderedMap _ yo =>
    -- order-dependent
    let (xi, frameXi) := skipEmptyEntries2 xo.entries frame.xi
    let (yi, frameYi) := skipEmptyEntries2 yo.entries frame.yi
    match xo.entries.get xi, yo.entries.get yi with
    | some xe, some ye =>
      let isKey := frameXi % 2 = 0
      .ok ((), .push { frame with xi := frameXi + 1, yi := frameYi + 1 }
        { x := if isKey then xe.key else xe.value, y := if isKey then ye.key else ye.value })
    | _, _ => compareSize xo.size yo.size
  | .base _ _ xo, .base _ _ yo =>
    match xo[frame.xi]?, yo[frame.yi]? with
    | some x, some y =>
      .ok ((), .push { frame with xi := frame.xi + 1, yi := frame.yi + 1 } { x := x, y := y })
    | _, _ => compareSize xo.length yo.length
  | _, _ => .error (((a : Int) - b).bmod (2 ^ 32)) -- normally unreachable

/-- The part for values of one kind. -/
def stepKind (frame : OrdFrame) : Value → Value → Except Int (Unit × Action OrdFrame)
  | .empty, _ | .invalid, _ => .ok ((), .pop)
  | .bool a, .bool b => test ((if a then 1 else 0) - if b then 1 else 0)
  | .sig m, .sig n => test (m - n)
  | .object a, .object b =>
    if (h.get a).kind ≠ (h.get b).kind then .error ((h.get a).kind - (h.get b).kind)
    else if a = b then .ok ((), .pop) -- fast path
    else stepObject frame a b (h.get a) (h.get b)
  | _, _ => .error (-1) -- normally unreachable

/-- The body of the loop. -/
def step : StepFun OrdFrame Unit Int := fun _ frame =>
  match frame.x.asStrRef h, frame.y.asStrRef h with
  | some s, some t => test (stringCompare s t)
  | _, _ =>
    match frame.x.asInt h, frame.y.asInt h with
    | some left, some right =>
      if left = right then .ok ((), .pop) else .error (if left < right then -1 else 1)
    | _, _ =>
      match frame.x.asFloat h, frame.y.asFloat h with
      | some d, some e => test (Double.compareByTotalOrder d e)
      | _, _ =>
        if frame.x.kind ≠ frame.y.kind then
          if frame.x = .invalid then .error (-1)
          else if frame.y = .invalid then .error 1
          else .error (frame.x.kind - frame.y.kind)
        else stepKind h frame frame.x frame.y

end

end Ordering

/-- `Ordering::operator()`, and whether there was an overflow. `fuel` bounds the steps of the loop. -/
def ordering (h : Heap) (fuel : Nat) (x y : Value) : Option (Int × Bool) :=
  match run (Ordering.step h) stackDepthLimit fuel () [{ x := x, y := y }] with
  | some (.ok ()) => some (0, false)
  | some (.error (.halt r)) => some (r, false)
  | some (.error .overflow) => some (-1, true)
  | none => none

/-! ## The order of structures -/

namespace View

/-- The kinds in their order: an invalid value comes before all others. -/
def rank : View → Nat
  | invalid => 0
  | empty => 1
  | internal .. => 2
  | bool _ => 3
  | sig _ => 4
  | int _ => 5
  | float _ => 6
  | str _ => 7
  | array _ => 8
  | map .. => 9
  | base .. => 10
  | other _ => 11

/-- What is compared as a number. -/
def num : View → Int
  | bool b => if b then 1 else 0
  | sig n | int n => n
  | float d => d.rank
  | _ => 0

/-- What is compared as a string. -/
def bytes : View → Bytes
  | str s => s
  | _ => []

end View

/-- Views are compared by their kinds, then by what they have, and their parts from the first one on. -/
def cmpView (C : Value → Value → Ordering) : View → View → Ordering :=
  compareLex (compareOn View.rank) <| compareLex (compareOn View.num) <|
    compareLex (compareOn View.bytes) fun u w => List.compareLex C (children u) (children w)

/-- The order of structures down to a depth. -/
def cmp (h : Heap) : Nat → Value → Value → Ordering
  | 0, _, _ => .eq
  | n + 1, x, y => cmpView (cmp h n) (view h x) (view h y)

section
variable {C : Value → Value → Ordering}

theorem transCmp_comap {α β : Type} {D : β → β → Ordering} (hD : Std.TransCmp D) (f : α → β) :
    Std.TransCmp fun a b => D (f a) (f b) where
  eq_swap := hD.eq_swap
  isLE_trans := hD.isLE_trans

theorem cmpView_transCmp (hC : Std.TransCmp C) : Std.TransCmp (cmpView C) := by
  have hlist : Std.TransCmp (List.compareLex C) := inferInstance
  have hparts := transCmp_comap hlist children
  unfold cmpView
  infer_instance

theorem cmp_transCmp (h : Heap) (n : Nat) : Std.TransCmp (cmp h n) := by
  induction n with
  | zero => exact { eq_swap := rfl, isLE_trans := fun _ _ => rfl }
  | succ n ih => exact transCmp_comap (cmpView_transCmp ih) (view h)

/-! ## Views of a kind -/

variable {u w : View}

theorem cmpView_eq : cmpView C u w = (compare u.rank w.rank).then ((compare u.num w.num).then
    ((compare u.bytes w.bytes).then (List.compareLex C (children u) (children w)))) := rfl

theorem cmpView_num (hrank : u.rank = w.rank) (hbytes : u.bytes = w.bytes)
    (hu : children u = []) (hw : children w = []) : cmpView C u w = compare u.num w.num := by
  rw [cmpView_eq, hrank, hbytes, hu, hw, Std.ReflOrd.compare_self, Std.ReflOrd.compare_self]
  show (compare u.num w.num).then .eq = _
  exact Ordering.then_eq ..

theorem cmpView_bytes (hrank : u.rank = w.rank) (hnum : u.num = w.num)
    (hu : children u = []) (hw : children w = []) : cmpView C u w = compare u.bytes w.bytes := by
  rw [cmpView_eq, hrank, hnum, hu, hw, Std.ReflOrd.compare_self, Std.ReflOrd.compare_self]
  show (compare u.bytes w.bytes).then .eq = _
  exact Ordering.then_eq ..

theorem cmpView_children (hrank : u.rank = w.rank) (hnum : u.num = w.num)
    (hbytes : u.bytes = w.bytes) : cmpView C u w = List.compareLex C (children u) (children w) := by
  rw [cmpView_eq, hrank, hnum, hbytes, Std.ReflOrd.compare_self, Std.ReflOrd.compare_self,
    Std.ReflOrd.compare_self]
  rfl

end

end Arsh.Obj
