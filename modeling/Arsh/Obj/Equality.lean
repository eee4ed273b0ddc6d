import Arsh.Lib.FrameStack
import Arsh.Obj.Key

/-!
# Equality of values

`Equality::operator()` of `object_util.cpp`: a loop over a stack of pairs of values, each with the places in
them up to which the parts have been compared.
-/

namespace Arsh.Obj

open Map FrameStack

/-! ## The source -/

/-- `SYS_LIMIT_NESTED_OBJ_DEPTH`. -/
def stackDepthLimit : Nat := 256

structure OrdFrame where
  x : Value
  y : Value
  xi : Nat := 0
  yi : Nat := 0

def skipEmptyEntries (es : OrderedMapEntries Value Value) (index : Nat) : Nat :=
  index + ((es.values.drop index).takeWhile Option.isNone).length

namespace Equality

def done : Except Unit (Unit × Action OrdFrame) := .ok ((), .pop)

def fail : Except Unit (Unit × Action OrdFrame) := .error ()

def test (b : Bool) : Except Unit (Unit × Action OrdFrame) := if b then done else fail

section
variable (h : Heap) (partialEq : Bool) (keyEq : Value → Value → Bool)

/-- `OrderedMapObject::lookup`, and the entry that it finds. -/
def lookup (seed : UInt64) (m : OrderedMap Value Value) (key : Value) :
    Option (Entry Value Value) :=
  (@OrderedMap.lookup Value Value ⟨keyEq⟩ (Value.hash h seed) m key).bind fun i =>
    i.bind m.entries.get

/-- The part for objects. -/
def stepObject (frame : OrdFrame) : Object → Object → Except Unit (Unit × Action OrdFrame)
  | .array xa, .array ya =>
    if xa.length ≠ ya.length then fail
    else
      match xa[frame.xi]?, ya[frame.yi]? with
      | some x, some y =>
        .ok ((), .push { frame with xi := frame.xi + 1, yi := frame.yi + 1 } { x := x, y := y })
      | _, _ => done
  | .orderedMap _ xo, .orderedMap seed yo =>
    -- order-independent
    if xo.size ≠ yo.size then fail
    else
      let xi := skipEmptyEntries xo.entries frame.xi
      match xo.entries.get xi with
      | some xe =>
        match lookup h keyEq seed yo xe.key with
        | some ye => .ok ((), .push { frame with xi := xi + 1 } { x := xe.value, y := ye.value })
        | none => fail
      | none => done
  | .base _ _ xo, .base _ _ yo =>
    if xo.length ≠ yo.length then fail
    else
      match xo[frame.xi]?, yo[frame.yi]? with
      | some x, some y =>
        .ok ((), .push { frame with xi := frame.xi + 1, yi := frame.yi + 1 } { x := x, y := y })
      | _, _ => done
  | _, _ => fail

/-- The part for values of one kind. -/
def stepKind (frame : OrdFrame) : Value → Value → Except Unit (Unit × Action OrdFrame)
  | .empty, _ | .invalid, _ => done
  | .bool a, .bool b => test (a = b)
  | .sig m, .sig n => test (m = n)
  | .object a, .object b =>
    if (h.get a).kind ≠ (h.get b).kind then fail
    else if a = b then done -- fast path
    else stepObject h keyEq frame (h.get a) (h.get b)
  | _, _ => fail

/-- The body of the loop. -/
def step : StepFun OrdFrame Unit Unit := fun _ frame =>
  match frame.x.asStrRef h, frame.y.asStrRef h with
  | some s, some t => test (s = t)
  | _, _ =>
    match frame.x.asInt h, frame.y.asInt h with
    | some m, some n => test (m = n)
    | _, _ =>
      match frame.x.asFloat h, frame.y.asFloat h with
      | some d, some e =>
        test (if partialEq then d.eq e else Double.compareByTotalOrder d e = 0)
      | _, _ =>
        if frame.x.kind ≠ frame.y.kind then fail
        else stepKind h keyEq frame frame.x frame.y

end

end Equality

/-- `Equality::operator()`: an error is `false`, with or without an overflow. Keys are compared in the same
way. `fuel` bounds the steps of the loop. -/
def equality (h : Heap) (partialEq : Bool) : Nat → Value → Value → Option (Except (Stop Unit) Unit)
  | 0, _, _ => none
  | fuel + 1, x, y =>
    run (Equality.step h partialEq fun a b => decide (equality h false fuel a b = some (.ok ())))
      stackDepthLimit (fuel + 1) () [{ x := x, y := y }]

/-! ## Steps -/

section
variable {h : Heap} {keyEq : Value → Value → Bool} {frame : OrdFrame} {u w : View}

/-- What has no parts. -/
def View.isLeaf : View → Bool
  | .array _ | .map .. | .base .. | .other _ | .internal .. => false
  | _ => true

/-- What a value of a type may be. -/
def View.isTyped : View → Bool
  | .internal .. | .other _ | .empty => false
  | _ => true

theorem asStrRef_eq (x : Value) : x.asStrRef h =
    match view h x with
    | .str s => some s
    | _ => none := by
  cases x with
  | object a =>
    unfold Value.asStrRef view
    dsimp only
    cases h.get a <;> rfl
  | _ => rfl

theorem asInt_eq (x : Value) : x.asInt h =
    match view h x with
    | .int n => some n
    | _ => none := by
  cases x with
  | object a =>
    unfold Value.asInt view
    dsimp only
    cases h.get a <;> rfl
  | _ => rfl

theorem asFloat_eq (x : Value) : x.asFloat h =
    match view h x with
    | .float d => some d
    | _ => none := by
  cases x with
  | object a =>
    unfold Value.asFloat view
    dsimp only
    cases h.get a <;> rfl
  | _ => rfl

/-- Parts are compared when both values have them; the representation has no part in it. -/
theorem step_leaf {E : Value → Value → Bool} (hleaf : (view h frame.x).isLeaf = true ∨
    (view h frame.y).isLeaf = true) (hx : (view h frame.x).isTyped = true)
    (hy : (view h frame.y).isTyped = true) :
    Equality.step h false keyEq () frame =
      Equality.test (eqvView E (view h frame.x) (view h frame.y)) := by
  unfold Equality.step
  rw [asStrRef_eq, asStrRef_eq, asInt_eq, asInt_eq, asFloat_eq, asFloat_eq]
  obtain ⟨x, y, xi, yi⟩ := frame
  dsimp only at hleaf hx hy ⊢
  unfold Equality.stepKind
  cases x <;> cases y <;> (try cases hx) <;> (try cases hy) <;> (try rfl)
  all_goals
    unfold view at *
    dsimp only at *
  case object.object a b =>
    by_cases hab : a = b
    · subst hab
      cases hobj : h.get a <;> rw [hobj] at hleaf hx <;> (try cases hx) <;> (try rfl)
      all_goals cases hleaf <;> contradiction
    · rw [if_neg hab]
      cases hobj : h.get a <;> rw [hobj] at hleaf hx <;> (try cases hx) <;>
        cases hobj' : h.get b <;> rw [hobj'] at hleaf hy <;> (try cases hy) <;> (try rfl)
      all_goals cases hleaf <;> contradiction
  all_goals
    generalize h.get _ = obj at *
    cases obj <;> (try contradiction) <;> rfl

/-- What has a view that no other value has. -/
theorem view_spec (h : Heap) (x : Value) :
    match view h x with
    | .invalid => x = .invalid
    | .bool b => x = .bool b
    | .sig n => x = .sig n
    | .array vs => ∃ a, x = .object a ∧ h.get a = .array vs
    | .map seed m => ∃ a, x = .object a ∧ h.get a = .orderedMap seed m
    | .base id k vs => ∃ a, x = .object a ∧ h.get a = .base id k vs
    | _ => True := by
  cases x with
  | object a =>
    unfold view
    dsimp only
    cases hobj : h.get a <;> first | exact ⟨a, rfl, hobj⟩ | trivial
  | _ => first | rfl | trivial

theorem view_array {x : Value} {vs : List Value} (hx : view h x = .array vs) :
    ∃ a, x = .object a ∧ h.get a = .array vs := by
  have hspec := view_spec h x
  rw [hx] at hspec
  exact hspec

theorem view_map {x : Value} {seed : UInt64} {m : OrderedMap Value Value}
    (hx : view h x = .map seed m) : ∃ a, x = .object a ∧ h.get a = .orderedMap seed m := by
  have hspec := view_spec h x
  rw [hx] at hspec
  exact hspec

theorem view_base {x : Value} {id : Nat} {k : UInt32} {vs : List Value}
    (hx : view h x = .base id k vs) : ∃ a, x = .object a ∧ h.get a = .base id k vs := by
  have hspec := view_spec h x
  rw [hx] at hspec
  exact hspec

/-- What has parts is no string or number. -/
theorem parts_eq_none {x : Value} (hleaf : (view h x).isLeaf = false) :
    x.asStrRef h = none ∧ x.asInt h = none ∧ x.asFloat h = none := by
  rw [asStrRef_eq, asInt_eq, asFloat_eq]
  cases hview : view h x <;> rw [hview] at hleaf <;> first | exact ⟨rfl, rfl, rfl⟩ | cases hleaf

theorem step_objects {a b : Addr} (hx : frame.x = .object a) (hy : frame.y = .object b)
    (hleaf : (view h frame.x).isLeaf = false) : Equality.step h false keyEq () frame =
      if (h.get a).kind ≠ (h.get b).kind then Equality.fail
      else if a = b then Equality.done
      else Equality.stepObject h keyEq frame (h.get a) (h.get b) := by
  obtain ⟨hs, hi, hf⟩ := parts_eq_none hleaf
  unfold Equality.step Equality.stepKind
  rw [hs, hi, hf, hx, hy]
  rfl

end

/-! ## Deleted entries -/

section
variable {α : Type} {l : List (Option α)}

theorem skip_list (l : List (Option α)) :
    l[(l.takeWhile Option.isNone).length]?.join = (l.filterMap id).head? ∧
      (l.drop ((l.takeWhile Option.isNone).length + 1)).filterMap id = (l.filterMap id).tail := by
  induction l with
  | nil => exact ⟨rfl, rfl⟩
  | cons e l ih =>
    cases e with
    | none => exact ih
    | some e => exact ⟨rfl, rfl⟩

end

/-- The next entry and those behind it. -/
theorem skipEmptyEntries_spec (es : OrderedMapEntries Value Value) (i : Nat) :
    es.get (skipEmptyEntries es i) = ((es.values.drop i).filterMap id).head? ∧
      (es.values.drop (skipEmptyEntries es i + 1)).filterMap id =
        ((es.values.drop i).filterMap id).tail := by
  obtain ⟨hhead, htail⟩ := skip_list (es.values.drop i)
  rw [List.getElem?_drop] at hhead
  rw [List.drop_drop, ← Nat.add_assoc] at htail
  exact ⟨hhead, htail⟩

/-! ## Entries of two maps -/

/-- Something is related to each of the first, and to no two of them: there are no more of them, and if
there are no fewer, each of the second has one. -/
theorem length_le_of_related {α β : Type} {R : α → β → Prop} {l : List α} {m : List β}
    (hex : ∀ a ∈ l, ∃ b ∈ m, R a b) (hne : l.Pairwise fun a a' => ∀ b ∈ m, R a b → ¬ R a' b) :
    l.length ≤ m.length ∧ (m.length ≤ l.length → ∀ b ∈ m, ∃ a ∈ l, R a b) := by
  induction l generalizing m with
  | nil =>
    refine ⟨Nat.zero_le _, fun hlen b hb => ?_⟩
    rw [List.length_eq_zero_iff.1 (Nat.le_zero.1 hlen)] at hb
    cases hb
  | cons a l ih =>
    obtain ⟨⟨b, hb, hab⟩, hex⟩ := List.forall_mem_cons.1 hex
    obtain ⟨hhead, hl⟩ := List.pairwise_cons.1 hne
    obtain ⟨pre, post, rfl⟩ := List.append_of_mem hb
    have hrest : ∀ c ∈ pre ++ post, c ∈ pre ++ b :: post := by
      intro c hc
      rw [List.mem_append, List.mem_cons]
      exact (List.mem_append.1 hc).imp_right .inr
    obtain ⟨hlen, hsurj⟩ := @ih (pre ++ post) (by
      intro a' ha'
      obtain ⟨c, hc, hac⟩ := hex a' ha'
      rw [List.mem_append, List.mem_cons] at hc
      rcases hc with hc | rfl | hc
      · exact ⟨c, List.mem_append_left _ hc, hac⟩
      · exact absurd hac (hhead a' ha' c hb hab)
      · exact ⟨c, List.mem_append_right _ hc, hac⟩)
      (hl.imp fun h c hc => h c (hrest c hc))
    simp only [List.length_append, List.length_cons] at hlen hsurj ⊢
    refine ⟨by omega, fun hle c hc => ?_⟩
    rw [List.mem_append, List.mem_cons] at hc
    rcases hc with hc | rfl | hc
    · obtain ⟨a', ha', h⟩ := hsurj (by omega) c (List.mem_append_left _ hc)
      exact ⟨a', List.mem_cons_of_mem _ ha', h⟩
    · exact ⟨a, List.mem_cons_self, hab⟩
    · obtain ⟨a', ha', h⟩ := hsurj (by omega) c (List.mem_append_right _ hc)
      exact ⟨a', List.mem_cons_of_mem _ ha', h⟩

/-- Keys are not equal to others of their map. -/
def KeysOk (K : Value → Value → Bool) (m : List (Entry Value Value)) : Prop :=
  m.Pairwise fun e f => K e.key f.key = false

/-- Equal keys are those of one entry. -/
theorem KeysOk.unique {K : Value → Value → Bool} (hK : IsEqv K) {m : List (Entry Value Value)}
    (hm : KeysOk K m) {e f : Entry Value Value} (he : e ∈ m) (hf : f ∈ m)
    (hkey : K e.key f.key = true) : e = f := by
  refine List.Pairwise.forall_of_forall_of_flip (R := fun e f : Entry Value Value =>
    K e.key f.key = true → e = f) (fun _ _ _ => rfl) (hm.imp fun hne h => ?_)
    (hm.imp fun hne h => ?_) he hf hkey
  · rw [hne] at h
    cases h
  · rw [hK.symm _ _ h] at hne
    cases hne

/-- Two keys are not both equal to a third one. -/
theorem KeysOk.related {K : Value → Value → Bool} (hK : IsEqv K) {m n : List (Entry Value Value)}
    (hm : KeysOk K m) : m.Pairwise fun e e' => ∀ f ∈ n, K e.key f.key = true →
      ¬ K e'.key f.key = true := by
  refine hm.imp fun hne f _ h h' => ?_
  rw [hK.trans _ _ _ h (hK.symm _ _ h')] at hne
  cases hne

/-- Maps with as many entries have the same ones, if those of the one are found in the other. -/
theorem sameEntries_iff_find {K E : Value → Value → Bool} (hK : IsEqv K)
    {m n : List (Entry Value Value)} (hm : KeysOk K m) (hn : KeysOk K n)
    (hKE : ∀ e ∈ m, ∀ f ∈ n, K e.key f.key = E e.key f.key) :
    sameEntries E m n = true ↔ m.length = n.length ∧
      ∀ e ∈ m, ∃ f, n.find? (fun f => K e.key f.key) = some f ∧ E e.value f.value = true := by
  rw [sameEntries_iff]
  constructor
  · rintro ⟨hmn, hnm⟩
    refine ⟨Nat.le_antisymm ?_ ?_, fun e he => ?_⟩
    · refine (length_le_of_related (R := fun e f : Entry Value Value => K e.key f.key = true)
        (fun e he => ?_) (hm.related hK)).1
      obtain ⟨f, hf, hk, -⟩ := hmn e he
      exact ⟨f, hf, (hKE e he f hf).trans hk⟩
    · refine (length_le_of_related (R := fun f e : Entry Value Value => K f.key e.key = true)
        (fun f hf => ?_) (hn.related hK)).1
      obtain ⟨e, he, hk, -⟩ := hnm f hf
      exact ⟨e, he, hK.symm _ _ ((hKE e he f hf).trans hk)⟩
    · obtain ⟨f, hf, hk, hv⟩ := hmn e he
      rw [← hKE e he f hf] at hk
      obtain ⟨g, hg⟩ := Option.isSome_iff_exists.1
        (List.find?_isSome.2 ⟨f, hf, hk⟩ : (n.find? fun f => K e.key f.key).isSome)
      have hkg := List.find?_some hg
      cases hn.unique hK hf (List.mem_of_find?_eq_some hg) (hK.trans _ _ _ (hK.symm _ _ hk) hkg)
      exact ⟨f, hg, hv⟩
  · rintro ⟨hlen, hfind⟩
    have hmn : ∀ e ∈ m, ∃ f ∈ n, K e.key f.key = true ∧ E e.value f.value = true := by
      intro e he
      obtain ⟨f, hf, hv⟩ := hfind e he
      have hk := List.find?_some (p := fun f : Entry Value Value => K e.key f.key) hf
      exact ⟨f, List.mem_of_find?_eq_some hf, hk, hv⟩
    refine ⟨fun e he => ?_, fun f hf => ?_⟩
    · obtain ⟨f, hf, hk, hv⟩ := hmn e he
      exact ⟨f, hf, (hKE e he f hf).symm.trans hk, hv⟩
    · obtain ⟨e, he, hk, hv⟩ := (length_le_of_related hmn
        ((hm.related hK).imp fun h f hf hkv hkv' => h f hf hkv.1 hkv'.1)).2 hlen.ge f hf
      exact ⟨e, he, (hKE e he f hf).symm.trans hk, hv⟩

end Arsh.Obj
