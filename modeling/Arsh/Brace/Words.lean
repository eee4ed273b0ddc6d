import Arsh.Brace.Expansion
import Arsh.Brace.Values

/-!
# Words with braces

The syntax behind the values of an argument, and what it stands for: the words of a group are
those of its alternatives, one alternative after the other, each of them before what follows the
group. `flatten` gives the values as the compiler pushes them, with the groups numbered in the
order in which they open.
-/

namespace Arsh.Brace

/-- Neither a brace nor a range. -/
def Value.plain : Value → Bool
  | .expandMeta .braceOpen _ => false
  | .expandMeta .braceClose _ => false
  | .expandMeta .braceSep _ => false
  | .expandMeta .braceSeqOpen _ => false
  | .expandMeta .braceSeqClose _ => false
  | .range _ => false
  | _ => true

/-- A range whose values are `int64_t` and fit their width. -/
structure SeqRange where
  range : BraceRange
  step_pos : 0 < range.step
  first : InInt64 range.first
  last : InInt64 range.last
  fits : ∀ v ∈ progression range.first range.last range.step.natAbs,
    (formatSeqValue v range.digits (range.kind == .char)).isSome

namespace SeqRange

def values (r : SeqRange) : List Int :=
  progression r.range.first r.range.last r.range.step.natAbs

/-- The text of a value. -/
def format (r : SeqRange) (v : Int) : Text :=
  (formatSeqValue v r.range.digits (r.range.kind == .char)).getD []

theorem enumerates (r : SeqRange) : Enumerates r.range r.range.first r.values := by
  have hpos := r.step_pos
  obtain ⟨l₁, u₁⟩ := r.first
  obtain ⟨l₂, u₂⟩ := r.last
  exact enumerates_progression (by omega) (by omega) (by omega) (by omega)

theorem format_eq (r : SeqRange) {v : Int} (hv : v ∈ r.values) :
    formatSeqValue v r.range.digits (r.range.kind == .char) = some (r.format v) := by
  have := r.fits v hv
  rw [Option.isSome_iff_exists] at this
  obtain ⟨text, he⟩ := this
  rw [format, he, Option.getD_some]

end SeqRange

mutual

/-- The values of an argument. -/
inductive Word where
  | nil
  | value (v : { v : Value // v.plain }) (rest : Word)
  | group (alts : Alts) (rest : Word)
  | seq (r : SeqRange) (rest : Word)

/-- The alternatives of a group. -/
inductive Alts where
  | last (w : Word)
  | more (w : Word) (rest : Alts)

end

mutual

/-- The number of groups and sequences. -/
def Word.groups : Word → Nat
  | .nil => 0
  | .value _ rest => rest.groups
  | .group alts rest => 1 + alts.groups + rest.groups
  | .seq _ rest => 1 + rest.groups

def Alts.groups : Alts → Nat
  | .last w => w.groups
  | .more w rest => w.groups + rest.groups

end

mutual

/-- The values pushed for an argument; `id` is the next number of a group. -/
def Word.flatten (id : Nat) : Word → List Value
  | .nil => []
  | .value v rest => v.1 :: rest.flatten id
  | .group alts rest =>
    .expandMeta .braceOpen id :: (alts.flatten id (id + 1) ++ rest.flatten (id + 1 + alts.groups))
  | .seq r rest =>
    .expandMeta .braceSeqOpen id :: .range r.range :: .expandMeta .braceSeqClose id ::
      rest.flatten (id + 1)

/-- The values behind the open of the group `group`. -/
def Alts.flatten (group id : Nat) : Alts → List Value
  | .last w => w.flatten id ++ [.expandMeta .braceClose group]
  | .more w rest =>
    w.flatten id ++ .expandMeta .braceSep group :: rest.flatten group (id + w.groups)

end

/-- Every text of the one list before every text of the other. -/
def product (xs ys : List (List Value)) : List (List Value) := xs.flatMap fun x => ys.map (x ++ ·)

mutual

/-- The words an argument stands for. -/
def Word.expand : Word → List (List Value)
  | .nil => [[]]
  | .value v rest => product [[v.1]] rest.expand
  | .group alts rest => product alts.expand rest.expand
  | .seq r rest => product (r.values.map fun v => [.str (r.format v)]) rest.expand

/-- The words of the alternatives, in their order. -/
def Alts.expand : Alts → List (List Value)
  | .last w => w.expand
  | .more w rest => w.expand ++ rest.expand

end

section
variable {xs ys zs : List (List Value)}

theorem product_append : product (xs ++ ys) zs = product xs zs ++ product ys zs :=
  List.flatMap_append

theorem product_assoc : product (product xs ys) zs = product xs (product ys zs) := by
  simp only [product, List.flatMap_assoc, List.flatMap_map, List.map_flatMap, List.map_map]
  congr 1
  funext x
  congr 1
  funext y
  congr 1
  funext z
  exact List.append_assoc x y z

@[simp] theorem product_nil_left : product [] ys = [] := rfl

@[simp] theorem product_one_nil : product xs [[]] = xs := by
  simp [product]

@[simp] theorem product_nil_one : product [[]] ys = ys := by
  simp [product]

theorem product_cons {x : List Value} : product (x :: xs) ys = ys.map (x ++ ·) ++ product xs ys :=
  rfl

theorem product_singleton {x : List Value} : product [x] ys = ys.map (x ++ ·) := by
  simp [product]

end

/-- The range of an accepted text, with the values in the text. -/
theorem SeqText.exists_seqRange {isChar : Bool} {ref first last : Text} {step : Option Text}
    (h : SeqText isChar ref first last step) (hr : InRange isChar first last step) :
    ∃ r : SeqRange, toBraceRange ref isChar = some (r.range, none) ∧
      r.values = seqValues isChar first last step := by
  have hok := h.toBraceRange_ok hr
  obtain ⟨range, error, he, hacc, hvalues⟩ := toBraceRange_values h
  rw [hok] at he
  obtain ⟨rfl, rfl⟩ := Prod.mk.inj (Option.some.inj he)
  obtain ⟨hpos, hdigits, hkind, henum, hformat⟩ := hvalues (hacc.2 hr)
  generalize hrange : BraceRange.mk (endValue isChar first) (endValue isChar last) 1
    (commonWidth isChar first last) (if isChar then .char else .int) = r at *
  have hb₁ : InInt64 r.first := by rw [← hrange]; exact hr.1
  have hb₂ : InInt64 r.last := by rw [← hrange]; exact hr.2.1
  have hbetween := @valueAt_between r.first r.last _ _ (stepSize_pos (stepValue step)) (Nat.le_refl _)
  have hends : InInt64 (r.withStep (stepValue step)).first ∧
      InInt64 (r.withStep (stepValue step)).last := by
    unfold InInt64 at *
    unfold BraceRange.withStep
    split <;> simp only <;> omega
  have hprog := @enumerates_progression (r.withStep (stepValue step)).step.natAbs
    (r.withStep (stepValue step)) (by omega) (by omega)
    (by unfold InInt64 at hends; omega) (by unfold InInt64 at hends; omega)
  have hsame := hprog.unique henum
  refine ⟨⟨r.withStep (stepValue step), hpos, hends.1, hends.2, ?_⟩, hok, hsame⟩
  intro v hv
  rw [hsame] at hv
  obtain ⟨text, htext, -⟩ := hformat v hv
  have hchar : ((r.withStep (stepValue step)).kind == .char) = isChar := by
    cases isChar with
    | true => simpa using hkind.2 rfl
    | false => simpa using fun hc => Bool.false_ne_true (hkind.1 hc)
  rw [hchar, htext]
  rfl

end Arsh.Brace
