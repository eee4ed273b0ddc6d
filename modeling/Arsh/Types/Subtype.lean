import Arsh.Types.Pool
import Mathlib.Logic.Relation

/-!
# The subtype relation

`Type::isSameOrBaseTypeOf` of `type.cpp`. A type has at most one super type, `Nothing` is below
every type, an option type is above what its element is above, and a function type is above another
one if its parameters are below and its result is above the other's, or is `Void`.

`superOf` is the super type that the pool has stored for a type. Where super types are types with a
name of their own, and go up (`Supers`), the function decides a relation (`Rel`) that is reflexive
and transitive, and antisymmetric if `Nothing` is the super type of no type (`rel_antisymm`).
-/

namespace Arsh.Types

/-! ## Equality of types -/

mutual

def Ty.beq : Ty → Ty → Bool
  | .leaf a, .leaf b => a == b
  | .array e, .array e' => e.beq e'
  | .map k v, .map k' v' => k.beq k' && v.beq v'
  | .tuple es, .tuple es' => Ty.beqs es es'
  | .func r ps, .func r' ps' => r.beq r' && Ty.beqs ps ps'
  | .option e, .option e' => e.beq e'
  | _, _ => false

def Ty.beqs : List Ty → List Ty → Bool
  | [], [] => true
  | t :: ts, u :: us => t.beq u && Ty.beqs ts us
  | _, _ => false

end

mutual

theorem Ty.eq_of_beq {t u : Ty} (h : t.beq u = true) : t = u := by
  cases t with
  | leaf a =>
    cases u with
    | leaf b => rw [LawfulBEq.eq_of_beq (a := a) h]
    | _ => cases h
  | array e =>
    cases u with
    | array e' => rw [Ty.eq_of_beq (t := e) h]
    | _ => cases h
  | map k v =>
    cases u with
    | map k' v' =>
      obtain ⟨hk, hv⟩ := Bool.and_eq_true_iff.1 h
      rw [Ty.eq_of_beq hk, Ty.eq_of_beq hv]
    | _ => cases h
  | tuple es =>
    cases u with
    | tuple es' => rw [@Ty.eq_of_beqs es es' h]
    | _ => cases h
  | func r ps =>
    cases u with
    | func r' ps' =>
      obtain ⟨hr, hps⟩ := Bool.and_eq_true_iff.1 h
      rw [Ty.eq_of_beq hr, Ty.eq_of_beqs hps]
    | _ => cases h
  | option e =>
    cases u with
    | option e' => rw [Ty.eq_of_beq (t := e) h]
    | _ => cases h

theorem Ty.eq_of_beqs {ts us : List Ty} (h : Ty.beqs ts us = true) : ts = us := by
  cases ts with
  | nil =>
    cases us with
    | nil => rfl
    | cons u us => cases h
  | cons t ts =>
    cases us with
    | nil => cases h
    | cons u us =>
      obtain ⟨ht, hts⟩ := Bool.and_eq_true_iff.1 h
      rw [Ty.eq_of_beq ht, Ty.eq_of_beqs hts]

end

mutual

theorem Ty.beq_refl (t : Ty) : t.beq t = true := by
  cases t with
  | leaf a => exact BEq.refl a
  | array e => exact Ty.beq_refl e
  | map k v => exact Bool.and_eq_true_iff.2 ⟨Ty.beq_refl k, Ty.beq_refl v⟩
  | tuple es => exact Ty.beqs_refl es
  | func r ps => exact Bool.and_eq_true_iff.2 ⟨Ty.beq_refl r, Ty.beqs_refl ps⟩
  | option e => exact Ty.beq_refl e

theorem Ty.beqs_refl (ts : List Ty) : Ty.beqs ts ts = true := by
  cases ts with
  | nil => rfl
  | cons t ts => exact Bool.and_eq_true_iff.2 ⟨Ty.beq_refl t, Ty.beqs_refl ts⟩

end

instance : DecidableEq Ty := fun t u =>
  if h : t.beq u = true then .isTrue (Ty.eq_of_beq h)
  else .isFalse fun he => h (he ▸ Ty.beq_refl t)

mutual

/-- The number of nodes of a type. -/
def Ty.size : Ty → Nat
  | .leaf _ => 1
  | .array e => e.size + 1
  | .map k v => k.size + v.size + 1
  | .tuple es => Ty.sizes es + 1
  | .func r ps => r.size + Ty.sizes ps + 1
  | .option e => e.size + 1

def Ty.sizes : List Ty → Nat
  | [] => 0
  | t :: ts => t.size + Ty.sizes ts

end

theorem Ty.size_pos (t : Ty) : 0 < t.size := by
  cases t <;> unfold Ty.size <;> omega

theorem Ty.size_le_sizes {t : Ty} {ts : List Ty} (h : t ∈ ts) : t.size ≤ Ty.sizes ts := by
  induction ts with
  | nil => cases h
  | cons u ts ih =>
    rw [Ty.sizes]
    rcases List.mem_cons.1 h with rfl | h
    · exact Nat.le_add_right _ _
    · exact (ih h).trans (Nat.le_add_left _ _)

/-! ## The function -/

namespace Ty

def builtin (name : String) : Ty := .leaf (.builtin name.toList)

/-- The type without the question mark of an option type. -/
def strip : Ty → Ty
  | .option e => e
  | t => t

end Ty

/-- `isSameOrBaseTypeOf`, with the super types of the pool. `fuel` bounds the recursion. -/
def isSameOrBaseTypeOf (superOf : Ty → Option Ty) : Nat → Ty → Ty → Bool
  | 0, _, _ => false
  | fuel + 1, type, targetType =>
    if type = targetType then true
    else if targetType.isNothingType then true
    else
      match type, targetType with
      | .option elementType, targetType =>
        isSameOrBaseTypeOf superOf fuel elementType targetType.strip
      | .func returnType1 paramTypes1, .func returnType2 paramTypes2 =>
        -- `isBaseTypeOf` of two function types
        paramTypes1.length == paramTypes2.length &&
          ((paramTypes1.zip paramTypes2).all fun p =>
            isSameOrBaseTypeOf superOf fuel p.2 p.1) &&
          (isSameOrBaseTypeOf superOf fuel returnType1 returnType2 || returnType1.isVoidType)
      | type, targetType =>
        match superOf targetType with
        | none => false
        | some superType => isSameOrBaseTypeOf superOf fuel type superType

/-! ## The relation -/

section
variable {superOf : Ty → Option Ty} {height : Ty → Nat} {t u v : Ty}

/-- What a pool stores as super types: types with a name of their own, which go up. `Eq_`, the super
type of the function types, is below `Any` only. -/
structure Supers (superOf : Ty → Option Ty) (height : Ty → Nat) : Prop where
  leaf : ∀ {u v}, superOf u = some v → ∃ a, v = .leaf a
  lt : ∀ {u v}, superOf u = some v → height v < height u
  option : ∀ e, superOf (.option e) = none
  func : ∀ r ps, superOf (.func r ps) = some (.builtin "%Eq_")
  nothing : superOf (.builtin "Nothing") = none
  void : superOf (.builtin "Void") = none
  eq : superOf (.builtin "%Eq_") = some (.builtin "Any")
  any : superOf (.builtin "Any") = some (.builtin "process guard%%")
  guard : superOf (.builtin "process guard%%") = none

/-- `t` is `u` or one of the types above it. -/
def Anc (superOf : Ty → Option Ty) (t u : Ty) : Prop :=
  Relation.ReflTransGen (fun u v => superOf u = some v) u t

theorem anc_refl (t : Ty) : Anc superOf t t := .refl

theorem anc_trans (h : Anc superOf t u) (h' : Anc superOf u v) : Anc superOf t v := h'.trans h

theorem anc_super (h : superOf u = some v) (h' : Anc superOf t v) : Anc superOf t u := .head h h'

/-- A type that is above another one is above its super type. -/
theorem anc_cases (h : Anc superOf t u) : t = u ∨ ∃ v, superOf u = some v ∧ Anc superOf t v := by
  rcases Relation.ReflTransGen.cases_head h with rfl | ⟨v, hv, h⟩
  · exact .inl rfl
  · exact .inr ⟨v, hv, h⟩

theorem anc_of_none (hu : superOf u = none) (h : Anc superOf t u) : t = u := by
  rcases anc_cases h with h | ⟨v, hv, -⟩
  · exact h
  · rw [hu] at hv
    cases hv

theorem Supers.anc_le (hs : Supers superOf height) (h : Anc superOf t u) :
    t = u ∨ height t < height u := by
  induction h with
  | refl => exact .inl rfl
  | tail _ hv ih =>
    right
    rcases ih with rfl | ih
    · exact hs.lt hv
    · exact (hs.lt hv).trans ih

theorem Supers.anc_antisymm (hs : Supers superOf height) (h : Anc superOf t u)
    (h' : Anc superOf u t) : t = u := by
  rcases hs.anc_le h with h | h
  · exact h
  · rcases hs.anc_le h' with h' | h'
    · exact h'.symm
    · omega

/-- The types above a type are in one line. -/
theorem anc_line (h : Anc superOf t u) (h' : Anc superOf v u) :
    Anc superOf t v ∨ Anc superOf v t := by
  refine (Relation.ReflTransGen.total_of_right_unique ?_ h h').symm
  intro a b c hb hc
  exact Option.some.inj (hb.symm.trans hc)

/-- Above another type there are only types with a name of their own. -/
theorem Supers.anc_leaf (hs : Supers superOf height) (h : Anc superOf t u) :
    t = u ∨ ∃ a, t = .leaf a := by
  cases h with
  | refl => exact .inl rfl
  | tail _ hv => exact .inr (hs.leaf hv)

theorem Supers.anc_func (hs : Supers superOf height) {r : Ty} {ps : List Ty}
    (h : Anc superOf (.func r ps) u) : u = .func r ps := by
  rcases hs.anc_leaf h with h | ⟨a, h⟩
  · exact h.symm
  · cases h

theorem Supers.anc_option (hs : Supers superOf height) {e : Ty} (h : Anc superOf t (.option e)) :
    t = .option e := anc_of_none (hs.option e) h

/-- What is above a function type. -/
theorem Supers.above_func (hs : Supers superOf height) {r : Ty} {ps : List Ty}
    (h : Anc superOf t (.func r ps)) : t = .func r ps ∨ Anc superOf t (.builtin "%Eq_") := by
  rcases anc_cases h with h | ⟨v, hv, h⟩
  · exact .inl h
  · rw [hs.func] at hv
    cases hv
    exact .inr h

theorem Supers.not_nothing_func (hs : Supers superOf height) (r : Ty) (ps : List Ty) :
    ¬Anc superOf (.builtin "Nothing") (.func r ps) := by
  intro h
  rcases hs.above_func h with h | h
  · cases h
  rcases anc_cases h with h | ⟨v, hv, h⟩
  · revert h
    decide
  rw [hs.eq] at hv
  cases hv
  rcases anc_cases h with h | ⟨v, hv, h⟩
  · revert h
    decide
  rw [hs.any] at hv
  cases hv
  exact absurd (anc_of_none hs.guard h) (by decide)

/-- `t` is the same as `u` or a base of it. -/
inductive Rel (superOf : Ty → Option Ty) : Ty → Ty → Prop
  | up {t u : Ty} (ht : t.isOptionType = false) (hf : ¬(t.isFuncType ∧ u.isFuncType))
      (h : Anc superOf t u ∨ Anc superOf (.builtin "Nothing") u) : Rel superOf t u
  | option {e u : Ty} (h : Rel superOf e u.strip) : Rel superOf (.option e) u
  | func {r r' : Ty} {ps ps' : List Ty} (hlen : ps.length = ps'.length)
      (hps : ∀ (i : Nat) (p p' : Ty), ps[i]? = some p → ps'[i]? = some p' → Rel superOf p' p)
      (hr : r ≠ .builtin "Void" → Rel superOf r r') : Rel superOf (.func r ps) (.func r' ps')

theorem rel_option_iff {e : Ty} : Rel superOf (.option e) u ↔ Rel superOf e u.strip := by
  constructor
  · intro h
    cases h with
    | up ht => cases ht
    | option h => exact h
  · exact .option

theorem rel_func_iff {r r' : Ty} {ps ps' : List Ty} :
    Rel superOf (.func r ps) (.func r' ps') ↔ ps.length = ps'.length ∧
      (∀ (i : Nat) (p p' : Ty), ps[i]? = some p → ps'[i]? = some p' → Rel superOf p' p) ∧
      (r ≠ .builtin "Void" → Rel superOf r r') := by
  constructor
  · intro h
    cases h with
    | up _ hf => exact absurd ⟨rfl, rfl⟩ hf
    | func hlen hps hr => exact ⟨hlen, hps, hr⟩
  · rintro ⟨hlen, hps, hr⟩
    exact .func hlen hps hr

theorem rel_up_iff (ht : t.isOptionType = false) (hf : ¬(t.isFuncType ∧ u.isFuncType)) :
    Rel superOf t u ↔ Anc superOf t u ∨ Anc superOf (.builtin "Nothing") u := by
  constructor
  · intro h
    cases h with
    | up _ _ h => exact h
    | option => cases ht
    | func => exact absurd ⟨rfl, rfl⟩ hf
  · exact .up ht hf

theorem size_lt_func {r p : Ty} {ps : List Ty} {i : Nat} (h : ps[i]? = some p) :
    p.size + r.size < (Ty.func r ps).size := by
  have := Ty.size_le_sizes (List.mem_of_getElem? h)
  rw [Ty.size]
  omega

theorem size_strip_le (t : Ty) : t.strip.size ≤ t.size := by
  cases t with
  | option e => exact Nat.le_succ e.size
  | _ => exact Nat.le_refl _

theorem rel_refl (t : Ty) : Rel superOf t t := by
  induction hn : t.size using Nat.strong_induction_on generalizing t with
  | _ n ih =>
    subst hn
    cases t with
    | option e => exact .option (ih e.size (Nat.lt_succ_self _) e rfl)
    | func r ps =>
      refine .func rfl (fun i p p' hp hp' => ?_) fun _ => ih r.size ?_ r rfl
      · rw [hp] at hp'
        cases hp'
        have := size_lt_func (r := r) hp
        exact ih p.size (by omega) p rfl
      · rw [Ty.size]
        omega
    | leaf | array | map | tuple => exact .up rfl (fun h => by cases h.1) (.inl (anc_refl _))

/-- A type that is below `Nothing` is below every type. -/
theorem rel_of_nothing (hu : u.isOptionType = false) (hf : u.isFuncType = false)
    (h : Anc superOf (.builtin "Nothing") u) (t : Ty) : Rel superOf t u := by
  have hstrip : u.strip = u := by
    cases u with
    | option => cases hu
    | _ => rfl
  have hup : ∀ {t : Ty}, t.isOptionType = false → Rel superOf t u := fun ht =>
    .up ht (fun hc => by rw [hf] at hc; cases hc.2) (.inr h)
  induction hn : t.size using Nat.strong_induction_on generalizing t with
  | _ n ih =>
    subst hn
    cases t with
    | option e =>
      refine .option ?_
      rw [hstrip]
      exact ih e.size (Nat.lt_succ_self _) e rfl
    | leaf | array | map | tuple | func => exact hup rfl

/-- Only an option type is above an option type. -/
theorem Supers.rel_option (hs : Supers superOf height) {e : Ty} (h : Rel superOf t (.option e)) :
    ∃ e', t = .option e' ∧ Rel superOf e' e := by
  cases h with
  | up ht _ h =>
    rcases h with h | h
    · rw [hs.anc_option h] at ht
      cases ht
    · cases hs.anc_option h
  | option h => exact ⟨_, rfl, h⟩

/-- A type that is not a function type is above a function type if it is above `Eq_`. -/
theorem Supers.rel_func (hs : Supers superOf height) {r : Ty} {ps : List Ty}
    (h : Rel superOf t (.func r ps)) (ht : t.isOptionType = false) (hf : t.isFuncType = false) :
    Anc superOf t (.builtin "%Eq_") := by
  rw [rel_up_iff ht (fun hc => by rw [hf] at hc; cases hc.1)] at h
  rcases h with h | h
  · rcases hs.above_func h with rfl | h
    · cases hf
    · exact h
  · exact absurd h (hs.not_nothing_func r ps)

/-- A type that is above one that is neither an option type nor a function type is above its
super types, or is above all. -/
theorem rel_trans_plain (hs : Supers superOf height) (hu : u.isOptionType = false)
    (hfu : u.isFuncType = false) (htu : Rel superOf t u) (huv : Rel superOf u v)
    (hsmall : ∀ e, t = .option e → Rel superOf e u → Rel superOf e v) : Rel superOf t v := by
  have hstrip : ∀ {w : Ty}, w.isOptionType = false → w.strip = w := by
    intro w hw
    cases w with
    | option => cases hw
    | _ => rfl
  rw [rel_up_iff hu (fun hc => by rw [hfu] at hc; cases hc.1)] at huv
  have hv : v.isOptionType = false := by
    cases v with
    | option e =>
      rcases huv with h | h
      · rw [hs.anc_option h] at hu
        cases hu
      · cases hs.anc_option h
    | _ => rfl
  have hnothing (h : Anc superOf (.builtin "Nothing") v) : Rel superOf t v := by
    refine rel_of_nothing hv ?_ h t
    cases v with
    | func r ps => exact absurd h (hs.not_nothing_func r ps)
    | _ => rfl
  rcases huv with huv | huv
  · cases hopt : t.isOptionType with
    | true =>
      cases t with
      | option e =>
        rw [rel_option_iff, hstrip hu] at htu
        rw [rel_option_iff, hstrip hv]
        exact hsmall e rfl htu
      | _ => cases hopt
    | false =>
      rw [rel_up_iff hopt (fun hc => by rw [hfu] at hc; cases hc.2)] at htu
      rcases htu with htu | htu
      · refine .up hopt ?_ (.inl (anc_trans htu huv))
        rintro ⟨hf, -⟩
        cases t with
        | func r ps =>
          rw [hs.anc_func htu] at hfu
          cases hfu
        | _ => cases hf
      · exact hnothing (anc_trans htu huv)
  · exact hnothing huv

/-- What is below a function type and is not one is below all types. -/
theorem Supers.rel_of_func (hs : Supers superOf height) {r : Ty} {ps : List Ty}
    (h : Rel superOf (.func r ps) u) (hu : u.isFuncType = false) (t : Ty) : Rel superOf t u := by
  rw [rel_up_iff rfl (fun hc => by rw [hu] at hc; cases hc.2)] at h
  rcases h with h | h
  · rw [hs.anc_func h] at hu
    cases hu
  · refine rel_of_nothing ?_ hu h t
    cases u with
    | option e => cases hs.anc_option h
    | _ => rfl

/-- Types that can be made: there is no option type of `Void`. -/
inductive Ty.Proper : Ty → Prop
  | leaf (a : Leaf) : Proper (.leaf a)
  | array {e : Ty} (he : Proper e) : Proper (.array e)
  | map {k v : Ty} (hk : Proper k) (hv : Proper v) : Proper (.map k v)
  | tuple {es : List Ty} (h : ∀ e ∈ es, Proper e) : Proper (.tuple es)
  | func {r : Ty} {ps : List Ty} (hr : Proper r) (h : ∀ p ∈ ps, Proper p) : Proper (.func r ps)
  | option {e : Ty} (hv : e ≠ .builtin "Void") (he : Proper e) : Proper (.option e)

theorem Ty.Proper.option_inv {e : Ty} (h : (Ty.option e).Proper) :
    e ≠ .builtin "Void" ∧ e.Proper := by
  cases h with
  | option hv he => exact ⟨hv, he⟩

theorem Ty.Proper.func_inv {r : Ty} {ps : List Ty} (h : (Ty.func r ps).Proper) :
    r.Proper ∧ ∀ {i : Nat} {p : Ty}, ps[i]? = some p → p.Proper := by
  cases h with
  | func hr hp => exact ⟨hr, fun h => hp _ (List.mem_of_getElem? h)⟩

theorem Ty.Proper.strip (h : t.Proper) : t.strip.Proper := by
  cases h with
  | option _ he => exact he
  | leaf a => exact .leaf a
  | array he => exact .array he
  | map hk hv => exact .map hk hv
  | tuple h => exact .tuple h
  | func hr h => exact .func hr h

/-- Only `Void` is above `Void`. -/
theorem Supers.rel_void (hs : Supers superOf height) (ht : t.Proper)
    (h : Rel superOf t (.builtin "Void")) : t = .builtin "Void" := by
  induction ht with
  | option hv _ ih => exact absurd (ih (rel_option_iff.1 h)) hv
  | leaf | array | map | tuple | func =>
    rw [rel_up_iff rfl (fun hc => by cases hc.2)] at h
    rcases h with h | h
    · exact anc_of_none hs.void h
    · exact absurd (anc_of_none hs.void h) (by decide)

theorem rel_trans (hs : Supers superOf height) (ht : t.Proper) (hu : u.Proper) (hv : v.Proper)
    (htu : Rel superOf t u) (huv : Rel superOf u v) : Rel superOf t v := by
  induction hn : t.size + u.size + v.size using Nat.strong_induction_on
    generalizing t u v with
  | _ n ih =>
    subst hn
    have hsmall : ∀ e, t = .option e → Rel superOf e u → Rel superOf e v := by
      rintro e rfl he
      have : e.size < (Ty.option e).size := Nat.lt_succ_self _
      exact ih _ (by omega) ht.option_inv.2 hu hv he huv rfl
    cases u with
    | option e =>
      obtain ⟨e', rfl, he⟩ := hs.rel_option htu
      rw [rel_option_iff] at huv ⊢
      have := size_strip_le v
      have h₁ : e.size < (Ty.option e).size := Nat.lt_succ_self _
      have h₂ : e'.size < (Ty.option e').size := Nat.lt_succ_self _
      exact ih _ (by omega) ht.option_inv.2 hu.option_inv.2 hv.strip he huv rfl
    | func r ps =>
      cases hf : v.isFuncType with
      | false => exact hs.rel_of_func huv hf t
      | true =>
        cases v with
        | func r' ps' =>
          cases t with
          | option e => exact .option (hsmall e rfl (rel_option_iff.1 htu))
          | func r₀ ps₀ =>
            rw [rel_func_iff] at htu huv ⊢
            obtain ⟨hlen, hps, hr⟩ := htu
            obtain ⟨hlen', hps', hr'⟩ := huv
            obtain ⟨ht₁, ht₂⟩ := ht.func_inv
            obtain ⟨hu₁, hu₂⟩ := hu.func_inv
            obtain ⟨hv₁, hv₂⟩ := hv.func_inv
            refine ⟨hlen.trans hlen', ?_, ?_⟩
            · intro i p₀ p' hp₀ hp'
              have hi : i < ps.length := by
                rw [← hlen]
                exact (List.getElem?_eq_some_iff.1 hp₀).1
              have hp := List.getElem?_eq_getElem hi
              have h₀ := size_lt_func (r := r₀) hp₀
              have h₁ := size_lt_func (r := r) hp
              have h₂ := size_lt_func (r := r') hp'
              exact ih _ (by omega) (hv₂ hp') (hu₂ hp) (ht₂ hp₀) (hps' i _ p' hp hp')
                (hps i p₀ _ hp₀ hp) rfl
            · intro hne
              have hvoid : r ≠ .builtin "Void" := by
                rintro rfl
                exact hne (hs.rel_void ht₁ (hr hne))
              have h₀ : r₀.size < (Ty.func r₀ ps₀).size := by rw [Ty.size]; omega
              have h₁ : r.size < (Ty.func r ps).size := by rw [Ty.size]; omega
              have h₂ : r'.size < (Ty.func r' ps').size := by rw [Ty.size]; omega
              exact ih _ (by omega) ht₁ hu₁ hv₁ (hr hne) (hr' hvoid) rfl
          | leaf | array | map | tuple =>
            have h := hs.rel_func htu rfl rfl
            exact .up rfl (fun hc => by cases hc.1) (.inl (anc_super (hs.func r' ps') h))
        | _ => cases hf
    | leaf | array | map | tuple => exact rel_trans_plain hs rfl rfl htu huv hsmall

/-! ## Types that are bases of each other -/

/-- The types differ only in types that are `Nothing` or below it. -/
inductive Twins (superOf : Ty → Option Ty) : Ty → Ty → Prop
  | refl (t : Ty) : Twins superOf t t
  | nothing {t u : Ty} (ht : Anc superOf (.builtin "Nothing") t)
      (hu : Anc superOf (.builtin "Nothing") u) : Twins superOf t u
  | option {e e' : Ty} (h : Twins superOf e e') : Twins superOf (.option e) (.option e')
  | func {r r' : Ty} {ps ps' : List Ty} (hlen : ps.length = ps'.length)
      (hps : ∀ (i : Nat) (p p' : Ty), ps[i]? = some p → ps'[i]? = some p' → Twins superOf p p')
      (hr : Twins superOf r r') : Twins superOf (.func r ps) (.func r' ps')

theorem Supers.plain_of_nothing (hs : Supers superOf height)
    (h : Anc superOf (.builtin "Nothing") u) : u.isOptionType = false ∧ u.isFuncType = false := by
  cases u with
  | option e => cases hs.anc_option h
  | func r ps => exact absurd h (hs.not_nothing_func r ps)
  | _ => exact ⟨rfl, rfl⟩

theorem Twins.rel (hs : Supers superOf height) (h : Twins superOf t u) :
    Rel superOf t u ∧ Rel superOf u t := by
  induction h with
  | refl t => exact ⟨rel_refl t, rel_refl t⟩
  | nothing ht hu =>
    obtain ⟨hto, htf⟩ := hs.plain_of_nothing ht
    obtain ⟨huo, huf⟩ := hs.plain_of_nothing hu
    exact ⟨rel_of_nothing huo huf hu _, rel_of_nothing hto htf ht _⟩
  | option _ ih => exact ⟨.option ih.1, .option ih.2⟩
  | func hlen _ _ ihps ihr =>
    exact ⟨.func hlen (fun i p p' hp hp' => (ihps i p p' hp hp').2) fun _ => ihr.1,
      .func hlen.symm (fun i p p' hp hp' => (ihps i p' p hp' hp).1) fun _ => ihr.2⟩

/-- A function type and another type are not bases of each other. -/
theorem not_rel_func (hs : Supers superOf height) {r : Ty} {ps : List Ty}
    (hf : u.isFuncType = false) (htu : Rel superOf (.func r ps) u) :
    ¬Rel superOf u (.func r ps) := by
  intro hut
  rw [rel_up_iff rfl (fun hc => by rw [hf] at hc; cases hc.2)] at htu
  rcases htu with h | h
  · rw [hs.anc_func h] at hf
    cases hf
  · rw [rel_up_iff (hs.plain_of_nothing h).1 (fun hc => by rw [hf] at hc; cases hc.1)] at hut
    rcases hut with hut | hut
    · exact hs.not_nothing_func r ps (anc_trans h hut)
    · exact hs.not_nothing_func r ps hut

/-- Types that are bases of each other are twins. -/
theorem twins_of_rel (hs : Supers superOf height) (ht : t.Proper) (hu : u.Proper)
    (htu : Rel superOf t u) (hut : Rel superOf u t) : Twins superOf t u := by
  induction hn : t.size + u.size using Nat.strong_induction_on generalizing t u with
  | _ n ih =>
    subst hn
    -- an option type and a function type are bases of their kind only
    have hplain (ht : t.isOptionType = false) (hft : t.isFuncType = false)
        (hu : u.isOptionType = false) (hfu : u.isFuncType = false) : Twins superOf t u := by
      rw [rel_up_iff ht (fun hc => by rw [hft] at hc; cases hc.1)] at htu
      rw [rel_up_iff hu (fun hc => by rw [hfu] at hc; cases hc.1)] at hut
      rcases htu with h | h <;> rcases hut with h' | h'
      · rw [hs.anc_antisymm h h']
        exact .refl u
      · exact .nothing h' (anc_trans h' h)
      · exact .nothing (anc_trans h h') h
      · exact .nothing h' h
    cases t with
    | option e =>
      obtain ⟨e', rfl, he'⟩ := hs.rel_option hut
      rw [rel_option_iff] at htu
      have h₁ : e.size < (Ty.option e).size := Nat.lt_succ_self _
      have h₂ : e'.size < (Ty.option e').size := Nat.lt_succ_self _
      exact .option (ih _ (by omega) ht.option_inv.2 hu.option_inv.2 htu he' rfl)
    | func r ps =>
      cases u with
      | option e =>
        obtain ⟨e', heq, -⟩ := hs.rel_option htu
        cases heq
      | func r' ps' =>
        obtain ⟨ht₁, ht₂⟩ := ht.func_inv
        obtain ⟨hu₁, hu₂⟩ := hu.func_inv
        obtain ⟨hlen, hps, hr⟩ := rel_func_iff.1 htu
        obtain ⟨-, hps', hr'⟩ := rel_func_iff.1 hut
        have h₁ : r.size < (Ty.func r ps).size := by rw [Ty.size]; omega
        have h₂ : r'.size < (Ty.func r' ps').size := by rw [Ty.size]; omega
        refine .func hlen (fun i p p' hp hp' => ?_) ?_
        · have h₃ := size_lt_func (r := r) hp
          have h₄ := size_lt_func (r := r') hp'
          exact ih _ (by omega) (ht₂ hp) (hu₂ hp') (hps' i _ _ hp' hp) (hps i _ _ hp hp') rfl
        · by_cases hv : r = .builtin "Void"
          · by_cases hv' : r' = .builtin "Void"
            · rw [hv, hv']
              exact .refl _
            · rw [hv] at hr'
              exact absurd (hs.rel_void hu₁ (hr' hv')) hv'
          · by_cases hv' : r' = .builtin "Void"
            · rw [hv'] at hr
              exact absurd (hs.rel_void ht₁ (hr hv)) hv
            · exact ih _ (by omega) ht₁ hu₁ (hr hv) (hr' hv') rfl
      | leaf | array | map | tuple => exact absurd hut (not_rel_func hs rfl htu)
    | leaf | array | map | tuple =>
      cases u with
      | option e =>
        obtain ⟨e', heq, -⟩ := hs.rel_option htu
        cases heq
      | func r ps => exact absurd htu (not_rel_func hs rfl hut)
      | leaf | array | map | tuple => exact hplain rfl rfl rfl rfl

theorem twins_iff (hs : Supers superOf height) (ht : t.Proper) (hu : u.Proper) :
    Twins superOf t u ↔ Rel superOf t u ∧ Rel superOf u t :=
  ⟨Twins.rel hs, fun h => twins_of_rel hs ht hu h.1 h.2⟩

/-- If `Nothing` is the super type of no type, only `Nothing` is below `Nothing`. -/
theorem anc_nothing (hno : ∀ u, superOf u ≠ some (.builtin "Nothing"))
    (h : Anc superOf (.builtin "Nothing") u) : u = .builtin "Nothing" := by
  cases h with
  | refl => rfl
  | tail _ hv => exact absurd hv (hno _)

theorem Twins.eq (hno : ∀ u, superOf u ≠ some (.builtin "Nothing")) (h : Twins superOf t u) :
    t = u := by
  induction h with
  | refl t => rfl
  | nothing ht hu => exact (anc_nothing hno ht).trans (anc_nothing hno hu).symm
  | option _ ih => rw [ih]
  | @func r r' ps ps' hlen _ _ ihps ihr =>
    have hps : ps = ps' := by
      apply List.ext_getElem hlen
      intro i hi hi'
      exact ihps i _ _ (List.getElem?_eq_getElem hi) (List.getElem?_eq_getElem hi')
    rw [ihr, hps]

/-- Types that are bases of each other are the same. -/
theorem rel_antisymm (hs : Supers superOf height)
    (hno : ∀ u, superOf u ≠ some (.builtin "Nothing")) (ht : t.Proper) (hu : u.Proper)
    (htu : Rel superOf t u) (hut : Rel superOf u t) : t = u :=
  (twins_of_rel hs ht hu htu hut).eq hno

/-! ## What the function decides -/

theorem Ty.isBuiltin_iff {name : String} : t.isBuiltin name = true ↔ t = .builtin name := by
  unfold Ty.isBuiltin Ty.builtin
  split
  · rw [beq_iff_eq, Ty.leaf.injEq, Leaf.builtin.injEq]
  · next hne => exact iff_of_false Bool.false_ne_true fun h => hne _ h

/-- A super type has a name of its own, so that the relation to it is the same. -/
theorem Supers.rel_super (hs : Supers superOf height) (ht : t.isOptionType = false)
    (hf : ¬(t.isFuncType ∧ u.isFuncType)) (htu : t ≠ u) (hu : u ≠ .builtin "Nothing") :
    Rel superOf t u ↔ ∃ v, superOf u = some v ∧ Rel superOf t v := by
  rw [rel_up_iff ht hf]
  constructor
  · intro h
    have hsup : ∃ v, superOf u = some v ∧
        (Anc superOf t v ∨ Anc superOf (.builtin "Nothing") v) := by
      rcases h with h | h
      · rcases anc_cases h with h | ⟨v, hv, h⟩
        · exact absurd h htu
        · exact ⟨v, hv, .inl h⟩
      · rcases anc_cases h with h | ⟨v, hv, h⟩
        · exact absurd h.symm hu
        · exact ⟨v, hv, .inr h⟩
    obtain ⟨v, hv, h⟩ := hsup
    obtain ⟨a, rfl⟩ := hs.leaf hv
    exact ⟨_, hv, .up ht (fun hc => by cases hc.2) h⟩
  · rintro ⟨v, hv, h⟩
    obtain ⟨a, rfl⟩ := hs.leaf hv
    rw [rel_up_iff ht (fun hc => by cases hc.2)] at h
    rcases h with h | h
    · exact .inl (anc_super hv h)
    · exact .inr (anc_super hv h)

/-- More than the function needs for two types, when no height is more than `n`. -/
def need (height : Ty → Nat) (n : Nat) (t u : Ty) : Nat :=
  (t.size + u.size) * (n + 2) + height u

theorem need_lt {n : Nat} (hn : ∀ u, height u ≤ n) {t' u' : Ty}
    (h : t'.size + u'.size < t.size + u.size) :
    need height n t' u' < need height n t u := by
  have hmul : (t'.size + u'.size + 1) * (n + 2) ≤ (t.size + u.size) * (n + 2) :=
    Nat.mul_le_mul_right _ h
  have := hn u'
  rw [Nat.succ_mul] at hmul
  unfold need
  omega

theorem forall_mem_zip {α β : Type*} {l : List α} {l' : List β} {P : α × β → Prop} :
    (∀ x ∈ l.zip l', P x) ↔
      ∀ (i : Nat) (a : α) (b : β), l[i]? = some a → l'[i]? = some b → P (a, b) := by
  constructor
  · intro h i a b ha hb
    exact h (a, b) (List.mem_iff_getElem?.2 ⟨i, List.getElem?_zip_eq_some.2 ⟨ha, hb⟩⟩)
  · rintro h ⟨a, b⟩ hx
    obtain ⟨i, hi⟩ := List.mem_iff_getElem?.1 hx
    obtain ⟨ha, hb⟩ := List.getElem?_zip_eq_some.1 hi
    exact h i a b ha hb

/-- With enough fuel the function decides the relation. -/
theorem isSameOrBaseTypeOf_iff (hs : Supers superOf height) {n fuel : Nat}
    (hn : ∀ u, height u ≤ n) (hf : need height n t u < fuel) :
    isSameOrBaseTypeOf superOf fuel t u = true ↔ Rel superOf t u := by
  induction fuel generalizing t u with
  | zero => omega
  | succ fuel ih =>
    have hsmall {t' u' : Ty} (h : t'.size + u'.size < t.size + u.size) :
        isSameOrBaseTypeOf superOf fuel t' u' = true ↔ Rel superOf t' u' :=
      ih ((need_lt hn h).trans_le (Nat.le_of_lt_succ hf))
    unfold isSameOrBaseTypeOf
    split
    · next heq =>
      subst heq
      exact iff_of_true rfl (rel_refl t)
    next hne =>
    split
    · next hnothing =>
      have hu := Ty.isBuiltin_iff.1 hnothing
      rw [hu]
      exact iff_of_true rfl (rel_of_nothing rfl rfl (anc_refl _) t)
    next hnothing =>
    have hu : u ≠ .builtin "Nothing" := fun hu => hnothing (Ty.isBuiltin_iff.2 hu)
    have hclimb (ht : t.isOptionType = false) (hf' : ¬(t.isFuncType ∧ u.isFuncType)) :
        (match superOf u with
          | none => false
          | some superType => isSameOrBaseTypeOf superOf fuel t superType) = true ↔
          Rel superOf t u := by
      rw [hs.rel_super ht hf' hne hu]
      cases hsup : superOf u with
      | none => exact iff_of_false Bool.false_ne_true fun ⟨v, hv, _⟩ => by cases hv
      | some v =>
        have hlt := hs.lt hsup
        have hsize : v.size ≤ u.size := by
          obtain ⟨a, rfl⟩ := hs.leaf hsup
          exact u.size_pos
        have hneed : need height n t v < need height n t u := by
          have hmul : (t.size + v.size) * (n + 2) ≤ (t.size + u.size) * (n + 2) :=
            Nat.mul_le_mul_right _ (Nat.add_le_add_left hsize _)
          unfold need
          omega
        dsimp only
        rw [ih (hneed.trans_le (Nat.le_of_lt_succ hf))]
        constructor
        · exact fun h => ⟨v, rfl, h⟩
        · rintro ⟨v', hv', h⟩
          cases hv'
          exact h
    cases t with
    | option e =>
      rw [rel_option_iff]
      have := size_strip_le u
      have : e.size < (Ty.option e).size := Nat.lt_succ_self _
      exact hsmall (by omega)
    | func r ps =>
      cases u with
      | func r' ps' =>
        have h₁ : r.size < (Ty.func r ps).size := by rw [Ty.size]; omega
        have h₂ : r'.size < (Ty.func r' ps').size := by rw [Ty.size]; omega
        dsimp only
        rw [rel_func_iff, Bool.and_eq_true, Bool.and_eq_true, Bool.or_eq_true, beq_iff_eq,
          List.all_eq_true, Ty.isVoidType, Ty.isBuiltin_iff, hsmall (by omega), and_assoc,
          forall_mem_zip]
        refine and_congr_right fun hlen => and_congr ?_ Decidable.or_iff_not_imp_right
        apply forall₅_congr
        intro i p p' hp hp'
        have h₃ := size_lt_func (r := r) hp
        have h₄ := size_lt_func (r := r') hp'
        have hlt : p'.size + p.size < (Ty.func r ps).size + (Ty.func r' ps').size := by omega
        exact hsmall hlt
      | leaf | array | map | tuple | option => exact hclimb rfl fun hc => by cases hc.2
    | leaf | array | map | tuple => exact hclimb rfl fun hc => by cases hc.1

end

end Arsh.Types
