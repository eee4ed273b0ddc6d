import Arsh.Types.Hierarchy

/-!
# Order of the types of a pool

In every reachable pool `isSameOrBaseTypeOf` is reflexive and transitive. It is antisymmetric as long
as no error type has been derived from `Nothing`, which `createErrorType` accepts: such a type and
`Nothing` are bases of each other. The comparator of `resolveCommonSuperType` is a strict weak
ordering of some lists only; the type that it looks for is found in all.
-/

namespace Arsh.Types.TypeState

open Assoc

variable {nativeMethods : Ty → List (Text × Nat)} {P : Ty → Prop} {s s' : TypeState} {t u v : Ty}
  {types types' : List Ty}

theorem Inv.refl (h : Inv s) (t : Ty) : s.same t t = true := h.same_iff.2 (rel_refl t)

theorem Inv.trans (h : Inv s) (ht : s.pool.Has t) (hu : s.pool.Has u) (hv : s.pool.Has v)
    (htu : s.same t u = true) (huv : s.same u v = true) : s.same t v = true := by
  rw [h.same_iff] at htu huv ⊢
  exact rel_trans h.isSupers (h.proper_of_has ht) (h.proper_of_has hu) (h.proper_of_has hv) htu huv

/-- Types have ids of their own. -/
theorem Inv.typeId_inj (h : Inv s) (ht : s.pool.Has t) (hu : s.pool.Has u)
    (heq : s.typeId t = s.typeId u) : t = u := by
  obtain ⟨i, hi⟩ := List.mem_iff_getElem?.1 (has_iff.1 ht)
  obtain ⟨j, hj⟩ := List.mem_iff_getElem?.1 (has_iff.1 hu)
  rw [(h.attrOf hi).1, (h.attrOf hj).1] at heq
  rw [heq, hj] at hi
  exact (Option.some.inj hi).symm

/-! ## Error types derived from `Nothing` -/

/-- No type has the super type `Nothing`. -/
def NoneFromNothing (s : TypeState) : Prop :=
  ∀ attr ∈ s.attrs, attr.superType ≠ some (.builtin "Nothing")

theorem Inv.superOf_ne (h : Inv s) (hno : s.NoneFromNothing) (u : Ty) :
    s.superOf u ≠ some (.builtin "Nothing") := by
  intro hu
  have hattr : u.isFuncType = false → (s.attrOf u).bind TypeAttr.superType =
      some (.builtin "Nothing") := by
    intro hf
    cases u with
    | func r ps => cases hf
    | option e => cases hu
    | leaf | array | map | tuple => exact hu
  cases hf : u.isFuncType with
  | false =>
    obtain ⟨attr, hattr, hsup⟩ := Option.bind_eq_some_iff.1 (hattr hf)
    obtain ⟨i, -, -, -, hi⟩ := h.of_attrOf hattr
    exact hno attr (List.mem_of_getElem? hi) hsup
  | true =>
    cases u with
    | func r ps => exact absurd (Option.some.inj hu) (by decide)
    | _ => cases hf

/-- The relation of a pool is antisymmetric if and only if no type is derived from `Nothing`. -/
theorem Inv.antisymm_iff (h : Inv s) :
    (∀ t u, s.pool.Has t → s.pool.Has u → s.same t u = true → s.same u t = true → t = u) ↔
      s.NoneFromNothing := by
  constructor
  · intro hanti attr hattr hsup
    obtain ⟨i, hi⟩ := List.mem_iff_getElem?.1 hattr
    have hlt : i < s.types.length := by
      rw [← h.length]
      exact (List.getElem?_eq_some_iff.1 hi).1
    have htype := List.getElem?_eq_getElem hlt
    have hok := h.super htype hi
    obtain ⟨-, attr', hattr', hof⟩ := h.attrOf htype
    rw [hi] at hattr'
    cases hattr'
    generalize s.types[i] = t at htype hok hof
    -- only a type with a name of its own is derived from `Nothing`
    have hleaf : ∃ a, t = .leaf a := by
      cases t with
      | leaf a => exact ⟨a, rfl⟩
      | _ => exact absurd (hok.coll hsup trivial) (by decide)
    obtain ⟨a, rfl⟩ := hleaf
    have hsuper : s.superOf (.leaf a) = some (.builtin "Nothing") := by
      show (s.attrOf (.leaf a)).bind TypeAttr.superType = _
      rw [hof]
      exact hsup
    have hnothing : s.pool.Has (.builtin "Nothing") :=
      has_iff.2 (List.mem_of_mem_take (hok.mem hsup))
    have heq := hanti (.leaf a) (.builtin "Nothing") (has_iff.2 (List.mem_of_getElem? htype))
      hnothing (h.same_iff.2 (rel_of_nothing rfl rfl (anc_refl _) _))
      (h.same_iff.2 (.up rfl (fun hc => by cases hc.1) (.inl (anc_super hsuper (anc_refl _)))))
    rw [heq, h.isSupers.nothing] at hsuper
    cases hsuper
  · intro hno t u ht hu htu hut
    rw [h.same_iff] at htu hut
    exact rel_antisymm h.isSupers (h.superOf_ne hno) (h.proper_of_has ht) (h.proper_of_has hu)
      htu hut

theorem NoneFromNothing.withPool (h : s.NoneFromNothing) {q : TypePool} {attr : TypeAttr}
    (hattr : attr.superType ≠ some (.builtin "Nothing")) : (s.withPool q attr).NoneFromNothing := by
  unfold NoneFromNothing TypeState.withPool
  dsimp only
  split
  · intro a ha
    rcases List.mem_append.1 ha with ha | ha
    · exact h a ha
    · rw [List.mem_singleton.1 ha]
      exact hattr
  · exact h

theorem ne_nothing_of_collection (hv : v ∈ collectionTypes) :
    some v ≠ some (.builtin "Nothing") := by
  rintro ⟨⟩
  revert hv
  decide

theorem Inv.fieldsSuperType_ne (h : Inv s) {superTypes : List Ty}
    (hs : ∀ v ∈ superTypes, v ∈ collectionTypes) (depth : Nat) :
    s.fieldsSuperType superTypes depth ≠ some (.builtin "Nothing") := by
  intro heq
  have hok := SuperOk.of_fields (s := s) h.subset hs depth (.tuple [])
  exact ne_nothing_of_collection (hok.coll heq trivial) rfl

theorem resolveCollectionSuperType_ne (s : TypeState) (e : Ty) (b : Bool) :
    some (s.resolveCollectionSuperType e b) ≠ some (.builtin "Nothing") :=
  ne_nothing_of_collection (resolveCollectionSuperType_mem s e b)

theorem Inv.reifiedAttr_ne (h : Inv s) (t : TypeTemplate) (es : List Ty) :
    (s.reifiedAttr t es).superType ≠ some (.builtin "Nothing") := by
  unfold reifiedAttr
  split
  · exact resolveCollectionSuperType_ne s _ _
  · exact resolveCollectionSuperType_ne s _ _
  · refine h.fieldsSuperType_ne ?_ _
    intro v hv
    obtain ⟨e, -, rfl⟩ := List.mem_map.1 hv
    exact resolveCollectionSuperType_mem s e true
  · exact nofun

theorem NoneFromNothing.commonSuperType (h : s.NoneFromNothing) (types : List Ty) :
    (s.resolveCommonSuperType types).2.NoneFromNothing := by
  have hopt (type : Ty) : (s.createOptionType [type]).2.NoneFromNothing := h.withPool nofun
  unfold TypeState.resolveCommonSuperType
  dsimp only
  split
  · next type _ =>
    split
    · split
      · exact h
      · split
        · next hr =>
          have := hopt type
          rw [hr] at this
          exact this
        · next hr =>
          have := hopt type
          rw [hr] at this
          exact this
    · exact h
  · exact h

theorem NoneFromNothing.finalize (h : s.NoneFromNothing) (hi : Inv s) {typeId : Nat}
    {handles : List (Text × Handle)} (hs : s.finalizeRecordType typeId handles = .ok s') :
    s'.NoneFromNothing := by
  unfold TypeState.finalizeRecordType at hs
  split at hs
  · next modId name cli attr hobj hattr =>
    dsimp only at hs
    split at hs
    · cases hs
    · split at hs
      · cases hs
      · cases hs
        intro a ha
        rcases List.mem_or_eq_of_mem_set ha with ha | rfl
        · exact h a ha
        · dsimp only
          split
          · refine hi.fieldsSuperType_ne ?_ _
            intro v hv
            obtain ⟨e, -, rfl⟩ := List.mem_map.1 hv
            exact resolveCollectionSuperType_mem s _ _
          · exact h _ (List.mem_of_getElem? hattr)
  · cases hs
    exact h

theorem NoneFromNothing.step (h : s.NoneFromNothing) (hi : Inv s)
    (hs : Step nativeMethods (· ≠ .builtin "Nothing") s s') : s'.NoneFromNothing := by
  cases hs with
  | reified _ _ => exact h.withPool (hi.reifiedAttr_ne _ _)
  | func _ _ => exact h.withPool (by decide)
  | error modId _ _ hP =>
    refine h.withPool fun heq => hP ?_
    exact Option.some.inj heq
  | record modId cli _ =>
    apply h.withPool
    cases cli with
    | false => decide
    | true => decide
  | finalize hf => exact h.finalize hi hf
  | mod modId handles children index attr => exact h.withPool (by decide)
  | lookupMethod ids methodName => exact h
  | commonSuperType _ => exact h.commonSuperType _
  | discard methodIdOffset _ => exact fun a ha => h a (List.mem_of_mem_take ha)

/-- The pool after `typedef E : Nothing`. -/
def fromNothing : TypeState :=
  ((new fun _ => []).createErrorType (fun _ => []) "E".toList (.builtin "Nothing") 0).2

def errorE : Ty := .leaf (.user 0 "E".toList)

/-- The pool after `typedef E : Error`. -/
def withError : TypeState :=
  ((new fun _ => []).createErrorType (fun _ => []) "E".toList (.builtin "Error") 0).2

/-- The same after two function types with `E`, as the result of one and the parameter of one. -/
def withFuncs : TypeState :=
  ((withError.createFuncType errorE [.builtin "Error"]).2.createFuncType (.builtin "Throwable")
    [errorE]).2

/-- A line of three types, and two types below it. -/
def errorLine : List Ty :=
  [.builtin "Any", .builtin "Throwable", .builtin "Error", .builtin "ArithmeticError",
    .builtin "OutOfRangeError"]

theorem withFuncs_facts :
    (errorE ∈ withError.types ∧ .builtin "Error" ∈ withError.types) ∧
    (errorE ∈ (withError.createFuncType errorE [.builtin "Error"]).2.types ∧
      .builtin "Throwable" ∈ (withError.createFuncType errorE [.builtin "Error"]).2.types) ∧
    (errorE ∈ withFuncs.types ∧ .builtin "Error" ∈ withFuncs.types ∧
      .builtin "Throwable" ∈ withFuncs.types) ∧
    withFuncs.same (.builtin "Error") errorE = true ∧
    withFuncs.same (.builtin "Throwable") (.builtin "Error") = true := by
  decide +kernel

/-- What is computed of the first pool and of the one with `E` from `Nothing`, in one evaluation. -/
theorem new_facts :
    (builtinTypes.all fun e => e.2 ≠ some (.builtin "Nothing")) = true ∧
    ((errorE ∈ fromNothing.types ∧ .builtin "Nothing" ∈ fromNothing.types) ∧
      fromNothing.same (errorE) (.builtin "Nothing") = true ∧
      fromNothing.same (.builtin "Nothing") (errorE) = true) ∧
    ((∀ x ∈ errorLine, ∀ y ∈ errorLine,
        (new fun _ => []).same x y = true → (new fun _ => []).same y x = true → x = y) ∧
      ∀ x ∈ errorLine, ∀ y ∈ errorLine, ∀ z ∈ errorLine,
        x ≠ y → (new fun _ => []).same x y = true →
          ¬(Unrelated (new fun _ => []).same z x ∧ Unrelated (new fun _ => []).same z y)) ∧
    ((new fun _ => []).same (.builtin "Error") (.builtin "ArithmeticError") = true ∧
      Unrelated (new fun _ => []).same (.builtin "Int") (.builtin "Error") ∧
      Unrelated (new fun _ => []).same (.builtin "Int") (.builtin "ArithmeticError")) ∧
    IsGreatest (new fun _ => []).same
      ([.builtin "Int", optNothing, .builtin "String", .builtin "%Value_"].filter
        fun t => t ≠ optNothing) (.builtin "%Value_") ∧
    ((new fun _ => []).resolveCommonSuperType [.builtin "<unresolved>", optNothing]).1 = none := by
  unfold Unrelated IsGreatest
  decide +kernel

theorem noneFromNothing_new : (new nativeMethods).NoneFromNothing := by
  have hall := new_facts.1
  intro attr hattr
  obtain ⟨e, he, rfl⟩ := List.mem_map.1 hattr
  exact of_decide_eq_true (List.all_eq_true.1 hall e he)

theorem Reachable.noneFromNothing (h : Reachable nativeMethods (· ≠ .builtin "Nothing") s) :
    s.NoneFromNothing := by
  induction h with
  | new => exact noneFromNothing_new
  | step h hs ih => exact ih.step h.inv hs

/-! ## The partial order -/

/-- In runs without error types derived from `Nothing` the relation is a partial order on the types
of the pool, with parameters of functions the other way and `Void` as the result of any function. -/
theorem reachable_partialOrder (h : Reachable nativeMethods (· ≠ .builtin "Nothing") s) :
    (∀ t, s.pool.Has t → s.same t t = true) ∧
    (∀ t u v, s.pool.Has t → s.pool.Has u → s.pool.Has v →
      s.same t u = true → s.same u v = true → s.same t v = true) ∧
    (∀ t u, s.pool.Has t → s.pool.Has u → s.same t u = true → s.same u t = true → t = u) ∧
    ∀ ret ret' ps ps', s.same (.func ret ps) (.func ret' ps') = true ↔
      ps.length = ps'.length ∧
        (∀ (i : Nat) (p p' : Ty), ps[i]? = some p → ps'[i]? = some p' → s.same p' p = true) ∧
        (ret.isVoidType = true ∨ s.same ret ret' = true) := by
  have hi := h.inv
  refine ⟨fun t _ => hi.refl t, fun t u v ht hu hv => hi.trans ht hu hv,
    hi.antisymm_iff.2 h.noneFromNothing, ?_⟩
  intro ret ret' ps ps'
  rw [hi.same_iff, rel_func_iff]
  simp only [hi.same_iff, Ty.isVoidType, Ty.isBuiltin_iff]
  rw [Decidable.or_iff_not_imp_left]

theorem has_new (ht : t ∈ builtinTypes.map Prod.fst) : (new nativeMethods).pool.Has t := by
  rw [has_iff, types_new]
  exact ht

theorem withFuncs_reachable : Reachable (fun _ => []) (· ≠ .builtin "Nothing") withFuncs := by
  obtain ⟨⟨hE, hError⟩, ⟨hE', hThrowable⟩, -⟩ := withFuncs_facts
  have herror : Reachable (fun _ => []) (· ≠ .builtin "Nothing") withError :=
    .step .new (.error 0 (by decide) (has_new (by decide)) (by decide))
  refine .step (.step herror (.func (has_iff.2 hE) ?_)) (.func (has_iff.2 hThrowable) ?_)
  · exact List.forall_mem_singleton.2 (has_iff.2 hError)
  · exact List.forall_mem_singleton.2 (has_iff.2 hE')

/-- A function that throws more and takes less is above one that throws less and takes more. -/
theorem reachable_partialOrder_error :
    withFuncs.same (.func (.builtin "Throwable") [errorE]) (.func errorE [.builtin "Error"]) = true ∧
      withFuncs.same (.func errorE [.builtin "Error"]) (.func (.builtin "Throwable") [errorE]) =
        false := by
  obtain ⟨-, htrans, hanti, hfunc⟩ := reachable_partialOrder withFuncs_reachable
  obtain ⟨-, -, ⟨hE, hError, hThrowable⟩, hsame, hsame'⟩ := withFuncs_facts
  have hthrow : withFuncs.same (.builtin "Throwable") errorE = true :=
    htrans _ _ _ (has_iff.2 hThrowable) (has_iff.2 hError) (has_iff.2 hE) hsame' hsame
  constructor
  · refine (hfunc _ _ _ _).2 ⟨rfl, fun i p p' hp hp' => ?_, .inr hthrow⟩
    cases i with
    | zero =>
      cases hp
      cases hp'
      exact hsame
    | succ i => cases hp
  · rw [← Bool.not_eq_true, hfunc]
    rintro ⟨-, -, hvoid | hret⟩
    · cases hvoid
    · exact absurd (hanti _ _ (has_iff.2 hE) (has_iff.2 hThrowable) hret hthrow) (by decide)

/-- `E` and `Nothing` are bases of each other. -/
theorem fromNothing_not_antisymm : ¬∀ s, Reachable (fun _ => []) (fun _ => True) s →
    ∀ t u, s.pool.Has t → s.pool.Has u → s.same t u = true → s.same u t = true → t = u := by
  intro hall
  have hnothing : (new fun _ => []).pool.Has (.builtin "Nothing") := has_new (by decide)
  have hreach : Reachable (fun _ => []) (fun _ => True) fromNothing :=
    .step .new (.error 0 (by decide) hnothing trivial)
  obtain ⟨⟨hE, hN⟩, hEN, hNE⟩ := new_facts.2.1
  have heq := hall fromNothing hreach _ _ (has_iff.2 hE) (has_iff.2 hN) hEN hNE
  cases heq

/-! ## The comparator of the sort -/

theorem Inv.strip_plain (h : Inv s) (ht : s.pool.Has t) : t.strip.isOptionType = false := by
  have hwf := h.named.wf_of_has ht
  cases t with
  | option e =>
    cases hwf with
    | option hne => exact hne
  | _ => rfl

theorem Inv.twins_iff (h : Inv s) (ht : s.pool.Has t) (hu : s.pool.Has u) :
    Twins s.superOf t u ↔ s.same t u = true ∧ s.same u t = true := by
  rw [h.same_iff, h.same_iff]
  exact Types.twins_iff h.isSupers (h.proper_of_has ht) (h.proper_of_has hu)

theorem Inv.splits_iff (h : Inv s) (ht : s.pool.Has t) (hu : s.pool.Has u) (hv : s.pool.Has v) :
    Splits s.superOf t u v ↔
      (t ≠ u ∧ s.same t u = true) ∧ s.same u t = false ∧ Unrelated s.same v t ∧
        Unrelated s.same v u := by
  rw [Types.splits_iff h.isSupers (h.strip_plain ht) (h.strip_plain hu) (h.strip_plain hv)]
  unfold Apart Unrelated
  simp only [← h.same_iff, Bool.not_eq_true]
  constructor
  · rintro ⟨htu, hut, htv, hvu⟩
    -- the other two follow through the first one
    have hvt : s.same v t = false := by
      rw [← Bool.not_eq_true] at hvu ⊢
      exact fun hvt => hvu (h.trans hv ht hu hvt htu)
    have huv : s.same u v = false := by
      rw [← Bool.not_eq_true] at htv ⊢
      exact fun huv => htv (h.trans ht hu hv htu huv)
    refine ⟨⟨?_, htu⟩, hut, ⟨hvt, htv⟩, hvu, huv⟩
    rintro rfl
    rw [htu] at hut
    cases hut
  · rintro ⟨⟨-, htu⟩, hut, ⟨-, htv⟩, hvu, -⟩
    exact ⟨htu, hut, htv, hvu⟩

theorem Inv.strictWeak_iff (hi : Inv s) (ht : ∀ t ∈ types, s.pool.Has t) :
    StrictWeak (isBefore s.same) types ↔
      (∀ x ∈ types, ∀ y ∈ types, Twins s.superOf x y → x = y) ∧
        ∀ x ∈ types, ∀ y ∈ types, ∀ z ∈ types, ¬Splits s.superOf x y z := by
  have htrans : ∀ x ∈ types, ∀ y ∈ types, ∀ z ∈ types,
      s.same x y = true → s.same y z = true → s.same x z = true :=
    fun x hx y hy z hz => hi.trans (ht x hx) (ht y hy) (ht z hz)
  rw [weakOrder_iff htrans]
  constructor
  · rintro ⟨hanti, hthird⟩
    refine ⟨fun x hx y hy htwins => ?_, fun x hx y hy z hz hsplits => ?_⟩
    · obtain ⟨hxy, hyx⟩ := (hi.twins_iff (ht x hx) (ht y hy)).1 htwins
      exact hanti x hx y hy hxy hyx
    · obtain ⟨⟨hne, hxy⟩, -, happart⟩ := (hi.splits_iff (ht x hx) (ht y hy) (ht z hz)).1 hsplits
      exact hthird x hx y hy z hz hne hxy happart
  · rintro ⟨htwins, hsplits⟩
    have hanti : ∀ x ∈ types, ∀ y ∈ types, s.same x y = true → s.same y x = true → x = y :=
      fun x hx y hy hxy hyx => htwins x hx y hy ((hi.twins_iff (ht x hx) (ht y hy)).2 ⟨hxy, hyx⟩)
    refine ⟨hanti, fun x hx y hy z hz hne hxy hapart => ?_⟩
    apply hsplits x hx y hy z hz
    refine (hi.splits_iff (ht x hx) (ht y hy) (ht z hz)).2 ⟨⟨hne, hxy⟩, ?_, hapart⟩
    rw [← Bool.not_eq_true]
    exact fun hyx => hne (hanti x hx y hy hxy hyx)

/-- Of types with lines of super types only, each that is above another one is in one line with all
of them. -/
theorem Inv.strictWeak_lines (hi : Inv s) (ht : ∀ t ∈ types, s.pool.Has t)
    (hplain : ∀ t ∈ types, t.isOptionType = false ∧ t.isFuncType = false ∧
      ¬Anc s.superOf (.builtin "Nothing") t) :
    StrictWeak (isBefore s.same) types ↔ ∀ x ∈ types, ∀ y ∈ types, ∀ z ∈ types, x ≠ y →
      Anc s.superOf x y → Anc s.superOf x z ∨ Anc s.superOf z x := by
  rw [hi.strictWeak_iff ht]
  constructor
  · rintro ⟨-, hsplits⟩ x hx y hy z hz hne hxy
    by_contra hc
    obtain ⟨hxz, hzx⟩ := not_or.1 hc
    obtain ⟨hxo, hxf, -⟩ := hplain x hx
    obtain ⟨hyo, -, hny⟩ := hplain y hy
    obtain ⟨hzo, -, hnz⟩ := hplain z hz
    exact hsplits x hx y hy z hz (.plain (.line ⟨hxo, hxf⟩ hyo hzo hxy hne hny hnz hxz hzx))
  · intro hline
    refine ⟨fun x hx y hy htwins => ?_, fun x hx y hy z hz hsplits => ?_⟩
    · cases htwins with
      | refl => rfl
      | nothing hn => exact absurd hn (hplain x hx).2.2
      | option => cases (hplain _ hx).1
      | func => cases (hplain _ hx).2.1
    · cases hsplits with
      | plain hscattered =>
        cases hscattered with
        | line _ _ _ hxy hne _ _ hxz hzx => exact (hline x hx y hy z hz hne hxy).elim hxz hzx
        | funcs hf | func hf =>
          rw [(hplain x hx).2.1] at hf
          cases hf
      | options | plainThird | optionFirst => cases (hplain _ hx).1
      | optionThird => cases (hplain _ hz).1

/-- What is made of the type at the front. -/
theorem Inv.resolve_front (h : Inv s) (ht : ∀ t ∈ types, s.pool.Has t)
    (hf : frontType s.same (sortTypes s.same s.typeId types) = some t) :
    (s.resolveCommonSuperType types).1 =
      if optNothing ∉ types ∨ t.isVoidType = true ∨ t.isOptionType = true then some t
      else if t.isUnresolved then none else some (.option t) := by
  have hany : (types.any fun t => t = optNothing) = decide (optNothing ∈ types) := by
    rw [Bool.eq_iff_iff, List.any_eq_true, decide_eq_true_iff]
    exact ⟨fun ⟨x, hx, he⟩ => of_decide_eq_true he ▸ hx, fun h => ⟨_, h, decide_eq_true rfl⟩⟩
  have hhas : s.pool.Has t := ht t (mem_of_sortTypes (frontType_mem hf))
  unfold TypeState.resolveCommonSuperType
  dsimp only
  rw [hf, hany]
  dsimp only
  by_cases hn : optNothing ∈ types
  · rw [if_pos (decide_eq_true hn)]
    by_cases hvo : t.isVoidType = true ∨ t.isOptionType = true
    · rw [if_pos (by rwa [Bool.or_eq_true]), if_pos (.inr hvo)]
    · rw [if_neg (by rwa [Bool.or_eq_true]), if_neg (by tauto)]
      obtain ⟨hvoid, hopt⟩ := not_or.1 hvo
      cases hu : t.isUnresolved with
      | true =>
        have hcreate : (s.createOptionType [t]).1 = .error (.invalidElement .option 0 t.name) := by
          unfold TypeState.createOptionType TypePool.createOptionType
          dsimp only
          rw [if_pos (by rw [hu, Bool.or_true])]
        split
        · next heq =>
          rw [heq] at hcreate
          cases hcreate
        · rfl
      | false =>
        have hres := (h.named.createOptionType (List.forall_mem_singleton.2
          (h.named.wf_of_has hhas))).2
        have hok : ∃ r, (s.createOptionType [t]).1 = .ok r := by
          unfold TypeState.createOptionType TypePool.createOptionType
          dsimp only
          rw [if_neg (by rw [hu, Bool.or_false]; exact hvoid), if_neg hopt]
          exact ⟨_, rfl⟩
        obtain ⟨r, hr⟩ := hok
        have hty := hres r hr (List.forall_mem_singleton.2 hhas)
        split
        · next ret _ heq =>
          rw [heq] at hr
          cases hr
          rw [hty, TypePool.requested, if_neg hopt]
          rfl
        · next heq =>
          rw [heq] at hr
          cases hr
  · rw [if_neg (by simpa using hn), if_pos (.inl hn)]

/-- The greatest of the types that are not `Nothing?` is found wherever they stand, and made an
option type if `Nothing?` was there; there is none of `<unresolved>`. -/
theorem reachable_commonSuperType (h : Reachable nativeMethods P s)
    (ht : ∀ t ∈ types, s.pool.Has t) {rest : List Ty}
    (hrest : rest = types.filter fun t => t ≠ optNothing) :
    (rest = [] → (s.resolveCommonSuperType types).1 =
      if types = [] then none else some optNothing) ∧
    (rest ≠ [] → (¬∃ t, IsGreatest s.same rest t) → (s.resolveCommonSuperType types).1 = none) ∧
    ((∃ t, IsGreatest s.same rest t) → ∃ t, IsGreatest s.same rest t ∧
      (s.resolveCommonSuperType types).1 =
        if optNothing ∉ types ∨ t.isVoidType = true ∨ t.isOptionType = true then some t
        else if t.isUnresolved then none else some (.option t)) ∧
    (s.NoneFromNothing → ∀ t u, IsGreatest s.same rest t → IsGreatest s.same rest u → t = u) ∧
    ∀ types', types.Perm types' →
      (s.resolveCommonSuperType types').1 = (s.resolveCommonSuperType types).1 := by
  have hi := h.inv
  have hmem : ∀ t, t ∈ rest ↔ t ∈ types ∧ t ≠ optNothing := fun t => by
    rw [hrest, List.mem_filter, decide_eq_true_iff]
  have hhas : ∀ t ∈ rest, s.pool.Has t := fun t hm => ht t ((hmem t).1 hm).1
  have hid : ∀ x ∈ types, ∀ y ∈ types, s.typeId x = s.typeId y → x = y := fun x hx y hy =>
    hi.typeId_inj (ht x hx) (ht y hy)
  obtain ⟨hgreatest, hfound⟩ := frontType_spec hmem hid (fun x _ => hi.refl x)
    fun x hx y hy z hz => hi.trans (hhas x hx) (hhas y hy) (hhas z hz)
  -- without a type at the front nothing is left, or nothing is found
  have hnone (hf : frontType s.same (sortTypes s.same s.typeId types) = none) :
      (s.resolveCommonSuperType types).1 =
        if optNothing ∈ types ∧ rest = [] then some optNothing else none := by
    have hany : (types.any fun t => t = optNothing) = decide (optNothing ∈ types) := by
      rw [Bool.eq_iff_iff, List.any_eq_true, decide_eq_true_iff]
      exact ⟨fun ⟨x, hx, he⟩ => of_decide_eq_true he ▸ hx, fun h => ⟨_, h, decide_eq_true rfl⟩⟩
    have hempty : (sortTypes s.same s.typeId types).isEmpty = true ↔ rest = [] := by
      rw [List.isEmpty_iff, List.eq_nil_iff_forall_not_mem, List.eq_nil_iff_forall_not_mem]
      exact forall_congr' fun t => not_congr ((mem_sortTypes hid).trans (hmem t).symm)
    unfold TypeState.resolveCommonSuperType
    dsimp only
    rw [hf, hany]
    dsimp only
    simp only [Bool.and_eq_true, decide_eq_true_iff, hempty]
  refine ⟨?_, ?_, ?_, ?_, ?_⟩
  · intro hnil
    have hf : frontType s.same (sortTypes s.same s.typeId types) = none := by
      cases hf : frontType s.same (sortTypes s.same s.typeId types) with
      | none => rfl
      | some t =>
        have := (hgreatest t hf).1
        rw [hnil] at this
        cases this
    rw [hnone hf]
    by_cases hty : types = []
    · rw [if_neg (by rw [hty]; simp), if_pos hty]
    · obtain ⟨t, htm⟩ := List.exists_mem_of_ne_nil _ hty
      have hopt : t = optNothing := by
        by_contra hne
        have := (hmem t).2 ⟨htm, hne⟩
        rw [hnil] at this
        cases this
      rw [if_pos ⟨hopt ▸ htm, hnil⟩, if_neg hty]
  · intro hne hno
    cases hf : frontType s.same (sortTypes s.same s.typeId types) with
    | none => rw [hnone hf, if_neg fun hc => hne hc.2]
    | some t => exact absurd ⟨t, hgreatest t hf⟩ hno
  · intro hex
    obtain ⟨t, hf⟩ := hfound hex
    exact ⟨t, hgreatest t hf, hi.resolve_front ht hf⟩
  · intro hno t u hgt hgu
    exact hi.antisymm_iff.2 hno t u (hhas t hgt.1) (hhas u hgu.1) (hgt.2 u hgu.1) (hgu.2 t hgt.1)
  · intro types' hperm
    have hsort := @sortTypes_perm s.same _ _ _ hid hperm
    have hany : (types'.any fun t => t = optNothing) = types.any fun t => t = optNothing := by
      rw [Bool.eq_iff_iff, List.any_eq_true, List.any_eq_true]
      exact exists_congr fun t => and_congr_left fun _ => hperm.mem_iff.symm
    unfold TypeState.resolveCommonSuperType
    rw [hsort, hany]

/-- An integer, a missing value and a string. -/
theorem reachable_commonSuperType_value :
    ((new fun _ => []).resolveCommonSuperType
      [.builtin "Int", optNothing, .builtin "String", .builtin "%Value_"]).1 =
      some (.option (.builtin "%Value_")) := by
  have hhas : ∀ t ∈ [.builtin "Int", optNothing, .builtin "String", .builtin "%Value_"],
      (new fun _ => []).pool.Has t := by
    intro t ht
    apply has_new
    revert t
    decide
  obtain ⟨-, -, hfound, hunique, -⟩ := reachable_commonSuperType
    (@Reachable.new (fun _ => []) fun _ => True) hhas rfl
  have hvalue := new_facts.2.2.2.2.1
  obtain ⟨t, ht, hres⟩ := hfound ⟨_, hvalue⟩
  rw [hunique noneFromNothing_new t _ ht hvalue] at hres
  rw [hres]
  decide

/-- The greatest type that is left is `<unresolved>`. -/
theorem commonSuperType_unresolved : ¬∀ s, Reachable (fun _ => []) (fun _ => True) s →
    ∀ types, (∀ t ∈ types, s.pool.Has t) →
      (∃ t, IsGreatest s.same (types.filter fun t => t ≠ optNothing) t) →
        (s.resolveCommonSuperType types).1 ≠ none := by
  intro hall
  have hhas : ∀ t ∈ [.builtin "<unresolved>", optNothing], (new fun _ => []).pool.Has t := by
    intro t ht
    apply has_new
    revert t
    decide
  refine hall _ .new _ hhas ⟨.builtin "<unresolved>", by decide, ?_⟩ ?_
  · intro u hu
    have : u = .builtin "<unresolved>" := by
      revert u
      decide
    rw [this]
    exact Inv.new.refl _
  · exact new_facts.2.2.2.2.2

end Arsh.Types.TypeState
