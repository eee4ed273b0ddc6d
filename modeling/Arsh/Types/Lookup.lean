import Arsh.Types.Pool

/-!
# Looking types up by their names

Every call that makes a type looks for its name first. In a pool that calls of this kind have built
the name map and the table agree (`Named`), and names tell types apart (`Ty.WF.name_inj`): the type
that is found is the one that was asked for.
-/

namespace Arsh.Types

open Assoc

namespace TypePool

variable {env : TypeEnv} {p : TypePool} {ty : Ty} {obj : TypeObj}

/-- The type is one of the pool. -/
def Has (p : TypePool) (ty : Ty) : Prop := ∃ obj ∈ p.typeTable, obj.ty = ty

/-- The type that the elements of a template make. -/
def requested : TypeTemplate → List Ty → Option Ty
  | .array, [e] => some (.array e)
  | .map, [k, v] => some (.map k v)
  | .tuple, es => some (.tuple es)
  | .option, [e] => some (if e.isOptionType then e else .option e)
  | _, _ => none

/-- Every type has a name of its own, and every name is one of a type. -/
structure Named (p : TypePool) : Prop where
  wf : ∀ obj ∈ p.typeTable, obj.ty.WF
  names : ∀ i obj, p.typeTable[i]? = some obj → mapFind p.nameMap obj.ty.name = some i
  ids : ∀ e ∈ p.nameMap, ∃ obj, p.typeTable[e.2]? = some obj ∧ obj.ty.name = e.1

theorem Named.empty : Named {} where
  wf := nofun
  names := nofun
  ids := nofun

theorem Named.wf_of_has (h : Named p) (ht : p.Has ty) : ty.WF := by
  obtain ⟨obj, hobj, rfl⟩ := ht
  exact h.wf obj hobj

theorem Named.wf_of_get (h : Named p) {name : Text} (hget : p.get name = some obj) :
    obj.ty.WF ∧ obj.ty.name = name := by
  unfold get at hget
  obtain ⟨id, hid, hobj⟩ := Option.bind_eq_some_iff.1 hget
  obtain ⟨obj', hobj', hname⟩ := h.ids _ (mapFind_mem hid)
  rw [hobj] at hobj'
  cases hobj'
  exact ⟨h.wf obj (List.mem_of_getElem? hobj), hname⟩

/-- A lookup finds the type that was asked for. -/
theorem Named.ty_of_get (h : Named p) (ht : ty.WF) (hget : p.get ty.name = some obj) :
    obj.ty = ty := by
  obtain ⟨hwf, hname⟩ := h.wf_of_get hget
  exact hwf.name_inj ht hname

theorem Named.get_of_has (h : Named p) (ht : p.Has ty) : ∃ obj, p.get ty.name = some obj := by
  obtain ⟨obj, hobj, rfl⟩ := ht
  obtain ⟨i, hi⟩ := List.mem_iff_getElem?.1 hobj
  refine ⟨obj, ?_⟩
  unfold get
  rw [h.names i obj hi]
  exact hi

theorem Named.mapFind_of_get (h : Named p) {name : Text} (hget : p.get name = none) :
    mapFind p.nameMap name = none := by
  cases hf : mapFind p.nameMap name with
  | none => rfl
  | some id =>
    obtain ⟨obj, hobj, -⟩ := h.ids _ (mapFind_mem hf)
    unfold get at hget
    rw [hf] at hget
    exact absurd (hget.symm.trans hobj) nofun

/-! ## Adding a type -/

theorem addType_new (obj : TypeObj) (h : mapFind p.nameMap obj.ty.name = none) :
    p.addType obj = (some obj, { p with
      nameMap := p.nameMap ++ [(obj.ty.name, p.typeTable.length)]
      typeTable := p.typeTable ++ [obj] }) := by
  simp [addType, emplace_of_none h]

theorem addType_old (obj : TypeObj) {id : Nat} (h : mapFind p.nameMap obj.ty.name = some id) :
    p.addType obj = (none, p) := by
  simp [addType, emplace_of_some h]

theorem Named.addType (h : Named p) (obj : TypeObj) (hwf : obj.ty.WF) : Named (p.addType obj).2 := by
  cases hf : mapFind p.nameMap obj.ty.name with
  | some id =>
    rw [addType_old obj hf]
    exact h
  | none =>
    rw [addType_new obj hf]
    refine ⟨?_, ?_, ?_⟩
    · intro x hx
      rcases List.mem_append.1 hx with hx | hx
      · exact h.wf x hx
      · rw [List.mem_singleton.1 hx]
        exact hwf
    · intro i x hi
      simp only [List.getElem?_append, List.getElem?_singleton] at hi
      rw [mapFind_snoc]
      split at hi
      · rw [h.names i x hi]
        rfl
      · split at hi
        · cases hi
          have : p.typeTable.length = i := by omega
          simp [hf, this]
        · cases hi
    · intro e he
      simp only [List.getElem?_append]
      rcases List.mem_append.1 he with he | he
      · obtain ⟨x, hx, hname⟩ := h.ids e he
        refine ⟨x, ?_, hname⟩
        rw [if_pos (List.getElem?_eq_some_iff.1 hx).1]
        exact hx
      · rw [List.mem_singleton.1 he]
        exact ⟨obj, by simp, rfl⟩

/-- The name map and the structures in the table say all. -/
theorem Named.of_eq {q : TypePool} (h : Named p) (hn : q.nameMap = p.nameMap)
    (ht : q.typeTable.map TypeObj.ty = p.typeTable.map TypeObj.ty) : Named q := by
  have hget : ∀ i : Nat, q.typeTable[i]?.map TypeObj.ty = p.typeTable[i]?.map TypeObj.ty := by
    intro i
    rw [← List.getElem?_map, ht, List.getElem?_map]
  refine ⟨?_, ?_, ?_⟩
  · intro x hx
    have : x.ty ∈ p.typeTable.map TypeObj.ty := by
      rw [← ht]
      exact List.mem_map_of_mem hx
    obtain ⟨y, hy, heq⟩ := List.mem_map.1 this
    rw [← heq]
    exact h.wf y hy
  · intro i x hx
    have := hget i
    rw [hx] at this
    obtain ⟨y, hy, heq⟩ := Option.map_eq_some_iff.1 this.symm
    rw [hn, ← heq]
    exact h.names i y hy
  · intro e he
    rw [hn] at he
    obtain ⟨y, hy, hname⟩ := h.ids e he
    have := hget e.2
    rw [hy] at this
    obtain ⟨x, hx, heq⟩ := Option.map_eq_some_iff.1 this
    exact ⟨x, hx, by rw [heq, hname]⟩

theorem Named.registerHandles (h : Named p) (methods : List (Text × Nat)) (id : Nat) :
    Named (p.registerHandles methods id) := h.of_eq rfl rfl

theorem Named.modifyData (h : Named p) (typeId : Nat) (f : TypeData → TypeData) :
    Named (p.modifyData typeId f) := by
  refine h.of_eq rfl (List.ext_getElem? fun i => ?_)
  unfold TypePool.modifyData
  rw [List.getElem?_map, List.getElem?_map, List.getElem?_modify]
  cases p.typeTable[i]? with
  | none => simp
  | some x =>
    by_cases hi : typeId = i
    · simp [hi]
    · simp [hi]

theorem Named.discard (h : Named p) (typeIdOffset methodIdOffset : Nat) :
    Named (p.discard typeIdOffset methodIdOffset) := by
  unfold TypePool.discard
  refine ⟨fun x hx => h.wf x (List.mem_of_mem_take hx), ?_, ?_⟩
  · intro i x hx
    simp only [List.getElem?_take] at hx
    split at hx
    · next hi => exact mapFind_filter (h.names i x hx) (by simpa using hi)
    · cases hx
  · intro e he
    simp only [List.mem_filter, decide_eq_true_eq] at he
    obtain ⟨x, hx, hname⟩ := h.ids e he.1
    exact ⟨x, by simp [he.2, hx], hname⟩

theorem Named.lookupMethod (h : Named p) (ids : List Nat) (methodName : Text) :
    Named (p.lookupMethod ids methodName) := by
  unfold TypePool.lookupMethod
  split
  · unfold instantiate
    split
    · exact h.of_eq rfl rfl
    · exact h
  · exact h

/-! ## Making types -/

theorem Named.getOrNew (h : Named p) (hwf : ty.WF) :
    Named (p.getOrNew ty).2 ∧ (p.getOrNew ty).1.map TypeObj.ty = some ty := by
  unfold TypePool.getOrNew
  split
  · next obj hget =>
    refine ⟨h, ?_⟩
    simp only [Option.map_some, h.ty_of_get hwf hget]
  · next hget =>
    refine ⟨h.addType _ hwf, ?_⟩
    rw [addType_new ⟨ty, .none⟩ (h.mapFind_of_get hget)]
    rfl

theorem Named.getOrNewBuiltin (h : Named p) (hwf : ty.WF) :
    Named (p.getOrNewBuiltin env ty).2 ∧
      (p.getOrNewBuiltin env ty).1.map TypeObj.ty = some ty := by
  unfold TypePool.getOrNewBuiltin
  split
  · next obj hget =>
    refine ⟨h, ?_⟩
    simp only [Option.map_some, h.ty_of_get hwf hget]
  · next hget =>
    refine ⟨(h.addType _ hwf).registerHandles _ _, ?_⟩
    rw [addType_new ⟨ty, .none⟩ (h.mapFind_of_get hget)]
    rfl

theorem Named.createOptionType (h : Named p) {elementTypes : List Ty}
    (hwf : ∀ e ∈ elementTypes, e.WF) :
    Named (p.createOptionType elementTypes).2 ∧
      ∀ r, (p.createOptionType elementTypes).1 = .ok r → (∀ e ∈ elementTypes, p.Has e) →
        r.map TypeObj.ty = requested .option elementTypes := by
  unfold TypePool.createOptionType
  split
  · next e =>
    have he := hwf e List.mem_cons_self
    simp only [requested]
    split
    · exact ⟨h, nofun⟩
    · split
      · next hopt =>
        -- the type itself comes back: it is the one with this name
        refine ⟨h, fun r hr hes => ?_⟩
        obtain ⟨obj, hobj⟩ := h.get_of_has (hes e List.mem_cons_self)
        cases hr
        simp only [hobj, Option.map_some, h.ty_of_get he hobj]
      · next hopt =>
        obtain ⟨hn, hty⟩ := h.getOrNew (.option (by simpa using hopt) he)
        refine ⟨hn, fun r hr _ => ?_⟩
        cases hr
        exact hty
  · exact ⟨h, nofun⟩

theorem Named.createTupleType (h : Named p) {elementTypes : List Ty}
    (hwf : ∀ e ∈ elementTypes, e.WF) (hne : elementTypes ≠ []) :
    Named (p.createTupleType elementTypes).2 ∧
      ∀ r, (p.createTupleType elementTypes).1 = .ok r →
        r.map TypeObj.ty = some (.tuple elementTypes) := by
  unfold TypePool.createTupleType
  split
  · exact ⟨h, nofun⟩
  · obtain ⟨hn, hty⟩ := h.getOrNew (.tuple hne hwf)
    refine ⟨hn, fun r hr => ?_⟩
    cases hr
    exact hty

theorem Named.createFuncType (h : Named p) {returnType : Ty} {paramTypes : List Ty}
    (hret : returnType.WF) (hps : ∀ e ∈ paramTypes, e.WF) :
    Named (p.createFuncType returnType paramTypes).2 ∧
      ∀ r, (p.createFuncType returnType paramTypes).1 = .ok r →
        r.map TypeObj.ty = some (.func returnType paramTypes) := by
  unfold TypePool.createFuncType
  split
  · exact ⟨h, nofun⟩
  · obtain ⟨hn, hty⟩ := h.getOrNew (.func hret hps)
    refine ⟨hn, fun r hr => ?_⟩
    cases hr
    exact hty

/-- The template of functions has no types: its name with angle brackets is not one of a type. -/
theorem Named.get_func (h : Named p) : p.get (toReifiedTypeName .func false []) = none := by
  cases hget : p.get (toReifiedTypeName .func false []) with
  | none => rfl
  | some obj =>
    obtain ⟨hwf, hname⟩ := h.wf_of_get hget
    obtain ⟨n, hn⟩ := hwf.reads.1
    have hread := hn (n + 1) (by omega) [] .nil
    rw [hname] at hread
    have hty : obj.ty = .leaf (.builtin "Func<>".toList) := by
      have : readType (n + 1) (toReifiedTypeName .func false [] ++ []) =
          some (.leaf (.builtin "Func<>".toList), []) := rfl
      rw [this] at hread
      exact (congrArg Prod.fst (Option.some.inj hread)).symm
    rw [hty] at hwf
    cases hwf with
    | leaf hleaf => exact absurd hleaf (by unfold Leaf.WF; decide)

/-- A template whose elements pass the check has all of them. -/
theorem length_of_checkElementTypes {t : TypeTemplate} {elementTypes : List Ty}
    (h : checkElementTypes env t elementTypes = none) :
    elementTypes.length = t.getElementTypeSize := by
  unfold checkElementTypes at h
  split at h
  · cases h
  · next hlen => exact (not_not.1 hlen).symm

theorem Named.createReifiedType (env : TypeEnv) (h : Named p) (t : TypeTemplate)
    {elementTypes : List Ty} (hwf : ∀ e ∈ elementTypes, e.WF) (hne : t = .tuple → elementTypes ≠ []) :
    Named (createReifiedType env p t elementTypes).2 ∧
      ∀ r, (createReifiedType env p t elementTypes).1 = .ok r → (∀ e ∈ elementTypes, p.Has e) →
        r.map TypeObj.ty = requested t elementTypes := by
  unfold TypePool.createReifiedType
  split
  · obtain ⟨hn, hty⟩ := h.createTupleType hwf (hne rfl)
    exact ⟨hn, fun r hr _ => hty r hr⟩
  · exact h.createOptionType hwf
  · next htuple hoption =>
    split
    · exact ⟨h, nofun⟩
    · next hcheck =>
      split
      · next e =>
        obtain ⟨hn, hty⟩ := h.getOrNewBuiltin (.array (hwf e List.mem_cons_self))
        refine ⟨hn, fun r hr _ => ?_⟩
        cases hr
        exact hty
      · next k v =>
        obtain ⟨hn, hty⟩ := h.getOrNewBuiltin (.map (hwf k (by simp)) (hwf v (by simp)))
        refine ⟨hn, fun r hr _ => ?_⟩
        cases hr
        exact hty
      · next harray hmap =>
        -- only the template of functions is left, without elements
        have hlen := length_of_checkElementTypes hcheck
        refine ⟨h, fun r hr _ => ?_⟩
        cases hr
        cases t with
        | array =>
          obtain ⟨e, rfl⟩ := List.length_eq_one_iff.1 hlen
          exact absurd rfl (harray e rfl)
        | map =>
          obtain ⟨k, v, rfl⟩ := List.length_eq_two.1 hlen
          exact absurd rfl (hmap k v rfl)
        | tuple => exact absurd rfl htuple
        | option => exact absurd rfl hoption
        | func =>
          have := List.eq_nil_of_length_eq_zero hlen
          subst this
          rw [List.map_nil, h.get_func]
          rfl

theorem Named.newUserType (h : Named p) {typeName : Text} (hid : isIdentifier typeName = true)
    (belongedModId : Nat) (data : TypeData) :
    Named (p.newUserType typeName belongedModId data).2 ∧
      ∀ r, (p.newUserType typeName belongedModId data).1 = .ok r →
        ¬ p.Has (.leaf (.user belongedModId typeName)) ∧
          r.map TypeObj.ty = some (.leaf (.user belongedModId typeName)) := by
  have hn := h.addType ⟨.leaf (.user belongedModId typeName), data⟩ (.leaf hid)
  unfold TypePool.newUserType
  cases hf : mapFind p.nameMap (Ty.leaf (.user belongedModId typeName)).name with
  | some id =>
    rw [addType_old ⟨_, data⟩ hf]
    exact ⟨h, nofun⟩
  | none =>
    rw [addType_new ⟨_, data⟩ hf] at hn ⊢
    refine ⟨hn, fun r hr => ?_⟩
    cases hr
    refine ⟨?_, rfl⟩
    rintro ⟨obj, hobj, hty⟩
    obtain ⟨i, hi⟩ := List.mem_iff_getElem?.1 hobj
    have := h.names i obj hi
    rw [hty, hf] at this
    cases this

theorem Named.createErrorType (h : Named p) {typeName : Text} (hid : isIdentifier typeName = true)
    (superType : Ty) (belongedModId : Nat) :
    Named (createErrorType env p typeName superType belongedModId).2 ∧
      ∀ r, (createErrorType env p typeName superType belongedModId).1 = .ok r →
        ¬ p.Has (.leaf (.user belongedModId typeName)) ∧
          r.map TypeObj.ty = some (.leaf (.user belongedModId typeName)) := by
  unfold TypePool.createErrorType
  split
  · exact h.newUserType hid belongedModId _
  · exact ⟨h, nofun⟩

theorem Named.createModType (h : Named p) (modId : Nat) (handles : List (Text × Handle))
    (children : List Imported) (index attr : Nat) :
    Named (p.createModType modId handles children index attr).2 := by
  unfold TypePool.createModType
  split
  · exact h.addType _ (.leaf trivial)
  · exact h.modifyData _ _

/-- The type of the module is there then. -/
theorem Named.get_createModType (h : Named p) (modId : Nat) (handles : List (Text × Handle))
    (children : List Imported) (index attr : Nat) :
    ∃ obj, (p.createModType modId handles children index attr).2.get (toModTypeName modId) =
      some obj := by
  have hn := h.createModType modId handles children index attr
  unfold TypePool.createModType at hn ⊢
  split at hn
  · next hf =>
    rw [addType_new ⟨.leaf (.mod modId), .mod handles children index attr⟩ hf] at hn ⊢
    refine hn.get_of_has (?_ : TypePool.Has _ (.leaf (.mod modId)))
    exact ⟨_, List.mem_append_right _ List.mem_cons_self, rfl⟩
  · next id hf =>
    obtain ⟨obj, hobj, -⟩ := h.ids _ (mapFind_mem hf)
    refine ⟨{ obj with data := obj.data.reopen handles children attr },
      Option.bind_eq_some_iff.2 ⟨id, hf, ?_⟩⟩
    unfold TypePool.modifyData
    rw [List.getElem?_modify, hobj]
    exact congrArg some (if_pos rfl)

/-! ## Whole runs -/

theorem Named.foldl {α : Type*} {f : TypePool → α → TypePool} {xs : List α}
    (hf : ∀ p, ∀ x ∈ xs, Named p → Named (f p x)) (h : Named p) : Named (xs.foldl f p) := by
  induction xs generalizing p with
  | nil => exact h
  | cons x xs ih =>
    exact ih (fun q y hy => hf q y (List.mem_cons_of_mem _ hy)) (hf p x List.mem_cons_self h)

theorem wf_builtin {name : String} (h : name ∈ builtinTypeNames) :
    (Ty.leaf (.builtin name.toList)).WF := .leaf (List.mem_map_of_mem h)

theorem Named.initBuiltinType (h : Named p) {name : String} (hname : name ∈ builtinTypeNames) :
    Named (initBuiltinType env p name) :=
  (h.addType _ (wf_builtin hname)).registerHandles _ _

theorem Named.initDerivedErrorType (h : Named p) {name : String}
    (hname : name ∈ builtinTypeNames) : Named (initDerivedErrorType p name) :=
  h.addType _ (wf_builtin hname)

theorem Named.new (env : TypeEnv) : Named (new env) := by
  have hbase : Named (baseTypeNames.foldl (TypePool.initBuiltinType env) {}) :=
    Named.empty.foldl fun q name hname hq => hq.initBuiltinType (by simp [builtinTypeNames, hname])
  have hstring : (Ty.leaf (.builtin "String".toList)).WF := wf_builtin (by decide)
  have hint : (Ty.leaf (.builtin "Int".toList)).WF := wf_builtin (by decide)
  have hnothing : (Ty.leaf (.builtin "Nothing".toList)).WF := wf_builtin (by decide)
  have hone : ∀ {e : Ty}, e.WF → ∀ x ∈ [e], x.WF := fun he => List.forall_mem_singleton.2 he
  have h₁ := (hbase.createReifiedType env .array (hone hstring) nofun).1
  have h₂ := (h₁.createReifiedType env .array (hone hint) nofun).1
  have h₃ := (h₂.createReifiedType env .map
    (List.forall_mem_cons.2 ⟨hstring, hone hstring⟩) nofun).1
  have h₄ := (h₃.createReifiedType env .option (hone hnothing) nofun).1
  have herror : Named (errorTypeNames.foldl TypePool.initDerivedErrorType _) :=
    h₄.foldl fun q name hname hq => hq.initDerivedErrorType (by simp [builtinTypeNames, hname])
  exact herror.foldl fun q name hname hq => hq.initBuiltinType (by simp [builtinTypeNames, hname])

/-- A call that makes a type. The elements are types of the pool and a tuple has some; the names of
new types are identifiers. -/
inductive Create (env : TypeEnv) : TypePool → TypePool → Prop
  | reified {p : TypePool} {t : TypeTemplate} {es : List Ty} (hes : ∀ e ∈ es, p.Has e)
      (hne : t = .tuple → es ≠ []) : Create env p (createReifiedType env p t es).2
  | func {p : TypePool} {ret : Ty} {ps : List Ty} (hret : p.Has ret) (hps : ∀ e ∈ ps, p.Has e) :
      Create env p (p.createFuncType ret ps).2
  | error {p : TypePool} {name : Text} {sup : Ty} (modId : Nat) (hid : isIdentifier name = true) :
      Create env p (createErrorType env p name sup modId).2
  | record {p : TypePool} {name : Text} (modId : Nat) (cli : Bool) (hid : isIdentifier name = true) :
      Create env p (p.createRecordType name modId cli).2

/-- One call. -/
inductive Step (env : TypeEnv) : TypePool → TypePool → Prop
  | create {p q : TypePool} (h : Create env p q) : Step env p q
  | finalize {p : TypePool} (typeId : Nat) (cli : Bool) (fields : List (Text × Handle)) :
      Step env p (p.finalizeRecordType typeId cli fields)
  | mod {p : TypePool} (modId : Nat) (handles : List (Text × Handle)) (children : List Imported)
      (index attr : Nat) : Step env p (p.createModType modId handles children index attr).2
  | lookupMethod {p : TypePool} (ids : List Nat) (methodName : Text) :
      Step env p (p.lookupMethod ids methodName)
  | discard {p : TypePool} (typeIdOffset methodIdOffset : Nat) :
      Step env p (p.discard typeIdOffset methodIdOffset)

/-- The pools of whole runs. -/
inductive Reachable (env : TypeEnv) : TypePool → Prop
  | new : Reachable env (new env)
  | step {p q : TypePool} (h : Reachable env p) (hs : Step env p q) : Reachable env q

theorem Create.named {q : TypePool} (hs : Create env p q) (h : Named p) : Named q := by
  cases hs with
  | reified hes hne => exact (h.createReifiedType env _ (fun e he => h.wf_of_has (hes e he)) hne).1
  | func hret hps => exact (h.createFuncType (h.wf_of_has hret) fun e he => h.wf_of_has (hps e he)).1
  | error modId hid => exact (h.createErrorType hid _ modId).1
  | record modId cli hid => exact (h.newUserType hid modId _).1

theorem Step.named {q : TypePool} (hs : Step env p q) (h : Named p) : Named q := by
  cases hs with
  | create hc => exact hc.named h
  | finalize typeId cli fields => exact h.modifyData _ _
  | mod modId handles children index attr => exact h.createModType modId handles children index attr
  | lookupMethod ids methodName => exact h.lookupMethod ids methodName
  | discard typeIdOffset methodIdOffset => exact h.discard typeIdOffset methodIdOffset

theorem Reachable.named (h : Reachable env p) : Named p := by
  induction h with
  | new => exact Named.new env
  | step _ hs ih => exact hs.named ih

/-- Names tell the types of all pools apart, and a call that succeeds gives the type that it was
asked for. -/
theorem reachable_lookup (env : TypeEnv) :
    (∀ t u : Ty, t.WF → u.WF → t.name = u.name → t = u) ∧
    ∀ p, Reachable env p →
      (∀ obj ∈ p.typeTable, obj.ty.WF) ∧
      (∀ (t : Ty) (obj : TypeObj), t.WF → p.get t.name = some obj → obj.ty = t) ∧
      (∀ t es r, (∀ e ∈ es, p.Has e) → (t = .tuple → es ≠ []) →
        (createReifiedType env p t es).1 = .ok r → r.map TypeObj.ty = requested t es) ∧
      (∀ ret ps r, p.Has ret → (∀ e ∈ ps, p.Has e) →
        (p.createFuncType ret ps).1 = .ok r → r.map TypeObj.ty = some (.func ret ps)) ∧
      (∀ name sup modId r, isIdentifier name = true →
        (createErrorType env p name sup modId).1 = .ok r →
          ¬ p.Has (.leaf (.user modId name)) ∧
            r.map TypeObj.ty = some (.leaf (.user modId name))) ∧
      (∀ name modId cli r, isIdentifier name = true →
        (p.createRecordType name modId cli).1 = .ok r →
          ¬ p.Has (.leaf (.user modId name)) ∧
            r.map TypeObj.ty = some (.leaf (.user modId name))) := by
  refine ⟨fun t u ht hu => ht.name_inj hu, fun p hp => ?_⟩
  have h := hp.named
  refine ⟨h.wf, fun t obj ht => h.ty_of_get ht, ?_, ?_, ?_, ?_⟩
  · intro t es r hes hne hr
    exact (h.createReifiedType env _ (fun e he => h.wf_of_has (hes e he)) hne).2 r hr hes
  · intro ret ps r hret hps hr
    exact (h.createFuncType (h.wf_of_has hret) fun e he => h.wf_of_has (hps e he)).2 r hr
  · intro name sup modId r hid hr
    exact (h.createErrorType hid sup modId).2 r hr
  · intro name modId cli r hid hr
    exact (h.newUserType hid modId _).2 r hr

set_option maxRecDepth 20000 in
/-- A function type that returns an option type, and the option type of a function type. -/
theorem reachable_lookup_option :
    (Ty.func (.option (.leaf (.builtin "Int".toList))) []).name ≠
      (Ty.option (.func (.leaf (.builtin "Int".toList)) [])).name ∧
    ∃ obj, (createReifiedType ⟨fun _ _ _ => true, fun _ => false, fun _ => []⟩
        (new ⟨fun _ _ _ => true, fun _ => false, fun _ => []⟩) .array
        [.leaf (.builtin "String".toList)]).1 = .ok (some obj) ∧
      obj.ty = .array (.leaf (.builtin "String".toList)) := by
  have hint : (Ty.leaf (.builtin "Int".toList)).WF := wf_builtin (by decide)
  obtain ⟨hname, hpool⟩ := reachable_lookup ⟨fun _ _ _ => true, fun _ => false, fun _ => []⟩
  refine ⟨fun h => ?_, ?_⟩
  · have hnil : ∀ x ∈ ([] : List Ty), x.WF := fun x hx => absurd hx List.not_mem_nil
    have := hname _ _ (.func (.option rfl hint) hnil) (.option rfl (.func hint hnil)) h
    cases this
  · obtain ⟨-, -, hreified, -⟩ := hpool _ .new
    have hty := hreified .array [.leaf (.builtin "String".toList)] _
      (List.forall_mem_singleton.2 ⟨⟨.leaf (.builtin "String".toList), .none⟩,
        List.mem_iff_getElem?.2 ⟨11, rfl⟩, rfl⟩) nofun rfl
    obtain ⟨obj, hobj, hty⟩ := Option.map_eq_some_iff.1 hty
    exact ⟨obj, congrArg Except.ok hobj, hty⟩

end TypePool

end Arsh.Types
