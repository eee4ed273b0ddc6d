import Arsh.Types.Lookup

/-!
# Going back to an earlier pool

What a pool had at some time can be had back later (`Since`): types and names are added behind the
old ones with higher ids, and a handle of a method that was made since has a higher commit id. The
type of the root module is opened again in its place, and the data it had is gone.
-/

namespace Arsh.Types.TypePool

open Assoc

variable {env : TypeEnv} {p q : TypePool} {ty : Ty} {obj : TypeObj}

/-- Methods are those of types of the pool, and their handles were made before. -/
def Methods (p : TypePool) : Prop :=
  ∀ e ∈ p.methodMap, e.1.1 < p.typeTable.length ∧
    ∀ commitId index, e.2 = .handle commitId index → commitId < p.methodIdCount

/-- The type of the root module. -/
def rootMod : Ty := .leaf (.mod 1)

/-- `q` comes after `p`: if what is newer is taken away, `p` is left, but for the data of the root
module. -/
structure Since (p q : TypePool) : Prop where
  types : ∀ (i : Nat) (obj : TypeObj), p.typeTable[i]? = some obj →
    ∃ obj' : TypeObj, q.typeTable[i]? = some obj' ∧ obj'.ty = obj.ty ∧
      (obj.ty ≠ rootMod → obj' = obj)
  names : (q.nameMap.filter fun e => decide (e.2 < p.typeTable.length)) = p.nameMap
  methods : ((q.methodMap.filter fun e => decide (e.1.1 < p.typeTable.length)).map fun e =>
    (e.1, e.2.discard p.methodIdCount)) = p.methodMap
  size : p.typeTable.length ≤ q.typeTable.length
  count : p.methodIdCount ≤ q.methodIdCount

theorem Since.discard (h : Since p q) : q.discard p.typeTable.length p.methodIdCount =
    { p with typeTable := q.typeTable.take p.typeTable.length } := by
  unfold TypePool.discard
  rw [h.names, h.methods]

/-- The structures of the old types are still there. -/
theorem Since.map_take (h : Since p q) :
    (q.typeTable.take p.typeTable.length).map TypeObj.ty = p.typeTable.map TypeObj.ty := by
  refine List.ext_getElem? fun i => ?_
  rw [List.getElem?_map, List.getElem?_map]
  by_cases hi : i < p.typeTable.length
  · obtain ⟨obj', hobj', hty, -⟩ := h.types i _ (List.getElem?_eq_getElem hi)
    rw [List.getElem?_take_of_lt hi, hobj', List.getElem?_eq_getElem hi]
    exact congrArg some hty
  · have hle : p.typeTable.length ≤ i := Nat.le_of_not_lt hi
    rw [List.getElem?_eq_none hle, List.getElem?_take_eq_none hle]

/-- All old types are as they were if the one of the root module is. -/
theorem Since.take_eq_iff (h : Since p q) (hp : Named p) (hq : Named q) :
    q.typeTable.take p.typeTable.length = p.typeTable ↔
      ∀ obj, p.get rootMod.name = some obj → q.get rootMod.name = some obj := by
  constructor
  · intro heq obj hget
    obtain ⟨id, hid, hobj⟩ := Option.bind_eq_some_iff.1 hget
    have hlt : id < p.typeTable.length := (List.getElem?_eq_some_iff.1 hobj).1
    have hobj' : q.typeTable[id]? = some obj := by
      rw [← heq, List.getElem?_take_of_lt hlt] at hobj
      exact hobj
    have hname := hq.names id obj hobj'
    rw [(hp.wf_of_get hget).2] at hname
    exact Option.bind_eq_some_iff.2 ⟨id, hname, hobj'⟩
  · intro hroot
    refine List.ext_getElem? fun i => ?_
    by_cases hi : i < p.typeTable.length
    · have hobj := List.getElem?_eq_getElem hi
      obtain ⟨obj', hobj', hty, hsame⟩ := h.types i _ hobj
      rw [List.getElem?_take_of_lt hi, hobj', hobj]
      by_cases hmod : p.typeTable[i].ty = rootMod
      · have hname := hp.names i _ hobj
        have hname' := hq.names i _ hobj'
        rw [hmod] at hname hty
        rw [hty] at hname'
        have hget := hroot _ (Option.bind_eq_some_iff.2 ⟨i, hname, hobj⟩)
        obtain ⟨id, hid, hx⟩ := Option.bind_eq_some_iff.1 hget
        cases hname'.symm.trans hid
        exact hobj'.symm.trans hx
      · rw [hsame hmod]
    · have hle : p.typeTable.length ≤ i := Nat.le_of_not_lt hi
      rw [List.getElem?_eq_none hle, List.getElem?_take_eq_none hle]

theorem discard_of_lt {value : MethodValue} {n : Nat}
    (h : ∀ commitId index, value = .handle commitId index → commitId < n) :
    value.discard n = value := by
  cases value with
  | index i => rfl
  | handle c i =>
    have := h c i rfl
    exact if_neg (by omega)

theorem Since.refl (hn : Named p) (hm : Methods p) : Since p p where
  types i obj hobj := ⟨obj, hobj, rfl, fun _ => rfl⟩
  names := by
    apply List.filter_eq_self.2
    intro e he
    obtain ⟨obj, hobj, -⟩ := hn.ids e he
    exact decide_eq_true (List.getElem?_eq_some_iff.1 hobj).1
  methods := by
    have hfilter : (p.methodMap.filter fun e => decide (e.1.1 < p.typeTable.length)) = p.methodMap :=
      List.filter_eq_self.2 fun e he => decide_eq_true (hm e he).1
    rw [hfilter]
    refine (List.map_congr_left fun e he => ?_).trans (List.map_id' _)
    rw [discard_of_lt (hm e he).2]
  size := Nat.le_refl _
  count := Nat.le_refl _

/-! ## New types -/

theorem addType_tables (p : TypePool) (obj : TypeObj) :
    ∃ types names, (p.addType obj).2.typeTable = p.typeTable ++ types ∧
      (p.addType obj).2.nameMap = p.nameMap ++ names ∧
      (∀ x ∈ types, x = obj) ∧ (∀ e ∈ names, e.2 = p.typeTable.length) ∧
      (p.addType obj).2.methodMap = p.methodMap ∧
      (p.addType obj).2.methodIdCount = p.methodIdCount := by
  cases hf : mapFind p.nameMap obj.ty.name with
  | some id =>
    rw [addType_old obj hf]
    exact ⟨[], [], by simp, by simp, by simp, by simp, rfl, rfl⟩
  | none =>
    rw [addType_new obj hf]
    exact ⟨[obj], [_], rfl, rfl, by simp, by simp, rfl, rfl⟩

theorem Since.addType (h : Since p q) (obj : TypeObj) : Since p (q.addType obj).2 := by
  obtain ⟨types, names, htypes, hnames, -, hids, hmethods, hcount⟩ := addType_tables q obj
  have hsize := h.size
  refine ⟨?_, ?_, ?_, ?_, ?_⟩
  · intro i x hx
    obtain ⟨x', hx', hsame⟩ := h.types i x hx
    refine ⟨x', ?_, hsame⟩
    rw [htypes, List.getElem?_append_left (List.getElem?_eq_some_iff.1 hx').1]
    exact hx'
  · have hnew : (names.filter fun e => decide (e.2 < p.typeTable.length)) = [] := by
      apply List.filter_eq_nil_iff.2
      intro e he
      rw [hids e he]
      simpa using hsize
    rw [hnames, List.filter_append, hnew, List.append_nil]
    exact h.names
  · rw [hmethods]
    exact h.methods
  · rw [htypes, List.length_append]
    omega
  · rw [hcount]
    exact h.count

theorem Methods.addType (h : Methods p) (obj : TypeObj) : Methods (p.addType obj).2 := by
  obtain ⟨types, names, htypes, -, -, -, hmethods, hcount⟩ := addType_tables p obj
  intro e he
  rw [hmethods] at he
  rw [hcount, htypes, List.length_append]
  exact ⟨Nat.lt_of_lt_of_le (h e he).1 (Nat.le_add_right _ _), (h e he).2⟩

/-- New methods are behind the old ones. -/
theorem registerHandles_methodMap (p : TypePool) (methods : List (Text × Nat)) (id : Nat) :
    ∃ new, (p.registerHandles methods id).methodMap = p.methodMap ++ new ∧
      ∀ e ∈ new, e.1.1 = id ∧ ∃ i, e.2 = .index i := by
  suffices ∀ m : List ((Nat × Text) × MethodValue), ∃ new,
      methods.foldl (fun m e => (emplace m (id, e.1) (.index e.2)).2) m = m ++ new ∧
        ∀ e ∈ new, e.1.1 = id ∧ ∃ i, e.2 = .index i from this p.methodMap
  induction methods with
  | nil => exact fun m => ⟨[], by simp, by simp⟩
  | cons x methods ih =>
    intro m
    rw [List.foldl_cons]
    cases hf : mapFind m (id, x.1) with
    | some v =>
      rw [emplace_of_some hf]
      exact ih m
    | none =>
      rw [emplace_of_none hf]
      obtain ⟨new, hnew, hids⟩ := ih (m ++ [((id, x.1), .index x.2)])
      refine ⟨((id, x.1), .index x.2) :: new, by simp [hnew], ?_⟩
      exact List.forall_mem_cons.2 ⟨⟨rfl, x.2, rfl⟩, hids⟩

theorem Since.registerHandles (h : Since p q) (methods : List (Text × Nat)) {id : Nat}
    (hid : p.typeTable.length ≤ id) : Since p (q.registerHandles methods id) := by
  obtain ⟨new, hnew, hids⟩ := registerHandles_methodMap q methods id
  refine ⟨h.types, h.names, ?_, h.size, h.count⟩
  have hnone : (new.filter fun e => decide (e.1.1 < p.typeTable.length)) = [] := by
    apply List.filter_eq_nil_iff.2
    intro e he
    rw [(hids e he).1]
    simpa using hid
  rw [hnew, List.filter_append, hnone, List.append_nil]
  exact h.methods

theorem Methods.registerHandles (h : Methods p) (methods : List (Text × Nat)) {id : Nat}
    (hid : id < p.typeTable.length) : Methods (p.registerHandles methods id) := by
  obtain ⟨new, hnew, hids⟩ := registerHandles_methodMap p methods id
  intro e he
  rw [hnew] at he
  rcases List.mem_append.1 he with he | he
  · exact h e he
  · obtain ⟨hid', i, hi⟩ := hids e he
    refine ⟨by rw [hid']; exact hid, fun commitId index hc => ?_⟩
    rw [hi] at hc
    cases hc

/-- Neither a builtin type nor a module. -/
def IsNew (ty : Ty) : Prop := ∀ l, ty = .leaf l → ∃ modId name, l = .user modId name

/-- What a call that makes a type does: at most one type is added, with its methods. -/
inductive Adds (p : TypePool) : TypePool → Prop
  | none : Adds p p
  | type (obj : TypeObj) (h : IsNew obj.ty) : Adds p (p.addType obj).2
  | builtin (obj : TypeObj) (h : IsNew obj.ty)
      (hf : mapFind p.nameMap obj.ty.name = Option.none) (methods : List (Text × Nat)) :
      Adds p ((p.addType obj).2.registerHandles methods p.typeTable.length)

theorem adds_getOrNew (p : TypePool) (h : IsNew ty) : Adds p (p.getOrNew ty).2 := by
  unfold TypePool.getOrNew
  split
  · exact .none
  · exact .type ⟨ty, .none⟩ h

theorem adds_getOrNewBuiltin (hn : Named p) (h : IsNew ty) :
    Adds p (getOrNewBuiltin env p ty).2 := by
  unfold TypePool.getOrNewBuiltin
  split
  · exact .none
  · next hnone => exact .builtin ⟨ty, .none⟩ h (hn.mapFind_of_get hnone) _

theorem adds_newUserType (p : TypePool) (name : Text) (modId : Nat) (data : TypeData) :
    Adds p (p.newUserType name modId data).2 := by
  have hnew : IsNew (.leaf (.user modId name)) := fun l hl => ⟨modId, name, (Ty.leaf.inj hl).symm⟩
  have hadds : Adds p (p.addType ⟨.leaf (.user modId name), data⟩).2 := .type _ hnew
  unfold TypePool.newUserType
  split
  · next heq =>
    rw [heq] at hadds
    exact hadds
  · next heq =>
    rw [heq] at hadds
    exact hadds

theorem adds_createOptionType (p : TypePool) (es : List Ty) : Adds p (p.createOptionType es).2 := by
  unfold TypePool.createOptionType
  split
  · split
    · exact .none
    · split
      · exact .none
      · exact adds_getOrNew p nofun
  · exact .none

theorem adds_createTupleType (p : TypePool) (es : List Ty) : Adds p (p.createTupleType es).2 := by
  unfold TypePool.createTupleType
  split
  · exact .none
  · exact adds_getOrNew p nofun

theorem adds_createFuncType (p : TypePool) (ret : Ty) (ps : List Ty) :
    Adds p (p.createFuncType ret ps).2 := by
  unfold TypePool.createFuncType
  split
  · exact .none
  · exact adds_getOrNew p nofun

theorem adds_createReifiedType (hn : Named p) (t : TypeTemplate) (es : List Ty) :
    Adds p (createReifiedType env p t es).2 := by
  unfold TypePool.createReifiedType
  split
  · exact adds_createTupleType p es
  · exact adds_createOptionType p es
  · split
    · exact .none
    · split
      · exact adds_getOrNewBuiltin hn nofun
      · exact adds_getOrNewBuiltin hn nofun
      · exact .none

theorem Create.adds (hc : Create env p q) (hn : Named p) : Adds p q := by
  cases hc with
  | reified _ _ => exact adds_createReifiedType hn _ _
  | func _ _ => exact adds_createFuncType p _ _
  | error modId _ =>
    unfold TypePool.createErrorType
    split
    · exact adds_newUserType p _ modId _
    · exact .none
  | record modId cli _ => exact adds_newUserType p _ modId _

theorem Since.adds {r : TypePool} (h : Since p q) (ha : Adds q r) : Since p r := by
  cases ha with
  | none => exact h
  | type obj _ => exact h.addType obj
  | builtin obj _ _ methods => exact (h.addType obj).registerHandles methods h.size

theorem Methods.adds (h : Methods p) (ha : Adds p q) : Methods q := by
  cases ha with
  | none => exact h
  | type obj _ => exact h.addType obj
  | builtin obj _ hf methods =>
    apply (h.addType obj).registerHandles methods
    rw [addType_new obj hf, List.length_append]
    exact Nat.lt_succ_self _

/-- No new module, and no new builtin type. -/
theorem Adds.old (ha : Adds p q) (hobj : obj ∈ q.typeTable) (hold : ¬ IsNew obj.ty) :
    obj ∈ p.typeTable := by
  have hadd : ∀ x : TypeObj, IsNew x.ty → obj ∈ (p.addType x).2.typeTable → obj ∈ p.typeTable := by
    intro x hx hmem
    obtain ⟨types, names, htypes, -, hall, -⟩ := addType_tables p x
    rw [htypes] at hmem
    rcases List.mem_append.1 hmem with hmem | hmem
    · exact hmem
    · rw [hall obj hmem] at hold
      exact absurd hx hold
  cases ha with
  | none => exact hobj
  | type x hx => exact hadd x hx hobj
  | builtin x hx _ methods => exact hadd x hx hobj

theorem not_isNew_mod {m : Nat} : ¬ IsNew (.leaf (.mod m)) := by
  intro h
  obtain ⟨_, _, hl⟩ := h _ rfl
  cases hl

theorem not_isNew_builtin {n : Text} : ¬ IsNew (.leaf (.builtin n)) := by
  intro h
  obtain ⟨_, _, hl⟩ := h _ rfl
  cases hl

/-! ## Data and handles of methods -/

/-- The data of a new type, or of the root module. -/
theorem Since.modifyData (h : Since p q) {typeId : Nat}
    (hid : ∀ x, p.typeTable[typeId]? = some x → x.ty = rootMod) (f : TypeData → TypeData) :
    Since p (q.modifyData typeId f) := by
  refine ⟨fun i x hx => ?_, h.names, h.methods, ?_, h.count⟩
  · obtain ⟨x', hx', hty, hsame⟩ := h.types i x hx
    unfold TypePool.modifyData
    rw [List.getElem?_modify, hx']
    by_cases hi : typeId = i
    · subst hi
      exact ⟨_, congrArg some (if_pos rfl), hty, fun hne => absurd (hid x hx) hne⟩
    · exact ⟨x', congrArg some (if_neg hi), hty, hsame⟩
  · unfold TypePool.modifyData
    rw [List.length_modify]
    exact h.size

theorem Methods.modifyData (h : Methods p) (typeId : Nat) (f : TypeData → TypeData) :
    Methods (p.modifyData typeId f) := by
  intro e he
  unfold TypePool.modifyData
  rw [List.length_modify]
  exact h e he

/-- Only the data of a type has changed. -/
theorem mem_modifyData {typeId : Nat} {f : TypeData → TypeData}
    (h : obj ∈ (p.modifyData typeId f).typeTable) :
    ∃ x ∈ p.typeTable, x.ty = obj.ty := by
  obtain ⟨i, hi⟩ := List.mem_iff_getElem?.1 h
  unfold TypePool.modifyData at hi
  rw [List.getElem?_modify] at hi
  obtain ⟨x, hx, heq⟩ := Option.map_eq_some_iff.1 hi
  refine ⟨x, List.mem_of_getElem? hx, ?_⟩
  rw [← heq]
  split <;> rfl

theorem discard_alloc {value : MethodValue} {n c : Nat} (h : n ≤ c) :
    (value.alloc c).discard n = value.discard n := by
  cases value with
  | index i => exact if_pos h
  | handle c i => rfl

theorem Since.lookupMethod (h : Since p q) (ids : List Nat) (methodName : Text) :
    Since p (q.lookupMethod ids methodName) := by
  unfold TypePool.lookupMethod
  split
  · next id _ =>
    unfold instantiate
    split
    · refine ⟨h.types, h.names, ?_, h.size, Nat.le_succ_of_le h.count⟩
      rw [← h.methods, List.filter_map, List.map_map]
      apply List.map_congr_left
      intro e _
      dsimp only [Function.comp]
      split
      · rw [discard_alloc h.count]
      · rfl
    · exact h
  · exact h

theorem Methods.lookupMethod (h : Methods p) (ids : List Nat) (methodName : Text) :
    Methods (p.lookupMethod ids methodName) := by
  unfold TypePool.lookupMethod
  split
  · unfold instantiate
    split
    · intro e he
      obtain ⟨e', he', rfl⟩ := List.mem_map.1 he
      refine ⟨(h e' he').1, fun commitId index hc => ?_⟩
      have hold := (h e' he').2
      dsimp only at hc ⊢
      split at hc
      · cases hv : e'.2 with
        | index i =>
          rw [hv] at hc
          cases hc
          exact Nat.lt_succ_self _
        | handle c i =>
          rw [hv] at hc
          cases hc
          exact Nat.lt_succ_of_lt (hold _ _ hv)
      · exact Nat.lt_succ_of_lt (hold _ _ hc)
    · exact h
  · exact h

/-! ## The first pool -/

/-- A pool with no builtin types but those with the names. -/
structure Builtin (names : List Text) (p : TypePool) : Prop where
  named : Named p
  methods : Methods p
  only : ∀ obj ∈ p.typeTable, (∀ m, obj.ty ≠ .leaf (.mod m)) ∧
    ∀ n, obj.ty = .leaf (.builtin n) → n ∈ names

theorem Builtin.empty : Builtin [] {} := ⟨Named.empty, nofun, nofun⟩

theorem Builtin.reified (env : TypeEnv) {names : List Text} (h : Builtin names p) (t : TypeTemplate) {es : List Ty}
    (hwf : ∀ e ∈ es, e.WF) (hne : t = .tuple → es ≠ []) :
    Builtin names (createReifiedType env p t es).2 := by
  have hadds : Adds p (createReifiedType env p t es).2 := adds_createReifiedType h.named t es
  refine ⟨(h.named.createReifiedType env t hwf hne).1, h.methods.adds hadds, ?_⟩
  intro obj hobj
  constructor
  · intro m hm
    have hold := hadds.old hobj (by rw [hm]; exact not_isNew_mod)
    exact (h.only obj hold).1 m hm
  · intro n hn
    have hold := hadds.old hobj (by rw [hn]; exact not_isNew_builtin)
    exact (h.only obj hold).2 n hn

/-- A builtin type with a new name, before its methods. -/
theorem Builtin.addType {names : List Text} {name : String} (h : Builtin names p)
    (hb : name ∈ builtinTypeNames) (hnew : name.toList ∉ names) (data : TypeData) :
    Builtin (names ++ [name.toList]) (p.addType ⟨.leaf (.builtin name.toList), data⟩).2 ∧
      p.typeTable.length <
        (p.addType ⟨.leaf (.builtin name.toList), data⟩).2.typeTable.length := by
  have hnone : mapFind p.nameMap (Ty.leaf (.builtin name.toList)).name = none := by
    cases hf : mapFind p.nameMap (Ty.leaf (.builtin name.toList)).name with
    | none => rfl
    | some id =>
      obtain ⟨obj, hobj, hname⟩ := h.named.ids _ (mapFind_mem hf)
      have hmem := List.mem_of_getElem? hobj
      have hty := (h.named.wf obj hmem).name_inj (wf_builtin hb) hname
      exact absurd ((h.only obj hmem).2 _ hty) hnew
  refine ⟨⟨h.named.addType _ (wf_builtin hb), h.methods.addType _, ?_⟩, ?_⟩
  · rw [addType_new ⟨_, data⟩ hnone]
    intro obj hobj
    rcases List.mem_append.1 hobj with hobj | hobj
    · refine ⟨(h.only obj hobj).1, fun n hn => ?_⟩
      exact List.mem_append_left _ ((h.only obj hobj).2 n hn)
    · rw [List.mem_singleton.1 hobj]
      refine ⟨nofun, fun n hn => ?_⟩
      cases hn
      exact List.mem_append_right _ List.mem_cons_self
  · rw [addType_new ⟨_, data⟩ hnone, List.length_append]
    exact Nat.lt_succ_self _

theorem Builtin.initBuiltinType {names : List Text} {name : String} (h : Builtin names p)
    (hb : name ∈ builtinTypeNames) (hnew : name.toList ∉ names) :
    Builtin (names ++ [name.toList]) (initBuiltinType env p name) := by
  obtain ⟨h', hlt⟩ := h.addType hb hnew .none
  exact ⟨h'.named.registerHandles _ _, h'.methods.registerHandles _ hlt, h'.only⟩

theorem Builtin.initDerivedErrorType {names : List Text} {name : String} (h : Builtin names p)
    (hb : name ∈ builtinTypeNames) (hnew : name.toList ∉ names) :
    Builtin (names ++ [name.toList]) (initDerivedErrorType p name) := (h.addType hb hnew _).1

theorem Builtin.foldl {f : TypePool → String → TypePool}
    (hf : ∀ p names name, Builtin names p → name ∈ builtinTypeNames → name.toList ∉ names →
      Builtin (names ++ [name.toList]) (f p name)) :
    ∀ (xs : List String) (names : List Text) (p : TypePool), (∀ x ∈ xs, x ∈ builtinTypeNames) →
      (names ++ xs.map String.toList).Nodup → Builtin names p →
      Builtin (names ++ xs.map String.toList) (xs.foldl f p) := by
  intro xs
  induction xs with
  | nil =>
    intro names p _ _ h
    rw [List.map_nil, List.append_nil]
    exact h
  | cons x xs ih =>
    intro names p hb hnodup h
    rw [List.map_cons, List.append_cons] at hnodup ⊢
    have hx : x.toList ∉ names := by
      have hleft := (List.nodup_append.1 hnodup).1
      intro hmem
      exact (List.nodup_append.1 hleft).2.2 _ hmem _ List.mem_cons_self rfl
    have hb' := List.forall_mem_cons.1 hb
    exact ih _ _ hb'.2 hnodup (hf p names x h hb'.1 hx)

/-- The names of all builtin types are different. -/
theorem nodup_builtinTypeNames :
    ((baseTypeNames ++ errorTypeNames ++ exitTypeNames).map String.toList).Nodup := by decide

theorem Builtin.new (env : TypeEnv) : ∃ names, Builtin names (new env) := by
  have hnodup := nodup_builtinTypeNames
  rw [List.map_append, List.map_append] at hnodup
  have hleft := (List.nodup_append.1 hnodup).1
  have hbase : Builtin ([] ++ baseTypeNames.map String.toList)
      (baseTypeNames.foldl (TypePool.initBuiltinType env) {}) := by
    refine Builtin.foldl (fun _ _ _ h hb hnew => h.initBuiltinType hb hnew) _ _ _ ?_ ?_
      Builtin.empty
    · exact fun x hx => by simp [builtinTypeNames, hx]
    · exact (List.nodup_append.1 hleft).1
  rw [List.nil_append] at hbase
  have hstring : (Ty.leaf (.builtin "String".toList)).WF := wf_builtin (by decide)
  have hint : (Ty.leaf (.builtin "Int".toList)).WF := wf_builtin (by decide)
  have hnothing : (Ty.leaf (.builtin "Nothing".toList)).WF := wf_builtin (by decide)
  have hone : ∀ {e : Ty}, e.WF → ∀ x ∈ [e], x.WF := fun he => List.forall_mem_singleton.2 he
  have h₁ : Builtin _ _ := hbase.reified env .array (hone hstring) (by simp)
  have h₂ := h₁.reified env .array (hone hint) (by simp)
  have h₃ := h₂.reified env .map (List.forall_mem_cons.2 ⟨hstring, hone hstring⟩) (by simp)
  have h₄ := h₃.reified env .option (hone hnothing) (by simp)
  have herror := Builtin.foldl (fun _ _ _ h hb hnew => h.initDerivedErrorType hb hnew)
    errorTypeNames _ _ (fun x hx => by simp [builtinTypeNames, hx]) hleft h₄
  have hexit : Builtin _ (exitTypeNames.foldl (TypePool.initBuiltinType env) _) :=
    Builtin.foldl (fun _ _ _ h hb hnew => h.initBuiltinType hb hnew) exitTypeNames _ _
      (fun x hx => by simp [builtinTypeNames, hx]) hnodup herror
  exact ⟨_, hexit⟩

end Arsh.Types.TypePool
