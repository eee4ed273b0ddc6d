import Arsh.Types.CommonSuper
import Arsh.Types.Discard

/-!
# The super types of a pool

The types of `TypePool` with what each has stored: its super type and, for a tuple or a record, its
depth. An array or a map has the super type that its elements call for, a tuple the one that is
common to its elements, and a record is below `Any` until it is finalized. Elements are accepted,
and error types derived, by the relation that the super types stored so far give.
-/

namespace Arsh.Types

open Assoc

/-- `superType` and `meta.recordTypeAttr.depth`, which is 0 for what is not a record. -/
structure TypeAttr where
  superType : Option Ty := none
  depth : Nat := 0

/-- A pool and what its types have stored, in the order of the table. -/
structure TypeState where
  pool : TypePool
  attrs : List TypeAttr

/-- `SYS_LIMIT_RECORD_TYPE_FIELD_DEPTH`. -/
def recordTypeFieldDepthLimit : Nat := 128

/-- The limit of `depth_t`. -/
def depthMax : Nat := 65535

def setDepth (depth : Nat) : Nat := min depthMax depth

/-- Why a record is not finalized. -/
inductive RecordError where
  | invalidElement (name : Text)
  | elementLimit
  deriving DecidableEq, Repr

/-! ## The builtin types -/

/-- The builtin types in the order of the constructor, with their super types. -/
def builtinTypes : List (Ty × Option Ty) :=
  let base : List (String × Option String) :=
    [("<unresolved>", none), ("process guard%%", none), ("Any", some "process guard%%"),
      ("Void", none), ("Nothing", none), ("%Eq_", some "Any"), ("%Ord_", some "%Eq_"),
      ("%Value_", some "%Ord_"), ("Int", some "%Value_"), ("Float", some "%Value_"),
      ("Bool", some "%Value_"), ("String", some "%Value_"), ("Regex", some "Any"),
      ("RegexMatch", some "Any"), ("Signal", some "%Value_"), ("Signals", some "Any"),
      ("Throwable", some "Any"), ("Error", some "Throwable"), ("Job", some "Any"),
      ("Jobs", some "Any"), ("Module", some "Any"), ("%StringIter", some "Any"),
      ("FD", some "Any"), ("ProcSubst", some "FD"), ("Reader", some "Any"),
      ("Command", some "%Eq_"), ("LineEditor", some "Any"), ("CLI", some "Any"),
      ("Candidates", some "Any"), ("UnicodeData", some "Any")]
  let builtin (e : String × Option String) : Ty × Option Ty := (.builtin e.1, e.2.map .builtin)
  base.map builtin ++
    [(.array (.builtin "String"), some (.builtin "%Ord_")),
      (.array (.builtin "Int"), some (.builtin "%Ord_")),
      (.map (.builtin "String") (.builtin "String"), some (.builtin "%Ord_")),
      (optNothing, none)] ++
    errorTypeNames.map (fun name => (.builtin name, some (.builtin "Error"))) ++
    exitTypeNames.map fun name => (.builtin name, some (.builtin "Throwable"))

/-- The id of `Eq_`. -/
def eqTypeId : Nat := 5

namespace TypeState

/-- The pool of the constructor. Its own element types are acceptable. -/
def new (nativeMethods : Ty → List (Text × Nat)) : TypeState where
  pool := TypePool.new ⟨fun _ _ _ => true, fun _ => true, nativeMethods⟩
  attrs := builtinTypes.map fun e => { superType := e.2 }

section
variable (s : TypeState)

/-! ## The relation of a pool -/

def typeId (t : Ty) : Nat := (mapFind s.pool.nameMap t.name).getD 0

def attrOf (t : Ty) : Option TypeAttr := do
  let id ← mapFind s.pool.nameMap t.name
  s.attrs[id]?

/-- `getSuperType`. -/
def superOf : Ty → Option Ty
  | .func _ _ => some (.builtin "%Eq_")
  | .option _ => none
  | t => (s.attrOf t).bind TypeAttr.superType

/-- Super types have smaller ids, for a function type `Eq_`. -/
def height : Ty → Nat
  | .func _ _ => eqTypeId + 1
  | t => s.typeId t

/-- `isSameOrBaseTypeOf`, with fuel that is enough. -/
def same (t u : Ty) : Bool :=
  isSameOrBaseTypeOf s.superOf (need s.height (s.pool.typeTable.length + eqTypeId + 1) t u + 1) t u

/-- The check of `checkElementTypes` against an acceptable type. -/
def acceptsElement (acceptType elementType : Ty) : Bool :=
  (s.same acceptType elementType && !elementType.isNothingType) ||
    (acceptType.isBuiltin "Any" && elementType.isOptionType)

/-- The acceptable type of an element of an array or a map. -/
def acceptType : TypeTemplate → Nat → Ty
  | .map, 0 => .builtin "%Value_"
  | _, _ => .builtin "Any"

/-- What the calls of the pool take from the relation. -/
def env (nativeMethods : Ty → List (Text × Nat)) : TypeEnv where
  accepts t i e := s.acceptsElement (acceptType t i) e
  isError := s.same (.builtin "Error")
  nativeMethods := nativeMethods

/-! ## Super types of new types -/

def resolveCollectionSuperType (elementType : Ty) (allowValueType : Bool) : Ty :=
  let type := elementType.strip
  if s.same (.builtin "%Eq_") type then
    if s.same (.builtin "%Ord_") type then
      if allowValueType && s.same (.builtin "%Value_") type then .builtin "%Value_"
      else .builtin "%Ord_"
    else .builtin "%Eq_"
  else .builtin "Any"

/-- The pool after a call, with the attributes of the type that is new. -/
def withPool (pool : TypePool) (attr : TypeAttr) : TypeState where
  pool := pool
  attrs := if s.pool.typeTable.length < pool.typeTable.length then s.attrs ++ [attr] else s.attrs

def createOptionType (elementTypes : List Ty) :
    Except TypeLookupError (Option TypeObj) × TypeState :=
  let (type, pool) := s.pool.createOptionType elementTypes
  (type, s.withPool pool {})

def resolveCommonSuperType (types : List Ty) : Option Ty × TypeState :=
  let hasOptNothing := types.any fun t => t = optNothing
  let sorted := sortTypes s.same s.typeId types
  match frontType s.same sorted with
  | some type =>
    if hasOptNothing then
      if type.isVoidType || type.isOptionType then (some type, s)
      else
        match s.createOptionType [type] with
        | (.ok ret, s) => (ret.map TypeObj.ty, s)
        | (.error _, s) => (none, s)
    else (some type, s)
  | none => (if hasOptNothing && sorted.isEmpty then some optNothing else none, s)

/-- The depth of a tuple or a record with fields of the types. What is not a record has the
depth 0. -/
def recordDepth (types : List Ty) : Nat :=
  types.foldl (fun depth e => max depth ((s.attrOf e.strip).elim 0 TypeAttr.depth + 1)) 1

/-- The common super type of fields. None of theirs is `Nothing?`, so that no type is made. -/
def fieldsSuperType (superTypes : List Ty) (depth : Nat) : Option Ty :=
  let limit := if depth < recordTypeFieldDepthLimit then Ty.builtin "%Value_" else .builtin "%Ord_"
  (s.resolveCommonSuperType (superTypes ++ [limit])).1

/-- The attributes of a tuple. -/
def tupleAttr (elementTypes : List Ty) : TypeAttr :=
  let depth := s.recordDepth elementTypes
  let superTypes := elementTypes.map fun e => s.resolveCollectionSuperType e true
  { superType := s.fieldsSuperType superTypes depth, depth := setDepth depth }

/-- The attributes of the type that a template makes. -/
def reifiedAttr : TypeTemplate → List Ty → TypeAttr
  | .array, [e] => { superType := some (s.resolveCollectionSuperType e false) }
  | .map, [_, v] => { superType := some (s.resolveCollectionSuperType v false) }
  | .tuple, es => s.tupleAttr es
  | _, _ => {}

def createReifiedType (nativeMethods : Ty → List (Text × Nat)) (typeTemplate : TypeTemplate)
    (elementTypes : List Ty) : Except TypeLookupError (Option TypeObj) × TypeState :=
  let (type, pool) :=
    TypePool.createReifiedType (s.env nativeMethods) s.pool typeTemplate elementTypes
  (type, s.withPool pool (s.reifiedAttr typeTemplate elementTypes))

def createFuncType (returnType : Ty) (paramTypes : List Ty) :
    Except TypeLookupError (Option TypeObj) × TypeState :=
  let (type, pool) := s.pool.createFuncType returnType paramTypes
  (type, s.withPool pool { superType := some (.builtin "%Eq_") })

def createErrorType (nativeMethods : Ty → List (Text × Nat)) (typeName : Text) (superType : Ty)
    (belongedModId : Nat) : Except TypeLookupError (Option TypeObj) × TypeState :=
  let (type, pool) :=
    TypePool.createErrorType (s.env nativeMethods) s.pool typeName superType belongedModId
  (type, s.withPool pool { superType := some superType })

/-- `createRecordType` and `createCLIRecordType`. -/
def createRecordType (typeName : Text) (belongedModId : Nat) (cli : Bool) :
    Except TypeLookupError (Option TypeObj) × TypeState :=
  let (type, pool) := s.pool.createRecordType typeName belongedModId cli
  (type, s.withPool pool { superType := some (.builtin (if cli then "CLI" else "Any")) })

/-- The fields of a record, which are neither methods nor type aliases, with their types. -/
def fieldTypes (handles : List (Text × Handle)) : List (Handle × Ty) :=
  handles.filterMap fun e =>
    if e.2.isMethodHandle || e.2.kind == .typeAlias then none
    else s.pool.typeTable[e.2.typeId]?.map fun obj => (e.2, obj.ty)

/-- `finalizeRecordType`, for the record with the id. It has a name that a script has given it; a
normal record has been below `Any`. -/
def finalizeRecordType (typeId : Nat) (handles : List (Text × Handle)) :
    Except RecordError TypeState :=
  match s.pool.typeTable[typeId]?, s.attrs[typeId]? with
  | some ⟨.leaf (.user _ _), .record cli none⟩, some attr =>
    let fields := s.fieldTypes handles
    match fields.find? fun e => e.2.isVoidType || e.2.isNothingType || e.2.isUnresolved with
    | some e => .error (.invalidElement e.2.name)
    | none =>
      if fields.length > tupleNumLimit then .error .elementLimit
      else
        let depth := s.recordDepth (fields.map Prod.snd)
        let superTypes := fields.map fun e => s.resolveCollectionSuperType e.2 e.1.attr.readOnly
        let superType :=
          if attr.superType = some (.builtin "Any") then s.fieldsSuperType superTypes depth
          else attr.superType
        .ok {
          pool := s.pool.finalizeRecordType typeId cli handles
          attrs := s.attrs.set typeId { superType := superType, depth := setDepth depth } }
  | _, _ => .ok s

def createModType (modId : Nat) (handles : List (Text × Handle)) (children : List Imported)
    (index attr : Nat) : Option Nat × TypeState :=
  let (id, pool) := s.pool.createModType modId handles children index attr
  (id, s.withPool pool { superType := some (.builtin "Module") })

def lookupMethod (ids : List Nat) (methodName : Text) : TypeState :=
  { s with pool := s.pool.lookupMethod ids methodName }

def discard (typeIdOffset methodIdOffset : Nat) : TypeState where
  pool := s.pool.discard typeIdOffset methodIdOffset
  attrs := s.attrs.take typeIdOffset

end

/-- One call. The elements are types of the pool, and so are the super types of error types, for
which `P` says more. What the constructor has made is never discarded. -/
inductive Step (nativeMethods : Ty → List (Text × Nat)) (P : Ty → Prop) :
    TypeState → TypeState → Prop
  | reified {s : TypeState} {t : TypeTemplate} {es : List Ty} (hes : ∀ e ∈ es, s.pool.Has e)
      (hne : t = .tuple → es ≠ []) : Step nativeMethods P s (s.createReifiedType nativeMethods t es).2
  | func {s : TypeState} {ret : Ty} {ps : List Ty} (hret : s.pool.Has ret)
      (hps : ∀ e ∈ ps, s.pool.Has e) : Step nativeMethods P s (s.createFuncType ret ps).2
  | error {s : TypeState} {name : Text} {superType : Ty} (modId : Nat)
      (hid : isIdentifier name = true) (hsup : s.pool.Has superType) (hP : P superType) :
      Step nativeMethods P s (s.createErrorType nativeMethods name superType modId).2
  | record {s : TypeState} {name : Text} (modId : Nat) (cli : Bool)
      (hid : isIdentifier name = true) : Step nativeMethods P s (s.createRecordType name modId cli).2
  | finalize {s s' : TypeState} {typeId : Nat} {handles : List (Text × Handle)}
      (h : s.finalizeRecordType typeId handles = .ok s') : Step nativeMethods P s s'
  | mod {s : TypeState} (modId : Nat) (handles : List (Text × Handle)) (children : List Imported)
      (index attr : Nat) :
      Step nativeMethods P s (s.createModType modId handles children index attr).2
  | lookupMethod {s : TypeState} (ids : List Nat) (methodName : Text) :
      Step nativeMethods P s (s.lookupMethod ids methodName)
  | commonSuperType {s : TypeState} {types : List Ty} (h : ∀ t ∈ types, s.pool.Has t) :
      Step nativeMethods P s (s.resolveCommonSuperType types).2
  | discard {s : TypeState} {typeIdOffset : Nat} (methodIdOffset : Nat)
      (h : builtinTypes.length ≤ typeIdOffset) :
      Step nativeMethods P s (s.discard typeIdOffset methodIdOffset)

/-- The states of whole runs. -/
inductive Reachable (nativeMethods : Ty → List (Text × Nat)) (P : Ty → Prop) : TypeState → Prop
  | new : Reachable nativeMethods P (new nativeMethods)
  | step {s s' : TypeState} (h : Reachable nativeMethods P s) (hs : Step nativeMethods P s s') :
      Reachable nativeMethods P s'

variable {nativeMethods : Ty → List (Text × Nat)} {P : Ty → Prop} {s s' : TypeState} {t u v : Ty}

/-! ## The invariant -/

/-- The super types that elements and fields call for. -/
def collectionTypes : List Ty :=
  [.builtin "Any", .builtin "%Eq_", .builtin "%Ord_", .builtin "%Value_"]

/-- A type made of others. -/
def IsCollection : Ty → Prop
  | .leaf _ => False
  | _ => True

/-- A super type has a name of its own and is one of the types. -/
structure SuperOk (types : List Ty) (t : Ty) (superType : Option Ty) : Prop where
  leaf : ∀ {v}, superType = some v → ∃ a, v = .leaf a
  mem : ∀ {v}, superType = some v → v ∈ types
  coll : ∀ {v}, superType = some v → IsCollection t → v ∈ collectionTypes

theorem SuperOk.none (types : List Ty) (t : Ty) : SuperOk types t none := ⟨nofun, nofun, nofun⟩

/-- The types of the table. -/
def types (s : TypeState) : List Ty := s.pool.typeTable.map TypeObj.ty

/-- Super types come before the types that have them, and the builtin types are as they were. -/
structure Inv (s : TypeState) : Prop where
  named : s.pool.Named
  length : s.attrs.length = s.types.length
  proper : ∀ t ∈ s.types, t.Proper
  builtin : s.types.take builtinTypes.length = builtinTypes.map Prod.fst
  supers : (s.attrs.map TypeAttr.superType).take builtinTypes.length = builtinTypes.map Prod.snd
  super : ∀ {i t attr}, s.types[i]? = some t → s.attrs[i]? = some attr →
    SuperOk (s.types.take i) t attr.superType

theorem has_iff : s.pool.Has t ↔ t ∈ s.types := by
  unfold TypePool.Has types
  rw [List.mem_map]

theorem typeId_of_get (h : s.pool.Named) {i : Nat} (ht : s.types[i]? = some t) :
    mapFind s.pool.nameMap t.name = some i := by
  unfold types at ht
  rw [List.getElem?_map] at ht
  obtain ⟨obj, hobj, rfl⟩ := Option.map_eq_some_iff.1 ht
  exact h.names i obj hobj

/-- A type of the pool has an id and attributes of its own. -/
theorem Inv.attrOf (h : Inv s) {i : Nat} (ht : s.types[i]? = some t) :
    s.typeId t = i ∧ ∃ attr, s.attrs[i]? = some attr ∧ s.attrOf t = some attr := by
  have hid := typeId_of_get h.named ht
  have hi : i < s.attrs.length := by
    rw [h.length]
    exact (List.getElem?_eq_some_iff.1 ht).1
  refine ⟨?_, s.attrs[i], List.getElem?_eq_getElem hi, ?_⟩
  · unfold typeId
    rw [hid]
    rfl
  · unfold TypeState.attrOf
    rw [hid]
    exact List.getElem?_eq_getElem hi

/-- What is found under a name is that of a type with this name. -/
theorem Inv.of_attrOf (h : Inv s) {attr : TypeAttr} (ht : s.attrOf t = some attr) :
    ∃ i t', s.typeId t = i ∧ s.types[i]? = some t' ∧ s.attrs[i]? = some attr := by
  unfold TypeState.attrOf at ht
  obtain ⟨i, hid, hattr⟩ := Option.bind_eq_some_iff.1 ht
  obtain ⟨obj, hobj, -⟩ := h.named.ids _ (mapFind_mem hid)
  refine ⟨i, obj.ty, ?_, ?_, hattr⟩
  · unfold typeId
    rw [hid]
    rfl
  · unfold types
    rw [List.getElem?_map, hobj]
    rfl

theorem typeId_le (h : s.pool.Named) (t : Ty) : s.typeId t ≤ s.pool.typeTable.length := by
  unfold typeId
  cases hid : mapFind s.pool.nameMap t.name with
  | none => exact Nat.zero_le _
  | some i =>
    obtain ⟨obj, hobj, -⟩ := h.ids _ (mapFind_mem hid)
    exact (List.getElem?_eq_some_iff.1 hobj).1.le

theorem height_le (h : s.pool.Named) (t : Ty) :
    s.height t ≤ s.pool.typeTable.length + eqTypeId + 1 := by
  have := typeId_le h t
  cases t with
  | func r ps =>
    rw [height]
    omega
  | _ => exact this.trans (by omega)

/-- The super type of a builtin type. -/
theorem Inv.superOf_builtin (h : Inv s) {k : Nat} {a : Leaf} {superType : Option Ty}
    (hk : builtinTypes[k]? = some (.leaf a, superType)) :
    s.types[k]? = some (.leaf a) ∧ s.superOf (.leaf a) = superType := by
  have hlt : k < builtinTypes.length := (List.getElem?_eq_some_iff.1 hk).1
  have htype : s.types[k]? = some (.leaf a) := by
    rw [← List.getElem?_take_of_lt hlt, h.builtin, List.getElem?_map, hk]
    rfl
  obtain ⟨-, attr, hattr, hof⟩ := h.attrOf htype
  refine ⟨htype, ?_⟩
  have hsup : (s.attrs.map TypeAttr.superType)[k]? = some superType := by
    rw [← List.getElem?_take_of_lt hlt, h.supers, List.getElem?_map, hk]
    rfl
  rw [List.getElem?_map, hattr] at hsup
  show (s.attrOf (.leaf a)).bind TypeAttr.superType = superType
  rw [hof]
  exact Option.some.inj hsup

/-- What a type that has attributes has as its super type. -/
theorem Inv.of_superOf (h : Inv s) (hf : t.isFuncType = false) (ht : s.superOf t = some v) :
    ∃ i t', s.typeId t = i ∧ s.types[i]? = some t' ∧ SuperOk (s.types.take i) t' (some v) := by
  have hattr : (s.attrOf t).bind TypeAttr.superType = some v := by
    cases t with
    | func r ps => cases hf
    | option e => cases ht
    | leaf | array | map | tuple => exact ht
  obtain ⟨attr, hattr, hv⟩ := Option.bind_eq_some_iff.1 hattr
  obtain ⟨i, t', hid, ht', hi⟩ := h.of_attrOf hattr
  have hok := h.super ht' hi
  rw [hv] at hok
  exact ⟨i, t', hid, ht', hok⟩

theorem Inv.typeId_lt (h : Inv s) {i : Nat} (hv : v ∈ s.types.take i) : s.typeId v < i := by
  obtain ⟨j, hj⟩ := List.mem_iff_getElem?.1 hv
  rw [List.getElem?_take] at hj
  split at hj
  · next hlt =>
    rw [(h.attrOf hj).1]
    exact hlt
  · cases hj

/-- The super types of the pool are what the relation needs. -/
theorem Inv.isSupers (h : Inv s) : Supers s.superOf s.height where
  leaf := by
    intro u v huv
    cases hf : u.isFuncType with
    | true =>
      cases u with
      | func r ps => exact ⟨_, (Option.some.inj huv).symm⟩
      | _ => cases hf
    | false =>
      obtain ⟨i, t', -, -, hok⟩ := h.of_superOf hf huv
      exact hok.leaf rfl
  lt := by
    intro u v huv
    cases hf : u.isFuncType with
    | true =>
      cases u with
      | func r ps =>
        cases huv
        have heq := (h.superOf_builtin (k := 5) rfl).1
        exact Nat.lt_succ_of_le (h.attrOf heq).1.le
      | _ => cases hf
    | false =>
      obtain ⟨i, t', hid, -, hok⟩ := h.of_superOf hf huv
      have hlt := h.typeId_lt (hok.mem rfl)
      obtain ⟨a, rfl⟩ := hok.leaf rfl
      cases u with
      | func r ps => cases hf
      | option e => cases huv
      | leaf | array | map | tuple =>
        rw [← hid] at hlt
        exact hlt
  option _ := rfl
  func _ _ := rfl
  nothing := (h.superOf_builtin (k := 4) rfl).2
  void := (h.superOf_builtin (k := 3) rfl).2
  eq := (h.superOf_builtin (k := 5) rfl).2
  any := (h.superOf_builtin (k := 2) rfl).2
  guard := (h.superOf_builtin (k := 1) rfl).2

/-- The function of the pool decides the relation of its super types. -/
theorem Inv.same_iff (h : Inv s) : s.same t u = true ↔ Rel s.superOf t u := by
  unfold same
  exact isSameOrBaseTypeOf_iff h.isSupers (height_le h.named) (Nat.lt_succ_self _)

/-! ## Super types of new types -/

theorem builtin_of_collection (hv : v ∈ collectionTypes) :
    ∃ a, v = .leaf a ∧ v ∈ builtinTypes.map Prod.fst := by
  simp only [collectionTypes, List.mem_cons, List.not_mem_nil, or_false] at hv
  rcases hv with rfl | rfl | rfl | rfl
  · exact ⟨_, rfl, List.mem_of_getElem? (i := 2) rfl⟩
  · exact ⟨_, rfl, List.mem_of_getElem? (i := 5) rfl⟩
  · exact ⟨_, rfl, List.mem_of_getElem? (i := 6) rfl⟩
  · exact ⟨_, rfl, List.mem_of_getElem? (i := 7) rfl⟩

/-- A builtin type is there whatever has been discarded. -/
theorem Inv.subset_take (h : Inv s) {i : Nat} (hi : builtinTypes.length ≤ i) :
    builtinTypes.map Prod.fst ⊆ s.types.take i := by
  rw [← h.builtin]
  exact List.take_subset_take_left s.types hi

theorem Inv.subset (h : Inv s) : builtinTypes.map Prod.fst ⊆ s.types := fun _ hv =>
  List.mem_of_mem_take (h.subset_take (Nat.le_refl _) hv)

theorem Inv.le_length (h : Inv s) : builtinTypes.length ≤ s.types.length := by
  have hlen := congrArg List.length h.builtin
  rw [List.length_take, List.length_map] at hlen
  omega

theorem SuperOk.of_builtin {types : List Ty} (hsub : builtinTypes.map Prod.fst ⊆ types) {a : Leaf}
    (hv : .leaf a ∈ builtinTypes.map Prod.fst) (hc : IsCollection t → .leaf a ∈ collectionTypes) :
    SuperOk types t (some (.leaf a)) where
  leaf := by
    rintro v ⟨⟩
    exact ⟨a, rfl⟩
  mem := by
    rintro v ⟨⟩
    exact hsub hv
  coll := by
    rintro v ⟨⟩
    exact hc

theorem SuperOk.of_collection {types : List Ty} (hsub : builtinTypes.map Prod.fst ⊆ types)
    (hv : v ∈ collectionTypes) (t : Ty) : SuperOk types t (some v) := by
  obtain ⟨a, rfl, hmem⟩ := builtin_of_collection hv
  exact .of_builtin hsub hmem fun _ => hv

theorem resolveCollectionSuperType_mem (s : TypeState) (e : Ty) (allowValueType : Bool) :
    s.resolveCollectionSuperType e allowValueType ∈ collectionTypes := by
  unfold resolveCollectionSuperType collectionTypes
  dsimp only
  split
  · split
    · split
      · simp
      · simp
    · simp
  · simp

/-- What is found at the front is one of the types. -/
theorem frontType_mem {same : Ty → Ty → Bool} {types : List Ty}
    (h : frontType same types = some t) : t ∈ types := by
  unfold frontType at h
  split at h
  · cases h
  · split at h
    · cases h
      exact List.mem_cons_self
    · cases h

theorem mem_of_sortTypes {same : Ty → Ty → Bool} {typeId : Ty → Nat} {types : List Ty}
    (h : t ∈ sortTypes same typeId types) : t ∈ types := by
  unfold sortTypes at h
  rw [(InsertionSort.insertionSort_perm _ _).mem_iff] at h
  unfold dedupById at h
  rw [mem_unique, (List.perm_insertionSort _ _).mem_iff] at h
  exact List.mem_of_mem_filter h

/-- Without `Nothing?` the common super type is one of the types, and no type is made. -/
theorem resolveCommonSuperType_plain {types : List Ty} (hn : optNothing ∉ types) :
    (s.resolveCommonSuperType types).2 = s ∧
      ∀ v, (s.resolveCommonSuperType types).1 = some v → v ∈ types := by
  have hany : (types.any fun t => t = optNothing) = false := by
    rw [List.any_eq_false]
    intro t ht he
    exact hn (of_decide_eq_true he ▸ ht)
  unfold resolveCommonSuperType
  rw [hany]
  dsimp only
  split
  · next type heq =>
    refine ⟨rfl, fun v hv => ?_⟩
    cases hv
    exact mem_of_sortTypes (frontType_mem heq)
  · exact ⟨rfl, nofun⟩

theorem SuperOk.of_fields {types superTypes : List Ty} (hsub : builtinTypes.map Prod.fst ⊆ types)
    (hs : ∀ v ∈ superTypes, v ∈ collectionTypes) (depth : Nat) (t : Ty) :
    SuperOk types t (s.fieldsSuperType superTypes depth) := by
  have hcoll : ∀ v ∈ superTypes ++ [if depth < recordTypeFieldDepthLimit then Ty.builtin "%Value_"
      else .builtin "%Ord_"], v ∈ collectionTypes := by
    intro v hv
    rcases List.mem_append.1 hv with hv | hv
    · exact hs v hv
    · rw [List.mem_singleton.1 hv]
      split
      · simp [collectionTypes]
      · simp [collectionTypes]
  have hn : optNothing ∉ superTypes ++ [if depth < recordTypeFieldDepthLimit then
      Ty.builtin "%Value_" else .builtin "%Ord_"] := fun hmem => by
    have := hcoll _ hmem
    revert this
    decide
  unfold TypeState.fieldsSuperType
  obtain ⟨-, hres⟩ := resolveCommonSuperType_plain (s := s) hn
  cases hr : (s.resolveCommonSuperType _).1 with
  | none => exact .none _ _
  | some v => exact .of_collection hsub (hcoll v (hres v hr)) t

/-- A type that is not above `Any` is not above `Value_`. -/
theorem Inv.anc_collection (h : Inv s) (ht : t ∉ collectionTypes)
    (hg : t ≠ .builtin "process guard%%") (hv : v ∈ collectionTypes) : ¬Anc s.superOf t v := by
  have hs := h.isSupers
  have hany : ¬Anc s.superOf t (.builtin "Any") := by
    intro hanc
    rcases anc_cases hanc with rfl | ⟨w, hw, hanc⟩
    · exact ht (by simp [collectionTypes])
    rw [hs.any] at hw
    cases hw
    exact hg (anc_of_none hs.guard hanc)
  have hup {u w : Ty} (hu : s.superOf u = some w) (hmem : u ∈ collectionTypes)
      (hw : ¬Anc s.superOf t w) : ¬Anc s.superOf t u := by
    intro hanc
    rcases anc_cases hanc with rfl | ⟨w', hw', hanc⟩
    · exact ht hmem
    rw [hu] at hw'
    cases hw'
    exact hw hanc
  have heq := hup hs.eq (by simp [collectionTypes]) hany
  have hord := hup (h.superOf_builtin (k := 6) rfl).2 (by simp [collectionTypes, Ty.builtin]) heq
  have hvalue := hup (h.superOf_builtin (k := 7) rfl).2 (by simp [collectionTypes, Ty.builtin]) hord
  simp only [collectionTypes, List.mem_cons, List.not_mem_nil, or_false] at hv
  rcases hv with rfl | rfl | rfl | rfl
  · exact hany
  · exact heq
  · exact hord
  · exact hvalue

/-- The types that `Error` is a base of have names of their own. -/
theorem Inv.error_leaf (h : Inv s) (ht : s.pool.Has t) (hsame : s.same (.builtin "Error") t = true) :
    ∃ a, t = .leaf a := by
  have hs := h.isSupers
  have hrel := h.same_iff.1 hsame
  have hplain (hopt : t.isOptionType = false) (hfunc : t.isFuncType = false) :
      ¬IsCollection t := by
    intro hc
    rw [rel_up_iff rfl fun hc => by cases hc.1] at hrel
    obtain ⟨i, hi⟩ := List.mem_iff_getElem?.1 (has_iff.1 ht)
    obtain ⟨-, attr, hattr, hof⟩ := h.attrOf hi
    have hno (b : String) (hb : Ty.builtin b ∉ collectionTypes)
        (hg : Ty.builtin b ≠ .builtin "process guard%%") : ¬Anc s.superOf (.builtin b) t := by
      intro hanc
      rcases anc_cases hanc with rfl | ⟨v, hv, hanc⟩
      · cases hc
      have hsup : attr.superType = some v := by
        have hbind : s.superOf t = (s.attrOf t).bind TypeAttr.superType := by
          cases t with
          | func => cases hfunc
          | option => cases hopt
          | _ => rfl
        rw [hbind, hof] at hv
        exact hv
      exact h.anc_collection hb hg ((h.super hi hattr).coll hsup hc) hanc
    rcases hrel with hanc | hanc
    · exact hno "Error" (by decide) (by decide) hanc
    · exact hno "Nothing" (by decide) (by decide) hanc
  cases t with
  | leaf a => exact ⟨a, rfl⟩
  | array | map | tuple => exact absurd trivial (hplain rfl rfl)
  | option e =>
    obtain ⟨e', he, -⟩ := hs.rel_option hrel
    cases he
  | func r ps =>
    have hanc := hs.rel_func hrel rfl rfl
    exact absurd hanc (h.anc_collection (by decide) (by decide) (by simp [collectionTypes]))

/-! ## New types -/

/-- At most one type is new. -/
def Extends (p q : TypePool) (new : Ty → Prop) : Prop :=
  q.typeTable.map TypeObj.ty = p.typeTable.map TypeObj.ty ∨
    ∃ t, new t ∧ q.typeTable.map TypeObj.ty = p.typeTable.map TypeObj.ty ++ [t]

section
variable {env : TypeEnv} (p : TypePool)

theorem extends_addType (obj : TypeObj) : Extends p (p.addType obj).2 (· = obj.ty) := by
  cases hf : mapFind p.nameMap obj.ty.name with
  | some id =>
    rw [TypePool.addType_old obj hf]
    exact .inl rfl
  | none =>
    rw [TypePool.addType_new obj hf]
    exact .inr ⟨_, rfl, List.map_append⟩

theorem extends_getOrNew (ty : Ty) : Extends p (p.getOrNew ty).2 (· = ty) := by
  unfold TypePool.getOrNew
  split
  · exact .inl rfl
  · exact extends_addType p ⟨ty, .none⟩

theorem extends_getOrNewBuiltin (ty : Ty) : Extends p (p.getOrNewBuiltin env ty).2 (· = ty) := by
  unfold TypePool.getOrNewBuiltin
  split
  · exact .inl rfl
  · exact extends_addType p ⟨ty, .none⟩

theorem extends_createOptionType (es : List Ty) :
    Extends p (p.createOptionType es).2 fun t => ∃ e ∈ es, t = .option e ∧ e.isVoidType = false := by
  unfold TypePool.createOptionType
  split
  · next e =>
    split
    · exact .inl rfl
    · next hv =>
      split
      · exact .inl rfl
      · rcases extends_getOrNew p (.option e) with h | ⟨t, rfl, h⟩
        · exact .inl h
        · refine .inr ⟨_, ⟨e, List.mem_cons_self, rfl, ?_⟩, h⟩
          rw [Bool.or_eq_true, not_or, Bool.not_eq_true] at hv
          exact hv.1
  · exact .inl rfl

theorem extends_createTupleType (es : List Ty) :
    Extends p (p.createTupleType es).2 (· = .tuple es) := by
  unfold TypePool.createTupleType
  split
  · exact .inl rfl
  · exact extends_getOrNew p _

theorem extends_createFuncType (ret : Ty) (ps : List Ty) :
    Extends p (p.createFuncType ret ps).2 (· = .func ret ps) := by
  unfold TypePool.createFuncType
  split
  · exact .inl rfl
  · exact extends_getOrNew p _

theorem extends_newUserType (typeName : Text) (modId : Nat) (data : TypeData) :
    Extends p (p.newUserType typeName modId data).2 (· = .leaf (.user modId typeName)) := by
  have hadd := extends_addType p ⟨.leaf (.user modId typeName), data⟩
  unfold TypePool.newUserType
  split
  · next heq =>
    rw [heq] at hadd
    exact hadd
  · next heq =>
    rw [heq] at hadd
    exact hadd

theorem map_modifyData (typeId : Nat) (f : TypeData → TypeData) :
    (p.modifyData typeId f).typeTable.map TypeObj.ty = p.typeTable.map TypeObj.ty := by
  refine List.ext_getElem? fun i => ?_
  unfold TypePool.modifyData
  rw [List.getElem?_map, List.getElem?_map, List.getElem?_modify]
  cases p.typeTable[i]? with
  | none => rfl
  | some x =>
    dsimp only [Option.map_some]
    split
    · rfl
    · rfl

theorem extends_createModType (modId : Nat) (handles : List (Text × Handle))
    (children : List Imported) (index attr : Nat) :
    Extends p (p.createModType modId handles children index attr).2
      (· = .leaf (.mod modId)) := by
  unfold TypePool.createModType
  split
  · exact extends_addType p _
  · exact .inl (map_modifyData p _ _)

/-- A type that a template makes is one of its elements. -/
theorem extends_createReifiedType (t : TypeTemplate) (es : List Ty) :
    Extends p (TypePool.createReifiedType env p t es).2 fun ty =>
      (∃ e, t = .array ∧ es = [e] ∧ ty = .array e) ∨
      (∃ k v, t = .map ∧ es = [k, v] ∧ ty = .map k v) ∨
      (t = .tuple ∧ ty = .tuple es) ∨
      (t = .option ∧ ∃ e ∈ es, ty = .option e ∧ e.isVoidType = false) := by
  have himp {q : TypePool} {new new' : Ty → Prop} (h : Extends p q new)
      (hnew : ∀ ty, new ty → new' ty) : Extends p q new' := by
    rcases h with h | ⟨ty, hty, h⟩
    · exact .inl h
    · exact .inr ⟨ty, hnew ty hty, h⟩
  unfold TypePool.createReifiedType
  split
  · exact himp (extends_createTupleType p es) fun ty h => .inr (.inr (.inl ⟨rfl, h⟩))
  · exact himp (extends_createOptionType p es) fun ty h => .inr (.inr (.inr ⟨rfl, h⟩))
  · split
    · exact .inl rfl
    · split
      · exact himp (extends_getOrNewBuiltin p _) fun ty h => .inl ⟨_, rfl, rfl, h⟩
      · exact himp (extends_getOrNewBuiltin p _) fun ty h => .inr (.inl ⟨_, _, rfl, rfl, h⟩)
      · exact .inl rfl

end

/-- The invariant is about the types and their attributes. -/
theorem Inv.of_eq (h : Inv s) (hn : s'.pool.Named) (ht : s'.types = s.types)
    (ha : s'.attrs = s.attrs) : Inv s' where
  named := hn
  length := by
    rw [ht, ha]
    exact h.length
  proper := by
    rw [ht]
    exact h.proper
  builtin := by
    rw [ht]
    exact h.builtin
  supers := by
    rw [ha]
    exact h.supers
  super := by
    rw [ht, ha]
    exact h.super

/-- A type comes behind the others. -/
theorem Inv.snoc (h : Inv s) {attr : TypeAttr} (hn : s'.pool.Named) (ht : s'.types = s.types ++ [t])
    (ha : s'.attrs = s.attrs ++ [attr]) (hp : t.Proper)
    (hok : SuperOk s.types t attr.superType) : Inv s' where
  named := hn
  length := by
    rw [ht, ha, List.length_append, List.length_append, h.length]
    rfl
  proper := by
    rw [ht]
    intro u hu
    rcases List.mem_append.1 hu with hu | hu
    · exact h.proper u hu
    · rw [List.mem_singleton.1 hu]
      exact hp
  builtin := by
    rw [ht, List.take_append_of_le_length h.le_length]
    exact h.builtin
  supers := by
    have hle := h.le_length
    rw [← h.length, ← List.length_map (f := TypeAttr.superType)] at hle
    rw [ha, List.map_append, List.take_append_of_le_length hle]
    exact h.supers
  super := by
    rw [ht, ha]
    intro i u attr' hu hattr
    rw [List.getElem?_append] at hu hattr
    rw [h.length] at hattr
    split at hu
    · next hi =>
      rw [if_pos hi] at hattr
      rw [List.take_append_of_le_length hi.le]
      exact h.super hu hattr
    · next hi =>
      rw [if_neg hi] at hattr
      rw [List.getElem?_singleton] at hu hattr
      split at hu
      · next hzero =>
        rw [if_pos hzero] at hattr
        cases hu
        cases hattr
        have hlen : i = s.types.length := by omega
        rw [hlen, List.take_left]
        exact hok
      · cases hu

theorem Inv.withPool (h : Inv s) {q : TypePool} {attr : TypeAttr} {new : Ty → Prop} (hq : q.Named)
    (hext : Extends s.pool q new)
    (hnew : ∀ t, new t → t.Proper ∧ SuperOk s.types t attr.superType) :
    Inv (s.withPool q attr) := by
  rcases hext with hold | ⟨t, ht, happ⟩
  · have hlen := congrArg List.length hold
    rw [List.length_map, List.length_map] at hlen
    exact h.of_eq hq hold (if_neg (by omega))
  · have hlen := congrArg List.length happ
    rw [List.length_append, List.length_map, List.length_map, List.length_singleton] at hlen
    obtain ⟨hp, hok⟩ := hnew t ht
    exact h.snoc hq happ (if_pos (by omega)) hp hok

theorem Inv.proper_of_has (h : Inv s) (ht : s.pool.Has t) : t.Proper := h.proper t (has_iff.1 ht)

theorem Inv.createOptionType (h : Inv s) {es : List Ty} (hes : ∀ e ∈ es, s.pool.Has e) :
    Inv (s.createOptionType es).2 := by
  refine h.withPool (h.named.createOptionType fun e he => h.named.wf_of_has (hes e he)).1
    (extends_createOptionType s.pool es) ?_
  rintro t ⟨e, he, rfl, hv⟩
  refine ⟨.option ?_ (h.proper_of_has (hes e he)), .none _ _⟩
  rintro rfl
  cases hv

theorem Inv.createReifiedType (h : Inv s) {t : TypeTemplate} {es : List Ty}
    (hes : ∀ e ∈ es, s.pool.Has e) (hne : t = .tuple → es ≠ []) :
    Inv (s.createReifiedType nativeMethods t es).2 := by
  have hproper : ∀ e ∈ es, e.Proper := fun e he => h.proper_of_has (hes e he)
  have hcoll (e : Ty) (b : Bool) (t : Ty) :
      SuperOk s.types t (some (s.resolveCollectionSuperType e b)) :=
    .of_collection h.subset (resolveCollectionSuperType_mem s e b) t
  refine h.withPool
    (h.named.createReifiedType _ t (fun e he => h.named.wf_of_has (hes e he)) hne).1
    (extends_createReifiedType s.pool t es) ?_
  rintro ty (⟨e, rfl, rfl, rfl⟩ | ⟨k, v, rfl, rfl, rfl⟩ | ⟨rfl, rfl⟩ | ⟨rfl, e, he, rfl, hv⟩)
  · exact ⟨.array (hproper e (by simp)), hcoll e false _⟩
  · exact ⟨.map (hproper k (by simp)) (hproper v (by simp)), hcoll v false _⟩
  · refine ⟨.tuple hproper, .of_fields h.subset ?_ _ _⟩
    intro v hv
    obtain ⟨e, -, rfl⟩ := List.mem_map.1 hv
    exact resolveCollectionSuperType_mem s e true
  · refine ⟨.option ?_ (hproper e he), .none _ _⟩
    rintro rfl
    cases hv

theorem Inv.createFuncType (h : Inv s) {ret : Ty} {ps : List Ty} (hret : s.pool.Has ret)
    (hps : ∀ e ∈ ps, s.pool.Has e) : Inv (s.createFuncType ret ps).2 := by
  refine h.withPool (h.named.createFuncType (h.named.wf_of_has hret) fun e he =>
    h.named.wf_of_has (hps e he)).1 (extends_createFuncType s.pool ret ps) ?_
  rintro t rfl
  exact ⟨.func (h.proper_of_has hret) fun p hp => h.proper_of_has (hps p hp),
    .of_collection h.subset (by simp [collectionTypes]) _⟩

theorem Inv.createErrorType (h : Inv s) {name : Text} {superType : Ty} (modId : Nat)
    (hid : isIdentifier name = true) (hsup : s.pool.Has superType) :
    Inv (s.createErrorType nativeMethods name superType modId).2 := by
  have hext : Extends s.pool
      (TypePool.createErrorType (s.env nativeMethods) s.pool name superType modId).2
      fun t => t = .leaf (.user modId name) ∧ s.same (.builtin "Error") superType = true := by
    unfold TypePool.createErrorType
    split
    · next herr =>
      rcases extends_newUserType s.pool name modId (.error superType) with hq | ⟨t, ht, hq⟩
      · exact .inl hq
      · exact .inr ⟨t, ⟨ht, herr⟩, hq⟩
    · exact .inl rfl
  apply h.withPool (h.named.createErrorType hid superType modId).1 hext
  rintro t ⟨rfl, herr⟩
  refine ⟨.leaf _, ?_, ?_, nofun⟩
  · rintro v ⟨⟩
    exact h.error_leaf hsup herr
  · rintro v ⟨⟩
    exact has_iff.1 hsup

theorem Inv.createRecordType (h : Inv s) {name : Text} (modId : Nat) (cli : Bool)
    (hid : isIdentifier name = true) : Inv (s.createRecordType name modId cli).2 := by
  refine h.withPool (h.named.newUserType hid modId _).1
    (extends_newUserType s.pool name modId (.record cli none)) ?_
  rintro t rfl
  refine ⟨.leaf _, SuperOk.of_builtin h.subset ?_ nofun⟩
  cases cli with
  | false => exact List.mem_of_getElem? (i := 2) rfl
  | true => exact List.mem_of_getElem? (i := 27) rfl

theorem Inv.createModType (h : Inv s) (modId : Nat) (handles : List (Text × Handle))
    (children : List Imported) (index attr : Nat) :
    Inv (s.createModType modId handles children index attr).2 := by
  refine h.withPool (h.named.createModType modId handles children index attr)
    (extends_createModType s.pool modId handles children index attr) ?_
  rintro t rfl
  exact ⟨.leaf _, SuperOk.of_builtin h.subset (List.mem_of_getElem? (i := 20) rfl) nofun⟩

theorem Inv.resolveCommonSuperType (h : Inv s) {types : List Ty}
    (ht : ∀ t ∈ types, s.pool.Has t) : Inv (s.resolveCommonSuperType types).2 := by
  unfold TypeState.resolveCommonSuperType
  dsimp only
  split
  · next type heq =>
    have hmem := ht type (mem_of_sortTypes (frontType_mem heq))
    have hopt := h.createOptionType (List.forall_mem_singleton.2 hmem)
    split
    · split
      · exact h
      · split
        · next hr =>
          rw [hr] at hopt
          exact hopt
        · next hr =>
          rw [hr] at hopt
          exact hopt
    · exact h
  · exact h

theorem Inv.discard (h : Inv s) {typeIdOffset : Nat} (methodIdOffset : Nat)
    (hle : builtinTypes.length ≤ typeIdOffset) : Inv (s.discard typeIdOffset methodIdOffset) := by
  have htypes : (s.discard typeIdOffset methodIdOffset).types = s.types.take typeIdOffset :=
    List.map_take
  have hattrs : (s.discard typeIdOffset methodIdOffset).attrs = s.attrs.take typeIdOffset := rfl
  refine ⟨h.named.discard _ _, ?_, ?_, ?_, ?_, ?_⟩
  · rw [htypes, hattrs, List.length_take, List.length_take, h.length]
  · rw [htypes]
    exact fun t ht => h.proper t (List.mem_of_mem_take ht)
  · rw [htypes, List.take_take, Nat.min_eq_left hle]
    exact h.builtin
  · rw [hattrs, List.map_take, List.take_take, Nat.min_eq_left hle]
    exact h.supers
  · rw [htypes, hattrs]
    intro i t attr ht hattr
    rw [List.getElem?_take] at ht hattr
    split at ht
    · next hi =>
      rw [if_pos hi] at hattr
      rw [List.take_take, Nat.min_eq_left hi.le]
      exact h.super ht hattr
    · cases ht

/-- The attributes of a type that is not builtin are changed. -/
theorem Inv.setAttr (h : Inv s) {i : Nat} {attr : TypeAttr} (hn : s'.pool.Named)
    (ht : s'.types = s.types) (ha : s'.attrs = s.attrs.set i attr)
    (hi : builtinTypes.length ≤ i)
    (hok : ∀ t, s.types[i]? = some t → SuperOk (s.types.take i) t attr.superType) : Inv s' where
  named := hn
  length := by
    rw [ht, ha, List.length_set]
    exact h.length
  proper := by
    rw [ht]
    exact h.proper
  builtin := by
    rw [ht]
    exact h.builtin
  supers := by
    rw [ha, List.map_set, List.take_set_of_le hi]
    exact h.supers
  super := by
    rw [ht, ha]
    intro j t attr' hj hattr
    rw [List.getElem?_set] at hattr
    split at hattr
    · next hij =>
      subst hij
      split at hattr
      · cases hattr
        exact hok t hj
      · cases hattr
    · exact h.super hj hattr

/-- A type that a script has defined. -/
def isUser : Ty → Bool
  | .leaf (.user _ _) => true
  | _ => false

/-- No builtin type has a name of a script. -/
theorem builtin_ne_user {modId : Nat} {name : Text} :
    Ty.leaf (.user modId name) ∉ builtinTypes.map Prod.fst := by
  have hall : ((builtinTypes.map Prod.fst).all fun t => !isUser t) = true := by decide
  intro h
  cases List.all_eq_true.1 hall _ h

/-- The super type of a record is changed. -/
theorem Inv.finalizeRecordType (h : Inv s) {typeId : Nat} {handles : List (Text × Handle)}
    (hs : s.finalizeRecordType typeId handles = .ok s') : Inv s' := by
  unfold TypeState.finalizeRecordType at hs
  split at hs
  · next modId name cli attr hobj hattr =>
    have htype : s.types[typeId]? = some (.leaf (.user modId name)) := by
      unfold types
      rw [List.getElem?_map, hobj]
      rfl
    have hi : builtinTypes.length ≤ typeId := by
      by_contra hlt
      have hmem : Ty.leaf (.user modId name) ∈ s.types.take builtinTypes.length :=
        List.mem_iff_getElem?.2 ⟨typeId, by rw [List.getElem?_take_of_lt (by omega), htype]⟩
      rw [h.builtin] at hmem
      exact builtin_ne_user hmem
    dsimp only at hs
    split at hs
    · cases hs
    · split at hs
      · cases hs
      · cases hs
        refine h.setAttr (h.named.modifyData typeId fun _ => .record cli (some handles))
          (map_modifyData _ _ _) rfl hi fun t ht => ?_
        rw [htype] at ht
        cases ht
        dsimp only
        split
        · refine .of_fields (h.subset_take hi) ?_ _ _
          intro v hv
          obtain ⟨e, -, rfl⟩ := List.mem_map.1 hv
          exact resolveCollectionSuperType_mem s _ _
        · exact h.super htype hattr
  · cases hs
    exact h

theorem Inv.step (h : Inv s) (hs : Step nativeMethods P s s') : Inv s' := by
  cases hs with
  | reified hes hne => exact h.createReifiedType hes hne
  | func hret hps => exact h.createFuncType hret hps
  | error modId hid hsup _ => exact h.createErrorType modId hid hsup
  | record modId cli hid => exact h.createRecordType modId cli hid
  | finalize hf => exact h.finalizeRecordType hf
  | mod modId handles children index attr => exact h.createModType modId handles children index attr
  | lookupMethod ids methodName =>
    refine h.of_eq (h.named.lookupMethod ids methodName) ?_ rfl
    unfold types TypeState.lookupMethod TypePool.lookupMethod
    split
    · unfold TypePool.instantiate
      split
      · rfl
      · rfl
    · rfl
  | commonSuperType ht => exact h.resolveCommonSuperType ht
  | discard methodIdOffset hle => exact h.discard methodIdOffset hle

/-! ## Whole runs -/

/-- `SuperOk`, as a check. -/
def checkSuper (types : List Ty) (t : Ty) : Option Ty → Bool
  | none => true
  | some v =>
    (match v with
      | .leaf _ => true
      | _ => false) &&
    decide (v ∈ types) &&
    (match t with
      | .leaf _ => true
      | _ => decide (v ∈ collectionTypes))

theorem SuperOk.of_check {types : List Ty} {superType : Option Ty}
    (h : checkSuper types t superType = true) : SuperOk types t superType := by
  cases superType with
  | none => exact .none _ _
  | some v =>
    unfold checkSuper at h
    simp only [Bool.and_eq_true, decide_eq_true_eq] at h
    obtain ⟨⟨hleaf, hmem⟩, hcoll⟩ := h
    refine ⟨?_, ?_, ?_⟩
    · rintro w ⟨⟩
      cases v with
      | leaf a => exact ⟨a, rfl⟩
      | _ => cases hleaf
    · rintro w ⟨⟩
      exact hmem
    · rintro w ⟨⟩ hc
      cases t with
      | leaf a => cases hc
      | _ => exact of_decide_eq_true hcoll

theorem checkSuper_builtin :
    ((List.range builtinTypes.length).all fun i =>
      checkSuper ((builtinTypes.map Prod.fst).take i) (builtinTypes.getD i (optNothing, none)).1
        (builtinTypes.getD i (optNothing, none)).2) = true := by decide

/-- `Ty.Proper`, as a check of the builtin types. -/
def checkProper : Ty → Bool
  | .leaf _ | .array (.leaf _) | .map (.leaf _) (.leaf _) => true
  | t => decide (t = optNothing)

theorem builtin_proper (ht : t ∈ builtinTypes.map Prod.fst) : t.Proper := by
  have hall : (builtinTypes.map Prod.fst).all checkProper = true := by decide
  have h := List.all_eq_true.1 hall t ht
  unfold checkProper at h
  split at h
  · exact .leaf _
  · exact .array (.leaf _)
  · exact .map (.leaf _) (.leaf _)
  · rw [of_decide_eq_true h]
    exact .option (by decide) (.leaf _)

/-- A call that makes the types, whose names are new. -/
def Grows (f : TypePool → TypePool) (ts : List Ty) : Prop :=
  ∀ p : TypePool, (p.nameMap.map Prod.fst ++ ts.map Ty.name).Nodup →
    (f p).typeTable.map TypeObj.ty = p.typeTable.map TypeObj.ty ++ ts ∧
      (f p).nameMap.map Prod.fst = p.nameMap.map Prod.fst ++ ts.map Ty.name

theorem Grows.comp {f g : TypePool → TypePool} {ts us : List Ty} (hf : Grows f ts)
    (hg : Grows g us) : Grows (fun p => g (f p)) (ts ++ us) := by
  intro p hn
  rw [List.map_append, ← List.append_assoc] at hn
  obtain ⟨ht, hk⟩ := hf p (List.nodup_append.1 hn).1
  obtain ⟨ht', hk'⟩ := hg (f p) (by rwa [hk])
  refine ⟨?_, ?_⟩
  · rw [ht', ht, List.append_assoc]
  · rw [hk', hk, List.map_append, List.append_assoc]

theorem Grows.foldl {f : TypePool → String → TypePool} {ty : String → Ty}
    (hf : ∀ name, Grows (f · name) [ty name]) (names : List String) :
    Grows (fun p => names.foldl f p) (names.map ty) := by
  induction names with
  | nil => exact fun p _ => ⟨(List.append_nil _).symm, (List.append_nil _).symm⟩
  | cons name names ih => exact (hf name).comp ih

theorem grows_addType (obj : TypeObj) : Grows (fun p => (p.addType obj).2) [obj.ty] := by
  intro p hn
  have hnone : mapFind p.nameMap obj.ty.name = none := by
    cases hf : mapFind p.nameMap obj.ty.name with
    | none => rfl
    | some id =>
      have hmem := List.mem_map_of_mem (f := Prod.fst) (mapFind_mem hf)
      exact absurd rfl ((List.nodup_append.1 hn).2.2 _ hmem _ (by simp))
  dsimp only
  rw [TypePool.addType_new obj hnone]
  exact ⟨List.map_append, List.map_append⟩

theorem grows_getOrNew (ty : Ty) : Grows (fun p => (p.getOrNew ty).2) [ty] := by
  intro p hn
  have hget : p.get ty.name = none := by
    cases hf : mapFind p.nameMap ty.name with
    | none =>
      unfold TypePool.get
      rw [hf]
      rfl
    | some id =>
      have hmem := List.mem_map_of_mem (f := Prod.fst) (mapFind_mem hf)
      exact absurd rfl ((List.nodup_append.1 hn).2.2 _ hmem _ (by simp))
  unfold TypePool.getOrNew
  dsimp only
  rw [hget]
  exact grows_addType ⟨ty, .none⟩ p hn

theorem grows_getOrNewBuiltin (env : TypeEnv) (ty : Ty) :
    Grows (fun p => (p.getOrNewBuiltin env ty).2) [ty] := by
  intro p hn
  have h := grows_getOrNew ty p hn
  unfold TypePool.getOrNew at h
  unfold TypePool.getOrNewBuiltin
  dsimp only at h ⊢
  split at h
  · exact h
  · exact h

theorem types_new : (new nativeMethods).types = builtinTypes.map Prod.fst := by
  let env : TypeEnv := ⟨fun _ _ _ => true, fun _ => true, nativeMethods⟩
  have hbuiltin (name : String) :
      Grows (TypePool.initBuiltinType env · name) [.builtin name] :=
    grows_addType ⟨.builtin name, .none⟩
  have herror (name : String) : Grows (TypePool.initDerivedErrorType · name) [.builtin name] :=
    grows_addType ⟨.builtin name, .error (.builtin "Error")⟩
  have harray (name : String) :
      Grows (fun p => (TypePool.createReifiedType env p .array [.builtin name]).2)
        [.array (.builtin name)] := grows_getOrNewBuiltin env _
  have hmap : Grows (fun p => (TypePool.createReifiedType env p .map
      [.builtin "String", .builtin "String"]).2) [.map (.builtin "String") (.builtin "String")] :=
    grows_getOrNewBuiltin env _
  have hoption : Grows (fun p => (TypePool.createReifiedType env p .option [.builtin "Nothing"]).2)
      [optNothing] := grows_getOrNew optNothing
  have hbase := Grows.foldl hbuiltin baseTypeNames
  have hreified := (((hbase.comp (harray "String")).comp (harray "Int")).comp hmap).comp hoption
  have hall := (hreified.comp (Grows.foldl herror errorTypeNames)).comp
    (Grows.foldl hbuiltin exitTypeNames)
  have heq := (hall {} (by decide)).1
  exact heq.trans (by decide)

theorem Inv.new : Inv (new nativeMethods) := by
  have htypes := @types_new nativeMethods
  have hattrs : (TypeState.new nativeMethods).attrs.map TypeAttr.superType =
      builtinTypes.map Prod.snd := List.map_map
  refine ⟨TypePool.Named.new _, ?_, ?_, ?_, ?_, ?_⟩
  · rw [htypes, List.length_map]
    exact List.length_map _
  · rw [htypes]
    exact fun t => builtin_proper
  · rw [htypes, ← List.length_map (f := Prod.fst), List.take_length]
  · rw [hattrs, ← List.length_map (f := Prod.snd), List.take_length]
  · intro i t attr ht hattr
    rw [htypes] at ht ⊢
    have hsup : (builtinTypes.map Prod.snd)[i]? = some attr.superType := by
      rw [← hattrs, List.getElem?_map, hattr]
      rfl
    rw [List.getElem?_map] at ht hsup
    obtain ⟨e, he, rfl⟩ := Option.map_eq_some_iff.1 ht
    rw [he] at hsup
    rw [← Option.some.inj hsup]
    have hi := (List.getElem?_eq_some_iff.1 he).1
    have hcheck := List.all_eq_true.1 checkSuper_builtin i (List.mem_range.2 hi)
    rw [List.getD_eq_getElem?_getD, he] at hcheck
    exact .of_check hcheck

theorem Reachable.inv (h : Reachable nativeMethods P s) : Inv s := by
  induction h with
  | new => exact .new
  | step _ hs ih => exact ih.step hs

end TypeState

end Arsh.Types
