import Arsh.Obj.Value

/-!
# Keys of maps

`OrderedMapKey::hash` and `hashRange` of `ordered_map.cpp`, and the types of values. The value types are those
of keys: their values have no array or map in them. `hash_of_eqv`: keys of a type that have the same
structure have the same hash.
-/

namespace Arsh.Obj

open Map

/-! ## Hashes -/

/-- `rapid_mum`: both halves of a product. -/
def rapidMum (a b : UInt64) : UInt64 × UInt64 :=
  (.ofNat (a.toNat * b.toNat), .ofNat (a.toNat * b.toNat / 2 ^ 64))

def rapidMix (a b : UInt64) : UInt64 := (rapidMum a b).1 ^^^ (rapidMum a b).2

def rapidhash64 (a b : UInt64) : UInt64 :=
  let (a, b) := rapidMum (a ^^^ 0x2d358dccaa6c78a5) (b ^^^ 0x8bb84b93962eacc9)
  rapidMix (a ^^^ 0x2d358dccaa6c78a5) (b ^^^ 0x8bb84b93962eacc9)

/-- `OrderedMapKey::hash`, of a value. -/
def Value.hash (h : Heap) (seed : UInt64) (v : Value) : UInt64 :=
  match v with
  | .bool b => rapidhash64 (if b then 1 else 0) seed
  | .sig n => rapidhash64 (.ofInt n) seed
  | _ =>
    match v.asInt h, v.asFloat h, v.asStrRef h with
    | some n, _, _ => rapidhash64 (.ofInt n) seed
    | _, some d, _ => rapidhash64 (.ofInt d.doubleToBits) seed
    | _, _, some s => h.rapidhash s seed
    | _, _, _ =>
      match v with
      | .object addr =>
        match h.get addr with
        | .base _ hash _ => rapidhash64 hash.toUInt64 seed
        | _ => rapidhash64 (.ofNat addr) seed
      | _ => rapidhash64 0 seed

def hashRange (h : Heap) (vs : List Value) : UInt64 :=
  vs.foldl (fun hash v => rapidhash64 hash (v.hash h 0)) 0

/-! ## Types -/

/-- A type, or its option type. -/
structure Ty where
  opt : Bool
  id : Nat
  deriving DecidableEq, Repr

inductive TypeDef where
  | int | float | bool | signal | string
  | array (elem : Ty)
  | map (key value : Ty)
  /-- a tuple or a record, and whether `INIT_FIELDS` keeps the hash of its fields -/
  | base (cached : Bool) (fields : List Ty)
  deriving DecidableEq, Repr

abbrev TypePool := Nat → TypeDef

/-- The values are keys: there is no array or map in them, down to a depth. -/
def ValueType (pool : TypePool) : Nat → Ty → Prop
  | 0, _ => False
  | n + 1, ty =>
    match pool ty.id with
    | .array _ | .map .. => False
    | .base _ fields => ∀ f ∈ fields, ValueType pool n f
    | _ => True

/-- The bound of `SYS_LIMIT_RECORD_TYPE_FIELD_DEPTH` on value types. -/
def keyDepth : Nat := 128

/-- The table of a map is that of its keys. -/
def MapOk (h : Heap) (seed : UInt64) (m : OrderedMap Value Value) : Prop :=
  @Inv Value Value (keyBEq h) (Value.hash h seed) m

/-- What the values of a type stand for, when their parts are of the types of the parts. -/
def ViewOk (pool : TypePool) (h : Heap) (T : Ty → Value → Prop) (ty : Ty) : View → Prop
  | .invalid => ty.opt = true
  | .int _ => pool ty.id = .int
  | .float _ => pool ty.id = .float
  | .bool _ => pool ty.id = .bool
  | .sig _ => pool ty.id = .signal
  | .str _ => pool ty.id = .string
  | .array vs => ∃ elem, pool ty.id = .array elem ∧ ∀ v ∈ vs, T elem v
  | .map seed m => ∃ key value, pool ty.id = .map key value ∧ ValueType pool keyDepth key ∧
    (∀ e ∈ m.entries.live, T key e.key ∧ T value e.value) ∧ MapOk h seed m
  | .base typeId hash vs => ∃ cached fields, pool ty.id = .base cached fields ∧ typeId = ty.id ∧
    List.Forall₂ T fields vs ∧ hash = if cached then (hashRange h vs).toUInt32 else 0
  | _ => False

/-- The values of a type that are nested no deeper. -/
def Typed (pool : TypePool) (h : Heap) : Nat → Ty → Value → Prop
  | 0, _, _ => False
  | n + 1, ty, v => ViewOk pool h (Typed pool h n) ty (view h v)

section
variable {pool : TypePool} {h : Heap} {ty : Ty} {v : Value} {seed : UInt64} {m n : Nat}

/-- Values of a value type are nested no deeper than the type. -/
theorem Typed.of_valueType (hv : Typed pool h n ty v) (hty : ValueType pool m ty) :
    Typed pool h m ty v := by
  induction m generalizing n ty v with
  | zero => exact hty.elim
  | succ m ih =>
    cases n with
    | zero => exact hv.elim
    | succ n =>
      unfold Typed at hv ⊢
      unfold ValueType at hty
      cases hview : view h v with
      | array vs =>
        rw [hview] at hv
        obtain ⟨elem, hdef, -⟩ := hv
        rw [hdef] at hty
        exact hty.elim
      | map seed m =>
        rw [hview] at hv
        obtain ⟨key, value, hdef, -⟩ := hv
        rw [hdef] at hty
        exact hty.elim
      | base typeId hash vs =>
        rw [hview] at hv
        obtain ⟨cached, fields, hdef, hid, hfs, hhash⟩ := hv
        rw [hdef] at hty
        exact ⟨cached, fields, hdef, hid,
          ((List.forall₂_and_left _ _).2 ⟨hty, hfs⟩).imp fun _ _ ⟨hf, hv⟩ => ih hv hf, hhash⟩
      | _ =>
        rw [hview] at hv
        exact hv

/-! ## Equal keys have the same hash -/

/-- The hash of what a value stands for, where it is not that of an address. -/
def hashView (h : Heap) (seed : UInt64) : View → Option UInt64
  | .bool b => some (rapidhash64 (if b then 1 else 0) seed)
  | .sig n | .int n => some (rapidhash64 (.ofInt n) seed)
  | .float d => some (rapidhash64 (.ofInt d.doubleToBits) seed)
  | .str s => some (h.rapidhash s seed)
  | .base _ hash _ => some (rapidhash64 hash.toUInt64 seed)
  | .empty | .invalid | .internal .. => some (rapidhash64 0 seed)
  | _ => none

/-- The representation has no part in the hash. -/
theorem hash_of_view {k : UInt64} (hk : hashView h seed (view h v) = some k) : v.hash h seed = k := by
  cases v with
  | object addr =>
    unfold view at hk
    unfold Value.hash Value.asInt Value.asFloat Value.asStrRef
    dsimp only at hk ⊢
    cases hobj : h.get addr <;> rw [hobj] at hk <;> cases hk <;> rfl
  | _ =>
    cases hk
    rfl

theorem hashRange_congr {vs ws : List Value}
    (hvw : List.Forall₂ (fun v w => v.hash h 0 = w.hash h 0) vs ws) :
    hashRange h vs = hashRange h ws := by
  have hall : ∀ start, vs.foldl (fun hash v => rapidhash64 hash (v.hash h 0)) start =
      ws.foldl (fun hash v => rapidhash64 hash (v.hash h 0)) start := by
    induction hvw with
    | nil => exact fun _ => rfl
    | cons hhash _ ih =>
      intro start
      rw [List.foldl_cons, List.foldl_cons, hhash]
      exact ih _
  exact hall 0

/-- Fields of the same types that are related in pairs. -/
theorem forall₂_fields {T : Ty → Value → Prop} {V : Ty → Prop} {R S : Value → Value → Prop}
    (hRS : ∀ f v w, V f → T f v → T f w → R v w → S v w) {fields : List Ty} {vs ws : List Value}
    (hV : ∀ f ∈ fields, V f) (hvs : List.Forall₂ T fields vs) (hws : List.Forall₂ T fields ws)
    (hR : List.Forall₂ R vs ws) : List.Forall₂ S vs ws := by
  induction hvs generalizing ws with
  | nil =>
    cases hR
    exact .nil
  | cons hv _ ih =>
    obtain ⟨hf, hV⟩ := List.forall_mem_cons.1 hV
    cases hws with
    | cons hw hws =>
      cases hR with
      | cons hvw hR => exact .cons (hRS _ _ _ hf hv hw hvw) (ih hV hws hR)

theorem hash_of_eqv {x y : Value} (hx : Typed pool h n ty x) (hy : Typed pool h n ty y)
    (hty : ValueType pool m ty) (heq : eqv h n x y = true) : x.hash h seed = y.hash h seed := by
  induction n generalizing x y m ty seed with
  | zero => exact hx.elim
  | succ n ih =>
    cases m with
    | zero => exact hty.elim
    | succ m =>
      unfold Typed at hx hy
      unfold ValueType at hty
      unfold eqv at heq
      have hsame : ∃ k, hashView h seed (view h x) = some k ∧ hashView h seed (view h y) = some k := by
        revert hx hy heq
        generalize view h x = a
        generalize view h y = b
        intro hx hy heq
        cases a <;> cases b <;> try cases heq
        case array.array =>
          obtain ⟨elem, hdef, -⟩ := hx
          rw [hdef] at hty
          exact hty.elim
        case map.map =>
          obtain ⟨key, value, hdef, -⟩ := hx
          rw [hdef] at hty
          exact hty.elim
        case base.base vs id' k ws =>
          obtain ⟨cached, fields, hdef, -, hvs, rfl⟩ := hx
          obtain ⟨cached', fields', hdef', -, hws, rfl⟩ := hy
          cases hdef.symm.trans hdef'
          rw [hdef] at hty
          have hhash : hashRange h vs = hashRange h ws :=
            hashRange_congr (forall₂_fields (T := Typed pool h n) (V := ValueType pool m)
              (R := fun v w => eqv h n v w = true)
              (S := fun v w => v.hash h 0 = w.hash h 0) (fun f v w hf hv hw hvw => ih hv hw hf hvw)
              hty hvs hws ((@isEqv_iff (eqv h n) vs ws).1 heq))
          exact ⟨_, rfl, by rw [hhash]; rfl⟩
        case float.float d e =>
          exact ⟨_, rfl, by rw [Double.doubleToBits_of_compare (of_decide_eq_true heq)]; rfl⟩
        case other.other => exact hx.elim
        case empty.empty.refl | invalid.invalid.refl => exact ⟨_, rfl, rfl⟩
        all_goals
          simp only [eqvView, Bool.and_eq_true, decide_eq_true_iff] at heq
          simp [heq, hashView]
      obtain ⟨k, hk, hk'⟩ := hsame
      rw [hash_of_view hk, hash_of_view hk']

end

end Arsh.Obj
