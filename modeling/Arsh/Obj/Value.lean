import Arsh.Map.Operations
import Arsh.Misc.Double

/-!
# Values and objects

`Value` and the kinds of `Object` that hold other values, over a heap. An integer, a float or a string is
in the value itself or in an object: `View` is what a value stands for. `eqv` is the equality of
structures down to a depth, and it is an equivalence, whatever the heap has.
-/

namespace Arsh.Obj

open Map

abbrev Bytes := List UInt8

abbrev Addr := Nat

inductive Value where
  | empty
  /-- what the virtual machine has for itself, of a kind -/
  | internal (kind value : Nat)
  | invalid
  | bool (b : Bool)
  | sig (n : Int)
  | smallInt (n : Int)
  | commonFloat (d : Double)
  | smallStr (s : Bytes)
  | object (addr : Addr)
  deriving DecidableEq, Repr

inductive Object where
  | int (n : Int)
  | float (d : Double)
  | string (s : Bytes)
  | regexMatch (captures : List Value)
  | array (values : List Value)
  | orderedMap (seed : UInt64) (map : OrderedMap Value Value)
  /-- a tuple or a record, with the hash it keeps -/
  | base (typeId : Nat) (hash : UInt32) (fields : List Value)
  | other (kind : Nat)

structure Heap where
  get : Addr → Object
  /-- `rapidhash_withSeed` -/
  rapidhash : Bytes → UInt64 → UInt64

/-- `ObjectKind`. -/
def Object.kind : Object → Nat
  | int _ => 0
  | float _ => 1
  | string _ => 2
  | regexMatch _ => 6
  | array _ => 7
  | orderedMap .. => 9
  | base .. => 11
  | other kind => kind

namespace Value

/-- `ValueKind`: a tag, and above it what tells values of the tag apart. -/
def kind : Value → Nat
  | object _ => 0
  | empty => 1
  | commonFloat _ => 2
  | smallStr _ => 5
  | internal kind _ => kind
  | invalid => 0x33
  | bool _ => 0x0C
  | sig _ => 0x14
  | smallInt _ => 0x1C

def isInvalid : Value → Bool
  | invalid => true
  | _ => false

variable (h : Heap)

/-- `asStrRef`, where `hasStrRef`. -/
def asStrRef : Value → Option Bytes
  | smallStr s => some s
  | object addr =>
    match h.get addr with
    | .string s => some s
    | _ => none
  | _ => none

/-- `asInt`, where `hasInt`. -/
def asInt : Value → Option Int
  | smallInt n => some n
  | object addr =>
    match h.get addr with
    | .int n => some n
    | _ => none
  | _ => none

/-- `asFloat`, where `hasFloat`. -/
def asFloat : Value → Option Double
  | commonFloat d => some d
  | object addr =>
    match h.get addr with
    | .float d => some d
    | _ => none
  | _ => none

end Value

/-! ## Views -/

inductive View where
  | empty
  | internal (kind value : Nat)
  | invalid
  | bool (b : Bool)
  | sig (n : Int)
  | int (n : Int)
  | float (d : Double)
  | str (s : Bytes)
  | array (values : List Value)
  | map (seed : UInt64) (map : OrderedMap Value Value)
  | base (typeId : Nat) (hash : UInt32) (fields : List Value)
  | other (addr : Addr)

def view (h : Heap) : Value → View
  | .empty => .empty
  | .internal kind value => .internal kind value
  | .invalid => .invalid
  | .bool b => .bool b
  | .sig n => .sig n
  | .smallInt n => .int n
  | .commonFloat d => .float d
  | .smallStr s => .str s
  | .object addr =>
    match h.get addr with
    | .int n => .int n
    | .float d => .float d
    | .string s => .str s
    | .array values => .array values
    | .orderedMap seed map => .map seed map
    | .base typeId hash fields => .base typeId hash fields
    | .regexMatch _ | .other _ => .other addr

/-! ## Equality of structures -/

/-- The entries of each map are in the other. -/
def sameEntries (E : Value → Value → Bool) (m n : List (Entry Value Value)) : Bool :=
  (m.all fun e => n.any fun f => E e.key f.key && E e.value f.value) &&
    n.all fun f => m.any fun e => E e.key f.key && E e.value f.value

/-- The same shape, with parts that are equal. -/
def eqvView (E : Value → Value → Bool) : View → View → Bool
  | .empty, .empty | .invalid, .invalid => true
  | .internal k m, .internal l n => k = l && m = n
  | .bool a, .bool b => a = b
  | .sig m, .sig n | .int m, .int n => m = n
  | .float d, .float e => Double.compareByTotalOrder d e = 0
  | .str s, .str t => s = t
  | .array vs, .array ws => vs.isEqv ws E
  | .map _ m, .map _ n => sameEntries E m.entries.live n.entries.live
  | .base _ _ vs, .base _ _ ws => vs.isEqv ws E
  | .other a, .other b => a = b
  | _, _ => false

/-- Values have the same structure down to a depth. -/
def eqv (h : Heap) : Nat → Value → Value → Bool
  | 0, _, _ => true
  | n + 1, x, y => eqvView (eqv h n) (view h x) (view h y)

section
variable {E : Value → Value → Bool}

theorem isEqv_iff {vs ws : List Value} : vs.isEqv ws E = true ↔
    List.Forall₂ (fun v w => E v w = true) vs ws := by
  induction vs generalizing ws with
  | nil => cases ws <;> simp [List.isEqv]
  | cons v vs ih => cases ws <;> simp [List.isEqv, ih]

theorem sameEntries_iff {m n : List (Entry Value Value)} : sameEntries E m n = true ↔
    (∀ e ∈ m, ∃ f ∈ n, E e.key f.key = true ∧ E e.value f.value = true) ∧
      ∀ f ∈ n, ∃ e ∈ m, E e.key f.key = true ∧ E e.value f.value = true := by
  unfold sameEntries
  simp only [Bool.and_eq_true, List.all_eq_true, List.any_eq_true]

/-- The relation is an equivalence. -/
structure IsEqv (E : Value → Value → Bool) : Prop where
  refl : ∀ x, E x x = true
  symm : ∀ x y, E x y = true → E y x = true
  trans : ∀ x y z, E x y = true → E y z = true → E x z = true

theorem rank_of_compare {d e : Double} :
    Double.compareByTotalOrder d e = 0 ↔ d.rank = e.rank := by
  rw [Double.compareByTotalOrder_eq]
  split_ifs with hlt heq
  · exact ⟨nofun, fun h => by omega⟩
  · exact ⟨fun _ => heq, fun _ => rfl⟩
  · exact ⟨nofun, fun h => absurd h heq⟩

theorem IsEqv.list (hE : IsEqv E) : (∀ vs, List.isEqv vs vs E = true) ∧
    (∀ vs ws, List.isEqv vs ws E = true → List.isEqv ws vs E = true) ∧
    ∀ us vs ws, List.isEqv us vs E = true → List.isEqv vs ws E = true → List.isEqv us ws E = true := by
  simp only [isEqv_iff]
  refine ⟨fun vs => List.forall₂_same.2 fun v _ => hE.refl v, fun vs ws h => ?_,
    fun us vs ws h₁ h₂ => ?_⟩
  · exact (h.imp fun v w h => hE.symm v w h).flip
  · induction h₁ generalizing ws with
    | nil => exact h₂
    | cons huv _ ih =>
      cases h₂ with
      | cons hvw h₂ => exact .cons (hE.trans _ _ _ huv hvw) (ih _ h₂)

theorem IsEqv.entries (hE : IsEqv E) : (∀ m, sameEntries E m m = true) ∧
    (∀ m n, sameEntries E m n = true → sameEntries E n m = true) ∧
    ∀ l m n, sameEntries E l m = true → sameEntries E m n = true → sameEntries E l n = true := by
  simp only [sameEntries_iff]
  refine ⟨fun m => ⟨fun e he => ⟨e, he, hE.refl _, hE.refl _⟩,
    fun e he => ⟨e, he, hE.refl _, hE.refl _⟩⟩, fun m n ⟨h₁, h₂⟩ => ⟨fun f hf => ?_, fun e he => ?_⟩,
    fun l m n ⟨h₁, h₂⟩ ⟨h₃, h₄⟩ => ⟨fun e he => ?_, fun g hg => ?_⟩⟩
  · obtain ⟨e, he, hk, hv⟩ := h₂ f hf
    exact ⟨e, he, hE.symm _ _ hk, hE.symm _ _ hv⟩
  · obtain ⟨f, hf, hk, hv⟩ := h₁ e he
    exact ⟨f, hf, hE.symm _ _ hk, hE.symm _ _ hv⟩
  · obtain ⟨f, hf, hk, hv⟩ := h₁ e he
    obtain ⟨g, hg, hk', hv'⟩ := h₃ f hf
    exact ⟨g, hg, hE.trans _ _ _ hk hk', hE.trans _ _ _ hv hv'⟩
  · obtain ⟨f, hf, hk, hv⟩ := h₄ g hg
    obtain ⟨e, he, hk', hv'⟩ := h₂ f hf
    exact ⟨e, he, hE.trans _ _ _ hk' hk, hE.trans _ _ _ hv' hv⟩

theorem IsEqv.view (hE : IsEqv E) : (∀ x, eqvView E x x = true) ∧
    (∀ x y, eqvView E x y = true → eqvView E y x = true) ∧
    ∀ x y z, eqvView E x y = true → eqvView E y z = true → eqvView E x z = true := by
  obtain ⟨hlr, hls, hlt⟩ := hE.list
  obtain ⟨her, hes, het⟩ := hE.entries
  refine ⟨fun x => ?_, fun x y h => ?_, fun x y z h₁ h₂ => ?_⟩
  · cases x with
    | array vs | base _ _ vs => exact hlr vs
    | map _ m => exact her _
    | _ => simp [eqvView, rank_of_compare]
  · cases x <;> cases y <;> try cases h
    case array.array => exact hls _ _ h
    case map.map => exact hes _ _ h
    case base.base => exact hls _ _ h
    case empty.empty.refl | invalid.invalid.refl => rfl
    all_goals
      simp only [eqvView, rank_of_compare, Bool.and_eq_true, decide_eq_true_iff] at h ⊢
      grind
  · cases x <;> cases y <;> (try cases h₁) <;> cases z <;> try cases h₂
    case array.array.array => exact hlt _ _ _ h₁ h₂
    case map.map.map => exact het _ _ _ h₁ h₂
    case base.base.base => exact hlt _ _ _ h₁ h₂
    case empty.empty.refl.empty.refl | invalid.invalid.refl.invalid.refl => rfl
    all_goals
      simp only [eqvView, rank_of_compare, Bool.and_eq_true, decide_eq_true_iff] at h₁ h₂ ⊢
      grind

end

theorem eqv_isEqv (h : Heap) (n : Nat) : IsEqv (eqv h n) := by
  induction n with
  | zero => exact ⟨fun _ => rfl, fun _ _ _ => rfl, fun _ _ _ _ _ => rfl⟩
  | succ n ih =>
    obtain ⟨hrefl, hsymm, htrans⟩ := ih.view
    exact ⟨fun _ => hrefl _, fun _ _ => hsymm _ _, fun _ _ _ => htrans _ _ _⟩

/-- Keys are compared by their structure. -/
abbrev keyBEq (h : Heap) : BEq Value := ⟨eqv h 128⟩

theorem keyBEq_equiv (h : Heap) : @EquivBEq Value (keyBEq h) :=
  @EquivBEq.mk _ (keyBEq h) (@PartialEquivBEq.mk _ (keyBEq h) ((eqv_isEqv h 128).symm _ _)
    ((eqv_isEqv h 128).trans _ _ _)) (@ReflBEq.mk _ (keyBEq h) ((eqv_isEqv h 128).refl _))

end Arsh.Obj
