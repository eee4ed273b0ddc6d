import Arsh.Obj.Structure

/-!
# Lookup of keys

`OrderedMapKey` of `ordered_map.h` is a value, or a string that is not in a value. Keys of one type that
`Equality` makes equal have the same hash, and a string is found where the value of it is.
-/

namespace Arsh.Obj

open Map FrameStack

/-! ## The source -/

inductive OrderedMapKey where
  | ref (s : Bytes)
  | value (v : Value)

namespace OrderedMapKey

/-- `OrderedMapKey::equals`; `keyEq` is `Equality`. -/
def equals (h : Heap) (keyEq : Value → Value → Bool) : OrderedMapKey → Value → Bool
  | ref s, other => other.asStrRef h = some s
  | value v, other => keyEq v other

def hash (h : Heap) (seed : UInt64) : OrderedMapKey → UInt64
  | ref s => h.rapidhash s seed
  | value v => v.hash h seed

/-- The keys of entries are values. -/
abbrev keyBEq (h : Heap) (keyEq : Value → Value → Bool) : BEq OrderedMapKey where
  beq
    | key, value other => key.equals h keyEq other
    | _, ref _ => false

/-- A map, with its keys as keys to look for. -/
def keys (m : OrderedMap Value Value) : OrderedMap OrderedMapKey Value :=
  { bucketLen := m.bucketLen
    buckets := m.buckets
    entries :=
      { values := m.entries.values.map fun o => o.map fun e => ⟨value e.key, e.hash, e.value⟩
        capacity := m.entries.capacity } }

/-- `OrderedMapObject::lookup`: the index of the entry. -/
def lookup (h : Heap) (keyEq : Value → Value → Bool) (seed : UInt64) (m : OrderedMap Value Value)
    (key : OrderedMapKey) : Option (Option Nat) :=
  @OrderedMap.lookup OrderedMapKey Value (keyBEq h keyEq) (OrderedMapKey.hash h seed) (keys m) key

end OrderedMapKey

/-- The loop of `Equality` ends with the result: from some fuel on, more makes no difference. -/
def EqualityReturns (h : Heap) (partialEq : Bool) (x y : Value) (o : Except (Stop Unit) Unit) :
    Prop :=
  ∃ k, ∀ fuel, k ≤ fuel → equality h partialEq fuel x y = some o

/-! ## Lookup -/

section
variable {pool : TypePool} {h : Heap} {ty : Ty} {n : Nat} {x y : Value} {seed : UInt64}
  {m : OrderedMap Value Value} {K : Value → Value → Bool}

theorem equalityReturns_of_typed (hn : n < stackDepthLimit) (hx : Typed pool h n ty x)
    (hy : Typed pool h n ty y) : EqualityReturns h false x y (verdict (eqv h n x y)) :=
  ⟨cost h n x + 1, fun _ hfuel => equality_spec hn hx hy hfuel⟩

theorem EqualityReturns.unique {partialEq : Bool} {o o' : Except (Stop Unit) Unit}
    (ho : EqualityReturns h partialEq x y o) (ho' : EqualityReturns h partialEq x y o') : o = o' := by
  obtain ⟨k, hk⟩ := ho
  obtain ⟨k', hk'⟩ := ho'
  exact Option.some.inj ((hk _ (Nat.le_add_right k k')).symm.trans (hk' _ (Nat.le_add_left k' k)))

theorem keys_hasKey {hash : OrderedMapKey → UInt64} {key : OrderedMapKey} (i : Nat) :
    @OrderedMap.hasKey OrderedMapKey Value (OrderedMapKey.keyBEq h K) hash (OrderedMapKey.keys m) key
      i = (m.entries.get i).any fun e => hash key == e.hash && key.equals h K e.key := by
  unfold OrderedMap.hasKey OrderedMapEntries.get OrderedMapKey.keys
  rw [List.getElem?_map]
  cases m.entries.values[i]? with
  | none => rfl
  | some o => cases o <;> rfl

/-- Keys with the same hash that are equal to the same keys are found in the same place. -/
theorem OrderedMapKey.lookup_congr {key key' : OrderedMapKey}
    (hhash : key.hash h seed = key'.hash h seed)
    (hequals : ∀ e ∈ m.entries.live, key.equals h K e.key = key'.equals h K e.key) :
    key.lookup h K seed m = key'.lookup h K seed m := by
  refine @Map.lookup_congr _ _ (keyBEq h K) _ (keys m) key' _ (keyBEq h K) _ (keys m) key rfl rfl
    hhash fun i => ?_
  rw [keys_hasKey, keys_hasKey, hhash]
  cases he : m.entries.get i with
  | none => rfl
  | some e =>
    rw [Option.any_some, Option.any_some, hequals e (OrderedMapEntries.mem_live.2 ⟨i, he⟩)]

/-- With a value, this is the lookup of the comparison. -/
theorem OrderedMapKey.lookup_value (v : Value) : (value v).lookup h K seed m =
    @OrderedMap.lookup Value Value ⟨K⟩ (Value.hash h seed) m v :=
  @Map.lookup_congr _ _ ⟨K⟩ _ m v _ (keyBEq h K) _ (keys m) (value v) rfl rfl rfl fun i =>
    keys_hasKey i

/-- `Equality`, as keys are compared. -/
def keyEquality (h : Heap) (fuel : Nat) (x y : Value) : Bool :=
  decide (equality h false fuel x y = some (.ok ()))

theorem asStrRef_iff {s : Bytes} : x.asStrRef h = some s ↔ view h x = .str s := by
  rw [asStrRef_eq]
  cases view h x <;> simp

/-- Two steps are enough for a string. -/
theorem keyEquality_string {fuel : Nat} {s : Bytes} (hfuel : 2 ≤ fuel)
    (hty : pool ty.id = .string) (hy : Typed pool h n ty y) (hs : x.asStrRef h = some s) :
    keyEquality h fuel x y = (OrderedMapKey.ref s).equals h K y := by
  have hview := asStrRef_iff.1 hs
  have hx : Typed pool h 1 ty x := by
    show ViewOk _ _ _ _ (view h x)
    rw [hview]
    exact hty
  have hvalue : ValueType pool 1 ty := by
    unfold ValueType
    rw [hty]
    trivial
  have hcost : cost h 1 x < fuel := by
    rw [cost_succ, hview]
    exact hfuel
  have hspec := equality_spec (by decide) hx (hy.of_valueType hvalue) hcost
  have heq : eqv h 1 x y = eqvView (eqv h 0) (.str s) (view h y) := congrFun (congrArg _ hview) _
  unfold keyEquality OrderedMapKey.equals
  rw [hspec, heq]
  dsimp only
  rw [asStrRef_eq]
  cases view h y with
  | str t =>
    by_cases hst : s = t
    · subst hst
      simp [eqvView, verdict]
    · simp [eqvView, verdict, hst, Ne.symm hst]
  | _ => simp [eqvView, verdict]

/-! ## Results -/

/-- Keys of a type that are equal have the same hash, whatever represents them; a string and the value of
it are found in the same place. -/
theorem key_consistent (pool : TypePool) (h : Heap) :
    (∀ ty n x y, ValueType pool keyDepth ty → Typed pool h n ty x → Typed pool h n ty y →
      EqualityReturns h false x y (.ok ()) →
      ∀ seed, (OrderedMapKey.value x).hash h seed = (OrderedMapKey.value y).hash h seed) ∧
    ∀ ty seed (m : OrderedMap Value Value) s v fuel, pool ty.id = .string →
      (∀ e ∈ m.entries.live, ∃ n, Typed pool h n ty e.key) → v.asStrRef h = some s → 2 ≤ fuel →
      (OrderedMapKey.ref s).lookup h (keyEquality h fuel) seed m =
        (OrderedMapKey.value v).lookup h (keyEquality h fuel) seed m := by
  constructor
  · intro ty n x y hty hx hy hret seed
    have hx' := hx.of_valueType hty
    have hy' := hy.of_valueType hty
    have heq := (equalityReturns_of_typed (by decide) hx' hy').unique hret
    apply hash_of_eqv hx' hy' hty
    cases h' : eqv h keyDepth x y with
    | false =>
      rw [h'] at heq
      cases heq
    | true => rfl
  · intro ty seed m s v fuel hty hkeys hv hfuel
    refine OrderedMapKey.lookup_congr ?_ fun e he => ?_
    · refine (hash_of_view ?_).symm
      rw [asStrRef_iff.1 hv]
      rfl
    · obtain ⟨n, he⟩ := hkeys e he
      exact (keyEquality_string hfuel hty he hv).symm

end

/-- `rapidhash_withSeed`, of at most three bytes. -/
def rapidhashShort (s : Bytes) (seed : UInt64) : UInt64 :=
  let seed := seed ^^^ rapidMix (seed ^^^ 0x4b33a62ed433d4a3) 0x8bb84b93962eacc9
  let byteAt (i : Nat) : UInt64 := (s.getD i 0).toUInt64
  let a := byteAt 0 <<< 45 ||| byteAt (s.length - 1)
  let (a, b) := rapidMum (a ^^^ 0x8bb84b93962eacc9) (byteAt (s.length / 2) ^^^ seed)
  rapidMix (a ^^^ 0xaaaaaaaaaaaaaaaa) (b ^^^ 0x8bb84b93962eacc9 ^^^ .ofNat s.length)

/-- A record type with an integer and a flag. -/
def samplePool : TypePool
  | 0 => .int
  | 1 => .bool
  | 2 => .string
  | _ => .base true [⟨false, 0⟩, ⟨false, 1⟩]

/-- Two records, with the integer in the value and in an object, and two strings. -/
def sampleHeap : Heap :=
  let hash := (hashRange ⟨fun _ => .int 7, rapidhashShort⟩ [.smallInt 7, .bool true]).toUInt32
  { get
      | 0 => .int 7
      | 1 => .base 3 hash [.smallInt 7, .bool true]
      | 2 => .base 3 hash [.object 0, .bool true]
      | 3 => .string [98]
      | _ => .string [97]
    rapidhash := rapidhashShort }

theorem typed_sample (n : Nat) (v : Value) (hv : v = .smallInt 7 ∨ v = .object 0) (a : Addr)
    (hget : sampleHeap.get a = .base 3 (hashRange sampleHeap [v, .bool true]).toUInt32
      [v, .bool true]) : Typed samplePool sampleHeap (n + 2) ⟨false, 3⟩ (.object a) := by
  unfold Typed view
  dsimp only
  rw [hget]
  refine ⟨true, _, rfl, rfl, .cons ?_ (.cons rfl .nil), rfl⟩
  rcases hv with rfl | rfl <;> rfl

/-- A map with two keys, of which one is not an object. -/
def sampleMap : Option (OrderedMap Value Value) :=
  let insert (m : OrderedMap Value Value) (key value : Value) : Option (OrderedMap Value Value) :=
    (@OrderedMap.insert Value Value ⟨keyEquality sampleHeap 2⟩ (Value.hash sampleHeap 5) m (some key)
      value).map Prod.snd
  (insert {} (.object 3) (.smallInt 1)).bind fun m => insert m (.smallStr [97]) (.smallInt 2)

theorem typed_sampleMap {m : OrderedMap Value Value} (hm : sampleMap = some m) :
    ∀ e ∈ m.entries.live, ∃ n, Typed samplePool sampleHeap n ⟨false, 2⟩ e.key := by
  have hkeys : sampleMap.map (fun m => m.entries.live.map Entry.key) =
      some [.object 3, .smallStr [97]] := by decide +kernel
  rw [hm] at hkeys
  have hlive : m.entries.live.map Entry.key = _ := Option.some.inj hkeys
  intro e he
  have hkey := List.mem_map_of_mem (f := Entry.key) he
  rw [hlive] at hkey
  refine ⟨1, ?_⟩
  rcases List.mem_pair.1 hkey with hk | hk
  · rw [hk]
    rfl
  · rw [hk]
    rfl

theorem key_consistent_sample :
    (∀ seed, (Value.object 1).hash sampleHeap seed = (Value.object 2).hash sampleHeap seed) ∧
      ∃ m, sampleMap = some m ∧
        (OrderedMapKey.ref [97]).lookup sampleHeap (keyEquality sampleHeap 2) 5 m = some (some 1) ∧
        (OrderedMapKey.value (.object 4)).lookup sampleHeap (keyEquality sampleHeap 2) 5 m =
          some (some 1) := by
  obtain ⟨hhash, hlookup⟩ := key_consistent samplePool sampleHeap
  have hx := typed_sample 0 (.smallInt 7) (.inl rfl) 1 rfl
  have hy := typed_sample 0 (.object 0) (.inr rfl) 2 rfl
  constructor
  · refine hhash ⟨false, 3⟩ 2 _ _ ?_ hx hy ?_
    · show ∀ f ∈ [(⟨false, 0⟩ : Ty), ⟨false, 1⟩], ValueType samplePool 127 f
      simp only [List.forall_mem_cons, List.not_mem_nil, false_implies, implies_true, and_true]
      exact ⟨trivial, trivial⟩
    · have hret := equalityReturns_of_typed (by decide) hx hy
      have heq : eqv sampleHeap 2 (.object 1) (.object 2) = true := by decide
      rw [heq] at hret
      exact hret
  · have hfound : (sampleMap.bind fun m => (OrderedMapKey.ref [97]).lookup sampleHeap
        (keyEquality sampleHeap 2) 5 m) = some (some 1) := by decide +kernel
    obtain ⟨m, hm, href⟩ := Option.bind_eq_some_iff.1 hfound
    refine ⟨m, hm, href, ?_⟩
    rw [← hlookup ⟨false, 2⟩ 5 m [97] (.object 4) 2 rfl (typed_sampleMap hm) rfl (by decide)]
    exact href

end Arsh.Obj
