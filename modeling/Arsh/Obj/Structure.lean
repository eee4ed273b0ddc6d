import Arsh.Obj.Equality

/-!
# The loop of equality compares structures

`equality_spec`: for values of one type that are nested below the limit, `Equality` is the equality of
structures. A key in a map is compared by the same loop with less fuel, so the proof is by induction on it,
and within it on the depth of the values.
-/

namespace Arsh.Obj

open Map FrameStack

/-! ## The cost of a value -/

/-- The values in a value. -/
def children : View → List Value
  | .array vs | .base _ _ vs => vs
  | .map _ m => m.entries.live.flatMap fun e => [e.key, e.value]
  | _ => []

/-- The steps for a value, down to a depth. -/
def cost (h : Heap) : Nat → Value → Nat
  | 0, _ => 0
  | n + 1, v => ((children (view h v)).map fun c => cost h n c + 1).sum + 1

section
variable {pool : TypePool} {h : Heap} {ty : Ty} {m n : Nat} {x y : Value}

theorem cost_succ : cost h (n + 1) x =
    ((children (view h x)).map fun c => cost h n c + 1).sum + 1 := rfl

theorem le_sum_of_mem {l : List Nat} {a : Nat} (ha : a ∈ l) : a ≤ l.sum := by
  induction l with
  | nil => cases ha
  | cons b l ih =>
    rw [List.sum_cons]
    rcases List.mem_cons.1 ha with rfl | ha
    · exact Nat.le_add_right _ _
    · exact (ih ha).trans (Nat.le_add_left _ _)

theorem cost_child {c : Value} (hc : c ∈ children (view h x)) : cost h n c < cost h (n + 1) x := by
  have := le_sum_of_mem (List.mem_map_of_mem (f := fun c => cost h n c + 1) hc)
  rw [cost_succ]
  omega

/-! ## Depth -/

theorem isEqv_congr {E F : Value → Value → Bool} {vs ws : List Value}
    (hEF : ∀ v ∈ vs, ∀ w ∈ ws, E v w = F v w) : vs.isEqv ws E = vs.isEqv ws F := by
  induction vs generalizing ws with
  | nil => cases ws <;> rfl
  | cons v vs ih =>
    cases ws with
    | nil => rfl
    | cons w ws =>
      rw [List.isEqv, List.isEqv, hEF v List.mem_cons_self w List.mem_cons_self,
        ih fun v hv w hw => hEF v (List.mem_cons_of_mem _ hv) w (List.mem_cons_of_mem _ hw)]

theorem sameEntries_congr {E F : Value → Value → Bool} {m n : List (Entry Value Value)}
    (hkey : ∀ e ∈ m, ∀ f ∈ n, E e.key f.key = F e.key f.key)
    (hvalue : ∀ e ∈ m, ∀ f ∈ n, E e.value f.value = F e.value f.value) :
    sameEntries E m n = sameEntries F m n := by
  rw [Bool.eq_iff_iff, sameEntries_iff, sameEntries_iff]
  refine and_congr (forall₂_congr fun e he => exists_congr fun f => and_congr_right fun hf => ?_)
    (forall₂_congr fun f hf => exists_congr fun e => and_congr_right fun he => ?_)
  all_goals rw [hkey e he f hf, hvalue e he f hf]

/-- Equality of what has the same type looks at parts of the same type only. -/
theorem eqvView_congr {T : Ty → Value → Prop} {E F : Value → Value → Bool} {u w : View}
    (hEF : ∀ ty v w, T ty v → T ty w → E v w = F v w) (hu : ViewOk pool h T ty u)
    (hw : ViewOk pool h T ty w) : eqvView E u w = eqvView F u w := by
  cases u <;> cases w <;> try rfl
  case array.array vs ws =>
    obtain ⟨elem, hdef, hvs⟩ := hu
    obtain ⟨elem', hdef', hws⟩ := hw
    cases hdef.symm.trans hdef'
    exact isEqv_congr fun v hv w hw => hEF _ v w (hvs v hv) (hws w hw)
  case map.map seed m seed' n =>
    obtain ⟨key, value, hdef, -, hm, -⟩ := hu
    obtain ⟨key', value', hdef', -, hn, -⟩ := hw
    cases hdef.symm.trans hdef'
    exact sameEntries_congr (fun e he f hf => hEF _ _ _ (hm e he).1 (hn f hf).1)
      fun e he f hf => hEF _ _ _ (hm e he).2 (hn f hf).2
  case base.base id k vs id' k' ws =>
    obtain ⟨cached, fields, hdef, -, hvs, -⟩ := hu
    obtain ⟨cached', fields', hdef', -, hws, -⟩ := hw
    cases hdef.symm.trans hdef'
    have himp : ∀ {E F : Value → Value → Bool}, (∀ ty v w, T ty v → T ty w → E v w = F v w) →
        vs.isEqv ws E = true → vs.isEqv ws F = true := by
      intro E F hEF hE
      rw [isEqv_iff] at hE ⊢
      refine forall₂_fields (V := fun _ => True) (fun f v w _ hv hw hvw => ?_)
        (fun _ _ => trivial) hvs hws hE
      rw [← hEF f v w hv hw]
      exact hvw
    exact Bool.eq_iff_iff.2 ⟨himp hEF, himp fun ty v w hv hw => (hEF ty v w hv hw).symm⟩

/-- From its depth on, the structure of a value is all there is. -/
theorem eqv_of_typed (hx : Typed pool h n ty x) (hy : Typed pool h n ty y) (hle : n ≤ m) :
    eqv h m x y = eqv h n x y := by
  induction n generalizing m ty x y with
  | zero => exact hx.elim
  | succ n ih =>
    obtain ⟨m, rfl⟩ : ∃ k, m = k + 1 := ⟨m - 1, by omega⟩
    exact eqvView_congr (T := Typed pool h n) (fun ty v w hv hw => ih hv hw (by omega)) hx hy

/-- Keys are nested no deeper than their type. -/
theorem eqv_key (hty : ValueType pool keyDepth ty) (hx : Typed pool h n ty x)
    (hy : Typed pool h n ty y) : eqv h n x y = eqv h keyDepth x y := by
  have hx' := hx.of_valueType hty
  have hy' := hy.of_valueType hty
  rcases Nat.le_total n keyDepth with hle | hle
  · exact (eqv_of_typed hx hy hle).symm
  · exact eqv_of_typed hx' hy' hle

end

/-! ## Lookup of keys -/

section
variable {h : Heap} {seed : UInt64} {m : OrderedMap Value Value} {key : Value}
  {K : Value → Value → Bool}

/-- A search compares its key with those of entries only. -/
theorem hasKey_congr {E F : BEq Value} {hash : Value → UInt64}
    (hEF : ∀ e ∈ m.entries.live, E.beq key e.key = F.beq key e.key) :
    @OrderedMap.hasKey Value Value E hash m key = @OrderedMap.hasKey Value Value F hash m key := by
  funext i
  unfold OrderedMap.hasKey
  cases he : m.entries.get i with
  | none => rfl
  | some e =>
    show (hash key == e.hash && E.beq key e.key) = (hash key == e.hash && F.beq key e.key)
    rw [hEF e (OrderedMapEntries.mem_live.2 ⟨i, he⟩)]

/-- With keys compared by their structure, the entry of a key is found. -/
theorem lookup_eq_find (hm : MapOk h seed m)
    (hK : ∀ e ∈ m.entries.live, K key e.key = eqv h keyDepth key e.key)
    (hhash : ∀ e ∈ m.entries.live, eqv h keyDepth key e.key = true →
      key.hash h seed = e.key.hash h seed) :
    Equality.lookup h K seed m key =
      m.entries.live.find? fun f => eqv h keyDepth key f.key := by
  have hcongr : @OrderedMap.lookup Value Value ⟨K⟩ (Value.hash h seed) m key =
      @OrderedMap.lookup Value Value (keyBEq h) (Value.hash h seed) m key :=
    @lookup_congr _ _ (keyBEq h) _ m key _ ⟨K⟩ _ m key rfl rfl rfl
      (congrFun (hasKey_congr (E := ⟨K⟩) (F := keyBEq h) hK))
  obtain ⟨r, hr, hfind⟩ := @Inv.lookup_of Value Value (keyBEq h) (Value.hash h seed) m key
    (keyBEq_equiv h) hm hhash
  unfold Equality.lookup
  rw [hcongr, hr]
  exact hfind

end

/-! ## Frames -/

/-- A test that fails ends the loop. -/
def verdict (b : Bool) : Except (Stop Unit) Unit := if b then .ok () else .error (.halt ())

theorem traverse_verdict {C : Type} {p b : C → Bool} {cs : List C} :
    traverse (fun c _ => if p c then .ok () else .error ()) (fun c _ => verdict (b c)) .ok cs () =
      verdict (cs.all fun c => p c && b c) := by
  induction cs with
  | nil => rfl
  | cons c cs ih =>
    unfold FrameStack.traverse
    rw [List.all_cons]
    cases p c with
    | false => rfl
    | true =>
      cases b c with
      | false => rfl
      | true => exact ih

section
variable {pool : TypePool} {h : Heap} {ty : Ty} {m n r k : Nat} {x y : Value}
  {K : Value → Value → Bool} {step : StepFun OrdFrame Unit Unit} {frame : OrdFrame}

theorem below_test {b : Bool} (hstep : step () frame = Equality.test b) (k r : Nat) :
    Below step (k + 1) (r + 1) () frame (verdict b) := by
  show Eval step (k + 1) r () frame (verdict b)
  cases b with
  | false => exact .halt hstep
  | true => exact .pop hstep

/-- The frame has come to the pairs. -/
def AtPairs (x y : Value) (all : List (Value × Value)) (f : OrdFrame)
    (ps : List (Value × Value)) : Prop :=
  ∃ i, f = { x := x, y := y, xi := i, yi := i } ∧ ps = all.drop i

/-- The frame has come to the entries. -/
def AtEntries (x y : Value) (m : OrderedMap Value Value) (f : OrdFrame)
    (es : List (Entry Value Value)) : Prop :=
  ∃ i, f = { x := x, y := y, xi := i } ∧ es = (m.entries.values.drop i).filterMap id

theorem isEqv_eq_all {E : Value → Value → Bool} {vs ws : List Value} (hlen : vs.length = ws.length) :
    vs.isEqv ws E = (vs.zip ws).all fun p => E p.1 p.2 := by
  induction vs generalizing ws with
  | nil =>
    cases ws with
    | nil => rfl
    | cons w ws => cases hlen
  | cons v vs ih =>
    cases ws with
    | nil => cases hlen
    | cons w ws =>
      rw [List.isEqv, List.zip_cons_cons, List.all_cons, ih (Nat.succ.inj hlen)]

/-- Elements, or fields, are compared one after the other. -/
theorem below_elements {E : Value → Value → Bool} {c : Value → Nat} {vs ws : List Value}
    (hstep : ∀ i, step () { x := x, y := y, xi := i, yi := i } =
      if vs.length ≠ ws.length then Equality.fail
      else
        match vs[i]?, ws[i]? with
        | some v, some w =>
          .ok ((), .push { x := x, y := y, xi := i + 1, yi := i + 1 } { x := v, y := w })
        | _, _ => Equality.done)
    (hitem : ∀ p ∈ vs.zip ws, Below step (c p.1) r () { x := p.1, y := p.2 } (verdict (E p.1 p.2))) :
    Below step ((vs.map fun v => c v + 1).sum + 1) (r + 1) () { x := x, y := y }
      (verdict (vs.isEqv ws E)) := by
  by_cases hlen : vs.length = ws.length
  case neg =>
    have hne : vs.isEqv ws E = false := by
      rw [← Bool.not_eq_true, isEqv_iff]
      exact fun hvw => hlen hvw.length_eq
    rw [hne]
    exact below_test (b := false) ((hstep 0).trans (if_pos hlen)) _ r
  simp only [hlen, ne_eq, not_true_eq_false, if_false] at hstep
  have hnil : ∀ f u, AtPairs x y (vs.zip ws) f [] →
      step u f = (Except.ok u).map fun s => (s, .pop) := by
    rintro f u ⟨i, rfl, hi⟩
    have hle := List.drop_eq_nil_iff.1 hi.symm
    rw [List.length_zip, ← hlen, Nat.min_self] at hle
    rw [hstep i, List.getElem?_eq_none hle]
    rfl
  have hcons : ∀ f p ps u, AtPairs x y (vs.zip ws) f (p :: ps) →
      ∃ f', AtPairs x y (vs.zip ws) f' ps ∧
        step u f = (if true then Except.ok () else .error ()).map fun s =>
          (s, .push f' { x := p.1, y := p.2 }) := by
    rintro f p ps u ⟨i, rfl, hi⟩
    refine ⟨_, ⟨i + 1, rfl, ?_⟩, ?_⟩
    · rw [← List.tail_drop, ← hi]
      rfl
    · have hget : (vs.zip ws)[i]? = some p := by
        rw [← List.head?_drop, ← hi]
        rfl
      obtain ⟨hv, hw⟩ := List.getElem?_zip_eq_some.1 hget
      rw [hstep i, hv, hw]
      rfl
  have hbelow := below_traverse (r := r) (s := ()) hnil hcons (fun p hp _ => hitem p hp)
    ⟨0, rfl, rfl⟩
  have hcost : ((vs.zip ws).map fun p => c p.1 + 1) = vs.map fun v => c v + 1 := by
    calc (vs.zip ws).map (fun p => c p.1 + 1)
      _ = ((vs.zip ws).map Prod.fst).map fun v => c v + 1 := by
        rw [List.map_map]
        rfl
      _ = vs.map fun v => c v + 1 := by rw [List.map_fst_zip (by omega)]
  have hall := @traverse_verdict (Value × Value) (fun _ => true) (fun p => E p.1 p.2) (vs.zip ws)
  rw [isEqv_eq_all hlen, ← hcost]
  rw [hall] at hbelow
  exact hbelow

/-- The entries of the first map are looked for in the second one. -/
theorem below_entries {E : Value → Value → Bool} {c : Value → Nat} {m n : OrderedMap Value Value}
    {find : Entry Value Value → Option (Entry Value Value)}
    (hstep : ∀ i, step () { x := x, y := y, xi := i } =
      if m.size ≠ n.size then Equality.fail
      else
        match m.entries.get (skipEmptyEntries m.entries i) with
        | some e =>
          match find e with
          | some f => .ok ((), .push { x := x, y := y, xi := skipEmptyEntries m.entries i + 1 }
            { x := e.value, y := f.value })
          | none => Equality.fail
        | none => Equality.done)
    (hitem : ∀ e ∈ m.entries.live, ∀ f, (find e).getD e = f →
      Below step (c e.value) r () { x := e.value, y := f.value } (verdict (E e.value f.value))) :
    Below step ((m.entries.live.map fun e => c e.value + 1).sum + 1) (r + 1) () { x := x, y := y }
      (verdict (decide (m.size = n.size) && m.entries.live.all fun e =>
        (find e).isSome && E e.value ((find e).getD e).value)) := by
  by_cases hsize : m.size = n.size
  case neg =>
    rw [decide_eq_false hsize]
    exact below_test (b := false) ((hstep 0).trans (if_pos hsize)) _ r
  simp only [hsize, ne_eq, not_true_eq_false, if_false] at hstep
  rw [decide_eq_true hsize, Bool.true_and]
  have hnil : ∀ f u, AtEntries x y m f [] →
      step u f = (Except.ok u).map fun s => (s, .pop) := by
    rintro f u ⟨i, rfl, hi⟩
    obtain ⟨hget, -⟩ := skipEmptyEntries_spec m.entries i
    rw [← hi] at hget
    rw [hstep i, hget]
    rfl
  have hcons : ∀ f e es u, AtEntries x y m f (e :: es) →
      ∃ f', AtEntries x y m f' es ∧
        step u f = (if (find e).isSome then Except.ok () else .error ()).map fun s =>
          (s, .push f' { x := e.value, y := ((find e).getD e).value }) := by
    rintro f e es u ⟨i, rfl, hi⟩
    obtain ⟨hget, hrest⟩ := skipEmptyEntries_spec m.entries i
    rw [← hi] at hget hrest
    refine ⟨_, ⟨skipEmptyEntries m.entries i + 1, rfl, hrest.symm⟩, ?_⟩
    rw [hstep i, hget]
    dsimp only [List.head?_cons]
    cases find e <;> rfl
  have hbelow := below_traverse (r := r) (s := ()) hnil hcons
    (fun e he _ => hitem e he _ rfl) ⟨0, rfl, rfl⟩
  have hall := @traverse_verdict (Entry Value Value) (fun e => (find e).isSome)
    (fun e => E e.value ((find e).getD e).value) m.entries.live
  rw [← hall]
  exact hbelow

end

/-! ## Values -/

section
variable {pool : TypePool} {h : Heap} {ty : Ty} {n r k : Nat} {x y : Value}
  {K : Value → Value → Bool}

/-- The value of a type is no value of the virtual machine. -/
theorem ViewOk.isTyped {T : Ty → Value → Prop} {u : View} (hu : ViewOk pool h T ty u) :
    u.isTyped = true := by
  cases u <;> first | rfl | exact hu.elim

/-- What has parts is an object. -/
theorem object_of_parts (hleaf : (view h x).isLeaf = false) (hx : (view h x).isTyped = true) :
    ∃ a, x = .object a := by
  cases x <;> first | exact ⟨_, rfl⟩ | (cases hleaf; done) | cases hx

/-- What has parts is what the type says. -/
theorem ViewOk.array {T : Ty → Value → Prop} {u : View} {elem : Ty} (hu : ViewOk pool h T ty u)
    (hleaf : u.isLeaf = false) (hdef : pool ty.id = .array elem) :
    ∃ vs, u = .array vs ∧ ∀ v ∈ vs, T elem v := by
  cases u <;> (try cases hleaf) <;> (try exact hu.elim)
  case array vs =>
    obtain ⟨elem', hdef', hvs⟩ := hu
    cases hdef.symm.trans hdef'
    exact ⟨vs, rfl, hvs⟩
  all_goals
    obtain ⟨_, _, hdef', -⟩ := hu
    cases hdef.symm.trans hdef'

theorem ViewOk.map {T : Ty → Value → Prop} {u : View} {key value : Ty} (hu : ViewOk pool h T ty u)
    (hleaf : u.isLeaf = false) (hdef : pool ty.id = .map key value) :
    ∃ seed m, u = .map seed m ∧ (∀ e ∈ m.entries.live, T key e.key ∧ T value e.value) ∧
      MapOk h seed m := by
  cases u <;> (try cases hleaf) <;> (try exact hu.elim)
  case array =>
    obtain ⟨_, hdef', -⟩ := hu
    cases hdef.symm.trans hdef'
  case map seed m =>
    obtain ⟨key', value', hdef', -, hes, hm⟩ := hu
    cases hdef.symm.trans hdef'
    exact ⟨seed, m, rfl, hes, hm⟩
  case base =>
    obtain ⟨_, _, hdef', -⟩ := hu
    cases hdef.symm.trans hdef'

theorem ViewOk.base {T : Ty → Value → Prop} {u : View} {cached : Bool} {fields : List Ty}
    (hu : ViewOk pool h T ty u) (hleaf : u.isLeaf = false) (hdef : pool ty.id = .base cached fields) :
    ∃ id hash vs, u = .base id hash vs ∧ List.Forall₂ T fields vs := by
  cases u <;> (try cases hleaf) <;> (try exact hu.elim)
  case array =>
    obtain ⟨_, hdef', -⟩ := hu
    cases hdef.symm.trans hdef'
  case map =>
    obtain ⟨_, _, hdef', -⟩ := hu
    cases hdef.symm.trans hdef'
  case base id hash vs =>
    obtain ⟨cached', fields', hdef', -, hvs, -⟩ := hu
    cases hdef.symm.trans hdef'
    exact ⟨id, hash, vs, rfl, hvs⟩

/-- Keys of a map have different structures. -/
theorem MapOk.keysOk {seed : UInt64} {m : OrderedMap Value Value} (hm : MapOk h seed m) :
    KeysOk (eqv h keyDepth) m.entries.live :=
  @Content.keys _ _ (keyBEq h) _ _ (@Inv.content _ _ (keyBEq h) _ _ hm)

theorem MapOk.size {seed : UInt64} {m : OrderedMap Value Value} (hm : MapOk h seed m) :
    m.size = m.entries.live.length :=
  @Inv.size _ _ (keyBEq h) _ _ hm

theorem sum_values_le {c : Value → Nat} {es : List (Entry Value Value)} :
    (es.map fun e => c e.value).sum ≤
      ((es.flatMap fun e => [e.key, e.value]).map c).sum := by
  induction es with
  | nil => exact Nat.le_refl _
  | cons e es ih =>
    simp only [List.map_cons, List.sum_cons, List.flatMap_cons, List.map_append, List.sum_append,
      List.map_nil, List.sum_nil]
    omega

/-- The comparison of keys, as far as it is known to be that of structures. -/
def KeyEqOk (pool : TypePool) (h : Heap) (K : Value → Value → Bool) (k : Nat) : Prop :=
  ∀ n < stackDepthLimit, ∀ ty x y, ValueType pool keyDepth ty → Typed pool h n ty x →
    Typed pool h n ty y → cost h n x < k → K x y = eqv h n x y

/-- Fields of the same types, in pairs. -/
theorem typed_of_zip {T : Ty → Value → Prop} {fields : List Ty} {vs ws : List Value}
    (hvs : List.Forall₂ T fields vs) (hws : List.Forall₂ T fields ws) :
    ∀ p ∈ vs.zip ws, ∃ ty, T ty p.1 ∧ T ty p.2 := by
  induction hvs generalizing ws with
  | nil => exact nofun
  | @cons f v fields vs hv _ ih =>
    cases hws with
    | cons hw hws => exact List.forall_mem_cons.2 ⟨⟨f, hv, hw⟩, ih hws⟩

/-- The entries of the one map that are found in the other, and have equal values there. -/
theorem below_maps {key value : Ty} {seed seed' : UInt64} {m n : OrderedMap Value Value}
    (hkey : ValueType pool keyDepth key)
    (hes : ∀ e ∈ m.entries.live, Typed pool h r key e.key ∧ Typed pool h r value e.value)
    (hfs : ∀ f ∈ n.entries.live, Typed pool h r key f.key ∧ Typed pool h r value f.value)
    (hm : MapOk h seed m) (hn : MapOk h seed' n)
    (hK : ∀ e ∈ m.entries.live, ∀ f ∈ n.entries.live, K e.key f.key = eqv h r e.key f.key)
    (hitem : ∀ v w, Typed pool h r value v → Typed pool h r value w → v ∈ children (.map seed m) →
      Below (Equality.step h false K) (cost h r v) r () { x := v, y := w } (verdict (eqv h r v w)))
    (hstep : ∀ i, Equality.step h false K () { x := x, y := y, xi := i } =
      Equality.stepObject h K { x := x, y := y, xi := i } (.orderedMap seed m)
        (.orderedMap seed' n)) :
    Below (Equality.step h false K)
      (((children (.map seed m)).map fun c => cost h r c + 1).sum + 1) (r + 1) ()
      { x := x, y := y } (verdict (sameEntries (eqv h r) m.entries.live n.entries.live)) := by
  have hkeys : ∀ e ∈ m.entries.live, ∀ f ∈ n.entries.live,
      eqv h r e.key f.key = eqv h keyDepth e.key f.key :=
    fun e he f hf => eqv_key hkey (hes e he).1 (hfs f hf).1
  have hfind : ∀ e ∈ m.entries.live, Equality.lookup h K seed' n e.key =
      n.entries.live.find? fun f => eqv h keyDepth e.key f.key := by
    intro e he
    refine lookup_eq_find hn (fun f hf => ?_) fun f hf heq => ?_
    · exact (hK e he f hf).trans (hkeys e he f hf)
    · exact hash_of_eqv ((hes e he).1.of_valueType hkey) ((hfs f hf).1.of_valueType hkey) hkey heq
  have hvalue : ∀ e ∈ m.entries.live, Typed pool h r value
      ((Equality.lookup h K seed' n e.key).getD e).value := by
    intro e he
    rw [hfind e he]
    cases hf : n.entries.live.find? fun f => eqv h keyDepth e.key f.key with
    | none => exact (hes e he).2
    | some f => exact (hfs f (List.mem_of_find?_eq_some hf)).2
  have hsame : (decide (m.size = n.size) && m.entries.live.all fun e =>
      (Equality.lookup h K seed' n e.key).isSome && eqv h r e.value
        ((Equality.lookup h K seed' n e.key).getD e).value) =
      sameEntries (eqv h r) m.entries.live n.entries.live := by
    rw [Bool.eq_iff_iff, sameEntries_iff_find (eqv_isEqv h keyDepth) hm.keysOk hn.keysOk
      (fun e he f hf => (hkeys e he f hf).symm), Bool.and_eq_true, decide_eq_true_iff, hm.size,
      hn.size, List.all_eq_true]
    refine and_congr_right fun _ => forall₂_congr fun e he => ?_
    rw [hfind e he]
    cases n.entries.live.find? fun f => eqv h keyDepth e.key f.key <;> simp
  have hcost := @sum_values_le (fun v => cost h r v + 1) m.entries.live
  rw [← hsame]
  refine Below.mono (below_entries (c := cost h r) hstep fun e he f hf => ?_)
    (Nat.succ_le_succ hcost)
  rw [← hf]
  exact hitem _ _ (hes e he).2 (hvalue e he)
    (List.mem_flatMap.2 ⟨e, he, List.mem_cons_of_mem _ List.mem_cons_self⟩)

theorem below_eqv (hK : KeyEqOk pool h K k) (hr : r < stackDepthLimit) (hx : Typed pool h r ty x)
    (hy : Typed pool h r ty y) (hk : cost h r x ≤ k) :
    Below (Equality.step h false K) (cost h r x) r () { x := x, y := y }
      (verdict (eqv h r x y)) := by
  induction r generalizing ty x y with
  | zero => exact hx.elim
  | succ r ih =>
    have hrefl : eqv h (r + 1) x x = true := (eqv_isEqv h (r + 1)).refl x
    have hxt : (view h x).isTyped = true := ViewOk.isTyped hx
    have hyt : (view h y).isTyped = true := ViewOk.isTyped hy
    by_cases hleaf : (view h x).isLeaf = true ∨ (view h y).isLeaf = true
    · exact below_test (@step_leaf h K { x := x, y := y } (eqv h r) hleaf hxt hyt) _ r
    · rw [not_or, Bool.not_eq_true, Bool.not_eq_true] at hleaf
      obtain ⟨a, rfl⟩ := object_of_parts hleaf.1 hxt
      obtain ⟨b, rfl⟩ := object_of_parts hleaf.2 hyt
      have hobjects : ∀ xi yi, Equality.step h false K () ⟨.object a, .object b, xi, yi⟩ =
          if (h.get a).kind ≠ (h.get b).kind then Equality.fail
          else if a = b then Equality.done
          else Equality.stepObject h K ⟨.object a, .object b, xi, yi⟩ (h.get a) (h.get b) :=
        fun xi yi => step_objects rfl rfl hleaf.1
      by_cases hab : a = b
      · subst hab
        rw [hrefl]
        refine below_test (b := true) ?_ _ r
        rw [hobjects, if_neg (fun hne => hne rfl), if_pos rfl]
        rfl
      · have hitem : ∀ ty v w, Typed pool h r ty v → Typed pool h r ty w →
            v ∈ children (view h (.object a)) →
            Below (Equality.step h false K) (cost h r v) r () { x := v, y := w }
              (verdict (eqv h r v w)) :=
          fun ty v w hv hw hmem => ih (by omega) hv hw ((cost_child hmem).le.trans hk)
        have hlt : ∀ v ∈ children (view h (.object a)), cost h r v < k :=
          fun v hv => Nat.lt_of_lt_of_le (cost_child hv) hk
        show Below _ _ _ _ _ (verdict (eqvView (eqv h r) _ _))
        rw [cost_succ]
        unfold Typed at hx hy
        cases hvx : view h (.object a) with
        | array vs =>
          rw [hvx] at hx hitem
          obtain ⟨elem, hdef, hvs⟩ := hx
          obtain ⟨ws, hvy, hws⟩ := ViewOk.array hy hleaf.2 hdef
          rw [hvy]
          obtain ⟨_, ha, hobj⟩ := view_array hvx
          obtain ⟨_, hb, hobj'⟩ := view_array hvy
          cases ha
          cases hb
          refine below_elements (fun i => ?_) fun p hp => ?_
          · rw [hobjects, hobj, hobj', if_neg (fun hne => hne rfl), if_neg hab]
            rfl
          · obtain ⟨hv, hw⟩ := List.of_mem_zip hp
            exact hitem _ _ _ (hvs _ hv) (hws _ hw) hv
        | map seed m =>
          rw [hvx] at hx hitem hlt
          obtain ⟨key, value, hdef, hkey, hes, hm⟩ := hx
          obtain ⟨seed', n, hvy, hfs, hn⟩ := ViewOk.map hy hleaf.2 hdef
          rw [hvy]
          obtain ⟨_, ha, hobj⟩ := view_map hvx
          obtain ⟨_, hb, hobj'⟩ := view_map hvy
          cases ha
          cases hb
          refine below_maps hkey hes hfs hm hn (fun e he f hf => ?_)
            (fun v w hv hw hmem => hitem value v w hv hw hmem) fun i => ?_
          · exact hK r (by omega) key _ _ hkey (hes e he).1 (hfs f hf).1
              (hlt _ (List.mem_flatMap.2 ⟨e, he, List.mem_cons_self⟩))
          · rw [hobjects, hobj, hobj', if_neg (fun hne => hne rfl), if_neg hab]
        | base id hash vs =>
          rw [hvx] at hx hitem
          obtain ⟨cached, fields, hdef, -, hvs, -⟩ := hx
          obtain ⟨id', hash', ws, hvy, hws⟩ := ViewOk.base hy hleaf.2 hdef
          rw [hvy]
          obtain ⟨_, ha, hobj⟩ := view_base hvx
          obtain ⟨_, hb, hobj'⟩ := view_base hvy
          cases ha
          cases hb
          refine below_elements (fun i => ?_) fun p hp => ?_
          · rw [hobjects, hobj, hobj', if_neg (fun hne => hne rfl), if_neg hab]
            rfl
          · obtain ⟨ty, hv, hw⟩ := typed_of_zip hvs hws p hp
            exact hitem _ _ _ hv hw (List.of_mem_zip hp).1
        | _ =>
          rw [hvx] at hleaf hxt
          first | (cases hleaf.1; done) | cases hxt

/-- With enough steps, `Equality` is the equality of structures. -/
theorem equality_spec (hn : n < stackDepthLimit) (hx : Typed pool h n ty x) (hy : Typed pool h n ty y)
    (hk : cost h n x < k) : equality h false k x y = some (verdict (eqv h n x y)) := by
  induction k generalizing n ty x y with
  | zero => omega
  | succ k ih =>
    have hK : KeyEqOk pool h (fun a b => decide (equality h false k a b = some (.ok ()))) k := by
      intro n hn ty x y _ hx hy hk
      dsimp only
      rw [ih hn hx hy hk]
      cases eqv h n x y <;> rfl
    have hbelow := below_eqv hK hn hx hy (Nat.le_of_lt_succ hk)
    have hnot : verdict (eqv h n x y) ≠ .error .overflow := by
      cases eqv h n x y <;> nofun
    have hroom : Below _ (cost h n x) (254 + 1) () _ _ :=
      hbelow.more_room hnot (Nat.le_of_lt_succ hn)
    exact run_of_below hroom hk

end

end Arsh.Obj
